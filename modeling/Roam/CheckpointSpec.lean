import Roam.Checkpoint
import Roam.StoreDocSpec

namespace Roam
set_option autoImplicit true
open Library Library.Fallible

section Lines

/-- The lines of an op log that count: those of a readable text that are not blank. -/
def logLines (file : Option Bytes) : List Bytes :=
  match file with
  | some bytes => if validUtf8 bytes then (textLines bytes).filter fun line => !isBlank line else []
  | none => []

def Readable (file : Option Bytes) : Prop := validUtf8 (file.getD []) = true

/-- No line ends in a carriage return: a file that is written again loses those. -/
def Clean (file : Option Bytes) : Prop := ∀ line ∈ logLines file, stripCr line = line

theorem countLogLines_eq (file : Option Bytes) : countLogLines file = (logLines file).length := by
  cases file with
  | none => rfl
  | some bytes =>
    rw [countLogLines, logLines]
    split
    next => rfl
    next => rfl

theorem logLines_some (h : validUtf8 bytes = true) :
    logLines (some bytes) = (textLines bytes).filter fun line => !isBlank line := by
  rw [logLines, if_pos h]

theorem mem_logLines (h : line ∈ logLines file) :
    10 ∉ line ∧ isBlank line = false ∧ validUtf8 line = true := by
  cases file with
  | none => cases h
  | some bytes =>
    rw [logLines] at h
    split at h
    next hv =>
      obtain ⟨lines, tail, rfl, hl, ht⟩ := exists_joinLines 10 bytes
      obtain ⟨hlines, htail⟩ := validUtf8_lines hv
      rw [List.mem_filter, textLines_joinLines hl ht, List.mem_append, List.mem_map,
        Bool.not_eq_true'] at h
      obtain ⟨hm, hblank⟩ := h
      cases hm with
      | inl hm =>
        obtain ⟨raw, hraw, rfl⟩ := hm
        exact ⟨fun h10 => hl raw hraw (mem_of_mem_stripCr h10), hblank,
          validUtf8_stripCr (hlines raw hraw)⟩
      | inr hm =>
        split at hm
        next => cases hm
        next =>
          obtain rfl := List.mem_singleton.1 hm
          exact ⟨ht, hblank, htail⟩
    next => cases h

theorem logLines_rewritten (hs : lines ⊆ logLines file) : validUtf8 (joinLines 10 lines) = true ∧
    logLines (some (joinLines 10 lines)) = lines.map stripCr := by
  have hv : validUtf8 (joinLines 10 lines) = true := by
    have hlines := @validUtf8_joinLines lines [] fun line h => (mem_logLines (hs h)).2.2
    rw [List.append_nil] at hlines
    exact hlines.trans rfl
  have hread := @textLines_joinLines lines [] (fun line h => (mem_logLines (hs h)).1)
    List.not_mem_nil
  rw [List.append_nil, if_pos rfl, List.append_nil] at hread
  refine ⟨hv, ?_⟩
  rw [logLines_some hv, hread, List.filter_eq_self]
  intro line h
  obtain ⟨raw, hraw, rfl⟩ := List.mem_map.1 h
  rw [isBlank_stripCr (mem_logLines (hs hraw)).2.1]
  rfl

theorem logLines_joinLines (hc : Clean file) (hs : lines ⊆ logLines file) :
    validUtf8 (joinLines 10 lines) = true ∧ logLines (some (joinLines 10 lines)) = lines := by
  obtain ⟨hv, hl⟩ := logLines_rewritten hs
  rw [hl, List.map_congr_left fun line h => hc line (hs h), List.map_id']
  exact ⟨hv, rfl⟩

def lineText (line : Bytes) : Bytes := if line.getLast? = some 10 then stripCr line.dropLast
    else line

theorem textLines_eq_map (bytes : Bytes) :
    textLines bytes = (splitLogLines bytes).map lineText := by
  obtain ⟨lines, tail, rfl, hl, ht⟩ := exists_joinLines 10 bytes
  have hwhole : (fun line : Bytes => lineText (line ++ [10])) = stripCr := by
    funext line
    rw [lineText, List.getLast?_concat, if_pos rfl, List.dropLast_concat]
  rw [textLines_joinLines hl ht, splitLogLines, splitOn_joinLines hl ht, List.dropLast_concat,
    List.getLast?_concat, List.map_append, List.map_map, Function.comp_def, hwhole]
  cases tail with
  | nil => rfl
  | cons b tail =>
    have htail : lineText (b :: tail) = b :: tail := by
      rw [lineText, if_neg]
      exact fun hlast => ht (List.mem_of_getLast? hlast)
    rw [if_neg (List.cons_ne_nil b tail)]
    exact congrArg (fun line => _ ++ [line]) htail.symm

theorem textLines_eq_nil (h : textLines bytes = []) : bytes = [] := by
  obtain ⟨lines, tail, rfl, hl, ht⟩ := exists_joinLines 10 bytes
  rw [textLines_joinLines hl ht, List.append_eq_nil_iff, List.map_eq_nil_iff] at h
  obtain ⟨rfl, htail⟩ := h
  by_cases hnil : tail = []
  · rw [hnil]
    rfl
  · rw [if_neg hnil] at htail
    cases htail

/-- A log that lost some of its first lines. -/
structure Shortened (file file' : Option Bytes) : Prop where
  lines : ∃ n, logLines file' = (logLines file).drop n
  readable : Readable file → Readable file'

theorem Shortened.refl (file : Option Bytes) : Shortened file file := ⟨⟨0, rfl⟩, id⟩

theorem Shortened.trans (h : Shortened file file') (h' : Shortened file' file'') :
    Shortened file file'' where
  lines := by
    obtain ⟨n, hn⟩ := h.lines
    obtain ⟨n', hn'⟩ := h'.lines
    exact ⟨n + n', by rw [hn', hn, List.drop_drop]⟩
  readable hr := h'.readable (h.readable hr)

theorem Shortened.clean (h : Shortened file file') (hc : Clean file) : Clean file' := by
  obtain ⟨n, hn⟩ := h.lines
  intro line hl
  exact hc line (List.mem_of_mem_drop (hn ▸ hl))

theorem Shortened.drop (hc : Clean file) (n : Nat) :
    Shortened file (some (joinLines 10 ((logLines file).drop n))) := by
  obtain ⟨hv, hl⟩ := logLines_joinLines hc (List.drop_subset n _)
  exact ⟨⟨n, hl⟩, fun _ => hv⟩

end Lines

namespace Store
variable {π : Platform} {s s' s'' : Store π}

section Compaction

structure SameLogs (s s' : Store π) : Prop where
  identity : s'.identity = s.identity
  peers : s'.peers = s.peers
  ops : s'.disk.ops = s.disk.ops

theorem SameLogs.refl (s : Store π) : SameLogs s s := ⟨rfl, rfl, rfl⟩

theorem SameLogs.trans (h : SameLogs s s') (h' : SameLogs s' s'') : SameLogs s s'' :=
  ⟨h'.identity.trans h.identity, h'.peers.trans h.peers, h'.ops.trans h.ops⟩

instance : IsPreorder (Store π) SameLogs where
  refl := .refl
  trans _ _ _ := .trans

section Steps
variable {R : Store π → Store π → Prop} [IsPreorder (Store π) R]

theorem checkoutHashes_leaves (h : ∀ (s : Store π) doc, R s { s with doc }) (frontier : String) :
    Leaves R (checkoutHashes frontier : StoreM π _) := by
  refine (Leaves.ofResult (decodeFrontier π frontier)).bind fun f => ⟨fun s => ?_⟩
  rw [exec_bind, exec_get]
  dsimp only
  rw [exec_bind, exec_ofDoc]
  cases π.checkout s.doc f with
  | error msg => exact refl_of R s
  | ok doc => exact h s doc

theorem referencedHashes_leaves (h : ∀ (s : Store π) doc, R s { s with doc })
    (retained : List String) : Leaves R (referencedHashes retained : StoreM π _) := by
  refine (Leaves.mapM fun f _ => checkoutHashes_leaves h f).bind fun past => ?_
  exact (Leaves.modify fun s => h s (π.checkoutLatest s.doc)).bind fun _ =>
    Leaves.get.bind fun _ => .pure _

theorem exec_shallowAt (target : Marker) (s : Store π) : (exec (shallowAt target) s).2 = s := by
  simp only [shallowAt, exec_bind, exec_ofResult, exec_get, exec_ofDoc]
  cases decodeFrontier π target.frontier with
  | error err => rfl
  | ok f => rfl

theorem shallowAt_leaves (target : Marker) : Leaves R (shallowAt target : StoreM π _) := by
  refine ⟨fun s => ?_⟩
  rw [exec_shallowAt]
  exact refl_of R s

theorem saveSnapshot_leaves (h : ∀ (s : Store π) bytes, R s { s with disk.snapshot := some bytes })
    (io : Io) (bytes : Bytes) : Leaves R (saveSnapshot io bytes : StoreM π _) :=
  (Leaves.ofResult _).bind fun _ => .modify fun s => h s bytes

theorem truncateLogs_leaves (h : ∀ (s : Store π) peer bytes, R s (s.withOps peer bytes))
    (io : UInt64 → Io) (logs : List (UInt64 × Nat)) :
    Leaves R (truncateLogs io logs : StoreM π _) := by
  induction logs with
  | nil => exact .pure ()
  | cons log logs ih =>
    have hone : Leaves R (truncateLeadingLines (io log.1) log.1 log.2 : StoreM π Unit) := by
      refine ⟨fun s => ?_⟩
      rw [truncateLeadingLines, exec_bind, exec_get]
      dsimp only
      split
      · exact refl_of R s
      · split
        · rw [exec_bind, exec_ofResult]
          cases (io log.1).result with
          | error e => exact refl_of R s
          | ok u => exact h s log.1 _
        · exact refl_of R s
    exact hone.bind fun _ => ih

theorem reclaimBlobs_leaves
    (h : ∀ (s : Store π) hash, R s { s with disk.blobs := s.disk.blobs.erase hash })
    (io : String → Io) (referenced : List String) :
    Leaves R (reclaimBlobs io referenced : StoreM π _) := by
  refine Leaves.get.bind fun s => Leaves.foldlM ?_
  intro freed blob
  split
  · exact .pure freed
  · have hremove : Leaves R (removeBlob (io blob.1) blob.1 : StoreM π _) :=
      (Leaves.ofResult _).bind fun _ => .modify fun s => h s blob.1
    exact hremove.bind fun _ => .pure _

theorem rewriteHistory_leaves (h : ∀ (s : Store π) bytes, R s { s with disk.history := some bytes })
    (io : Io) (all : List Marker) (keepFrom : Int) :
    Leaves R (rewriteHistory io all keepFrom : StoreM π _) :=
  (Leaves.ofResult _).bind fun _ => .modify fun s => h s _

end Steps

inductive Compacted (io : CheckpointIo) (beforeTs : Int) (s : Store π) :
    Except StorageError Nat → Store π → Prop
  | kept (r : Except StorageError Nat) (s' : Store π) (hs : SameLogs s s')
      (h : r.isOk → markerBefore π s.disk.history beforeTs = .ok none) :
      Compacted io beforeTs s r s'
  | truncated (target : Marker) (t : Store π) (r : Except StorageError Nat) (s' : Store π)
      (hsel : markerBefore π s.disk.history beforeTs = .ok (some target)) (ht : SameLogs s t)
      (hs : SameLogs (exec (truncateLogs io.truncate target.logLens) t).2 s')
      (h : r.isOk → (exec (truncateLogs io.truncate target.logLens) t).1 = .ok ()) :
      Compacted io beforeTs s r s'

theorem exec_between {before : StoreM π α} {op : StoreM π Unit} {after : α → StoreM π β}
    (hb : Leaves SameLogs before) (ha : ∀ a, Leaves SameLogs (after a)) (s : Store π) :
    (SameLogs s (exec (before >>= fun a => op >>= fun _ => after a) s).2 ∧
        (exec (before >>= fun a => op >>= fun _ => after a) s).1.isOk = false) ∨ ∃ t, SameLogs s t ∧
        SameLogs (exec op t).2 (exec (before >>= fun a => op >>= fun _ => after a) s).2 ∧
        ((exec (before >>= fun a => op >>= fun _ => after a) s).1.isOk →
          (exec op t).1 = .ok ()) := by
  have hs := hb.holds s
  rw [exec_bind]
  cases hbefore : exec before s with
  | mk r t =>
    rw [hbefore] at hs
    cases r with
    | error err => exact .inl ⟨hs, rfl⟩
    | ok a =>
      refine .inr ⟨t, hs, ?_⟩
      simp only [exec_bind]
      cases hop : exec op t with
      | mk r' t' =>
        cases r' with
        | error err => exact ⟨.refl t', nofun⟩
        | ok u => exact ⟨(ha a).holds t', fun _ => rfl⟩

theorem checkpoint_outcome (io : CheckpointIo) (beforeTs : Int) (s : Store π) :
    Compacted io beforeTs s (exec (checkpoint io beforeTs) s).1
      (exec (checkpoint io beforeTs) s).2 := by
  simp only [checkpoint, exec_bind, exec_get, exec_ofResult]
  cases hsel : markerBefore π s.disk.history beforeTs with
  | error err => exact .kept _ _ (.refl s) nofun
  | ok target? =>
    cases target? with
    | none => exact .kept _ _ (.refl s) fun _ => hsel
    | some target =>
      simp only [@exec_bind _ _ _ _ s (ofResult (markers π s.disk.history)), exec_ofResult]
      cases markers π s.disk.history with
      | error err => exact .kept _ _ (.refl s) nofun
      | ok all =>
        have hprepare : Leaves SameLogs (do
            let referenced ← referencedHashes (retainedFrontiers all target)
            let shallow ← shallowAt target
            saveSnapshot io.snapshot shallow
            pure referenced : StoreM π (List String)) :=
          (referencedHashes_leaves (fun _ _ => ⟨rfl, rfl, rfl⟩) _).bind fun _ =>
            (shallowAt_leaves _).bind fun _ =>
              (saveSnapshot_leaves (fun _ _ => ⟨rfl, rfl, rfl⟩) _ _).bind fun _ => .pure _
        have hfinish (referenced : List String) : Leaves SameLogs (do
            let freed ← reclaimBlobs io.remove referenced
            rewriteHistory io.history all target.tsMs
            pure freed : StoreM π Nat) :=
          (reclaimBlobs_leaves (fun _ _ => ⟨rfl, rfl, rfl⟩) _ _).bind fun _ =>
            (rewriteHistory_leaves (fun _ _ => ⟨rfl, rfl, rfl⟩) _ _ _).bind fun _ => .pure _
        have hrun := @exec_between π _ _ _ (truncateLogs io.truncate target.logLens) _ hprepare
          hfinish s
        simp only [bind_assoc, pure_bind] at hrun
        cases hrun with
        | inl h =>
          refine .kept _ _ h.1 ?_
          intro hok
          exact absurd hok (Bool.eq_false_iff.1 h.2)
        | inr h =>
          obtain ⟨t, ht, hs, hok⟩ := h
          exact .truncated target t _ _ hsel ht hs hok

def subsumed (s : Store π) (logs : List (UInt64 × Nat)) : List (UInt64 × Bytes) :=
  logs.flatMap fun log =>
    ((splitLogLines (s.exportPeerLog log.1)).take log.2).map fun line => (log.1, line)

theorem subsumed_cons (s : Store π) (log : UInt64 × Nat) (logs : List (UInt64 × Nat)) :
    s.subsumed (log :: logs) =
      ((splitLogLines (s.exportPeerLog log.1)).take log.2).map (fun line => (log.1, line)) ++
        s.subsumed logs :=
  List.flatMap_cons

theorem subsumed_other (s : Store π) (hp : p ∉ logs.map Prod.fst) :
    (s.subsumed logs).filter (fun line => line.1 = p) = [] := by
  rw [List.filter_eq_nil_iff]
  intro line hl
  obtain ⟨log, hlog, hl⟩ := List.mem_flatMap.1 hl
  obtain ⟨text, _, rfl⟩ := List.mem_map.1 hl
  rw [decide_eq_true_eq]
  rintro rfl
  exact hp (List.mem_map_of_mem hlog)

theorem filter_subsumed (s : Store π) (hn : (logs.map Prod.fst).Nodup) (hm : (p, n) ∈ logs) :
    (s.subsumed logs).filter (fun line => line.1 = p) =
      ((splitLogLines (s.exportPeerLog p)).take n).map fun line => (p, line) := by
  induction logs with
  | nil => cases hm
  | cons log logs ih =>
    rw [List.map_cons, List.nodup_cons] at hn
    rw [subsumed_cons, List.filter_append]
    cases List.mem_cons.1 hm with
    | inl heq =>
      subst heq
      rw [subsumed_other s hn.1, List.append_nil, List.filter_eq_self]
      intro line hl
      obtain ⟨text, _, rfl⟩ := List.mem_map.1 hl
      exact decide_eq_true rfl
    | inr hm =>
      have hne : log.1 ≠ p := by
        intro heq
        exact hn.1 (heq ▸ List.mem_map_of_mem hm)
      rw [ih hn.2 hm, List.filter_eq_nil_iff.2, List.nil_append]
      intro line hl
      obtain ⟨text, _, rfl⟩ := List.mem_map.1 hl
      exact fun heq => hne (of_decide_eq_true heq)

theorem buildBackendSnapshot_outcome (beforeTs : Int) (s : Store π) :
    SameLogs s (exec (buildBackendSnapshot beforeTs) s).2 ∧
      ∀ snap, (exec (buildBackendSnapshot beforeTs) s).1 = .ok (some snap) →
        ∃ target, markerBefore π s.disk.history beforeTs = .ok (some target) ∧
          snap.subsumedLines = s.subsumed target.logLens := by
  simp only [buildBackendSnapshot, exec_bind, exec_get, exec_ofResult]
  cases hsel : markerBefore π s.disk.history beforeTs with
  | error err => exact ⟨.refl s, nofun⟩
  | ok target? =>
    cases target? with
    | none => exact ⟨.refl s, nofun⟩
    | some target =>
      simp only [exec_bind, exec_ofResult, exec_get, exec_pure]
      cases (π.b64Decode target.frontier).mapError StorageError.base64 with
      | error err => exact ⟨.refl s, nofun⟩
      | ok frontier =>
        have hstate := exec_shallowAt target s
        simp only []
        cases hshallow : exec (shallowAt target) s with
        | mk r t =>
          rw [hshallow] at hstate
          obtain rfl : s = t := hstate.symm
          cases r with
          | error err => exact ⟨.refl s, nofun⟩
          | ok bytes =>
            simp only []
            cases hr : exec (referencedHashes [target.frontier]) s with
            | mk r' t' =>
              have hrefs : SameLogs s t' :=
                (referencedHashes_leaves (fun _ _ => ⟨rfl, rfl, rfl⟩) _).of_exec hr
              cases r' with
              | error err => exact ⟨hrefs, nofun⟩
              | ok refs =>
                refine ⟨hrefs, ?_⟩
                intro snap hsnap
                cases hsnap
                exact ⟨target, rfl, rfl⟩

inductive Truncated (peer : UInt64) (n : Nat) (s : Store π) :
    Except StorageError Unit → Store π → Prop
  | failed (err : StorageError) : Truncated peer n s (.error err) s
  | missing (h : s.disk.ops[peer]? = none) : Truncated peer n s (.ok ()) s
  | dropped (bytes : Bytes) (h : s.disk.ops[peer]? = some bytes) :
      Truncated peer n s (.ok ())
        (s.withOps peer (joinLines 10 ((logLines s.disk.ops[peer]?).drop n)))

theorem truncateLeadingLines_outcome (io : Io) (peer : UInt64) (n : Nat) (s : Store π) :
    Truncated peer n s (exec (truncateLeadingLines io peer n) s).1
      (exec (truncateLeadingLines io peer n) s).2 := by
  simp only [truncateLeadingLines, exec_bind, exec_get]
  cases hfile : s.disk.ops[peer]? with
  | none => exact .missing hfile
  | some bytes =>
    simp only []
    by_cases hv : validUtf8 bytes = true
    · simp only [hv, ↓reduceIte, exec_bind, exec_ofResult, exec_set]
      cases io.result with
      | error err => exact .failed err
      | ok u =>
        have hlines := logLines_some hv
        rw [← hfile] at hlines
        rw [← hlines]
        exact .dropped bytes hfile
    · rw [if_neg hv]
      exact .failed _

theorem Truncated.identity (h : Truncated peer n s r s') :
    s'.identity = s.identity ∧ s'.peers = s.peers := by
  cases h with
  | failed err => exact ⟨rfl, rfl⟩
  | missing h => exact ⟨rfl, rfl⟩
  | dropped bytes h => exact ⟨rfl, rfl⟩

theorem Truncated.other (h : Truncated peer n s r s') (hp : q ≠ peer) :
    s'.disk.ops[q]? = s.disk.ops[q]? := by
  cases h with
  | failed err => rfl
  | missing h => rfl
  | dropped bytes h =>
    rw [withOps, get_insert, if_neg hp.symm]

theorem Truncated.shortened (h : Truncated peer n s r s') (hc : ∀ p : UInt64, Clean s.disk.ops[p]?)
    (p : UInt64) : Shortened s.disk.ops[p]? s'.disk.ops[p]? := by
  by_cases hp : p = peer
  · subst hp
    cases h with
    | failed err => exact .refl _
    | missing h => exact .refl _
    | dropped bytes h =>
      rw [withOps, Std.TreeMap.getElem?_insert_self]
      exact .drop (hc p) n
  · rw [h.other hp]
    exact .refl _

theorem Truncated.file (h : Truncated peer n s (.ok ()) s') : s'.disk.ops[peer]? =
      s.disk.ops[peer]?.map fun _ => joinLines 10 ((logLines s.disk.ops[peer]?).drop n) := by
  cases h with
  | missing h =>
    rw [h]
    rfl
  | dropped bytes h =>
    rw [withOps, Std.TreeMap.getElem?_insert_self, h]
    rfl

/-- How the truncation of several logs ends: one after the other, up to the first that fails. -/
inductive TruncatedAll :
    List (UInt64 × Nat) → Store π → Except StorageError Unit → Store π → Prop
  | nil (s : Store π) : TruncatedAll [] s (.ok ()) s
  | failed {s t : Store π} (h : Truncated log.1 log.2 s (.error err) t) :
      TruncatedAll (log :: logs) s (.error err) t
  | cons {s t u : Store π} (h : Truncated log.1 log.2 s (.ok ()) t)
      (hrest : TruncatedAll logs t r u) : TruncatedAll (log :: logs) s r u

theorem truncateLogs_cons (io : UInt64 → Io) (log : UInt64 × Nat) (logs : List (UInt64 × Nat)) :
    (truncateLogs io (log :: logs) : StoreM π Unit) =
      truncateLeadingLines (io log.1) log.1 log.2 >>= fun _ => truncateLogs io logs :=
  List.forM_cons

theorem truncateLogs_outcome (io : UInt64 → Io) (logs : List (UInt64 × Nat)) (s : Store π) :
    TruncatedAll logs s (exec (truncateLogs io logs) s).1 (exec (truncateLogs io logs) s).2 := by
  induction logs generalizing s with
  | nil => exact .nil s
  | cons log logs ih =>
    have hone := truncateLeadingLines_outcome (io log.1) log.1 log.2 s
    rw [truncateLogs_cons, exec_bind]
    cases hrun : exec (truncateLeadingLines (io log.1) log.1 log.2) s with
    | mk r t =>
      rw [hrun] at hone
      cases r with
      | error err => exact .failed hone
      | ok u => exact .cons hone (ih t)

theorem TruncatedAll.shortened (h : TruncatedAll logs s r s')
    (hc : ∀ p : UInt64, Clean s.disk.ops[p]?) (p : UInt64) :
    Shortened s.disk.ops[p]? s'.disk.ops[p]? := by
  induction h with
  | nil s => exact .refl _
  | failed h => exact h.shortened hc p
  | cons h _ ih => exact (h.shortened hc p).trans (ih fun q => (h.shortened hc q).clean (hc q))

theorem TruncatedAll.other (h : TruncatedAll logs s r s') (hp : p ∉ logs.map Prod.fst) :
    s'.disk.ops[p]? = s.disk.ops[p]? := by
  induction h with
  | nil s => rfl
  | failed h => exact h.other (List.ne_of_not_mem_cons hp)
  | cons h _ ih =>
    exact (ih (List.not_mem_of_not_mem_cons hp)).trans (h.other (List.ne_of_not_mem_cons hp))

theorem TruncatedAll.file (h : TruncatedAll logs s r s') (hr : r = .ok ())
    (hn : (logs.map Prod.fst).Nodup) (hm : (p, n) ∈ logs) : s'.disk.ops[p]? =
      s.disk.ops[p]?.map fun _ => joinLines 10 ((logLines s.disk.ops[p]?).drop n) := by
  induction h with
  | nil s => cases hm
  | failed h => cases hr
  | cons h hrest ih =>
    rw [List.map_cons, List.nodup_cons] at hn
    cases List.mem_cons.1 hm with
    | inl heq =>
      subst heq
      rw [hrest.other hn.1, h.file]
    | inr hm =>
      rw [ih hr hn.2 hm, h.other fun heq => hn.1 (heq ▸ List.mem_map_of_mem hm)]

theorem TruncatedAll.lines (h : TruncatedAll logs s r s') (hr : r = .ok ())
    (hn : (logs.map Prod.fst).Nodup) (hm : (p, n) ∈ logs) (hc : Clean s.disk.ops[p]?) :
    logLines s'.disk.ops[p]? = (logLines s.disk.ops[p]?).drop n := by
  rw [h.file hr hn hm]
  cases hfile : s.disk.ops[p]? with
  | none => exact List.drop_nil.symm
  | some bytes => exact (logLines_joinLines (hfile ▸ hc) (List.drop_subset n _)).2

end Compaction

end Store

end Roam
