import Roam.CompactedLogs
import Roam.Reopen

namespace Roam
set_option autoImplicit true
open Library Library.Fallible

namespace Store
variable {π : Platform}

section Pull

def addLine (acc : List Bytes × Bytes × Nat) (line : Bytes) : List Bytes × Bytes × Nat :=
  let (seen, whole, added) := acc
  if line ∈ seen then acc
  else
    let whole := if whole ≠ [] ∧ whole.getLast? ≠ some 10 then whole ++ [10] else whole
    (line :: seen, whole ++ line, added + 1)

/-- A log with the new ones of some lines appended, and the number of those. -/
def addLines (existing : Bytes) (lines : List Bytes) : Bytes × Nat :=
  let (_, whole, added) := lines.foldl addLine (splitLogLines existing, existing, 0)
  (if whole.getLast? = some 10 then whole else whole ++ [10], added)

def dedupAppendPeerLines (io : Io) (author : UInt64) (key : Bytes32) (lines : List Bytes) :
    StoreM π Nat := do
  let s ← get
  if author = s.peerId then pure 0
  else
    let (whole, added) := addLines (s.exportPeerLog author) lines
    if added = 0 then pure 0
    else
      importPeerIo io author key whole
      pure added

end Pull

end Store

inductive PullCall (π : Platform)
  | call (c : StoreCall π)
  | appendLines (io : Io) (author : UInt64) (key : Bytes32) (lines : List Bytes)

/-- Documents whose shallow snapshots hold what the whole ones hold, and that lose nothing by being
shown at an earlier version. -/
structure SnapshotModel (π : Platform) extends DocModel π where
  shallow_ok : ∀ doc f bytes, π.shallowSnapshot doc f = .ok bytes →
    ops bytes = ready past (absorbed doc)
  checkout_ok : ∀ doc f doc', π.checkout doc f = .ok doc' → absorbed doc' = absorbed doc
  latest_eq : ∀ doc, absorbed (π.checkoutLatest doc) = absorbed doc

section LineOps
variable {π : Platform} {m : DocModel π}

def DocModel.lineOps (m : DocModel π) (line : Bytes) : Set m.Op :=
  { o | isBlank line = false ∧ ∃ parsed update, π.opJson.parse line = .ok parsed ∧
    π.b64Decode parsed.update = .ok update ∧ o ∈ m.ops update }

def DocModel.logOps (m : DocModel π) (text : Bytes) : Set m.Op :=
  { o | ∃ line ∈ textLines text, o ∈ m.lineOps line }

theorem DocModel.lineOps_of_reads (h : (opReader π peer key).Reads line e)
    (ho : o ∈ m.lineOps line) : o ∈ m.ops e.update := by
  obtain ⟨_, parsed, update, hp, hu, ho⟩ := ho
  obtain ⟨parsed', hp', hc⟩ := h
  obtain rfl : parsed = parsed' := Except.ok.inj (hp.symm.trans (malformed_eq_ok.1 hp'))
  obtain rfl : update = e.update := Except.ok.inj (hu.symm.trans (EntryLine.check_update hc))
  exact ho

theorem DocModel.logOps_of_readText (h : (opReader π peer key).readText text = .ok entries) :
    m.logOps text ⊆ m.entryOps entries := by
  rintro o ⟨line, hl, ho⟩
  have hkept : line ∈ (textLines text).filter fun line => !isBlank line := by
    rw [List.mem_filter, ho.1]
    exact ⟨hl, rfl⟩
  obtain ⟨parsed, _, hp, _⟩ := ho.2
  obtain ⟨e, he, hr⟩ := LineReader.exists_entry_of_parse h hkept (malformed_eq_ok.2 hp)
  exact ⟨e, he, lineOps_of_reads hr ho⟩

theorem DocModel.logOps_nil : m.logOps [] = ∅ := by
  ext o
  refine iff_of_false ?_ (Set.notMem_empty o)
  rintro ⟨line, hl, _⟩
  cases hl

end LineOps

namespace Store
variable {π : Platform} {m : DocModel π} {s s' s₀ : Store π}

/-- A write reaches its file as a whole or not at all, and an import that is written is merged. -/
def WritesWhole : PullCall π → Prop
  | .call (.edit io _) => ∀ more msg, io ≠ .torn more msg
  | .call (.importPeer io _ _ _) | .call (.applyPeerOps io _ _ _) | .appendLines io _ _ _ =>
    io = .done ∨ ∃ msg, io = .refused msg
  | _ => True

def afterPull (s : Store π) : PullCall π → Store π
  | .call c => s.after c
  | .appendLines io author key lines => (exec (dedupAppendPeerLines io author key lines) s).2

structure Absorbs (m : DocModel π) (s : Store π) : Prop where
  whole : Terminated 10 (s.exportPeerLog s.peerId)
  logs : ∀ peer, m.logOps (s.exportPeerLog peer) ⊆ m.absorbed s.doc

section Steps

theorem Absorbs.grow (h : s.Absorbs m) (hid : s'.identity = s.identity)
    (hops : s'.disk.ops = s.disk.ops) (hdoc : m.absorbed s.doc ⊆ m.absorbed s'.doc) :
    s'.Absorbs m := by
  have hlog (peer : UInt64) : s'.exportPeerLog peer = s.exportPeerLog peer := by
    rw [exportPeerLog, exportPeerLog, hops]
  refine ⟨?_, ?_⟩
  · rw [peerId, hid, hlog]
    exact h.whole
  · intro peer
    rw [hlog]
    exact (h.logs peer).trans hdoc

theorem Absorbs.withDoc (h : s.Absorbs m) {doc : π.Doc} (he : π.edit s.doc e = .ok doc) :
    (s.withDoc doc).Absorbs m := by
  obtain ⟨_, new, habs, _⟩ := m.edit_ok s.doc e doc he
  refine h.grow rfl rfl ?_
  rw [Store.withDoc, (m.commit_eq doc).1, habs]
  exact Set.subset_union_left

theorem Absorbs.appended (hπ : π.Lawful) (h : s.Absorbs m) (hio : ∀ more msg, io ≠ .torn more msg)
    (hd : π.exportFrom s.doc s.persisted = .ok delta) : (s.appended io delta).Absorbs m := by
  have hdoc : (s.appended io delta).doc = s.doc := putOps_doc _ _
  have hid : (s.appended io delta).peerId = s.peerId :=
    congrArg (Identity.peerId π) (putOps_sameDoc s _ _).identity
  have hown : Terminated 10 ((s.appended io delta).exportPeerLog s.peerId) ∧
      m.logOps ((s.appended io delta).exportPeerLog s.peerId) ⊆ m.absorbed s.doc := by
    rcases exportPeerLog_appended hio delta with ⟨heq, _⟩ | heq
    · rw [heq]
      exact ⟨h.whole, h.logs s.peerId⟩
    · rw [heq]
      refine ⟨.inr ?_, ?_⟩
      · rw [← List.append_assoc, List.getLast?_concat]
      · rintro o ⟨line, hl, ho⟩
        rw [textLines_ownLine hπ h.whole, List.mem_append, List.mem_singleton] at hl
        rcases hl with hl | rfl
        · exact h.logs s.peerId ⟨line, hl, ho⟩
        · have hmem := DocModel.lineOps_of_reads (reads_ownLine hπ s delta) ho
          rw [m.export_ok _ _ _ hd] at hmem
          exact ready_subset hmem.1
  refine ⟨?_, ?_⟩
  · rw [hid]
    exact hown.1
  · intro peer
    rw [hdoc]
    by_cases hp : s.peerId = peer
    · exact hp ▸ hown.2
    · rw [Store.appended, exportPeerLog_putOps, if_neg hp]
      exact h.logs peer

theorem Absorbs.edited (hπ : π.Lawful) (h : s.Absorbs m) (hio : ∀ more msg, io ≠ .torn more msg)
    (ho : Edited io e s r s') : s'.Absorbs m := by
  cases ho with
  | refused msg he => exact h
  | unexported doc msg he hd => exact h.withDoc he
  | nothing doc he hv => exact h.withDoc he
  | failed doc delta err he hd herr => exact (h.withDoc he).appended hπ hio hd
  | logged doc delta he hd hdone =>
    have hlogged : ((s.withDoc doc).appended .done delta).Absorbs m :=
      (h.withDoc he).appended hπ (fun _ _ => nofun) hd
    exact hlogged.grow rfl rfl subset_rfl

theorem Absorbs.imported (ht : π.Total) (h : s.Absorbs m)
    (hio : io = .done ∨ ∃ msg, io = .refused msg)
    (ho : Imported io peer key bytes s r s') : s'.Absorbs m := by
  cases ho with
  | refused err => exact h
  | unwritten entries err ha hne =>
    obtain ⟨msg, rfl⟩ := hio.resolve_left hne
    have hlog (q : UInt64) :
        (s.putOps peer s.disk.ops[peer]?).exportPeerLog q = s.exportPeerLog q := by
      rw [exportPeerLog_putOps]
      split
      next hp => rw [hp, Option.or_self, exportPeerLog]
      next => rfl
    have hsame := putOps_sameDoc s peer s.disk.ops[peer]?
    refine ⟨?_, ?_⟩
    · rw [peerId, Io.replace, hsame.identity, hlog]
      exact h.whole
    · intro q
      rw [Io.replace, hlog, hsame.doc]
      exact h.logs q
  | stopped entries merged doc err ha hdone hs =>
      exact absurd hs (not_stops (ht.decodes_of_probed ha.probed))
  | merged entries doc ha hdone hr =>
    obtain ⟨habs, _⟩ := m.replay_ok hr
    have hdoc : m.absorbed (((s.withOps peer bytes).withDoc doc).caughtUp).doc =
        m.absorbed s.doc ∪ m.entryOps entries := (m.commit_eq doc).1.trans habs
    have hlog (q : UInt64) : (((s.withOps peer bytes).withDoc doc).caughtUp).exportPeerLog q =
        if peer = q then bytes else s.exportPeerLog q := exportPeerLog_putOps s peer q (some bytes)
    have hwhole : Terminated 10 (if peer = s.peerId then bytes else s.exportPeerLog s.peerId) := by
      rw [if_neg ha.other]
      exact h.whole
    refine ⟨?_, ?_⟩
    · rw [hlog]
      exact hwhole
    · intro q
      rw [hdoc, hlog]
      split
      next =>
        have hread := (readVerified_eq_ok_iff.1 (readVerified_of_verifyBytes ha.verified)).2
        exact (m.logOps_of_readText hread).trans Set.subset_union_right
      next => exact (h.logs q).trans Set.subset_union_left

theorem Absorbs.adopted (h : s.Absorbs m) (ho : Adopted io bytes s r s') : s'.Absorbs m := by
  have hgrow {doc : π.Doc} (hi : π.importUpdate s.doc bytes = .ok doc) :
      m.absorbed s.doc ⊆ m.absorbed (π.commit doc) := by
    rw [(m.commit_eq doc).1, (m.import_ok s.doc bytes doc hi).1]
    exact Set.subset_union_left
  cases ho with
  | refused msg hi => exact h
  | unsaved doc err hi hu => exact h.grow rfl rfl (hgrow hi)
  | adopted doc merged hi hm hio => exact h.grow rfl rfl (hgrow hi)

theorem exec_dedupAppendPeerLines (io : Io) (author : UInt64) (key : Bytes32) (lines : List Bytes)
    (s : Store π) :
    (exec (dedupAppendPeerLines io author key lines) s).2 = s ∨
      ∃ bytes, (exec (dedupAppendPeerLines io author key lines) s).2 =
        (exec (importPeerIo io author key bytes) s).2 := by
  simp only [dedupAppendPeerLines, exec_bind, exec_get]
  split
  next => exact .inl rfl
  next =>
    split
    next => exact .inl rfl
    next =>
      refine .inr ⟨(addLines (s.exportPeerLog author) lines).1, ?_⟩
      rw [exec_bind]
      cases exec (importPeerIo io author key (addLines (s.exportPeerLog author) lines).1) s with
      | mk r t =>
        cases r with
        | error err => rfl
        | ok u => rfl

theorem Absorbs.step (hπ : π.Lawful) (ht : π.Total) (h : s.Absorbs m) {c : PullCall π}
    (hw : WritesWhole c) : (s.afterPull c).Absorbs m := by
  cases c with
  | appendLines io author key lines =>
    rw [afterPull]
    rcases exec_dedupAppendPeerLines io author key lines s with heq | ⟨bytes, heq⟩
    · rw [heq]
      exact h
    · rw [heq]
      exact h.imported ht hw (importPeerIo_outcome io author key bytes s)
  | call c =>
    cases c with
    | edit io e => exact h.edited hπ hw (editDoc_outcome io e s)
    | importPeer io peer key bytes =>
        exact h.imported ht hw (importPeerIo_outcome io peer key bytes s)
    | applyPeerOps io author key appended =>
      obtain ⟨_, ho⟩ := applyPeerOpsIo_outcome io author key appended s
      exact h.imported ht hw ho
    | adoptSnapshot io bytes => exact h.adopted (adoptSnapshot_outcome io bytes s)
    | writeSnapshot io ioMarker now =>
      exact writeSnapshot_outcome (P := (·.Absorbs m)) io ioMarker now h
        fun _ _ _ => h.grow rfl rfl subset_rfl
    | sync c =>
      have hsame := syncCall_sameData c s
      exact h.grow hsame.identity hsame.ops (congrArg m.absorbed hsame.doc).ge

theorem Absorbs.opened {disk : Disk} (ho : openVault order disk device = .ok s)
    (hw : Terminated 10 (s.exportPeerLog s.peerId))
    (hactive : ∀ peer, s.disk.ops[peer]? ≠ none → peer ≠ s.peerId → ∃ key, s.Replays peer key) :
    s.Absorbs m := by
  refine ⟨hw, ?_⟩
  obtain ⟨entries, base, own, logs, doc, h⟩ := openVault_iff.1 ho
  obtain ⟨habs, _, _⟩ := m.opened_ok h
  rw [habs, m.entryOps_append]
  obtain rfl := h.store
  intro peer
  by_cases hfile : disk.ops[peer]? = none
  · rw [exportPeerLog, hfile, Option.getD_none, m.logOps_nil]
    exact Set.empty_subset _
  · refine Set.Subset.trans ?_ Set.subset_union_right
    by_cases hp : peer = device.peerId π
    · subst hp
      exact (m.logOps_of_readText (readVerified_eq_ok_iff.1 h.own_eq).2).trans Set.subset_union_left
    · obtain ⟨key, _, p, hmem, rfl, rfl, hstatus, hvalid⟩ := hactive peer hfile hp
      obtain ⟨es, _, hread⟩ := exists_right_of_forall₂ h.logs_eq hmem
      have hes : ∀ e ∈ es, e ∈ logs.flatten :=
        fun e he => (mem_flatten_of_reads h.logs_eq).2 ⟨p, hmem, es, hread, he⟩
      rw [readPeerLog_iff, if_pos ⟨hstatus, hp, hvalid⟩] at hread
      exact (m.logOps_of_readText (readVerified_eq_ok_iff.1 hread).2).trans
        ((m.entryOps_subset hes).trans Set.subset_union_right)

end Steps

section Replaced

def Arrived (m : DocModel π) (s : Store π) (line : Bytes) : Prop :=
  ∀ o ∈ m.lineOps line, m.past o ⊆ m.absorbed s.doc

theorem Absorbs.contained_iff (h : s.Absorbs m) (hl : line ∈ textLines (s.exportPeerLog peer)) :
    m.lineOps line ⊆ ready m.past (m.absorbed s.doc) ↔ s.Arrived m line :=
  ⟨fun hin _ ho => (hin ho).2, fun harr o ho => ⟨h.logs peer ⟨line, hl, ho⟩, harr o ho⟩⟩

theorem exec_shallowAt_ok (h : exec (shallowAt target) s = (.ok bytes, s')) :
    s' = s ∧ ∃ f, π.shallowSnapshot s.doc f = .ok bytes := by
  obtain ⟨f, t, hf, hrest⟩ := exec_bind_ok h
  obtain ⟨_, rfl⟩ := exec_ofResult_ok hf
  obtain ⟨_, _, ⟨⟩, hdoc⟩ := exec_bind_ok hrest
  obtain ⟨hbytes, rfl⟩ := exec_ofResult_ok hdoc
  exact ⟨rfl, f, mapError_eq_ok.1 hbytes⟩

theorem buildBackendSnapshot_bytes
    (h : exec (buildBackendSnapshot beforeTs) s = (.ok (some snap), s')) :
    ∃ f, π.shallowSnapshot s.doc f = .ok snap.bytes := by
  obtain ⟨_, _, ⟨⟩, hselect⟩ := exec_bind_ok h
  obtain ⟨target?, t, ht, hbuild⟩ := exec_bind_ok hselect
  obtain ⟨_, rfl⟩ := exec_ofResult_ok ht
  cases target? with
  | none => cases hbuild
  | some target =>
    obtain ⟨_, u, hf, hshallow⟩ := exec_bind_ok hbuild
    obtain ⟨_, rfl⟩ := exec_ofResult_ok hf
    obtain ⟨bytes, v, hbytes, hlines⟩ := exec_bind_ok hshallow
    obtain ⟨rfl, f, hok⟩ := exec_shallowAt_ok hbytes
    obtain ⟨_, _, ⟨⟩, hrefs⟩ := exec_bind_ok hlines
    obtain ⟨refs, w, _, hend⟩ := exec_bind_ok hrefs
    cases hend
    exact ⟨f, hok⟩

structure SameOps (m : DocModel π) (s s' : Store π) : Prop where
  absorbed : m.absorbed s'.doc = m.absorbed s.doc

instance : IsPreorder (Store π) (SameOps m) where
  refl _ := ⟨rfl⟩
  trans _ _ _ h h' := ⟨h'.absorbed.trans h.absorbed⟩

theorem referencedHashes_sameOps (m : SnapshotModel π) (retained : List String) :
    Leaves (SameOps m.toDocModel) (referencedHashes retained : StoreM π _) := by
  have hcheckout (frontier : String) :
      Leaves (SameOps m.toDocModel) (checkoutHashes frontier : StoreM π _) := by
    refine ⟨fun s => ?_⟩
    simp only [checkoutHashes, exec_bind, exec_ofResult, exec_get, exec_ofDoc, exec_set]
    cases decodeFrontier π frontier with
    | error err => exact ⟨rfl⟩
    | ok f =>
      simp only []
      cases hdoc : π.checkout s.doc f with
      | error msg => exact ⟨rfl⟩
      | ok doc => exact ⟨m.checkout_ok s.doc f doc hdoc⟩
  refine (Leaves.mapM fun f _ => hcheckout f).bind fun past => ?_
  exact (Leaves.modify fun s => ⟨m.latest_eq s.doc⟩).bind fun _ => Leaves.get.bind fun _ => .pure _

structure SameSnapshot (s s' : Store π) : Prop where
  snapshot : s'.disk.snapshot = s.disk.snapshot

instance : IsPreorder (Store π) SameSnapshot where
  refl _ := ⟨rfl⟩
  trans _ _ _ h h' := ⟨h'.snapshot.trans h.snapshot⟩

theorem checkpoint_snapshot (m : SnapshotModel π)
    (hsel : markerBefore π s.disk.history beforeTs = .ok (some target))
    (h : exec (checkpoint io beforeTs) s = (.ok freed, s')) :
    m.snapshotOps s'.disk.snapshot = ready m.past (m.absorbed s.doc) := by
  obtain ⟨_, _, ⟨⟩, hselect⟩ := exec_bind_ok h
  obtain ⟨target?, t, ht, hmarkers⟩ := exec_bind_ok hselect
  obtain ⟨hsel', rfl⟩ := exec_ofResult_ok ht
  obtain rfl : target? = some target := Except.ok.inj (hsel'.symm.trans hsel)
  obtain ⟨all, u, hall, hrefs⟩ := exec_bind_ok hmarkers
  obtain ⟨_, rfl⟩ := exec_ofResult_ok hall
  obtain ⟨referenced, v, href, hshallow⟩ := exec_bind_ok hrefs
  have habs := (referencedHashes_sameOps m _).of_exec href
  obtain ⟨shallow, w, hbytes, hsave⟩ := exec_bind_ok hshallow
  obtain ⟨rfl, f, hok⟩ := exec_shallowAt_ok hbytes
  obtain ⟨_, x, hsaved, htruncate⟩ := exec_bind_ok hsave
  obtain ⟨_, y, hio, hset⟩ := exec_bind_ok hsaved
  obtain ⟨_, rfl⟩ := exec_ofResult_ok hio
  cases hset
  have hrest : Leaves SameSnapshot (do
      truncateLogs io.truncate (planFromMarker target).dropLines
      let freed ← reclaimBlobs io.remove referenced
      rewriteHistory io.history all target.tsMs
      pure freed : StoreM π Nat) :=
    (truncateLogs_leaves (fun _ _ _ => ⟨rfl⟩) _ _).bind fun _ =>
      (reclaimBlobs_leaves (fun _ _ => ⟨rfl⟩) _ _).bind fun _ =>
        (rewriteHistory_leaves (fun _ _ => ⟨rfl⟩) _ _ _).bind fun _ => .pure _
  rw [(hrest.of_exec htruncate).snapshot, snapshotOps_some, m.shallow_ok _ f _ hok, habs.absorbed]

def Drops (s s' : Store π) (peer : UInt64) (dropped : List Bytes) : Prop :=
  ∃ kept, s.linesOf peer = dropped ++ kept ∧ s'.disk.ops[peer]? = some (joinLines 10 kept)

theorem length_logLines_joinLines {lines : List Bytes} (hl : ∀ line ∈ lines, 10 ∉ line) :
    (logLines (some (joinLines 10 lines))).length ≤ lines.length := by
  rw [logLines]
  split
  next =>
    have htext := textLines_joinLines hl (@List.not_mem_nil UInt8 10)
    rw [List.append_nil, if_pos rfl, List.append_nil] at htext
    rw [htext]
    exact (List.length_filter_le _ _).trans (List.length_map _).le
  next => exact Nat.zero_le _

theorem drops_checkpoint (hsel : markerBefore π s.disk.history beforeTs = .ok (some target))
    (hn : (target.logLens.map Prod.fst).Nodup)
    (h : exec (checkpoint io beforeTs) s = (.ok freed, s')) :
    (∃ dropped, Drops s s' peer dropped ∧ line ∈ dropped) ↔
      ∃ n, (peer, n) ∈ target.logLens ∧ line ∈ (s.linesOf peer).take n := by
  have hout := checkpoint_outcome io beforeTs s
  rw [h] at hout
  cases hout with
  | kept r s' hs hok => cases hsel.symm.trans (hok rfl)
  | truncated target' t r s' hsel' ht hs hok =>
    cases hsel.symm.trans hsel'
    have hrun := hok rfl
    have hcut := truncateLogs_outcome io.truncate target.logLens t
    have hlines (line : Bytes) (hl : line ∈ s.linesOf peer) : 10 ∉ line := (mem_logLines hl).1
    have hleft (n : Nat) (hm : (peer, n) ∈ target.logLens) (bytes : Bytes)
        (hfile : s.disk.ops[peer]? = some bytes) :
        s'.disk.ops[peer]? = some (joinLines 10 ((s.linesOf peer).drop n)) := by
      rw [hs.ops, hcut.file hrun hn hm, ht.ops, hfile]
      exact congrArg (fun file => some (joinLines 10 ((logLines file).drop n))) hfile.symm
    constructor
    · rintro ⟨dropped, ⟨kept, hsplit, hkept⟩, hl⟩
      cases hfile : s.disk.ops[peer]? with
      | none =>
        rw [linesOf, hfile] at hsplit
        obtain ⟨rfl, _⟩ := List.append_eq_nil_iff.1 hsplit.symm
        cases hl
      | some bytes =>
        have hkept' : ∀ line ∈ kept, 10 ∉ line := fun line hl =>
          hlines line (hsplit ▸ List.mem_append_right _ hl)
        by_cases hm : ∃ n, (peer, n) ∈ target.logLens
        · obtain ⟨n, hm⟩ := hm
          have hsame := (hleft n hm bytes hfile).symm.trans hkept
          have hrest := joinLines_inj (fun line hl => hlines line (List.mem_of_mem_drop hl)) hkept'
            (Option.some.inj hsame)
          have hcut := (List.take_append_drop n (s.linesOf peer)).trans hsplit
          rw [hrest] at hcut
          exact ⟨n, hm, List.append_cancel_right hcut ▸ hl⟩
        · -- the file is as it was, so it has no fewer lines than were kept
          have hother : peer ∉ target.logLens.map Prod.fst := by
            intro hmem
            obtain ⟨⟨_, n⟩, hlog, rfl⟩ := List.mem_map.1 hmem
            exact hm ⟨n, hlog⟩
          rw [hs.ops, hcut.other hother, ht.ops] at hkept
          have hlen := length_logLines_joinLines hkept'
          rw [← hkept, ← linesOf, hsplit, List.length_append] at hlen
          have hnone : dropped = [] := List.length_eq_zero_iff.1 (by omega)
          rw [hnone] at hl
          cases hl
    · rintro ⟨n, hm, hl⟩
      cases hfile : s.disk.ops[peer]? with
      | none =>
        rw [linesOf, hfile] at hl
        cases List.mem_of_mem_take hl
      | some bytes =>
        exact ⟨_, ⟨_, (List.take_append_drop n _).symm, hleft n hm bytes hfile⟩, hl⟩

theorem mem_subsumed (s : Store π) : (∃ line ∈ s.subsumed logs, lineText line.2 = text) ↔
      ∃ log ∈ logs, text ∈ (textLines (s.exportPeerLog log.1)).take log.2 := by
  simp only [subsumed, List.mem_flatMap, List.mem_map, textLines_eq_map, ← List.map_take]
  constructor
  · rintro ⟨_, ⟨log, hlog, raw, hraw, rfl⟩, rfl⟩
    exact ⟨log, hlog, raw, hraw, rfl⟩
  · rintro ⟨log, hlog, raw, hraw, rfl⟩
    exact ⟨_, ⟨log, hlog, raw, hraw, rfl⟩, rfl⟩

theorem linesOf_subset (s : Store π) (peer : UInt64) :
    s.linesOf peer ⊆ textLines (s.exportPeerLog peer) := by
  rw [linesOf_eq, logLines]
  split
  next => exact List.filter_subset_self _
  next => exact List.nil_subset _

/-- After a run of edits, imports and pulls in any order, a snapshot holds every operation of the
lines that it replaces if and only if none of these operations waits for one that is missing. -/
theorem replaced_contained_iff {disk : Disk} (hπ : π.Lawful) (ht : π.Total) (m : SnapshotModel π)
    (ho : openVault order disk device = .ok s₀) (hw : Terminated 10 (s₀.exportPeerLog s₀.peerId))
    (hactive : ∀ peer, s₀.disk.ops[peer]? ≠ none → peer ≠ s₀.peerId → ∃ key, s₀.Replays peer key)
    (calls : List (PullCall π)) (hc : ∀ c ∈ calls, WritesWhole c)
    (hs : s = runAll afterPull s₀ calls)
    (hsel : markerBefore π s.disk.history beforeTs = .ok (some target))
    (hkeys : (target.logLens.map Prod.fst).Nodup) :
    (∀ snap s', exec (buildBackendSnapshot beforeTs) s = (.ok (some snap), s') →
      ((∀ line ∈ snap.subsumedLines, m.lineOps (lineText line.2) ⊆ m.ops snap.bytes) ↔
        ∀ log ∈ target.logLens, ∀ line ∈ (textLines (s.exportPeerLog log.1)).take log.2,
          s.Arrived m.toDocModel line)) ∧
    ∀ io freed s', exec (checkpoint io beforeTs) s = (.ok freed, s') →
      ((∀ peer dropped, Drops s s' peer dropped →
          ∀ line ∈ dropped, m.lineOps line ⊆ m.snapshotOps s'.disk.snapshot) ↔
        ∀ log ∈ target.logLens, ∀ line ∈ (s.linesOf log.1).take log.2,
          s.Arrived m.toDocModel line) := by
  have habs : s.Absorbs m.toDocModel := by
    rw [hs]
    have hrun : Along afterPull (fun _ c => WritesWhole c) s₀ calls := along_of_forall hc
    exact hrun.invariant (fun _ _ h hw => h.step hπ ht hw) (.opened ho hw hactive)
  constructor
  · intro snap s' hbuilt
    obtain ⟨target', hsel', hlines⟩ := (buildBackendSnapshot_outcome beforeTs s).2 snap
      (congrArg Prod.fst hbuilt)
    cases hsel.symm.trans hsel'
    obtain ⟨f, hbytes⟩ := buildBackendSnapshot_bytes hbuilt
    rw [hlines, m.shallow_ok _ f _ hbytes]
    constructor
    · intro hall log hlog line hl
      obtain ⟨raw, hraw, rfl⟩ := (mem_subsumed s).2 ⟨log, hlog, hl⟩
      exact (habs.contained_iff (List.mem_of_mem_take hl)).1 (hall raw hraw)
    · intro hall raw hraw
      obtain ⟨log, hlog, hl⟩ := (mem_subsumed s).1 ⟨raw, hraw, rfl⟩
      exact (habs.contained_iff (List.mem_of_mem_take hl)).2 (hall log hlog _ hl)
  · intro io freed s' hrun
    rw [checkpoint_snapshot m hsel hrun]
    constructor
    · intro hall log hlog line hl
      obtain ⟨dropped, hdrops, hmem⟩ := (drops_checkpoint hsel hkeys hrun).2 ⟨log.2, hlog, hl⟩
      have hline := s.linesOf_subset log.1 (List.mem_of_mem_take hl)
      exact (habs.contained_iff hline).1 (hall log.1 dropped hdrops line hmem)
    · intro hall peer dropped hdrops line hmem
      obtain ⟨n, hlog, hl⟩ := (drops_checkpoint hsel hkeys hrun).1 ⟨dropped, hdrops, hmem⟩
      have hline := s.linesOf_subset peer (List.mem_of_mem_take hl)
      exact (habs.contained_iff hline).2 (hall (peer, n) hlog line hl)

end Replaced

section Samples

def sampleSnapshots : SnapshotModel samplePlatform where
  toDocModel := sampleModel
  shallow_ok doc _ bytes h := sampleModel.snapshot_ok doc bytes h
  checkout_ok _ _ _ h := by
    cases h
    rfl
  latest_eq _ := rfl

def sampleLine (update : Bytes) : Bytes :=
  samplePlatform.opJson.render (EntryLine.ofUpdate samplePlatform sampleWriter
    (plainIdentity 2) update)

def samplePull (update : Bytes) : PullCall samplePlatform :=
  .appendLines .done sampleWriter (.replicate 2) [sampleLine update]

theorem reads_sampleLine (update : Bytes) :
    (opReader samplePlatform sampleWriter ((plainIdentity 2).verifyingKey samplePlatform)).Reads
      (sampleLine update) { peerId := sampleWriter, update } := by
  have hlawful := samplePlatform_framed.toLawful
  exact ⟨EntryLine.ofUpdate samplePlatform sampleWriter (plainIdentity 2) update,
    malformed_eq_ok.2 (hlawful.op.parse_render _),
      EntryLine.check_ofUpdate hlawful (plainIdentity 2) update⟩

theorem mem_lineOps_sampleLine (ho : o ∈ sampleUpdate update) :
    o ∈ sampleModel.lineOps (sampleLine update) := by
  have hlawful := samplePlatform_framed.toLawful
  exact ⟨(hlawful.op.object _).not_blank, _, update, hlawful.op.parse_render _,
    hlawful.b64 update, ho⟩

def pulledEarly : List (PullCall samplePlatform) :=
  [.call sampleFound, .call sampleJoin, samplePull [9], .call (.writeSnapshot .done .done 5)]

def pulledLate : List (PullCall samplePlatform) :=
  [.call sampleFound, .call sampleJoin, samplePull [9], samplePull [8],
    .call (.writeSnapshot .done .done 5)]

theorem pulledEarly_facts :
    let s := runAll afterPull (sampleVault 1) pulledEarly
    (∃ snap ∈ (exec (buildBackendSnapshot 9) s).1.toOption.join,
      (∃ line ∈ snap.subsumedLines, lineText line.2 = sampleLine [9]) ∧
        9 ∉ sampleUpdate snap.bytes) ∧
    (exec (checkpoint sampleIo 9) s).1 = .ok 0 ∧
      s.linesOf sampleWriter = [sampleLine [9]] ∧
      (exec (checkpoint sampleIo 9) s).2.disk.ops[sampleWriter]? = some [] ∧
      (exec (checkpoint sampleIo 9) s).2.disk.snapshot = some [] := by
  decide +kernel

theorem pulledLate_facts :
    let s := runAll afterPull (sampleVault 1) pulledLate
    (∃ target ∈ (markerBefore samplePlatform s.disk.history 9).toOption.join,
      (target.logLens.map Prod.fst).Nodup ∧
      (∀ log ∈ target.logLens, ∀ line ∈ (textLines (s.exportPeerLog log.1)).take log.2,
        line = sampleLine [9] ∨ line = sampleLine [8])) ∧
    (∃ snap ∈ (exec (buildBackendSnapshot 9) s).1.toOption.join, snap.subsumedLines.length = 2) ∧
    (8 ∈ SampleDoc.ops s.doc ∧ 8 ∈ sampleOps) ∧
    (sampleVault 1).disk.ops.toList = [] ∧ (sampleVault 1).exportPeerLog (sampleVault 1).peerId =
    [] := by
  decide +kernel

/-- A line whose operation waits for another one is reported as replaced by a snapshot that lacks
the operation, and a checkpoint drops the line. -/
theorem not_replaced_contained :
    openVault ascending (sampleVault 1).disk (plainIdentity 1) = .ok (sampleVault 1) ∧
      ∃ calls s, s = runAll afterPull (sampleVault 1) calls ∧ (∀ c ∈ calls, WritesWhole c) ∧
        (∃ snap s', exec (buildBackendSnapshot 9) s = (.ok (some snap), s') ∧
          ∃ line ∈ snap.subsumedLines,
            ¬ sampleSnapshots.lineOps (lineText line.2) ⊆ sampleSnapshots.ops snap.bytes) ∧
        ∃ freed s' peer dropped, exec (checkpoint sampleIo 9) s = (.ok freed, s') ∧
          Drops s s' peer dropped ∧ ∃ line ∈ dropped,
            ¬ sampleSnapshots.lineOps line ⊆ sampleSnapshots.snapshotOps s'.disk.snapshot := by
  obtain ⟨hbuilt, hok, hlines, hempty, hsnapshot⟩ := pulledEarly_facts
  have hmem : (9 : Nat) ∈ sampleModel.lineOps (sampleLine [9]) :=
    mem_lineOps_sampleLine List.mem_cons_self
  obtain ⟨snap, hsnap, ⟨line, hl, hline⟩, hnot⟩ := exists_ok_some hbuilt
  refine ⟨openVault_sampleVault, pulledEarly, _, rfl, ?_, ⟨snap, _, exec_of_fst hsnap, line,
    hl, ?_⟩, 0, _, sampleWriter, [sampleLine [9]], exec_of_fst hok, ⟨[], hlines, hempty⟩, _,
    List.mem_cons_self, ?_⟩
  · simp only [pulledEarly, List.forall_mem_cons]
    exact ⟨trivial, trivial, .inl rfl, trivial, List.forall_mem_nil _⟩
  · rw [hline]
    exact fun hsub => hnot (hsub hmem)
  · intro hsub
    obtain ⟨bytes, hbytes, ho⟩ := hsub hmem
    rw [hsnapshot] at hbytes
    cases hbytes
    cases ho

theorem pastOf_writer (o q : Nat) (ho : o = 9 ∨ o = 8) (hq : SamplePast o q) : q = 8 := by
  obtain ⟨_, hdiv, hlt⟩ := hq
  rcases ho with rfl | rfl
  · omega
  · omega

theorem replaced_contained_late :
    ∃ snap s', exec (buildBackendSnapshot 9) (runAll afterPull (sampleVault 1) pulledLate) =
        (.ok (some snap), s') ∧ snap.subsumedLines.length = 2 ∧ ∀ line ∈ snap.subsumedLines,
        sampleSnapshots.lineOps (lineText line.2) ⊆ sampleSnapshots.ops snap.bytes := by
  obtain ⟨hmarker, hbuilt, hfirst, hlogs, hown⟩ := pulledLate_facts
  obtain ⟨target, hsel, hkeys, htexts⟩ := exists_ok_some hmarker
  obtain ⟨snap, hsnap, hcount⟩ := exists_ok_some hbuilt
  have hnone (peer : UInt64) (hfile : (sampleVault 1).disk.ops[peer]? ≠ none) : False := by
    apply hfile
    rw [Option.eq_none_iff_forall_ne_some]
    intro bytes hb
    have hmem := Std.TreeMap.mem_toList_iff_getElem?_eq_some.2 hb
    rw [hlogs] at hmem
    cases hmem
  refine ⟨snap, _, exec_of_fst hsnap, hcount, ?_⟩
  refine ((replaced_contained_iff samplePlatform_framed.toLawful samplePlatform_total
    sampleSnapshots
    openVault_sampleVault (.inl hown) (fun peer hfile _ =>
      (hnone peer hfile).elim) pulledLate ?_ rfl
    hsel hkeys).1 snap _ (exec_of_fst hsnap)).2 ?_
  · simp only [pulledLate, List.forall_mem_cons]
    exact ⟨trivial, trivial, .inl rfl, .inl rfl, trivial, List.forall_mem_nil _⟩
  · intro log hlog line hl o ho q hq
    have hop : o = (9 : Nat) ∨ o = (8 : Nat) := by
      rcases htexts log hlog line hl with rfl | rfl
      · exact .inl (List.mem_singleton.1 (DocModel.lineOps_of_reads (reads_sampleLine [9]) ho))
      · exact .inr (List.mem_singleton.1 (DocModel.lineOps_of_reads (reads_sampleLine [8]) ho))
    rw [pastOf_writer o q hop hq]
    exact hfirst

end Samples

end Store

end Roam
