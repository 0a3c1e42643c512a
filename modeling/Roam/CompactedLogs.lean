import Roam.CheckpointSpec
import Roam.OwnLog
import Roam.Library.Compaction

namespace Roam
set_option autoImplicit true
open Library Library.Fallible

inductive VaultCall (π : Platform)
  | call (c : StoreCall π)
  | checkpoint (io : CheckpointIo) (beforeTs : Int)
  | backendSnapshot (beforeTs : Int)

namespace Store
variable {π : Platform} {s s' : Store π}

def afterVault (s : Store π) : VaultCall π → Store π
  | .call c => s.after c
  | .checkpoint io beforeTs => (exec (checkpoint io beforeTs) s).2
  | .backendSnapshot beforeTs => (exec (buildBackendSnapshot beforeTs) s).2

def linesOf (s : Store π) (peer : UInt64) : List Bytes := logLines s.disk.ops[peer]?

def appendedBy (peer : UInt64) (s : Store π) : VaultCall π → List Bytes
  | .checkpoint _ _ => []
  | c => ((s.afterVault c).linesOf peer).drop (s.linesOf peer).length

def droppedBy (peer : UInt64) (s : Store π) : VaultCall π → List Bytes
  | .checkpoint io beforeTs =>
    let left := (s.afterVault (.checkpoint io beforeTs)).linesOf peer
    (s.linesOf peer).take ((s.linesOf peer).length - left.length)
  | _ => []

def appendedIn (peer : UInt64) (s : Store π) (calls : List (VaultCall π)) : List Bytes :=
  outputs afterVault (appendedBy peer) s calls

def droppedIn (peer : UInt64) (s : Store π) (calls : List (VaultCall π)) : List Bytes :=
  outputs afterVault (droppedBy peer) s calls

/-- An import that is accepted leaves the stored lines in their places. -/
def ImportKeepsLines (s : Store π) (io : Io) (peer : UInt64) (key : Bytes32) (bytes : Bytes) :
    Prop :=
  ∀ entries, s.Admitted peer key bytes entries →
    s.linesOf peer <+: logLines (io.replace s.disk.ops[peer]? bytes)

/-- Lines stay lines: an edit finds whole lines in the own log and writes a whole line or none, the
stored lines outlive an import, and a checkpoint finds no line that it would change. -/
def KeepsLines (s : Store π) : VaultCall π → Prop
  | .call (.edit io _) =>
    (∀ more msg, io ≠ .torn more msg) ∧ Readable s.disk.ops[s.peerId]? ∧
      Terminated 10 (s.exportPeerLog s.peerId)
  | .call (.importPeer io peer key bytes) => s.ImportKeepsLines io peer key bytes
  | .call (.applyPeerOps io author key appended) =>
    author ≠ s.peerId →
      s.ImportKeepsLines io author key (mergeLog (s.exportPeerLog author) appended)
  | .checkpoint _ _ => ∀ p : UInt64, Clean s.disk.ops[p]?
  | _ => True

section Steps

theorem logLines_getD (file : Option Bytes) : logLines (some (file.getD [])) = logLines file := by
  cases file with
  | none => rfl
  | some bytes => rfl

theorem linesOf_eq (s : Store π) (peer : UInt64) :
    s.linesOf peer = logLines (some (s.exportPeerLog peer)) := (logLines_getD _).symm

theorem linesOf_congr (h : s'.disk.ops = s.disk.ops) (peer : UInt64) :
    s'.linesOf peer = s.linesOf peer := by
  rw [linesOf, linesOf, h]

theorem linesOf_putOps_ne (hp : peer ≠ q) (file : Option Bytes) :
    (s.putOps peer file).linesOf q = s.linesOf q := by
  rw [linesOf_eq, exportPeerLog_putOps, if_neg hp, ← linesOf_eq]

theorem linesOf_appended (hπ : π.Lawful) (hio : ∀ more msg, io ≠ .torn more msg)
    (hr : Readable s.disk.ops[s.peerId]?) (ht : Terminated 10 (s.exportPeerLog s.peerId))
    (update : Bytes) (q : UInt64) : s.linesOf q <+: (s.appended io update).linesOf q := by
  by_cases hq : s.peerId = q
  · subst hq
    rw [linesOf_eq, linesOf_eq]
    cases exportPeerLog_appended hio update with
    | inl h => rw [h.1]
    | inr h =>
      have hr : validUtf8 (s.exportPeerLog s.peerId) = true := hr
      have hline : validUtf8 (s.exportPeerLog s.peerId ++ (s.ownLine update ++ [10])) = true := by
        rw [validUtf8_append hr, ownLine, validUtf8_append (hπ.op.object _).utf8]
        rfl
      rw [h, logLines_some hline, logLines_some hr, textLines_ownLine hπ ht, List.filter_append]
      exact List.prefix_append _ _
  · rw [appended, linesOf_putOps_ne hq]

theorem linesOf_edited (hπ : π.Lawful) (hio : ∀ more msg, io ≠ .torn more msg)
    (hr : Readable s.disk.ops[s.peerId]?) (ht : Terminated 10 (s.exportPeerLog s.peerId))
    (h : Edited io e s r s') (q : UInt64) : s.linesOf q <+: s'.linesOf q := by
  cases h with
  | refused msg he => exact List.prefix_rfl
  | unexported doc msg he hd => exact List.prefix_rfl
  | nothing doc he hv => exact List.prefix_rfl
  | failed doc delta err he hd herr =>
    exact @linesOf_appended π (s.withDoc doc) io hπ hio hr ht delta q
  | logged doc delta he hd hdone =>
    exact @linesOf_appended π (s.withDoc doc) .done hπ nofun hr ht delta q

theorem linesOf_replaced (io : Io) (peer : UInt64) (bytes : Bytes) :
    (s.putOps peer (io.replace s.disk.ops[peer]? bytes)).linesOf peer =
      logLines (io.replace s.disk.ops[peer]? bytes) := by
  have hsome (file : Bytes) : (s.putOps peer (some file)).linesOf peer = logLines (some file) := by
    rw [linesOf, putOps, withOps, Std.TreeMap.getElem?_insert_self]
  cases io with
  | done => exact hsome _
  | torn more msg => exact hsome _
  | unsynced msg => exact hsome _
  | refused msg =>
    simp only [Io.replace]
    cases hfile : s.disk.ops[peer]? with
    | none => exact congrArg logLines hfile
    | some file => exact hsome file

theorem linesOf_imported (hk : s.ImportKeepsLines io peer key bytes)
    (h : Imported io peer key bytes s r s') (q : UInt64) : s.linesOf q <+: s'.linesOf q := by
  have hwritten (entries : List Entry) (ha : s.Admitted peer key bytes entries) :
      s.linesOf q <+: (s.putOps peer (io.replace s.disk.ops[peer]? bytes)).linesOf q := by
    by_cases hq : peer = q
    · subst hq
      rw [linesOf_replaced]
      exact hk entries ha
    · rw [linesOf_putOps_ne hq]
  cases h with
  | refused err => exact List.prefix_rfl
  | unwritten entries err ha hio => exact hwritten entries ha
  | stopped entries merged doc err ha hio hs =>
    cases hio
    exact hwritten entries ha
  | merged entries doc ha hio hr =>
    cases hio
    exact hwritten entries ha

theorem linesOf_after (hπ : π.Lawful) {c : StoreCall π} (hk : s.KeepsLines (.call c))
    (q : UInt64) : s.linesOf q <+: (s.after c).linesOf q := by
  have hsame (h : (s.after c).disk.ops = s.disk.ops) : s.linesOf q <+: (s.after c).linesOf q := by
    rw [linesOf_congr h]
  cases c with
  | edit io e => exact linesOf_edited hπ hk.1 hk.2.1 hk.2.2 (editDoc_outcome io e s) q
  | importPeer io peer key bytes =>
    exact linesOf_imported hk (importPeerIo_outcome io peer key bytes s) q
  | applyPeerOps io author key appended =>
    simp only [after, StoreCall.run, applyPeerOpsIo, exec_bind, exec_get]
    split
    next => exact List.prefix_rfl
    next hne => exact linesOf_imported (hk hne) (importPeerIo_outcome io author key _ s) q
  | adoptSnapshot io bytes => exact hsame (adoptSnapshot_outcome io bytes s).ops
  | writeSnapshot io ioMarker now => exact hsame (writeSnapshot_ops io ioMarker now s)
  | sync c => exact hsame (syncCall_sameData c s).ops

theorem checkpoint_shortened (io : CheckpointIo) (beforeTs : Int)
    (hc : ∀ p : UInt64, Clean s.disk.ops[p]?) (q : UInt64) :
    Shortened s.disk.ops[q]? (exec (checkpoint io beforeTs) s).2.disk.ops[q]? := by
  cases checkpoint_outcome io beforeTs s with
  | kept r s' hs h =>
    rw [hs.ops]
    exact .refl _
  | truncated target t r s' hsel ht hs h =>
    rw [hs.ops, ← ht.ops]
    exact (truncateLogs_outcome io.truncate target.logLens t).shortened (ht.ops ▸ hc) q

theorem compacts_step (hπ : π.Lawful) {c : VaultCall π} (hk : s.KeepsLines c) (q : UInt64) :
    Compacts (s.linesOf q) (appendedBy q s c) (droppedBy q s c) ((s.afterVault c).linesOf q) := by
  cases c with
  | call c => exact .of_extends (linesOf_after hπ hk q)
  | backendSnapshot beforeTs =>
    have hsame := linesOf_congr (buildBackendSnapshot_outcome beforeTs s).1.ops q
    exact .of_extends (hsame ▸ List.prefix_rfl)
  | checkpoint io beforeTs =>
    obtain ⟨n, hn⟩ := (checkpoint_shortened io beforeTs hk q).lines
    have hlines : (s.afterVault (.checkpoint io beforeTs)).linesOf q = (s.linesOf q).drop n := hn
    rw [droppedBy, hlines]
    exact .of_drop _ n

end Steps

section Markers

theorem foldl_logLens (s : Store π) (peers : List PeerRecord) (lens : Std.TreeMap UInt64 Nat)
    (h : ∀ p n, lens[p]? = some n → n = (s.linesOf p).length)
    (hn : (peers.foldl (fun lens peer => lens.insert peer.peerId
      (countLogLines s.disk.ops[peer.peerId]?)) lens)[p]? = some n) : n = (s.linesOf p).length := by
  induction peers generalizing lens with
  | nil => exact h p n hn
  | cons peer peers ih =>
    refine ih _ ?_ hn
    intro q k hq
    rw [get_insert] at hq
    split at hq
    next heq =>
      cases heq
      cases hq
      exact countLogLines_eq _
    next => exact h q k hq

theorem mem_logLens (h : (p, n) ∈ s.logLens) : n = (s.linesOf p).length := by
  refine foldl_logLens s s.peers _ ?_ (Std.TreeMap.mem_toList_iff_getElem?_eq_some.1 h)
  intro q k hq
  rw [get_insert] at hq
  split at hq
  next heq =>
    cases heq
    cases hq
    exact countLogLines_eq _
  next => cases hq

theorem logLens_nodup (s : Store π) : (s.logLens.map Prod.fst).Nodup := by
  rw [logLens, List.Nodup, List.pairwise_map]
  refine Std.TreeMap.distinct_keys_toList.imp ?_
  intro a b hab heq
  exact hab (Std.LawfulEqOrd.compare_eq_iff_eq.2 heq)

end Markers

def reportedLines (snap : BackendSnapshot) (peer : UInt64) : List Bytes :=
  (snap.subsumedLines.filter fun line => line.1 = peer).map fun line => lineText line.2

def BlankFree (file : Bytes) (n : Nat) : Prop :=
  ∀ line ∈ (splitLogLines file).take n, isBlank (lineText line) = false

theorem compacts_run (hπ : π.Lawful) {calls : List (VaultCall π)}
    (hk : Along afterVault KeepsLines s calls) (q : UInt64) :
    Compacts (s.linesOf q) (appendedIn q s calls) (droppedIn q s calls)
      ((runAll afterVault s calls).linesOf q) :=
  hk.compacts fun _ _ h => compacts_step hπ h q

theorem reported_iff {file : Option Bytes} {log appended dropped : List Bytes}
    (h : Compacts log appended dropped (logLines file))
    (hlog : ∀ line ∈ log, isBlank line = false) :
    ((splitLogLines (file.getD [])).take log.length).map lineText = log.drop dropped.length ↔
      log = [] ∨ Readable file ∧ BlankFree (file.getD []) log.length ∧
        (dropped = [] ∨ appended = [] ∨ logLines file = []) := by
  have hlines (hr : Readable file) (hb : BlankFree (file.getD []) log.length) :
      ((splitLogLines (file.getD [])).take log.length).map lineText =
        (logLines file).take log.length := by
    rw [← logLines_getD, logLines_some hr, take_filter, textLines_eq_map, List.map_take]
    intro line hl
    rw [textLines_eq_map, ← List.map_take] at hl
    obtain ⟨raw, hraw, rfl⟩ := List.mem_map.1 hl
    rw [hb raw hraw]
    rfl
  constructor
  · intro heq
    by_cases hnil : log = []
    · exact .inl hnil
    · have hreadable : Readable file := by
        by_contra hr
        have hnone : logLines file = [] := by
          rw [← logLines_getD, logLines]
          exact if_neg hr
        have hgone : log.drop dropped.length = [] := by
          rw [Compacts, hnone, List.append_nil] at h
          rw [← h, List.drop_eq_nil_iff, List.length_append]
          exact Nat.le_add_right _ _
        rw [hgone, List.map_take, ← textLines_eq_map, List.take_eq_nil_iff] at heq
        have htext := heq.resolve_left fun hlen => hnil (List.length_eq_zero_iff.1 hlen)
        rw [Readable, textLines_eq_nil htext] at hr
        exact hr rfl
      have hblank : BlankFree (file.getD []) log.length := by
        intro line hl
        exact hlog _ (List.mem_of_mem_drop (heq ▸ List.mem_map_of_mem hl))
      rw [hlines hreadable hblank, h.take_count_iff] at heq
      refine .inr ⟨hreadable, hblank, ?_⟩
      rcases heq with hd | ha | hl | hs
      · exact .inl hd
      · exact .inr (.inl ha)
      · exact absurd hl hnil
      · exact .inr (.inr hs)
  · intro hor
    rcases hor with rfl | ⟨hr, hb, hor⟩
    · rw [List.length_nil, List.take_zero, List.drop_nil, List.map_nil]
    · rw [hlines hr hb, h.take_count_iff]
      rcases hor with hd | ha | hs
      · exact .inl hd
      · exact .inr (.inl ha)
      · exact .inr (.inr (.inr hs))

theorem linesOf_checkpoint (hc : ∀ q : UInt64, Clean s.disk.ops[q]?)
    (hsel : markerBefore π s.disk.history beforeTs = .ok (some target))
    (hn : (target.logLens.map Prod.fst).Nodup) (hm : (p, n) ∈ target.logLens)
    (h : exec (checkpoint io beforeTs) s = (.ok freed, s')) :
    s'.linesOf p = (s.linesOf p).drop n := by
  have hout := checkpoint_outcome io beforeTs s
  rw [h] at hout
  cases hout with
  | kept r s' hs hok =>
    cases hsel.symm.trans (hok rfl)
  | truncated target' t r s' hsel' ht hs hok =>
    cases hsel.symm.trans hsel'
    rw [linesOf_congr hs.ops, linesOf, linesOf, ← ht.ops]
    exact (truncateLogs_outcome io.truncate _ t).lines (hok rfl) hn hm (ht.ops ▸ hc p)

/-- What was appended to a log after a marker was recorded is left by a checkpoint that selects the
marker if and only if no line was dropped since, or none appended. A snapshot reports the lines of
the marker that are still stored if and only if the same holds (or there is no such line), and no
line that it counts is blank. -/
theorem compaction_exact (hπ : π.Lawful) (s₀ : Store π) (io ioMarker : Io) (now : Int)
    (calls : List (VaultCall π)) (hs : s = s₀.after (.writeSnapshot io ioMarker now))
    (hk : Along afterVault KeepsLines s calls)
    (hsel : markerBefore π (runAll afterVault s calls).disk.history beforeTs =
      .ok (some (s₀.marker now))) (hm : (p, n) ∈ (s₀.marker now).logLens) :
    (∀ io freed s', KeepsLines (runAll afterVault s calls) (.checkpoint io beforeTs) →
      exec (checkpoint io beforeTs) (runAll afterVault s calls) = (.ok freed, s') →
        (s'.linesOf p = appendedIn p s calls ↔
          droppedIn p s calls = [] ∨ appendedIn p s calls = [])) ∧
    ∀ snap s', exec (buildBackendSnapshot beforeTs) (runAll afterVault s calls) =
      (.ok (some snap), s') →
        (reportedLines snap p = (s.linesOf p).drop (droppedIn p s calls).length ↔
          s.linesOf p = [] ∨ Readable (runAll afterVault s calls).disk.ops[p]? ∧
            BlankFree ((runAll afterVault s calls).exportPeerLog p) n ∧
            (droppedIn p s calls = [] ∨ appendedIn p s calls = [] ∨
              (runAll afterVault s calls).linesOf p = [])) := by
  have hrun := compacts_run hπ hk p
  have hcount : n = (s.linesOf p).length := by
    have hsame : s.linesOf p = s₀.linesOf p :=
      linesOf_congr (hs ▸ writeSnapshot_ops io ioMarker now s₀) p
    rw [hsame]
    exact mem_logLens hm
  constructor
  · intro io freed s' hclean hok
    rw [linesOf_checkpoint hclean hsel (logLens_nodup s₀) hm hok, hcount]
    exact hrun.drop_count_iff
  · intro snap s' hok
    obtain ⟨target, hsel', hlines⟩ := (buildBackendSnapshot_outcome beforeTs _).2 snap
      (congrArg Prod.fst hok)
    cases hsel.symm.trans hsel'
    have hreported := filter_subsumed (runAll afterVault s calls) (logLens_nodup s₀) hm
    rw [reportedLines, hlines, marker, hreported, List.map_map, hcount]
    exact reported_iff hrun fun line hl => (mem_logLines hl).2.1

theorem clean_of_toList (h : ∀ log ∈ s.disk.ops.toList, Clean (some log.2)) (p : UInt64) :
    Clean s.disk.ops[p]? := by
  cases hfile : s.disk.ops[p]? with
  | none => exact fun line hl => absurd hl List.not_mem_nil
  | some bytes => exact h (p, bytes) (Std.TreeMap.mem_toList_iff_getElem?_eq_some.2 hfile)

theorem exists_ok_some {x : Except ε (Option α)} {P : α → Prop}
    (h : ∃ a ∈ x.toOption.join, P a) : ∃ a, x = .ok (some a) ∧ P a := by
  obtain ⟨a, ha, hp⟩ := h
  cases x with
  | error err => cases ha
  | ok a? =>
    cases ha
    exact ⟨a, rfl, hp⟩

def sampleWritten : Store samplePlatform := (sampleVault 1).after (.edit .done sampleEdit)

def sampleMarked : Store samplePlatform := sampleWritten.after (.writeSnapshot .done .done 5)

def sampleIo : CheckpointIo where
  snapshot := .done
  truncate _ := .done
  remove _ := .done
  history := .done

theorem compaction_exact_one_edit : ∃ calls freed s' snap s'',
      exec (checkpoint sampleIo 9) (runAll afterVault sampleMarked calls) = (.ok freed, s') ∧
        (appendedIn sampleWritten.peerId sampleMarked calls).length = 1 ∧
        s'.linesOf sampleWritten.peerId = appendedIn sampleWritten.peerId sampleMarked calls ∧
        exec (buildBackendSnapshot 9) (runAll afterVault sampleMarked calls) =
          (.ok (some snap), s'') ∧
        reportedLines snap sampleWritten.peerId = sampleMarked.linesOf sampleWritten.peerId := by
  let calls : List (VaultCall samplePlatform) := [.call (.edit .done sampleEdit)]
  let reached := runAll afterVault sampleMarked calls
  have hrun : markerBefore samplePlatform reached.disk.history 9 =
        .ok (some (sampleWritten.marker 5)) ∧
      (sampleWritten.peerId, 1) ∈ (sampleWritten.marker 5).logLens ∧
      (validUtf8 (sampleMarked.exportPeerLog sampleMarked.peerId) = true ∧
        (sampleMarked.exportPeerLog sampleMarked.peerId).getLast? = some 10) ∧
      (∀ log ∈ reached.disk.ops.toList, ∀ line ∈ logLines (some log.2), stripCr line = line) ∧
      (exec (checkpoint sampleIo 9) reached).1 = .ok 0 ∧
      (appendedIn sampleWritten.peerId sampleMarked calls).length = 1 ∧
      validUtf8 (reached.exportPeerLog sampleWritten.peerId) = true ∧
      (∀ line ∈ (splitLogLines (reached.exportPeerLog sampleWritten.peerId)).take 1,
        isBlank (lineText line) = false) ∧
      ∃ _ ∈ (exec (buildBackendSnapshot 9) reached).1.toOption.join, True := by
    decide +kernel
  obtain ⟨hsel, hm, hown, hclean, hok, hone, hreadable, hblank, hbuilt⟩ := hrun
  have hkeeps : Along afterVault KeepsLines sampleMarked calls :=
    ⟨⟨fun _ _ => nofun, hown.1, .inr hown.2⟩, trivial⟩
  obtain ⟨snap, hsnap, _⟩ := exists_ok_some hbuilt
  obtain ⟨hleft, hreported⟩ := compaction_exact samplePlatform_framed.toLawful sampleWritten .done
    .done 5 calls rfl hkeeps hsel hm
  refine ⟨calls, 0, _, snap, _, exec_of_fst hok, hone, ?_, exec_of_fst hsnap, ?_⟩
  · exact (hleft sampleIo 0 _ (clean_of_toList hclean) (exec_of_fst hok)).2 (.inl rfl)
  · exact (hreported snap _ (exec_of_fst hsnap)).2 (.inr ⟨hreadable, hblank, .inl rfl⟩)

def sampleCompacted : Store samplePlatform :=
  runAll afterVault sampleMarked [.checkpoint sampleIo 9, .call (.edit .done sampleEdit)]

theorem sampleCompacted_facts : (markerBefore samplePlatform sampleCompacted.disk.history 9 =
        .ok (some (sampleWritten.marker 5)) ∧
      (sampleWritten.peerId, 1) ∈ (sampleWritten.marker 5).logLens) ∧
    ((exec (checkpoint sampleIo 9) sampleCompacted).1 = .ok 0 ∧
      (exec (checkpoint sampleIo 9) sampleCompacted).2.linesOf sampleWritten.peerId ≠
        appendedIn sampleWritten.peerId sampleMarked
          [.checkpoint sampleIo 9, .call (.edit .done sampleEdit)]) ∧
    ∃ snap ∈ (exec (buildBackendSnapshot 9) sampleCompacted).1.toOption.join,
      reportedLines snap sampleWritten.peerId ≠ (sampleMarked.linesOf sampleWritten.peerId).drop
        (droppedIn sampleWritten.peerId sampleMarked
          [.checkpoint sampleIo 9, .call (.edit .done sampleEdit)]).length := by
  decide +kernel

/-- A checkpoint keeps the marker that it selected with the line count of before. One edit later the
next checkpoint selects it again and drops the line of the edit, and the snapshot reports that line
as replaced. -/
theorem not_compaction_exact : ∃ calls : List (VaultCall samplePlatform),
      (markerBefore samplePlatform (runAll afterVault sampleMarked calls).disk.history 9 =
          .ok (some (sampleWritten.marker 5)) ∧
        (sampleWritten.peerId, 1) ∈ (sampleWritten.marker 5).logLens) ∧
      (∃ freed s', exec (checkpoint sampleIo 9) (runAll afterVault sampleMarked calls) =
          (.ok freed, s') ∧
        s'.linesOf sampleWritten.peerId ≠ appendedIn sampleWritten.peerId sampleMarked calls) ∧
      ∃ snap s', exec (buildBackendSnapshot 9) (runAll afterVault sampleMarked calls) =
          (.ok (some snap), s') ∧
        reportedLines snap sampleWritten.peerId ≠ (sampleMarked.linesOf sampleWritten.peerId).drop
          (droppedIn sampleWritten.peerId sampleMarked calls).length := by
  obtain ⟨hsel, ⟨hok, hleft⟩, hbuilt⟩ := sampleCompacted_facts
  obtain ⟨snap, hsnap, hreported⟩ := exists_ok_some hbuilt
  rw [sampleCompacted] at hsel hok hleft hsnap
  exact ⟨_, hsel, ⟨0, _, exec_of_fst hok, hleft⟩, snap, _, exec_of_fst hsnap, hreported⟩

end Store

end Roam
