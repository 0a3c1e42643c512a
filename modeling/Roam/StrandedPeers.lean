import Roam.AdminStanding

namespace Roam
set_option autoImplicit true
open Library Library.Fallible

def countsOf (logs : List (UInt64 × Nat)) (p : UInt64) : List Nat :=
  (logs.filter fun log => log.1 = p).map Prod.snd

def leftOf (counts : List Nat) (lines : List Bytes) : List Bytes :=
  (lines.drop counts.sum).map stripCr^[counts.length]

theorem leftOf_nil (lines : List Bytes) : leftOf [] lines = lines := List.map_id lines

theorem leftOf_cons (n : Nat) (counts : List Nat) (lines : List Bytes) :
    leftOf (n :: counts) lines = leftOf counts ((lines.drop n).map stripCr) := by
  rw [leftOf, leftOf, List.sum_cons, ← List.drop_drop, List.length_cons, ← List.map_drop,
    List.map_map]
  rfl

namespace Store

section Cut
variable {π : Platform} {s s' : Store π}

theorem Truncated.linesOf (h : Truncated peer n s (.ok ()) s') :
    s'.linesOf peer = ((s.linesOf peer).drop n).map stripCr := by
  cases h with
  | missing h =>
    rw [Store.linesOf, h]
    exact (congrArg (List.map stripCr) List.drop_nil).symm
  | dropped bytes h =>
    rw [Store.linesOf, withOps, Std.TreeMap.getElem?_insert_self]
    exact (logLines_rewritten (List.drop_subset n _)).2

theorem TruncatedAll.linesOf (h : TruncatedAll logs s r s') (hr : r = .ok ()) (p : UInt64) :
    s'.linesOf p = leftOf (countsOf logs p) (s.linesOf p) := by
  induction h with
  | nil s => exact (leftOf_nil _).symm
  | failed h => cases hr
  | @cons log _ _ _ _ _ h _ ih =>
    rw [ih hr, countsOf, countsOf]
    by_cases hp : log.1 = p
    · subst hp
      rw [List.filter_cons_of_pos (by simp), List.map_cons, leftOf_cons, h.linesOf]
    · rw [List.filter_cons_of_neg (by rwa [decide_eq_true_eq]), Store.linesOf, h.other (Ne.symm hp)]
      rfl

theorem linesOf_checkpoint_ok {io : CheckpointIo}
    (hok : exec (checkpoint io beforeTs) s = (.ok freed, s')) (p : UInt64) :
    markerBefore π s.disk.history beforeTs = .ok none ∧ s'.linesOf p = s.linesOf p ∨
      ∃ target, markerBefore π s.disk.history beforeTs = .ok (some target) ∧
        s'.linesOf p = leftOf (countsOf target.logLens p) (s.linesOf p) := by
  have hout := checkpoint_outcome io beforeTs s
  rw [hok] at hout
  cases hout with
  | kept r s' hs hsel => exact .inl ⟨hsel rfl, linesOf_congr hs.ops p⟩
  | truncated target t r s' hsel ht hs hcut =>
    refine .inr ⟨target, hsel, ?_⟩
    rw [linesOf_congr hs.ops, (truncateLogs_outcome io.truncate _ t).linesOf (hcut rfl),
      linesOf_congr ht.ops]

end Cut

section Cover
variable {π : BackendPlatform} {s s' : Store π.toPlatform}

def Covered (key : VaultKey) (files : SyncFiles) (p : UInt64) (line : Bytes) : Prop :=
  ∃ held, files.heldSnapshots π.toSyncPlatform = .ok held ∧
    ∃ h ∈ held, key.entryIdContent π p line ∈ h.subsumed ∧ h.id ∈ files.objects

/-- Every line that is in a log before and not after is replaced by a snapshot. -/
def StrandsNobody (key : VaultKey) (files : SyncFiles) (s s' : Store π.toPlatform) : Prop :=
  ∀ p, ∀ line ∈ splitLogLines (s.exportPeerLog p), lineText line ∈ s.linesOf p →
    lineText line ∉ s'.linesOf p → Covered (π := π) key files p line

/-- Every line that the marker counts, and that does not occur again after those, is replaced by a
snapshot. -/
def CutCovered (key : VaultKey) (files : SyncFiles) (s : Store π.toPlatform) (target : Marker) :
    Prop :=
  ∀ p, ∀ line ∈ splitLogLines (s.exportPeerLog p), lineText line ∈ s.linesOf p →
    lineText line ∉ leftOf (countsOf target.logLens p) (s.linesOf p) →
      Covered (π := π) key files p line

/-- Compaction makes no snapshot, so those that replace what it drops must be there before. -/
theorem strandsNobody_iff (key : VaultKey) (files : SyncFiles)
    (hok : exec (Vault.compact io beforeMs) s = (.ok freed, s')) : StrandsNobody key files s s' ↔
      ∀ target, markerBefore π.toPlatform s.disk.history beforeMs = .ok (some target) →
        CutCovered key files s target := by
  constructor
  · intro h target hsel p line hline hmem hleft
    rcases linesOf_checkpoint_ok hok p with ⟨hnone, _⟩ | ⟨target', hsel', hlines⟩
    · cases hsel.symm.trans hnone
    · cases hsel.symm.trans hsel'
      exact h p line hline hmem (hlines ▸ hleft)
  · intro h p line hline hmem hgone
    rcases linesOf_checkpoint_ok hok p with ⟨_, hlines⟩ | ⟨target, hsel, hlines⟩
    · exact absurd (hlines ▸ hmem) hgone
    · exact h target hsel p line hline hmem (hlines ▸ hgone)

end Cover

section Sample

def markedFounder : Store samplePlatform :=
  runAll after (sampleVault 1) [sampleFound, .edit .done sampleEdit, .writeSnapshot .done .done 5]

/-- The founder holds the key of the head, and no snapshot replaces the line that is dropped. -/
theorem compact_strands : markedFounder.ActiveAdmin ∧
      (((markedFounder.keychain (sampleKey.idKey snapshotBackend)
        (sampleKey.epoch0Key snapshotBackend)).toOption).bind Keychain.headWriteKey).isSome ∧
      (exec (Vault.compact sampleIo 9) markedFounder).1 = .ok 0 ∧
      ¬ StrandsNobody (π := snapshotBackend) sampleKey noFiles markedFounder
        (exec (Vault.compact sampleIo 9) markedFounder).2 := by
  have hadmin : markedFounder.ActiveAdmin := by
    rw [ActiveAdmin]
    decide +kernel
  refine ⟨hadmin, by decide +kernel, by decide +kernel, ?_⟩
  intro h
  have hgone : ∃ line ∈ splitLogLines (markedFounder.exportPeerLog markedFounder.peerId),
      lineText line ∈ markedFounder.linesOf markedFounder.peerId ∧
        lineText line ∉ (exec (Vault.compact sampleIo 9) markedFounder).2.linesOf
          markedFounder.peerId := by
    decide +kernel
  obtain ⟨line, hline, hmem, hgone⟩ := hgone
  obtain ⟨held, hheld, snapshot, hsnapshot, _⟩ := h _ line hline hmem hgone
  cases hheld
  cases hsnapshot

def bootstrapFiles : SyncFiles :=
  (((exec (Pass.produceHeldSnapshot (π := snapshotBackend) sampleKey 9 (List.replicate 24 7)
    noFiles)
    markedFounder).1.toOption).map Prod.snd).getD noFiles

theorem bootstrapFiles_cover :
    ∃ held ∈ (bootstrapFiles.heldSnapshots snapshotBackend.toSyncPlatform).toOption,
      ∀ log ∈ markedFounder.disk.ops.toList, ∀ line ∈ splitLogLines log.2, ∃ h ∈ held,
        sampleKey.entryIdContent snapshotBackend log.1 line ∈ h.subsumed ∧
          h.id ∈ bootstrapFiles.objects := by
  decide +kernel

theorem compact_after_bootstrap :
    StrandsNobody (π := snapshotBackend) sampleKey bootstrapFiles markedFounder
      (exec (Vault.compact sampleIo 9) markedFounder).2 := by
  have hok : (exec (Vault.compact sampleIo 9) markedFounder).1 = .ok 0 := by decide +kernel
  apply (strandsNobody_iff (π := snapshotBackend) sampleKey bootstrapFiles (exec_of_fst hok)).2
  intro target hsel p line hline hmem hleft
  obtain ⟨held, hheld, hcover⟩ := bootstrapFiles_cover
  refine ⟨held, ?_, ?_⟩
  · cases hfiles : bootstrapFiles.heldSnapshots snapshotBackend.toSyncPlatform with
    | error e =>
      rw [hfiles] at hheld
      cases hheld
    | ok held' =>
      rw [hfiles] at hheld
      cases hheld
      rfl
  · rw [exportPeerLog] at hline
    cases hfile : markedFounder.disk.ops[p]? with
    | none =>
      rw [hfile] at hline
      cases hline
    | some bytes =>
      rw [hfile] at hline
      exact hcover (p, bytes) (Std.TreeMap.mem_toList_iff_getElem?_eq_some.2 hfile) line hline

end Sample

end Store

end Roam
