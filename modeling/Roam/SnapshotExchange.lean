import Roam.AdminStanding
import Roam.BlobTransfer

namespace Roam
set_option autoImplicit true
open Library Library.Fallible

inductive DeviceOp
  | engine (op : EngineOp)
  | produceHeldSnapshot (beforeTs : Int) (nonce : Bytes)

namespace Engine
variable {π : BackendPlatform} {e : Engine π.toSyncPlatform}

def produceHeldSnapshot (beforeTs : Int) (nonce : Bytes) (e : Engine π.toSyncPlatform) :
    Engine π.toSyncPlatform :=
  match exec (Pass.produceHeldSnapshot ⟨e.vaultKey⟩ beforeTs nonce e.files) e.store with
  | (.ok (_, files), store) => { e with store, files }
  | (.error _, store) => { e with store }

def onDevice (e : Engine π.toSyncPlatform) : DeviceOp → Engine π.toSyncPlatform
  | .engine op => e.after op
  | .produceHeldSnapshot beforeTs nonce => e.produceHeldSnapshot beforeTs nonce

def taken (env : Env) (peer : UInt64) (framed : Bytes) (e : Engine π.toSyncPlatform) :
    Engine π.toSyncPlatform :=
  (e.handle env peer (.snapshotData framed)).1

structure Crossed (a b : Engine π.toSyncPlatform) (served env : Env) (id : String)
    (framed : Bytes) : Prop where
  served : .snapshotData framed ∈ a.answer served (.snapshotWant id)
  adopted : blobHash π.toPlatform framed ∈ (b.taken env a.peerId framed).files.heldSnapshotIds
  active : (b.taken env a.peerId framed).isActive a.peerId = true

/-- Whatever the engine does from now on, an offer of the peer never makes it want the id. -/
def NeverWants (e : Engine π.toSyncPlatform) (peer : UInt64) (id : String) : Prop :=
  ∀ ops env ids,
    (peer, .snapshotWant id) ∉ sends ((runAll onDevice e ops).handle env peer (.snapshotHave ids)).2

theorem mem_heldSnapshotIds {files : SyncFiles} {id : String} :
    id ∈ files.heldSnapshotIds ↔ id ∈ files.objects ∧ ¬ Reserved id := by
  rw [SyncFiles.heldSnapshotIds, List.mem_filter, Std.TreeMap.mem_keys, decide_eq_true_eq]

def Keeps (files files' : SyncFiles) : Prop := ∀ id ∈ files.objects, id ∈ files'.objects

theorem Keeps.of_eq {files files' : SyncFiles} (h : files'.objects = files.objects) :
    Keeps files files' := fun _ hmem => h ▸ hmem

theorem Keeps.of_insert {files files' : SyncFiles} {id : String} {framed : Bytes}
    (h : files'.objects = files.objects ∨ files'.objects = files.objects.insert id framed) :
    Keeps files files' := by
  cases h with
  | inl h => exact .of_eq h
  | inr h => exact fun _ hmem => h ▸ Std.TreeMap.mem_insert.2 (.inr hmem)

theorem completeBlob_objects (hash : String) :
    (e.completeBlob hash).1.files.objects = e.files.objects := by
  rw [completeBlob]
  dsimp only
  split
  next => rfl
  next =>
    rw [SyncFiles.finalizeIncoming]
    split
    next => rfl
    next => split <;> rfl

theorem handleBlobChunk_objects (hash : String) (offset totalLen : Nat) (bytes : Bytes) :
    (e.handleBlobChunk hash offset totalLen bytes).1.files.objects = e.files.objects := by
  rw [handleBlobChunk]
  split
  next => rfl
  next =>
    split
    next => rfl
    next =>
      split
      next => rfl
      next =>
        split
        next => rfl
        next files hwrite =>
          have hobjects : files.objects = e.files.objects := by
            rw [SyncFiles.writeIncomingChunk, Option.ite_none_right_eq_some] at hwrite
            obtain ⟨-, hwrite⟩ := hwrite
            rw [Option.ite_none_right_eq_some] at hwrite
            rw [← Option.some.inj hwrite.2]
          dsimp only
          split
          next => exact hobjects
          next => exact (completeBlob_objects hash).trans hobjects

theorem produced_objects {files files' : SyncFiles} {s s' : Store π.toPlatform}
    (h : exec (Pass.produceHeldSnapshot key beforeTs nonce files) s = (.ok (made, files'), s')) :
    Keeps files files' := by
  rw [Pass.produceHeldSnapshot, exec_bind, exec_get] at h
  dsimp only at h
  split at h
  next =>
    cases h
    exact fun _ => id
  next =>
    simp only [exec_bind, exec_ofResult] at h
    split at h
    next =>
      split at h
      next =>
        split at h
        next =>
          cases h
          exact fun _ => id
        next =>
          split at h
          next =>
            cases h
            exact fun _ => id
          next =>
            simp only [exec_bind, exec_ofResult, exec_pure] at h
            split at h
            next hrecord =>
              cases h
              exact .of_insert (.inr (recordHeldSnapshot_files (Prod.mk.inj hrecord).1).2)
            next => cases h
      next => cases h
    next => cases h

theorem onDevice_keeps (e : Engine π.toSyncPlatform) (op : DeviceOp) :
    Keeps e.files (e.onDevice op).files := by
  cases op with
  | produceHeldSnapshot beforeTs nonce =>
    rw [onDevice, produceHeldSnapshot]
    split
    next hmade => exact produced_objects hmade
    next => exact fun _ => id
  | engine op =>
    rw [onDevice]
    by_cases hop : ∃ env peer frame, op = .handle env peer frame
    · obtain ⟨env, peer, frame, rfl⟩ := hop
      by_cases hdata : ∃ framed, frame = .snapshotData framed
      · obtain ⟨framed, rfl⟩ := hdata
        exact .of_insert (handle_snapshotData env e peer framed).2
      by_cases hchunk : ∃ hash offset totalLen bytes, frame = .blobChunk hash offset totalLen bytes
      · obtain ⟨hash, offset, totalLen, bytes, rfl⟩ := hchunk
        exact .of_eq (handleBlobChunk_objects hash offset totalLen bytes)
      simp only [not_exists] at hchunk
      exact .of_eq (congrArg _ (handle_files env e peer hchunk (not_exists.1 hdata)).1)
    · simp only [not_exists] at hop
      exact .of_eq (congrArg _ (after_files e hop).1)

theorem runAll_keeps (e : Engine π.toSyncPlatform) (ops : List DeviceOp) :
    Keeps e.files (runAll onDevice e ops).files := by
  induction ops generalizing e with
  | nil => exact fun _ => id
  | cons op ops ih => exact fun id hmem => ih (e.onDevice op) id (onDevice_keeps e op id hmem)

theorem wants_iff {env : Env} {peer : UInt64} {id : String} {ids : List String} :
    (peer, .snapshotWant id) ∈ sends (e.handle env peer (.snapshotHave ids)).2 ↔
      e.isActive peer = true ∧ id ∈ ids ∧ id ∉ e.files.heldSnapshotIds := by
  rw [handle, reply]
  split
  next hactive =>
    simp [answer, hactive]
  next hactive =>
    exact iff_of_false List.not_mem_nil fun h => hactive h.1

theorem neverWants_iff {peer : UInt64} {id : String} (hactive : e.isActive peer = true) :
    e.NeverWants peer id ↔ id ∈ e.files.heldSnapshotIds := by
  constructor
  · intro h
    by_contra hnot
    exact h [] ⟨ascending, .done, fun _ => false, fun _ => none⟩ [id]
      (wants_iff.2 ⟨hactive, List.mem_singleton_self id, hnot⟩)
  · intro hheld ops env ids hwant
    rw [mem_heldSnapshotIds] at hheld
    exact (wants_iff.1 hwant).2.2
      (mem_heldSnapshotIds.2 ⟨runAll_keeps e ops id hheld.1, hheld.2⟩)

/-- An object that was adopted is never wanted again if and only if it was served under the hash of
its bytes, or something was held under its id before. -/
theorem crosses_once_iff {a b : Engine π.toSyncPlatform} {served env : Env} {id : String}
    (h : Crossed a b served env id framed) : (b.taken env a.peerId framed).NeverWants a.peerId id ↔
      id = blobHash π.toPlatform framed ∨ id ∈ b.files.heldSnapshotIds := by
  rw [neverWants_iff h.active]
  have hobjects := (handle_snapshotData env b a.peerId framed).2
  constructor
  · intro hheld
    rw [mem_heldSnapshotIds] at hheld ⊢
    cases hobjects with
    | inl hsame => exact .inr ⟨hsame ▸ hheld.1, hheld.2⟩
    | inr hinsert =>
      rw [taken, hinsert, Std.TreeMap.mem_insert, Std.LawfulEqOrd.compare_eq_iff_eq] at hheld
      exact hheld.1.imp Eq.symm fun hmem => ⟨hmem, hheld.2⟩
  · rintro (rfl | hheld)
    · exact h.adopted
    · rw [mem_heldSnapshotIds] at hheld ⊢
      exact ⟨Keeps.of_insert hobjects id hheld.1, hheld.2⟩

end Engine

section Sample
open Store

def pairFounder : Store samplePlatform :=
  runAll Store.after (sampleVault 1)
    [sampleFound, sampleJoin, .edit .done sampleEdit, .writeSnapshot .done .done 5]

abbrev namedBackend : BackendPlatform :=
  { snapshotBackend with keyedHash := fun _ _ => .replicate 97 }

def producer : Engine namedBackend.toSyncPlatform :=
  .produceHeldSnapshot 9 (List.replicate 24 7)
    (.new (plainIdentity 1) (.replicate 9) sampleKey.root pairFounder noFiles)

def joiner : Engine namedBackend.toSyncPlatform :=
  .new (plainIdentity 2) (.replicate 9) sampleKey.root
    (runAll Store.after (sampleVault 2) (sampleFollow pairFounder)) noFiles

def offeredId : String := producer.files.heldSnapshotIds.headD ""

def offered : Bytes := producer.files.objects[offeredId]?.getD []

theorem offered_crosses : Engine.Crossed producer joiner sampleEnv sampleEnv offeredId offered where
  served := by decide +kernel
  adopted := by decide +kernel
  active := by decide +kernel

/-- The second device asks for the snapshot that it has adopted. -/
theorem snapshot_wanted_again :
    Engine.Crossed producer joiner sampleEnv sampleEnv offeredId offered ∧
      (producer.peerId, .snapshotWant offeredId) ∈
        sends ((joiner.taken sampleEnv producer.peerId offered).handle sampleEnv producer.peerId
          (.snapshotHave producer.files.heldSnapshotIds)).2 :=
  ⟨offered_crosses, by decide +kernel⟩

theorem offered_crosses_once_iff :
    (joiner.taken sampleEnv producer.peerId offered).NeverWants producer.peerId offeredId ↔
      offeredId = blobHash namedBackend.toPlatform offered ∨
        offeredId ∈ joiner.files.heldSnapshotIds :=
  Engine.crosses_once_iff offered_crosses

end Sample

end Roam
