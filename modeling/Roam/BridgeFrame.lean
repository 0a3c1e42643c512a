import Roam.Bridge

namespace Roam.Bridge
set_option autoImplicit true
open Library Library.Fallible Rebase

section Listing
variable {K P δ V T : Type} [Ord K] [Std.TransOrd K] (B : FolderBridge K P δ V T)

theorem FolderBridge.nodup_entries (hlib : B.lib.Lawful) (d : Replica K V T) :
    ((B.entries d).map Prod.fst).Nodup := by
  rw [FolderBridge.entries, ((hlib.order_perm _).map Prod.fst).nodup_iff, List.map_map]
  have hkeys : d.entries.toList.map (Prod.fst ∘ fun p => (p.1, p.2.value)) = d.entries.keys :=
    Std.TreeMap.map_fst_toList_eq_keys
  rw [hkeys]
  exact Std.TreeMap.nodup_keys

variable [Std.LawfulEqOrd K]

theorem FolderBridge.mem_entries (hlib : B.lib.Lawful) {d : Replica K V T} :
    (j, v) ∈ B.entries d ↔ d.getEntry j = some v := by
  rw [FolderBridge.entries, (hlib.order_perm _).mem_iff, List.mem_map, Replica.getEntry,
    Option.map_eq_some_iff]
  apply Iff.intro
  · rintro ⟨⟨k, w⟩, hmem, heq⟩
    cases heq
    exact ⟨w, Std.TreeMap.mem_toList_iff_getElem?_eq_some.1 hmem, rfl⟩
  · rintro ⟨w, hget, rfl⟩
    exact ⟨(j, w), Std.TreeMap.mem_toList_iff_getElem?_eq_some.2 hget, rfl⟩

end Listing

variable {K P δ V T : Type} [Ord K] {B : FolderBridge K P δ V T}
  {R : Vault K δ V T → Vault K δ V T → Prop}

structure RecordsLeave (B : FolderBridge K P δ V T) (R : Vault K δ V T → Vault K δ V T → Prop)
    (key : K) : Prop where
  setValue : ∀ v, Leaves R (B.setValue key v)
  storeSidecar : ∀ sidecar, Leaves R (B.storeSidecar key sidecar)
  removeSidecar : Leaves R (B.removeSidecar key)
  writeMarker : Leaves R (B.writeMarker key)
  removeMarker : Leaves R (B.removeMarker key)

theorem RecordsLeave.mono {R' : Vault K δ V T → Vault K δ V T → Prop} {key : K}
    (h : RecordsLeave B R key) (hR : ∀ s s', R s s' → R' s s') : RecordsLeave B R' key where
  setValue v := (h.setValue v).mono hR
  storeSidecar sidecar := (h.storeSidecar sidecar).mono hR
  removeSidecar := h.removeSidecar.mono hR
  writeMarker := h.writeMarker.mono hR
  removeMarker := h.removeMarker.mono hR

structure ImportsLeave [TextCrdt T] (B : FolderBridge K P δ V T)
    (R : Vault K δ V T → Vault K δ V T → Prop) (key : K) : Prop extends RecordsLeave B R key where
  editText : ∀ op, Leaves R (B.editText key op)
  putBlob : ∀ bytes, Leaves R (B.putBlob bytes)
  removeBlob : ∀ hash, Leaves R (B.removeBlob hash)

structure ProjectsLeave (B : FolderBridge K P δ V T) (R : Vault K δ V T → Vault K δ V T → Prop)
    (key : K) : Prop where
  write : ∀ bytes, Leaves R (B.write (B.api.keyToPath key) bytes)
  storeSidecar : ∀ sidecar, Leaves R (B.storeSidecar key sidecar)
  writeMarker : Leaves R (B.writeMarker key)
  own : ∀ container, B.api.containerId (B.api.keyToPath key) = .ok container → container = key

structure AppliesLeave (B : FolderBridge K P δ V T) (R : Vault K δ V T → Vault K δ V T → Prop)
    (key : K) : Prop extends RecordsLeave B R key where
  write : ∀ bytes, Leaves R (B.write (B.api.keyToPath key) bytes)
  removeFile : Leaves R (B.removeFile (B.api.keyToPath key))
  own : ∀ container, B.api.containerId (B.api.keyToPath key) = .ok container → container = key

theorem AppliesLeave.projects (h : AppliesLeave B R key) : ProjectsLeave B R key :=
  { h with }

variable [IsPreorder _ R] {key : K}

theorem afterCall_leaves (call : StoreCall K) : Leaves R (B.afterCall call) := by
  rw [FolderBridge.afterCall]
  split
  next => exact .throw _
  next => exact .pure ()

theorem RecordsLeave.writeTombstone (h : RecordsLeave B R key) (kind : EntryKind) (hash : String) :
    Leaves R (B.writeTombstone key kind hash) :=
  (h.setValue _).bind fun _ => Leaves.get.bind fun _ => h.setValue _

section Flush
variable [TextCrdt T]

theorem RecordsLeave.healEntry (h : RecordsLeave B R key) : Leaves R (B.healEntry key) := by
  apply Leaves.bind .get
  intro s
  split
  next => exact h.setValue _
  next => exact .pure _

theorem RecordsLeave.detectDeletion [DecidableEq K] (h : RecordsLeave B R key) (present : List K)
    (v : V) : Leaves R (B.detectDeletion present (key, v)) := by
  apply Leaves.ofResult_bind
  intro entry _
  apply Leaves.bind .get
  intro s
  split
  next => exact .pure _
  next =>
    split
    next =>
      split
      next => exact (h.writeTombstone _ _).bind fun _ => h.removeMarker.bind fun _ => .pure _
      next => exact .pure _
    next =>
      split
      next => exact (h.writeTombstone _ _).bind fun _ => h.removeSidecar.bind fun _ => .pure _
      next => exact .pure _

namespace ImportsLeave

theorem applyOps (h : ImportsLeave B R key) (ops : List TextOp) :
    Leaves R (B.applyOps key ops) := by
  induction ops with
  | nil => exact .pure ()
  | cons op ops ih => exact (h.editText op).bind fun _ => ih

theorem reconcileSidecar (h : ImportsLeave B R key) :
    Leaves R (B.reconcileSidecar key fileText expected actual opsApplied applied) := by
  cases applied with
  | ok u =>
    cases u
    rw [FolderBridge.reconcileSidecar]
    split
    next => exact (h.storeSidecar _).bind fun _ => .pure _
    next => exact (h.storeSidecar _).bind fun _ => .throw _
  | error err => exact (h.storeSidecar _).bind fun _ => .throw _

theorem importText (h : ImportsLeave B R key) (fileText : List Char) :
    Leaves R (B.importText key fileText) := by
  have hexpected (a l r : List Char) : Leaves R (B.expectedText a l r) := by
    rw [FolderBridge.expectedText]
    split
    next => exact .pure _
    next =>
      split
      next => exact .pure _
      next => exact .throw _
  apply Leaves.bind .get
  intro s
  apply Leaves.ofResult_bind
  intro sidecar _
  apply Leaves.bind (hexpected _ _ _)
  rintro ⟨expected, conflicts⟩
  dsimp only
  split
  next => exact .pure _
  next =>
    apply Leaves.bind (h.applyOps _).attempt
    intro applied
    apply Leaves.bind .get
    intro s'
    apply Leaves.bind h.reconcileSidecar
    intro outcome
    exact (h.setValue _).bind fun _ => .pure _

theorem releasePrior (h : ImportsLeave B R key) (size : Nat) (prior : Option String)
    (hash : String) : Leaves R (B.releasePrior size prior hash) := by
  apply Leaves.bind .get
  intro s
  split
  next =>
    split
    next => exact h.removeBlob _
    next => exact .pure ()
  next => exact .pure ()

variable [DecidableEq V]

theorem importBlob (h : ImportsLeave B R key) (bytes : Bytes) :
    Leaves R (B.importBlob key bytes) := by
  apply Leaves.bind .get
  intro s
  apply Leaves.bind (h.putBlob bytes)
  intro hash
  split
  next => exact .pure _
  next =>
    dsimp only
    split
    next => exact .pure _
    next =>
      apply (h.setValue _).bind
      intro _
      exact (h.releasePrior _ _ _).bind fun _ => .pure _

variable [DecidableEq K]

theorem importFile {file : P} (h : ∀ key, B.api.containerId file = .ok key → ImportsLeave B R key) :
    Leaves R (B.importFile file) := by
  apply Leaves.bind .get
  intro s
  split
  next =>
    apply Leaves.ofResult_bind
    intro container hc
    have hown := h container hc
    split
    next => exact .throw _
    next =>
      apply Leaves.ofResult_bind
      intro bytes _
      split
      next => exact .throw _
      next =>
        split
        next => exact hown.importText _
        next => exact (hown.importBlob _).bind fun _ => hown.writeMarker.bind fun _ => .pure _
  next => exact .throw _

end ImportsLeave

end Flush

section Apply

theorem getBlob_leaves (hash : String) : Leaves R (B.getBlob hash) := by
  apply Leaves.bind .get
  intro s
  split
  next =>
    apply (afterCall_leaves _).bind
    intro _
    split
    next => exact .pure _
    next =>
      split
      next => exact .pure _
      next => exact .throw _
  next => exact .throw _

namespace ProjectsLeave

theorem projectBlob (h : ProjectsLeave B R key) (hash : String) :
    Leaves R (B.projectBlob (B.api.keyToPath key) hash) := by
  apply Leaves.bind .get
  intro s
  split
  next =>
    apply (getBlob_leaves _).bind
    intro bytes
    split
    next => exact .pure _
    next =>
      split
      next => exact .pure _
      next =>
        apply (h.write _).bind
        intro _
        apply Leaves.ofResult_bind
        intro container hc
        obtain rfl := h.own container hc
        exact h.writeMarker.bind fun _ => .pure _
  next => exact .throw _

variable [TextCrdt T]

theorem projectFileInner (h : ProjectsLeave B R key) (force : Bool) :
    Leaves R (B.projectFileInner (B.api.keyToPath key) force) := by
  apply Leaves.ofResult_bind
  intro container hc
  obtain rfl := h.own container hc
  apply Leaves.bind .get
  intro s
  apply Leaves.ofResult_bind
  intro bytes _
  apply Leaves.ofResult_bind
  intro sidecar _
  split
  next => exact .pure _
  next =>
    split
    next => exact .throw _
    next =>
      split
      next =>
        apply (h.write _).bind
        intro _
        exact (h.storeSidecar _).bind fun _ => .pure _
      next => exact .throw _

theorem projectUnlessDirty (h : ProjectsLeave B R key) :
    Leaves R (B.projectUnlessDirty (B.api.keyToPath key)) := by
  apply (h.projectFileInner false).attempt.bind
  intro outcome
  split
  next => exact .pure _
  next => exact .pure _
  next => exact .throw _

variable [DecidableEq K]

theorem applyLive (h : ProjectsLeave B R key) (present : List K) (entry : FileEntry K) :
    Leaves R (B.applyLive present key entry) := by
  apply Leaves.bind .get
  intro s
  dsimp only
  split
  next => exact (h.projectBlob _).bind fun _ => .pure _
  next =>
    split
    next =>
      apply h.projectUnlessDirty.bind
      intro outcome
      split
      next => exact .pure _
      next => exact .pure _
    next =>
      split
      next => exact .pure _
      next => exact (h.projectFileInner _).bind fun _ => .pure _

end ProjectsLeave

namespace AppliesLeave
variable [TextCrdt T] [DecidableEq K]

theorem applyTombstone (h : AppliesLeave B R key) (present : List K) (entry : FileEntry K) :
    Leaves R (B.applyTombstone present key entry) := by
  apply Leaves.bind .get
  intro s
  dsimp only
  split
  next =>
    have hclean {a : Option (P × SyncOutcome)} : Leaves R (do
        B.removeMarker key
        B.removeSidecar key
        pure a) :=
      h.removeMarker.bind fun _ => h.removeSidecar.bind fun _ => .pure _
    split
    next => exact h.removeFile.bind fun _ => hclean
    next => exact hclean
  next =>
    split
    next =>
      split
      next => exact h.removeFile.bind fun _ => h.removeSidecar.bind fun _ => .pure _
      next => exact (h.setValue _).bind fun _ => h.projects.projectUnlessDirty.bind fun _ => .pure _
    next => exact h.removeSidecar.bind fun _ => .pure _

theorem applyRemote (h : AppliesLeave B R key) (present : List K) (v : V) :
    Leaves R (B.applyRemote present (key, v)) := by
  apply Leaves.ofResult_bind
  intro entry _
  apply Leaves.bind .get
  intro s
  split
  next =>
    split
    next => exact h.projects.applyLive _ _
    next => exact h.applyTombstone _ _
  next => exact .pure _

end AppliesLeave

end Apply

end Roam.Bridge
