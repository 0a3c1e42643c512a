import Roam.Folder
import Roam.BridgeFrame

namespace Roam.Bridge
set_option autoImplicit true
open Library Library.Fallible Rebase

structure FolderEnv (V T : Type) where
  lib : BridgeLib VaultKey V T
  singleVersionThreshold : Option Nat
  refused : StoreCall VaultKey → Option String
  refusedFiles : FileCall → Option String

def FolderEnv.bridge (E : FolderEnv V T) : FolderBridge VaultKey VaultKey Folder V T :=
  ⟨folderApi E.refusedFiles, E.lib, E.singleVersionThreshold, E.refused⟩

abbrev FolderVault (V T : Type) := Vault VaultKey Folder V T

@[ext] structure Cell (V T : Type) where
  file : Option Bytes
  sidecar : Option (Option Sidecar)
  marker : Option Unit
  entry : Option (Write V)
  text : T

section Cells
variable {V T : Type} [TextCrdt T]

def cell (s : FolderVault V T) (k : VaultKey) : Cell V T where
  file := s.disk.files[k]?
  sidecar := s.disk.sidecars[k]?
  marker := s.disk.markers[k]?
  entry := s.doc.entries[k]?
  text := s.doc.container k

variable (s : FolderVault V T) (j k : VaultKey)

theorem cell_setEntry (v : V) : cell { s with doc := s.doc.setEntry j v } k =
      if j = k then { cell s k with entry := some ⟨s.doc.clock + 1, s.doc.peer, v⟩ }
        else cell s k := by
  rw [cell, Replica.entries_setEntry, Replica.container_setEntry]
  split
  next => rfl
  next => rfl

theorem cell_editText (op : TextOp) : cell { s with doc := s.doc.editText j op } k =
      if j = k then { cell s k with text := TextCrdt.edit (s.doc.container k) s.doc.peer op }
      else cell s k := by
  rw [cell, Replica.container_editText]
  split
  next h => rw [h]; rfl
  next => rfl

theorem cell_storeSidecar (sidecar : Sidecar) :
    cell { s with disk.sidecars := s.disk.sidecars.insert j (some sidecar) } k =
      if j = k then { cell s k with sidecar := some (some sidecar) } else cell s k := by
  simp only [cell, get_insert]
  split
  next => rfl
  next => rfl

theorem cell_removeSidecar : cell { s with disk.sidecars := s.disk.sidecars.erase j } k =
      if j = k then { cell s k with sidecar := none } else cell s k := by
  simp only [cell, get_erase]
  split
  next => rfl
  next => rfl

theorem cell_writeMarker : cell { s with disk.markers := s.disk.markers.insert j () } k =
      if j = k then { cell s k with marker := some () } else cell s k := by
  simp only [cell, get_insert]
  split
  next => rfl
  next => rfl

theorem cell_removeMarker : cell { s with disk.markers := s.disk.markers.erase j } k =
      if j = k then { cell s k with marker := none } else cell s k := by
  simp only [cell, get_erase]
  split
  next => rfl
  next => rfl

theorem cell_removeFile : cell { s with disk.files := s.disk.files.erase j } k =
      if j = k then { cell s k with file := none } else cell s k := by
  simp only [cell, get_erase]
  split
  next => rfl
  next => rfl

theorem cell_write (bytes : Bytes) :
    cell { s with disk.files := (s.disk.files.erase j.temp).insert j bytes } k =
      if j = k then { cell s k with file := some bytes }
      else if j.temp = k then { cell s k with file := none } else cell s k := by
  simp only [cell, get_insert, get_erase]
  split
  next => rfl
  next =>
    split
    next => rfl
    next => rfl

end Cells

section Frames

theorem containerId_folder {file : VaultKey} (h : (folderApi refused).containerId file = .ok key) :
    key = file ∧ file.path ≠ VaultKey.filesetMapId := by
  simp only [folderApi] at h
  split at h
  next => cases h
  next hne =>
    cases h
    exact ⟨rfl, hne⟩

variable {V T : Type} {E : FolderEnv V T} {j : VaultKey}

theorem changeFolder_leaves {R : FolderVault V T → FolderVault V T → Prop} [IsPreorder _ R]
    {f : Folder → Folder} (call : FileCall) (h : ∀ s, R s { s with disk := f s.disk }) :
    Leaves R (FolderBridge.onDisk (changeFolder E.refusedFiles call f)) := by
  refine ⟨fun s => ?_⟩
  simp only [FolderBridge.onDisk, exec_ofFun, changeFolder]
  split
  next => exact h s
  next => exact refl_of R s

inductive Written (E : FolderEnv V T) (j : VaultKey) (bytes : Bytes) (s : FolderVault V T) :
    Except (FilesError VaultKey VaultKey) Unit × FolderVault V T → Prop
  | done : Written E j bytes s
      (.ok (), { s with disk.files := (s.disk.files.erase j.temp).insert j bytes })
  | refused (msg : String) : Written E j bytes s (.error (.io msg), s)
  | failed (msg : String) : Written E j bytes s
      (.error (.io msg), { s with disk.files := s.disk.files.erase j.temp })

theorem exec_write (bytes : Bytes) (s : FolderVault V T) :
    Written E j bytes s (exec (E.bridge.write j bytes) s) := by
  simp only [FolderBridge.write, FolderBridge.onDisk, exec_ofFun, FolderEnv.bridge, folderApi,
    tryCall]
  cases E.refusedFiles (.createDirs j) with
  | some msg => exact .refused msg
  | none =>
    simp only [atomicWrite, tryCall]
    cases E.refusedFiles (.writeTemp j) with
    | some msg => exact .failed msg
    | none =>
      cases E.refusedFiles (.rename j) with
      | some msg => exact .failed msg
      | none => exact .done

variable [TextCrdt T]

structure Local (j : VaultKey) (s s' : FolderVault V T) : Prop where
  others : ∀ k, k ≠ j → cell s' k = cell s k
  files : s'.disk.files = s.disk.files
  mayWrite : s'.mayWrite = s.mayWrite
  peer : s'.doc.peer = s.doc.peer
  clock : s.doc.clock ≤ s'.doc.clock

instance (j : VaultKey) : IsPreorder (FolderVault V T) (Local j) where
  refl _ := ⟨fun _ _ => rfl, rfl, rfl, rfl, Nat.le_refl _⟩
  trans _ _ _ h h' :=
    ⟨fun k hk => (h'.others k hk).trans (h.others k hk), h'.files.trans h.files,
      h'.mayWrite.trans h.mayWrite, h'.peer.trans h.peer, h.clock.trans h'.clock⟩

/-- The file may be gone, and nothing else changed. -/
def Cell.Cleared (c c' : Cell V T) : Prop := c' = c ∨ c' = { c with file := none }

omit [TextCrdt T] in
theorem Cell.Cleared.trans {c c' c'' : Cell V T} (h : c.Cleared c') (h' : c'.Cleared c'') :
    c.Cleared c'' := by
  rcases h with rfl | rfl
  · exact h'
  · rcases h' with rfl | rfl
    · exact .inr rfl
    · exact .inr rfl

/-- A step that lets the entry of one key take effect. Its temporary file is another key's. -/
structure Applied (j : VaultKey) (s s' : FolderVault V T) : Prop where
  others : ∀ k, k ≠ j → k ≠ j.temp → cell s' k = cell s k
  temp : (cell s j.temp).Cleared (cell s' j.temp)
  texts : s'.doc.texts = s.doc.texts
  blobs : s'.blobs = s.blobs
  mayWrite : s'.mayWrite = s.mayWrite
  peer : s'.doc.peer = s.doc.peer
  clock : s.doc.clock ≤ s'.doc.clock

instance (j : VaultKey) : IsPreorder (FolderVault V T) (Applied j) where
  refl _ := ⟨fun _ _ _ => rfl, .inl rfl, rfl, rfl, rfl, rfl, Nat.le_refl _⟩
  trans _ _ _ h h' :=
    ⟨fun k hk ht => (h'.others k hk ht).trans (h.others k hk ht), h.temp.trans h'.temp,
      h'.texts.trans h.texts, h'.blobs.trans h.blobs, h'.mayWrite.trans h.mayWrite,
      h'.peer.trans h.peer, h.clock.trans h'.clock⟩

section Local

theorem Local.of_cell {s s' : FolderVault V T}
    (h : ∀ k, ∃ c, cell s' k = if j = k then c else cell s k)
    (hfiles : s'.disk.files = s.disk.files)
    (hw : s'.mayWrite = s.mayWrite) (hp : s'.doc.peer = s.doc.peer)
    (hc : s.doc.clock ≤ s'.doc.clock) : Local j s s' where
  others k hk := by
    obtain ⟨c, hcell⟩ := h k
    rw [hcell, if_neg (Ne.symm hk)]
  files := hfiles
  mayWrite := hw
  peer := hp
  clock := hc

theorem setValue_local (v : V) : Leaves (Local j) (E.bridge.setValue j v) := by
  apply Leaves.bind
  · apply Leaves.modify
    intro s
    exact .of_cell (fun k => ⟨_, cell_setEntry s j k v⟩) rfl rfl rfl (Nat.le_succ _)
  · intro _
    exact afterCall_leaves _

theorem editText_local (op : TextOp) : Leaves (Local j) (E.bridge.editText j op) := by
  apply Leaves.bind .get
  intro s
  split
  next =>
    apply Leaves.bind
    · apply Leaves.modify
      intro s
      exact .of_cell (fun k => ⟨_, cell_editText s j k op⟩) rfl rfl rfl (Nat.le_succ _)
    · intro _
      exact afterCall_leaves _
  next => exact .throw _

theorem storeSidecar_local (sidecar : Sidecar) :
    Leaves (Local j) (E.bridge.storeSidecar j sidecar) := by
  apply changeFolder_leaves
  intro s
  exact .of_cell (fun k => ⟨_, cell_storeSidecar s j k sidecar⟩) rfl rfl rfl (Nat.le_refl _)

theorem removeSidecar_local : Leaves (Local j) (E.bridge.removeSidecar j) := by
  apply changeFolder_leaves
  intro s
  exact .of_cell (fun k => ⟨_, cell_removeSidecar s j k⟩) rfl rfl rfl (Nat.le_refl _)

theorem writeMarker_local : Leaves (Local j) (E.bridge.writeMarker j) := by
  apply changeFolder_leaves
  intro s
  exact .of_cell (fun k => ⟨_, cell_writeMarker s j k⟩) rfl rfl rfl (Nat.le_refl _)

theorem removeMarker_local : Leaves (Local j) (E.bridge.removeMarker j) := by
  apply changeFolder_leaves
  intro s
  exact .of_cell (fun k => ⟨_, cell_removeMarker s j k⟩) rfl rfl rfl (Nat.le_refl _)

theorem putBlob_local (bytes : Bytes) : Leaves (Local j) (E.bridge.putBlob bytes) := by
  apply Leaves.bind .get
  intro s
  dsimp only
  split
  next => exact .pure _
  next =>
    apply (afterCall_leaves _).bind
    intro _
    apply Leaves.bind
    · exact .modify fun s => ⟨fun _ _ => rfl, rfl, rfl, rfl, Nat.le_refl _⟩
    · exact fun _ => .pure _

theorem removeBlob_local (hash : String) : Leaves (Local j) (E.bridge.removeBlob hash) := by
  rw [FolderBridge.removeBlob]
  split
  next =>
    apply (afterCall_leaves _).bind
    intro _
    exact .modify fun s => ⟨fun _ _ => rfl, rfl, rfl, rfl, Nat.le_refl _⟩
  next => exact .throw _

theorem imports_local (j : VaultKey) : ImportsLeave E.bridge (Local j) j where
  setValue := setValue_local
  storeSidecar := storeSidecar_local
  removeSidecar := removeSidecar_local
  writeMarker := writeMarker_local
  removeMarker := removeMarker_local
  editText := editText_local
  putBlob := putBlob_local
  removeBlob := removeBlob_local

theorem importFile_local [DecidableEq V] : Leaves (Local j) (E.bridge.importFile j) := by
  apply ImportsLeave.importFile
  intro container hc
  obtain rfl := (containerId_folder hc).1
  exact imports_local container

end Local

section Applied

theorem Applied.of_cell {s s' : FolderVault V T}
    (h : ∀ k, ∃ c, cell s' k = if j = k then c else cell s k)
    (ht : s'.doc.texts = s.doc.texts) (hb : s'.blobs = s.blobs) (hw : s'.mayWrite = s.mayWrite)
    (hp : s'.doc.peer = s.doc.peer) (hc : s.doc.clock ≤ s'.doc.clock) : Applied j s s' :=
  have hothers (k : VaultKey) (hk : k ≠ j) : cell s' k = cell s k := by
    obtain ⟨c, hcell⟩ := h k
    rw [hcell, if_neg (Ne.symm hk)]
  { others := fun k hk _ => hothers k hk
    temp := .inl (hothers j.temp j.temp_ne)
    texts := ht
    blobs := hb
    mayWrite := hw
    peer := hp
    clock := hc }

theorem setValue_applied (v : V) : Leaves (Applied j) (E.bridge.setValue j v) := by
  apply Leaves.bind
  · apply Leaves.modify
    intro s
    exact .of_cell (fun k => ⟨_, cell_setEntry s j k v⟩) rfl rfl rfl rfl (Nat.le_succ _)
  · intro _
    exact afterCall_leaves _

theorem storeSidecar_applied (sidecar : Sidecar) :
    Leaves (Applied j) (E.bridge.storeSidecar j sidecar) := by
  apply changeFolder_leaves
  intro s
  exact .of_cell (fun k => ⟨_, cell_storeSidecar s j k sidecar⟩) rfl rfl rfl rfl (Nat.le_refl _)

theorem removeSidecar_applied : Leaves (Applied j) (E.bridge.removeSidecar j) := by
  apply changeFolder_leaves
  intro s
  exact .of_cell (fun k => ⟨_, cell_removeSidecar s j k⟩) rfl rfl rfl rfl (Nat.le_refl _)

theorem writeMarker_applied : Leaves (Applied j) (E.bridge.writeMarker j) := by
  apply changeFolder_leaves
  intro s
  exact .of_cell (fun k => ⟨_, cell_writeMarker s j k⟩) rfl rfl rfl rfl (Nat.le_refl _)

theorem removeMarker_applied : Leaves (Applied j) (E.bridge.removeMarker j) := by
  apply changeFolder_leaves
  intro s
  exact .of_cell (fun k => ⟨_, cell_removeMarker s j k⟩) rfl rfl rfl rfl (Nat.le_refl _)

theorem removeFile_applied : Leaves (Applied j) (E.bridge.removeFile j) := by
  apply changeFolder_leaves
  intro s
  exact .of_cell (fun k => ⟨_, cell_removeFile s j k⟩) rfl rfl rfl rfl (Nat.le_refl _)

theorem write_applied (bytes : Bytes) : Leaves (Applied j) (E.bridge.write j bytes) := by
  refine ⟨fun s => ?_⟩
  have h := exec_write (E := E) (j := j) bytes s
  generalize exec (E.bridge.write j bytes) s = out at h
  cases h with
  | done =>
    have hcell (k : VaultKey) := cell_write s j k bytes
    have htemp := (hcell j.temp).trans ((if_neg j.temp_ne.symm).trans (if_pos rfl))
    exact
      { others := fun k hk hkt =>
        (hcell k).trans ((if_neg (Ne.symm hk)).trans (if_neg (Ne.symm hkt)))
        temp := .inr htemp
        texts := rfl
        blobs := rfl
        mayWrite := rfl
        peer := rfl
        clock := Nat.le_refl _ }
  | refused msg => exact refl_of (Applied j) s
  | failed msg =>
    have hcell := cell_removeFile s j.temp
    have htemp := (hcell j.temp).trans (if_pos rfl)
    exact
      { others := fun k _ hkt => (hcell k).trans (if_neg (Ne.symm hkt))
        temp := .inr htemp
        texts := rfl
        blobs := rfl
        mayWrite := rfl
        peer := rfl
        clock := Nat.le_refl _ }

theorem applies_applied (j : VaultKey) : AppliesLeave E.bridge (Applied j) j where
  setValue := setValue_applied
  storeSidecar := storeSidecar_applied
  removeSidecar := removeSidecar_applied
  writeMarker := writeMarker_applied
  removeMarker := removeMarker_applied
  write := write_applied
  removeFile := removeFile_applied
  own _ hc := (containerId_folder hc).1

end Applied

end Frames

end Roam.Bridge
