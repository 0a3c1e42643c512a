import Roam.FolderRounds

namespace Roam.Bridge
set_option autoImplicit true
open Library Library.Fallible Rebase

section Listing
variable {V T : Type} {E : FolderEnv V T}

def Found (s : FolderVault V T) (k : VaultKey) : Prop := k.walked = true ∧ s.disk.files[k]? ≠ none

def Imported (hint : Option (List VaultKey)) (s : FolderVault V T) (k : VaultKey) : Prop :=
  Found s k ∧ ∀ hinted, hint = some hinted → k ∈ hinted

end Listing

section Loops
variable {V T : Type} [TextCrdt T] {E : FolderEnv V T} {k : VaultKey} {s s' : FolderVault V T}

structure Flushing (s s' : FolderVault V T) : Prop where
  files : s'.disk.files = s.disk.files
  mayWrite : s'.mayWrite = s.mayWrite
  peer : s'.doc.peer = s.doc.peer
  clock : s.doc.clock ≤ s'.doc.clock

instance : IsPreorder (FolderVault V T) Flushing where
  refl _ := ⟨rfl, rfl, rfl, Nat.le_refl _⟩
  trans _ _ _ h h' := ⟨h'.files.trans h.files, h'.mayWrite.trans h.mayWrite, h'.peer.trans h.peer,
    h.clock.trans h'.clock⟩

structure Settling (s s' : FolderVault V T) : Prop where
  texts : s'.doc.texts = s.doc.texts
  blobs : s'.blobs = s.blobs
  mayWrite : s'.mayWrite = s.mayWrite
  peer : s'.doc.peer = s.doc.peer
  clock : s.doc.clock ≤ s'.doc.clock

instance : IsPreorder (FolderVault V T) Settling where
  refl _ := ⟨rfl, rfl, rfl, rfl, Nat.le_refl _⟩
  trans _ _ _ h h' := ⟨h'.texts.trans h.texts, h'.blobs.trans h.blobs, h'.mayWrite.trans h.mayWrite,
    h'.peer.trans h.peer, h.clock.trans h'.clock⟩

theorem Local.flushing (h : Local j s s') : Flushing s s' :=
  ⟨h.files, h.mayWrite, h.peer, h.clock⟩

theorem Applied.settling (h : Applied j s s') : Settling s s' :=
  ⟨h.texts, h.blobs, h.mayWrite, h.peer, h.clock⟩

theorem visit_entries (hlib : E.lib.Lawful) {d : Replica VaultKey V T}
    {R : FolderVault V T → FolderVault V T → Prop} [IsPreorder _ R]
    {f : VaultKey × V → BridgeM VaultKey VaultKey Folder V T α} {r : Except _ (List α)}
    {Pre : VaultKey × V → FolderVault V T → Prop}
    (hR : ∀ item ∈ E.bridge.entries d, Leaves R (f item))
    (hpre : Awaits (E.bridge.entries d) f Pre s)
    (hothers : ∀ item ∈ E.bridge.entries d, item.1 ≠ k → ∀ s, Pre item s →
      cell (exec (f item) s).2 k = cell s k) (h : exec ((E.bridge.entries d).mapM f) s = (r, s')) :
    (d.getEntry k = none → cell s' k = cell s k) ∧
      ∀ v, d.getEntry k = some v → Visited R (cell · k) (f (k, v)) s s' ∧
        ∀ results, r = .ok results → ∃ before a after, R s before ∧ cell before k = cell s k ∧
          exec (f (k, v)) before = (.ok a, after) ∧ R after s' ∧ cell s' k = cell after k := by
  have hnodup := (E.bridge.nodup_entries hlib d).of_map
  apply And.intro
  · intro hnone
    refine view_mapM (cell · k) hnodup hpre ?_ h
    rintro ⟨j, v⟩ hitem
    apply hothers _ hitem
    rintro rfl
    rw [E.bridge.mem_entries hlib, hnone] at hitem
    cases hitem
  · intro v hv
    have hvisit := mapM_visit (cell · k) (k, v) hR hnodup hpre ?_ h
    · exact ⟨hvisit.2.1, fun results hr => hvisit.2.2 results hr ((E.bridge.mem_entries hlib).2 hv)⟩
    · rintro ⟨j, v'⟩ hitem hne
      apply hothers _ hitem
      rintro rfl
      rw [E.bridge.mem_entries hlib, hv] at hitem
      cases hitem
      exact hne rfl

end Loops

section Flush
variable {V T : Type} {E : FolderEnv V T} {k : VaultKey} {s s' t t' : FolderVault V T}

theorem Authored.flushing {v : V} {w : Write V} (h : Authored s s' v w)
    (hstart : Flushing t s) (hend : Flushing s' t') : Authored t t' v w :=
  h.widen hstart.peer hstart.clock hend.clock

theorem Flushing.found_iff (h : Flushing s t) : Found t k ↔ Found s k := by
  rw [Found, Found, h.files]

theorem collect_ok {refused : FileCall → Option String} {d : Folder}
    (h : (folderApi refused).collectVaultFiles d = .ok files) :
    files = d.files.keys.filter VaultKey.walked := by
  have hwalk := tryCall_bind_ok h
  cases hwalk
  rfl

theorem containerIds_ok {refused : FileCall → Option String} {files : List VaultKey}
    (h : files.mapM (folderApi refused).containerId = .ok keys) : keys = files := by
  induction files generalizing keys with
  | nil =>
    cases h
    rfl
  | cons file files ih =>
    rw [List.mapM_cons] at h
    cases hfirst : (folderApi refused).containerId file with
    | error err =>
      rw [hfirst] at h
      cases h
    | ok key =>
      rw [hfirst] at h
      cases hrest : files.mapM (folderApi refused).containerId with
      | error err =>
        have hfail := (congrArg (fun x => x >>= fun ks => pure (key :: ks)) hrest).symm.trans h
        cases hfail
      | ok rest =>
        have hsame := (congrArg (fun x => x >>= fun ks => pure (key :: ks)) hrest).symm.trans h
        cases hsame
        rw [ih hrest, (containerId_folder hfirst).1]

theorem mem_walk {s : FolderVault V T} :
    k ∈ (s.disk.files.keys.filter VaultKey.walked).dedup ↔ Found s k := by
  rw [List.mem_dedup, List.mem_filter, Std.TreeMap.mem_keys, Found, and_comm,
    ← Option.isSome_iff_ne_none, ← Std.TreeMap.contains_eq_isSome_getElem?,
      Std.TreeMap.mem_iff_contains]

theorem mem_filesToImport {s : FolderVault V T} :
    k ∈ FolderBridge.filesToImport hint (s.disk.files.keys.filter VaultKey.walked) ↔
      Imported hint s k := by
  rw [Imported, ← mem_walk, List.mem_dedup]
  cases hint with
  | none => exact (and_iff_left nofun).symm
  | some hinted =>
    rw [FolderBridge.filesToImport, List.mem_filter, decide_eq_true_eq]
    apply and_congr_right'
    exact ⟨fun hmem _ heq => Option.some.inj heq ▸ hmem, fun h => h hinted rfl⟩

theorem nodup_filesToImport (hint : Option (List VaultKey)) (s : FolderVault V T) :
    (FolderBridge.filesToImport hint (s.disk.files.keys.filter VaultKey.walked)).Nodup := by
  have hfiles := Std.TreeMap.nodup_keys.filter (l := s.disk.files.keys) VaultKey.walked
  cases hint with
  | none => exact hfiles
  | some hinted => exact hfiles.filter _

variable [TextCrdt T] {s s' : FolderVault V T} {c c' : Cell V T}

theorem ImportCell.widen
    (h : ImportCell E s s' c c') (hstart : Flushing t s) (hend : Flushing s' t') :
    ImportCell E t t' c c' := by
  cases h with
  | skipped fileText bytes file decoded skips => exact .skipped fileText bytes file decoded skips
  | text fileText bytes new w t file decoded expected ops text_eq grows authored =>
    exact .text fileText bytes new w t file decoded expected ops text_eq grows
      (authored.flushing hstart hend)
  | blobKept bytes file binary has => exact .blobKept bytes file binary has
  | blob bytes w file binary has authored =>
    exact .blob bytes w file binary has (authored.flushing hstart hend)

theorem HealCell.widen (h : HealCell E s s' c c') (hstart : Flushing t s) (hend : Flushing s' t') :
    HealCell E t t' c c' := by
  cases h with
  | kept known => exact .kept known
  | healed w unknown sidecar authored =>
    exact .healed w unknown sidecar (authored.flushing hstart hend)

theorem DetectCell.widen
    (h : DetectCell E k found s s' c c') (hfound : found ↔ found') (hstart : Flushing t s)
    (hend : Flushing s' t') : DetectCell E k found' t t' c c' := by
  obtain rfl := propext hfound
  cases h with
  | kept entry read kept => exact .kept entry read kept
  | blob entry checkpoint w read status missing kind marker authored =>
    exact .blob entry checkpoint w read status missing kind marker (authored.flushing hstart hend)
  | text entry checkpoint w read status missing kind sidecar authored =>
    exact .text entry checkpoint w read status missing kind sidecar (authored.flushing hstart hend)

structure FlushCell (E : FolderEnv V T) (hint : Option (List VaultKey)) (k : VaultKey)
    (s t : FolderVault V T) (imported healed : Cell V T) : Prop where
  step1 : Imported hint s k → ImportCell E s t (cell s k) imported
  not_imported : ¬ Imported hint s k → imported = cell s k
  step1b : Found s k → HealCell E s t imported healed
  not_found : ¬ Found s k → healed = imported
  step2 : healed.entry ≠ none → DetectCell E k (Found s k) s t healed (cell t k)
  no_entry : healed.entry = none → cell t k = healed

theorem heals_cell {present : List VaultKey} (hnodup : present.Nodup)
    (h : exec (present.mapM E.bridge.healEntry) s = (.ok out, s')) :
    Flushing s s' ∧ ∀ k, (k ∈ present → HealCell E s s' (cell s k) (cell s' k)) ∧
      (k ∉ present → cell s' k = cell s k) := by
  have hR : ∀ j ∈ present, Leaves Flushing (E.bridge.healEntry j) := fun j _ =>
    (imports_local j).healEntry.mono fun _ _ => Local.flushing
  refine ⟨(Leaves.mapM hR).of_exec h, fun k => ?_⟩
  obtain ⟨hout, -, hin⟩ := mapM_visit (cell · k) k hR hnodup (awaits_true _ _ s)
    (fun j _ hj s _ => ((imports_local j).healEntry.holds s).others k (Ne.symm hj)) h
  refine ⟨fun hk => ?_, hout⟩
  obtain ⟨before, _, after, hstart, hbefore, hround, hend, hafter⟩ := hin _ rfl hk
  have hcell := (healEntry_cell hround).widen hstart hend
  rwa [hbefore, ← hafter] at hcell

theorem detects_cell (hlib : E.lib.Lawful) {present : List VaultKey}
    (h : exec ((E.bridge.entries s.doc).mapM (E.bridge.detectDeletion present)) s = (.ok out, s')) :
    Flushing s s' ∧ ∀ k, ((cell s k).entry ≠ none →
        DetectCell E k (k ∈ present) s s' (cell s k) (cell s' k)) ∧
      ((cell s k).entry = none → cell s' k = cell s k) := by
  have hR :
      ∀ item ∈ E.bridge.entries s.doc, Leaves Flushing (E.bridge.detectDeletion present item) :=
    fun item _ => ((imports_local item.1).detectDeletion present item.2).mono fun _ _ =>
      Local.flushing
  refine ⟨(Leaves.mapM hR).of_exec h, fun k => ?_⟩
  obtain ⟨hnone, hsome⟩ := visit_entries (k := k) hlib hR (awaits_true _ _ s)
    (fun item _ hj s _ =>
      (((imports_local item.1).detectDeletion present item.2).holds s).others k (Ne.symm hj)) h
  apply And.intro
  · intro hentry
    obtain ⟨w, hw⟩ := Option.ne_none_iff_exists'.1 hentry
    have hvalue : s.doc.getEntry k = some w.value := congrArg (Option.map Write.value) hw
    obtain ⟨-, hround⟩ := hsome _ hvalue
    obtain ⟨before, _, after, hstart, hbefore, hround, hend, hafter⟩ := hround _ rfl
    have hcell :=
      (detectDeletion_cell (by rw [hbefore]; exact hvalue) hround).widen Iff.rfl hstart hend
    rwa [hbefore, ← hafter] at hcell
  · intro hentry
    exact hnone (congrArg (Option.map Write.value) hentry)

variable [DecidableEq V]

theorem imports_cell {files : List VaultKey} (hnodup : files.Nodup)
    (h : exec (files.mapM fun file => do
      let outcome ← E.bridge.importFile file
      pure (file, outcome)) s = (.ok out, s')) :
    Flushing s s' ∧ ∀ k, (k ∈ files → ImportCell E s s' (cell s k) (cell s' k)) ∧
      (k ∉ files → cell s' k = cell s k) := by
  have hlocal (j : VaultKey) : Leaves (Local j) (do
      let outcome ← E.bridge.importFile j
      pure (j, outcome)) := importFile_local.bind fun _ => .pure _
  have hR : ∀ j ∈ files, Leaves Flushing (do
      let outcome ← E.bridge.importFile j
      pure (j, outcome)) := fun j _ => (hlocal j).mono fun _ _ => Local.flushing
  refine ⟨(Leaves.mapM hR).of_exec h, fun k => ?_⟩
  obtain ⟨hout, -, hin⟩ := mapM_visit (cell · k) k hR hnodup (awaits_true _ _ s)
    (fun j _ hj s _ => ((hlocal j).holds s).others k (Ne.symm hj)) h
  refine ⟨fun hk => ?_, hout⟩
  obtain ⟨before, _, after, hstart, hbefore, hround, hend, hafter⟩ := hin _ rfl hk
  obtain ⟨_, _, himport, hpure⟩ := exec_bind_ok hround
  cases hpure
  have hcell := (importFile_cell himport).2.widen hstart hend
  rwa [hbefore, ← hafter] at hcell

theorem flush_cell (hlib : E.lib.Lawful) {s t : FolderVault V T} (hw : s.mayWrite = true)
    (h : exec (E.bridge.flush hint) s = (.ok (present, out), t)) :
    (∀ k, k ∈ present ↔ Found s k) ∧ Flushing s t ∧
      ∀ k, ∃ imported healed, FlushCell E hint k s t imported healed := by
  rw [FolderBridge.flush, exec_get_bind] at h
  obtain ⟨files, hfiles, h⟩ := exec_ofResult_bind_ok h
  obtain ⟨keys, hkeys, h⟩ := exec_ofResult_bind_ok h
  obtain ⟨flushed, _, hflush, h⟩ := exec_bind_ok h
  cases h
  obtain rfl := containerIds_ok hkeys
  obtain rfl := collect_ok hfiles
  refine ⟨fun k => mem_walk, ?_⟩
  rw [FolderBridge.flushLocal, exec_get_bind, if_pos hw] at hflush
  obtain ⟨imports, s₁, himport, hflush⟩ := exec_bind_ok hflush
  obtain ⟨_, s₂, hheal, hflush⟩ := exec_bind_ok hflush
  rw [exec_get_bind] at hflush
  obtain ⟨deleted, _, hdetect, hflush⟩ := exec_bind_ok hflush
  cases hflush
  obtain ⟨hflush₁, hcell₁⟩ := imports_cell (nodup_filesToImport hint s) himport
  obtain ⟨hflush₂, hcell₂⟩ := heals_cell (List.nodup_dedup _) hheal
  obtain ⟨hflush₃, hcell₃⟩ := detects_cell hlib hdetect
  have hflush₂₃ := trans_of Flushing hflush₂ hflush₃
  refine ⟨trans_of Flushing hflush₁ hflush₂₃, fun k => ⟨cell s₁ k, cell s₂ k, ?_, ?_, ?_, ?_,
    ?_, ?_⟩⟩
  · intro hk
    exact ((hcell₁ k).1 (mem_filesToImport.2 hk)).widen (refl_of Flushing s) hflush₂₃
  · intro hk
    exact (hcell₁ k).2 fun hmem => hk (mem_filesToImport.1 hmem)
  · intro hk
    exact ((hcell₂ k).1 (mem_walk.2 hk)).widen hflush₁ hflush₃
  · intro hk
    exact (hcell₂ k).2 fun hmem => hk (mem_walk.1 hmem)
  · intro hentry
    exact ((hcell₃ k).1 hentry).widen mem_walk (trans_of Flushing hflush₁ hflush₂)
      (refl_of Flushing _)
  · exact (hcell₃ k).2

end Flush

section Apart
variable {V T : Type} [TextCrdt T] {E : FolderEnv V T} {j : VaultKey} {s s' : FolderVault V T}
  {entry : FileEntry VaultKey} {present : List VaultKey}

/-- Step 3 writes the file of the cell, and that through the temporary file of the key. -/
def Cell.Writes (E : FolderEnv V T) (found : Prop) (blobs : Std.TreeMap String Bytes)
    (c : Cell V T) : Prop :=
  ∃ entry, c.fileEntry E = some entry ∧
    (entry.status = .live ∧ entry.kind = .blob ∧ c.file = none ∧
        (∃ bytes, blobs[entry.contentHash]? = some bytes) ∨
      entry.status = .live ∧ entry.kind = .text ∧ (found ∨ c.sidecar = none) ∧ c.Stale ∨
      entry.status = .tombstoned ∧ entry.kind = .text ∧ found ∧
        E.bridge.textHash c.storeText ≠ entry.contentHash ∧ c.Stale)

def Apart (j : VaultKey) (s s' : FolderVault V T) : Prop := ∀ k, k ≠ j → cell s' k = cell s k

instance (j : VaultKey) : IsPreorder (FolderVault V T) (Apart j) where
  refl _ _ _ := rfl
  trans _ _ _ h h' k hk := (h' k hk).trans (h k hk)

theorem removeFile_apart : Leaves (Apart j) (E.bridge.removeFile j) := by
  apply changeFolder_leaves
  intro s k hk
  exact (cell_removeFile s j k).trans (if_neg (Ne.symm hk))

theorem records_apart (j : VaultKey) : RecordsLeave E.bridge (Apart j) j :=
  (imports_local j).toRecordsLeave.mono fun _ _ h => h.others

theorem applyLive_calm (hread : (cell s j).fileEntry E = some entry)
    (hstatus : entry.status = .live) (hcalm : ¬ (cell s j).Writes E (j ∈ present) s.blobs)
    (h : exec (E.bridge.applyLive present j entry) s = (r, s')) : s' = s := by
  rw [FolderBridge.applyLive, exec_get_bind] at h
  dsimp only at h
  rw [keyToPath_folder] at h
  split at h
  next hkind =>
    have hblob {q : Except _ SyncOutcome} {t : FolderVault V T}
        (h : exec (E.bridge.projectBlob j entry.contentHash) s = (q, t)) : t = s := by
      rcases exec_projectBlob h with ⟨rfl, -⟩ | ⟨hnone, bytes, hbytes, -⟩
      · rfl
      · exact absurd ⟨entry, hread, .inl ⟨hstatus, hkind, hnone, bytes, hbytes⟩⟩ hcalm
    rcases exec_bind_cases h with ⟨err, hproject, -⟩ | ⟨outcome, mid, hproject, h⟩
    · exact hblob hproject
    · cases h
      exact hblob hproject
  next hkind =>
    have hstale (hwanted : j ∈ present ∨ (cell s j).sidecar = none) : ¬ (cell s j).Stale :=
      fun hstale => hcalm ⟨entry, hread, .inr (.inl ⟨hstatus, hkind, hwanted, hstale⟩)⟩
    split at h
    next hfound =>
      rcases exec_bind_cases h with ⟨err, hproject, -⟩ | ⟨outcome, mid, hproject, h⟩
      · exact projectUnlessDirty_calm (hstale (.inl hfound)) hproject
      · rw [← projectUnlessDirty_calm (hstale (.inl hfound)) hproject]
        split at h
        next => cases h; rfl
        next => cases h; rfl
    next =>
      split at h
      next =>
        cases h
        rfl
      next hsidecar =>
        rw [sidecarExists_iff, not_not] at hsidecar
        rcases exec_bind_cases h with ⟨err, hproject, -⟩ | ⟨outcome, mid, hproject, h⟩
        · exact (exec_projectFile hproject).2 (hstale (.inr hsidecar))
        · cases h
          exact (exec_projectFile hproject).2 (hstale (.inr hsidecar))

section Calm
variable {R : FolderVault V T → FolderVault V T → Prop} [IsPreorder _ R]

def Cell.Removes (E : FolderEnv V T) (found : Prop) (c : Cell V T) : Prop :=
  ∃ entry, c.fileEntry E = some entry ∧ entry.status = .tombstoned ∧ found ∧
    (entry.kind = .blob ∨ E.bridge.textHash c.storeText = entry.contentHash)

variable (hR : RecordsLeave E.bridge R j) (hcalm : ¬ (cell s j).Writes E (j ∈ present) s.blobs)
variable (hremove : (cell s j).Removes E (j ∈ present) → Leaves R (E.bridge.removeFile j))
include hR hcalm hremove

theorem applyTombstone_calm (hread : (cell s j).fileEntry E = some entry)
    (hstatus : entry.status = .tombstoned)
    (h : exec (E.bridge.applyTombstone present j entry) s = (r, s')) : R s s' := by
  have hclean {a : Option (VaultKey × SyncOutcome)} : Leaves R (do
      E.bridge.removeMarker j
      E.bridge.removeSidecar j
      pure a) :=
    hR.removeMarker.bind fun _ => hR.removeSidecar.bind fun _ => .pure _
  rw [FolderBridge.applyTombstone, exec_get_bind] at h
  dsimp only at h
  rw [keyToPath_folder] at h
  split at h
  next hkind =>
    split at h
    next hfound =>
      have hfile := hremove ⟨entry, hread, hstatus, hfound, .inl hkind⟩
      exact (hfile.bind fun _ => hclean).of_exec h
    next => exact hclean.of_exec h
  next hkind =>
    split at h
    next hfound =>
      split at h
      next hhash =>
        have hfile := hremove ⟨entry, hread, hstatus, hfound, .inr hhash⟩
        exact (hfile.bind fun _ => hR.removeSidecar.bind fun _ => .pure _).of_exec h
      next hhash =>
        rcases exec_bind_cases h with ⟨err, hset, -⟩ | ⟨_, mid, hset, h⟩
        · exact (hR.setValue _).of_exec hset
        obtain ⟨w, -, hcell⟩ := setValue_cell hset
        have hmid : ¬ (cell mid j).Stale := by
          rw [hcell]
          exact fun hstale =>
            hcalm ⟨entry, hread, .inr (.inr ⟨hstatus, hkind, hfound, hhash, hstale⟩)⟩
        have hset' := (hR.setValue _).of_exec hset
        rcases exec_bind_cases h with ⟨err, hproject, -⟩ | ⟨_, _, hproject, h⟩
        · rwa [projectUnlessDirty_calm hmid hproject]
        · cases h
          rwa [projectUnlessDirty_calm hmid hproject]
    next => exact (hR.removeSidecar.bind fun _ => .pure _).of_exec h

theorem applyRemote_calm (hvalue : (cell s j).value = some v)
    (h : exec (E.bridge.applyRemote present (j, v)) s = (r, s')) : R s s' := by
  rcases parseEntry_bind_cases h with ⟨err, -, hsame⟩ | ⟨entry, hparse, h⟩
  · rw [hsame]
    exact refl_of R s
  · have hread := Cell.fileEntry_eq hvalue hparse
    have hinside : E.bridge.api.withinVault s.disk (E.bridge.api.keyToPath j) = true := rfl
    rw [exec_get_bind, if_pos hinside] at h
    split at h
    next hstatus =>
      rw [applyLive_calm hread hstatus hcalm h]
      exact refl_of R s
    next hstatus => exact applyTombstone_calm hR hcalm hremove hread hstatus h

end Calm

end Apart

section Scan
variable {V T : Type} {E : FolderEnv V T} {k : VaultKey}

theorem Authored.settling {s s' t t' : FolderVault V T} {v : V} {w : Write V}
    (h : Authored s s' v w) (hstart : Settling t s) (hend : Settling s' t') : Authored t t' v w :=
  h.widen hstart.peer hstart.clock hend.clock

variable [TextCrdt T]

theorem ApplyCell.widen {s s' t t' : FolderVault V T} {c c' : Cell V T}
    (h : ApplyCell E found s s' c c') (hfound : found ↔ found') (hstart : Settling t s)
    (hend : Settling s' t') : ApplyCell E found' t t' c c' := by
  obtain rfl := propext hfound
  cases h with
  | blobKept entry read status kind nothing =>
    rw [hstart.blobs] at nothing
    exact .blobKept entry read status kind nothing
  | blob entry bytes read status kind stored absent =>
    rw [hstart.blobs] at stored
    exact .blob entry bytes read status kind stored absent
  | text entry c' read status kind wanted project =>
      exact .text entry c' read status kind wanted project
  | dirty entry read status kind isFound dirty => exact .dirty entry read status kind isFound dirty
  | textMissing entry read status kind missing sidecar =>
    exact .textMissing entry read status kind missing sidecar
  | blobDeleted entry read status kind isFound => exact .blobDeleted entry read status kind isFound
  | blobGone entry read status kind missing => exact .blobGone entry read status kind missing
  | textDeleted entry read status kind isFound hash =>
    exact .textDeleted entry read status kind isFound hash
  | textGone entry read status kind missing => exact .textGone entry read status kind missing
  | revived entry w c' read status kind isFound hash authored project =>
    exact .revived entry w c' read status kind isFound hash (authored.settling hstart hend) project

/-- The key is the name of the temporary file of another key whose file Step 3 writes: because of
its entry, or because its own file is gone before its turn. -/
inductive Clobbered (E : FolderEnv V T) (t : FolderVault V T) : VaultKey → Prop
  | written (j : VaultKey) (writes : (cell t j).Writes E (Found t j) t.blobs) :
      Clobbered E t j.temp
  | chained (j : VaultKey) (clobbered : Clobbered E t j)
      (writes : { cell t j with file := none }.Writes E (Found t j) t.blobs) :
      Clobbered E t j.temp

theorem not_clobbered (t : FolderVault V T) (h : ¬ ".tmp".toList <:+ k.path.toList) :
    ¬ Clobbered E t k := by
  have htemp (j : VaultKey) : ".tmp".toList <:+ j.temp.path.toList := by
    rw [VaultKey.temp, String.toList_append]
    exact List.suffix_append _ _
  intro hk
  cases hk with
  | written j => exact h (htemp j)
  | chained j => exact h (htemp j)

/-- What the round of a key finds, if none before it was about the same key. -/
structure Ahead (E : FolderEnv V T) (t : FolderVault V T) (item : VaultKey × V)
    (s : FolderVault V T) : Prop where
  value : (cell t item.1).value = some item.2
  blobs : s.blobs = t.blobs
  cleared : (cell t item.1).Cleared (cell s item.1)
  same : ¬ Clobbered E t item.1 → cell s item.1 = cell t item.1

section Rounds
variable {t s s' : FolderVault V T} {present : List VaultKey}

theorem Ahead.clobbered (h : Ahead E t (j, v) s)
    (hwrites : (cell s j).Writes E (Found t j) s.blobs) : Clobbered E t j.temp := by
  rw [h.blobs] at hwrites
  by_cases hj : Clobbered E t j
  · rcases h.cleared with hsame | hgone
    · rw [hsame] at hwrites
      exact .written j hwrites
    · rw [hgone] at hwrites
      exact .chained j hj hwrites
  · rw [h.same hj] at hwrites
    exact .written j hwrites

theorem Ahead.others (h : Ahead E t (j, v) s) (hfound : ∀ j, j ∈ present ↔ Found t j) (hk : k ≠ j) :
    (cell s k).Cleared (cell (exec (E.bridge.applyRemote present (j, v)) s).2 k) ∧
      (¬ Clobbered E t k → cell (exec (E.bridge.applyRemote present (j, v)) s).2 k = cell s k) := by
  have happlied := ((applies_applied (E := E) j).applyRemote present v).holds s
  by_cases htemp : k = j.temp
  · subst htemp
    refine ⟨happlied.temp, fun hclear => ?_⟩
    have hvalue : (cell s j).value = some v := by
      rcases h.cleared with hsame | hgone
      · rw [hsame]
        exact h.value
      · rw [hgone]
        exact h.value
    have hcalm : ¬ (cell s j).Writes E (j ∈ present) s.blobs := by
      rw [propext (hfound j)]
      exact fun hwrites => hclear (h.clobbered hwrites)
    exact applyRemote_calm (records_apart j) hcalm (fun _ => removeFile_apart) hvalue rfl _ hk
  · have hsame := happlied.others k hk htemp
    exact ⟨.inl hsame, fun _ => hsame⟩

theorem Ahead.next (h : Ahead E t item s) (h' : Ahead E t item' s)
    (hfound : ∀ j, j ∈ present ↔ Found t j) (hne : item'.1 ≠ item.1) :
    Ahead E t item' (exec (E.bridge.applyRemote present item) s).2 where
  value := h'.value
  blobs := (((applies_applied item.1).applyRemote present item.2).holds s).blobs.trans h.blobs
  cleared := h'.cleared.trans (h.others hfound hne).1
  same hclear := ((h.others hfound hne).2 hclear).trans (h'.same hclear)

/-- Step 3 as a whole. A round of another key leaves the cell alone, unless it writes through the
file of the key. -/
theorem applyAll_cell (hlib : E.lib.Lawful) (hfound : ∀ j, j ∈ present ↔ Found t j)
    (hclear : ¬ Clobbered E t k) (h : exec (E.bridge.applyAll present) t = (r, s')) :
    Settling t s' ∧ ((cell t k).entry = none → cell s' k = cell t k) ∧
      ∀ v, (cell t k).value = some v →
        Visited Settling (cell · k) (E.bridge.applyRemote present (k, v)) t s' ∧
        ∀ results, r = .ok results → ApplyCell E (k ∈ present) t s' (cell t k) (cell s' k) := by
  rw [FolderBridge.applyAll, exec_get_bind] at h
  have hR : ∀ item ∈ E.bridge.entries t.doc, Leaves Settling (E.bridge.applyRemote present item) :=
    fun item _ => ((applies_applied item.1).applyRemote present item.2).mono fun _ _ =>
      Applied.settling
  refine ⟨(Leaves.mapM hR).of_exec h, ?_⟩
  have hpre : Awaits (E.bridge.entries t.doc) (E.bridge.applyRemote present) (Ahead E t) t := by
    constructor
    · exact fun item hitem => ⟨(E.bridge.mem_entries hlib).1 hitem, rfl, .inl rfl, fun _ => rfl⟩
    · rintro item - item' - hne s hitem hitem'
      apply hitem.next hitem' hfound
      intro hkey
      apply hne
      apply Prod.ext hkey
      have hvalue := hitem'.value
      rw [hkey, hitem.value] at hvalue
      exact (Option.some.inj hvalue).symm
  obtain ⟨hnone, hsome⟩ := visit_entries (k := k) hlib hR hpre
    (fun item _ hj s hitem => (hitem.others hfound (Ne.symm hj)).2 hclear) h
  refine ⟨fun hentry => hnone (congrArg (Option.map Write.value) hentry), ?_⟩
  intro v hv
  obtain ⟨hvisit, hround⟩ := hsome v hv
  refine ⟨hvisit, fun results hr => ?_⟩
  obtain ⟨before, _, after, hstart, hbefore, hround, hend, hafter⟩ := hround results hr
  have hcell := (applyRemote_cell (by rw [hbefore]; exact hv) hround).widen Iff.rfl hstart hend
  rwa [hbefore, ← hafter] at hcell

end Rounds

structure ScanCell (E : FolderEnv V T) (hint : Option (List VaultKey)) (k : VaultKey)
    (s t s' : FolderVault V T) (imported healed : Cell V T) : Prop
    extends FlushCell E hint k s t imported healed where
  flushing : Flushing s t
  settling : Settling t s'
  step3 : (cell t k).entry ≠ none → ApplyCell E (Found s k) t s' (cell t k) (cell s' k)
  not_applied : (cell t k).entry = none → cell s' k = cell t k

variable [DecidableEq V]

theorem scan_cell (hlib : E.lib.Lawful) {s s' : FolderVault V T} (hw : s.mayWrite = true)
    (hk : ¬ Clobbered E (exec (E.bridge.flush hint) s).2 k)
    (h : exec (E.bridge.scanGc hint) s = (.ok out, s')) :
    ∃ t imported healed, (exec (E.bridge.flush hint) s).2 = t ∧
      ScanCell E hint k s t s' imported healed := by
  obtain ⟨⟨present, flushed⟩, t, hflush, h⟩ := exec_bind_ok h
  obtain ⟨applied, _, happly, h⟩ := exec_bind_ok h
  cases h
  obtain ⟨hfound, hflushing, hcells⟩ := flush_cell hlib hw hflush
  rw [hflush] at hk
  obtain ⟨hsettling, hnone, hsome⟩ := applyAll_cell hlib
    (fun j => (hfound j).trans hflushing.found_iff.symm) hk happly
  obtain ⟨imported, healed, hcell⟩ := hcells k
  refine ⟨t, imported, healed, congrArg Prod.snd hflush, hcell, hflushing, hsettling, ?_, hnone⟩
  intro hentry
  obtain ⟨w, hwrite⟩ := Option.ne_none_iff_exists'.1 hentry
  obtain ⟨-, hround⟩ := hsome w.value (congrArg (Option.map Write.value) hwrite)
  exact (hround _ rfl).widen (hfound k) (refl_of Settling t) (refl_of Settling _)

end Scan

end Roam.Bridge
