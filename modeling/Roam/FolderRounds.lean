import Roam.FolderSpec

namespace Roam.Bridge
set_option autoImplicit true
open Library Library.Fallible Rebase

section Calls
variable {V T : Type} {E : FolderEnv V T} {k : VaultKey} {s s' : FolderVault V T}
  {refused : FileCall → Option String}

theorem keyToPath_folder : E.bridge.api.keyToPath k = k := rfl

theorem afterCall_ok (h : exec (E.bridge.afterCall call) s = (.ok u, s')) : s' = s := by
  rw [FolderBridge.afterCall] at h
  split at h
  next => cases h
  next => cases h; rfl

theorem onDisk_ok {f : Folder → Folder}
    (h : exec (FolderBridge.onDisk (changeFolder E.refusedFiles call f)) s = (.ok u, s')) :
    s' = { s with disk := f s.disk } := by
  simp only [FolderBridge.onDisk, exec_ofFun, changeFolder] at h
  split at h
  next => cases h; rfl
  next => cases h

theorem write_ok (h : exec (E.bridge.write k bytes) s = (.ok u, s')) :
    s' = { s with disk.files := (s.disk.files.erase k.temp).insert k bytes } := by
  have hw := exec_write (E := E) (j := k) bytes s
  rw [h] at hw
  cases hw
  rfl

theorem setValue_exec (h : exec (E.bridge.setValue k v) s = (r, s')) :
    s' = { s with doc := s.doc.setEntry k v } := by
  rcases exec_bind_cases h with ⟨e, hop, -⟩ | ⟨u, t, hop, hcall⟩
  · cases hop
  · cases hop
    rw [FolderBridge.afterCall] at hcall
    split at hcall
    next => cases hcall; rfl
    next => cases hcall; rfl

theorem tryCall_bind_ok {f : Unit → Except (FilesError VaultKey VaultKey) α}
    (h : (tryCall refused call >>= f) = .ok a) : f () = .ok a := by
  rw [tryCall] at h
  split at h
  next => cases h
  next => exact h

theorem tryCall_bind_error {f : Unit → Except (FilesError VaultKey VaultKey) α}
    (h : (tryCall refused call >>= f) = .error err) :
    (∃ msg, err = .io msg) ∨ f () = .error err := by
  rw [tryCall] at h
  split at h
  next msg _ =>
    cases h
    exact .inl ⟨msg, rfl⟩
  next => exact .inr h

theorem containerId_not_dirty
    (h : (folderApi refused).containerId k = .error err) : ∀ file, err ≠ .dirtyFile file := by
  simp only [folderApi] at h
  split at h
  next =>
    cases h
    rintro _ ⟨⟩
  next => cases h

theorem read_not_dirty {d : Folder}
    (h : (folderApi refused).read d k = .error err) : ∀ file, err ≠ .dirtyFile file := by
  rcases tryCall_bind_error h with ⟨msg, rfl⟩ | h
  · rintro _ ⟨⟩
  · cases h

theorem loadSidecar_not_dirty {d : Folder}
    (h : (folderApi refused).loadSidecar d k = .error err) : ∀ file, err ≠ .dirtyFile file := by
  rcases tryCall_bind_error h with ⟨msg, rfl⟩ | h
  · rintro _ ⟨⟩
  · split at h
    next => cases h
    next => cases h; rintro _ ⟨⟩
    next => cases h

theorem onDisk_error {f : Folder → Folder}
    (h : exec (FolderBridge.onDisk (changeFolder E.refusedFiles call f)) s = (.error err, s')) :
    ∀ file, err ≠ .dirtyFile file := by
  simp only [FolderBridge.onDisk, exec_ofFun, changeFolder, tryCall] at h
  cases hr : E.refusedFiles call with
  | none =>
    rw [hr] at h
    cases h
  | some msg =>
    rw [hr] at h
    cases h
    rintro _ ⟨⟩

theorem write_error (h : exec (E.bridge.write k bytes) s = (.error err, s')) :
    ∀ file, err ≠ .dirtyFile file := by
  have hw := exec_write (E := E) (j := k) bytes s
  rw [h] at hw
  cases hw with
  | refused msg => rintro _ ⟨⟩
  | failed msg => rintro _ ⟨⟩

theorem getBlob_exec {hash : String} (h : exec (E.bridge.getBlob hash) s = (r, s')) :
    s' = s ∧ ∀ found, r = .ok found → s.blobs[hash]? = found := by
  rw [FolderBridge.getBlob, exec_get_bind] at h
  split at h
  next =>
    rcases exec_bind_cases h with ⟨err, hcall, rfl⟩ | ⟨_, mid, hcall, h⟩
    · exact ⟨(afterCall_leaves (R := fun s s' => s' = s) _).of_exec hcall, nofun⟩
    · rw [afterCall_ok hcall] at h
      split at h
      next hnone =>
        cases h
        refine ⟨rfl, fun found hfound => ?_⟩
        cases hfound
        exact hnone
      next bytes hsome =>
        split at h
        next =>
          cases h
          refine ⟨rfl, fun found hfound => ?_⟩
          cases hfound
          exact hsome
        next =>
          cases h
          exact ⟨rfl, nofun⟩
  next =>
    cases h
    exact ⟨rfl, by rintro _ ⟨⟩⟩

theorem loadSidecar_ok {d : Folder} (h : (folderApi refused).loadSidecar d k = .ok sidecar) :
    d.sidecars[k]? = sidecar.map some := by
  have hread := tryCall_bind_ok h
  split at hread
  next hside => cases hread; exact hside
  next => cases hread
  next hside => cases hread; exact hside

theorem read_ok {d : Folder}
    (h : (folderApi refused).read d k = .ok bytes) : d.files[k]? = bytes := by
  have hread := tryCall_bind_ok h
  cases hread
  rfl

theorem expectedText_ok {old fileText remote : List Char}
    (h : exec (E.bridge.expectedText old fileText remote) s = (.ok result, s')) :
    s' = s ∧ (if remote = old then some fileText
      else (mergeLocalOntoRemote E.lib.diff old fileText remote).map Prod.fst) = some result.1 := by
  rw [FolderBridge.expectedText] at h
  split at h
  next heq =>
    cases h
    exact ⟨rfl, if_pos heq⟩
  next hne =>
    rw [if_neg hne]
    split at h
    next merged hm =>
      cases h
      exact ⟨rfl, congrArg (Option.map Prod.fst) hm⟩
    next => cases h

theorem parseEntry_bind_cases {r : Except _ α}
    {f : FileEntry VaultKey → BridgeM VaultKey VaultKey Folder V T α}
    (h : exec (E.bridge.parseEntry v >>= f) s = (r, s')) : (∃ err, r = .error err ∧ s' = s) ∨
      ∃ entry, E.lib.fromValue v = .ok entry ∧ exec (f entry) s = (r, s') := by
  rcases exec_ofResult_bind_cases h with ⟨err, -, hr, hs⟩ | ⟨entry, hparse, h⟩
  · exact .inl ⟨err, hr, hs⟩
  refine .inr ⟨entry, ?_, h⟩
  cases hread : E.lib.fromValue v with
  | error msg =>
    have hfail := (congrArg (Except.mapError _) hread).symm.trans hparse
    cases hfail
  | ok entry' =>
    have hsame := (congrArg (Except.mapError _) hread).symm.trans hparse
    cases hsame
    rfl

theorem parseEntry_bind_ok {f : FileEntry VaultKey → BridgeM VaultKey VaultKey Folder V T α}
    (h : exec (E.bridge.parseEntry v >>= f) s = (.ok a, s')) :
    ∃ entry, E.lib.fromValue v = .ok entry ∧ exec (f entry) s = (.ok a, s') := by
  rcases parseEntry_bind_cases h with ⟨err, hr, -⟩ | hrest
  · cases hr
  · exact hrest

structure Authored (s s' : FolderVault V T) (v : V) (w : Write V) : Prop where
  value : w.value = v
  peer : w.peer = s.doc.peer
  later : s.doc.clock < w.lamport
  counted : w.lamport ≤ s'.doc.clock

theorem Authored.widen {s s' t t' : FolderVault V T} {v : V} {w : Write V} (h : Authored s s' v w)
    (hpeer : s.doc.peer = t.doc.peer) (hstart : t.doc.clock ≤ s.doc.clock)
    (hend : s'.doc.clock ≤ t'.doc.clock) : Authored t t' v w :=
  ⟨h.value, h.peer.trans hpeer, hstart.trans_lt h.later, h.counted.trans hend⟩

end Calls

section Cells
variable {V T : Type} [TextCrdt T] {E : FolderEnv V T} {k : VaultKey} {s s' : FolderVault V T}

theorem setValue_cell (h : exec (E.bridge.setValue k v) s = (r, s')) :
    ∃ w, Authored s s' v w ∧ cell s' k = { cell s k with entry := some w } := by
  rw [setValue_exec h]
  refine ⟨⟨s.doc.clock + 1, s.doc.peer, v⟩, ⟨rfl, rfl, Nat.lt_succ_self _, Nat.le_refl _⟩, ?_⟩
  rw [cell_setEntry, if_pos rfl]

theorem storeSidecar_cell (h : exec (E.bridge.storeSidecar k sidecar) s = (.ok u, s')) :
    s'.doc = s.doc ∧ cell s' k = { cell s k with sidecar := some (some sidecar) } := by
  rw [onDisk_ok (E := E) h]
  exact ⟨rfl, (cell_storeSidecar s k k sidecar).trans (if_pos rfl)⟩

theorem removeSidecar_cell (h : exec (E.bridge.removeSidecar k) s = (.ok u, s')) :
    s'.doc = s.doc ∧ cell s' k = { cell s k with sidecar := none } := by
  rw [onDisk_ok (E := E) h]
  exact ⟨rfl, (cell_removeSidecar s k k).trans (if_pos rfl)⟩

theorem writeMarker_cell (h : exec (E.bridge.writeMarker k) s = (.ok u, s')) :
    s'.doc = s.doc ∧ cell s' k = { cell s k with marker := some () } := by
  rw [onDisk_ok (E := E) h]
  exact ⟨rfl, (cell_writeMarker s k k).trans (if_pos rfl)⟩

theorem removeMarker_cell (h : exec (E.bridge.removeMarker k) s = (.ok u, s')) :
    s'.doc = s.doc ∧ cell s' k = { cell s k with marker := none } := by
  rw [onDisk_ok (E := E) h]
  exact ⟨rfl, (cell_removeMarker s k k).trans (if_pos rfl)⟩

theorem removeFile_cell (h : exec (E.bridge.removeFile k) s = (.ok u, s')) :
    s'.doc = s.doc ∧ cell s' k = { cell s k with file := none } := by
  rw [onDisk_ok (E := E) h]
  exact ⟨rfl, (cell_removeFile s k k).trans (if_pos rfl)⟩

theorem write_cell (h : exec (E.bridge.write k bytes) s = (.ok u, s')) :
    s'.doc = s.doc ∧ cell s' k = { cell s k with file := some bytes } := by
  rw [write_ok h]
  exact ⟨rfl, (cell_write s k k bytes).trans (if_pos rfl)⟩

theorem applyOps_cell {ops : List TextOp} (h : exec (E.bridge.applyOps k ops) s = (.ok u, s')) :
    ∃ t, cell s' k = { cell s k with text := t } ∧ (cell s k).text ≤ t ∧
      applyOps (TextCrdt.text (cell s k).text) ops = some (TextCrdt.text t) := by
  induction ops generalizing s with
  | nil =>
    cases h
    exact ⟨_, rfl, le_refl _, rfl⟩
  | cons op ops ih =>
    obtain ⟨_, mid, hop, hrest⟩ := exec_bind_ok h
    obtain ⟨_, _, hget, hop⟩ := exec_bind_ok hop
    cases hget
    split at hop
    next hsome =>
      obtain ⟨new, hnew⟩ := Option.isSome_iff_exists.1 hsome
      obtain ⟨_, _, hmod, hcall⟩ := exec_bind_ok hop
      cases hmod
      obtain rfl := afterCall_ok hcall
      obtain ⟨t, hcell, hle, hops⟩ := ih hrest
      rw [cell_editText, if_pos rfl] at hcell hle hops
      refine ⟨t, hcell, (TextCrdt.le_edit _ _ _).trans hle, ?_⟩
      rw [TextCrdt.text_edit _ _ _ _ hnew] at hops
      rw [applyOps, List.foldlM_cons]
      exact (congrArg (· >>= _) hnew).trans hops
    next => cases hop

end Cells

section Import
variable {V T : Type}

namespace Cell

def value (c : Cell V T) : Option V := c.entry.map Write.value

def fileEntry (E : FolderEnv V T) (c : Cell V T) : Option (FileEntry VaultKey) :=
  c.value.bind fun v => (E.lib.fromValue v).toOption

theorem fileEntry_eq {E : FolderEnv V T} {c : Cell V T} {entry : FileEntry VaultKey}
    (hvalue : c.value = some v)
    (hread : E.lib.fromValue v = .ok entry) : c.fileEntry E = some entry := by
  rw [fileEntry, hvalue, Option.bind_some, hread]
  rfl

theorem fileEntry_authored {E : FolderEnv V T} (hlib : E.lib.Lawful) {c : Cell V T}
    {entry : FileEntry VaultKey}
    {w : Write V} (hentry : c.entry = some w) (hvalue : w.value = E.lib.toValue entry) :
    c.fileEntry E = some entry := by
  refine fileEntry_eq ?_ (hlib.fromValue_toValue entry)
  rw [value, hentry, Option.map_some, hvalue]

variable [TextCrdt T]

def storeText (c : Cell V T) : List Char := TextCrdt.text c.text

def baseline (c : Cell V T) : List Char := FolderBridge.baseline c.sidecar.join c.storeText

def expected (E : FolderEnv V T) (c : Cell V T) (fileText : List Char) : Option (List Char) :=
  if c.storeText = c.baseline then some fileText
  else (mergeLocalOntoRemote E.lib.diff c.baseline fileText c.storeText).map Prod.fst

def diskText (c : Cell V T) : Option (List Char) := c.file.bind decodeUtf8

def syncedText (c : Cell V T) : Option (List Char) := c.sidecar.join.map Sidecar.lastSyncedText

def InSync (c : Cell V T) : Prop :=
  c.diskText = some c.storeText ∧ c.syncedText = some c.storeText

/-- The text on disk is neither that of the store nor that of the last sync. -/
def Dirty (c : Cell V T) : Prop :=
  ∃ disk, c.diskText = some disk ∧ disk ≠ c.storeText ∧ c.syncedText ≠ some disk

/-- A projection of the text of the store writes the file. -/
def Stale (c : Cell V T) : Prop := ¬ c.InSync ∧ ¬ c.Dirty

def deletedHash (E : FolderEnv V T) (k : VaultKey) (c : Cell V T) : String :=
  match E.refusedFiles (.loadSidecar k), c.sidecar with
  | none, some (some sidecar) => sidecar.lastSyncedHash
  | _, _ => E.bridge.textHash c.storeText

def Skips (E : FolderEnv V T) (c : Cell V T) (fileText : List Char) : Prop :=
  ∃ new, c.expected E fileText = some new ∧ diffToOps E.lib.diff c.storeText new = []

/-- The entry says already what the import of these bytes would write, or the bytes are those that
were deleted. -/
def HasBlob (E : FolderEnv V T) (c : Cell V T) (bytes : Bytes) : Prop :=
  (∃ entry, c.fileEntry E = some entry ∧ entry.status = .tombstoned ∧ entry.kind = .blob ∧
    entry.contentHash = E.lib.hash bytes) ∨
  c.value = some (E.lib.toValue (FolderBridge.liveEntry .blob (E.lib.hash bytes)))

end Cell

variable [TextCrdt T]

inductive ImportCell (E : FolderEnv V T) (s s' : FolderVault V T) (c : Cell V T) : Cell V T → Prop
  | skipped (fileText : List Char) (bytes : Bytes) (file : c.file = some bytes)
      (decoded : decodeUtf8 bytes = some fileText) (skips : c.Skips E fileText) :
      ImportCell E s s' c c
  | text (fileText : List Char) (bytes : Bytes) (new : List Char) (w : Write V) (t : T)
      (file : c.file = some bytes) (decoded : decodeUtf8 bytes = some fileText)
      (expected : c.expected E fileText = some new)
      (ops : diffToOps E.lib.diff c.storeText new ≠ []) (text_eq : TextCrdt.text t = new)
      (grows : c.text ≤ t)
      (authored : Authored s s'
        (E.lib.toValue (FolderBridge.liveEntry .text (E.bridge.textHash fileText))) w) :
      ImportCell E s s' c
        { c with sidecar := some (some (E.bridge.synced fileText)), entry := some w, text := t }
  | blobKept (bytes : Bytes) (file : c.file = some bytes) (binary : decodeUtf8 bytes = none)
      (has : c.HasBlob E bytes) : ImportCell E s s' c { c with marker := some () }
  | blob (bytes : Bytes) (w : Write V) (file : c.file = some bytes)
      (binary : decodeUtf8 bytes = none) (has : ¬ c.HasBlob E bytes)
      (authored : Authored s s'
        (E.lib.toValue (FolderBridge.liveEntry .blob (E.lib.hash bytes))) w) :
      ImportCell E s s' c { c with marker := some (), entry := some w }

variable {E : FolderEnv V T} {k : VaultKey} {s s' : FolderVault V T}

theorem reconcileSidecar_ok
    (h : exec (E.bridge.reconcileSidecar k fileText expected actual n applied) s = (.ok out, s')) :
    applied = .ok () ∧ actual = expected ∧ s'.doc = s.doc ∧
      cell s' k = { cell s k with sidecar := some (some (E.bridge.synced fileText)) } := by
  cases applied with
  | error err =>
    obtain ⟨_, _, _, hthrow⟩ := exec_bind_ok h
    cases hthrow
  | ok u =>
    cases u
    rw [FolderBridge.reconcileSidecar] at h
    split at h
    next heq =>
      obtain ⟨_, _, hstore, hpure⟩ := exec_bind_ok h
      cases hpure
      exact ⟨rfl, heq, storeSidecar_cell hstore⟩
    next =>
      obtain ⟨_, _, _, hthrow⟩ := exec_bind_ok h
      cases hthrow

theorem importText_cell
    (hfile : (cell s k).file = some bytes) (hdecode : decodeUtf8 bytes = some fileText)
    (h : exec (E.bridge.importText k fileText) s = (.ok out, s')) :
    ImportCell E s s' (cell s k) (cell s' k) := by
  rw [FolderBridge.importText, exec_get_bind] at h
  obtain ⟨sidecar, hside, h⟩ := exec_ofResult_bind_ok h
  have hload := loadSidecar_ok hside
  obtain ⟨⟨new, conflicts⟩, s₁, hexpect, h⟩ := exec_bind_ok h
  obtain ⟨hs₁, hnew⟩ := expectedText_ok hexpect
  rw [hs₁] at h
  have hbase : FolderBridge.baseline sidecar (s.doc.text k) = (cell s k).baseline := by
    have hjoin : (cell s k).sidecar.join = sidecar := by
      rw [cell, hload]
      cases sidecar with
      | none => rfl
      | some _ => rfl
    rw [Cell.baseline, hjoin]
    rfl
  rw [hbase] at hnew
  have hexpected : (cell s k).expected E fileText = some new := hnew
  dsimp only at h
  split at h
  next hops =>
    cases h
    exact .skipped fileText bytes hfile hdecode ⟨new, hexpected, hops⟩
  next hops =>
    obtain ⟨applied, mid, happly, h⟩ := exec_bind_ok h
    rw [exec_attempt] at happly
    rw [exec_get_bind] at h
    obtain ⟨outcome, stored, hrec, h⟩ := exec_bind_ok h
    obtain ⟨_, _, hset, hpure⟩ := exec_bind_ok h
    cases hpure
    obtain ⟨happlied, hactual, hdoc, hcell⟩ := reconcileSidecar_ok hrec
    subst happlied
    have hrun : exec (E.bridge.applyOps k (diffToOps E.lib.diff (s.doc.text k) new)) s =
        (.ok (), mid) := by
      apply Prod.ext
      · exact Except.ok.inj (Prod.ext_iff.1 happly).1
      · exact (Prod.ext_iff.1 happly).2
    obtain ⟨t, htext, hle, hresult⟩ := applyOps_cell hrun
    obtain ⟨w, hw, hentry⟩ := setValue_cell hset
    have hframe := ((imports_local k).applyOps _).of_exec hrun
    rw [hentry, hcell, htext]
    refine .text fileText bytes new w t hfile hdecode hexpected hops ?_ hle ?_
    · rw [← hactual]
      exact (congrArg (fun c => TextCrdt.text c.text) htext).symm
    · exact hw.widen ((congrArg Replica.peer hdoc).trans hframe.peer)
        (hframe.clock.trans (congrArg Replica.clock hdoc).ge) (Nat.le_refl _)

theorem putBlob_ok {hash : String} (h : exec (E.bridge.putBlob bytes) s = (.ok hash, s')) :
    hash = E.lib.hash bytes ∧ s'.doc = s.doc ∧ cell s' k = cell s k := by
  rw [FolderBridge.putBlob, exec_get_bind] at h
  dsimp only at h
  split at h
  next =>
    cases h
    exact ⟨rfl, rfl, rfl⟩
  next =>
    obtain ⟨_, _, hcall, h⟩ := exec_bind_ok h
    rw [afterCall_ok hcall] at h
    cases h
    exact ⟨rfl, rfl, rfl⟩

variable [DecidableEq V]

theorem importBlob_cell (h : exec (E.bridge.importBlob k bytes) s = (.ok out, s')) :
    (cell s k).HasBlob E bytes ∧ cell s' k = cell s k ∨
      ¬ (cell s k).HasBlob E bytes ∧ ∃ w,
        Authored s s' (E.lib.toValue (FolderBridge.liveEntry .blob (E.lib.hash bytes))) w ∧
        cell s' k = { cell s k with entry := some w } := by
  rw [FolderBridge.importBlob, exec_get_bind] at h
  obtain ⟨hash, t, hput, h⟩ := exec_bind_ok h
  obtain ⟨rfl, hdoc, hcell⟩ := putBlob_ok (k := k) hput
  have hdeleted : ((E.bridge.entryOf s.doc k).any fun entry =>
      entry.status = .tombstoned ∧ entry.kind = .blob ∧
        entry.contentHash = E.lib.hash bytes) = true ↔
      ∃ entry, (cell s k).fileEntry E = some entry ∧ entry.status = .tombstoned ∧
        entry.kind = .blob ∧ entry.contentHash = E.lib.hash bytes := by
    rw [Option.any_eq_true]
    simp only [decide_eq_true_eq]
    exact Iff.rfl
  split at h
  next htomb =>
    cases h
    exact .inl ⟨.inl (hdeleted.1 htomb), hcell⟩
  next htomb =>
    dsimp only at h
    split at h
    next hsame =>
      cases h
      exact .inl ⟨.inr hsame, hcell⟩
    next hsame =>
      obtain ⟨_, mid, hset, h⟩ := exec_bind_ok h
      obtain ⟨_, _, hrelease, h⟩ := exec_bind_ok h
      cases h
      obtain ⟨w, hw, hwritten⟩ := setValue_cell hset
      -- the release is about blobs only, so any other key serves for its frame
      have hframe := ((imports_local k.temp).releasePrior _ _ _).of_exec hrelease
      refine .inr ⟨?_, w, ?_, ?_⟩
      · rintro (htomb' | hsame')
        · exact htomb (hdeleted.2 htomb')
        · exact hsame hsame'
      · exact hw.widen (congrArg Replica.peer hdoc) (congrArg Replica.clock hdoc).ge hframe.clock
      · rw [hframe.others k k.temp_ne.symm, hwritten, hcell]

theorem importFile_cell (h : exec (E.bridge.importFile k) s = (.ok out, s')) :
    k.path ≠ VaultKey.filesetMapId ∧ ImportCell E s s' (cell s k) (cell s' k) := by
  rw [FolderBridge.importFile, exec_get_bind] at h
  split at h
  next =>
    obtain ⟨container, hcontainer, h⟩ := exec_ofResult_bind_ok h
    obtain ⟨rfl, hname⟩ := containerId_folder hcontainer
    refine ⟨hname, ?_⟩
    split at h
    next => cases h
    next =>
      obtain ⟨read, hread, h⟩ := exec_ofResult_bind_ok h
      have hfile : (cell s container).file = read := read_ok hread
      split at h
      next => cases h
      next bytes =>
        split at h
        next fileText hdecode => exact importText_cell hfile hdecode h
        next hdecode =>
          obtain ⟨outcome, mid, himport, h⟩ := exec_bind_ok h
          obtain ⟨_, _, hmark, h⟩ := exec_bind_ok h
          cases h
          obtain ⟨hdoc, hmarked⟩ := writeMarker_cell hmark
          rcases importBlob_cell himport with ⟨has, hcell⟩ | ⟨has, w, hw, hcell⟩
          · rw [hmarked, hcell]
            exact .blobKept bytes hfile hdecode has
          · rw [hmarked, hcell]
            exact .blob bytes w hfile hdecode has
              (hw.widen rfl (Nat.le_refl _) (congrArg Replica.clock hdoc).ge)
  next => cases h

end Import

section Deletions
variable {V T : Type} [TextCrdt T]

inductive HealCell (E : FolderEnv V T) (s s' : FolderVault V T) (c : Cell V T) : Cell V T → Prop
  | kept (known : c.entry ≠ none ∨ c.sidecar = none) : HealCell E s s' c c
  | healed (w : Write V) (unknown : c.entry = none) (sidecar : c.sidecar ≠ none)
      (authored : Authored s s'
        (E.lib.toValue (FolderBridge.liveEntry .text (E.bridge.textHash c.storeText))) w) :
      HealCell E s s' c { c with entry := some w }

inductive DetectCell (E : FolderEnv V T) (k : VaultKey) (found : Prop) (s s' : FolderVault V T)
    (c : Cell V T) : Cell V T → Prop
  | kept (entry : FileEntry VaultKey) (read : c.fileEntry E = some entry)
      (kept : entry.status = .tombstoned ∨ found ∨ entry.kind = .blob ∧ c.marker = none ∨
        entry.kind = .text ∧ c.sidecar = none) : DetectCell E k found s s' c c
  | blob (entry : FileEntry VaultKey) (checkpoint : String) (w : Write V)
      (read : c.fileEntry E = some entry) (status : entry.status = .live) (missing : ¬ found)
      (kind : entry.kind = .blob) (marker : c.marker ≠ none)
      (authored : Authored s s'
        (E.lib.toValue ⟨.blob, .tombstoned, entry.contentHash, none, some checkpoint⟩) w) :
      DetectCell E k found s s' c { c with entry := some w, marker := none }
  | text (entry : FileEntry VaultKey) (checkpoint : String) (w : Write V)
      (read : c.fileEntry E = some entry) (status : entry.status = .live) (missing : ¬ found)
      (kind : entry.kind = .text) (sidecar : c.sidecar ≠ none)
      (authored : Authored s s'
        (E.lib.toValue ⟨.text, .tombstoned, c.deletedHash E k, none, some checkpoint⟩) w) :
      DetectCell E k found s s' c { c with entry := some w, sidecar := none }

variable {E : FolderEnv V T} {k : VaultKey} {s s' : FolderVault V T}

theorem sidecarExists_iff (s : FolderVault V T) :
    E.bridge.api.sidecarExists s.disk k = true ↔ (cell s k).sidecar ≠ none := by
  rw [← Option.isSome_iff_ne_none]
  exact iff_of_eq (congrArg (· = true) (Std.TreeMap.contains_eq_isSome_getElem?
    (t := s.disk.sidecars)))

theorem markerExists_iff (s : FolderVault V T) :
    E.bridge.api.markerExists s.disk k = true ↔ (cell s k).marker ≠ none := by
  rw [← Option.isSome_iff_ne_none]
  exact iff_of_eq (congrArg (· = true) (Std.TreeMap.contains_eq_isSome_getElem?
    (t := s.disk.markers)))

theorem healEntry_cell (h : exec (E.bridge.healEntry k) s = (.ok u, s')) :
    HealCell E s s' (cell s k) (cell s' k) := by
  rw [FolderBridge.healEntry, exec_get_bind] at h
  have hnone : (s.doc.getEntry k).isNone = true ↔ (cell s k).entry = none := by
    rw [Replica.getEntry, Option.isNone_map, Option.isNone_iff_eq_none]
    exact Iff.rfl
  split at h
  next hheal =>
    obtain ⟨w, hw, hcell⟩ := setValue_cell h
    rw [hcell]
    exact .healed w (hnone.1 hheal.1) (sidecarExists_iff s |>.1 hheal.2) hw
  next hheal =>
    cases h
    apply HealCell.kept
    rwa [sidecarExists_iff, hnone, not_and_or, not_not] at hheal

theorem writeTombstone_cell {hash : String}
    (h : exec (E.bridge.writeTombstone k kind hash) s = (.ok u, s')) :
    ∃ checkpoint w, Authored s s' (E.lib.toValue ⟨kind, .tombstoned, hash, none,
      some checkpoint⟩) w ∧ cell s' k = { cell s k with entry := some w } := by
  obtain ⟨_, mid, hset, h⟩ := exec_bind_ok h
  rw [exec_get_bind] at h
  obtain ⟨_, hw₁, hmid⟩ := setValue_cell hset
  obtain ⟨w, hw, hcell⟩ := setValue_cell h
  have hframe := (setValue_local _).of_exec hset
  refine ⟨_, w, hw.widen hframe.peer hframe.clock (Nat.le_refl _), ?_⟩
  rw [hcell, hmid]

theorem deletedHash_cell (s : FolderVault V T) :
    E.bridge.deletedHash s k = (cell s k).deletedHash E k := by
  rw [FolderBridge.deletedHash, Cell.deletedHash]
  simp only [FolderEnv.bridge, folderApi, tryCall, cell]
  cases E.refusedFiles (.loadSidecar k) with
  | some msg => rfl
  | none =>
    cases s.disk.sidecars[k]? with
    | none => rfl
    | some sidecar =>
      cases sidecar with
      | none => rfl
      | some sidecar => rfl

theorem detectDeletion_cell {present : List VaultKey} (hvalue : (cell s k).value = some v)
    (h : exec (E.bridge.detectDeletion present (k, v)) s = (.ok out, s')) :
    DetectCell E k (k ∈ present) s s' (cell s k) (cell s' k) := by
  obtain ⟨entry, hparse, h⟩ := parseEntry_bind_ok h
  have hread := Cell.fileEntry_eq hvalue hparse
  rw [exec_get_bind] at h
  split at h
  next hskip =>
    cases h
    refine .kept entry hread ?_
    rcases hskip with hstatus | hfound
    · cases hst : entry.status with
      | live => exact absurd hst hstatus
      | tombstoned => exact .inl rfl
    · exact .inr (.inl hfound)
  next hskip =>
    rw [not_or, not_not] at hskip
    split at h
    next hkind =>
      split at h
      next hmarker =>
        obtain ⟨_, mid, htomb, h⟩ := exec_bind_ok h
        obtain ⟨_, _, hremove, h⟩ := exec_bind_ok h
        cases h
        obtain ⟨checkpoint, w, hw, hmid⟩ := writeTombstone_cell htomb
        obtain ⟨hdoc, hcell⟩ := removeMarker_cell hremove
        rw [hcell, hmid]
        exact .blob entry checkpoint w hread hskip.1 hskip.2 hkind ((markerExists_iff s).1 hmarker)
          (hw.widen rfl (Nat.le_refl _) (congrArg Replica.clock hdoc).ge)
      next hmarker =>
        cases h
        rw [markerExists_iff, not_not] at hmarker
        exact .kept entry hread (.inr (.inr (.inl ⟨hkind, hmarker⟩)))
    next hkind =>
      split at h
      next hsidecar =>
        obtain ⟨_, mid, htomb, h⟩ := exec_bind_ok h
        obtain ⟨_, _, hremove, h⟩ := exec_bind_ok h
        cases h
        obtain ⟨checkpoint, w, hw, hmid⟩ := writeTombstone_cell htomb
        obtain ⟨hdoc, hcell⟩ := removeSidecar_cell hremove
        rw [hcell, hmid]
        rw [deletedHash_cell] at hw
        exact .text entry checkpoint w hread hskip.1 hskip.2 hkind ((sidecarExists_iff s).1
          hsidecar)
          (hw.widen rfl (Nat.le_refl _) (congrArg Replica.clock hdoc).ge)
      next hsidecar =>
        cases h
        rw [sidecarExists_iff, not_not] at hsidecar
        exact .kept entry hread (.inr (.inr (.inr ⟨hkind, hsidecar⟩)))

end Deletions

section Apply
variable {V T : Type} [TextCrdt T]

inductive ProjectCell (E : FolderEnv V T) (c : Cell V T) : Cell V T → Prop
  | same (inSync : c.InSync) : ProjectCell E c c
  | written (stale : ¬ c.InSync) (clean : ¬ c.Dirty) : ProjectCell E c
      { c with
        file := some (encodeUtf8 c.storeText)
        sidecar := some (some (E.bridge.synced c.storeText)) }

inductive ApplyCell (E : FolderEnv V T) (found : Prop) (s s' : FolderVault V T) (c : Cell V T) :
    Cell V T → Prop
  | blobKept (entry : FileEntry VaultKey) (read : c.fileEntry E = some entry)
      (status : entry.status = .live) (kind : entry.kind = .blob)
      (nothing : s.blobs[entry.contentHash]? = none ∨ c.file ≠ none) : ApplyCell E found s s' c c
  | blob (entry : FileEntry VaultKey) (bytes : Bytes) (read : c.fileEntry E = some entry)
      (status : entry.status = .live) (kind : entry.kind = .blob)
      (stored : s.blobs[entry.contentHash]? = some bytes) (absent : c.file = none) :
      ApplyCell E found s s' c { c with file := some bytes, marker := some () }
  | text (entry : FileEntry VaultKey) (c' : Cell V T) (read : c.fileEntry E = some entry)
      (status : entry.status = .live) (kind : entry.kind = .text)
      (wanted : found ∨ c.sidecar = none) (project : ProjectCell E c c') :
      ApplyCell E found s s' c c'
  | dirty (entry : FileEntry VaultKey) (read : c.fileEntry E = some entry)
      (status : entry.status = .live) (kind : entry.kind = .text) (isFound : found)
      (dirty : c.Dirty) : ApplyCell E found s s' c c
  | textMissing (entry : FileEntry VaultKey) (read : c.fileEntry E = some entry)
      (status : entry.status = .live) (kind : entry.kind = .text) (missing : ¬ found)
      (sidecar : c.sidecar ≠ none) : ApplyCell E found s s' c c
  | blobDeleted (entry : FileEntry VaultKey) (read : c.fileEntry E = some entry)
      (status : entry.status = .tombstoned) (kind : entry.kind = .blob) (isFound : found) :
      ApplyCell E found s s' c { c with file := none, marker := none, sidecar := none }
  | blobGone (entry : FileEntry VaultKey) (read : c.fileEntry E = some entry)
      (status : entry.status = .tombstoned) (kind : entry.kind = .blob) (missing : ¬ found) :
      ApplyCell E found s s' c { c with marker := none, sidecar := none }
  | textDeleted (entry : FileEntry VaultKey) (read : c.fileEntry E = some entry)
      (status : entry.status = .tombstoned) (kind : entry.kind = .text) (isFound : found)
      (hash : E.bridge.textHash c.storeText = entry.contentHash) :
      ApplyCell E found s s' c { c with file := none, sidecar := none }
  | textGone (entry : FileEntry VaultKey) (read : c.fileEntry E = some entry)
      (status : entry.status = .tombstoned) (kind : entry.kind = .text) (missing : ¬ found) :
      ApplyCell E found s s' c { c with sidecar := none }
  | revived (entry : FileEntry VaultKey) (w : Write V) (c' : Cell V T)
      (read : c.fileEntry E = some entry) (status : entry.status = .tombstoned)
      (kind : entry.kind = .text) (isFound : found)
      (hash : E.bridge.textHash c.storeText ≠ entry.contentHash)
      (authored : Authored s s'
        (E.lib.toValue (FolderBridge.liveEntry .text (E.bridge.textHash c.storeText))) w)
      (project : c.Dirty ∧ c' = { c with entry := some w } ∨
        ProjectCell E { c with entry := some w } c') : ApplyCell E found s s' c c'

variable {E : FolderEnv V T} {k : VaultKey} {s s' : FolderVault V T}

theorem diskText_of_read {s : FolderVault V T} {read : Option Bytes}
    (h : E.bridge.api.read s.disk k = .ok read) : read.bind decodeUtf8 = (cell s k).diskText := by
  rw [← read_ok h]
  rfl

theorem syncedText_of_load {s : FolderVault V T} {sidecar : Option Sidecar}
    (h : E.bridge.api.loadSidecar s.disk k = .ok sidecar) :
    sidecar.map Sidecar.lastSyncedText = (cell s k).syncedText ∧
      (cell s k).sidecar = sidecar.map some := by
  have hside : (cell s k).sidecar = sidecar.map some := loadSidecar_ok h
  refine ⟨?_, hside⟩
  rw [Cell.syncedText, hside]
  cases sidecar with
  | none => rfl
  | some sidecar => rfl

theorem dirty_iff {c : Cell V T} {sidecar : Option Sidecar}
    (h : sidecar.map Sidecar.lastSyncedText = c.syncedText) : (c.diskText.any fun disk =>
      disk ≠ c.storeText && FolderBridge.editedSinceSync disk sidecar) = true ↔ c.Dirty := by
  have hedited (disk : List Char) :
      FolderBridge.editedSinceSync disk sidecar = true ↔ c.syncedText ≠ some disk := by
    rw [← h]
    cases sidecar with
    | none => exact iff_of_true rfl (Option.some_ne_none disk).symm
    | some sidecar =>
      rw [FolderBridge.editedSinceSync, decide_eq_true_eq, Option.map_some, ne_eq, ne_eq,
        Option.some_inj]
      exact not_congr eq_comm
  rw [Option.any_eq_true, Cell.Dirty]
  apply exists_congr
  intro disk
  rw [Bool.and_eq_true, hedited, decide_eq_true_eq]

/-- How a projection ends: it did what it is for, it found a file with edits of its own, or it
failed. -/
inductive Projected (E : FolderEnv V T) (k : VaultKey) (s s' : FolderVault V T) :
    Except (FilesError VaultKey VaultKey) SyncOutcome → Prop
  | done (outcome : SyncOutcome) (project : ProjectCell E (cell s k) (cell s' k)) :
      Projected E k s s' (.ok outcome)
  | dirty (dirty : (cell s k).Dirty) (same : cell s' k = cell s k) :
      Projected E k s s' (.error (.dirtyFile k))
  | failed (err : FilesError VaultKey VaultKey) (notDirty : ∀ file, err ≠ .dirtyFile file) :
      Projected E k s s' (.error err)

theorem exec_projectFile (h : exec (E.bridge.projectFile k) s = (r, s')) :
    Projected E k s s' r ∧ (¬ (cell s k).Stale → s' = s) := by
  rw [FolderBridge.projectFile, FolderBridge.projectFileInner] at h
  rcases exec_ofResult_bind_cases h with ⟨err, hc, rfl, rfl⟩ | ⟨container, hc, h⟩
  · exact ⟨.failed err (containerId_not_dirty hc), fun _ => rfl⟩
  obtain rfl := (containerId_folder hc).1
  rw [exec_get_bind] at h
  rcases exec_ofResult_bind_cases h with ⟨err, hread, rfl, rfl⟩ | ⟨read, hread, h⟩
  · exact ⟨.failed err (read_not_dirty hread), fun _ => rfl⟩
  rcases exec_ofResult_bind_cases h with ⟨err, hload, rfl, rfl⟩ | ⟨sidecar, hload, h⟩
  · exact ⟨.failed err (loadSidecar_not_dirty hload), fun _ => rfl⟩
  rw [diskText_of_read hread] at h
  have hside := (syncedText_of_load hload).1
  split at h
  next hsame =>
    cases h
    rw [hside] at hsame
    exact ⟨.done _ (.same hsame), fun _ => rfl⟩
  next hstale =>
    rw [hside] at hstale
    split at h
    next hdirty =>
      cases h
      exact ⟨.dirty ((dirty_iff hside).1 hdirty) rfl, fun _ => rfl⟩
    next hdirty =>
      have hclean : ¬ (cell s container).Dirty := fun hd => hdirty ((dirty_iff hside).2 hd)
      refine ⟨?_, fun hcalm => absurd ⟨hstale, hclean⟩ hcalm⟩
      have hinside : E.bridge.api.withinVault s.disk container = true := rfl
      rw [if_pos hinside] at h
      rcases exec_bind_cases h with ⟨err, hwrite, rfl⟩ | ⟨_, mid, hwrite, h⟩
      · exact .failed err (write_error hwrite)
      obtain ⟨-, hmid⟩ := write_cell hwrite
      rcases exec_bind_cases h with ⟨err, hstore, rfl⟩ | ⟨_, stored, hstore, h⟩
      · exact .failed err (onDisk_error (E := E) hstore)
      cases h
      obtain ⟨-, hcell⟩ := storeSidecar_cell hstore
      rw [hmid] at hcell
      apply Projected.done
      rw [hcell]
      exact .written hstale hclean

theorem exec_projectBlob {hash : String} (h : exec (E.bridge.projectBlob k hash) s = (r, s')) :
    s' = s ∧ (∀ out, r = .ok out → s.blobs[hash]? = none ∨ (cell s k).file ≠ none) ∨
      (cell s k).file = none ∧ ∃ bytes, s.blobs[hash]? = some bytes ∧
        ∀ out, r = .ok out →
          cell s' k = { cell s k with file := some bytes, marker := some () } := by
  have hinside : E.bridge.api.withinVault s.disk k = true := rfl
  rw [FolderBridge.projectBlob, exec_get_bind, if_pos hinside] at h
  rcases exec_bind_cases h with ⟨err, hget, rfl⟩ | ⟨found, mid, hget, h⟩
  · rw [(getBlob_exec hget).1]
    exact .inl ⟨rfl, nofun⟩
  obtain ⟨rfl, hblob⟩ := getBlob_exec hget
  have hstored := hblob found rfl
  split at h
  next =>
    cases h
    exact .inl ⟨rfl, fun _ _ => .inl hstored⟩
  next bytes =>
    have hexists : E.bridge.api.pathExists mid.disk k = true ↔ (cell mid k).file ≠ none := by
      rw [← Option.isSome_iff_ne_none]
      exact iff_of_eq (congrArg (· = true) (Std.TreeMap.contains_eq_isSome_getElem?
        (t := mid.disk.files)))
    split at h
    next hfile =>
      cases h
      exact .inl ⟨rfl, fun _ _ => .inr (hexists.1 hfile)⟩
    next hfile =>
      rw [hexists, not_not] at hfile
      refine .inr ⟨hfile, bytes, hstored, ?_⟩
      rintro out rfl
      obtain ⟨_, written, hwrite, h⟩ := exec_bind_ok h
      obtain ⟨container, hc, h⟩ := exec_ofResult_bind_ok h
      rw [(containerId_folder hc).1] at h
      obtain ⟨_, _, hmark, h⟩ := exec_bind_ok h
      cases h
      rw [(writeMarker_cell hmark).2, (write_cell hwrite).2]

theorem projectUnlessDirty_cases (h : exec (E.bridge.projectUnlessDirty k) s = (r, s')) :
    (∃ out, r = .ok out ∧ ((cell s k).Dirty ∧ cell s' k = cell s k ∨
      ProjectCell E (cell s k) (cell s' k))) ∨ ∃ err, r = .error err := by
  rw [FolderBridge.projectUnlessDirty, exec_attempt_bind] at h
  cases hexec : exec (E.bridge.projectFile k) s with
  | mk q mid =>
    rw [hexec] at h
    cases (exec_projectFile hexec).1 with
    | done outcome project =>
      cases h
      exact .inl ⟨_, rfl, .inr project⟩
    | dirty dirty same =>
      cases h
      exact .inl ⟨_, rfl, .inl ⟨dirty, same⟩⟩
    | failed err notDirty =>
      cases err with
      | dirtyFile file => exact absurd rfl (notDirty file)
      | _ =>
        cases h
        exact .inr ⟨_, rfl⟩

theorem projectUnlessDirty_calm (hcalm : ¬ (cell s k).Stale)
    (h : exec (E.bridge.projectUnlessDirty k) s = (r, s')) : s' = s := by
  rw [FolderBridge.projectUnlessDirty, exec_attempt_bind] at h
  cases hexec : exec (E.bridge.projectFile k) s with
  | mk q mid =>
    rw [hexec] at h
    rw [← (exec_projectFile hexec).2 hcalm]
    dsimp only at h
    split at h
    next => cases h; rfl
    next => cases h; rfl
    next => cases h; rfl

theorem applyLive_cell {present : List VaultKey} {entry : FileEntry VaultKey}
    (hread : (cell s k).fileEntry E = some entry) (hstatus : entry.status = .live)
    (h : exec (E.bridge.applyLive present k entry) s = (.ok out, s')) :
    ApplyCell E (k ∈ present) s s' (cell s k) (cell s' k) := by
  rw [FolderBridge.applyLive, exec_get_bind] at h
  dsimp only at h
  rw [keyToPath_folder] at h
  split at h
  next hkind =>
    obtain ⟨outcome, mid, hproject, h⟩ := exec_bind_ok h
    cases h
    rcases exec_projectBlob hproject with ⟨hsame, hnothing⟩ | ⟨hfile, bytes, hstored, hwritten⟩
    · rw [hsame]
      exact .blobKept entry hread hstatus hkind (hnothing _ rfl)
    · rw [hwritten _ rfl]
      exact .blob entry bytes hread hstatus hkind hstored hfile
  next hkind =>
    split at h
    next hfound =>
      obtain ⟨outcome, mid, hproject, h⟩ := exec_bind_ok h
      have hsame : s' = mid := by
        split at h
        next => cases h; rfl
        next => cases h; rfl
      subst hsame
      rcases projectUnlessDirty_cases hproject with ⟨_, -, hdone⟩ | ⟨_, herr⟩
      · rcases hdone with ⟨hdirty, hsame⟩ | hdone
        · rw [hsame]
          exact .dirty entry hread hstatus hkind hfound hdirty
        · exact .text entry _ hread hstatus hkind (.inl hfound) hdone
      · cases herr
    next hmissing =>
      split at h
      next hsidecar =>
        cases h
        exact .textMissing entry hread hstatus hkind hmissing ((sidecarExists_iff s).1 hsidecar)
      next hsidecar =>
        rw [sidecarExists_iff, not_not] at hsidecar
        obtain ⟨outcome, mid, hproject, h⟩ := exec_bind_ok h
        cases h
        cases (exec_projectFile hproject).1 with
        | done _ project => exact .text entry _ hread hstatus hkind (.inr hsidecar) project

theorem applyTombstone_cell {present : List VaultKey}
    {entry : FileEntry VaultKey} (hread : (cell s k).fileEntry E = some entry)
    (hstatus : entry.status = .tombstoned)
    (h : exec (E.bridge.applyTombstone present k entry) s = (.ok out, s')) :
    ApplyCell E (k ∈ present) s s' (cell s k) (cell s' k) := by
  rw [FolderBridge.applyTombstone, exec_get_bind] at h
  dsimp only at h
  rw [keyToPath_folder] at h
  split at h
  next hkind =>
    split at h
    next hfound =>
      obtain ⟨_, s₁, hfile, h⟩ := exec_bind_ok h
      obtain ⟨_, s₂, hmarker, h⟩ := exec_bind_ok h
      obtain ⟨_, s₃, hsidecar, h⟩ := exec_bind_ok h
      cases h
      rw [(removeSidecar_cell hsidecar).2, (removeMarker_cell hmarker).2, (removeFile_cell hfile).2]
      exact .blobDeleted entry hread hstatus hkind hfound
    next hmissing =>
      obtain ⟨_, s₂, hmarker, h⟩ := exec_bind_ok h
      obtain ⟨_, s₃, hsidecar, h⟩ := exec_bind_ok h
      cases h
      rw [(removeSidecar_cell hsidecar).2, (removeMarker_cell hmarker).2]
      exact .blobGone entry hread hstatus hkind hmissing
  next hkind =>
    split at h
    next hfound =>
      split at h
      next hhash =>
        obtain ⟨_, s₁, hfile, h⟩ := exec_bind_ok h
        obtain ⟨_, s₂, hsidecar, h⟩ := exec_bind_ok h
        cases h
        rw [(removeSidecar_cell hsidecar).2, (removeFile_cell hfile).2]
        exact .textDeleted entry hread hstatus hkind hfound hhash
      next hhash =>
        obtain ⟨_, s₁, hset, h⟩ := exec_bind_ok h
        obtain ⟨outcome, mid, hproject, h⟩ := exec_bind_ok h
        cases h
        obtain ⟨w, hw, hcell⟩ := setValue_cell hset
        have hframe := (applies_applied k).projects.projectUnlessDirty.of_exec hproject
        refine .revived entry w _ hread hstatus hkind hfound hhash
          (hw.widen rfl (Nat.le_refl _) hframe.clock) ?_
        rcases projectUnlessDirty_cases hproject with ⟨_, -, hdone⟩ | ⟨_, herr⟩
        · rw [hcell] at hdone
          exact hdone
        · cases herr
    next hmissing =>
      obtain ⟨_, s₁, hsidecar, h⟩ := exec_bind_ok h
      cases h
      rw [(removeSidecar_cell hsidecar).2]
      exact .textGone entry hread hstatus hkind hmissing

theorem applyRemote_cell {present : List VaultKey} (hvalue : (cell s k).value = some v)
    (h : exec (E.bridge.applyRemote present (k, v)) s = (.ok out, s')) :
    ApplyCell E (k ∈ present) s s' (cell s k) (cell s' k) := by
  obtain ⟨entry, hparse, h⟩ := parseEntry_bind_ok h
  have hread := Cell.fileEntry_eq hvalue hparse
  have hinside : E.bridge.api.withinVault s.disk (E.bridge.api.keyToPath k) = true := rfl
  rw [exec_get_bind, if_pos hinside] at h
  split at h
  next hstatus => exact applyLive_cell hread hstatus h
  next hstatus => exact applyTombstone_cell hread hstatus h

end Apply

end Roam.Bridge
