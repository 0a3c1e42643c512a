import Roam.FolderConvergence

namespace Roam.Bridge
set_option autoImplicit true
open Library Library.Fallible Rebase

section Exposed
variable {V T : Type} {entry : FileEntry VaultKey}

theorem Cell.fileEntry_ne {E : FolderEnv V T} {c : Cell V T}
    (h : c.fileEntry E = some entry) : c.entry ≠ none := by
  intro hnone
  rw [Cell.fileEntry, Cell.value, hnone] at h
  cases h

theorem Cell.HasBlob.entry_ne {E : FolderEnv V T} {c : Cell V T} (h : c.HasBlob E bytes) :
    c.entry ≠ none := by
  rcases h with ⟨entry, hread, -⟩ | hvalue
  · exact Cell.fileEntry_ne hread
  · intro hnone
    rw [Cell.value, hnone] at hvalue
    cases hvalue

variable [TextCrdt T]

def Cell.Backs (c : Cell V T) (bytes : Bytes) : Prop :=
  bytes = encodeUtf8 c.storeText ∨ ∃ text, c.syncedText = some text ∧ bytes = encodeUtf8 text

/-- Step 1 leaves the cell of these bytes as it is: the file is not imported, or it is a text that
the store has nothing to take from. -/
def Untouched (E : FolderEnv V T) (hint : Option (List VaultKey)) (s : FolderVault V T)
    (k : VaultKey)
    (bytes : Bytes) : Prop :=
  ¬ Imported hint s k ∨ ∃ fileText, decodeUtf8 bytes = some fileText ∧ (cell s k).Skips E fileText

/-- The scan replaces or removes the file of the key without a look at its bytes. -/
inductive Exposed (E : FolderEnv V T) (hint : Option (List VaultKey)) (s : FolderVault V T)
    (k : VaultKey) (bytes : Bytes) : Prop
  | overwritten (binary : decodeUtf8 bytes = none) (skipped : ¬ Imported hint s k)
      (live : (cell s k).LiveText E ∧ (Found s k ∨ (cell s k).sidecar = none) ∨
        Found s k ∧ (cell s k).KeepsText E ∧ ((cell s k).entry = none → (cell s k).sidecar ≠ none))
  | blobRemoved (entry : FileEntry VaultKey) (found : Found s k)
      (read : (cell s k).fileEntry E = some entry) (status : entry.status = .tombstoned)
      (kind : entry.kind = .blob)
      (untouched : Untouched E hint s k bytes ∨
        decodeUtf8 bytes = none ∧ entry.contentHash = E.lib.hash bytes)
  | textRemoved (entry : FileEntry VaultKey) (found : Found s k)
      (read : (cell s k).fileEntry E = some entry) (status : entry.status = .tombstoned)
      (kind : entry.kind = .text)
      (hash : E.bridge.textHash (cell s k).storeText = entry.contentHash)
      (untouched : Untouched E hint s k bytes)

def Cell.Replaced (E : FolderEnv V T) (found : Prop) (c : Cell V T) : Prop :=
  ∃ entry, c.fileEntry E = some entry ∧
    (entry.status = .live ∧ entry.kind = .text ∧ (found ∨ c.sidecar = none) ∧ ¬ c.Dirty ∨
      found ∧ entry.status = .tombstoned ∧
        (entry.kind = .text ∧ E.bridge.textHash c.storeText ≠ entry.contentHash → ¬ c.Dirty))

variable {E : FolderEnv V T} {k : VaultKey} {s s' : FolderVault V T} {imported healed : Cell V T}
  {present : List VaultKey}

def SameFile (k : VaultKey) (s s' : FolderVault V T) : Prop := (cell s' k).file = (cell s k).file

instance (k : VaultKey) : IsPreorder (FolderVault V T) (SameFile k) where
  refl _ := rfl
  trans _ _ _ h h' := h'.trans h

theorem applyRemote_file (hvalue : (cell s k).value = some v) (hfile : (cell s k).file ≠ none)
    (h : exec (E.bridge.applyRemote present (k, v)) s = (r, s')) :
    (cell s' k).file = (cell s k).file ∨ (cell s k).Replaced E (k ∈ present) := by
  by_cases hreplaced : (cell s k).Replaced E (k ∈ present)
  · exact .inr hreplaced
  left
  have hcalm : ¬ (cell s k).Writes E (k ∈ present) s.blobs := by
    rintro ⟨entry, hread, ⟨-, -, hnone, -⟩ | ⟨hstatus, hkind, hwanted, hstale⟩ |
      ⟨hstatus, -, hfound, -, hstale⟩⟩
    · exact hfile hnone
    · exact hreplaced ⟨entry, hread, .inl ⟨hstatus, hkind, hwanted, hstale.2⟩⟩
    · exact hreplaced ⟨entry, hread, .inr ⟨hfound, hstatus, fun _ => hstale.2⟩⟩
  have hremoves : ¬ (cell s k).Removes E (k ∈ present) := by
    rintro ⟨entry, hread, hstatus, hfound, hhash⟩
    refine hreplaced ⟨entry, hread, .inr ⟨hfound, hstatus, fun ht => ?_⟩⟩
    rcases hhash with hkind | hhash
    · cases hkind.symm.trans ht.1
    · exact absurd hhash ht.2
  have hrecords : RecordsLeave E.bridge (SameFile k) k := by
    apply (imports_local k).toRecordsLeave.mono
    intro s s' h
    rw [SameFile, cell, h.files]
    rfl
  exact applyRemote_calm hrecords hcalm (fun h => absurd h hremoves) hvalue h

/-- What the steps before Step 3 leave of the cell of a file that they found and whose bytes are
not a synced text afterwards. -/
inductive FlushedFile (E : FolderEnv V T) (hint : Option (List VaultKey)) (s t : FolderVault V T)
    (k : VaultKey) (bytes : Bytes) : Prop
  | untouched (untouched : Untouched E hint s k bytes)
      (known : (cell s k).entry ≠ none ∨ (cell s k).sidecar = none) (same : cell t k = cell s k)
  | healed (untouched : Untouched E hint s k bytes) (w : Write V) (unknown : (cell s k).entry =
      none)
      (sidecar : (cell s k).sidecar ≠ none)
      (value : w.value =
        E.lib.toValue (FolderBridge.liveEntry .text (E.bridge.textHash (cell s k).storeText)))
      (eq : cell t k = { cell s k with entry := some w })
  | kept (imported : Imported hint s k) (binary : decodeUtf8 bytes = none)
      (has : (cell s k).HasBlob E bytes) (eq : cell t k = { cell s k with marker := some () })
  | blob (imported : Imported hint s k) (binary : decodeUtf8 bytes = none) (w : Write V)
      (has : ¬ (cell s k).HasBlob E bytes)
      (value : w.value = E.lib.toValue (FolderBridge.liveEntry .blob (E.lib.hash bytes)))
      (eq : cell t k = { cell s k with marker := some (), entry := some w })

theorem FlushCell.flushedFile {s t : FolderVault V T}
    (h : FlushCell E hint k s t imported healed) (hfound : Found s k)
    (hfile : (cell s k).file = some bytes) (hbacks : ¬ (cell t k).Backs bytes) :
    FlushedFile E hint s t k bytes := by
  have ht := (h.found hfound).1
  have hheal := h.step1b hfound
  have huntouched (hu : Untouched E hint s k bytes) (hsame : imported = cell s k) :
      FlushedFile E hint s t k bytes := by
    rw [hsame] at hheal
    rw [← ht] at hheal
    generalize hc : cell t k = c at hheal
    cases hheal with
    | kept known => exact .untouched hu known hc
    | healed w unknown sidecar authored => exact .healed hu w unknown sidecar authored.value hc
  by_cases himported : Imported hint s k
  · have himport := h.step1 himported
    generalize hc : cell s k = c at himport hfile
    cases himport with
    | skipped fileText bytes' file decoded skips =>
      cases hfile.symm.trans file
      exact huntouched (.inr ⟨fileText, decoded, by rw [hc]; exact skips⟩) hc.symm
    | text fileText bytes' new w u file decoded expected ops text_eq grows authored =>
      cases hfile.symm.trans file
      refine absurd (.inr ⟨fileText, ?_, decodeUtf8_iff.1 decoded⟩) hbacks
      rw [ht]
      cases hheal with
      | kept known => rfl
      | healed w unknown sidecar authored => rfl
    | blobKept bytes' file binary has =>
      cases hfile.symm.trans file
      subst hc
      refine .kept himported binary has ?_
      rw [ht]
      generalize healed = c at hheal
      cases hheal with
      | kept known => rfl
      | healed w unknown sidecar authored => exact absurd unknown has.entry_ne
    | blob bytes' w file binary has authored =>
      cases hfile.symm.trans file
      subst hc
      refine .blob himported binary w has authored.value ?_
      rw [ht]
      generalize healed = c at hheal
      cases hheal with
      | kept known => rfl
      | healed w unknown sidecar authored => cases unknown
  · exact huntouched (.inl himported) (h.not_imported himported)

theorem Cell.binary_of_not_dirty {c : Cell V T} (hfile : c.file = some bytes)
    (hbacks : ¬ c.Backs bytes) (hclean : ¬ c.Dirty) : decodeUtf8 bytes = none := by
  by_contra htext
  obtain ⟨disk, hdisk⟩ := Option.ne_none_iff_exists'.1 htext
  apply hclean
  refine ⟨disk, ?_, ?_, ?_⟩
  · rw [Cell.diskText, hfile]
    exact hdisk
  · rintro rfl
    exact hbacks (.inl (decodeUtf8_iff.1 hdisk))
  · intro hsynced
    exact hbacks (.inr ⟨disk, hsynced, decodeUtf8_iff.1 hdisk⟩)

theorem Untouched.not_imported {s : FolderVault V T} (h : Untouched E hint s k bytes)
    (hbinary : decodeUtf8 bytes = none) : ¬ Imported hint s k := by
  rcases h with h | ⟨fileText, htext, -⟩
  · exact h
  · cases hbinary.symm.trans htext

theorem FlushCell.exposed (hlib : E.lib.Lawful) {s t : FolderVault V T}
    (h : FlushCell E hint k s t imported healed) (hflush : Flushing s t)
    (hfile : (cell s k).file = some bytes) (hbacks : ¬ (cell t k).Backs bytes)
    (hreplaced : (cell t k).Replaced E (Found s k)) : Exposed E hint s k bytes := by
  have hfile' : (cell t k).file = some bytes := by
    rw [cell, hflush.files]
    exact hfile
  have hbinary := Cell.binary_of_not_dirty hfile' hbacks
  obtain ⟨entry, hread, hcase⟩ := hreplaced
  by_cases hfound : Found s k
  · cases h.flushedFile hfound hfile hbacks with
    | untouched untouched known same =>
      rw [same] at hread hcase hbinary
      rcases hcase with ⟨hstatus, hkind, -, hclean⟩ | ⟨-, hstatus, hclean⟩
      · exact .overwritten (hbinary hclean) (untouched.not_imported (hbinary hclean))
          (.inl ⟨⟨entry, hread, hstatus, hkind⟩, .inl hfound⟩)
      · cases hkind : entry.kind with
        | blob => exact .blobRemoved entry hfound hread hstatus hkind (.inl untouched)
        | text =>
          by_cases hhash : E.bridge.textHash (cell s k).storeText = entry.contentHash
          · exact .textRemoved entry hfound hread hstatus hkind hhash untouched
          · have hbin := hbinary (hclean ⟨hkind, hhash⟩)
            refine .overwritten hbin (untouched.not_imported hbin) (.inr ⟨hfound, ?_, ?_⟩)
            · exact .inr (.inr ⟨entry, hread, hstatus, hkind, hhash⟩)
            · intro hnone
              exact absurd hnone (Cell.fileEntry_ne hread)
    | healed untouched w unknown sidecar value eq =>
      rw [eq] at hread hcase hbinary
      cases (Cell.fileEntry_authored hlib rfl value).symm.trans hread
      rcases hcase with ⟨-, -, -, hclean⟩ | ⟨-, hstatus, -⟩
      · exact .overwritten (hbinary hclean) (untouched.not_imported (hbinary hclean))
          (.inr ⟨hfound, .inl unknown, fun _ => sidecar⟩)
      · cases hstatus
    | kept _ binary has eq =>
      rw [eq] at hread hcase
      have hread' : (cell s k).fileEntry E = some entry := hread
      rcases has with ⟨entry', hentry', hstatus, hkind, hhash⟩ | hvalue
      · cases hentry'.symm.trans hread'
        exact .blobRemoved entry hfound hread' hstatus hkind (.inr ⟨binary, hhash⟩)
      · cases (Cell.fileEntry_eq hvalue (hlib.fromValue_toValue _)).symm.trans hread'
        rcases hcase with ⟨-, hkind, -⟩ | ⟨-, hstatus, -⟩
        · cases hkind
        · cases hstatus
    | blob _ binary w has value eq =>
      rw [eq] at hread hcase
      cases (Cell.fileEntry_authored hlib rfl value).symm.trans hread
      rcases hcase with ⟨-, hkind, -⟩ | ⟨-, hstatus, -⟩
      · cases hkind
      · cases hstatus
  · rcases hcase with ⟨hstatus, hkind, hwanted, hclean⟩ | ⟨hfound', -⟩
    · have hsidecar := hwanted.resolve_left hfound
      obtain ⟨-, -, hsame⟩ := h.missing hlib hfound hread hstatus
      rw [hsame] at hread hsidecar
      exact .overwritten (hbinary hclean) (fun himported => hfound himported.1)
        (.inl ⟨⟨entry, hread, hstatus, hkind⟩, .inr hsidecar⟩)
    · exact absurd hfound' hfound

theorem ProjectCell.file_ne {c c' : Cell V T} (h : ProjectCell E c c')
    (hfile : c.file = some bytes) (hbinary : decodeUtf8 bytes = none) : c'.file ≠ some bytes := by
  cases h with
  | same inSync =>
    have hnone : c.diskText = none := by
      rw [Cell.diskText, hfile]
      exact hbinary
    cases hnone.symm.trans inSync.1
  | written stale clean =>
    intro heq
    have htext : decodeUtf8 bytes = some c.storeText := decodeUtf8_iff.2 (Option.some.inj heq).symm
    cases hbinary.symm.trans htext

theorem ApplyCell.overwrites {c c' : Cell V T}
    (h : ApplyCell E found s s' c c') (hfile : c.file = some bytes)
    (hbinary : decodeUtf8 bytes = none)
    (hread : c.fileEntry E = some entry) (hkind : entry.kind = .text)
    (hwanted : entry.status = .live ∧ (found ∨ c.sidecar = none) ∨
      found ∧ E.bridge.textHash c.storeText ≠ entry.contentHash) : c'.file ≠ some bytes := by
  have hnone : c.diskText = none := by
    rw [Cell.diskText, hfile]
    exact hbinary
  cases h with
  | blobKept entry' read status kind nothing =>
    cases read.symm.trans hread
    cases kind.symm.trans hkind
  | blob entry' bytes read status kind stored absent =>
    cases read.symm.trans hread
    cases kind.symm.trans hkind
  | text entry' c' read status kind wanted project => exact project.file_ne hfile hbinary
  | dirty entry' read status kind isFound dirty => exact absurd hnone dirty.diskText_ne
  | textMissing entry' read status kind missing sidecar =>
    rcases hwanted with ⟨-, hfound | hsidecar⟩ | ⟨hfound, -⟩
    · exact absurd hfound missing
    · exact absurd hsidecar sidecar
    · exact absurd hfound missing
  | blobDeleted entry' read status kind isFound => exact (Option.some_ne_none bytes).symm
  | blobGone entry' read status kind missing =>
    cases read.symm.trans hread
    cases kind.symm.trans hkind
  | textDeleted entry' read status kind isFound hash => exact (Option.some_ne_none bytes).symm
  | textGone entry' read status kind missing =>
    cases read.symm.trans hread
    rcases hwanted with ⟨hstatus, -⟩ | ⟨hfound, -⟩
    · cases status.symm.trans hstatus
    · exact absurd hfound missing
  | revived entry' w c' read status kind isFound hash authored project =>
    rcases project with ⟨dirty, -⟩ | project
    · exact absurd hnone dirty.diskText_ne
    · exact project.file_ne hfile hbinary

theorem ApplyCell.removes {c c' : Cell V T}
    (h : ApplyCell E found s s' c c') (hread : c.fileEntry E = some entry) (hfound : found)
    (hstatus : entry.status = .tombstoned)
    (hhash : entry.kind = .blob ∨ E.bridge.textHash c.storeText = entry.contentHash) :
    c'.file = none := by
  cases h with
  | blobKept entry' read status kind nothing =>
    cases read.symm.trans hread
    cases status.symm.trans hstatus
  | blob entry' bytes read status kind stored absent =>
    cases read.symm.trans hread
    cases status.symm.trans hstatus
  | text entry' c' read status kind wanted project =>
    cases read.symm.trans hread
    cases status.symm.trans hstatus
  | dirty entry' read status kind isFound dirty =>
    cases read.symm.trans hread
    cases status.symm.trans hstatus
  | textMissing entry' read status kind missing sidecar => exact absurd hfound missing
  | blobDeleted entry' read status kind isFound => rfl
  | blobGone entry' read status kind missing => exact absurd hfound missing
  | textDeleted entry' read status kind isFound hash => rfl
  | textGone entry' read status kind missing => exact absurd hfound missing
  | revived entry' w c' read status kind isFound hash authored project =>
    cases read.symm.trans hread
    rcases hhash with hkind | hhash
    · cases kind.symm.trans hkind
    · exact absurd hhash hash

theorem FlushCell.not_detected {s t : FolderVault V T}
    (h : FlushCell E hint k s t imported healed) (hfound : ¬ Found s k)
    (hread : (cell s k).fileEntry E = some entry)
    (hkept : entry.kind = .text ∧ (cell s k).sidecar = none ∨
      entry.kind = .blob ∧ (cell s k).marker = none) : cell t k = cell s k := by
  have hsame : healed = cell s k :=
    (h.not_found hfound).trans (h.not_imported fun hi => hfound hi.1)
  have hdetect := h.step2 (by rw [hsame]; exact Cell.fileEntry_ne hread)
  rw [hsame] at hdetect
  generalize cell t k = c at hdetect
  cases hdetect with
  | kept entry' read kept => rfl
  | blob entry' checkpoint w read status missing kind marker =>
    cases read.symm.trans hread
    rcases hkept with ⟨hkind, -⟩ | ⟨-, hmarker⟩
    · cases kind.symm.trans hkind
    · exact absurd hmarker marker
  | text entry' checkpoint w read status missing kind sidecar =>
    cases read.symm.trans hread
    rcases hkept with ⟨-, hsidecar⟩ | ⟨hkind, -⟩
    · exact absurd hsidecar sidecar
    · cases kind.symm.trans hkind

theorem ScanCell.overwrites (hlib : E.lib.Lawful) {s t s' : FolderVault V T}
    (h : ScanCell E hint k s t s' imported healed)
    (hfile : (cell s k).file = some bytes) (hbacks : ¬ (cell t k).Backs bytes)
    (hbinary : decodeUtf8 bytes = none) (hskipped : ¬ Imported hint s k)
    (hlive : (cell s k).LiveText E ∧ (Found s k ∨ (cell s k).sidecar = none) ∨
      Found s k ∧ (cell s k).KeepsText E ∧ ((cell s k).entry = none → (cell s k).sidecar ≠ none)) :
    (cell s' k).file ≠ some bytes := by
  have hfile' : (cell t k).file = some bytes := by
    rw [cell, h.flushing.files]
    exact hfile
  -- the entry is a text when Step 3 starts, in the cases where it was one before
  have htext {entry : FileEntry VaultKey} (hsame : cell t k = cell s k)
      (hread : (cell s k).fileEntry E = some entry) (hkind : entry.kind = .text)
      (hwanted : entry.status = .live ∧ (Found s k ∨ (cell s k).sidecar = none) ∨
        Found s k ∧ E.bridge.textHash (cell s k).storeText ≠ entry.contentHash) :
      (cell s' k).file ≠ some bytes := by
    rw [← hsame] at hread hwanted
    exact (h.step3 (Cell.fileEntry_ne hread)).overwrites hfile' hbinary hread hkind hwanted
  by_cases hfound : Found s k
  · cases h.toFlushCell.flushedFile hfound hfile hbacks with
    | untouched _ known same =>
      rcases hlive with ⟨⟨entry, hread, hstatus, hkind⟩, -⟩ | ⟨-, hkeeps, hunknown⟩
      · exact htext same hread hkind (.inl ⟨hstatus, .inl hfound⟩)
      rcases hkeeps with hnone | ⟨entry, hread, hstatus, hkind⟩ | ⟨entry, hread, -, hkind, hhash⟩
      · rcases known with hentry | hsidecar
        · exact absurd hnone hentry
        · exact absurd hsidecar (hunknown hnone)
      · exact htext same hread hkind (.inl ⟨hstatus, .inl hfound⟩)
      · exact htext same hread hkind (.inr ⟨hfound, hhash⟩)
    | healed _ w unknown sidecar value eq =>
      have hread : (cell t k).fileEntry E = some
          (FolderBridge.liveEntry .text (E.bridge.textHash (cell s k).storeText)) := by
        rw [eq]
        exact Cell.fileEntry_authored hlib rfl value
      exact (h.step3 (Cell.fileEntry_ne hread)).overwrites hfile' hbinary hread rfl
        (.inl ⟨rfl, .inl hfound⟩)
    | kept imported => exact absurd imported hskipped
    | blob imported => exact absurd imported hskipped
  · rcases hlive with ⟨⟨entry, hread, hstatus, hkind⟩, hwanted⟩ | ⟨hfound', -⟩
    · have hsidecar := hwanted.resolve_left hfound
      have hsame := h.toFlushCell.not_detected hfound hread (.inl ⟨hkind, hsidecar⟩)
      exact htext hsame hread hkind (.inl ⟨hstatus, .inr hsidecar⟩)
    · exact absurd hfound' hfound

theorem ScanCell.lost (hlib : E.lib.Lawful) {s t s' : FolderVault V T}
    (h : ScanCell E hint k s t s' imported healed) (hfile : (cell s k).file = some bytes)
    (hbacks : ¬ (cell t k).Backs bytes) (hexposed : Exposed E hint s k bytes) :
    (cell s' k).file ≠ some bytes := by
  cases hexposed with
  | overwritten binary skipped live => exact h.overwrites hlib hfile hbacks binary skipped live
  | blobRemoved entry found read status kind untouched =>
    have hread : (cell t k).fileEntry E = some entry := by
      cases h.toFlushCell.flushedFile found hfile hbacks with
      | untouched _ _ same => rwa [same]
      | healed _ w unknown => exact absurd unknown (Cell.fileEntry_ne read)
      | kept _ _ _ eq => rwa [eq]
      | blob imported binary w has =>
        rcases untouched with hu | ⟨-, hhash⟩
        · exact absurd imported (hu.not_imported binary)
        · exact absurd (.inl ⟨entry, read, status, kind, hhash⟩) has
    have hnone := (h.step3 (Cell.fileEntry_ne hread)).removes hread found status (.inl kind)
    rw [hnone]
    exact nofun
  | textRemoved entry found read status kind hash untouched =>
    have hsame : cell t k = cell s k := by
      cases h.toFlushCell.flushedFile found hfile hbacks with
      | untouched _ _ same => exact same
      | healed _ w unknown => exact absurd unknown (Cell.fileEntry_ne read)
      | kept imported binary => exact absurd imported (untouched.not_imported binary)
      | blob imported binary => exact absurd imported (untouched.not_imported binary)
    rw [← hsame] at read hash
    have hnone := (h.step3 (Cell.fileEntry_ne read)).removes read found status (.inr hash)
    rw [hnone]
    exact nofun

end Exposed

section Claim
variable {V T : Type} [TextCrdt T] [DecidableEq V] {E : FolderEnv V T} {k : VaultKey}

/-- A file that is neither a text of the store, now or at the last sync, nor stored as a blob. -/
structure Unsynced (s : FolderVault V T) (k : VaultKey) (bytes : Bytes) : Prop where
  file : (cell s k).file = some bytes
  text : ¬ (cell s k).Backs bytes
  blob : ∀ hash : String, s.blobs[hash]? ≠ some bytes

theorem unsynced_of_text {s : FolderVault (Option (FileEntry VaultKey)) LatestText}
    (synced : List Char)
    (hfile : (cell s k).file = some bytes) (hstore : bytes ≠ encodeUtf8 (cell s k).storeText)
    (hsync : (cell s k).syncedText = some synced) (hsynced : bytes ≠ encodeUtf8 synced)
    (hblobs : s.blobs.isEmpty = true) : Unsynced s k bytes where
  file := hfile
  text := by
    rintro (h | ⟨text, htext, h⟩)
    · exact hstore h
    · cases hsync.symm.trans htext
      exact hsynced h
  blob hash := by
    rw [Std.TreeMap.getElem?_of_isEmpty hblobs]
    exact nofun

def editedDeleted : FolderVault (Option (FileEntry VaultKey)) LatestText :=
  ofCells 1 1 [(noteKey,
    { file := some [99]
      sidecar := some (some (plainEnv.bridge.synced ['a']))
      marker := none
      entry := some ⟨1, 2, some ⟨.text, .tombstoned, "a", none, some "1"⟩⟩
      text := ⟨1, ['a']⟩ })] []

theorem editedDeleted_unsynced :
    Unsynced (exec (plainEnv.bridge.flush (some [])) editedDeleted).2 noteKey [99] := by
  apply unsynced_of_text ['a']
  · decide +kernel
  · decide +kernel
  · decide +kernel
  · decide +kernel
  · decide +kernel

def swallowedDeleted : FolderVault (Option (FileEntry VaultKey)) LatestText :=
  ofCells 1 1 [(noteKey,
    { file := some []
      sidecar := some (some (plainEnv.bridge.synced ['a']))
      marker := none
      entry := some ⟨1, 2, some ⟨.text, .tombstoned, "b", none, some "1"⟩⟩
      text := ⟨1, ['b']⟩ })] []

end Claim

end Roam.Bridge
