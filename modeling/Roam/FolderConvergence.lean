import Roam.FolderScan

namespace Roam.Bridge
set_option autoImplicit true
open Library Library.Fallible Rebase

section Stuck
variable {V T : Type}

namespace Cell

def LiveText (E : FolderEnv V T) (c : Cell V T) : Prop :=
  ∃ entry, c.fileEntry E = some entry ∧ entry.status = .live ∧ entry.kind = .text

variable [TextCrdt T]

/-- The file is a live text for the scan: it is one, it was never entered, or it was edited after it
had been deleted. -/
def KeepsText (E : FolderEnv V T) (c : Cell V T) : Prop :=
  c.entry = none ∨ c.LiveText E ∨ ∃ entry, c.fileEntry E = some entry ∧ entry.status = .tombstoned ∧
    entry.kind = .text ∧ E.bridge.textHash c.storeText ≠ entry.contentHash

/-- The text on disk differs from that of the store and from that of the last sync, and still its
merge with the store adds nothing to the store. -/
def Stuck (E : FolderEnv V T) (c : Cell V T) : Prop :=
  c.Dirty ∧ (∃ fileText, c.diskText = some fileText ∧ c.Skips E fileText) ∧ c.KeepsText E

end Cell

variable [TextCrdt T] {E : FolderEnv V T} {k : VaultKey} {imported healed : Cell V T}

theorem ProjectCell.inSync {c c' : Cell V T} (h : ProjectCell E c c') : c'.InSync := by
  cases h with
  | same inSync => exact inSync
  | written stale clean => exact ⟨decodeUtf8_iff.2 rfl, rfl⟩

theorem Cell.Dirty.not_inSync {c : Cell V T} (h : c.Dirty) : ¬ c.InSync := by
  obtain ⟨disk, hdisk, hne, -⟩ := h
  rintro ⟨hsame, -⟩
  rw [hdisk] at hsame
  exact hne (Option.some.inj hsame)

theorem ProjectCell.not_dirty {c c' : Cell V T} (h : ProjectCell E c c') : ¬ c.Dirty := by
  cases h with
  | same inSync => exact fun hdirty => hdirty.not_inSync inSync
  | written stale clean => exact clean

theorem Cell.Dirty.diskText_ne {c : Cell V T} (h : c.Dirty) : c.diskText ≠ none := by
  obtain ⟨disk, hdisk, -⟩ := h
  rw [hdisk]
  exact Option.some_ne_none disk

theorem ImportCell.skipped_or_clean {s s' : FolderVault V T} {c c' : Cell V T}
    (h : ImportCell E s s' c c') :
    c' = c ∧ (∃ fileText, c.diskText = some fileText ∧ c.Skips E fileText) ∨
      ¬ c'.Dirty ∧ ¬ ∃ fileText, c.diskText = some fileText ∧ c.Skips E fileText := by
  have hbinary {bytes : Bytes} (file : c.file = some bytes) (binary : decodeUtf8 bytes = none) :
      c.diskText = none := by
    rw [Cell.diskText, file]
    exact binary
  have htext {bytes : Bytes} {fileText : List Char} (file : c.file = some bytes)
      (decoded : decodeUtf8 bytes = some fileText) : c.diskText = some fileText := by
    rw [Cell.diskText, file]
    exact decoded
  cases h with
  | skipped fileText bytes file decoded skips => exact .inl ⟨rfl, fileText,
      htext file decoded, skips⟩
  | text fileText bytes new w t file decoded expected ops text_eq grows authored =>
    refine .inr ⟨?_, ?_⟩
    · rintro ⟨disk, hdirty, -, hsynced⟩
      cases (htext file decoded).symm.trans hdirty
      exact hsynced rfl
    · rintro ⟨other, hother, new', hnew', hops⟩
      cases (htext file decoded).symm.trans hother
      cases expected.symm.trans hnew'
      exact ops hops
  | blobKept bytes file binary has =>
    refine .inr ⟨fun hdirty => hdirty.diskText_ne (hbinary file binary), ?_⟩
    rintro ⟨other, hother, -⟩
    cases (hbinary file binary).symm.trans hother
  | blob bytes w file binary has authored =>
    refine .inr ⟨fun hdirty => hdirty.diskText_ne (hbinary file binary), ?_⟩
    rintro ⟨other, hother, -⟩
    cases (hbinary file binary).symm.trans hother

theorem FlushCell.found {s t : FolderVault V T}
    (h : FlushCell E hint k s t imported healed) (hfound : Found s k) :
    cell t k = healed ∧ (healed = imported ∨
      imported.entry = none ∧ ∃ w, healed = { imported with entry := some w } ∧ w.value =
          E.lib.toValue (FolderBridge.liveEntry .text (E.bridge.textHash imported.storeText))) := by
  apply And.intro
  · by_cases hentry : healed.entry = none
    · exact h.no_entry hentry
    · have hdetect := h.step2 hentry
      generalize cell t k = c at hdetect
      cases hdetect with
      | kept entry read kept => rfl
      | blob entry checkpoint w read status missing => exact absurd hfound missing
      | text entry checkpoint w read status missing => exact absurd hfound missing
  · cases h.step1b hfound with
    | kept known => exact .inl rfl
    | healed w unknown sidecar authored => exact .inr ⟨unknown, w, rfl, authored.value⟩

theorem FlushCell.dirty_iff_stuck {s t : FolderVault V T}
    (h : FlushCell E none k s t imported healed) (hflush : Flushing s t) (hwalk : k.walked = true)
    (hkeeps : (cell t k).KeepsText E) : (cell t k).Dirty ↔ (cell s k).Stuck E := by
  by_cases hfound : Found s k
  · obtain ⟨ht, hhealed⟩ := h.found hfound
    have himport := (h.step1 ⟨hfound, nofun⟩).skipped_or_clean
    have hdirty : (cell t k).Dirty ↔ imported.Dirty := by
      rw [ht]
      rcases hhealed with rfl | ⟨-, w, rfl, -⟩
      · exact Iff.rfl
      · exact Iff.rfl
    rw [hdirty]
    rcases himport with ⟨rfl, hskips⟩ | ⟨hclean, hskips⟩
    · refine ⟨fun hd => ⟨hd, hskips, ?_⟩, fun hstuck => hstuck.1⟩
      rcases hhealed with rfl | ⟨hnone, -⟩
      · rwa [ht] at hkeeps
      · exact .inl hnone
    · exact ⟨fun hd => absurd hd hclean, fun hstuck => absurd hstuck.2.1 hskips⟩
  · -- a file that can be walked and was not found is not there
    have hfile : s.disk.files[k]? = none := by
      by_contra hfile
      exact hfound ⟨hwalk, hfile⟩
    have hs : (cell s k).diskText = none := congrArg (Option.bind · decodeUtf8) hfile
    have ht : (cell t k).diskText = none := by
      rw [← hflush.files] at hfile
      exact congrArg (Option.bind · decodeUtf8) hfile
    exact ⟨fun hd => absurd ht hd.diskText_ne, fun hstuck => absurd hs hstuck.1.diskText_ne⟩

theorem FlushCell.missing (hlib : E.lib.Lawful) {s t : FolderVault V T}
    (h : FlushCell E hint k s t imported healed) (hfound : ¬ Found s k)
    (hread : (cell t k).fileEntry E = some entry) (hstatus : entry.status = .live) :
    (entry.kind = .text → (cell t k).sidecar = none) ∧
      (entry.kind = .blob → (cell t k).marker = none) ∧ cell t k = cell s k := by
  have hsame : healed = cell s k :=
    (h.not_found hfound).trans (h.not_imported fun hi => hfound hi.1)
  by_cases hentry : healed.entry = none
  · rw [h.no_entry hentry, Cell.fileEntry, Cell.value, hentry] at hread
    cases hread
  have hdetect := h.step2 hentry
  rw [hsame] at hdetect
  generalize cell t k = c at hdetect hread ⊢
  cases hdetect with
  | kept entry' read kept =>
    cases read.symm.trans hread
    rcases kept with hdeleted | hfound' | ⟨hkind, hmarker⟩ | ⟨hkind, hsidecar⟩
    · cases hdeleted.symm.trans hstatus
    · exact absurd hfound' hfound
    · refine ⟨fun htext => ?_, fun _ => hmarker, rfl⟩
      cases hkind.symm.trans htext
    · refine ⟨fun _ => hsidecar, fun hblob => ?_, rfl⟩
      cases hkind.symm.trans hblob
  | blob entry' checkpoint w read status missing kind marker authored =>
    cases (Cell.fileEntry_authored hlib rfl authored.value).symm.trans hread
    cases hstatus
  | text entry' checkpoint w read status missing kind sidecar authored =>
    cases (Cell.fileEntry_authored hlib rfl authored.value).symm.trans hread
    cases hstatus

theorem ScanCell.inSync_iff (hlib : E.lib.Lawful) {s t s' : FolderVault V T}
    (h : ScanCell E hint k s t s' imported healed) (hlive : (cell s' k).LiveText E) :
    (cell t k).KeepsText E ∧ ((cell s' k).InSync ↔ ¬ (cell t k).Dirty) := by
  obtain ⟨entry', hread', hstatus', hkind'⟩ := hlive
  have hentry : (cell t k).entry ≠ none := by
    intro hnone
    rw [h.not_applied hnone, Cell.fileEntry, Cell.value, hnone] at hread'
    cases hread'
  have happly := h.step3 hentry
  have hmissing (hfound : ¬ Found s k) (hread : (cell t k).fileEntry E = some entry')
      (hstatus : entry'.status = .live) := h.missing hlib hfound hread hstatus
  generalize cell s' k = c' at happly hread'
  cases happly with
  | blobKept entry read status kind nothing =>
    cases read.symm.trans hread'
    cases kind.symm.trans hkind'
  | blob entry bytes read status kind stored absent =>
    cases read.symm.trans hread'
    cases kind.symm.trans hkind'
  | text entry c' read status kind wanted project =>
    refine ⟨.inr (.inl ⟨entry, read, status, kind⟩), iff_of_true project.inSync project.not_dirty⟩
  | dirty entry read status kind isFound dirty =>
    exact ⟨.inr (.inl ⟨entry, read, status, kind⟩),
      iff_of_false dirty.not_inSync (not_not_intro dirty)⟩
  | textMissing entry read status kind missing sidecar =>
    cases read.symm.trans hread'
    exact absurd ((hmissing missing read status).1 kind) sidecar
  | blobDeleted entry read status kind isFound =>
    cases read.symm.trans hread'
    cases status.symm.trans hstatus'
  | blobGone entry read status kind missing =>
    cases read.symm.trans hread'
    cases status.symm.trans hstatus'
  | textDeleted entry read status kind isFound hash =>
    cases read.symm.trans hread'
    cases status.symm.trans hstatus'
  | textGone entry read status kind missing =>
    cases read.symm.trans hread'
    cases status.symm.trans hstatus'
  | revived entry w c' read status kind isFound hash authored project =>
    refine ⟨.inr (.inr ⟨entry, read, status, kind, hash⟩), ?_⟩
    rcases project with ⟨dirty, rfl⟩ | project
    · exact iff_of_false dirty.not_inSync (not_not_intro dirty)
    · exact iff_of_true project.inSync project.not_dirty

end Stuck

section Claim
variable {V T : Type} [TextCrdt T] [DecidableEq V] {E : FolderEnv V T} {k : VaultKey}

structure LatestText where
  version : Nat
  chars : List Char
deriving DecidableEq

namespace LatestText

def lex (t : LatestText) : Nat ×ₗ List Char := toLex (t.version, t.chars)

theorem lex_injective : Function.Injective lex := by
  intro a b h
  cases a
  cases b
  cases h
  rfl

instance : LinearOrder LatestText := LinearOrder.lift' lex lex_injective

instance : OrderBot LatestText where
  bot := ⟨0, []⟩
  bot_le t := by
    apply Prod.Lex.toLex_le_toLex.2
    rcases Nat.eq_zero_or_pos t.version with h | h
    · exact .inr ⟨h.symm, not_lt.1 (List.not_lt_nil _)⟩
    · exact .inl h

instance : TextCrdt LatestText where
  toSemilatticeSup := inferInstance
  toOrderBot := inferInstance
  text := chars
  edit t _ op := ⟨t.version + 1, (op.apply t.chars).getD t.chars⟩
  text_bot := rfl
  text_edit t peer op u h := by
    change (op.apply t.chars).getD t.chars = u
    rw [h]
    rfl
  le_edit t peer op := Prod.Lex.toLex_le_toLex.2 (.inl (Nat.lt_succ_self t.version))

end LatestText

def plainHash (bytes : Bytes) : String := String.ofList (bytes.map fun b => Char.ofNat b.toNat)

theorem plainHash_injective : Function.Injective plainHash := by
  intro a b h
  have hinj : Function.Injective fun b : UInt8 => Char.ofNat b.toNat := by
    intro x y hxy
    have hx := congrArg Char.toNat hxy
    have hlt (b : UInt8) : b.toNat < 0xd800 := Nat.lt_trans b.toNat_lt (by decide)
    simp only [Char.toNat_ofNat, if_pos (show Nat.isValidChar _ from .inl (hlt _))] at hx
    exact UInt8.toNat_inj.1 hx
  exact hinj.list_map (String.ofList_injective h)

/-- Entries stand in the map as they are; `none` is a value that does not parse. -/
def plainLib : BridgeLib VaultKey (Option (FileEntry VaultKey)) LatestText where
  hash := plainHash
  validHash _ := true
  diff := replaceDiff
  fromValue
    | some entry => .ok entry
    | none => .error "expected value"
  toValue := some
  eqIgnoreAsciiCase a b := a.path.toList.map Char.toLower = b.path.toList.map Char.toLower
  docVersion d := toString d.clock
  order items := items

theorem plainLib_lawful : plainLib.Lawful where
  hash_injective := plainHash_injective
  validHash_hash _ := rfl
  diff_isScript := replaceDiff_isScript
  diff_equal := replaceDiff_equal
  fromValue_toValue _ := rfl
  order_perm _ := .rfl

def plainEnv : FolderEnv (Option (FileEntry VaultKey)) LatestText where
  lib := plainLib
  singleVersionThreshold := none
  refused _ := none
  refusedFiles _ := none

def backwardEnv : FolderEnv (Option (FileEntry VaultKey)) LatestText :=
  { plainEnv with lib.order := List.reverse }

theorem backwardLib_lawful : backwardEnv.lib.Lawful :=
  { plainLib_lawful with order_perm := List.reverse_perm }

def ofCells (peer : UInt64) (clock : Nat)
    (cells : List (VaultKey × Cell (Option (FileEntry VaultKey)) LatestText))
    (blobs : List (String × Bytes)) :
    FolderVault (Option (FileEntry VaultKey)) LatestText where
  disk :=
    { files := .ofList (cells.filterMap fun p => p.2.file.map (p.1, ·))
      sidecars := .ofList (cells.filterMap fun p => p.2.sidecar.map (p.1, ·))
      markers := .ofList (cells.filterMap fun p => p.2.marker.map (p.1, ·)) }
  doc :=
    { peer
      clock
      entries := .ofList (cells.filterMap fun p => p.2.entry.map (p.1, ·))
      texts := .ofList (cells.map fun p => (p.1, p.2.text)) }
  blobs := .ofList blobs
  mayWrite := true

def noteKey : VaultKey := ⟨"note", by decide +kernel⟩

def remoteEdit : FolderVault (Option (FileEntry VaultKey)) LatestText :=
  ofCells 1 1 [(noteKey,
    { file := some [97]
      sidecar := some (some (plainEnv.bridge.synced ['a']))
      marker := none
      entry := some ⟨1, 1, some (FolderBridge.liveEntry .text "b")⟩
      text := ⟨1, ['b']⟩ })] []

def swallowedEdit : FolderVault (Option (FileEntry VaultKey)) LatestText :=
  ofCells 1 1 [(noteKey,
    { file := some []
      sidecar := some (some (plainEnv.bridge.synced ['a']))
      marker := none
      entry := some ⟨1, 1, some (FolderBridge.liveEntry .text "b")⟩
      text := ⟨1, ['b']⟩ })] []

def clobberedNote : FolderVault (Option (FileEntry VaultKey)) LatestText :=
  ofCells 1 2 [(noteKey,
    { file := some [97]
      sidecar := some (some (plainEnv.bridge.synced ['a']))
      marker := none
      entry := some ⟨1, 1, some (FolderBridge.liveEntry .text "b")⟩
      text := ⟨1, ['b']⟩ }), (noteKey.temp,
    { file := some [116]
      sidecar := some (some (plainEnv.bridge.synced ['t']))
      marker := none
      entry := some ⟨2, 1, some (FolderBridge.liveEntry .text "t")⟩
      text := ⟨1, ['t']⟩ })] []

end Claim

end Roam.Bridge
