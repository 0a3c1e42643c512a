import Roam.FolderConvergence

namespace Roam.Bridge
set_option autoImplicit true
open Library Library.Fallible Rebase

section Kept
variable {V T : Type} [TextCrdt T]

def HadOnDisk (history : List (FolderVault V T)) (k : VaultKey) (text : List Char) : Prop :=
  ∃ v ∈ history, (cell v k).diskText = some text

/-- The import of a key keeps what the other devices wrote: with a sidecar, all that they inserted
since the last sync, and without one, the whole text if this device never had it on disk. -/
structure PeersKept (E : FolderEnv V T) (history : List (FolderVault V T)) (k : VaultKey)
    (before after : FolderVault V T) : Prop where
  inserted : ∀ sidecar, (cell before k).sidecar = some (some sidecar) →
    (insertions (items (E.lib.diff sidecar.lastSyncedText (before.doc.text k)))).Sublist
      (after.doc.text k)
  whole : (cell before k).sidecar = none → ¬ HadOnDisk history k (before.doc.text k) →
    (before.doc.text k).Sublist (after.doc.text k)

/-- A text file without a sidecar has on disk all that the store has for it, unless the text of the
store once was this device's own. -/
def DiskHasStore (history : List (FolderVault V T)) (s : FolderVault V T) (k : VaultKey) : Prop :=
  (cell s k).sidecar = none → ¬ HadOnDisk history k (s.doc.text k) →
    ∀ disk, (cell s k).diskText = some disk → (s.doc.text k).Sublist disk

variable {E : FolderEnv V T} {k : VaultKey}

theorem expected_of_no_sidecar {c : Cell V T} (h : c.sidecar = none) (disk : List Char) :
    c.expected E disk = some disk := by
  have hbase : c.baseline = c.storeText := by
    rw [Cell.baseline, h]
    rfl
  rw [Cell.expected, hbase, if_pos rfl]

theorem insertions_sublist_expected (hlib : E.lib.Lawful) {c : Cell V T} {sidecar : Sidecar}
    (h : c.sidecar = some (some sidecar)) (hexp : c.expected E disk = some new) :
    (insertions (items (E.lib.diff sidecar.lastSyncedText c.storeText))).Sublist new := by
  have hbase : c.baseline = sidecar.lastSyncedText := by
    rw [Cell.baseline, h]
    rfl
  rw [Cell.expected, hbase] at hexp
  split at hexp
  next heq =>
    rw [heq, items_of_equal (hlib.diff_equal _), insertions_keeps]
    exact List.nil_sublist new
  next =>
    have hmerge := (merge_interleaves hlib.diff_isScript sidecar.lastSyncedText disk c.storeText).1
    have hnew := Option.some.inj (hexp.symm.trans hmerge)
    have hscript := hlib.diff_isScript sidecar.lastSyncedText c.storeText
    have hsub := insertions_sublist_interleave (items (E.lib.diff sidecar.lastSyncedText disk))
      (items (E.lib.diff sidecar.lastSyncedText c.storeText))
    rw [hscript.oldText] at hsub
    rw [hnew]
    exact hsub

variable [DecidableEq V]

theorem importFile_text (hlib : E.lib.Lawful) {s s' : FolderVault V T}
    (h : exec (E.bridge.importFile k) s = (.ok out, s')) :
    (cell s k).diskText = none ∧ s'.doc.text k = s.doc.text k ∨
      ∃ disk, (cell s k).diskText = some disk ∧
        (cell s k).expected E disk = some (s'.doc.text k) := by
  have hcell := (importFile_cell h).2
  have htext : s'.doc.text k = (cell s' k).storeText := rfl
  rw [htext]
  generalize cell s' k = c' at hcell ⊢
  cases hcell with
  | skipped disk bytes file decoded skips =>
    obtain ⟨new, hnew, hops⟩ := skips
    have hsame := eq_of_diffToOps_nil (hlib.diff_isScript _ _) hops
    refine .inr ⟨disk, ?_, ?_⟩
    · rw [Cell.diskText, file]
      exact decoded
    · rw [hnew, hsame]
  | text disk bytes new w t file decoded expected ops text_eq grows authored =>
    refine .inr ⟨disk, ?_, ?_⟩
    · rw [Cell.diskText, file]
      exact decoded
    · rw [expected, ← text_eq]
      rfl
  | blobKept bytes file binary has | blob bytes w file binary has authored =>
    refine .inl ⟨?_, rfl⟩
    rw [Cell.diskText, file]
    exact binary

/-- An import keeps what the other devices wrote exactly if a text file that was never synced has
all of it already. -/
theorem peersKept_iff (hlib : E.lib.Lawful) (history : List (FolderVault V T))
    {s s' : FolderVault V T} (h : exec (E.bridge.importFile k) s = (.ok out, s')) :
    PeersKept E history k s s' ↔ DiskHasStore history s k := by
  have htext := importFile_text hlib h
  apply Iff.intro
  · intro hkept hside hnever disk hdisk
    rcases htext with ⟨hbinary, _⟩ | ⟨disk', hdisk', hexp⟩
    · rw [hbinary] at hdisk
      cases hdisk
    · rw [expected_of_no_sidecar hside] at hexp
      have hnew : disk = s'.doc.text k :=
        (Option.some.inj (hdisk.symm.trans hdisk')).trans (Option.some.inj hexp)
      rw [hnew]
      exact hkept.whole hside hnever
  · intro hhas
    apply PeersKept.mk
    · intro sidecar hside
      rcases htext with ⟨_, hsame⟩ | ⟨disk, _, hexp⟩
      · have hsub := insertions_sublist_newText
          (items (E.lib.diff sidecar.lastSyncedText (s.doc.text k)))
        rw [(hlib.diff_isScript _ _).newText] at hsub
        rw [hsame]
        exact hsub
      · exact insertions_sublist_expected hlib hside hexp
    · intro hside hnever
      rcases htext with ⟨_, hsame⟩ | ⟨disk, hdisk, hexp⟩
      · rw [hsame]
      · rw [expected_of_no_sidecar hside] at hexp
        rw [← Option.some.inj hexp]
        exact hhas hside hnever disk hdisk

end Kept

section Samples

def newNote (peer : UInt64) (text : List Char) :
    FolderVault (Option (FileEntry VaultKey)) LatestText :=
  ofCells peer 0 [(noteKey, ⟨some (encodeUtf8 text), none, none, none, ⊥⟩)] []

def imported (s : FolderVault (Option (FileEntry VaultKey)) LatestText) :
    FolderVault (Option (FileEntry VaultKey)) LatestText :=
  (exec (plainEnv.bridge.importFile noteKey) s).2

def receive (s other : FolderVault (Option (FileEntry VaultKey)) LatestText) :
    FolderVault (Option (FileEntry VaultKey)) LatestText :=
  { s with doc := s.doc.merge other.doc }

def secondNote : FolderVault (Option (FileEntry VaultKey)) LatestText :=
  receive (newNote 2 ['b']) (imported (newNote 1 ['a']))

/-- The text of the first device is replaced by that of the second. -/
theorem import_replaces_peer_text :
    (exec (plainEnv.bridge.importFile noteKey) secondNote).1 = .ok ⟨2, true, []⟩ ∧
      secondNote.doc.text noteKey = ['a'] ∧ (imported secondNote).doc.text noteKey = ['b'] ∧
      ¬ PeersKept plainEnv [newNote 2 ['b'],
        secondNote] noteKey secondNote (imported secondNote) := by
  have hstore : secondNote.doc.text noteKey = ['a'] := by decide +kernel
  have hafter : (imported secondNote).doc.text noteKey = ['b'] := by decide +kernel
  refine ⟨by decide +kernel, hstore, hafter, ?_⟩
  intro hkept
  have hnever :
      ¬ HadOnDisk [newNote 2 ['b'], secondNote] noteKey (secondNote.doc.text noteKey) := by
    rw [hstore, HadOnDisk]
    decide +kernel
  have hsub := hkept.whole (by decide +kernel) hnever
  rw [hstore, hafter] at hsub
  exact absurd hsub (by decide)

def editedNote : FolderVault (Option (FileEntry VaultKey)) LatestText :=
  receive
    (ofCells 2 1 [(noteKey, ⟨some (encodeUtf8 ['a', 'b']),
      some (some (plainEnv.bridge.synced ['a'])), none,
        some ⟨1, 1, some (FolderBridge.liveEntry .text (plainEnv.bridge.textHash ['a']))⟩,
      ⟨1, ['a']⟩⟩)] [])
    (ofCells 1 2 [(noteKey, ⟨none, none, none, none, ⟨2, ['c', 'a']⟩⟩)] [])

theorem import_keeps_peer_edit :
    PeersKept plainEnv [editedNote] noteKey editedNote (imported editedNote) ∧
      (imported editedNote).doc.text noteKey = ['c', 'a', 'a', 'b'] := by
  have hrun : exec (plainEnv.bridge.importFile noteKey) editedNote =
      (.ok ⟨2, true, [⟨0, 1, ['a']⟩]⟩, imported editedNote) :=
    Prod.ext (by decide +kernel) rfl
  refine ⟨(peersKept_iff plainLib_lawful [editedNote] hrun).2 ?_, by decide +kernel⟩
  intro hside
  exact absurd hside (by decide +kernel)

end Samples

end Roam.Bridge
