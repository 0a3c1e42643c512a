import Roam.Base
import Roam.Library.LossyText

namespace Roam
set_option autoImplicit true
open Library

namespace VaultPaths

def slash : UInt8 := 47

def dotDot : Bytes := [46, 46]

@[ext]
structure FileName where
  bytes : Bytes
  ne_nil : bytes ≠ []
  no_slash : slash ∉ bytes
  no_dots : bytes ≠ [46] ∧ bytes ≠ dotDot
deriving DecidableEq

def FileName.ofBytes? (bytes : Bytes) : Option FileName :=
  if h : bytes ≠ [] ∧ slash ∉ bytes ∧ bytes ≠ [46] ∧ bytes ≠ dotDot then
    some ⟨bytes, h.1, h.2.1, h.2.2⟩
  else none

inductive PathStart
  | root
  | dot
  | bare
deriving DecidableEq

inductive PathStep
  | parent
  | name (n : FileName)
deriving DecidableEq

/-- `Path::components`, which is what paths are compared by: a `.` counts only at the start. -/
structure Path where
  start : PathStart
  steps : List PathStep
deriving DecidableEq

namespace Path

def empty : Path := ⟨.bare, []⟩

/-- `Path::join`: an absolute path replaces the base. -/
def join (base path : Path) : Path :=
  if path.start = .root ∨ base = empty then path else ⟨base.start, base.steps ++ path.steps⟩

/-- `Path::strip_prefix`. -/
def stripPrefix (path base : Path) : Option Path :=
  if base = empty then some path
  else if path.start = base.start ∧ base.steps <+: path.steps then
    some ⟨.bare, path.steps.drop base.steps.length⟩
  else none

def ofPart (part : Bytes) : Path :=
  if part = [46] then ⟨.dot, []⟩
  else if part = dotDot then ⟨.bare, [.parent]⟩
  else ⟨.bare, (FileName.ofBytes? part).toList.map .name⟩

def under (dir : Path) (names : List FileName) : Path := ⟨dir.start, dir.steps ++ names.map .name⟩

theorem join_name (dir : Path) (n : FileName) : dir.join ⟨.bare, [.name n]⟩ = dir.under [n] := by
  rw [join]
  split
  next h =>
    rcases h with hroot | rfl
    · cases hroot
    · rfl
  next => rfl

theorem under_under (dir : Path) (names names' : List FileName) :
    (dir.under names).under names' = dir.under (names ++ names') := by
  rw [under, under, under, List.map_append, List.append_assoc]

end Path

/-- Unicode normalisation to composed form. A separator is not changed and does not join with what
is around it, and nothing else turns into dots. -/
structure Normalizer where
  nfc : Bytes → Bytes
  valid : ∀ text, validUtf8 text = true → validUtf8 (nfc text) = true
  around_slash : ∀ a b, validUtf8 a = true → validUtf8 b = true →
    nfc (a ++ slash :: b) = nfc a ++ slash :: nfc b
  no_slash : ∀ text, validUtf8 text = true → slash ∉ text → slash ∉ nfc text
  dots : ∀ text n, validUtf8 text = true → nfc text = List.replicate n 46 →
    text = List.replicate n 46

inductive PathError
  | pathEscapesVault (file : Path)
  | reservedName (key : Bytes)
deriving DecidableEq

/-- `fileset::FILESET_MAP_ID`. -/
def filesetMapId : Bytes := "__roam_fileset__".toUTF8.toList

def normalizeStep (absolute : Bool) (parts : List Bytes) : PathStep → List Bytes
  | .name n => parts ++ [lossy n.bytes]
  | .parent =>
    match parts.getLast? with
    | some last =>
      if last ≠ dotDot then parts.dropLast else if !absolute then parts ++ [dotDot] else parts
    | none => if !absolute then [dotDot] else []

def lexicalNormalize (path : Path) : List Bytes :=
  path.steps.foldl (normalizeStep (path.start = .root)) []

section Keys
variable (N : Normalizer)

def containerId (vaultRoot file : Path) : Except PathError Bytes :=
  let remainder := (file.stripPrefix vaultRoot).getD file
  let combined := vaultRoot.join remainder
  let rootParts := lexicalNormalize vaultRoot
  let fileParts := lexicalNormalize combined
  if dotDot ∈ fileParts then .error (.pathEscapesVault file)
  else if fileParts.length < rootParts.length ∨ fileParts.take rootParts.length ≠ rootParts then
    .error (.pathEscapesVault file)
  else
    let key := N.nfc ([slash].intercalate (fileParts.drop rootParts.length))
    if key = filesetMapId then .error (.reservedName key) else .ok key

def keyToPath (vaultRoot : Path) (key : Bytes) : Path :=
  (key.splitOn slash).foldl (fun path part => path.join (.ofPart part)) vaultRoot

end Keys

mutual

inductive FolderEntry
  | file
  | symlink
  | dir (entries : FolderListing)

inductive FolderListing
  | nil
  | cons (name : FileName) (entry : FolderEntry) (rest : FolderListing)

end

def isHidden (name : FileName) : Bool := (lossy name.bytes).head? = some 46

def isInternalSidecar (name : FileName) : Bool :=
  ".roammeta".toUTF8.toList.isSuffixOf (lossy name.bytes) ||
    ".roamblob".toUTF8.toList.isSuffixOf (lossy name.bytes)

mutual

def collectEntry (path : Path) (name : FileName) : FolderEntry → List Path
  | .symlink => []
  | .dir entries => if isHidden name then [] else collectVaultFiles path entries
  | .file => if isHidden name || isInternalSidecar name then [] else [path]

def collectVaultFiles (dir : Path) : FolderListing → List Path
  | .nil => []
  | .cons name entry rest =>
    collectEntry (dir.join ⟨.bare, [.name name]⟩) name entry ++ collectVaultFiles dir rest

end

def Reserved (root file : Path) : Prop :=
  ∃ name : FileName, name.bytes = filesetMapId ∧ file = root.under [name]

/-- The keys of the files of a folder tell them apart and lead back to them. -/
structure OneToOne (N : Normalizer) (root : Path) (entries : FolderListing) : Prop where
  apart : ∀ f ∈ collectVaultFiles root entries, ∀ g ∈ collectVaultFiles root entries,
    ¬ Reserved root f → ¬ Reserved root g →
      containerId N root f = containerId N root g → f = g
  back : ∀ f ∈ collectVaultFiles root entries, ¬ Reserved root f →
    ∃ key, containerId N root f = .ok key ∧ keyToPath root key = f

def Composed (N : Normalizer) (name : FileName) : Prop :=
  validUtf8 name.bytes = true ∧ N.nfc name.bytes = name.bytes

section Names
variable (N : Normalizer)

theorem nfc_dots {name : FileName} (h : N.nfc (lossy name.bytes) = List.replicate n 46) :
    name.bytes = List.replicate n 46 := by
  have hlossy := N.dots _ n (validUtf8_lossy name.bytes) h
  have hplain : 0xBD ∉ lossy name.bytes := by
    rw [hlossy]
    exact fun hmem => absurd (List.eq_of_mem_replicate hmem) (by decide)
  exact (lossy_eq_of_not_mem hplain).symm.trans hlossy

def keyName (name : FileName) : FileName where
  bytes := N.nfc (lossy name.bytes)
  ne_nil h := name.ne_nil (nfc_dots N (n := 0) h)
  no_slash := by
    apply N.no_slash _ (validUtf8_lossy name.bytes)
    intro h
    rcases mem_lossy h with hmem | hmem
    · exact name.no_slash hmem
    · exact absurd hmem (by decide)
  no_dots := ⟨fun h => name.no_dots.1 (nfc_dots N (n := 1) h),
    fun h => name.no_dots.2 (nfc_dots N (n := 2) h)⟩

theorem keyName_eq_iff : keyName N name = name ↔ Composed N name := by
  constructor
  · intro h
    have hbytes : N.nfc (lossy name.bytes) = name.bytes := congrArg FileName.bytes h
    have hvalid : validUtf8 name.bytes = true := by
      rw [← hbytes]
      exact N.valid _ (validUtf8_lossy _)
    rw [lossy_of_valid hvalid] at hbytes
    exact ⟨hvalid, hbytes⟩
  · intro h
    apply FileName.ext
    change N.nfc (lossy name.bytes) = name.bytes
    rw [lossy_of_valid h.1, h.2]

theorem nfc_intercalate (names : List FileName) (hne : names ≠ []) :
    N.nfc ([slash].intercalate (names.map fun n => lossy n.bytes)) =
      [slash].intercalate (names.map fun n => (keyName N n).bytes) ∧
    validUtf8 ([slash].intercalate (names.map fun n => lossy n.bytes)) = true := by
  induction names with
  | nil => exact absurd rfl hne
  | cons name names ih =>
    cases names with
    | nil =>
      rw [List.map_singleton, List.map_singleton, List.intercalate_singleton,
        List.intercalate_singleton]
      exact ⟨rfl, validUtf8_lossy name.bytes⟩
    | cons name' names =>
      obtain ⟨ih, hvalid⟩ := ih (List.cons_ne_nil _ _)
      rw [List.map_cons] at hvalid
      rw [List.map_cons, List.map_cons] at ih
      rw [List.map_cons, List.map_cons, List.map_cons, List.map_cons, List.intercalate_cons_cons,
        List.intercalate_cons_cons, List.append_assoc, List.append_assoc, List.singleton_append,
        List.singleton_append, N.around_slash _ _ (validUtf8_lossy _) hvalid, ih]
      refine ⟨rfl, ?_⟩
      rw [validUtf8_append (validUtf8_lossy _), ← List.singleton_append,
        validUtf8_append (by decide)]
      exact hvalid

end Names

theorem lexicalNormalize_under (root : Path) (names : List FileName) :
    lexicalNormalize (root.under names) =
      lexicalNormalize root ++ names.map fun n => lossy n.bytes := by
  rw [lexicalNormalize, Path.under, List.foldl_append]
  change List.foldl _ (lexicalNormalize root) _ = _
  generalize lexicalNormalize root = parts
  induction names generalizing parts with
  | nil => exact (List.append_nil parts).symm
  | cons name names ih =>
    rw [List.map_cons, List.foldl_cons, ih, normalizeStep, List.map_cons, List.append_assoc,
      List.singleton_append]

theorem lossy_ne_dotDot (name : FileName) : lossy name.bytes ≠ dotDot := by
  intro h
  have hplain : 0xBD ∉ lossy name.bytes := by
    rw [h]
    decide
  exact name.no_dots.2 ((lossy_eq_of_not_mem hplain).symm.trans h)

theorem combined_under (root : Path) (names : List FileName) :
    root.join (((root.under names).stripPrefix root).getD (root.under names)) =
      root.under names := by
  by_cases hroot : root = Path.empty
  · rw [Path.stripPrefix, if_pos hroot, Option.getD_some, Path.join, if_pos (.inr hroot)]
  · have hprefix :
        (root.under names).start = root.start ∧ root.steps <+: (root.under names).steps :=
      ⟨rfl, List.prefix_append _ _⟩
    rw [Path.stripPrefix, if_neg hroot, if_pos hprefix, Option.getD_some, Path.join, if_neg]
    · rw [Path.under, List.drop_left]
    · rintro (hstart | hempty)
      · cases hstart
      · exact hroot hempty

def keyOf (N : Normalizer) (names : List FileName) : Bytes :=
  [slash].intercalate (names.map fun n => (keyName N n).bytes)

theorem containerId_under (N : Normalizer) (root : Path) {names : List FileName}
    (hne : names ≠ []) : containerId N root (root.under names) =
      if dotDot ∈ lexicalNormalize root then .error (.pathEscapesVault (root.under names))
      else if keyOf N names = filesetMapId then .error (.reservedName filesetMapId)
      else .ok (keyOf N names) := by
  have hout : dotDot ∈ lexicalNormalize root ++ names.map (fun n => lossy n.bytes) ↔
      dotDot ∈ lexicalNormalize root := by
    rw [List.mem_append, or_iff_left]
    intro hmem
    obtain ⟨name, _, heq⟩ := List.mem_map.1 hmem
    exact lossy_ne_dotDot name heq
  simp only [containerId, combined_under, lexicalNormalize_under, hout]
  split
  · rfl
  · rw [if_neg, List.drop_left, (nfc_intercalate N names hne).1]
    · change (if keyOf N names = filesetMapId then _ else _) = _
      split
      next heq => exact congrArg (fun key => Except.error (PathError.reservedName key)) heq
      next => rfl
    · rw [List.take_left, List.length_append, not_or]
      exact ⟨Nat.not_lt.2 (Nat.le_add_right _ _), not_not.2 rfl⟩

theorem splitOn_keyOf (N : Normalizer) {names : List FileName} (hne : names ≠ []) :
    (keyOf N names).splitOn slash = names.map fun n => (keyName N n).bytes := by
  rw [keyOf, List.splitOn_intercalate]
  · intro part hpart
    obtain ⟨name, _, rfl⟩ := List.mem_map.1 hpart
    exact (keyName N name).no_slash
  · exact List.map_eq_nil_iff.not.2 hne

theorem ofPart_bytes (name : FileName) : Path.ofPart name.bytes = ⟨.bare, [.name name]⟩ := by
  have hname : FileName.ofBytes? name.bytes = some name :=
    dif_pos ⟨name.ne_nil, name.no_slash, name.no_dots⟩
  rw [Path.ofPart, if_neg name.no_dots.1, if_neg name.no_dots.2, hname]
  rfl

theorem keyToPath_keyOf (N : Normalizer) (root : Path) {names : List FileName} (hne : names ≠ []) :
    keyToPath root (keyOf N names) = root.under (names.map (keyName N)) := by
  rw [keyToPath, splitOn_keyOf N hne]
  clear hne
  induction names generalizing root with
  | nil => rw [List.map_nil, List.map_nil, List.foldl_nil, Path.under, List.map_nil,
      List.append_nil]
  | cons name names ih =>
    rw [List.map_cons, List.map_cons, List.foldl_cons, ofPart_bytes, Path.join_name, ih,
      Path.under_under, List.singleton_append]

theorem under_inj {root : Path} (h : root.under names = root.under names') : names = names' := by
  have hsteps := List.append_cancel_left (congrArg Path.steps h)
  exact List.map_injective_iff.2 (fun _ _ heq => PathStep.name.inj heq) hsteps

theorem keyOf_reserved {N : Normalizer} {names : List FileName} (hne : names ≠ [])
    (h : keyOf N names = filesetMapId) :
    ∃ name, names = [name] ∧ (keyName N name).bytes = filesetMapId := by
  have hsplit := splitOn_keyOf N hne
  have hwhole : filesetMapId.splitOn slash = [filesetMapId] := by decide +kernel
  rw [h, hwhole] at hsplit
  obtain ⟨name, hname, hbytes⟩ := List.map_eq_singleton_iff.1 hsplit.symm
  exact ⟨name, hname, hbytes⟩

mutual

theorem mem_collectEntry {path : Path} {name : FileName} (entry : FolderEntry)
    (h : f ∈ collectEntry path name entry) : ∃ names, f = path.under names := by
  cases entry with
  | symlink => cases h
  | dir entries =>
    rw [collectEntry] at h
    split at h
    · cases h
    · obtain ⟨names, _, hf⟩ := mem_collectVaultFiles entries h
      exact ⟨names, hf⟩
  | file =>
    rw [collectEntry] at h
    split at h
    · cases h
    · refine ⟨[], ?_⟩
      rw [List.mem_singleton.1 h, Path.under, List.map_nil, List.append_nil]

theorem mem_collectVaultFiles {dir : Path} (entries : FolderListing)
    (h : f ∈ collectVaultFiles dir entries) : ∃ names, names ≠ [] ∧ f = dir.under names := by
  cases entries with
  | nil => cases h
  | cons name entry rest =>
    rw [collectVaultFiles, List.mem_append] at h
    rcases h with h | h
    · obtain ⟨names, hf⟩ := mem_collectEntry entry h
      rw [Path.join_name, Path.under_under, List.singleton_append] at hf
      exact ⟨name :: names, List.cons_ne_nil name names, hf⟩
    · exact mem_collectVaultFiles rest h

end

/-- A file that is not reserved has a key that leads back to it exactly if the root does not lead
out of itself and the names are texts in composed form. -/
theorem back_iff {N : Normalizer} {root : Path} {names : List FileName} (hne : names ≠ [])
    (hfree : ¬ Reserved root (root.under names)) :
    (∃ key, containerId N root (root.under names) = .ok key ∧
      keyToPath root key = root.under names) ↔
      dotDot ∉ lexicalNormalize root ∧ ∀ name ∈ names, Composed N name := by
  rw [containerId_under N root hne]
  constructor
  · rintro ⟨key, hkey, hback⟩
    split at hkey
    · cases hkey
    · next hroot =>
      split at hkey
      · cases hkey
      · cases hkey
        rw [keyToPath_keyOf N root hne] at hback
        have hnames := under_inj hback
        refine ⟨hroot, fun name hmem => (keyName_eq_iff N).1 ?_⟩
        exact List.map_inj_left.1 (hnames.trans (List.map_id names).symm) name hmem
  · rintro ⟨hroot, hcomposed⟩
    have hnames : names.map (keyName N) = names := by
      rw [List.map_congr_left fun name hmem => (keyName_eq_iff N).2 (hcomposed name hmem),
        List.map_id']
    have hkey : keyOf N names ≠ filesetMapId := by
      intro h
      obtain ⟨name, rfl, hbytes⟩ := keyOf_reserved hne h
      rw [(keyName_eq_iff N).2 (hcomposed name List.mem_cons_self)] at hbytes
      exact hfree ⟨name, hbytes, rfl⟩
    refine ⟨keyOf N names, ?_, ?_⟩
    · rw [if_neg hroot, if_neg hkey]
    · rw [keyToPath_keyOf N root hne, hnames]

/-- The keys of a folder tell its files apart and lead back to them exactly if the root does not
lead out of itself and the names of the files are texts in composed form. -/
theorem oneToOne_iff (N : Normalizer) (root : Path) (entries : FolderListing) :
    OneToOne N root entries ↔ ∀ names, root.under names ∈ collectVaultFiles root entries →
        ¬ Reserved root (root.under names) →
          dotDot ∉ lexicalNormalize root ∧ ∀ name ∈ names, Composed N name := by
  constructor
  · intro h names hmem hfree
    obtain ⟨names', hne, hnames⟩ := mem_collectVaultFiles entries hmem
    obtain rfl := under_inj hnames
    exact (back_iff hne hfree).1 (h.back _ hmem hfree)
  · intro h
    have hback : ∀ f ∈ collectVaultFiles root entries, ¬ Reserved root f →
        ∃ key, containerId N root f = .ok key ∧ keyToPath root key = f := by
      intro f hmem hfree
      obtain ⟨names, hne, rfl⟩ := mem_collectVaultFiles entries hmem
      exact (back_iff hne hfree).2 (h names hmem hfree)
    refine ⟨fun f hf g hg hfreef hfreeg heq => ?_, hback⟩
    obtain ⟨key, hkey, hpath⟩ := hback f hf hfreef
    obtain ⟨key', hkey', hpath'⟩ := hback g hg hfreeg
    rw [hkey, hkey'] at heq
    cases heq
    exact hpath.symm.trans hpath'

section Sample

def composeAcute : Bytes → Bytes
  | 0x65 :: 0xCC :: 0x81 :: rest => 0xC3 :: 0xA9 :: composeAcute rest
  | b :: rest => b :: composeAcute rest
  | [] => []

theorem composeAcute_fold (hq : q.Good) (h : text.foldlM utf8Step q = some .start) :
    (composeAcute text).foldlM utf8Step q = some .start := by
  fun_induction composeAcute text generalizing q with
  | case1 rest ih =>
    by_cases howed : q.owed = 0
    · obtain rfl := hq.2 howed
      exact ih .start h
    · have hlow : ¬ (q.low ≤ 0x65 ∧ 0x65 ≤ q.high) :=
        fun hle => absurd (hq.1.trans hle.1) (by decide)
      rw [List.foldlM_cons, utf8Step, if_neg howed, if_neg hlow] at h
      cases h
  | case2 b rest _ ih =>
    rw [List.foldlM_cons] at h ⊢
    cases hstep : utf8Step q b with
    | none =>
      rw [hstep] at h
      cases h
    | some q' =>
      rw [hstep] at h
      exact ih (Utf8State.Good.step hstep) h
  | case3 => exact h

theorem composeAcute_around_slash (a b : Bytes) :
    composeAcute (a ++ slash :: b) = composeAcute a ++ slash :: composeAcute b := by
  fun_induction composeAcute a with
  | case1 rest ih =>
    rw [List.cons_append, List.cons_append, List.cons_append, composeAcute, ih]
    rfl
  | case2 c rest hne ih =>
    have hne' : ∀ rest', c = 0x65 → rest ++ slash :: b = 0xCC :: 0x81 :: rest' → False := by
      intro rest' hc hrest
      match rest, hrest with
      | [], hrest => cases hrest
      | [d], hrest => cases hrest
      | d :: e :: rest, hrest =>
        cases hrest
        exact hne rest hc rfl
    rw [List.cons_append, composeAcute.eq_2 _ _ hne', ih]
    rfl
  | case3 => rfl

theorem mem_composeAcute (h : c ∈ composeAcute text) : c ∈ text ∨ c = 0xC3 ∨ c = 0xA9 := by
  fun_induction composeAcute text with
  | case1 rest ih =>
    simp only [List.mem_cons] at h ⊢
    tauto
  | case2 b rest _ ih =>
    simp only [List.mem_cons] at h ⊢
    tauto
  | case3 => cases h

theorem composeAcute_dots (h : composeAcute text = List.replicate n 46) :
    text = List.replicate n 46 := by
  fun_induction composeAcute text generalizing n with
  | case1 rest ih =>
    cases n with
    | zero => cases h
    | succ n => cases h
  | case2 b rest _ ih =>
    cases n with
    | zero => cases h
    | succ n =>
      rw [List.replicate_succ, List.cons.injEq] at h
      rw [List.replicate_succ, h.1, ih h.2]
  | case3 => exact h

def acuteNormalizer : Normalizer where
  nfc := composeAcute
  valid text h := validUtf8_iff.2 (composeAcute_fold .start (validUtf8_iff.1 h))
  around_slash a b _ _ := composeAcute_around_slash a b
  no_slash text _ h hmem := by
    rcases mem_composeAcute hmem with hmem | hc | hc
    · exact h hmem
    · cases hc
    · cases hc
  dots text n _ h := composeAcute_dots h

def folderWith (name : FileName) : FolderListing := .cons name .file .nil

def vaultName : FileName := ⟨[0x76], by decide, by decide, by decide⟩

def vaultRoot : Path := ⟨.root, [.name vaultName]⟩

def vaultBeside : Path := ⟨.bare, [.parent, .name vaultName]⟩

def decomposed : FileName := ⟨[0x65, 0xCC, 0x81], by decide, by decide, by decide⟩

def composed : FileName := ⟨[0xC3, 0xA9], by decide, by decide, by decide⟩

def latinGrave : FileName := ⟨[0xE8], by decide, by decide, by decide⟩

def latinAcute : FileName := ⟨[0xE9], by decide, by decide, by decide⟩

theorem not_reserved (name : FileName) (h : name.bytes ≠ filesetMapId) (root : Path) :
    ¬ Reserved root (root.under [name]) := by
  rintro ⟨name', hbytes, hpath⟩
  cases under_inj hpath
  exact h hbytes

/-- A decomposed name leads back to the composed one, two names that are no texts share a key, and a
vault root that starts above the current directory has no keys at all. -/
theorem not_oneToOne : ¬ OneToOne acuteNormalizer vaultRoot (folderWith decomposed) ∧
      ¬ OneToOne acuteNormalizer vaultRoot (.cons latinGrave .file (folderWith latinAcute)) ∧
      ¬ OneToOne acuteNormalizer vaultBeside (folderWith composed) := by
  refine ⟨fun h => ?_, fun h => ?_, fun h => ?_⟩
  · have hfree := not_reserved decomposed (by decide +kernel) vaultRoot
    have hback := (back_iff (List.cons_ne_nil _ _) hfree).1
      (h.back (vaultRoot.under [decomposed]) (by decide +kernel) hfree)
    exact absurd (hback.2 decomposed List.mem_cons_self).2 (by decide +kernel)
  · have hsame := h.apart (vaultRoot.under [latinGrave]) (by decide +kernel)
      (vaultRoot.under [latinAcute]) (by decide +kernel) (not_reserved _ (by decide +kernel)
        vaultRoot)
      (not_reserved _ (by decide +kernel) vaultRoot) (by decide +kernel)
    exact absurd hsame (by decide)
  · have hfree := not_reserved composed (by decide +kernel) vaultBeside
    have hback := (back_iff (List.cons_ne_nil _ _) hfree).1
      (h.back (vaultBeside.under [composed]) (by decide +kernel) hfree)
    exact absurd hback.1 (by decide +kernel)

end Sample

end VaultPaths

end Roam
