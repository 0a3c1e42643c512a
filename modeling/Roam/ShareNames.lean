import Roam.Library.FileTree
import Roam.Library.Outcome

namespace Roam.Share
set_option autoImplicit true
open Library

inductive NameError
  | empty
  | tooLong (max : Nat)
  | separator
  | dotSegment
  | controlCharacter
  | bidiOverride
  | trailingDotOrSpace
  | reservedDeviceName (stem : String)
  | absolute
  | noComponents
deriving DecidableEq

def maxNameBytes : Nat := 255

def reservedNames : List String :=
  ["CON", "PRN", "AUX", "NUL", "COM1", "COM2", "COM3", "COM4", "COM5", "COM6", "COM7", "COM8",
    "COM9", "LPT1", "LPT2", "LPT3", "LPT4", "LPT5", "LPT6", "LPT7", "LPT8", "LPT9"]

def isBidiOverride (c : Char) : Bool :=
  (0x202A ≤ c.val && c.val ≤ 0x202E) || (0x2066 ≤ c.val && c.val ≤ 0x2069) || c.val == 0x200F ||
    c.val == 0x200E

def isControl (c : Char) : Bool := c.val ≤ 0x1F || (0x7F ≤ c.val && c.val ≤ 0x9F)

def stem (raw : String) : String := String.ofList (raw.toList.takeWhile (· ≠ '.'))

def nameRefusal (raw : String) : Option NameError :=
  if raw = "" then some .empty
  else if raw.utf8ByteSize > maxNameBytes then some (.tooLong maxNameBytes)
  else if '/' ∈ raw.toList ∨ '\\' ∈ raw.toList then some .separator
  else if raw = "." ∨ raw = ".." then some .dotSegment
  else if raw.toList.any isControl then some .controlCharacter
  else if raw.toList.any isBidiOverride then some .bidiOverride
  else if raw.toList.getLast? = some '.' ∨ raw.toList.getLast? = some ' ' then
    some .trailingDotOrSpace
  else if reservedNames.any fun r => (stem raw).toList.map Char.toUpper = r.toList then
    some (.reservedDeviceName (stem raw))
  else none

structure SafeName where
  text : String
  safe : nameRefusal text = none
deriving DecidableEq

def SafeName.new (raw : String) : Except NameError SafeName :=
  match h : nameRefusal raw with
  | some e => .error e
  | none => .ok ⟨raw, h⟩

def driveLike (raw : String) : Bool :=
  match raw.toList with
  | first :: second :: _ => first.utf8Size == 1 && second == ':'
  | _ => false

def joinComponents (cs : List String) : String :=
  String.ofList (['/'].intercalate (cs.map String.toList))

structure RelPath where
  parts : List SafeName
  ne_nil : parts ≠ []
  relative : driveLike (joinComponents (parts.map SafeName.text)) = false
deriving DecidableEq

namespace RelPath

def components (path : RelPath) : List String := path.parts.map SafeName.text

def display (path : RelPath) : String := joinComponents path.components

end RelPath

theorem SafeName.new_ok (h : SafeName.new raw = .ok name) : name.text = raw := by
  unfold SafeName.new at h
  split at h
  · cases h
  · cases h
    rfl

theorem SafeName.new_text (name : SafeName) : SafeName.new name.text = .ok name := by
  unfold SafeName.new
  split
  · rename_i e h
    rw [name.safe] at h
    cases h
  · rfl

theorem joinComponents_splitPath (raw : String) : joinComponents (splitPath raw) = raw := by
  rw [joinComponents, splitPath, List.map_map]
  have hid : String.toList ∘ String.ofList = id := funext fun _ => String.toList_ofList
  rw [hid, List.map_id, List.intercalate_splitOn, String.ofList_toList]

theorem mapM_new_ok {pieces : List String} {parts : List SafeName}
    (h : pieces.mapM SafeName.new = .ok parts) : parts.map SafeName.text = pieces := by
  rw [mapM_ok_iff] at h
  induction h with
  | nil => rfl
  | cons hname _ ih => rw [List.map_cons, SafeName.new_ok hname, ih]

theorem mapM_new_text (parts : List SafeName) :
    (parts.map SafeName.text).mapM SafeName.new = .ok parts := by
  apply mapM_ok_iff.2
  apply List.forall₂_map_left_iff.2
  apply List.forall₂_same.2
  exact fun name _ => name.new_text

def RelPath.new (raw : String) : Except NameError RelPath :=
  if raw.toList.head? = some '/' ∨ raw.toList.head? = some '\\' then .error .absolute
  else if hdrive : driveLike raw = true then .error .absolute
  else
    match h : (splitPath raw).mapM SafeName.new with
    | .error e => .error e
    | .ok parts =>
      if hne : parts = [] then .error .noComponents
      else
        .ok {
          parts
          ne_nil := hne
          relative := by
            rw [mapM_new_ok h, joinComponents_splitPath]
            exact Bool.not_eq_true _ ▸ hdrive }

theorem refusal_none {raw : String} (h : nameRefusal raw = none) :
    raw ≠ "" ∧ '/' ∉ raw.toList ∧ '\\' ∉ raw.toList ∧ raw ≠ "." ∧ raw ≠ ".." := by
  unfold nameRefusal at h
  split at h
  · cases h
  · split at h
    · cases h
    · split at h
      · cases h
      · split at h
        · cases h
        · rename_i hempty _ hsep hdot
          push Not at hsep hdot
          exact ⟨hempty, hsep.1, hsep.2, hdot.1, hdot.2⟩

theorem SafeName.ne_empty (name : SafeName) : name.text.toList ≠ [] := by
  have h := (refusal_none name.safe).1
  intro hnil
  exact h (String.toList_eq_nil_iff.1 hnil)

theorem splitPath_joinComponents {cs : List String} (hne : cs ≠ [])
    (hcs : ∀ c ∈ cs, '/' ∉ c.toList) : splitPath (joinComponents cs) = cs := by
  rw [splitPath, joinComponents, String.toList_ofList, List.splitOn_intercalate]
  · rw [List.map_map]
    have hid : String.ofList ∘ String.toList = id := funext fun _ => String.ofList_toList
    rw [hid, List.map_id]
  · intro l hl
    obtain ⟨c, hc, rfl⟩ := List.mem_map.1 hl
    exact hcs c hc
  · rw [ne_eq, List.map_eq_nil_iff]
    exact hne

theorem joinComponents_cons {cs : List String} (hne : cs ≠ []) :
    (joinComponents (c :: cs)).toList = c.toList ++ '/' :: (joinComponents cs).toList := by
  obtain ⟨c', cs, rfl⟩ := List.exists_cons_of_ne_nil hne
  simp only [joinComponents, String.toList_ofList, List.map_cons]
  rw [List.intercalate_cons_cons, List.append_assoc, List.singleton_append]

theorem joinComponents_singleton (c : String) : joinComponents [c] = c := by
  rw [joinComponents, List.map_singleton, List.intercalate_singleton, String.ofList_toList]

theorem driveLike_cons (hc : c.toList ≠ []) (cs : List String) :
    driveLike (joinComponents (c :: cs)) = driveLike c := by
  by_cases hne : cs = []
  · subst hne
    rw [joinComponents_singleton]
  · rw [driveLike, joinComponents_cons hne, driveLike]
    obtain ⟨first, rest, hchars⟩ := List.exists_cons_of_ne_nil hc
    rw [hchars]
    cases rest with
    | nil => exact Bool.and_false _
    | cons second rest => rfl

namespace RelPath

theorem head?_joined (names : List SafeName) (hsep : ∀ name : SafeName, sep ∉ name.text.toList) :
    (joinComponents (names.map SafeName.text)).toList.head? ≠ some sep := by
  cases names with
  | nil => exact nofun
  | cons name names =>
    obtain ⟨first, rest, hchars⟩ := List.exists_cons_of_ne_nil name.ne_empty
    have hne : first ≠ sep := by
      rintro rfl
      apply hsep name
      rw [hchars]
      exact List.mem_cons_self
    by_cases hnil : names = []
    · subst hnil
      rw [List.map_singleton, joinComponents_singleton, hchars]
      exact fun h => hne (Option.some.inj h)
    · rw [List.map_cons, joinComponents_cons (List.map_eq_nil_iff.not.2 hnil), hchars]
      exact fun h => hne (Option.some.inj h)

theorem new_joined {names : List SafeName} (hne : names ≠ [])
    (h : driveLike (joinComponents (names.map SafeName.text)) = false) :
    RelPath.new (joinComponents (names.map SafeName.text)) = .ok ⟨names, hne, h⟩ := by
  have hslash := head?_joined names fun name => (refusal_none name.safe).2.1
  have hback := head?_joined names fun name => (refusal_none name.safe).2.2.1
  have hsplit : splitPath (joinComponents (names.map SafeName.text)) = names.map SafeName.text := by
    apply splitPath_joinComponents (List.map_eq_nil_iff.not.2 hne)
    intro c hc
    obtain ⟨name, _, rfl⟩ := List.mem_map.1 hc
    exact (refusal_none name.safe).2.1
  have hnames : (splitPath (joinComponents (names.map SafeName.text))).mapM SafeName.new =
      .ok names := by
    rw [hsplit, mapM_new_text]
  unfold RelPath.new
  rw [if_neg (not_or.2 ⟨hslash, hback⟩), dif_neg (Bool.not_eq_true _ ▸ h)]
  split
  · rename_i e herror
    cases hnames.symm.trans herror
  · rename_i parts hparts
    cases hnames.symm.trans hparts
    rw [dif_neg hne]

theorem new_driveLike (h : driveLike raw = true) : RelPath.new raw = .error .absolute := by
  unfold RelPath.new
  split
  · rfl
  · rfl

end RelPath

end Roam.Share
