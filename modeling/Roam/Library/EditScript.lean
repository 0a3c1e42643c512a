import Mathlib.Data.List.Range
import Mathlib.Data.List.Flatten

namespace Library
set_option autoImplicit true

inductive Edit (α : Type)
  | keep (a : α)
  | delete (a : α)
  | insert (a : α)
deriving DecidableEq

section
variable {α : Type}

def oldText : List (Edit α) → List α
  | [] => []
  | .insert _ :: s => oldText s
  | .keep a :: s | .delete a :: s => a :: oldText s

def newText : List (Edit α) → List α
  | [] => []
  | .delete _ :: s => newText s
  | .keep a :: s | .insert a :: s => a :: newText s

/-- What is inserted at a boundary of the old text: after so many of its elements. -/
def inserted : List (Edit α) → Nat → List α
  | [], _ => []
  | .insert a :: s, 0 => a :: inserted s 0
  | .insert _ :: s, i + 1 => inserted s (i + 1)
  | .keep _ :: _, 0 | .delete _ :: _, 0 => []
  | .keep _ :: s, i + 1 | .delete _ :: s, i + 1 => inserted s i

def deletes : List (Edit α) → Nat → Bool
  | [], _ => false
  | .insert _ :: s, i => deletes s i
  | .keep _ :: _, 0 => false
  | .delete _ :: _, 0 => true
  | .keep _ :: s, i + 1 | .delete _ :: s, i + 1 => deletes s i

/-- Where a boundary of the old text lies in the new one: behind what is inserted there. -/
def place : List (Edit α) → Nat → Nat
  | [], _ => 0
  | .insert _ :: s, i => place s i + 1
  | .keep _ :: _, 0 | .delete _ :: _, 0 => 0
  | .keep _ :: s, i + 1 => place s i + 1
  | .delete _ :: s, i + 1 => place s i

def kept (s : List (Edit α)) (i : Nat) : List α :=
  bif deletes s i then [] else (oldText s)[i]?.toList

/-- Two scripts on one old text, woven together boundary by boundary. -/
def interleave (old : List α) (mine theirs : List (Edit α)) : List α :=
  (List.range (old.length + 1)).flatMap fun i =>
    inserted theirs i ++ inserted mine i ++
      bif deletes mine i || deletes theirs i then [] else old[i]?.toList

section Texts

theorem oldText_append (s t : List (Edit α)) : oldText (s ++ t) = oldText s ++ oldText t := by
  induction s with
  | nil => rfl
  | cons e s ih =>
    cases e with
    | insert a | keep a | delete a => simp only [List.cons_append, oldText, ih]

theorem newText_append (s t : List (Edit α)) : newText (s ++ t) = newText s ++ newText t := by
  induction s with
  | nil => rfl
  | cons e s ih =>
    cases e with
    | insert a | keep a | delete a => simp only [List.cons_append, newText, ih]

end Texts

section Place
variable {s : List (Edit α)}

theorem place_zero (s : List (Edit α)) : place s 0 = (inserted s 0).length := by
  induction s with
  | nil => rfl
  | cons e s ih =>
    cases e with
    | insert a => simp only [place, inserted, ih, List.length_cons]
    | keep a | delete a => rfl

theorem newText_take_place_zero (s : List (Edit α)) :
    newText s = inserted s 0 ++ (newText s).drop (place s 0) := by
  induction s with
  | nil => rfl
  | cons e s ih =>
    cases e with
    | insert a =>
      simp only [newText, inserted, place, List.cons_append, List.drop_succ_cons]
      rw [← ih]
    | keep a | delete a => rfl

theorem place_end (h : (oldText s).length ≤ i) : place s i = (newText s).length := by
  induction s generalizing i with
  | nil => rfl
  | cons e s ih =>
    cases e with
    | insert a => simp only [place, newText, List.length_cons, ih h]
    | keep a | delete a =>
      cases i with
      | zero => cases h
      | succ i => simp only [place, newText, List.length_cons, ih (Nat.le_of_succ_le_succ h)]

theorem newText_drop_place (h : i < (oldText s).length) : (newText s).drop (place s i) =
      kept s i ++ inserted s (i + 1) ++ (newText s).drop (place s (i + 1)) := by
  induction s generalizing i with
  | nil => cases h
  | cons e s ih =>
    cases e with
    | insert a =>
      simp only [newText, place, inserted, List.drop_succ_cons]
      exact ih h
    | keep a =>
      cases i with
      | zero =>
        simp only [newText, place, inserted, kept, deletes, oldText, List.drop_succ_cons,
          cond_false, List.getElem?_cons_zero, Option.toList_some,
          List.drop_zero, List.cons_append, List.nil_append]
        rw [← newText_take_place_zero]
      | succ i =>
        simp only [newText, place, inserted, List.drop_succ_cons]
        exact ih (Nat.lt_of_succ_lt_succ h)
    | delete a =>
      cases i with
      | zero =>
        simp only [newText, place, inserted, kept, deletes, cond_true, List.drop_zero,
          List.nil_append]
        exact newText_take_place_zero s
      | succ i =>
        simp only [newText, place, inserted]
        exact ih (Nat.lt_of_succ_lt_succ h)

theorem place_succ (h : i < (oldText s).length) :
    place s (i + 1) = place s i + (kept s i).length + (inserted s (i + 1)).length := by
  induction s generalizing i with
  | nil => cases h
  | cons e s ih =>
    cases e with
    | insert a =>
      have hrest := ih h
      simp only [place, inserted, kept, deletes, oldText] at hrest ⊢
      omega
    | keep a =>
      cases i with
      | zero =>
        simp only [place, inserted, kept, deletes, oldText, cond_false,
          List.getElem?_cons_zero, Option.toList_some, List.length_singleton, place_zero]
        omega
      | succ i =>
        have hrest := ih (Nat.lt_of_succ_lt_succ h)
        simp only [place, inserted, kept, deletes, oldText, List.getElem?_cons_succ] at hrest ⊢
        omega
    | delete a =>
      cases i with
      | zero =>
        simp only [place, inserted, kept, deletes, cond_true, List.length_nil, place_zero]
        omega
      | succ i => exact ih (Nat.lt_of_succ_lt_succ h)

end Place

section Weave

/-- Replay a script on the new text of another one, from a boundary on. -/
def weave (theirs : List (Edit α)) : List (Edit α) → Nat → List α
  | [], _ => []
  | .insert a :: s, i => a :: weave theirs s i
  | .keep a :: s, i =>
    (bif deletes theirs i then [] else [a]) ++ inserted theirs (i + 1) ++ weave theirs s (i + 1)
  | .delete _ :: s, i => inserted theirs (i + 1) ++ weave theirs s (i + 1)

theorem weave_eq (theirs s : List (Edit α)) (p : Nat) : weave theirs s p =
      inserted s 0 ++ (List.range (oldText s).length).flatMap fun j =>
        (bif deletes s j || deletes theirs (p + j) then [] else (oldText s)[j]?.toList) ++
          inserted theirs (p + j + 1) ++ inserted s (j + 1) := by
  induction s generalizing p with
  | nil => rfl
  | cons e s ih =>
    cases e with
    | insert a => simp only [weave, inserted, deletes, oldText, ih, List.cons_append]
    | keep a =>
      rw [weave, ih, oldText, List.length_cons, List.range_succ_eq_map, List.flatMap_cons,
        List.flatMap_map]
      simp only [inserted, deletes, Bool.false_or, Nat.add_zero, List.getElem?_cons_zero,
        Option.toList_some, List.getElem?_cons_succ, List.nil_append, List.append_assoc,
        Nat.add_succ, Nat.succ_add]
    | delete a =>
      rw [weave, ih, oldText, List.length_cons, List.range_succ_eq_map, List.flatMap_cons,
        List.flatMap_map]
      simp only [inserted, deletes, Bool.true_or, cond_true, Nat.add_zero,
        List.getElem?_cons_succ, List.nil_append, List.append_assoc, Nat.add_succ, Nat.succ_add]

theorem flatMap_range_rotate (n : Nat) (f k : Nat → List α) :
    (List.range (n + 1)).flatMap (fun i => f i ++ k i) =
      f 0 ++ (List.range n).flatMap (fun j => k j ++ f (j + 1)) ++ k n := by
  induction n with
  | zero => simp only [List.range_succ, List.range_zero, List.nil_append, List.flatMap_singleton,
      List.flatMap_nil, List.append_nil]
  | succ n ih =>
    rw [List.range_succ, List.flatMap_append, ih, List.range_succ, List.flatMap_append,
      List.flatMap_singleton, List.flatMap_singleton]
    simp only [List.append_assoc]

theorem interleave_eq_weave (mine theirs : List (Edit α)) :
    interleave (oldText mine) mine theirs = inserted theirs 0 ++ weave theirs mine 0 := by
  have hend : (oldText mine)[(oldText mine).length]? = none := List.getElem?_eq_none (Nat.le_refl _)
  rw [interleave, flatMap_range_rotate, weave_eq, hend]
  simp only [Option.toList_none, Bool.cond_self, List.append_nil, Nat.zero_add, List.append_assoc]

end Weave

section Append

theorem deletes_of_length_le {s : List (Edit α)} (h : (oldText s).length ≤ i) :
    deletes s i = false := by
  induction s generalizing i with
  | nil => rfl
  | cons e s ih =>
    cases e with
    | insert a => exact ih h
    | keep a | delete a =>
      cases i with
      | zero => cases h
      | succ i => exact ih (Nat.le_of_succ_le_succ h)

theorem deletes_append (s t : List (Edit α)) (i : Nat) : deletes (s ++ t) i =
      if i < (oldText s).length then deletes s i else deletes t (i - (oldText s).length) := by
  induction s generalizing i with
  | nil => rfl
  | cons e s ih =>
    cases e with
    | insert a => exact ih i
    | keep a | delete a =>
      cases i with
      | zero => rfl
      | succ i => simp only [List.cons_append, deletes, oldText, List.length_cons, ih,
          Nat.add_lt_add_iff_right, Nat.add_sub_add_right]

theorem inserted_append (s t : List (Edit α)) (i : Nat) : inserted (s ++ t) i =
      inserted s i ++ if (oldText s).length ≤ i then inserted t (i - (oldText s).length)
        else [] := by
  induction s generalizing i with
  | nil => rfl
  | cons e s ih =>
    cases e with
    | insert a =>
      cases i with
      | zero => exact congrArg (a :: ·) (ih 0)
      | succ i => exact ih (i + 1)
    | keep a | delete a =>
      cases i with
      | zero => rfl
      | succ i => simp only [List.cons_append, inserted, oldText, List.length_cons, ih,
          Nat.add_le_add_iff_right, Nat.add_sub_add_right]

theorem deletes_run (old : List α) (i : Nat) :
    deletes (old.map .delete) i = decide (i < old.length) := by
  induction old generalizing i with
  | nil => rfl
  | cons a old ih =>
    cases i with
    | zero => rfl
    | succ i => simp only [List.map_cons, deletes, ih, List.length_cons, Nat.add_lt_add_iff_right]

theorem inserted_run (old : List α) (i : Nat) : inserted (old.map .delete) i = [] := by
  induction old generalizing i with
  | nil => rfl
  | cons a old ih =>
    cases i with
    | zero => rfl
    | succ i => exact ih i

theorem deletes_inserts (new : List α) (i : Nat) : deletes (new.map .insert) i = false := by
  induction new with
  | nil => rfl
  | cons a new ih => exact ih

theorem inserted_inserts (new : List α) (i : Nat) :
    inserted (new.map .insert) i = if i = 0 then new else [] := by
  induction new with
  | nil => split <;> rfl
  | cons a new ih =>
    cases i with
    | zero => exact congrArg (a :: ·) ih
    | succ i => exact ih

end Append

section Keeps

theorem inserted_keeps (old : List α) (i : Nat) : inserted (old.map .keep) i = [] := by
  induction old generalizing i with
  | nil => rfl
  | cons a old ih =>
    cases i with
    | zero => rfl
    | succ i => exact ih i

theorem deletes_keeps (old : List α) (i : Nat) : deletes (old.map .keep) i = false := by
  induction old generalizing i with
  | nil => rfl
  | cons a old ih =>
    cases i with
    | zero => rfl
    | succ i => exact ih i

theorem interleave_keeps_right (mine : List (Edit α)) (old : List α) :
    interleave (oldText mine) mine (old.map .keep) = newText mine := by
  have hweave (s : List (Edit α)) (p : Nat) : weave (old.map .keep) s p = newText s := by
    induction s generalizing p with
    | nil => rfl
    | cons e s ih =>
      cases e with
      | insert a | keep a | delete a =>
        simp only [weave, newText, inserted_keeps, deletes_keeps, cond_false, List.nil_append,
          List.append_nil, List.singleton_append, ih]
  rw [interleave_eq_weave, inserted_keeps, hweave, List.nil_append]

theorem oldText_keeps (old : List α) : oldText (old.map .keep) = old := by
  induction old with
  | nil => rfl
  | cons a old ih => rw [List.map_cons, oldText, ih]

theorem interleave_keeps_left (theirs : List (Edit α)) :
    interleave (oldText theirs) ((oldText theirs).map .keep) theirs = newText theirs := by
  have hweave (p : Nat) (rest : List α) (h : (oldText theirs).drop p = rest) :
      weave theirs (rest.map .keep) p = (newText theirs).drop (place theirs p) := by
    induction rest generalizing p with
    | nil =>
      rw [place_end (List.drop_eq_nil_iff.1 h), List.drop_length]
      rfl
    | cons a rest ih =>
      have hlt : p < (oldText theirs).length := by
        rw [← not_le, ← List.drop_eq_nil_iff, h]
        exact List.cons_ne_nil a rest
      rw [List.drop_eq_getElem_cons hlt, List.cons.injEq] at h
      rw [List.map_cons, weave, ih (p + 1) h.2, newText_drop_place hlt, kept,
        List.getElem?_eq_getElem hlt, h.1, Option.toList_some]
  have hweave := hweave 0 (oldText theirs) rfl
  have heq := interleave_eq_weave ((oldText theirs).map .keep) theirs
  rw [oldText_keeps] at heq
  rw [heq, hweave, ← newText_take_place_zero]

end Keeps

section Insertions

def insertions : List (Edit α) → List α
  | [] => []
  | .insert a :: s => a :: insertions s
  | .keep _ :: s | .delete _ :: s => insertions s

theorem insertions_eq (s : List (Edit α)) :
    insertions s = (List.range ((oldText s).length + 1)).flatMap (inserted s) := by
  induction s with
  | nil => rfl
  | cons e s ih =>
    cases e with
    | insert a =>
      rw [List.range_succ_eq_map, List.flatMap_cons, List.flatMap_map] at ih
      rw [oldText, List.range_succ_eq_map, List.flatMap_cons, List.flatMap_map, insertions, ih]
      rfl
    | keep a | delete a =>
      rw [oldText, List.length_cons, List.range_succ_eq_map, List.flatMap_cons, List.flatMap_map]
      exact ih

theorem insertions_sublist_newText (s : List (Edit α)) : (insertions s).Sublist (newText s) := by
  induction s with
  | nil => exact List.Sublist.refl []
  | cons e s ih =>
    cases e with
    | insert a => exact ih.cons_cons a
    | keep a => exact ih.cons a
    | delete a => exact ih

theorem insertions_sublist_interleave (mine theirs : List (Edit α)) :
    (insertions theirs).Sublist (interleave (oldText theirs) mine theirs) := by
  rw [insertions_eq, interleave]
  apply List.Sublist.flatMap_right
  intro i _
  rw [List.append_assoc]
  exact List.sublist_append_left _ _

theorem insertions_keeps (old : List α) : insertions (old.map .keep) = [] := by
  induction old with
  | nil => rfl
  | cons a old ih => exact ih

end Insertions

end

end Library
