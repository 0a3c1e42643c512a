import Mathlib.Data.Finset.Card
import Mathlib.Order.Interval.Finset.Nat

namespace Library
set_option autoImplicit true

section Count
variable {size len offset : Nat} {marked : Nat → Bool}

def covered (size len : Nat) (marked : Nat → Bool) : Finset Nat :=
  (Finset.range len).filter fun i => marked (i / size * size) = true

def mark (marked : Nat → Bool) (offset : Nat) : Nat → Bool := fun o => o == offset || marked o

theorem mem_covered : i ∈ covered size len marked ↔ i < len ∧ marked (i / size * size) = true := by
  rw [covered, Finset.mem_filter, Finset.mem_range]

theorem mark_iff : mark marked offset o = true ↔ o = offset ∨ marked o = true := by
  simp only [mark, Bool.or_eq_true, beq_iff_eq]

theorem covered_none (size len : Nat) : covered size len (fun _ => false) = ∅ := by
  apply Finset.filter_false_of_mem
  intro i _
  exact Bool.false_ne_true

theorem chunk_eq_iff (hsize : 0 < size) (ho : size ∣ offset) :
    i / size * size = offset ↔ offset ≤ i ∧ i < offset + size := by
  obtain ⟨k, rfl⟩ := ho
  rw [Nat.mul_comm size k, Nat.mul_left_inj hsize.ne', Nat.div_eq_iff hsize]
  omega

def markAll (marked : Nat → Bool) (offsets : List Nat) : Nat → Bool := offsets.foldl mark marked

theorem markAll_iff : markAll marked offsets o = true ↔ o ∈ offsets ∨ marked o = true := by
  induction offsets generalizing marked with
  | nil => exact (or_iff_right List.not_mem_nil).symm
  | cons offset offsets ih =>
    rw [markAll, List.foldl_cons, ← markAll, ih, mark_iff, List.mem_cons, or_left_comm, or_assoc]

theorem card_covered_mark (hsize : 0 < size) (ho : size ∣ offset) (hnew : marked offset = false) :
    (covered size len (mark marked offset)).card =
      (covered size len marked).card + min size (len - offset) := by
  have hsplit : covered size len (mark marked offset) =
      covered size len marked ∪ Finset.Ico offset (offset + min size (len - offset)) := by
    ext i
    rw [Finset.mem_union, mem_covered, mem_covered, mark_iff, chunk_eq_iff hsize ho,
      Finset.mem_Ico, and_or_left, or_comm]
    apply or_congr Iff.rfl
    omega
  have hdisj : Disjoint (covered size len marked)
      (Finset.Ico offset (offset + min size (len - offset))) := by
    rw [Finset.disjoint_left]
    intro i hi hico
    rw [mem_covered] at hi
    rw [Finset.mem_Ico] at hico
    have hchunk : i / size * size = offset := (chunk_eq_iff hsize ho).2 ⟨hico.1, by omega⟩
    rw [hchunk, hnew] at hi
    exact Bool.false_ne_true hi.2
  rw [hsplit, Finset.card_union_of_disjoint hdisj, Nat.card_Ico, Nat.add_sub_cancel_left]

theorem card_covered_le : (covered size len marked).card ≤ len :=
  (Finset.card_filter_le _ _).trans_eq (Finset.card_range len)

theorem le_card_covered_iff :
    len ≤ (covered size len marked).card ↔ ∀ o < len, size ∣ o → marked o = true := by
  have hfull : len ≤ (covered size len marked).card ↔
      ∀ i ∈ Finset.range len, marked (i / size * size) = true := by
    rw [← Finset.card_filter_eq_iff, Finset.card_range]
    exact ⟨card_covered_le.antisymm, ge_of_eq⟩
  rw [hfull]
  constructor
  · intro h o ho hdvd
    rw [← Nat.div_mul_cancel hdvd]
    exact h o (Finset.mem_range.2 ho)
  · intro h i hi
    exact h _ ((Nat.div_mul_le_self i size).trans_lt (Finset.mem_range.1 hi)) (Nat.dvd_mul_left _ _)

end Count

section Content
variable {α : Type} {size offset : Nat} {marked : Nat → Bool} {file text bytes : List α}

def overwrite (file : List α) (offset : Nat) (bytes : List α) : List α :=
  file.take offset ++ bytes ++ file.drop (offset + bytes.length)

theorem length_overwrite (h : offset + bytes.length ≤ file.length) :
    (overwrite file offset bytes).length = file.length := by
  simp only [overwrite, List.length_append, List.length_take, List.length_drop]
  omega

theorem getElem?_overwrite (h : offset + bytes.length ≤ file.length) (i : Nat) :
    (overwrite file offset bytes)[i]? =
      if offset ≤ i ∧ i < offset + bytes.length then bytes[i - offset]? else file[i]? := by
  have htake : (file.take offset).length = offset := List.length_take_of_le (by omega)
  rw [overwrite, List.append_assoc]
  by_cases hlow : i < offset
  · rw [List.getElem?_append_left (htake.symm ▸ hlow), List.getElem?_take_of_lt hlow, if_neg]
    omega
  · rw [List.getElem?_append_right (by omega), htake]
    by_cases hin : i - offset < bytes.length
    · rw [List.getElem?_append_left hin, if_pos]
      omega
    · rw [List.getElem?_append_right (by omega), List.getElem?_drop, if_neg (by omega)]
      congr 1
      omega

def AgreesOn (size : Nat) (marked : Nat → Bool) (file text : List α) : Prop :=
  file.length = text.length ∧
    ∀ i < text.length, marked (i / size * size) = true → file[i]? = text[i]?

def chunkAt (size : Nat) (text : List α) (offset : Nat) : List α := (text.drop offset).take size

theorem length_chunkAt (size : Nat) (text : List α) (offset : Nat) :
    (chunkAt size text offset).length = min size (text.length - offset) := by
  rw [chunkAt, List.length_take, List.length_drop]

theorem AgreesOn.write (hsize : 0 < size) (ho : size ∣ offset) (hle : offset ≤ text.length)
    (h : AgreesOn size marked file text) :
    AgreesOn size (mark marked offset) (overwrite file offset (chunkAt size text offset)) text := by
  have hlen := length_chunkAt size text offset
  have hfits : offset + (chunkAt size text offset).length ≤ file.length := by
    rw [hlen, h.1]
    omega
  apply And.intro ((length_overwrite hfits).trans h.1)
  intro i hi hmarked
  rw [getElem?_overwrite hfits]
  split
  next hin =>
    rw [chunkAt, List.getElem?_take_of_lt (by omega), List.getElem?_drop]
    congr 1
    omega
  next hout =>
    cases mark_iff.1 hmarked with
    | inl hchunk =>
      rw [chunk_eq_iff hsize ho] at hchunk
      omega
    | inr hmarked => exact h.2 i hi hmarked

theorem AgreesOn.eq (h : AgreesOn size marked file text)
    (hall : ∀ o < text.length, size ∣ o → marked o = true) : file = text := by
  apply List.ext_getElem?
  intro i
  by_cases hi : i < text.length
  · apply h.2 i hi
    exact hall _ ((Nat.div_mul_le_self i size).trans_lt hi) (Nat.dvd_mul_left _ _)
  · rw [not_lt] at hi
    rw [List.getElem?_eq_none hi, List.getElem?_eq_none (h.1.trans_le hi)]

end Content

end Library
