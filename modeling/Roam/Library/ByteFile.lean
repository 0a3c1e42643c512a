import Roam.Library.Chunks

namespace Library
set_option autoImplicit true

section
variable {α : Type} (zero : α)

def resize (file : List α) (n : Nat) : List α :=
  file.take n ++ List.replicate (n - file.length) zero

def writeAt (file : List α) (start : Nat) (bytes : List α) : List α :=
  overwrite (if start + bytes.length > file.length then resize zero file (start + bytes.length)
    else file) start bytes

def readAt (file : List α) (start n : Nat) : List α := (file.drop start).take n

end

section
variable {α : Type} {zero : α} {file bytes : List α}

theorem length_resize (n : Nat) : (resize zero file n).length = n := by
  rw [resize, List.length_append, List.length_take, List.length_replicate]
  omega

theorem getElem?_resize (n i : Nat) :
    (resize zero file n)[i]? = if i < n then some (file[i]?.getD zero) else none := by
  split
  next hlt =>
    rw [resize]
    by_cases hi : i < file.length
    · rw [List.getElem?_append_left (by rw [List.length_take]; omega), List.getElem?_take_of_lt hlt,
        List.getElem?_eq_getElem hi, Option.getD_some]
    · rw [List.getElem?_append_right (by rw [List.length_take]; omega), List.getElem?_replicate,
        List.length_take, if_pos (by omega), List.getElem?_eq_none (by omega), Option.getD_none]
  next hge => exact List.getElem?_eq_none ((length_resize n).trans_le (not_lt.1 hge))

theorem getElem?_writeAt (start i : Nat) :
    (writeAt zero file start bytes)[i]? =
      if i < start then some (file[i]?.getD zero)
      else if i < start + bytes.length then bytes[i - start]? else file[i]? := by
  rw [writeAt]
  split
  next hgrow =>
    rw [getElem?_overwrite (length_resize _).ge, getElem?_resize]
    by_cases hstart : i < start
    · rw [if_neg (by omega), if_pos (by omega), if_pos hstart]
    · rw [if_neg hstart]
      by_cases hend : i < start + bytes.length
      · rw [if_pos (by omega), if_pos hend]
      · rw [if_neg (by omega), if_neg hend, if_neg hend, List.getElem?_eq_none (by omega)]
  next hfits =>
    rw [getElem?_overwrite (by omega)]
    by_cases hstart : i < start
    · rw [if_neg (by omega), if_pos hstart, List.getElem?_eq_getElem (by omega), Option.getD_some]
    · rw [if_neg hstart]
      by_cases hend : i < start + bytes.length
      · rw [if_pos (by omega), if_pos hend]
      · rw [if_neg (by omega), if_neg hend]

theorem drop_resize (header n : Nat) :
    (resize zero file (header + n)).drop header = resize zero (file.drop header) n := by
  apply List.ext_getElem?
  intro i
  rw [List.getElem?_drop, getElem?_resize, getElem?_resize, List.getElem?_drop]
  simp only [Nat.add_lt_add_iff_left]

theorem take_resize (header n : Nat) :
    (resize zero file (header + n)).take header = resize zero file header := by
  apply List.ext_getElem?
  intro i
  rw [List.getElem?_take, getElem?_resize, getElem?_resize]
  split
  next hi => rw [if_pos (by omega)]
  next => rfl

theorem drop_writeAt (header start : Nat) :
    (writeAt zero file (header + start) bytes).drop header =
      writeAt zero (file.drop header) start bytes := by
  apply List.ext_getElem?
  intro i
  rw [List.getElem?_drop, getElem?_writeAt, getElem?_writeAt, List.getElem?_drop]
  simp only [Nat.add_assoc, Nat.add_lt_add_iff_left, Nat.add_sub_add_left]

theorem take_writeAt (header start : Nat) :
    (writeAt zero file (header + start) bytes).take header = resize zero file header := by
  apply List.ext_getElem?
  intro i
  rw [List.getElem?_take, getElem?_writeAt, getElem?_resize]
  split
  next hi => rw [if_pos (by omega)]
  next => rfl

theorem take_writeAt_zero : (writeAt zero file 0 bytes).take bytes.length = bytes := by
  apply List.ext_getElem?
  intro i
  rw [List.getElem?_take, getElem?_writeAt]
  split
  next hi => rw [if_neg (by omega), if_pos (by omega), Nat.sub_zero]
  next hi => rw [List.getElem?_eq_none (not_lt.1 hi)]

theorem drop_writeAt_zero :
    (writeAt zero file 0 bytes).drop bytes.length = file.drop bytes.length := by
  apply List.ext_getElem?
  intro i
  rw [List.getElem?_drop, List.getElem?_drop, getElem?_writeAt, if_neg (by omega),
    if_neg (by omega)]

theorem writeAt_end : writeAt zero file file.length bytes = file ++ bytes := by
  apply List.ext_getElem?
  intro i
  rw [getElem?_writeAt]
  by_cases hi : i < file.length
  · rw [if_pos hi, List.getElem?_append_left hi, List.getElem?_eq_getElem hi, Option.getD_some]
  · rw [if_neg hi, List.getElem?_append_right (not_lt.1 hi)]
    split
    next => rfl
    next hend => rw [List.getElem?_eq_none (by omega), List.getElem?_eq_none (by omega)]

theorem writeAt_nil : writeAt zero [] 0 bytes = bytes := writeAt_end

theorem resize_zero : resize zero file 0 = [] := List.length_eq_zero_iff.1 (length_resize 0)

theorem resize_nil (n : Nat) : resize zero [] n = List.replicate n zero := by
  rw [resize, List.take_nil, List.nil_append, List.length_nil, Nat.sub_zero]

end

end Library
