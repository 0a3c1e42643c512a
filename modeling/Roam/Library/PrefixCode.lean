import Mathlib

namespace Library
set_option autoImplicit true

/-- A printable byte that is no brace. -/
def IsPlain (b : UInt8) : Prop := 0x2C ≤ b ∧ b < 0x70

/-- A code of plain bytes that a reader can take off the front of a text, and that decodes what
it encodes and nothing else. -/
structure PrefixCode (α : Type) where
  encode : α → List UInt8
  decode : List UInt8 → Option (α × List UInt8)
  plain : ∀ a, ∀ b ∈ encode a, IsPlain b
  decode_iff : ∀ bytes a rest, decode bytes = some (a, rest) ↔ bytes = encode a ++ rest

section Digits

def digits : Nat → Nat → List UInt8
  | 0, _ => []
  | k + 1, n => UInt8.ofNat (0x30 + n % 64) :: digits k (n / 64)

def undigits : Nat → List UInt8 → Option (Nat × List UInt8)
  | 0, bytes => some (0, bytes)
  | _ + 1, [] => none
  | k + 1, b :: bytes =>
    if 0x30 ≤ b ∧ b < 0x70 then
      (undigits k bytes).map fun p => (b.toNat - 0x30 + 64 * p.1, p.2)
    else none

theorem toNat_digit (n : Nat) : (UInt8.ofNat (0x30 + n % 64)).toNat = 0x30 + n % 64 := by
  rw [UInt8.toNat_ofNat']
  omega

theorem digit_range (n : Nat) :
    0x30 ≤ UInt8.ofNat (0x30 + n % 64) ∧ UInt8.ofNat (0x30 + n % 64) < 0x70 := by
  rw [UInt8.le_iff_toNat_le, UInt8.lt_iff_toNat_lt, toNat_digit]
  exact ⟨Nat.le_add_right _ _, by change _ < 0x70; omega⟩

theorem digits_plain (h : b ∈ digits k n) : IsPlain b := by
  induction k generalizing n with
  | zero => cases h
  | succ k ih =>
    cases h with
    | head =>
      obtain ⟨hl, hu⟩ := digit_range n
      rw [UInt8.le_iff_toNat_le] at hl
      exact ⟨UInt8.le_iff_toNat_le.2 (Nat.le_trans (by decide) hl), hu⟩
    | tail _ h => exact ih h

theorem undigits_digits (hn : n < 64 ^ k) : undigits k (digits k n ++ rest) = some (n, rest) := by
  induction k generalizing n with
  | zero =>
    obtain rfl : n = 0 := Nat.lt_one_iff.1 hn
    rfl
  | succ k ih =>
    rw [digits, List.cons_append, undigits, if_pos (digit_range n),
      ih (Nat.div_lt_of_lt_mul (by rwa [Nat.pow_succ'] at hn)), Option.map_some, toNat_digit,
      Nat.add_sub_cancel_left, Nat.mod_add_div]

theorem undigits_inv (h : undigits k bytes = some (n, rest)) :
    n < 64 ^ k ∧ bytes = digits k n ++ rest := by
  induction k generalizing bytes n with
  | zero =>
    cases h
    exact ⟨Nat.one_pos, rfl⟩
  | succ k ih =>
    cases bytes with
    | nil => cases h
    | cons b bytes =>
      rw [undigits] at h
      split at h
      next hb =>
        obtain ⟨⟨m, r⟩, hu, heq⟩ := Option.map_eq_some_iff.1 h
        cases heq
        obtain ⟨hm, rfl⟩ := ih hu
        rw [UInt8.le_iff_toNat_le, UInt8.lt_iff_toNat_lt] at hb
        have hl : 0x30 ≤ b.toNat := hb.1
        have hu : b.toNat < 0x70 := hb.2
        have hmod : (b.toNat - 0x30 + 64 * m) % 64 = b.toNat - 0x30 := by omega
        have hdiv : (b.toNat - 0x30 + 64 * m) / 64 = m := by omega
        have hpow : 64 ^ (k + 1) = 64 * 64 ^ k := Nat.pow_succ'
        refine ⟨by omega, ?_⟩
        rw [digits, hmod, hdiv, Nat.add_sub_cancel' hl, UInt8.ofNat_toNat, List.cons_append]
      next => cases h

theorem undigits_iff : undigits k bytes = some (n, rest) ↔
    n < 64 ^ k ∧ bytes = digits k n ++ rest := by
  constructor
  · exact undigits_inv
  · intro h
    rw [h.2, undigits_digits h.1]

end Digits

namespace PrefixCode

theorem decode_encode (c : PrefixCode α) (a : α) (rest : List UInt8) :
    c.decode (c.encode a ++ rest) = some (a, rest) :=
  (c.decode_iff _ a rest).2 rfl

def ofNat (k : Nat) (toNat : α → Nat) (fromNat : Nat → Option α) (hlt : ∀ a, toNat a < 64 ^ k)
    (hfrom : ∀ n a, fromNat n = some a ↔ toNat a = n) : PrefixCode α where
  encode a := digits k (toNat a)
  decode bytes := (undigits k bytes).bind fun p => (fromNat p.1).map fun a => (a, p.2)
  plain _ _ h := digits_plain h
  decode_iff := by
    intro bytes a rest
    simp only [Option.bind_eq_some_iff, Option.map_eq_some_iff, Prod.mk.injEq, Prod.exists,
      undigits_iff, hfrom]
    constructor
    · intro h
      obtain ⟨n, r, ⟨_, rfl⟩, a', rfl, rfl, rfl⟩ := h
      rfl
    · intro h
      exact ⟨toNat a, rest, ⟨hlt a, h⟩, a, rfl, rfl, rfl⟩

def pair (c : PrefixCode α) (d : PrefixCode β) : PrefixCode (α × β) where
  encode p := c.encode p.1 ++ d.encode p.2
  decode bytes := (c.decode bytes).bind fun p => (d.decode p.2).map fun q => ((p.1, q.1), q.2)
  plain p b h := (List.mem_append.1 h).elim (c.plain p.1 b) (d.plain p.2 b)
  decode_iff := by
    intro bytes p rest
    obtain ⟨a, b⟩ := p
    simp only [Option.bind_eq_some_iff, Option.map_eq_some_iff, Prod.mk.injEq, Prod.exists,
      c.decode_iff, d.decode_iff]
    constructor
    · intro h
      obtain ⟨a', r, rfl, b', r', rfl, ⟨rfl, rfl⟩, rfl⟩ := h
      rw [List.append_assoc]
    · intro h
      exact ⟨a, _, by rw [h, List.append_assoc], b, rest, rfl, ⟨rfl, rfl⟩, rfl⟩

def sum (c : PrefixCode α) (d : PrefixCode β) : PrefixCode (α ⊕ β) where
  encode
    | .inl a => 0x2C :: c.encode a
    | .inr b => 0x2E :: d.encode b
  decode
    | [] => none
    | tag :: bytes =>
      if tag = 0x2C then (c.decode bytes).map fun p => (.inl p.1, p.2)
      else if tag = 0x2E then (d.decode bytes).map fun p => (.inr p.1, p.2)
      else none
  plain := by
    intro x b h
    cases x with
    | inl a =>
      cases h with
      | head => exact ⟨by decide, by decide⟩
      | tail _ h => exact c.plain a b h
    | inr a =>
      cases h with
      | head => exact ⟨by decide, by decide⟩
      | tail _ h => exact d.plain a b h
  decode_iff := by
    intro bytes x rest
    cases bytes with
    | nil => cases x <;> simp only [reduceCtorEq, List.cons_append]
    | cons tag bytes =>
      by_cases hl : tag = 0x2C
      · subst hl
        cases x <;> simp [c.decode_iff]
      · by_cases hr : tag = 0x2E
        · subst hr
          cases x <;> simp [d.decode_iff]
        · cases x <;> simp [hl, hr]

def via (c : PrefixCode β) (e : α ≃ β) : PrefixCode α where
  encode a := c.encode (e a)
  decode bytes := (c.decode bytes).map fun p => (e.symm p.1, p.2)
  plain a := c.plain (e a)
  decode_iff := by
    intro bytes a rest
    simp only [Option.map_eq_some_iff, Prod.mk.injEq, Prod.exists, c.decode_iff]
    constructor
    · intro h
      obtain ⟨b, r, rfl, rfl, rfl⟩ := h
      rw [e.apply_symm_apply]
    · intro h
      exact ⟨e a, rest, h, e.symm_apply_apply a, rfl⟩

section Sequence
variable (c : PrefixCode α)

def encodeList : List α → List UInt8
  | [] => [0x2E]
  | a :: as => 0x2C :: (c.encode a ++ encodeList as)

def decodeList : Nat → List UInt8 → Option (List α × List UInt8)
  | fuel + 1, b :: bytes =>
    if b = 0x2E then some ([], bytes)
    else if b = 0x2C then
      (c.decode bytes).bind fun p => (decodeList fuel p.2).map fun q => (p.1 :: q.1, q.2)
    else none
  | _, _ => none

theorem length_lt_encodeList (as : List α) : as.length < (c.encodeList as).length := by
  induction as with
  | nil => exact Nat.one_pos
  | cons a as ih =>
    rw [encodeList, List.length_cons, List.length_cons, List.length_append]
    omega

theorem decodeList_encodeList (h : as.length < fuel) :
    c.decodeList fuel (c.encodeList as ++ rest) = some (as, rest) := by
  induction as generalizing fuel with
  | nil =>
    cases fuel with
    | zero => cases h
    | succ fuel => rfl
  | cons a as ih =>
    cases fuel with
    | zero => cases h
    | succ fuel =>
      rw [encodeList, List.cons_append, List.append_assoc, decodeList, if_neg (by decide),
        if_pos rfl, c.decode_encode, Option.bind_some, ih (Nat.lt_of_succ_lt_succ h),
        Option.map_some]

theorem decodeList_inv (h : c.decodeList fuel bytes = some (as, rest)) :
    bytes = c.encodeList as ++ rest := by
  induction fuel generalizing bytes as with
  | zero => cases h
  | succ fuel ih =>
    cases bytes with
    | nil => cases h
    | cons b bytes =>
      rw [decodeList] at h
      split at h
      next hb =>
        cases h
        rw [hb]
        rfl
      next =>
        split at h
        next hb =>
          obtain ⟨⟨a, r⟩, hd, h⟩ := Option.bind_eq_some_iff.1 h
          obtain ⟨⟨as', r'⟩, hl, heq⟩ := Option.map_eq_some_iff.1 h
          cases heq
          have hd := (c.decode_iff _ _ _).1 hd
          have hl := ih hl
          simp only at hl
          rw [hb, hd, hl, encodeList, List.cons_append, List.append_assoc]
        next => cases h

def list : PrefixCode (List α) where
  encode := c.encodeList
  decode bytes := c.decodeList bytes.length bytes
  plain := by
    intro as
    induction as with
    | nil =>
      intro b h
      rw [List.mem_singleton.1 h]
      exact ⟨by decide, by decide⟩
    | cons a as ih =>
      intro b h
      cases h with
      | head => exact ⟨by decide, by decide⟩
      | tail _ h => exact (List.mem_append.1 h).elim (c.plain a b) (ih b)
  decode_iff := by
    intro bytes as rest
    constructor
    · exact c.decodeList_inv
    · intro h
      rw [h]
      apply c.decodeList_encodeList
      have hlt := c.length_lt_encodeList as
      rw [List.length_append]
      omega

end Sequence

section Types

def uint64 : PrefixCode UInt64 :=
  ofNat 11 UInt64.toNat (fun n => if n < 2 ^ 64 then some (UInt64.ofNat n) else none)
    (fun a => a.toNat_lt.trans (by decide)) (by
      intro n a
      rw [Option.ite_none_right_eq_some, Option.some.injEq]
      constructor
      · intro h
        rw [← h.2, UInt64.toNat_ofNat_of_lt' h.1]
      · intro h
        rw [← h]
        exact ⟨a.toNat_lt, UInt64.ofNat_toNat⟩)

def char : PrefixCode Char :=
  ofNat 4 Char.toNat (fun n => if Nat.isValidChar n then some (Char.ofNat n) else none)
    (by
      intro a
      have hv : a.toNat.isValidChar := a.valid
      rw [Nat.isValidChar] at hv
      omega)
    (by
      intro n a
      rw [Option.ite_none_right_eq_some, Option.some.injEq]
      constructor
      · intro h
        rw [← h.2, Char.toNat_ofNat, if_pos h.1]
      · intro h
        rw [← h]
        exact ⟨a.valid, a.ofNat_toNat⟩)

def string : PrefixCode String :=
  char.list.via {
    toFun := String.toList
    invFun := String.ofList
    left_inv := fun _ => String.ofList_toList
    right_inv := fun _ => String.toList_ofList }

def unit : PrefixCode Unit where
  encode _ := []
  decode bytes := some ((), bytes)
  plain _ _ h := absurd h List.not_mem_nil
  decode_iff bytes a rest := by
    simp only [Option.some.injEq, Prod.mk.injEq, true_and, List.nil_append]

def nat : PrefixCode Nat :=
  unit.list.via {
    toFun := fun n => List.replicate n ()
    invFun := List.length
    left_inv := fun _ => List.length_replicate
    right_inv := fun _ => List.eq_replicate_length.2 (fun _ _ => rfl) |>.symm }

def int : PrefixCode Int :=
  (sum nat nat).via {
    toFun
      | .ofNat n => .inl n
      | .negSucc n => .inr n
    invFun
      | .inl n => .ofNat n
      | .inr n => .negSucc n
    left_inv := fun i => by cases i <;> rfl
    right_inv := fun x => by cases x <;> rfl }

end Types

end PrefixCode

end Library
