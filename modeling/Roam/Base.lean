import Mathlib

namespace Roam
set_option autoImplicit true

instance instLinearOrderUInt64 : LinearOrder UInt64 where
  le_refl a := UInt64.le_refl a
  le_trans a b c := UInt64.le_trans
  lt_iff_le_not_ge a b := by
    simp only [UInt64.le_iff_toNat_le, UInt64.lt_iff_toNat_lt]
    omega
  le_antisymm a b := UInt64.le_antisymm
  le_total a b := UInt64.le_total a b
  toDecidableLE := inferInstance
  toDecidableEq := inferInstance
  toDecidableLT := inferInstance
  toOrd := inferInstance
  compare_eq_compareOfLessAndEq _ _ := rfl

instance instLinearOrderUInt8 : LinearOrder UInt8 where
  le_refl a := UInt8.le_refl a
  le_trans a b c := UInt8.le_trans
  lt_iff_le_not_ge a b := by
    simp only [UInt8.le_iff_toNat_le, UInt8.lt_iff_toNat_lt]
    omega
  le_antisymm a b := UInt8.le_antisymm
  le_total a b := UInt8.le_total a b
  toDecidableLE := inferInstance
  toDecidableEq := inferInstance
  toDecidableLT := inferInstance
  toOrd := inferInstance
  compare_eq_compareOfLessAndEq _ _ := rfl

/-- Byte strings, as `Vec<u8>` and `&[u8]`. -/
abbrev Bytes := List UInt8

instance instLawfulBEqBytes : LawfulBEq Bytes := inferInstance

/-- A `[u8; 32]`: a key, a nonce or an epoch id. -/
structure Bytes32 where
  bytes : Bytes
  size : bytes.length = 32
deriving DecidableEq

theorem Bytes32.bytes_injective : Function.Injective Bytes32.bytes := by
  intro a b h
  cases a
  cases b
  cases h
  rfl

/-- Arrays compare lexicographically, byte by byte. -/
instance : LinearOrder Bytes32 := LinearOrder.lift' Bytes32.bytes Bytes32.bytes_injective

instance : Std.LawfulEqOrd Bytes32 where
  eq_of_compare h := compare_eq_iff_eq.1 h

def Bytes32.replicate (b : UInt8) : Bytes32 := ⟨List.replicate 32 b, List.length_replicate⟩

instance : Inhabited Bytes32 := ⟨.replicate 0⟩

/-- `u64::from_le_bytes`, on as many bytes as are given. -/
def fromLeBytes : Bytes → UInt64
  | [] => 0
  | b :: bs => b.toUInt64 + 256 * fromLeBytes bs

/-- The first `n` little-endian bytes of a `u64`; `toLeBytes 8` is `u64::to_le_bytes`. -/
def toLeBytes : Nat → UInt64 → Bytes
  | 0, _ => []
  | n + 1, v => v.toUInt8 :: toLeBytes n (v / 256)

theorem toLeBytes_length (n : Nat) (v : UInt64) : (toLeBytes n v).length = n := by
  induction n generalizing v with
  | zero => rfl
  | succ n ih => rw [toLeBytes, List.length_cons, ih]

theorem toLeBytes_mod (h : toLeBytes n v = toLeBytes n w) :
    v.toNat % 256 ^ n = w.toNat % 256 ^ n := by
  induction n generalizing v w with
  | zero => rw [Nat.pow_zero, Nat.mod_one, Nat.mod_one]
  | succ n ih =>
    obtain ⟨hb, hrest⟩ := List.cons.inj h
    have hlow : v.toNat % 256 = w.toNat % 256 := by
      have := congrArg UInt8.toNat hb
      simpa only [UInt64.toNat_toUInt8] using this
    have hhigh := ih hrest
    have hdiv (x : UInt64) : (x / 256).toNat = x.toNat / 256 := UInt64.toNat_div x 256
    rw [hdiv, hdiv] at hhigh
    rw [Nat.pow_succ', Nat.mod_mul, Nat.mod_mul, hlow, hhigh]

theorem toLeBytes_injective : Function.Injective (toLeBytes 8) := by
  intro v w h
  have hmod := toLeBytes_mod h
  have hv := v.toNat_lt
  have hw := w.toNat_lt
  exact UInt64.toNat_inj.1 (by omega)

theorem fromLeBytes_cons_toNat (b : UInt8) (h : (fromLeBytes bs).toNat < 256 ^ 7) :
    (fromLeBytes (b :: bs)).toNat = b.toNat + 256 * (fromLeBytes bs).toNat := by
  have hb := b.toNat_lt
  rw [fromLeBytes, UInt64.toNat_add, UInt64.toNat_mul, UInt8.toNat_toUInt64]
  have h256 : (256 : UInt64).toNat = 256 := rfl
  rw [h256]
  omega

theorem fromLeBytes_toNat_lt (h : bs.length ≤ 8) : (fromLeBytes bs).toNat < 256 ^ bs.length := by
  induction bs with
  | nil => exact Nat.one_pos
  | cons b bs ih =>
    rw [List.length_cons] at h
    have hrest := ih (by omega)
    have hle : 256 ^ bs.length ≤ 256 ^ 7 := Nat.pow_le_pow_right (by omega) (by omega)
    have hb := b.toNat_lt
    rw [fromLeBytes_cons_toNat b (hrest.trans_le hle), List.length_cons, Nat.pow_succ]
    omega

theorem fromLeBytes_injective (hlen : bs.length ≤ 8) (hlen' : bs'.length = bs.length)
    (h : fromLeBytes bs = fromLeBytes bs') : bs = bs' := by
  induction bs generalizing bs' with
  | nil => exact (List.length_eq_zero_iff.1 hlen').symm
  | cons b bs ih =>
    cases bs' with
    | nil => cases hlen'
    | cons b' bs' =>
      rw [List.length_cons] at hlen
      rw [List.length_cons, List.length_cons, Nat.add_right_cancel_iff] at hlen'
      have hpow : 256 ^ bs.length ≤ 256 ^ 7 := Nat.pow_le_pow_right (by omega) (by omega)
      have hlow : (fromLeBytes bs).toNat < 256 ^ 7 :=
        (fromLeBytes_toNat_lt (by omega)).trans_le hpow
      have hlow' : (fromLeBytes bs').toNat < 256 ^ 7 := by
        refine (fromLeBytes_toNat_lt (by omega)).trans_le ?_
        rw [hlen']
        exact hpow
      have hnat := congrArg UInt64.toNat h
      rw [fromLeBytes_cons_toNat b hlow, fromLeBytes_cons_toNat b' hlow'] at hnat
      have hb := b.toNat_lt
      have hb' := b'.toNat_lt
      have hhead : b = b' := UInt8.toNat_inj.1 (by omega)
      have hrest : bs = bs' := ih (by omega) hlen' (UInt64.toNat_inj.1 (by omega))
      rw [hhead, hrest]

/-- The peer id a verifying key must map to: its first eight little-endian bytes. -/
def derivedPeerId (key : Bytes32) : UInt64 := fromLeBytes (key.bytes.take 8)

theorem take_eq_of_derivedPeerId {key key' : Bytes32} (h : derivedPeerId key = derivedPeerId key') :
    key.bytes.take 8 = key'.bytes.take 8 := by
  have hlen (k : Bytes32) : (k.bytes.take 8).length = 8 := by
    rw [List.length_take, k.size]
    rfl
  exact fromLeBytes_injective (hlen key).le ((hlen key').trans (hlen key).symm) h

example : derivedPeerId (.replicate 1) = 72340172838076673 := by decide

end Roam
