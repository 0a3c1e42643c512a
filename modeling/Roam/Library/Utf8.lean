import Mathlib

namespace Library
set_option autoImplicit true

def encodeUtf8 (text : List Char) : List UInt8 := text.flatMap String.utf8EncodeChar

/-- The text that bytes encode, if any. Bytes that are all ASCII, or that have one which is never
part of a text, are decided at once. -/
def decodeUtf8 (bytes : List UInt8) : Option (List Char) :=
  if bytes.all (· < 0x80) then some (bytes.map fun b => Char.ofNat b.toNat)
  else if bytes.any (0xF8 ≤ ·) then none
  else bytes.toByteArray.utf8Decode?.map Array.toList

theorem encodeUtf8_toByteArray (text : List Char) :
    (encodeUtf8 text).toByteArray = text.utf8Encode := rfl

theorem utf8Decode_iff (bytes : List UInt8) (text : List Char) :
    bytes.toByteArray.utf8Decode?.map Array.toList = some text ↔ bytes = encodeUtf8 text := by
  constructor
  · intro h
    obtain ⟨chars, hchars, rfl⟩ := Option.map_eq_some_iff.1 h
    have hsome : bytes.toByteArray.utf8Decode?.isSome := by rw [hchars]; rfl
    have hencode := ByteArray.utf8Encode_get_utf8Decode? (h := hsome)
    simp only [hchars, Option.get_some] at hencode
    exact List.toByteArray_inj.1 hencode.symm
  · intro h
    rw [h, encodeUtf8_toByteArray, List.utf8Decode?_utf8Encode]
    rfl

theorem utf8EncodeChar_lt (h : b ∈ String.utf8EncodeChar c) : b < 0xF8 := by
  rw [UInt8.lt_iff_toNat_lt]
  change b.toNat < 248
  simp only [String.utf8EncodeChar] at h
  split at h
  next hv =>
    rw [List.mem_singleton.1 h, UInt8.toNat_ofNat']
    omega
  next =>
    split at h
    next =>
      simp only [List.mem_cons, List.not_mem_nil, or_false] at h
      rcases h with rfl | rfl <;> rw [UInt8.toNat_ofNat'] <;> omega
    next =>
      split at h
      next =>
        simp only [List.mem_cons, List.not_mem_nil, or_false] at h
        rcases h with rfl | rfl | rfl <;> rw [UInt8.toNat_ofNat'] <;> omega
      next =>
        simp only [List.mem_cons, List.not_mem_nil, or_false] at h
        rcases h with rfl | rfl | rfl | rfl <;> rw [UInt8.toNat_ofNat'] <;> omega

theorem utf8EncodeChar_ascii {b : UInt8} (h : b < 0x80) :
    String.utf8EncodeChar (Char.ofNat b.toNat) = [b] := by
  have hb : b.toNat < 128 := UInt8.lt_iff_toNat_lt.1 h
  have hval : (Char.ofNat b.toNat).val.toNat = b.toNat := by
    rw [Char.toNat_val, Char.toNat_ofNat, if_pos (.inl (by omega))]
  simp only [String.utf8EncodeChar, hval, if_pos (Nat.le_of_lt_succ hb), UInt8.ofNat_toNat]

theorem encodeUtf8_ascii {bytes : List UInt8} (h : ∀ b ∈ bytes, b < 0x80) :
    encodeUtf8 (bytes.map fun b => Char.ofNat b.toNat) = bytes := by
  induction bytes with
  | nil => rfl
  | cons b bytes ih =>
    rw [List.forall_mem_cons] at h
    rw [encodeUtf8, List.map_cons, List.flatMap_cons, ← encodeUtf8, ih h.2,
      utf8EncodeChar_ascii h.1]
    rfl

theorem encodeUtf8_injective : Function.Injective encodeUtf8 := by
  intro a b h
  have hb := (utf8Decode_iff (encodeUtf8 b) b).2 rfl
  rw [← h, (utf8Decode_iff (encodeUtf8 a) a).2 rfl] at hb
  exact Option.some.inj hb

theorem decodeUtf8_iff {bytes : List UInt8} {text : List Char} :
    decodeUtf8 bytes = some text ↔ bytes = encodeUtf8 text := by
  rw [decodeUtf8]
  split
  next h =>
    have hascii : ∀ b ∈ bytes, b < 0x80 := by
      intro b hb
      exact of_decide_eq_true (List.all_eq_true.1 h b hb)
    have henc := encodeUtf8_ascii hascii
    rw [Option.some.injEq]
    constructor
    · rintro rfl
      exact henc.symm
    · intro hb
      exact encodeUtf8_injective (henc.trans hb)
  next =>
    split
    next h =>
      refine ⟨nofun, ?_⟩
      rintro rfl
      obtain ⟨b, hb, hlarge⟩ := List.any_eq_true.1 h
      obtain ⟨c, _, hc⟩ := List.mem_flatMap.1 hb
      exact absurd (utf8EncodeChar_lt hc) (UInt8.not_lt.2 (of_decide_eq_true hlarge))
    next => exact utf8Decode_iff bytes text

theorem toList_loop (bytes : ByteArray) (i : Nat) (acc : List UInt8) :
    ByteArray.toList.loop bytes i acc = acc.reverse ++ bytes.data.toList.drop i := by
  fun_induction ByteArray.toList.loop with
  | case1 i acc h ih =>
    have hi : i < bytes.data.toList.length := by simpa using h
    have hget : bytes.get! i = bytes.data.toList[i] := by
      have hs : i < bytes.data.size := by simpa using hi
      rw [Array.getElem_toList]
      exact getElem!_pos bytes.data i hs
    rw [ih, List.reverse_cons, List.append_assoc, List.drop_eq_getElem_cons hi, hget,
      List.singleton_append]
  | case2 i acc h =>
    rw [List.drop_eq_nil_of_le]
    · simp
    · simpa using h

theorem toList_eq_data (bytes : ByteArray) : bytes.toList = bytes.data.toList := by
  rw [ByteArray.toList, toList_loop, List.reverse_nil, List.nil_append, List.drop_zero]

theorem toUTF8_length (text : String) : text.toUTF8.toList.length = text.utf8ByteSize := by
  rw [toList_eq_data]
  rfl

theorem toUTF8_injective {text text' : String} (h : text.toUTF8.toList = text'.toUTF8.toList) :
    text = text' := by
  rw [toList_eq_data, toList_eq_data] at h
  have hbytes : text.toUTF8 = text'.toUTF8 := ByteArray.ext (Array.toList_inj.1 h)
  exact String.toByteArray_inj.1 hbytes

end Library
