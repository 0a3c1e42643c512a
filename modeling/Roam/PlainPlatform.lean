import Roam.StoreSpec
import Roam.KeychainSpec
import Roam.Library.PrefixCode

namespace Roam
set_option autoImplicit true
open Library

section Json

def plainJson (c : PrefixCode Line) : Json Line where
  parse
    | 0x7B :: bytes =>
      match c.decode bytes with
      | some (line, [0x7D]) => .ok line
      | _ => .error "expected an object"
    | _ => .error "expected an object"
  render line := 0x7B :: (c.encode line ++ [0x7D])

theorem plainJson_parse_iff {c : PrefixCode Line} :
    (plainJson c).parse bytes = .ok line ↔ bytes = (plainJson c).render line := by
  constructor
  · intro h
    simp only [plainJson] at h
    split at h
    next bytes =>
      split at h
      next hd =>
        cases h
        rw [(c.decode_iff _ _ _).1 hd]
        rfl
      next => cases h
    next => cases h
  · intro h
    rw [h]
    simp only [plainJson, c.decode_encode]

theorem plainJson_lawful (c : PrefixCode Line) : (plainJson c).Lawful where
  parse_render _ := plainJson_parse_iff.2 rfl
  object line := by
    have hp (b : UInt8) (hb : b ∈ (plainJson c).render line) : b ≠ 10 ∧ b < 0x80 := by
      simp only [plainJson, List.mem_cons, List.mem_append, List.not_mem_nil, or_false] at hb
      rcases hb with rfl | hb | rfl
      · exact ⟨by decide, by decide⟩
      · obtain ⟨hl, hu⟩ := c.plain line b hb
        rw [UInt8.le_iff_toNat_le] at hl
        rw [UInt8.lt_iff_toNat_lt] at hu ⊢
        refine ⟨?_, hu.trans (by decide)⟩
        intro h
        rw [h] at hl
        exact absurd hl (by decide)
      · exact ⟨by decide, by decide⟩
    exact {
      single := fun h => (hp 10 h).1 rfl
      opens := rfl
      closes := by simp only [plainJson, ← List.cons_append, List.getLast?_concat]
      utf8 := validUtf8_ascii fun b hb => (hp b hb).2 }

theorem PrefixCode.brace_not_mem (c : PrefixCode Line) (line : Line) :
    0x7B ∉ c.encode line ∧ 0x7D ∉ c.encode line :=
  ⟨fun h => absurd (c.plain line _ h).2 (by decide),
    fun h => absurd (c.plain line _ h).2 (by decide)⟩

theorem plainJson_standsAlone (c : PrefixCode Line) : (plainJson c).StandsAlone := by
  intro line text
  cases hparse : (plainJson c).parse (text ++ (plainJson c).render line) with
  | error msg => exact .inl ⟨msg, rfl⟩
  | ok line' =>
    cases text with
    | nil =>
      have hsame := (plainJson_lawful c).parse_render line
      rw [List.nil_append, hsame] at hparse
      exact .inr ⟨rfl, hparse.symm⟩
    | cons b text =>
      have htext := plainJson_parse_iff.1 hparse
      have hrest : text ++ (plainJson c).render line = c.encode line' ++ [0x7D] :=
        (List.cons.inj htext).2
      have hmem : 0x7B ∈ c.encode line' ++ [0x7D] :=
        hrest ▸ List.mem_append_right text List.mem_cons_self
      cases List.mem_append.1 hmem with
      | inl hm => exact absurd hm (PrefixCode.brace_not_mem c line').1
      | inr hm => exact absurd (List.mem_singleton.1 hm) (by decide)

theorem plainJson_framed (c : PrefixCode Line) : (plainJson c).Framed where
  toLawful := plainJson_lawful c
  torn := by
    intro line text hp hne
    cases hparse : (plainJson c).parse text with
    | error msg => exact ⟨msg, rfl⟩
    | ok line' =>
      have htext := plainJson_parse_iff.1 hparse
      rw [htext] at hp hne
      have henc := append_sep_prefix (PrefixCode.brace_not_mem c line').2
        (PrefixCode.brace_not_mem c line).2 (List.cons_prefix_cons.1 hp).2
      refine absurd ?_ hne
      simp only [plainJson, henc.1]
  joined := by
    intro line line' text hp hne
    rcases plainJson_standsAlone c line' text with hbad | ⟨hblank, _⟩
    · exact hbad
    · have hbrace := ((plainJson_lawful c).object line).brace_mem hp hne
      exact absurd hbrace (isBlank_not_mem (by decide) (by decide) hblank)

def roleCode : PrefixCode Role :=
  .via (.sum .unit (.sum .unit .unit)) {
    toFun
      | .reader => .inl ()
      | .writer => .inr (.inl ())
      | .admin => .inr (.inr ())
    invFun
      | .inl () => .reader
      | .inr (.inl ()) => .writer
      | .inr (.inr ()) => .admin
    left_inv role := by cases role <;> rfl
    right_inv x := by rcases x with _ | _ | _ <;> rfl }

def rosterOpCode : PrefixCode RosterOp :=
  .via (.sum (.sum roleCode roleCode) (.sum .unit .string)) {
    toFun
      | .add role => .inl (.inl role)
      | .setRole role => .inl (.inr role)
      | .revoke => .inr (.inl ())
      | .setName name => .inr (.inr name)
    invFun
      | .inl (.inl role) => .add role
      | .inl (.inr role) => .setRole role
      | .inr (.inl ()) => .revoke
      | .inr (.inr name) => .setName name
    left_inv op := by cases op <;> rfl
    right_inv x := by rcases x with (_ | _) | (_ | _) <;> rfl }

def rosterLineCode : PrefixCode RosterLine :=
  .via (.pair (.pair .uint64 (.pair .uint64 rosterOpCode))
      (.pair (.pair .uint64 .string) (.pair .uint64 .string))) {
    toFun l := ((l.seq, l.lamport, l.op), (l.subjectPeer, l.subjectKey), l.addedBy, l.sig)
    invFun t := ⟨t.1.1, t.1.2.1, t.1.2.2, t.2.1.1, t.2.1.2, t.2.2.1, t.2.2.2⟩
    left_inv _ := rfl
    right_inv _ := rfl }

def recipientCode : PrefixCode Recipient :=
  .via (.sum .uint64 .unit) {
    toFun
      | .device peer => .inl peer
      | .paper => .inr ()
    invFun
      | .inl peer => .device peer
      | .inr () => .paper
    left_inv r := by cases r <;> rfl
    right_inv x := by cases x <;> rfl }

def keyBodyLineCode : PrefixCode KeyBodyLine :=
  .via (.sum (.pair (.list .string) .string) (.pair recipientCode .string)) {
    toFun
      | .rotate parents nonce => .inl (parents, nonce)
      | .wrap recipient blob => .inr (recipient, blob)
    invFun
      | .inl (parents, nonce) => .rotate parents nonce
      | .inr (recipient, blob) => .wrap recipient blob
    left_inv b := by cases b <;> rfl
    right_inv x := by cases x <;> rfl }

def keyLineCode : PrefixCode KeyLine :=
  .via (.pair (.pair .uint64 .uint64) (.pair .string (.pair keyBodyLineCode .string))) {
    toFun l := ((l.seq, l.author), l.epochId, l.body, l.sig)
    invFun t := ⟨t.1.1, t.1.2, t.2.1, t.2.2.1, t.2.2.2⟩
    left_inv _ := rfl
    right_inv _ := rfl }

def entryLineCode : PrefixCode EntryLine :=
  .via (.pair .uint64 (.pair .string .string)) {
    toFun l := (l.peer, l.sig, l.update)
    invFun t := ⟨t.1, t.2.1, t.2.2⟩
    left_inv _ := rfl
    right_inv _ := rfl }

end Json

section Base64

/-- A run of one byte as its length and its byte, any other text byte by byte. -/
def plainChars (bytes : Bytes) : List Char :=
  if bytes.length < 256 ∧ bytes = List.replicate bytes.length (bytes.headD 0) then
    ['=', Char.ofNat bytes.length, Char.ofNat (bytes.headD 0).toNat]
  else '+' :: bytes.map fun b => Char.ofNat b.toNat

def charsBytes : List Char → Bytes
  | ['=', n, b] => List.replicate n.toNat (UInt8.ofNat b.toNat)
  | _ :: cs => cs.map fun c => UInt8.ofNat c.toNat
  | [] => []

theorem toNat_ofNat_of_lt (h : n < 256) : (Char.ofNat n).toNat = n := by
  rw [Char.toNat_ofNat, if_pos (.inl (by omega))]

theorem charsBytes_plainChars (bytes : Bytes) : charsBytes (plainChars bytes) = bytes := by
  have hbyte (b : UInt8) : UInt8.ofNat (Char.ofNat b.toNat).toNat = b := by
    rw [toNat_ofNat_of_lt b.toNat_lt, UInt8.ofNat_toNat]
  rw [plainChars]
  split
  next h =>
    rw [charsBytes, toNat_ofNat_of_lt h.1, hbyte]
    exact h.2.symm
  next h =>
    rw [charsBytes, List.map_map]
    · exact (List.map_congr_left fun b _ => hbyte b).trans (List.map_id bytes)
    · intro n b heq
      cases heq

def plainEncode (bytes : Bytes) : String := String.ofList (plainChars bytes)

def plainDecode (s : String) : Except String Bytes :=
  let bytes := charsBytes s.toList
  if plainChars bytes = s.toList then .ok bytes else .error "invalid base64"

theorem plainDecode_iff : plainDecode s = .ok bytes ↔ s = plainEncode bytes := by
  simp only [plainDecode, plainEncode]
  constructor
  · intro h
    split at h
    next hs =>
      cases h
      rw [hs, String.ofList_toList]
    next => cases h
  · intro h
    rw [h, String.toList_ofList, charsBytes_plainChars, if_pos rfl]

end Base64

def plainSign (key : Bytes32) (msg : Bytes) : Bytes :=
  List.replicate 64 (key.bytes ++ msg).sum

def markerCode : PrefixCode Marker :=
  .via (.pair (.pair .int .string) (.list (.pair .uint64 .nat))) {
    toFun m := ((m.tsMs, m.frontier), m.logLens)
    invFun t := ⟨t.1.1, t.1.2, t.2⟩
    left_inv _ := rfl
    right_inv _ := rfl }

def plainDocs : DocLib where
  Doc := List Bytes
  Version := Nat
  Frontier := Nat
  versionEq := inferInstance
  versionBytes v := List.replicate v 0
  versionOf bytes := .ok bytes.length
  includes v w := w ≤ v
  frontierBytes f := List.replicate f 0
  frontierOf bytes := .ok bytes.length
  newDoc _ := .ok []
  fromSnapshot _ snapshot := .ok [snapshot]
  edit doc _ := .ok ([] :: doc)
  importUpdate doc update := .ok (update :: doc)
  importAuthoredBy doc _ update := .ok (update :: doc)
  commit doc := doc
  version doc := doc.length
  exportFrom doc v := .ok (doc.take (doc.length - v)).flatten
  snapshot doc := .ok doc.flatten
  oplogFrontier doc := doc.length
  shallowSnapshot doc _ := .ok doc.flatten
  checkout doc _ := .ok doc
  checkoutLatest doc := doc
  entries _ _ := []

/-- Libraries that a store can be run on. A signature counts only on the messages that are
accepted from its key. -/
def plainPlatform (accepts : Bytes32 → Bytes → Bool) : Platform where
  toDocLib := plainDocs
  rosterJson := plainJson rosterLineCode
  keyJson := plainJson keyLineCode
  opJson := plainJson entryLineCode
  markerJson := plainJson markerCode
  contentHash value := some value
  b64Encode := plainEncode
  b64Decode := plainDecode
  utf8Error _ := "invalid utf-8"
  publicKey secret := secret
  validKey _ := true
  sign := plainSign
  verify key msg sig := accepts key msg && sig = plainSign key msg
  x25519Secret secret := secret
  toX25519 key := key
  crypto := plainCrypto

theorem plainPlatform_lawful (h : ∀ key msg, accepts key msg = true) :
    (plainPlatform accepts).Lawful where
  roster := plainJson_lawful rosterLineCode
  key := plainJson_lawful keyLineCode
  op := plainJson_lawful entryLineCode
  b64 _ := plainDecode_iff.2 rfl
  sig_length _ _ := List.length_replicate
  verify_sign secret msg := by
    simp only [plainPlatform, h, decide_true, Bool.and_self]
  valid_publicKey _ := rfl

abbrev openPlatform : Platform := plainPlatform fun _ _ => true

theorem openPlatform_framed : openPlatform.Framed where
  toLawful := plainPlatform_lawful fun _ _ => rfl
  rosterFramed := plainJson_framed rosterLineCode
  keyFramed := plainJson_framed keyLineCode
  opFramed := plainJson_framed entryLineCode

def plainIdentity (n : UInt8) : Identity := ⟨.replicate n⟩

def ascending : RosterOrder := .ascending _ _

end Roam
