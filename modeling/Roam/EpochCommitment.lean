import Roam.KeychainSpec

namespace Roam
set_option autoImplicit true
open Library

/-- The string that is hashed into an epoch id. Only its length says how many parents it lists. -/
def Rotation.preimage (rot : Rotation) (key : Bytes32) : Bytes :=
  rot.parents.flatMap Bytes32.bytes ++ toLeBytes 8 rot.mintedBy ++ rot.nonce.bytes ++ key.bytes

theorem flatMap_bytes_length (ids : List Bytes32) :
    (ids.flatMap Bytes32.bytes).length = 32 * ids.length := by
  induction ids with
  | nil => rfl
  | cons id ids ih =>
    rw [List.flatMap_cons, List.length_append, id.size, ih, List.length_cons]
    omega

theorem flatMap_bytes_injective {ids ids' : List Bytes32}
    (h : ids.flatMap Bytes32.bytes = ids'.flatMap Bytes32.bytes) : ids = ids' := by
  induction ids generalizing ids' with
  | nil =>
    have hlen := congrArg List.length h
    rw [flatMap_bytes_length, flatMap_bytes_length] at hlen
    have hzero : ids'.length = 0 := by
      simp only [List.length_nil] at hlen
      omega
    exact (List.eq_nil_of_length_eq_zero hzero).symm
  | cons id ids ih =>
    cases ids' with
    | nil =>
      have hlen := congrArg List.length h
      rw [flatMap_bytes_length, flatMap_bytes_length] at hlen
      simp only [List.length_cons, List.length_nil] at hlen
      omega
    | cons id' ids' =>
      rw [List.flatMap_cons, List.flatMap_cons] at h
      obtain ⟨hid, hids⟩ := List.append_inj h (id.size.trans id'.size.symm)
      rw [Bytes32.bytes_injective hid, ih hids]

/-- The parts of a preimage are read back from its end: all but the parents have a fixed width. -/
theorem Rotation.preimage_injective {rot rot' : Rotation}
    (h : rot.preimage key = rot'.preimage key') : rot = rot' ∧ key = key' := by
  obtain ⟨parents, mintedBy, nonce⟩ := rot
  obtain ⟨parents', mintedBy', nonce'⟩ := rot'
  obtain ⟨h, hkey⟩ := List.append_inj' h (key.size.trans key'.size.symm)
  obtain ⟨h, hnonce⟩ := List.append_inj' h (nonce.size.trans nonce'.size.symm)
  obtain ⟨hparents, hminted⟩ := List.append_inj' h
    ((toLeBytes_length 8 mintedBy).trans (toLeBytes_length 8 mintedBy').symm)
  obtain rfl : nonce = nonce' := Bytes32.bytes_injective hnonce
  obtain rfl : mintedBy = mintedBy' := toLeBytes_injective hminted
  obtain rfl : parents = parents' := flatMap_bytes_injective hparents
  exact ⟨rfl, Bytes32.bytes_injective hkey⟩

def Keychain.hashed (kc : Keychain) : Set Bytes :=
  { text | ∃ epoch ≠ epoch0Id, ∃ node key, kc.epochs[epoch]? = some node ∧ node.key = some key ∧
      text = node.rotation.preimage key }

section Build
variable {c : Crypto} {idKey epoch0Key : Bytes32} {selfPeer : UInt64} {secret : Bytes32}
  {entries : List KeyLogEntry}

theorem node_rotation (he : epoch ≠ epoch0Id)
    (h : (epochNodes c epoch0Key selfPeer secret entries)[epoch]? = some node) :
    firstRotate entries epoch = some node.rotation := by
  rw [epochNodes_getElem?, announcedNode, if_neg he, Option.map_map, Option.map_eq_some_iff] at h
  obtain ⟨rot, hr, rfl⟩ := h
  rw [Function.comp_apply, foldl_attachTo_rotation]
  exact hr

theorem node_key_commits (he : epoch ≠ epoch0Id)
    (h : (epochNodes c epoch0Key selfPeer secret entries)[epoch]? = some node)
    (hk : node.key = some key) : c.blake3 (node.rotation.preimage key) = epoch := by
  have hkey : (Keychain.build c default epoch0Key selfPeer secret entries).epochKey epoch =
      some key := by
    simp only [Keychain.epochKey, Keychain.build, h, Option.bind_some, hk]
  obtain ⟨rot, hr, _, _, _, hd⟩ := epochKey_inv he hkey
  obtain rfl : rot = node.rotation := Option.some.inj (hr.symm.trans (node_rotation he h))
  exact (deliveredKey_commits hd).2

theorem mem_build_epochs
    (h : epoch ∈ (Keychain.build c idKey epoch0Key selfPeer secret entries).epochs) :
    epoch = epoch0Id ∨
      ∃ e ∈ entries, e.epochId = epoch ∧ ∃ parents nonce, e.body = .rotate parents nonce := by
  cases mem_epochNodes.1 h with
  | inl h0 => exact .inl h0
  | inr ha =>
    obtain ⟨_, ⟨seq, author, epochId, body⟩, hm, hid, rot, hr⟩ := announced_iff.1 ha
    cases body with
    | rotate parents nonce => exact .inr ⟨_, hm, hid, parents, nonce, rfl⟩
    | wrap recipient blob => cases hr

end Build

/-- One epoch id, one key: no two key chains, whatever entries they were built from, hold
different keys for an epoch, when the hash has no collision among the strings they hashed. -/
theorem Keychain.build_one_key (c : Crypto) (idKey₁ idKey₂ epoch0Key₁ epoch0Key₂ : Bytes32)
    (selfPeer₁ selfPeer₂ : UInt64) (secret₁ secret₂ : Bytes32)
    (entries₁ entries₂ : List KeyLogEntry) (hinj : Set.InjOn c.blake3
      ((Keychain.build c idKey₁ epoch0Key₁ selfPeer₁ secret₁ entries₁).hashed ∪
        (Keychain.build c idKey₂ epoch0Key₂ selfPeer₂ secret₂ entries₂).hashed)) :
    (∀ epoch k₁ k₂, epoch ≠ epoch0Id →
        (Keychain.build c idKey₁ epoch0Key₁ selfPeer₁ secret₁ entries₁).epochKey epoch = some k₁ →
        (Keychain.build c idKey₂ epoch0Key₂ selfPeer₂ secret₂ entries₂).epochKey epoch = some k₂ →
        k₁ = k₂) ∧
      (∀ epoch ∈ (Keychain.build c idKey₁ epoch0Key₁ selfPeer₁ secret₁ entries₁).epochs,
        epoch = epoch0Id ∨
          ∃ e ∈ entries₁, e.epochId = epoch ∧ ∃ parents nonce, e.body = .rotate parents nonce) ∧
      (∀ (epoch : Bytes32) (node : EpochNode) (k : Bytes32), epoch ≠ epoch0Id →
        (Keychain.build c idKey₁ epoch0Key₁ selfPeer₁ secret₁ entries₁).epochs[epoch]? = some node →
        node.key = some k → computeEpochId c node.parents node.mintedBy node.nonce k = epoch) ∧
      (Keychain.build c idKey₁ epoch0Key₁ selfPeer₁ secret₁ entries₁).epochKey epoch0Id =
        some epoch0Key₁ := by
  refine ⟨?_, fun epoch => mem_build_epochs, fun epoch node k => node_key_commits, epochKey_epoch0⟩
  intro epoch k₁ k₂ he h₁ h₂
  obtain ⟨node₁, hn₁, hk₁⟩ := Option.bind_eq_some_iff.1 h₁
  obtain ⟨node₂, hn₂, hk₂⟩ := Option.bind_eq_some_iff.1 h₂
  have hhash : c.blake3 (node₁.rotation.preimage k₁) = c.blake3 (node₂.rotation.preimage k₂) :=
    (node_key_commits he hn₁ hk₁).trans (node_key_commits he hn₂ hk₂).symm
  have htext : node₁.rotation.preimage k₁ = node₂.rotation.preimage k₂ :=
    hinj (.inl ⟨epoch, he, node₁, k₁, hn₁, hk₁, rfl⟩) (.inr ⟨epoch, he, node₂, k₂, hn₂, hk₂,
      rfl⟩) hhash
  exact (Rotation.preimage_injective htext).2

section Sample

def plainWrap (epoch : UInt8) (recipient : UInt64) : KeyLogEntry where
  seq := 2
  author := 1
  epochId := .replicate epoch
  body := .wrap (.device recipient) (List.replicate 56 0 ++ List.replicate 32 epoch)

theorem plainCrypto_preimage (rot : Rotation) (key : Bytes32) :
    plainCrypto.blake3 (rot.preimage key) = key := by
  have hdrop (init : Bytes) : (init ++ key.bytes).drop ((init ++ key.bytes).length - 32) =
      key.bytes := by
    rw [List.length_append, key.size, Nat.add_sub_cancel, List.drop_left]
  have hof : Bytes32.ofBytes? key.bytes = some key := dif_pos key.size
  simp only [Rotation.preimage, plainCrypto, hdrop, hof, Option.getD_some]

theorem firstRotate_plain (epoch : UInt8) (recipient : UInt64)
    (h : firstRotate [rotateEntry 1 epoch [0], plainWrap epoch recipient] epochId = some rot) :
    rot = ⟨[.replicate 0], derivedPeerId (.replicate 1), .replicate 7⟩ ∧
      epochId = .replicate epoch := by
  obtain ⟨e, he, rfl, hr⟩ := firstRotate_mem h
  cases he with
  | head =>
    cases hr
    exact ⟨rfl, rfl⟩
  | tail _ he =>
    cases List.mem_singleton.1 he
    cases hr

theorem plain_hashed (epoch : UInt8) (recipient : UInt64)
    (h : text ∈ (Keychain.build plainCrypto idKey epoch0Key recipient secret
      [rotateEntry 1 epoch [0], plainWrap epoch recipient]).hashed) :
    text = (⟨[.replicate 0], derivedPeerId (.replicate 1), .replicate 7⟩ : Rotation).preimage
      (.replicate epoch) := by
  obtain ⟨id, hid, node, key, hn, hk, rfl⟩ := h
  obtain ⟨hrot, rfl⟩ := firstRotate_plain epoch recipient (node_rotation hid hn)
  have hkey := node_key_commits hid hn hk
  rw [plainCrypto_preimage] at hkey
  rw [hrot, hkey]

theorem Keychain.build_one_key_two_members : (Keychain.build plainCrypto default default 5 default
        [rotateEntry 1 9 [0], plainWrap 9 5]).epochKey (.replicate 9) = some (.replicate 9) ∧
      (Keychain.build plainCrypto default default 6 default
        [rotateEntry 1 9 [0], plainWrap 9 6]).epochKey (.replicate 9) = some (.replicate 9) ∧
      ∀ epoch k₁ k₂, epoch ≠ epoch0Id → (Keychain.build plainCrypto default default 5 default
          [rotateEntry 1 9 [0], plainWrap 9 5]).epochKey epoch = some k₁ →
        (Keychain.build plainCrypto default default 6 default
          [rotateEntry 1 9 [0], plainWrap 9 6]).epochKey epoch = some k₂ → k₁ = k₂ := by
  refine ⟨by decide +kernel, by decide +kernel, ?_⟩
  have hinj : Set.InjOn plainCrypto.blake3
      ((Keychain.build plainCrypto default default 5 default
          [rotateEntry 1 9 [0], plainWrap 9 5]).hashed ∪
        (Keychain.build plainCrypto default default 6 default
          [rotateEntry 1 9 [0], plainWrap 9 6]).hashed) := by
    intro t ht t' ht' _
    have hone (text : Bytes) (h : text ∈ (Keychain.build plainCrypto default default 5 default
          [rotateEntry 1 9 [0], plainWrap 9 5]).hashed ∪
        (Keychain.build plainCrypto default default 6 default
          [rotateEntry 1 9 [0], plainWrap 9 6]).hashed) :=
            h.elim (plain_hashed 9 5) (plain_hashed 9 6)
    rw [hone t ht, hone t' ht']
  exact (Keychain.build_one_key plainCrypto default default default default 5 6 default default
    [rotateEntry 1 9 [0], plainWrap 9 5] [rotateEntry 1 9 [0], plainWrap 9 6] hinj).1

end Sample

end Roam
