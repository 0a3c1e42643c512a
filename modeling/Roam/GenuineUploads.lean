import Roam.HeadSeals

namespace Roam
set_option autoImplicit true
open Library

def Crypto.OpensSealed (c : Crypto) : Prop :=
  ∀ key nonce plaintext, c.aeadOpen key nonce (c.aeadSeal key nonce plaintext) = some plaintext

/-- The key chain has the key of the payload, and does not take its first bytes for an epoch. -/
structure Sealed.ReadBy (c : Crypto) (p : Sealed) (kc : Keychain) : Prop where
  key : kc.epochKey p.epoch = some p.key
  nonce : p.nonce.length = 24
  untagged : p.epoch = epoch0Id → ∀ epoch, epoch.bytes = (p.bytes c).take 32 →
    epoch = epoch0Id ∨ kc.epochs[epoch]? = none

theorem openEpoch_seal (hc : c.OpensSealed) (hnonce : nonce.length = 24) :
    openEpoch c key (nonce ++ c.aeadSeal key nonce plaintext) = some plaintext := by
  have hlong : ¬ (nonce ++ c.aeadSeal key nonce plaintext).length < 24 := by
    rw [List.length_append, hnonce]
    omega
  rw [openEpoch, if_neg hlong, ← hnonce, List.take_left, List.drop_left]
  exact hc key nonce plaintext

theorem Sealed.ReadBy.opens (hc : c.OpensSealed) {p : Sealed} (h : p.ReadBy c kc) :
    openClassified c kc (p.bytes c) = some p.plaintext := by
  have hkey := h.key
  by_cases hepoch : p.epoch = epoch0Id
  · have hbytes : p.bytes c = p.nonce ++ c.aeadSeal p.key p.nonce p.plaintext := by
      rw [Sealed.bytes, if_pos hepoch, List.nil_append]
    have htag : (Bytes32.ofBytes? ((p.bytes c).take 32)).bind (fun epoch =>
        if epoch = epoch0Id then none else kc.epochs[epoch]?) = none := by
      rw [Bytes32.ofBytes?]
      split
      next hlen => exact ite_eq_left_iff.2 (h.untagged hepoch ⟨_, hlen⟩ rfl).resolve_left
      next => rfl
    rw [hepoch] at hkey
    simp only [openClassified, Keychain.classify, Option.bind_eq_bind, htag, hkey, Option.bind_some]
    rw [hbytes]
    exact openEpoch_seal hc h.nonce
  · obtain ⟨node, hnode, hkey⟩ := Option.bind_eq_some_iff.1 hkey
    have hbytes :
        p.bytes c = p.epoch.bytes ++ (p.nonce ++ c.aeadSeal p.key p.nonce p.plaintext) := by
      rw [Sealed.bytes, if_neg hepoch, List.append_assoc]
    have hid : Bytes32.ofBytes? ((p.bytes c).take 32) = some p.epoch := by
      rw [hbytes, ← p.epoch.size, List.take_left]
      exact dif_pos p.epoch.size
    have hbody : (p.bytes c).drop 32 = p.nonce ++ c.aeadSeal p.key p.nonce p.plaintext := by
      rw [hbytes, ← p.epoch.size, List.drop_left]
    simp only [openClassified, Keychain.classify, Option.bind_eq_bind, hid, Option.bind_some,
      if_neg hepoch, hnode, hkey, hbody]
    exact openEpoch_seal hc h.nonce

/-- The ciphertext opens, and what it opens to leads to the id: for a line, with the author that the
line itself names. -/
def Keychain.Accepts (π : BackendPlatform) (key : VaultKey) (kc : Keychain) (id : String)
    (ct : Bytes) : SetKind → Prop
  | .entries => ∃ line author, openClassified π.crypto kc ct = some line ∧
    π.linePeer line = some author ∧ key.entryIdContent π author line = id
  | .blobs => ∃ bytes, openClassified π.crypto kc ct = some bytes ∧
    key.blobId π (blobHash π.toPlatform bytes) = id
  | _ => False

/-- Each line of a log names the peer whose log it is. -/
def Session.Signed {π : BackendPlatform} (s : Session π) : Prop :=
  ∀ log ∈ s.store.disk.ops.toList, ∀ line ∈ splitLogLines log.2, π.linePeer line = some log.1

theorem Issue.Names.accepts {π : BackendPlatform} {s : Session π} {id : String} {kind : SetKind}
    (hs : s.Signed) (h : Issue.Names π key s.store.disk.ops id plaintext kind)
    (hopen : openClassified π.crypto kc ct = some plaintext) : kc.Accepts π key id ct kind := by
  cases kind with
  | entries =>
    obtain ⟨author, hline, hid⟩ := h
    refine ⟨plaintext, author, hopen, ?_, hid⟩
    cases hlog : s.store.disk.ops[author]? with
    | none =>
      rw [hlog] at hline
      cases hline
    | some log =>
      rw [hlog] at hline
      exact hs _ (Std.TreeMap.mem_toList_iff_getElem?_eq_some.2 hlog) plaintext hline
  | blobs => exact ⟨plaintext, hopen, h⟩
  | snapshots => exact h
  | trust => exact h

end Roam
