import Roam.SharedRoster
import Roam.KeychainSpec

namespace Roam
set_option autoImplicit true
open Library

section FoldAppend
variable {f : α → Except ε (List β)} {l : List α} {acc out : List β}

def foldAppend (f : α → Except ε (List β)) (l : List α) (acc : List β) : Except ε (List β) :=
  l.foldlM (fun all a => do let bs ← f a; pure (all ++ bs)) acc

theorem foldAppend_cons {a : α} :
    foldAppend f (a :: l) acc = (f a >>= fun bs => foldAppend f l (acc ++ bs)) := by
  simp only [foldAppend, List.foldlM_cons, bind_assoc, pure_bind]

theorem foldAppend_ok (h : ∀ a ∈ l, ∃ bs, f a = .ok bs) : ∃ out, foldAppend f l acc = .ok out := by
  induction l generalizing acc with
  | nil => exact ⟨acc, rfl⟩
  | cons a l ih =>
    obtain ⟨bs, hbs⟩ := h a List.mem_cons_self
    rw [foldAppend_cons, hbs]
    exact ih fun a ha => h a (List.mem_cons_of_mem _ ha)

theorem mem_foldAppend (h : foldAppend f l acc = .ok out) :
    b ∈ out ↔ b ∈ acc ∨ ∃ a ∈ l, ∃ bs, f a = .ok bs ∧ b ∈ bs := by
  induction l generalizing acc with
  | nil =>
    cases h
    simp only [List.not_mem_nil, false_and, exists_false, or_false]
  | cons a l ih =>
    rw [foldAppend_cons, except_bind_eq_ok] at h
    obtain ⟨bs, hbs, h⟩ := h
    rw [ih h, List.mem_append, or_assoc]
    simp only [List.mem_cons, exists_eq_or_imp, hbs, Except.ok.injEq, exists_eq_left']

end FoldAppend

namespace Store
variable {π : Platform} {s s₁ s₂ : Store π} {keyOf : UInt64 → Bytes32}

def readKeylog (s : Store π) (author : UInt64) (key : Bytes32) :
    Except StorageError (List KeyLogEntry) :=
  readVerified π (keyReader π author key) s.disk.keylogs[author]?

/-- The key logs that a device folds: its own, and those of the active admins of its roster. -/
inductive Folds (s : Store π) : UInt64 → Bytes32 → Prop
  | own : Folds s s.peerId s.selfKey
  | admin (p : PeerRecord) (hp : p ∈ s.peers) (hs : p.status = .active) (hr : p.role = .admin)
      (hne : p.peerId ≠ s.peerId) (hv : π.validKey p.verifyingKey = true) :
      Folds s p.peerId p.verifyingKey

def peerKeylog (s : Store π) (peer : PeerRecord) : Except StorageError (List KeyLogEntry) :=
  if peer.status ≠ .active ∨ peer.role ≠ .admin ∨ peer.peerId = s.peerId then .ok []
  else if π.validKey peer.verifyingKey then s.readKeylog peer.peerId peer.verifyingKey
  else .ok []

theorem mergedKeylog_eq :
    s.mergedKeylog = s.readKeylog s.peerId s.selfKey >>= foldAppend s.peerKeylog s.peers := by
  have hstep (all : List KeyLogEntry) (peer : PeerRecord) :
      (if peer.status ≠ .active ∨ peer.role ≠ .admin ∨ peer.peerId = s.peerId then pure all
        else if π.validKey peer.verifyingKey then do
          let entries ← readVerified π (keyReader π peer.peerId peer.verifyingKey)
            s.disk.keylogs[peer.peerId]?
          pure (all ++ entries)
        else pure all) =
        (do let es ← s.peerKeylog peer; pure (all ++ es) : Except StorageError _) := by
    rw [peerKeylog]
    split
    next => exact congrArg Except.ok (List.append_nil all).symm
    next =>
      split
      next => rfl
      next => exact congrArg Except.ok (List.append_nil all).symm
  simp only [mergedKeylog, hstep]
  rfl

theorem peerKeylog_mem : (∃ p ∈ s.peers, ∃ es, s.peerKeylog p = .ok es ∧ x ∈ es) ↔
      ∃ p ∈ s.peers, p.status = .active ∧ p.role = .admin ∧ p.peerId ≠ s.peerId ∧
        π.validKey p.verifyingKey = true ∧
        ∃ es, s.readKeylog p.peerId p.verifyingKey = .ok es ∧ x ∈ es := by
  apply exists_congr
  intro p
  apply and_congr_right
  intro _
  rw [peerKeylog]
  split
  next h =>
    constructor
    · intro hx
      obtain ⟨es, hes, hx⟩ := hx
      cases hes
      cases hx
    · intro hx
      tauto
  next h =>
    split
    next hv => tauto
    next hv =>
      constructor
      · intro hx
        obtain ⟨es, hes, hx⟩ := hx
        cases hes
        cases hx
      · intro hx
        exact absurd hx.2.2.2.1 hv

theorem mem_mergedKeylog (h : s.mergedKeylog = .ok entries) :
    x ∈ entries ↔ ∃ a key, s.Folds a key ∧ ∃ es, s.readKeylog a key = .ok es ∧ x ∈ es := by
  rw [mergedKeylog_eq, except_bind_eq_ok] at h
  obtain ⟨own, hown, h⟩ := h
  rw [mem_foldAppend h, peerKeylog_mem]
  constructor
  · intro hx
    cases hx with
    | inl hx => exact ⟨_, _, .own, own, hown, hx⟩
    | inr hx =>
      obtain ⟨p, hp, hs, hr, hne, hv, hx⟩ := hx
      exact ⟨_, _, .admin p hp hs hr hne hv, hx⟩
  · intro hx
    obtain ⟨a, key, hf, es, hes, hx⟩ := hx
    cases hf with
    | own =>
      cases hown.symm.trans hes
      exact .inl hx
    | admin p hp hs hr hne hv => exact .inr ⟨p, hp, hs, hr, hne, hv, es, hes, hx⟩

theorem mergedKeylog_ok (h : ∀ a key, s.Folds a key → ∃ es, s.readKeylog a key = .ok es) :
    ∃ entries, s.mergedKeylog = .ok entries := by
  obtain ⟨own, hown⟩ := h _ _ .own
  have hpeers : ∀ p ∈ s.peers, ∃ es, s.peerKeylog p = .ok es := by
    intro p hp
    rw [peerKeylog]
    split
    next => exact ⟨[], rfl⟩
    next hskip =>
      split
      next hv =>
        simp only [ne_eq, not_or, not_not] at hskip
        exact h _ _ (.admin p hp hskip.1 hskip.2.1 hskip.2.2 hv)
      next => exact ⟨[], rfl⟩
  obtain ⟨entries, he⟩ := @foldAppend_ok _ _ _ s.peerKeylog s.peers own hpeers
  exact ⟨entries, mergedKeylog_eq.trans (except_bind_eq_ok.2 ⟨own, hown, he⟩)⟩

theorem keychain_eq (h : s.mergedKeylog = .ok entries) (idKey epoch0Key : Bytes32) :
    s.keychain idKey epoch0Key =
      .ok (Keychain.build π.crypto idKey epoch0Key s.peerId (π.x25519Secret s.identity.secret)
        entries) := by
  rw [keychain, h]
  rfl

theorem readKeylog_author (h : s.readKeylog a key = .ok es) (hx : x ∈ es) : x.author = a := by
  obtain ⟨line, hline⟩ := readVerified_mem h hx
  exact keyReader_author hline

end Store

end Roam
