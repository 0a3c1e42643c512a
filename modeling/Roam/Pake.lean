import Roam.Base

namespace Roam
set_option autoImplicit true

/-- `spake2`, `blake3` and the cipher, over the type of what the hashes give. A run of `spake2` is
given by its random secret; `finish` fails on a message that it cannot parse. -/
structure PakeLib (Digest : Type) where
  Secret : Type
  SpakeKey : Type
  startA : String → Bytes32 → Bytes32 → Secret → Bytes
  startB : String → Bytes32 → Bytes32 → Secret → Bytes
  finishA : String → Bytes32 → Bytes32 → Secret → Bytes → Option SpakeKey
  finishB : String → Bytes32 → Bytes32 → Secret → Bytes → Option SpakeKey
  deriveKey : String → SpakeKey → Digest
  keyedHash : Digest → Bytes → Digest
  encrypt : Digest → Bytes → Bytes → Bytes
  decrypt : Digest → Bytes → Bytes → Option Bytes

namespace Pake

def maxAttempts : Nat := 3

def confirmContext : String := "roam.pake.v1 key confirmation"

def sealI2rContext : String := "roam.pake.v1 payload seal initiator-to-responder"

def sealR2iContext : String := "roam.pake.v1 payload seal responder-to-initiator"

inductive PakeError
  | badCode
  | malformedMessage
  | noAttemptsLeft
  | undecryptable
deriving DecidableEq, Repr

inductive Role
  | initiator
  | responder
deriving DecidableEq, Repr

def Role.tag : Role → UInt8
  | .initiator => 1
  | .responder => 2

def transcript (role : Role) (initiatorId responderId : Bytes32) (msg1 msg2 : Bytes) : Bytes :=
  role.tag :: (initiatorId.bytes ++ (responderId.bytes ++
    (toLeBytes 8 (UInt64.ofNat msg1.length) ++ (msg1 ++
      (toLeBytes 8 (UInt64.ofNat msg2.length) ++ msg2)))))

structure SessionKey (Digest : Type) where
  initiatorToResponder : Digest
  responderToInitiator : Digest
deriving DecidableEq

structure Channel (Digest : Type) where
  key : Digest
  counter : Nat

inductive Side
  | initiator
  | responder
deriving DecidableEq, Repr

def SessionKey.split (key : SessionKey Digest) : Side → Channel Digest × Channel Digest
  | .initiator => (⟨key.initiatorToResponder, 0⟩, ⟨key.responderToInitiator, 0⟩)
  | .responder => (⟨key.responderToInitiator, 0⟩, ⟨key.initiatorToResponder, 0⟩)

structure Encryption (Digest : Type) where
  key : Digest
  nonce : Bytes
  plaintext : Bytes
deriving DecidableEq

def nonceFor (counter : Nat) : Bytes := toLeBytes 8 (UInt64.ofNat counter) ++ [0, 0, 0, 0]

/-- `Sealer::seal`. -/
def Channel.encrypt (c : Channel Digest) (plaintext : Bytes) :
    Encryption Digest × Channel Digest :=
  (⟨c.key, nonceFor c.counter, plaintext⟩, { c with counter := c.counter + 1 })

structure Initiator (L : PakeLib Digest) where
  code : String
  initiatorId : Bytes32
  responderId : Bytes32
  secret : L.Secret
  msg1 : Bytes

structure PendingInitiator (Digest : Type) where
  expected : Digest
  key : SessionKey Digest

structure Responder where
  code : String
  responderId : Bytes32
  attemptsLeft : Nat
deriving DecidableEq

structure PendingResponder (Digest : Type) where
  expected : Digest
  ours : Digest
  key : SessionKey Digest

section
variable (L : PakeLib Digest)

def confirmMac (key : L.SpakeKey) (role : Role) (initiatorId responderId : Bytes32)
    (msg1 msg2 : Bytes) : Digest :=
  L.keyedHash (L.deriveKey confirmContext key) (transcript role initiatorId responderId msg1 msg2)

def sessionKey (key : L.SpakeKey) : SessionKey Digest where
  initiatorToResponder := L.deriveKey sealI2rContext key
  responderToInitiator := L.deriveKey sealR2iContext key

def Encryption.ciphertext (e : Encryption Digest) : Bytes := L.encrypt e.key e.nonce e.plaintext

/-- `Opener::open`. -/
def Channel.decrypt (c : Channel Digest) (ciphertext : Bytes) :
    Except PakeError (Bytes × Channel Digest) :=
  match L.decrypt c.key (nonceFor c.counter) ciphertext with
  | some plaintext => .ok (plaintext, { c with counter := c.counter + 1 })
  | none => .error .undecryptable

def Initiator.start (code : String) (initiatorId responderId : Bytes32) (secret : L.Secret) :
    Initiator L × Bytes :=
  let msg1 := L.startA code initiatorId responderId secret
  ({ code, initiatorId, responderId, secret, msg1 }, msg1)

variable {L}

/-- Take in the answer of the responder: the confirmation to send, and the one to wait for. -/
def Initiator.accept (me : Initiator L) (msg2 : Bytes) :
    Except PakeError (PendingInitiator Digest × Digest) :=
  match L.finishA me.code me.initiatorId me.responderId me.secret msg2 with
  | none => .error .malformedMessage
  | some key =>
    let ours := confirmMac L key .initiator me.initiatorId me.responderId me.msg1 msg2
    let theirs := confirmMac L key .responder me.initiatorId me.responderId me.msg1 msg2
    .ok ({ expected := theirs, key := sessionKey L key }, ours)

def PendingInitiator.verify [DecidableEq Digest] (p : PendingInitiator Digest)
    (responderConfirm : Digest) : Except PakeError (SessionKey Digest) :=
  if p.expected ≠ responderConfirm then .error .badCode else .ok p.key

def Responder.new (code : String) (responderId : Bytes32) : Responder :=
  { code, responderId, attemptsLeft := maxAttempts }

def Responder.respond (L : PakeLib Digest) (r : Responder) (secret : L.Secret)
    (initiatorId : Bytes32) (msg1 : Bytes) : Except PakeError (PendingResponder Digest × Bytes) :=
  if r.attemptsLeft = 0 then .error .noAttemptsLeft
  else
    let msg2 := L.startB r.code initiatorId r.responderId secret
    match L.finishB r.code initiatorId r.responderId secret msg1 with
    | none => .error .malformedMessage
    | some key =>
      .ok ({ expected := confirmMac L key .initiator initiatorId r.responderId msg1 msg2
             ours := confirmMac L key .responder initiatorId r.responderId msg1 msg2
             key := sessionKey L key }, msg2)

def Responder.verify [DecidableEq Digest] (r : Responder) (pending : PendingResponder Digest)
    (initiatorConfirm : Digest) : Except PakeError (SessionKey Digest × Digest) × Responder :=
  if r.attemptsLeft = 0 then (.error .noAttemptsLeft, r)
  else if pending.expected ≠ initiatorConfirm then
    (.error .badCode, { r with attemptsLeft := r.attemptsLeft - 1 })
  else (.ok (pending.key, pending.ours), r)

end

theorem Role.tag_injective : Function.Injective Role.tag := by
  intro r r' h
  cases r with
  | initiator =>
    cases r' with
    | initiator => rfl
    | responder => cases h
  | responder =>
    cases r' with
    | initiator => cases h
    | responder => rfl

/-- Lengths stand before both messages, so that no two transcripts have the same bytes. -/
theorem transcript_injective (hm₁ : m₁.length < 2 ^ 64) (hm₁' : m₁'.length < 2 ^ 64)
    (h : transcript r a b m₁ m₂ = transcript r' a' b' m₁' m₂') :
    r = r' ∧ a = a' ∧ b = b' ∧ m₁ = m₁' ∧ m₂ = m₂' := by
  obtain ⟨hr, h⟩ := List.cons.inj h
  obtain ⟨ha, h⟩ := List.append_inj h (by rw [a.size, a'.size])
  obtain ⟨hb, h⟩ := List.append_inj h (by rw [b.size, b'.size])
  obtain ⟨hlen, h⟩ := List.append_inj h (by rw [toLeBytes_length, toLeBytes_length])
  have hlen := congrArg UInt64.toNat (toLeBytes_injective hlen)
  rw [UInt64.toNat_ofNat_of_lt' hm₁, UInt64.toNat_ofNat_of_lt' hm₁'] at hlen
  obtain ⟨hm, h⟩ := List.append_inj h hlen
  obtain ⟨_, h⟩ := List.append_inj h (by rw [toLeBytes_length, toLeBytes_length])
  exact ⟨Role.tag_injective hr, Bytes32.bytes_injective ha, Bytes32.bytes_injective hb, hm, h⟩

section
variable {L : PakeLib Digest}

theorem Initiator.accept_ok {me : Initiator L} (h : me.accept msg2 = .ok (p, ours)) :
    ∃ key, L.finishA me.code me.initiatorId me.responderId me.secret msg2 = some key ∧
      ours = confirmMac L key .initiator me.initiatorId me.responderId me.msg1 msg2 ∧
      p.expected = confirmMac L key .responder me.initiatorId me.responderId me.msg1 msg2 ∧
      p.key = sessionKey L key := by
  rw [Initiator.accept] at h
  split at h
  next => cases h
  next key hkey =>
    cases h
    exact ⟨key, hkey, rfl, rfl, rfl⟩

theorem Responder.respond_ok {r : Responder} (h : r.respond L y a msg1 = .ok (p, msg2)) :
    r.attemptsLeft ≠ 0 ∧ msg2 = L.startB r.code a r.responderId y ∧
      ∃ key, L.finishB r.code a r.responderId y msg1 = some key ∧
        p.expected = confirmMac L key .initiator a r.responderId msg1 msg2 ∧
        p.ours = confirmMac L key .responder a r.responderId msg1 msg2 ∧
        p.key = sessionKey L key := by
  rw [Responder.respond] at h
  split at h
  next => cases h
  next hleft =>
    dsimp only at h
    split at h
    next => cases h
    next key hkey =>
      cases h
      exact ⟨hleft, rfl, key, hkey, rfl, rfl, rfl⟩

variable [DecidableEq Digest]

theorem PendingInitiator.verify_ok_iff {p : PendingInitiator Digest} {key : SessionKey Digest} :
    p.verify confirm = .ok key ↔ p.expected = confirm ∧ p.key = key := by
  rw [PendingInitiator.verify]
  split
  next hne => exact ⟨nofun, fun h => absurd h.1 hne⟩
  next heq =>
    rw [Except.ok.injEq]
    exact ⟨fun h => ⟨not_not.1 heq, h⟩, fun h => h.2⟩

theorem Responder.verify_cases (r : Responder) (pending : PendingResponder Digest)
    (confirm : Digest) :
    (r.attemptsLeft = 0 ∧ r.verify pending confirm = (.error .noAttemptsLeft, r)) ∨
    (r.attemptsLeft ≠ 0 ∧ pending.expected ≠ confirm ∧ r.verify pending confirm =
      (.error .badCode, { r with attemptsLeft := r.attemptsLeft - 1 })) ∨
    (r.attemptsLeft ≠ 0 ∧ pending.expected = confirm ∧
      r.verify pending confirm = (.ok (pending.key, pending.ours), r)) := by
  rw [Responder.verify]
  split
  next hzero => exact .inl ⟨hzero, rfl⟩
  next hleft =>
    split
    next hne => exact .inr (.inl ⟨hleft, hne, rfl⟩)
    next heq => exact .inr (.inr ⟨hleft, not_not.1 heq, rfl⟩)

end

end Pake

end Roam
