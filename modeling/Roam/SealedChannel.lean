import Roam.Pake
import Roam.Library.Run
import Mathlib.Logic.Function.Basic
import Mathlib.Data.List.Nodup

namespace Roam.Pake
open Library
set_option autoImplicit true

def u64Max : Nat := 2 ^ 64 - 1

def Side.peer : Side → Side
  | .initiator => .responder
  | .responder => .initiator

/-- `Sealer::seal`; there is no next channel when the counter overflows, which panics after the
encryption. -/
def Channel.sealChecked (c : Channel Digest) (plaintext : Bytes) :
    Encryption Digest × Option (Channel Digest) :=
  let (e, next) := c.encrypt plaintext
  (e, if c.counter < u64Max then some next else none)

/-- `Opener::open`, with the same overflow. -/
def Channel.openChecked (L : PakeLib Digest) (c : Channel Digest) (ciphertext : Bytes) :
    Option (Except PakeError (Bytes × Channel Digest)) :=
  match c.decrypt L ciphertext with
  | .error e => some (.error e)
  | .ok r => if c.counter < u64Max then some (.ok r) else none

/-- Both ends of a session, every use of the cipher so far, those whose ciphertext `seal` returned,
and what `open` returned. -/
structure Session (Digest : Type) where
  sealer : Side → Channel Digest
  opener : Side → Channel Digest
  encrypted : List (Encryption Digest)
  sealed : Side → List (Encryption Digest)
  opened : Side → List Bytes

inductive SessionCall
  | sealNext (side : Side) (plaintext : Bytes)
  | openNext (side : Side) (bytes : Bytes)
deriving DecidableEq

def SessionKey.sendKey (key : SessionKey Digest) (side : Side) : Digest := (key.split side).1.key

namespace Session

def start (key : SessionKey Digest) : Session Digest where
  sealer side := (key.split side).1
  opener side := (key.split side).2
  encrypted := []
  sealed _ := []
  opened _ := []

def sealNext (s : Session Digest) (side : Side) (plaintext : Bytes) : Session Digest :=
  let (e, next) := (s.sealer side).sealChecked plaintext
  let s := { s with encrypted := s.encrypted ++ [e] }
  match next with
  | none => s
  | some c =>
    { s with
      sealer := Function.update s.sealer side c
      sealed := Function.update s.sealed side (s.sealed side ++ [e]) }

def sent (L : PakeLib Digest) (s : Session Digest) (side : Side) : List Bytes :=
  (s.sealed side).map (·.ciphertext L)

section
variable (L : PakeLib Digest)

def openNext (s : Session Digest) (side : Side) (bytes : Bytes) : Session Digest :=
  match (s.opener side).openChecked L bytes with
  | some (.ok (plaintext, c')) =>
    { s with
      opener := Function.update s.opener side c'
      opened := Function.update s.opened side (s.opened side ++ [plaintext]) }
  | _ => s

def step (s : Session Digest) : SessionCall → Session Digest
  | .sealNext side plaintext => s.sealNext side plaintext
  | .openNext side bytes => s.openNext L side bytes

/-- What the cipher decrypts under a key and a nonce was encrypted under them before. -/
def NoForgery (s : Session Digest) : SessionCall → Prop
  | .sealNext _ _ => True
  | .openNext side bytes =>
    ∀ plaintext ∈ L.decrypt (s.opener side).key (nonceFor (s.opener side).counter) bytes,
      ⟨(s.opener side).key, nonceFor (s.opener side).counter, plaintext⟩ ∈ s.encrypted

instance [DecidableEq Digest] (s : Session Digest) (call : SessionCall) :
    Decidable (s.NoForgery L call) :=
  match call with
  | .sealNext _ _ => .isTrue trivial
  | .openNext _ _ => inferInstanceAs (Decidable (∀ _ ∈ (_ : Option Bytes), _))

end

end Session

theorem nonceFor_injective (hi : i ≤ u64Max) (hj : j ≤ u64Max) (h : nonceFor i = nonceFor j) :
    i = j := by
  have hi : i < 2 ^ 64 := Nat.lt_succ_of_le hi
  have hj : j < 2 ^ 64 := Nat.lt_succ_of_le hj
  have heq := congrArg UInt64.toNat (toLeBytes_injective (List.append_cancel_right h))
  rwa [UInt64.toNat_ofNat_of_lt' hi, UInt64.toNat_ofNat_of_lt' hj] at heq

theorem SessionKey.sendKey_injective {key : SessionKey Digest}
    (hkeys : key.initiatorToResponder ≠ key.responderToInitiator)
    (h : key.sendKey side = key.sendKey other) : side = other := by
  cases side with
  | initiator =>
    cases other with
    | initiator => rfl
    | responder => exact absurd h hkeys
  | responder =>
    cases other with
    | initiator => exact absurd h.symm hkeys
    | responder => rfl

section
variable {Digest : Type} {k : Digest} {used sealed : List (Encryption Digest)} {c : Channel Digest}

/-- How the uses of the cipher under one key, the sealer of that key and what it has sealed hang
together. The counter stands still once it has overflowed. -/
structure Sealing (k : Digest) (used : List (Encryption Digest)) (c : Channel Digest)
    (sealed : List (Encryption Digest)) : Prop where
  channel : c = ⟨k, min used.length u64Max⟩
  nonces : used.map (·.nonce) = (List.range used.length).map fun i => nonceFor (min i u64Max)
  returned : sealed = used.take u64Max

theorem Sealing.nonces_concat (h : Sealing k used c sealed) (m : Bytes) :
    (used ++ [(c.encrypt m).1]).map (·.nonce) =
      (List.range (used ++ [(c.encrypt m).1]).length).map fun i => nonceFor (min i u64Max) := by
  rw [List.map_append, h.nonces, List.length_append, List.length_singleton, List.range_succ,
    List.map_append, h.channel]
  rfl

theorem Sealing.sealNext (h : Sealing k used c sealed) (hlt : c.counter < u64Max) (m : Bytes) :
    Sealing k (used ++ [(c.encrypt m).1]) (c.encrypt m).2 (sealed ++ [(c.encrypt m).1]) := by
  have hcounter : c.counter = min used.length u64Max := congrArg Channel.counter h.channel
  have hlen : (used ++ [(c.encrypt m).1]).length = used.length + 1 := List.length_append
  refine ⟨?_, h.nonces_concat m, ?_⟩
  · rw [hlen, Channel.encrypt, Channel.mk.injEq]
    exact ⟨congrArg Channel.key h.channel, by omega⟩
  · rw [h.returned, List.take_of_length_le (by omega), List.take_of_length_le (by omega)]

theorem Sealing.overflow (h : Sealing k used c sealed) (hge : ¬ c.counter < u64Max) (m : Bytes) :
    Sealing k (used ++ [(c.encrypt m).1]) c sealed := by
  have hcounter : c.counter = min used.length u64Max := congrArg Channel.counter h.channel
  have hlen : (used ++ [(c.encrypt m).1]).length = used.length + 1 := List.length_append
  refine ⟨?_, h.nonces_concat m, ?_⟩
  · refine h.channel.trans ?_
    rw [hlen, Channel.mk.injEq]
    exact ⟨rfl, by omega⟩
  · rw [h.returned, List.take_append_of_le_length (by omega)]

theorem Sealing.nodup (h : Sealing k used c sealed) (hfew : used.length < 2 ^ 64) :
    (used.map (·.nonce)).Nodup := by
  rw [h.nonces]
  apply List.Nodup.map_on _ List.nodup_range
  intro i hi j hj heq
  have hi := List.mem_range.1 hi
  have hj := List.mem_range.1 hj
  have hmin := nonceFor_injective (Nat.min_le_right _ _) (Nat.min_le_right _ _) heq
  unfold u64Max at hmin
  omega

theorem Sealing.getElem? (h : Sealing k used c sealed) (hn : n < u64Max)
    (hmem : ⟨k, nonceFor n, m⟩ ∈ used) : (sealed.map (·.plaintext))[n]? = some m := by
  obtain ⟨j, hj, hget⟩ := List.getElem_of_mem hmem
  have hnonce := congrArg (·[j]?) h.nonces
  rw [List.getElem?_map, List.getElem?_map, List.getElem?_eq_getElem hj, hget,
    List.getElem?_range hj] at hnonce
  have hmin := nonceFor_injective hn.le (Nat.min_le_right _ _) (Option.some.inj hnonce)
  have hjn : j = n := by omega
  subst hjn
  rw [h.returned, List.getElem?_map, List.getElem?_take_of_lt hn,
    List.getElem?_eq_getElem hj, hget]
  rfl

end

namespace Session
variable {Digest : Type} [DecidableEq Digest] {L : PakeLib Digest} {key : SessionKey Digest}
  {s : Session Digest}

def under (s : Session Digest) (k : Digest) : List (Encryption Digest) :=
  s.encrypted.filter (·.key = k)

structure InStep (key : SessionKey Digest) (s : Session Digest) : Prop where
  sealing (side : Side) :
    Sealing (key.sendKey side) (s.under (key.sendKey side)) (s.sealer side) (s.sealed side)
  opener (side : Side) : s.opener side = ⟨key.sendKey side.peer, (s.opened side).length⟩
  opened (side : Side) : s.opened side <+: (s.sealed side.peer).map (·.plaintext)
  keys : ∀ e ∈ s.encrypted, ∃ side, e.key = key.sendKey side

theorem inStep_start (key : SessionKey Digest) : (start key).InStep key where
  sealing side := by
    refine ⟨?_, rfl, rfl⟩
    cases side <;> rfl
  opener side := by cases side <;> rfl
  opened _ := List.prefix_rfl
  keys := nofun

theorem InStep.sealNext (h : s.InStep key)
    (hkeys : key.initiatorToResponder ≠ key.responderToInitiator) (side : Side) (m : Bytes) :
    (s.sealNext side m).InStep key := by
  have hkey : ((s.sealer side).encrypt m).1.key = key.sendKey side := by
    rw [(h.sealing side).channel]
    rfl
  have hnew : ∀ e ∈ s.encrypted ++ [((s.sealer side).encrypt m).1],
      ∃ side, e.key = key.sendKey side := by
    rw [List.forall_mem_append, List.forall_mem_singleton]
    exact ⟨h.keys, side, hkey⟩
  -- the cipher is used under the key of this side only
  have hunder : ∀ other, List.filter (·.key = key.sendKey other)
      (s.encrypted ++ [((s.sealer side).encrypt m).1]) =
      if other = side then s.under (key.sendKey side) ++ [((s.sealer side).encrypt m).1]
      else s.under (key.sendKey other) := by
    intro other
    rw [List.filter_append, List.filter_singleton, hkey]
    split
    next heq =>
      subst heq
      rw [decide_eq_true rfl]
      rfl
    next hne =>
      have hother : key.sendKey side ≠ key.sendKey other :=
        fun heq => hne (SessionKey.sendKey_injective hkeys heq).symm
      rw [decide_eq_false hother]
      exact List.append_nil _
  dsimp only [Session.sealNext, Channel.sealChecked]
  by_cases hlt : (s.sealer side).counter < u64Max
  · rw [if_pos hlt]
    refine ⟨fun other => ?_, h.opener, fun other => ?_, hnew⟩
    · dsimp only [under]
      rw [hunder, Function.update_apply, Function.update_apply]
      split
      next heq =>
        subst heq
        exact (h.sealing other).sealNext hlt m
      next hne => exact h.sealing other
    · dsimp only
      rw [Function.update_apply]
      split
      next heq =>
        rw [List.map_append, ← heq]
        exact (h.opened other).trans (List.prefix_append _ _)
      next hne => exact h.opened other
  · rw [if_neg hlt]
    refine ⟨fun other => ?_, h.opener, h.opened, hnew⟩
    dsimp only [under]
    rw [hunder]
    split
    next heq =>
      subst heq
      exact (h.sealing other).overflow hlt m
    next hne => exact h.sealing other

theorem InStep.openNext (h : s.InStep key) (side : Side) (bytes : Bytes)
    (hforge : s.NoForgery L (.openNext side bytes)) : (s.openNext L side bytes).InStep key := by
  dsimp only [Session.openNext, Channel.openChecked, Channel.decrypt]
  dsimp only [NoForgery] at hforge
  cases hdecrypt : L.decrypt (s.opener side).key (nonceFor (s.opener side).counter) bytes with
  | none => exact h
  | some m =>
    have hmem := hforge m hdecrypt
    dsimp only
    by_cases hlt : (s.opener side).counter < u64Max
    · rw [if_pos hlt]
      rw [h.opener side] at hmem hlt
      have hget := (h.sealing side.peer).getElem? hlt
        (List.mem_filter.2 ⟨hmem, decide_eq_true rfl⟩)
      -- the opened plaintexts are those sealed first, and the next one follows them
      have hnext : s.opened side ++ [m] <+: (s.sealed side.peer).map (·.plaintext) := by
        rw [List.prefix_iff_eq_take, List.length_append, List.length_singleton, List.take_add_one,
          ← List.prefix_iff_eq_take.1 (h.opened side), hget]
        rfl
      refine ⟨h.sealing, fun other => ?_, fun other => ?_, h.keys⟩
      · dsimp only
        rw [Function.update_apply, Function.update_apply]
        split
        next heq =>
          subst heq
          rw [h.opener other, List.length_append]
          rfl
        next => exact h.opener other
      · dsimp only
        rw [Function.update_apply]
        split
        next heq =>
          subst heq
          exact hnext
        next => exact h.opened other
    · rw [if_neg hlt]
      exact h

theorem InStep.step (h : s.InStep key)
    (hkeys : key.initiatorToResponder ≠ key.responderToInitiator) (call : SessionCall)
    (hforge : s.NoForgery L call) : (s.step L call).InStep key := by
  cases call with
  | sealNext side m => exact h.sealNext hkeys side m
  | openNext side bytes => exact h.openNext side bytes hforge

def clearPake : PakeLib UInt8 where
  Secret := Unit
  SpakeKey := Unit
  startA _ _ _ _ := []
  startB _ _ _ _ := []
  finishA _ _ _ _ _ := some ()
  finishB _ _ _ _ _ := some ()
  deriveKey _ _ := 0
  keyedHash _ _ := 0
  encrypt key nonce plaintext := key :: nonce ++ plaintext
  decrypt key nonce ciphertext :=
    if ciphertext.take 13 = key :: nonce then some (ciphertext.drop 13) else none

def attackedSeals : List SessionCall := [.sealNext .initiator [7], .sealNext .initiator [8]]

def attackedCalls : List SessionCall :=
  let sent := sent clearPake (runAll (step clearPake) (start ⟨1, 2⟩) attackedSeals) .initiator
  attackedSeals ++ [.openNext .responder (sent.getD 1 []), .openNext .initiator (sent.getD 0 []),
    .openNext .responder (sent.getD 0 []), .openNext .responder (sent.getD 0 [])]

end Session

end Roam.Pake
