import Roam.Pake
import Roam.Library.Run

namespace Roam
set_option autoImplicit true
open Library

namespace Pake

/-- A message as it arrives; a slice is never longer than an address. -/
structure Wire where
  bytes : Bytes
  fits : bytes.length < 2 ^ 64

/-- An `Initiator`, the message that it accepted, and the confirmation that it was given. Both
calls consume the value that they are made on. -/
structure InitiatorRun (L : PakeLib Digest) where
  me : Initiator L
  accepted : Option (Bytes × Except PakeError (PendingInitiator Digest × Digest))
  verified : Option (Digest × Except PakeError (SessionKey Digest))

/-- An answer of the `Responder` with the number `host`, and the confirmation that came for it. -/
structure ResponderRun (Digest : Type) where
  host : Nat
  code : String
  initiatorId : Bytes32
  responderId : Bytes32
  msg1 : Bytes
  msg2 : Bytes
  pending : PendingResponder Digest
  verified : Option (Digest × Except PakeError (SessionKey Digest × Digest))

/-- All runs, by number, and the confirmations that were sent. Of the other messages no account is
kept: the attacker may deliver any. -/
structure Network (L : PakeLib Digest) where
  initiators : Nat → Option (InitiatorRun L)
  hosts : Nat → Option Responder
  responders : Nat → Option (ResponderRun Digest)
  sent : List Digest

inductive NetworkCall (L : PakeLib Digest)
  | start (i : Nat) (code : String) (initiatorId responderId : Bytes32) (secret : L.Secret)
  | accept (i : Nat) (msg2 : Wire)
  | verifyInitiator (i : Nat) (confirm : Digest)
  | host (h : Nat) (code : String) (responderId : Bytes32)
  | respond (h n : Nat) (secret : L.Secret) (initiatorId : Bytes32) (msg1 : Wire)
  | verifyResponder (n : Nat) (confirm : Digest)

namespace Network
variable {L : PakeLib Digest}

def empty (L : PakeLib Digest) : Network L where
  initiators _ := none
  hosts _ := none
  responders _ := none
  sent := []

def putInitiator (s : Network L) (i : Nat) (run : InitiatorRun L) : Network L :=
  { s with initiators := Function.update s.initiators i (some run) }

def putResponder (s : Network L) (n : Nat) (run : ResponderRun Digest) : Network L :=
  { s with responders := Function.update s.responders n (some run) }

def putHost (s : Network L) (h : Nat) (r : Responder) : Network L :=
  { s with hosts := Function.update s.hosts h (some r) }

def send (s : Network L) (d : Digest) : Network L := { s with sent := d :: s.sent }

def start (s : Network L) (i : Nat) (code : String) (initiatorId responderId : Bytes32)
    (secret : L.Secret) : Network L :=
  match s.initiators i with
  | some _ => s
  | none =>
    let (me, _) := Initiator.start L code initiatorId responderId secret
    s.putInitiator i { me, accepted := none, verified := none }

def accept (s : Network L) (i : Nat) (msg2 : Bytes) : Network L :=
  match s.initiators i with
  | none => s
  | some run =>
    if run.accepted.isSome then s
    else
      let result := run.me.accept msg2
      let s := s.putInitiator i { run with accepted := some (msg2, result) }
      match result with
      | .ok (_, ours) => s.send ours
      | .error _ => s

def respond (s : Network L) (h n : Nat) (secret : L.Secret) (initiatorId : Bytes32)
    (msg1 : Bytes) : Network L :=
  match s.hosts h, s.responders n with
  | some r, none =>
    match r.respond L secret initiatorId msg1 with
    | .ok (pending, msg2) =>
      s.putResponder n
        { host := h, code := r.code, initiatorId, responderId := r.responderId, msg1, msg2, pending,
          verified := none }
    | .error _ => s
  | _, _ => s

variable [DecidableEq Digest]

def verifyInitiator (s : Network L) (i : Nat) (confirm : Digest) : Network L :=
  match s.initiators i with
  | none => s
  | some run =>
    match run.accepted, run.verified with
    | some (_, .ok (pending, _)), none =>
      s.putInitiator i { run with verified := some (confirm, pending.verify confirm) }
    | _, _ => s

def verifyResponder (s : Network L) (n : Nat) (confirm : Digest) : Network L :=
  match s.responders n with
  | none => s
  | some run =>
    if run.verified.isSome then s
    else
      match s.hosts run.host with
      | none => s
      | some r =>
        let (result, r) := r.verify run.pending confirm
        let s := (s.putHost run.host r).putResponder n
          { run with verified := some (confirm, result) }
        match result with
        | .ok (_, ours) => s.send ours
        | .error _ => s

def step (s : Network L) : NetworkCall L → Network L
  | .start i code initiatorId responderId secret => s.start i code initiatorId responderId secret
  | .accept i msg2 => s.accept i msg2.bytes
  | .verifyInitiator i confirm => s.verifyInitiator i confirm
  | .host h code responderId =>
    if (s.hosts h).isSome then s else s.putHost h (.new code responderId)
  | .respond h n secret initiatorId msg1 => s.respond h n secret initiatorId msg1.bytes
  | .verifyResponder n confirm => s.verifyResponder n confirm

end Network

structure Attacker (L : PakeLib Digest) where
  codes : Set String
  keys : Set L.SpakeKey

/-- What the attacker can make of the confirmations it has seen: hashes under what it already has,
and values that are no hash at all. -/
inductive Attacker.Derives {L : PakeLib Digest} (A : Attacker L) (seen : List Digest) :
    Digest → Prop
  | seen (h : d ∈ seen) : A.Derives seen d
  | deriveKey (context : String) (h : k ∈ A.keys) : A.Derives seen (L.deriveKey context k)
  | keyedHash (h : A.Derives seen d) (m : Bytes) : A.Derives seen (L.keyedHash d m)
  | other (hderive : ∀ context k, d ≠ L.deriveKey context k) (hmac : ∀ k m, d ≠ L.keyedHash k m) :
    A.Derives seen d

/-- Hashes are injective and never meet. The key of a run depends on the code, on the identities and
on what both sides drew, and takes the code to compute. -/
structure Symbolic (L : PakeLib Digest) (A : Attacker L) : Prop where
  keyedHash_injective : ∀ {d d' m m'}, L.keyedHash d m = L.keyedHash d' m' → d = d' ∧ m = m'
  deriveKey_injective : ∀ {c c' k k'}, L.deriveKey c k = L.deriveKey c' k' → c = c' ∧ k = k'
  deriveKey_ne_keyedHash : ∀ c k d m, L.deriveKey c k ≠ L.keyedHash d m
  shared : ∀ {c c' a a' b b' x y m₁ m₂ k}, L.finishA c a b x m₂ = some k →
    L.finishB c' a' b' y m₁ = some k →
      c = c' ∧ a = a' ∧ b = b' ∧ m₁ = L.startA c a b x ∧ m₂ = L.startB c' a' b' y
  secretA : ∀ {c a b x m k}, L.finishA c a b x m = some k → c ∉ A.codes → k ∉ A.keys
  secretB : ∀ {c a b y m k}, L.finishB c a b y m = some k → c ∉ A.codes → k ∉ A.keys
  startA_fits : ∀ c a b x, (L.startA c a b x).length < 2 ^ 64

/-- A confirmation that arrives is one that the attacker can make. -/
def NetworkCall.Deliverable {L : PakeLib Digest} (A : Attacker L) (s : Network L) :
    NetworkCall L → Prop
  | .verifyInitiator _ confirm | .verifyResponder _ confirm => A.Derives s.sent confirm
  | _ => True

section Symbolic
variable {L : PakeLib Digest} {A : Attacker L} {seen : List Digest}

theorem Symbolic.confirmMac_injective (hL : Symbolic L A) (hm₁ : m₁.length < 2 ^ 64)
    (hm₁' : m₁'.length < 2 ^ 64)
    (h : confirmMac L k r a b m₁ m₂ = confirmMac L k' r' a' b' m₁' m₂') :
    k = k' ∧ r = r' ∧ a = a' ∧ b = b' ∧ m₁ = m₁' ∧ m₂ = m₂' := by
  obtain ⟨hkey, htranscript⟩ := hL.keyedHash_injective h
  exact ⟨(hL.deriveKey_injective hkey).2, transcript_injective hm₁ hm₁' htranscript⟩

theorem Attacker.Derives.mono (h : A.Derives seen d) (hseen : ∀ d ∈ seen, d ∈ seen') :
    A.Derives seen' d := by
  induction h with
  | seen h => exact .seen (hseen _ h)
  | deriveKey context h => exact .deriveKey context h
  | keyedHash _ m ih => exact .keyedHash ih m
  | other hderive hmac => exact .other hderive hmac

theorem Symbolic.not_derives_deriveKey (hL : Symbolic L A)
    (hseen : ∀ d ∈ seen, ∃ k m, d = L.keyedHash k m)
    (hk : k ∉ A.keys) : ¬ A.Derives seen (L.deriveKey context k) := by
  intro h
  generalize hd : L.deriveKey context k = d at h
  cases h with
  | seen h =>
    obtain ⟨k', m, hmac⟩ := hseen d h
    exact hL.deriveKey_ne_keyedHash _ _ _ _ (hd.trans hmac)
  | deriveKey context' h =>
    rw [(hL.deriveKey_injective hd).2] at hk
    exact hk h
  | keyedHash _ m => exact hL.deriveKey_ne_keyedHash _ _ _ _ hd
  | other hderive _ => exact hderive _ _ hd.symm

theorem Symbolic.confirm_seen (hL : Symbolic L A) (hseen : ∀ d ∈ seen, ∃ k m, d = L.keyedHash k m)
    (hk : k ∉ A.keys) (h : A.Derives seen (confirmMac L k r a b m₁ m₂)) :
    confirmMac L k r a b m₁ m₂ ∈ seen := by
  rw [confirmMac] at h ⊢
  generalize hd : L.keyedHash (L.deriveKey confirmContext k) (transcript r a b m₁ m₂) = d at h ⊢
  cases h with
  | seen h => exact h
  | deriveKey context _ => exact absurd hd.symm (hL.deriveKey_ne_keyedHash _ _ _ _)
  | keyedHash hkey m =>
    rw [← (hL.keyedHash_injective hd).1] at hkey
    exact absurd hkey (hL.not_derives_deriveKey hseen hk)
  | other _ hmac => exact absurd hd.symm (hmac _ _)

end Symbolic

section Runs
variable {L : PakeLib Digest} [DecidableEq Digest]

structure InitiatorRun.Sound (A : Attacker L) (sent : List Digest) (run : InitiatorRun L) :
    Prop where
  msg1_fits : run.me.msg1.length < 2 ^ 64
  accepted : ∀ msg2 result, run.accepted = some (msg2, result) → run.me.accept msg2 = result
  verified : ∀ given result, run.verified = some (given, result) → A.Derives sent given ∧
    ∃ msg2 pending ours, run.accepted = some (msg2, .ok (pending, ours)) ∧
      result = pending.verify given

structure ResponderRun.Sound (A : Attacker L) (sent : List Digest) (run : ResponderRun Digest) :
    Prop where
  msg1_fits : run.msg1.length < 2 ^ 64
  responded : ∃ secret key,
    L.finishB run.code run.initiatorId run.responderId secret run.msg1 = some key ∧
    run.pending.expected =
      confirmMac L key .initiator run.initiatorId run.responderId run.msg1 run.msg2 ∧
    run.pending.ours =
      confirmMac L key .responder run.initiatorId run.responderId run.msg1 run.msg2 ∧
    run.pending.key = sessionKey L key
  verified : ∀ given result, run.verified = some (given, result) → A.Derives sent given ∧
    ∀ key ours, result = .ok (key, ours) →
      run.pending.expected = given ∧ run.pending.key = key ∧ run.pending.ours = ours

namespace Network

def Confirmed (s : Network L) (d : Digest) : Prop :=
  ∃ i run msg2 pending, s.initiators i = some run ∧ run.accepted = some (msg2, .ok (pending, d))

def Released (s : Network L) (d : Digest) : Prop :=
  ∃ n run given key, s.responders n = some run ∧ run.verified = some (given, .ok (key, d))

structure Coherent (A : Attacker L) (s : Network L) : Prop where
  initiators : ∀ i run, s.initiators i = some run → run.Sound A s.sent
  responders : ∀ n run, s.responders n = some run → ResponderRun.Sound A s.sent run
  sent : ∀ d ∈ s.sent, s.Confirmed d ∨ s.Released d

variable {A : Attacker L} {s : Network L}

theorem coherent_empty : (empty L).Coherent A := ⟨nofun, nofun, nofun⟩

theorem Coherent.putInitiator (h : s.Coherent A) (hrun : run.Sound A s.sent)
    (hold : ∀ old, s.initiators i = some old → ∀ x, old.accepted = some x → run.accepted = some x) :
    (s.putInitiator i run).Coherent A := by
  have hput (i') : (s.putInitiator i run).initiators i' =
      if i' = i then some run else s.initiators i' := Function.update_apply _ _ _ _
  refine ⟨?_, h.responders, fun d hd => ?_⟩
  · intro i' run' hi'
    rw [hput] at hi'
    split at hi'
    next =>
      cases hi'
      exact hrun
    next => exact h.initiators i' run' hi'
  · rcases h.sent d hd with ⟨i', old, msg2, pending, hi', hacc⟩ | hreleased
    · apply Or.inl
      by_cases heq : i' = i
      · subst heq
        exact ⟨i', run, msg2, pending, by rw [hput, if_pos rfl], hold old hi' _ hacc⟩
      · exact ⟨i', old, msg2, pending, by rw [hput, if_neg heq, hi'], hacc⟩
    · exact .inr hreleased

theorem Coherent.putResponder (h : s.Coherent A) (hrun : ResponderRun.Sound A s.sent run)
    (hold : ∀ old, s.responders n = some old → old.verified = none) :
    (s.putResponder n run).Coherent A := by
  have hput (n') : (s.putResponder n run).responders n' =
      if n' = n then some run else s.responders n' := Function.update_apply _ _ _ _
  refine ⟨h.initiators, ?_, fun d hd => ?_⟩
  · intro n' run' hn'
    rw [hput] at hn'
    split at hn'
    next =>
      cases hn'
      exact hrun
    next => exact h.responders n' run' hn'
  · rcases h.sent d hd with hconfirmed | ⟨n', old, given, key, hn', hver⟩
    · exact .inl hconfirmed
    · have hne : n' ≠ n := by
        rintro rfl
        rw [hold old hn'] at hver
        cases hver
      exact .inr ⟨n', old, given, key, by rw [hput, if_neg hne, hn'], hver⟩

theorem Coherent.putHost (h : s.Coherent A) (i : Nat) (r : Responder) :
    (s.putHost i r).Coherent A := ⟨h.initiators, h.responders, h.sent⟩

theorem Coherent.send (h : s.Coherent A) (hd : s.Confirmed d ∨ s.Released d) :
    (s.send d).Coherent A := by
  have hsub : ∀ d' ∈ s.sent, d' ∈ d :: s.sent := fun _ h => List.mem_cons_of_mem d h
  refine ⟨fun i run hi => ?_, fun n run hn => ?_, fun d' hd' => ?_⟩
  · have hrun := h.initiators i run hi
    exact ⟨hrun.msg1_fits, hrun.accepted, fun given result hver =>
      ⟨(hrun.verified given result hver).1.mono hsub, (hrun.verified given result hver).2⟩⟩
  · have hrun := h.responders n run hn
    exact ⟨hrun.msg1_fits, hrun.responded, fun given result hver =>
      ⟨(hrun.verified given result hver).1.mono hsub, (hrun.verified given result hver).2⟩⟩
  · rcases List.mem_cons.1 hd' with rfl | hd'
    · exact hd
    · exact h.sent d' hd'

theorem Coherent.start (hL : Symbolic L A) (h : s.Coherent A) :
    (s.start i code a b x).Coherent A := by
  rw [Network.start]
  split
  next => exact h
  next hnone =>
    apply h.putInitiator
    · exact ⟨hL.startA_fits code a b x, nofun, nofun⟩
    · intro old hold
      rw [hnone] at hold
      cases hold

theorem Coherent.accept (h : s.Coherent A) : (s.accept i msg2).Coherent A := by
  rw [Network.accept]
  split
  next => exact h
  next run hrun =>
    split
    next => exact h
    next hfirst =>
      have hnone : run.accepted = none := Option.not_isSome_iff_eq_none.1 hfirst
      have hsound := h.initiators i run hrun
      have hput : (s.putInitiator i
          { run with accepted := some (msg2, run.me.accept msg2) }).Coherent A := by
        apply h.putInitiator
        · refine ⟨hsound.msg1_fits, ?_, fun given result hver => ?_⟩
          · intro msg2' result hacc
            cases hacc
            rfl
          · obtain ⟨_, msg2', pending, ours, hacc, _⟩ := hsound.verified given result hver
            rw [hnone] at hacc
            cases hacc
        · intro old hold x hx
          rw [hrun] at hold
          cases hold
          rw [hnone] at hx
          cases hx
      dsimp only
      split
      next pending ours hok =>
        refine hput.send (.inl ⟨i, _, msg2, pending, Function.update_self .., ?_⟩)
        rw [hok]
      next => exact hput

theorem Coherent.verifyInitiator (h : s.Coherent A) (hc : A.Derives s.sent confirm) :
    (s.verifyInitiator i confirm).Coherent A := by
  rw [Network.verifyInitiator]
  split
  next => exact h
  next run hrun =>
    split
    next msg2 pending ours hacc hver =>
      have hsound := h.initiators i run hrun
      apply h.putInitiator
      · refine ⟨hsound.msg1_fits, hsound.accepted, fun given result hgiven => ?_⟩
        cases hgiven
        exact ⟨hc, msg2, pending, ours, hacc, rfl⟩
      · intro old hold x hx
        rw [hrun] at hold
        cases hold
        exact hx
    next => exact h

theorem Coherent.respond (h : s.Coherent A) (hfits : msg1.length < 2 ^ 64) :
    (s.respond i n secret a msg1).Coherent A := by
  rw [Network.respond]
  split
  next r _ hnone =>
    split
    next pending msg2 hok =>
      obtain ⟨_, rfl, key, hkey, hexpected, hours, hsession⟩ := Responder.respond_ok hok
      apply h.putResponder
      · exact ⟨hfits, ⟨secret, key, hkey, hexpected, hours, hsession⟩, nofun⟩
      · intro old hold
        rw [hnone] at hold
        cases hold
    next => exact h
  next => exact h

theorem Coherent.verifyResponder (h : s.Coherent A) (hc : A.Derives s.sent confirm) :
    (s.verifyResponder n confirm).Coherent A := by
  rw [Network.verifyResponder]
  split
  next => exact h
  next run hrun =>
    split
    next => exact h
    next hfirst =>
      split
      next => exact h
      next r _ =>
        have hsound := h.responders n run hrun
        have hput (result r') (hr : r.verify run.pending confirm = (result, r')) :
            ((s.putHost run.host r').putResponder n
              { run with verified := some (confirm, result) }).Coherent A := by
          apply (h.putHost run.host r').putResponder
          · refine ⟨hsound.msg1_fits, hsound.responded, fun given result' hgiven => ⟨?_, ?_⟩⟩
            · cases hgiven
              exact hc
            · intro key ours hok
              cases hgiven
              cases hok
              rcases r.verify_cases run.pending confirm with ⟨_, hv⟩ | ⟨_, _, hv⟩ | ⟨_, heq, hv⟩
              · rw [hv] at hr
                cases hr
              · rw [hv] at hr
                cases hr
              · rw [hv] at hr
                cases hr
                exact ⟨heq, rfl, rfl⟩
          · intro old hold
            rw [show (s.putHost run.host r').responders n = s.responders n from rfl, hrun] at hold
            cases hold
            exact Option.not_isSome_iff_eq_none.1 hfirst
        cases hr : r.verify run.pending confirm with
        | mk result r' =>
          dsimp only
          split
          next key ours =>
            refine (hput _ r' hr).send (.inr ⟨n, _, confirm, key, Function.update_self .., rfl⟩)
          next => exact hput _ r' hr

theorem Coherent.step (hL : Symbolic L A) (h : s.Coherent A) (c : NetworkCall L)
    (hc : c.Deliverable A s) : (s.step c).Coherent A := by
  cases c with
  | start i code a b x => exact h.start hL
  | accept i msg2 => exact h.accept
  | verifyInitiator i confirm => exact h.verifyInitiator hc
  | host i code b =>
    rw [Network.step]
    split
    next => exact h
    next => exact h.putHost i _
  | respond i n secret a msg1 => exact h.respond msg1.fits
  | verifyResponder n confirm => exact h.verifyResponder hc

theorem Coherent.accepted_ok (h : s.Coherent A) (hi : s.initiators i = some run)
    (hacc : run.accepted = some (msg2, .ok (pending, ours))) :
    ∃ key, L.finishA run.me.code run.me.initiatorId run.me.responderId run.me.secret msg2 =
        some key ∧
      ours = confirmMac L key .initiator run.me.initiatorId run.me.responderId run.me.msg1 msg2 ∧
      pending.expected =
        confirmMac L key .responder run.me.initiatorId run.me.responderId run.me.msg1 msg2 ∧
      pending.key = sessionKey L key :=
  Initiator.accept_ok ((h.initiators i run hi).accepted msg2 _ hacc)

theorem Coherent.verified_ok (h : s.Coherent A) (hi : s.initiators i = some run)
    (hv : run.verified = some (given, .ok key)) :
    A.Derives s.sent given ∧ ∃ msg2 pending ours, run.accepted = some (msg2, .ok (pending, ours)) ∧
      pending.expected = given ∧ pending.key = key := by
  obtain ⟨hd, msg2, pending, ours, hacc, hok⟩ := (h.initiators i run hi).verified given _ hv
  exact ⟨hd, msg2, pending, ours, hacc, PendingInitiator.verify_ok_iff.1 hok.symm⟩

theorem Coherent.sent_keyedHash (h : s.Coherent A) : ∀ d ∈ s.sent, ∃ k m, d = L.keyedHash k m := by
  intro d hd
  rcases h.sent d hd with ⟨i, run, msg2, pending, hi, hacc⟩ | ⟨n, run, given, key, hn, hv⟩
  · obtain ⟨key, _, hours, _⟩ := h.accepted_ok hi hacc
    exact ⟨_, _, hours⟩
  · have hsound := h.responders n run hn
    obtain ⟨_, key', _, _, hours, _⟩ := hsound.responded
    obtain ⟨_, _, hd⟩ := (hsound.verified given _ hv).2 key d rfl
    exact ⟨_, _, hd.symm.trans hours⟩

end Network

def ResponderRun.SameRun (peer : ResponderRun Digest) (me : Initiator L) (msg2 : Bytes) : Prop :=
  peer.initiatorId = me.initiatorId ∧ peer.responderId = me.responderId ∧ peer.msg1 = me.msg1 ∧
    peer.msg2 = msg2

namespace Network
variable {A : Attacker L} {s : Network L}

/-- A confirmation that an initiator waits for can only be let out by the responder of its run, and
no initiator makes it. -/
theorem Coherent.of_awaited (hL : Symbolic L A) (h : s.Coherent A) (hi : s.initiators i = some run)
    (hacc : run.accepted = some (msg2, .ok (pending, ours))) : ¬ s.Confirmed pending.expected ∧
    ∀ n peer given key, s.responders n = some peer →
      peer.verified = some (given, .ok (key, pending.expected)) →
        peer.SameRun run.me msg2 ∧ given = ours ∧ key = pending.key := by
  obtain ⟨k, _, hours, hexpected, hsession⟩ := h.accepted_ok hi hacc
  have hfits := (h.initiators i run hi).msg1_fits
  constructor
  · rintro ⟨i', run', msg2', pending', hi', hacc'⟩
    obtain ⟨k', _, hours', _⟩ := h.accepted_ok hi' hacc'
    have hrole := hL.confirmMac_injective hfits (h.initiators i' run' hi').msg1_fits
      (hexpected.symm.trans hours')
    exact nomatch hrole.2.1
  · intro n peer given key hn hv
    have hsound := h.responders n peer hn
    obtain ⟨_, k', _, hexpected', hours', hsession'⟩ := hsound.responded
    obtain ⟨hgiven, hkey, hout⟩ := (hsound.verified given _ hv).2 key _ rfl
    obtain ⟨rfl, _, ha, hb, hm₁, hm₂⟩ := hL.confirmMac_injective hfits hsound.msg1_fits
      (hexpected.symm.trans (hout.symm.trans hours'))
    refine ⟨⟨ha.symm, hb.symm, hm₁.symm, hm₂.symm⟩, ?_, ?_⟩
    · rw [← hgiven, hexpected', hours, ha, hb, hm₁, hm₂]
    · rw [← hkey, hsession', hsession]

theorem Coherent.of_expected (hL : Symbolic L A) (h : s.Coherent A)
    (hn : s.responders n = some peer) : ¬ s.Released peer.pending.expected ∧
    ∀ i run msg2 pending, s.initiators i = some run →
      run.accepted = some (msg2, .ok (pending, peer.pending.expected)) →
        peer.SameRun run.me msg2 ∧ run.me.code = peer.code := by
  have hsound := h.responders n peer hn
  obtain ⟨y, k, hfinish, hexpected, _, _⟩ := hsound.responded
  constructor
  · rintro ⟨n', peer', given, key, hn', hv⟩
    have hsound' := h.responders n' peer' hn'
    obtain ⟨_, k', _, _, hours', _⟩ := hsound'.responded
    obtain ⟨_, _, hout⟩ := (hsound'.verified given _ hv).2 key _ rfl
    have hrole := hL.confirmMac_injective hsound.msg1_fits hsound'.msg1_fits
      (hexpected.symm.trans (hout.symm.trans hours'))
    exact nomatch hrole.2.1
  · intro i run msg2 pending hi hacc
    obtain ⟨k', hfinish', hours, _⟩ := h.accepted_ok hi hacc
    obtain ⟨rfl, _, ha, hb, hm₁, hm₂⟩ := hL.confirmMac_injective hsound.msg1_fits
      (h.initiators i run hi).msg1_fits (hexpected.symm.trans hours)
    exact ⟨⟨ha, hb, hm₁, hm₂⟩, (hL.shared hfinish' hfinish).1⟩

theorem Coherent.initiator_agrees (hL : Symbolic L A) (h : s.Coherent A)
    (hi : s.initiators i = some run) (hv : run.verified = some (given, .ok key))
    (hcode : run.me.code ∉ A.codes) :
    ∃ msg2 pending ours n peer, run.accepted = some (msg2, .ok (pending, ours)) ∧
      s.responders n = some peer ∧ peer.SameRun run.me msg2 ∧
      peer.verified = some (ours, .ok (key, given)) := by
  obtain ⟨hd, msg2, pending, ours, hacc, rfl, rfl⟩ := h.verified_ok hi hv
  obtain ⟨k, hfinish, _, hexpected, _⟩ := h.accepted_ok hi hacc
  have hsent : pending.expected ∈ s.sent := by
    rw [hexpected] at hd ⊢
    exact hL.confirm_seen h.sent_keyedHash (hL.secretA hfinish hcode) hd
  obtain ⟨hnot, hpeer⟩ := h.of_awaited hL hi hacc
  rcases h.sent _ hsent with hconfirmed | ⟨n, peer, given, key, hn, hout⟩
  · exact absurd hconfirmed hnot
  · obtain ⟨hsame, rfl, rfl⟩ := hpeer n peer given key hn hout
    exact ⟨msg2, pending, given, n, peer, hacc, hn, hsame, hout⟩

theorem Coherent.responder_agrees (hL : Symbolic L A) (h : s.Coherent A)
    (hn : s.responders n = some peer) (hv : peer.verified = some (given, .ok (key, ours)))
    (hcode : peer.code ∉ A.codes) :
    ∃ i run pending, s.initiators i = some run ∧ run.me.code = peer.code ∧
      peer.SameRun run.me peer.msg2 ∧ run.accepted = some (peer.msg2, .ok (pending, given)) := by
  have hsound := h.responders n peer hn
  obtain ⟨hd, hok⟩ := hsound.verified given _ hv
  obtain ⟨rfl, _, _⟩ := hok key ours rfl
  obtain ⟨y, k, hfinish, hexpected, _, _⟩ := hsound.responded
  have hsent : peer.pending.expected ∈ s.sent := by
    rw [hexpected] at hd ⊢
    exact hL.confirm_seen h.sent_keyedHash (hL.secretB hfinish hcode) hd
  obtain ⟨hnot, hrun⟩ := h.of_expected hL hn
  rcases h.sent _ hsent with ⟨i, run, msg2, pending, hi, hacc⟩ | hreleased
  · obtain ⟨hsame, hsamecode⟩ := hrun i run msg2 pending hi hacc
    obtain rfl := hsame.2.2.2
    exact ⟨i, run, pending, hi, hsamecode, hsame, hacc⟩
  · exact absurd hreleased hnot

end Network

/-- However runs interleave and whatever the attacker delivers, an initiator whose code the attacker
lacks succeeds only if a responder with the same identities and messages took its confirmation and
has its session key, and a responder only if such an initiator with its code made the confirmation.
None is taken from the own side or from another run. -/
theorem handshake_agreement (L : PakeLib Digest) (A : Attacker L) (hL : Symbolic L A)
    (calls : List (NetworkCall L))
    (hcalls : Along Network.step (NetworkCall.Deliverable A) (Network.empty L) calls) :
    let s := runAll Network.step (Network.empty L) calls
    (∀ i run given key, s.initiators i = some run → run.verified = some (given, .ok key) →
      (run.me.code ∉ A.codes → ∃ msg2 pending ours n peer,
        run.accepted = some (msg2, .ok (pending, ours)) ∧ s.responders n = some peer ∧
        peer.SameRun run.me msg2 ∧ peer.verified = some (ours, .ok (key, given))) ∧
      ¬ s.Confirmed given ∧
      ∀ n peer given' key', s.responders n = some peer →
        peer.verified = some (given', .ok (key', given)) →
          ∃ msg2 result, run.accepted = some (msg2, result) ∧ peer.SameRun run.me msg2) ∧
    ∀ n peer given key ours, s.responders n = some peer →
      peer.verified = some (given, .ok (key, ours)) →
      (peer.code ∉ A.codes → ∃ i run pending, s.initiators i = some run ∧
        run.me.code = peer.code ∧ peer.SameRun run.me peer.msg2 ∧
        run.accepted = some (peer.msg2, .ok (pending, given))) ∧
      ¬ s.Released given ∧
      ∀ i run msg2 pending, s.initiators i = some run →
        run.accepted = some (msg2, .ok (pending, given)) → peer.SameRun run.me msg2 := by
  intro s
  have h : s.Coherent A :=
    hcalls.invariant (fun s c hs hc => hs.step hL c hc) Network.coherent_empty
  constructor
  · intro i run given key hi hv
    refine ⟨h.initiator_agrees hL hi hv, ?_⟩
    obtain ⟨_, msg2, pending, ours, hacc, rfl, _⟩ := h.verified_ok hi hv
    obtain ⟨hnot, hpeer⟩ := h.of_awaited hL hi hacc
    exact ⟨hnot, fun n peer given' key' hn hout =>
      ⟨msg2, _, hacc, (hpeer n peer given' key' hn hout).1⟩⟩
  · intro n peer given key ours hn hv
    refine ⟨h.responder_agrees hL hn hv, ?_⟩
    obtain ⟨rfl, _, _⟩ := ((h.responders n peer hn).verified given _ hv).2 key ours rfl
    obtain ⟨hnot, hrun⟩ := h.of_expected hL hn
    exact ⟨hnot, fun i run msg2 pending hi hacc => (hrun i run msg2 pending hi hacc).1⟩

end Runs

section Sample

structure SampleSpakeKey where
  code : String
  initiatorId : Bytes32
  responderId : Bytes32
  msg1 : Bytes
  msg2 : Bytes
deriving DecidableEq

inductive SampleDigest
  | derived (context : String) (key : SampleSpakeKey)
  | mac (key : SampleDigest) (message : Bytes)
deriving DecidableEq

def sampleStart (side : UInt8) (secret : UInt64) : Bytes := side :: toLeBytes 8 secret

theorem sampleStart_fits (side : UInt8) (secret : UInt64) :
    (sampleStart side secret).length < 2 ^ 64 := by
  rw [sampleStart, List.length_cons, toLeBytes_length]
  decide

def samplePake : PakeLib SampleDigest where
  Secret := UInt64
  SpakeKey := SampleSpakeKey
  startA _ _ _ secret := sampleStart 65 secret
  startB _ _ _ secret := sampleStart 66 secret
  finishA code a b secret msg2 :=
    if msg2.head? = some 66 then some ⟨code, a, b, sampleStart 65 secret, msg2⟩ else none
  finishB code a b secret msg1 :=
    if msg1.head? = some 65 then some ⟨code, a, b, msg1, sampleStart 66 secret⟩ else none
  deriveKey := .derived
  keyedHash := .mac
  encrypt _ _ plaintext := plaintext
  decrypt _ _ ciphertext := some ciphertext

/-- The attacker has one code and computes all keys that take it. -/
def sampleAttacker : Attacker samplePake where
  codes := {"000000"}
  keys := Set.preimage SampleSpakeKey.code {"000000"}

theorem samplePake_finishA (h : samplePake.finishA c a b x m = some k) :
    k = ⟨c, a, b, sampleStart 65 x, m⟩ := by
  dsimp only [samplePake] at h
  split at h
  next => exact (Option.some.inj h).symm
  next => cases h

theorem samplePake_finishB (h : samplePake.finishB c a b y m = some k) :
    k = ⟨c, a, b, m, sampleStart 66 y⟩ := by
  dsimp only [samplePake] at h
  split at h
  next => exact (Option.some.inj h).symm
  next => cases h

theorem symbolic_samplePake : Symbolic samplePake sampleAttacker where
  keyedHash_injective h := SampleDigest.mac.inj h
  deriveKey_injective h := SampleDigest.derived.inj h
  deriveKey_ne_keyedHash _ _ _ _ := nofun
  shared h h' := by
    have heq := (samplePake_finishA h).symm.trans (samplePake_finishB h')
    obtain ⟨hc, ha, hb, hm₁, hm₂⟩ := SampleSpakeKey.mk.inj heq
    exact ⟨hc, ha, hb, hm₁.symm, hm₂⟩
  secretA h hc := by
    rw [samplePake_finishA h]
    exact hc
  secretB h hc := by
    rw [samplePake_finishB h]
    exact hc
  startA_fits _ _ _ x := sampleStart_fits 65 x

def sampleRunKey : SampleSpakeKey :=
  ⟨"123456", .replicate 1, .replicate 2, sampleStart 65 7, sampleStart 66 9⟩

def sampleConfirm (role : Role) : SampleDigest :=
  confirmMac samplePake sampleRunKey role (.replicate 1) (.replicate 2) (sampleStart 65 7)
    (sampleStart 66 9)

def sampleCalls : List (NetworkCall samplePake) :=
  [.start 0 "123456" (.replicate 1) (.replicate 2) (7 : UInt64),
    .host 0 "123456" (.replicate 2),
    .respond 0 0 (9 : UInt64) (.replicate 1) ⟨_, sampleStart_fits 65 7⟩,
    .accept 0 ⟨_, sampleStart_fits 66 9⟩,
    .verifyResponder 0 (sampleConfirm .initiator),
    .verifyInitiator 0 (sampleConfirm .responder)]

theorem sampleCalls_deliverable :
    Along Network.step (NetworkCall.Deliverable sampleAttacker) (Network.empty samplePake)
      sampleCalls :=
  ⟨trivial, trivial, trivial, trivial, .seen (.head _), .seen (.head _), trivial⟩

theorem handshake_agreement_sample :
    let s := runAll Network.step (Network.empty samplePake) sampleCalls
    ∃ run, s.initiators 0 = some run ∧ (∃ given key, run.verified = some (given, .ok key)) ∧
      ∃ msg2 pending ours n peer, run.accepted = some (msg2, .ok (pending, ours)) ∧
        s.responders n = some peer ∧ peer.SameRun run.me msg2 ∧
        ∃ key given, peer.verified = some (ours, .ok (key, given)) := by
  have hcode : "123456" ∉ sampleAttacker.codes := show "123456" ≠ "000000" by decide
  have h := (handshake_agreement samplePake sampleAttacker symbolic_samplePake sampleCalls
    sampleCalls_deliverable).1 0 _ _ _ rfl rfl
  obtain ⟨msg2, pending, ours, n, peer, hacc, hn, hsame, hv⟩ := h.1 hcode
  exact ⟨_, rfl, ⟨_, _, rfl⟩, msg2, pending, ours, n, peer, hacc, hn, hsame, _, _, hv⟩

end Sample

end Pake

end Roam
