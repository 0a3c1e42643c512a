import Roam.MailboxHost

namespace Roam
set_option autoImplicit true
open Library Library.Fallible Pake HostTask

namespace MailboxHost
variable {π : PairingPlatform} {I P : Host π → Prop}

def surround (s : HostState π) (ambient : HostAmbient π) : HostState π := { s with ambient }

theorem surround_host (s : HostState π) (ambient : HostAmbient π) :
    (surround s ambient).host = s.host := rfl

theorem triple_alone {f : HostState π → Except HostError α × Host π}
    {Q : Except HostError α → Host π → Prop} (h : ∀ s, P s.host → I (f s).2 ∧ Q (f s).1 (f s).2) :
    Task.Triple HostState.host I P (alone f) Q :=
  Task.triple_atomic h

def Idle (t : HostTask π α) : Prop :=
  ∀ I P : Host π → Prop, (∀ h, P h → I h) → Task.Triple HostState.host I P t fun _ => P

theorem idle_alone (g : HostState π → Except HostError α) : Idle (alone fun s => (g s, s.host)) :=
  fun _ _ hI => triple_alone fun s hs => ⟨hI s.host hs, hs⟩

theorem idle_ofResult (x : Except HostError α) : Idle (ofResult x : HostTask π α) :=
  fun _ _ _ => Task.triple_result fun _ h => h

theorem Idle.bind {t : HostTask π α} {f : α → HostTask π β} (ht : Idle t) (hf : ∀ a, Idle (f a)) :
    Idle (t >>= f) :=
  fun I P hI => (ht I P hI).bind (fun a => hf a I P hI) fun _ _ h => h

theorem idle_pollSlot (session : String) (slot : Slot) (polls : Nat) :
    Idle (pollSlot session slot polls : HostTask π Bytes) := by
  induction polls with
  | zero =>
    apply (idle_alone _).bind
    intro body
    cases body with
    | some body => exact idle_ofResult (.ok body)
    | none => exact idle_ofResult (.error _)
  | succ polls ih =>
    apply (idle_alone _).bind
    intro body
    cases body with
    | some body => exact idle_ofResult (.ok body)
    | none => exact ih

theorem idle_read (session : String) (slot : Slot) : Idle (read session slot : HostTask π Bytes) :=
  (idle_alone _).bind fun polls => idle_pollSlot session slot polls

theorem idle_decodeSessionId (session : String) : Idle (decodeSessionId π session) :=
  (idle_ofResult _).bind fun _ => idle_ofResult _

/-- A proof outline of `serve`: what holds in each phase of a session, and why each step leads to
the next phase or to the end. -/
structure Outline (I : Host π → Prop) (inv : Invitation) (session : String) where
  start : Host π → Prop
  responded : PendingResponder Bytes32 → Host π → Prop
  challenged : PendingResponder Bytes32 → Host π → Prop
  proven : Host π → Prop
  greeted : Host π → Prop
  enrolled : MailboxJoinRequest → Host π → Prop
  ended : UInt64 → Host π → Prop
  failed : Host π → Prop
  start_inv : ∀ h, start h → I h
  challenged_inv : ∀ p h, challenged p h → I h
  proven_inv : ∀ h, proven h → I h
  greeted_inv : ∀ h, greeted h → I h
  enrolled_inv : ∀ r h, enrolled r h → I h
  ended_inv : ∀ p h, ended p h → I h
  failed_inv : ∀ h, failed h → I h
  start_fails : ∀ h, start h → failed h
  challenged_fails : ∀ p h, challenged p h → failed h
  greeted_fails : ∀ h, greeted h → failed h
  answer : ∀ h secret initiatorId msg1 p msg2, start h →
    h.responder.respond π.pake secret initiatorId msg1 = .ok (p, msg2) → responded p h
  write_msg2 : ∀ p h body, responded p h →
    challenged p (h.record (.put session .msg2 body (.ok .written)))
  fail_msg2 : ∀ p h body outcome, responded p h → outcome ≠ .ok .written →
    failed (h.record (.put session .msg2 body outcome))
  verify_ok : ∀ p h confirm, challenged p h → p.expected = confirm →
    proven (h.record (.confirm session p.expected confirm))
  verify_error : ∀ p h confirm, challenged p h → p.expected ≠ confirm →
    failed { h.record (.confirm session p.expected confirm) with
      responder := { h.responder with attemptsLeft := h.responder.attemptsLeft - 1 } }
  budget : ∀ p h, challenged p h → h.responder.attemptsLeft ≠ 0
  write_confirm : ∀ h body, proven h →
    greeted (h.record (.put session .confirmHost body (.ok .written)))
  fail_confirm : ∀ h body outcome, proven h → outcome ≠ .ok .written →
    failed (h.record (.put session .confirmHost body outcome))
  enrol_ok : ∀ h request io accept store, greeted h →
    exec (Store.enrolJoiner io inv.identity inv.vault inv.vaultKey inv.role
      request.verifyingKey request.peerId) h.store = (.ok accept, store) →
    enrolled request { h.record (.enrol session request io) with store }
  enrol_error : ∀ h request io e store, greeted h →
    exec (Store.enrolJoiner io inv.identity inv.vault inv.vaultKey inv.role
      request.verifyingKey request.peerId) h.store = (.error e, store) →
    failed { h.record (.enrol session request io) with store }
  write_accept : ∀ request h body, enrolled request h →
    ended request.peerId (h.record (.put session .accept body (.ok .written)))
  fail_accept : ∀ request h body outcome, enrolled request h → outcome ≠ .ok .written →
    failed (h.record (.put session .accept body outcome))

namespace Outline
variable {inv : Invitation} {session : String}

def after (o : Outline I inv session) : Except HostError UInt64 → Host π → Prop
  | .ok p => o.ended p
  | .error _ => o.failed

theorem triple_write {ok failed : Host π → Prop} (hok : ∀ h, ok h → I h)
    (hfailed : ∀ h, failed h → I h)
    (hwritten : ∀ h, P h → ok (h.record (.put session slot body (.ok .written))))
    (hnot : ∀ h outcome, P h → outcome ≠ .ok .written →
      failed (h.record (.put session slot body outcome))) :
    Task.Triple HostState.host I P (write session slot body) fun
      | .ok _ => ok
      | .error _ => failed := by
  apply triple_alone
  intro s hs
  cases hput : s.ambient.put with
  | error e =>
    have h := hnot s.host _ hs (nofun : Except.error e ≠ Except.ok SlotOutcome.written)
    exact ⟨hfailed _ h, h⟩
  | ok outcome =>
    cases outcome with
    | written =>
      have h := hwritten s.host hs
      exact ⟨hok _ h, h⟩
    | alreadyTaken =>
      have h := hnot s.host (.ok .alreadyTaken) hs nofun
      exact ⟨hfailed _ h, h⟩

theorem triple_respond (o : Outline I inv session) :
    Task.Triple HostState.host I o.start (respond initiatorId msg1) fun
      | .ok r => o.responded r.1
      | .error _ => o.failed := by
  apply triple_alone
  intro s hs
  refine ⟨o.start_inv _ hs, ?_⟩
  cases hr : s.host.responder.respond π.pake s.ambient.secret initiatorId msg1 with
  | error e => exact o.start_fails _ hs
  | ok r => exact o.answer s.host _ _ _ r.1 r.2 hs hr

theorem triple_verify (o : Outline I inv session) (p : PendingResponder Bytes32)
    (confirm : Bytes32) :
    Task.Triple HostState.host I (o.challenged p) (verify session p confirm) fun
      | .ok _ => o.proven
      | .error _ => o.failed := by
  apply triple_alone
  intro s hs
  rcases s.host.responder.verify_cases p confirm with ⟨hzero, _⟩ | ⟨_, hne, hv⟩ | ⟨_, heq, hv⟩
  · exact absurd hzero (o.budget p s.host hs)
  · have h := o.verify_error p s.host confirm hs hne
    rw [hv]
    exact ⟨o.failed_inv _ h, h⟩
  · have h := o.verify_ok p s.host confirm hs heq
    rw [hv]
    exact ⟨o.proven_inv _ h, h⟩

theorem triple_enrol (o : Outline I inv session) (request : MailboxJoinRequest) :
    Task.Triple HostState.host I o.greeted (enrol inv session request) fun
      | .ok _ => o.enrolled request
      | .error _ => o.failed := by
  apply triple_alone
  intro s hs
  cases he : exec (Store.enrolJoiner s.ambient.io inv.identity inv.vault inv.vaultKey inv.role
      request.verifyingKey request.peerId) s.host.store with
  | mk r store =>
    cases r with
    | error e =>
      have h := o.enrol_error s.host request s.ambient.io e store hs he
      exact ⟨o.failed_inv _ h, h⟩
    | ok accept =>
      have h := o.enrol_ok s.host request s.ambient.io accept store hs he
      exact ⟨o.enrolled_inv _ _ h, h⟩

theorem triple_idle {t : HostTask π α} (o : Outline I inv session) (ht : Idle t)
    (hP : ∀ h, P h → I h) (hfails : ∀ h, P h → o.failed h) :
    Task.Triple HostState.host I P t fun
      | .ok _ => P
      | .error _ => o.failed := by
  apply (ht I P hP).consequence (fun _ h => h)
  intro r h hr
  cases r with
  | ok a => exact hr
  | error e => exact hfails h hr

theorem triple_serve (o : Outline I inv session) (msg1 : Bytes) :
    Task.Triple HostState.host I o.start (serve inv session msg1) o.after := by
  have herror (e : HostError) (h : Host π) (hf : o.failed h) : o.after (.error e) h := hf
  apply (o.triple_idle (idle_decodeSessionId session) o.start_inv o.start_fails).bind _ herror
  intro initiatorId
  apply o.triple_respond.bind _ herror
  rintro ⟨p, msg2⟩
  apply (triple_write (o.challenged_inv p) o.failed_inv (fun h => o.write_msg2 p h msg2)
    (fun h outcome => o.fail_msg2 p h msg2 outcome)).bind _ herror
  intro _
  apply (o.triple_idle (idle_read session .confirmJoiner) (o.challenged_inv p)
    (o.challenged_fails p)).bind _ herror
  intro theirs
  apply (o.triple_idle (idle_ofResult _) (o.challenged_inv p) (o.challenged_fails p)).bind _ herror
  intro theirConfirm
  apply (o.triple_verify p theirConfirm).bind _ herror
  rintro ⟨key, ourConfirm⟩
  apply (triple_write o.greeted_inv o.failed_inv (fun h => o.write_confirm h _)
    (fun h outcome => o.fail_confirm h _ outcome)).bind _ herror
  intro _
  apply (o.triple_idle (idle_read session .request) o.greeted_inv o.greeted_fails).bind _ herror
  intro body
  apply (o.triple_idle (idle_ofResult _) o.greeted_inv o.greeted_fails).bind _ herror
  rintro ⟨plaintext, _⟩
  apply (o.triple_idle (idle_ofResult _) o.greeted_inv o.greeted_fails).bind _ herror
  intro request
  apply (o.triple_enrol request).bind _ herror
  intro accept
  apply (triple_write (o.ended_inv request.peerId) o.failed_inv
    (fun h => o.write_accept request h _)
    (fun h outcome => o.fail_accept request h _ outcome)).bind _ herror
  intro _
  exact Task.triple_result fun _ h => h

def ofEvents (inv : Invitation) (session : String) (P : String → Prop) (hP : P session) :
    Outline (fun _ : Host π => True) inv session :=
  let Q (h : Host π) : Prop := ∀ e ∈ h.history, P e.session
  have hrecord {h : Host π} (hh : Q h) (e : HostEvent) (he : e.session = session) :
      Q (h.record e) := by
    intro e' he'
    rcases List.mem_append.1 he' with hm | hm
    · exact hh e' hm
    · rw [List.mem_singleton.1 hm, he]
      exact hP
  { start := Q
    responded := fun _ h => Q h ∧ h.responder.attemptsLeft ≠ 0
    challenged := fun _ h => Q h ∧ h.responder.attemptsLeft ≠ 0
    proven := Q
    greeted := Q
    enrolled := fun _ => Q
    ended := fun _ => Q
    failed := Q
    start_inv := fun _ _ => trivial
    challenged_inv := fun _ _ _ => trivial
    proven_inv := fun _ _ => trivial
    greeted_inv := fun _ _ => trivial
    enrolled_inv := fun _ _ _ => trivial
    ended_inv := fun _ _ _ => trivial
    failed_inv := fun _ _ => trivial
    start_fails := fun _ h => h
    challenged_fails := fun _ _ h => h.1
    greeted_fails := fun _ h => h
    answer := fun _ _ _ _ _ _ h hr => ⟨h, (Responder.respond_ok hr).1⟩
    write_msg2 := fun _ _ _ h => ⟨hrecord h.1 _ rfl, h.2⟩
    fail_msg2 := fun _ _ _ _ h _ => hrecord h.1 _ rfl
    verify_ok := fun _ _ _ h _ => hrecord h.1 _ rfl
    verify_error := fun _ _ _ h _ => hrecord h.1 (.confirm session _ _) rfl
    budget := fun _ _ h => h.2
    write_confirm := fun _ _ h => hrecord h _ rfl
    fail_confirm := fun _ _ _ h _ => hrecord h _ rfl
    enrol_ok := fun _ request io _ _ h _ => hrecord h (.enrol session request io) rfl
    enrol_error := fun _ request io _ _ h _ => hrecord h (.enrol session request io) rfl
    write_accept := fun _ _ _ h => hrecord h _ rfl
    fail_accept := fun _ _ _ _ h _ => hrecord h _ rfl }

end Outline

def Within (served : List String) (h : Host π) : Prop := ∀ e ∈ h.history, e.session ∈ served

/-- Outlines of all sessions that lead from `P`, with nothing of the session before, to `R` or back
to `P`. -/
structure Outlines (I : Host π → Prop) (inv : Invitation) (P : Host π → Prop)
    (R : UInt64 → Host π → Prop) where
  of : (session : String) → Outline I inv session
  start : ∀ session h, P h → (∀ e ∈ h.history, e.session ≠ session) → (of session).start h
  ended : ∀ session p h, (of session).ended p h → R p h
  failed : ∀ session h, (of session).failed h → P h
  inv : ∀ h, P h → I h

section Loop
variable {inv : Invitation} {R : UInt64 → Host π → Prop}

def runOutcome (P : Host π → Prop) (R : UInt64 → Host π → Prop) :
    Except HostError UInt64 → Host π → Prop
  | .ok p => R p
  | .error _ => P

theorem Outlines.triple_serve (o : Outlines I inv P R) (hs : session ∉ served) (msg1 : Bytes) :
    Task.Triple HostState.host I (fun h => P h ∧ Within served h) (serve inv session msg1) fun
      | .ok p, h => R p h
      | .error _, h => P h ∧ Within (served ++ [session]) h := by
  have hown := (Outline.ofEvents (π := π) inv session (· ∈ served ++ [session])
    (List.mem_append_right _ (List.mem_singleton.2 rfl))).triple_serve msg1
  apply (((o.of session).triple_serve msg1).and hown).consequence
  · intro h hh
    refine ⟨o.start session h hh.1 ?_, fun e he => List.mem_append_left _ (hh.2 e he)⟩
    rintro e he rfl
    exact hs (hh.2 e he)
  · intro r h hr
    cases r with
    | ok p => exact o.ended session p h hr.1
    | error e => exact ⟨o.failed session h hr.1, hr.2⟩

theorem Outlines.triple_serveAll (o : Outlines I inv P R) (listed served : List String) :
    Task.Triple HostState.host I (fun h => P h ∧ Within served h) (serveAll inv listed served) fun
      | .ok (some p, _), h => R p h
      | .ok (none, served'), h => P h ∧ Within served' h
      | .error _, h => P h := by
  induction listed generalizing served with
  | nil => exact Task.triple_result fun _ h => h
  | cons session rest ih =>
    rw [serveAll]
    split
    next => exact ih served
    next hs =>
      have hinv (h : Host π) (hh : P h ∧ Within served h) : I h := o.inv h hh.1
      apply (idle_alone _ I _ hinv).bind
      · intro msg1
        cases msg1 with
        | none => exact ih served
        | some msg1 =>
          apply ((o.triple_serve hs msg1).attempt (R := fun
            | .ok (.ok p), h => R p h
            | .ok (.error _), h => P h ∧ Within (served ++ [session]) h
            | .error _, _ => False) ?_).bind
          · intro r
            cases r with
            | ok p => exact Task.triple_result fun _ h => h
            | error e => exact ih (served ++ [session])
          · exact fun _ _ h => h.elim
          · intro r h hr
            cases r with
            | ok p => exact hr
            | error e => exact hr
      · exact fun _ _ h => h.1

theorem triple_checkBudget (hinv : ∀ h, P h → I h) :
    Task.Triple HostState.host I P checkBudget fun _ => P := by
  apply triple_alone
  intro s hs
  split
  next => exact ⟨hinv _ hs, hs⟩
  next => exact ⟨hinv _ hs, hs⟩

theorem Outlines.triple_rounds (o : Outlines I inv P R) (window : Nat) (served : List String) :
    Task.Triple HostState.host I (fun h => P h ∧ Within served h) (rounds inv window served)
      (runOutcome P R) := by
  have hinv (served : List String) (h : Host π) (hh : P h ∧ Within served h) : I h := o.inv h hh.1
  induction window generalizing served with
  | zero =>
    apply (triple_checkBudget (hinv served)).bind
    · exact fun _ => Task.triple_result fun _ h => h.1
    · exact fun _ _ h => h.1
  | succ window ih =>
    apply (triple_checkBudget (hinv served)).bind
    · intro _
      apply (idle_alone _ I _ (hinv served)).bind
      · intro listed
        apply (o.triple_serveAll listed served).bind
        · rintro ⟨joined, served'⟩
          cases joined with
          | some p => exact Task.triple_result fun _ h => h
          | none => exact ih served'
        · exact fun _ _ h => h
      · exact fun _ _ h => h.1
    · exact fun _ _ h => h.1

theorem Outlines.triple_acceptFor (o : Outlines I inv P R) (window : Nat) :
    Task.Triple HostState.host I (fun h => P h ∧ h.history = []) (acceptFor inv window)
      (runOutcome P R) := by
  have hinv (h : Host π) (hh : P h ∧ h.history = []) : I h := o.inv h hh.1
  apply (idle_alone _ I _ hinv).bind
  · intro role
    have hrounds : Task.Triple HostState.host I (fun h => P h ∧ h.history = [])
        (rounds inv window []) (runOutcome P R) := by
      apply (o.triple_rounds window []).consequence
      · intro h hh
        refine ⟨hh.1, ?_⟩
        rw [Within, hh.2]
        exact nofun
      · exact fun _ _ h => h
    split
    next => exact (idle_ofResult _ I _ hinv).bind (fun _ => hrounds) fun _ _ h => h.1
    next => exact hrounds
  · exact fun _ _ h => h.1

end Loop

end MailboxHost

end Roam
