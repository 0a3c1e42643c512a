import Roam.MailboxSpec

namespace Roam
set_option autoImplicit true
open Library Pake

namespace MailboxHost
variable {π : PairingPlatform}

/-- A session in which the host wrote `msg2` and then read a wrong confirmation. -/
def FailedGuess (history : List HostEvent) (session : String) : Prop :=
  ∃ before expected given after, history = before ++ .confirm session expected given :: after ∧
    expected ≠ given ∧ ∃ body, .put session .msg2 body (.ok .written) ∈ before

def Proved (history : List HostEvent) (session : String) : Prop :=
  ∃ confirm, .confirm session confirm confirm ∈ history

def Allowed (before : List HostEvent) : HostEvent → Prop
  | .put session slot _ _ =>
    {session | FailedGuess before session}.ncard < maxAttempts ∧
      (slot = .confirmHost ∨ slot = .accept → Proved before session)
  | .confirm _ _ _ => True
  | .enrol session _ _ => Proved before session

/-- The budget went down with each failed guess, and all that happened was allowed. -/
structure Sound (h : Host π) : Prop where
  budget : h.responder.attemptsLeft + {session | FailedGuess h.history session}.ncard = maxAttempts
  allowed : ∀ before e after, h.history = before ++ e :: after → Allowed before e

section History
variable {history : List HostEvent} {session : String}

theorem append_singleton_eq_append_cons {l before after : List α} {x y : α} :
    l ++ [x] = before ++ y :: after ↔ (after = [] ∧ l = before ∧ x = y) ∨ ∃ init, after = init ++
      [x] ∧ l = before ++ y :: init := by
  constructor
  · intro h
    rcases List.eq_nil_or_concat after with rfl | ⟨init, last, rfl⟩
    · obtain ⟨hl, hx⟩ := List.append_inj' h rfl
      exact .inl ⟨rfl, hl, List.singleton_inj.1 hx⟩
    · rw [List.concat_eq_append, ← List.cons_append, ← List.append_assoc] at h
      obtain ⟨hl, hx⟩ := List.append_inj' h rfl
      rw [List.singleton_inj.1 hx]
      exact .inr ⟨init, List.concat_eq_append, hl⟩
  · rintro (⟨rfl, rfl, rfl⟩ | ⟨init, rfl, rfl⟩)
    · rfl
    · rw [List.append_assoc, List.cons_append]

theorem failedGuess_append (e : HostEvent) :
    FailedGuess (history ++ [e]) session ↔ FailedGuess history session ∨
      ∃ expected given, e = .confirm session expected given ∧ expected ≠ given ∧
        ∃ body, .put session .msg2 body (.ok .written) ∈ history := by
  constructor
  · rintro ⟨before, expected, given, after, heq, hne, hput⟩
    rcases append_singleton_eq_append_cons.1 heq with ⟨_, rfl, rfl⟩ | ⟨init, _, hhist⟩
    · exact .inr ⟨expected, given, rfl, hne, hput⟩
    · exact .inl ⟨before, expected, given, init, hhist, hne, hput⟩
  · rintro (⟨before, expected, given, after, rfl, hne, hput⟩ | ⟨expected, given, rfl, hne, hput⟩)
    · refine ⟨before, expected, given, after ++ [e], ?_, hne, hput⟩
      rw [List.append_assoc, List.cons_append]
    · exact ⟨history, expected, given, [], rfl, hne, hput⟩

theorem FailedGuess.mem (h : FailedGuess history session) :
    ∃ expected given, .confirm session expected given ∈ history := by
  obtain ⟨before, expected, given, after, rfl, _⟩ := h
  exact ⟨expected, given, List.mem_append_right _ List.mem_cons_self⟩

theorem finite_failedGuess (history : List HostEvent) :
    {session | FailedGuess history session}.Finite := by
  apply (history.map HostEvent.session).finite_toSet.subset
  intro session h
  obtain ⟨expected, given, hmem⟩ := FailedGuess.mem h
  exact List.mem_map.2 ⟨_, hmem, rfl⟩

theorem Proved.append (h : Proved history session) (e : HostEvent) :
    Proved (history ++ [e]) session := by
  obtain ⟨confirm, hmem⟩ := h
  exact ⟨confirm, List.mem_append_left _ hmem⟩

end History

namespace Sound
variable {h : Host π} {session : String}

theorem allowed_append (hs : Sound h) (he : Allowed h.history e) :
    ∀ before e' after, (h.record e).history = before ++ e' :: after → Allowed before e' := by
  intro before e' after heq
  rcases append_singleton_eq_append_cons.1 heq with ⟨_, rfl, rfl⟩ | ⟨init, _, hhist⟩
  · exact he
  · exact hs.allowed before e' init hhist

theorem record (hs : Sound h) (he : Allowed h.history e)
    (hnot : ∀ session expected given, e = .confirm session expected given → expected = given) :
    Sound (h.record e) := by
  refine ⟨?_, hs.allowed_append he⟩
  have hsame : {session | FailedGuess (h.record e).history session} =
      {session | FailedGuess h.history session} := by
    ext session
    apply (failedGuess_append e).trans
    apply or_iff_left
    rintro ⟨expected, given, heq, hne, _⟩
    exact hne (hnot session expected given heq)
  rw [hsame]
  exact hs.budget

theorem guess (hs : Sound h) (hleft : h.responder.attemptsLeft ≠ 0)
    (hnew : ∀ expected given, .confirm session expected given ∉ h.history)
    (hput : ∃ body, .put session .msg2 body (.ok .written) ∈ h.history) (hne : expected ≠ given) :
    Sound { h.record (.confirm session expected given) with
      responder := { h.responder with attemptsLeft := h.responder.attemptsLeft - 1 } } := by
  refine ⟨?_, hs.allowed_append (e := .confirm session expected given) trivial⟩
  have hone : {session' | FailedGuess (h.history ++ [.confirm session expected given]) session'} =
      insert session {session' | FailedGuess h.history session'} := by
    ext session'
    apply (failedGuess_append _).trans
    rw [Set.mem_insert_iff, or_comm]
    apply or_congr_left
    constructor
    · rintro ⟨_, _, heq, _⟩
      cases heq
      rfl
    · rintro rfl
      exact ⟨expected, given, rfl, hne, hput⟩
  have hcount : {session' | FailedGuess (h.history ++ [.confirm session expected given])
      session'}.ncard = {session' | FailedGuess h.history session'}.ncard + 1 := by
    rw [hone]
    apply Set.ncard_insert_of_notMem _ (finite_failedGuess _)
    intro hmem
    obtain ⟨expected', given', hconfirm⟩ := FailedGuess.mem hmem
    exact hnew expected' given' hconfirm
  have hbudget := hs.budget
  dsimp only [Host.record]
  omega

theorem below (hs : Sound h) (hleft : h.responder.attemptsLeft ≠ 0) :
    {session | FailedGuess h.history session}.ncard < maxAttempts := by
  have hbudget := hs.budget
  omega

theorem put (hs : Sound h) (hleft : h.responder.attemptsLeft ≠ 0)
    (hslot : slot = .confirmHost ∨ slot = .accept → Proved h.history session) :
    Sound (h.record (.put session slot body outcome)) :=
  hs.record ⟨hs.below hleft, hslot⟩ nofun

end Sound

structure Admitted (session : String) (h : Host π) : Prop where
  sound : Sound h
  left : h.responder.attemptsLeft ≠ 0
  proved : Proved h.history session

theorem Admitted.put (hs : Admitted session h) :
    Admitted session (h.record (.put session slot body outcome)) :=
  ⟨hs.sound.put hs.left fun _ => hs.proved, hs.left, hs.proved.append _⟩

theorem Admitted.enrol (hs : Admitted session h) (store : Store π.toPlatform) :
    Admitted session { h.record (.enrol session request io) with store } := by
  have hrecord := hs.sound.record (e := .enrol session request io) hs.proved nofun
  exact ⟨⟨hrecord.budget, hrecord.allowed⟩, hs.left, hs.proved.append _⟩

structure Challenged (session : String) (h : Host π) : Prop where
  sound : Sound h
  left : h.responder.attemptsLeft ≠ 0
  unread : ∀ expected given, .confirm session expected given ∉ h.history
  written : ∃ body, .put session .msg2 body (.ok .written) ∈ h.history

theorem Challenged.of_fresh (hs : Sound h) (hfresh : ∀ e ∈ h.history, e.session ≠ session)
    (hleft : h.responder.attemptsLeft ≠ 0) (body : Bytes) :
    Challenged session (h.record (.put session .msg2 body (.ok .written))) := by
  refine ⟨hs.put hleft (by rintro (h | h) <;> cases h), hleft, ?_, body, ?_⟩
  · intro expected given hmem
    rcases List.mem_append.1 hmem with hmem | hmem
    · exact hfresh _ hmem rfl
    · exact nomatch List.mem_singleton.1 hmem
  · exact List.mem_append_right _ (List.mem_singleton.2 rfl)

theorem Challenged.admitted (hs : Challenged session h) (confirm : Bytes32) :
    Admitted session (h.record (.confirm session confirm confirm)) := by
  refine ⟨hs.sound.record trivial ?_, hs.left, confirm, ?_⟩
  · intro session' expected given heq
    cases heq
    rfl
  · exact List.mem_append_right _ (List.mem_singleton.2 rfl)

def guessOutline (inv : Invitation) (session : String) :
    Outline (π := π) Sound inv session where
  start h := Sound h ∧ ∀ e ∈ h.history, e.session ≠ session
  responded _ h := (Sound h ∧ ∀ e ∈ h.history, e.session ≠ session) ∧ h.responder.attemptsLeft ≠ 0
  challenged _ := Challenged session
  proven := Admitted session
  greeted := Admitted session
  enrolled _ := Admitted session
  ended _ := Sound
  failed := Sound
  start_inv _ h := h.1
  challenged_inv _ _ h := h.sound
  proven_inv _ h := h.sound
  greeted_inv _ h := h.sound
  enrolled_inv _ _ h := h.sound
  ended_inv _ _ h := h
  failed_inv _ h := h
  start_fails _ h := h.1
  challenged_fails _ _ h := h.sound
  greeted_fails _ h := h.sound
  answer _ _ _ _ _ _ h hr := ⟨h, (Responder.respond_ok hr).1⟩
  write_msg2 _ _ body h := Challenged.of_fresh h.1.1 h.1.2 h.2 body
  fail_msg2 _ _ _ _ h _ := h.1.1.put h.2 (by rintro (h | h) <;> cases h)
  verify_ok p _ confirm h heq := by
    rw [heq]
    exact h.admitted confirm
  verify_error _ _ _ h hne := h.sound.guess h.left h.unread h.written hne
  budget _ _ h := h.left
  write_confirm _ _ h := h.put
  fail_confirm _ _ _ h _ := h.put.sound
  enrol_ok _ _ _ _ store h _ := h.enrol store
  enrol_error _ _ _ _ store h _ := (h.enrol store).sound
  write_accept _ _ _ h := h.put.sound
  fail_accept _ _ _ _ h _ := h.put.sound

def guessOutlines (inv : Invitation) : Outlines (π := π) Sound inv Sound fun _ => Sound where
  of := guessOutline inv
  start _ _ h hfresh := ⟨h, hfresh⟩
  ended _ _ _ h := h
  failed _ _ h := h
  inv _ h := h

def armed (store : Store π.toPlatform) (code : String) (responderId : Bytes32)
    (ambient : HostAmbient π) : HostState π where
  host := { store, responder := .new code responderId, history := [] }
  ambient := ambient

theorem sound_armed (store : Store π.toPlatform) (code : String) (responderId : Bytes32)
    (ambient : HostAmbient π) : Sound (armed store code responderId ambient).host := by
  constructor
  · have hempty : {session | FailedGuess [] session} = ∅ := by
      apply Set.eq_empty_of_forall_notMem
      intro session h
      obtain ⟨_, _, hmem⟩ := FailedGuess.mem h
      exact nomatch hmem
    rw [show (armed store code responderId ambient).host.history = [] from rfl, hempty,
      Set.ncard_empty]
    rfl
  · intro before e after heq
    exact absurd heq.symm (by simp [armed])

end MailboxHost

open MailboxHost in
/-- Whatever the mailbox and all others do: at every moment the budget is short by the number of
sessions that the host answered and that then confirmed wrongly; the host confirms, enrols and hands
over only in sessions that confirmed rightly; and it writes nothing once the budget is spent. -/
theorem guess_budget (π : PairingPlatform) (inv : Invitation) (window : Nat)
    (store : Store π.toPlatform) (code : String) (responderId : Bytes32) (ambient : HostAmbient π)
    (turns : List (Option (HostAmbient π))) :
    let h := ((acceptFor inv window).run.interleave surround
      (armed store code responderId ambient) turns).2.host
    h.responder.attemptsLeft + {session | FailedGuess h.history session}.ncard = maxAttempts ∧
    ∀ before e after, h.history = before ++ e :: after →
      (∀ session slot body outcome, e = .put session slot body outcome →
        {session | FailedGuess before session}.ncard < maxAttempts ∧
        (slot = .confirmHost ∨ slot = .accept → Proved before session)) ∧
      ∀ session request io, e = .enrol session request io → Proved before session := by
  intro h
  have hsound : Sound h := (((guessOutlines inv).triple_acceptFor window).interleave
    surround_host ⟨sound_armed store code responderId ambient, rfl⟩
    (sound_armed store code responderId ambient) turns).1
  refine ⟨hsound.budget, fun before e after heq => ⟨?_, ?_⟩⟩
  · rintro session slot body outcome rfl
    exact hsound.allowed before _ after heq
  · rintro session request io rfl
    exact hsound.allowed before _ after heq

end Roam
