import Roam.GuessBudget
import Roam.OwnLog

namespace Roam
set_option autoImplicit true
open Library Library.Fallible Pake

namespace MailboxHost
variable {π : PairingPlatform}

/-- An enrolment that would reach the roster log of `s` is refused there, or all its writes go well
and the accept arrives. -/
def Carried (s : Store π.toPlatform) (inv : Invitation) (history : List HostEvent)
    (session : String)
    (request : MailboxJoinRequest) (io : EnrolIo) : Prop :=
  s.founder.isSome → (∃ entry, s.Signs io request.peerId request.verifyingKey inv.role entry) →
    (∃ msg, io.roster = .refused msg) ∨
    (s.GoesThrough io inv.vaultKey inv.role request.verifyingKey request.peerId ∧
      ∀ body outcome, .put session .accept body outcome ∈ history → outcome = .ok .written)

def AllCarried (s : Store π.toPlatform) (inv : Invitation) (history : List HostEvent) : Prop :=
  ∀ session request io, .enrol session request io ∈ history →
    Carried s inv history session request io

def EnrolledOnly (s s' : Store π.toPlatform) (role : Role) (peer : UInt64) : Prop :=
  ∃ entry order entries, entry.op = .add role ∧ entry.subjectPeer = peer ∧
    s'.disk.rosters = (s.withEntry entry).disk.rosters ∧
    (s.withEntry entry).collect order = .ok entries ∧ s'.peers = mergeRoster entries s.founder

def Longer (s s' : Store π.toPlatform) : Prop := ∃ extra, extra ≠ [] ∧ s.Grows s' extra

section Carried
variable {s s' : Store π.toPlatform} {inv : Invitation} {history : List HostEvent}
  {session : String} {h : Host π}

theorem AllCarried.of_append (h : AllCarried s inv (history ++ more)) :
    AllCarried s inv history := by
  intro session request io hmem hf hsigned
  rcases h session request io (List.mem_append_left _ hmem) hf hsigned with hrefused | ⟨hgoes, hput⟩
  · exact .inl hrefused
  · exact .inr ⟨hgoes, fun body outcome hm => hput body outcome (List.mem_append_left _ hm)⟩

theorem AllCarried.append (h : AllCarried s inv history)
    (henrol : ∀ session request io, e ≠ .enrol session request io)
    (haccept : ∀ session body outcome, e ≠ .put session .accept body outcome) :
    AllCarried s inv (history ++ [e]) := by
  intro session request io hmem hf hsigned
  rcases List.mem_append.1 hmem with hmem | hmem
  · rcases h session request io hmem hf hsigned with hrefused | ⟨hgoes, hput⟩
    · exact .inl hrefused
    · refine .inr ⟨hgoes, fun body outcome hm => ?_⟩
      rcases List.mem_append.1 hm with hm | hm
      · exact hput body outcome hm
      · exact absurd (List.mem_singleton.1 hm).symm (haccept session body outcome)
  · exact absurd (List.mem_singleton.1 hmem).symm (henrol session request io)

theorem AllCarried.append_enrol (h : AllCarried s inv history)
    (hnew : Carried s inv history session request io) :
    AllCarried s inv (history ++ [.enrol session request io]) := by
  have hput (session' : String) (body : Bytes) (outcome : Except String SlotOutcome)
      (hm : HostEvent.put session' .accept body outcome ∈ history ++ [.enrol session request io]) :
      .put session' .accept body outcome ∈ history := by
    rcases List.mem_append.1 hm with hm | hm
    · exact hm
    · exact nomatch List.mem_singleton.1 hm
  intro session' request' io' hmem hf hsigned
  rcases List.mem_append.1 hmem with hmem | hmem
  · rcases h session' request' io' hmem hf hsigned with hrefused | ⟨hgoes, hall⟩
    · exact .inl hrefused
    · exact .inr ⟨hgoes, fun body outcome hm => hall body outcome (hput session' body outcome hm)⟩
  · cases List.mem_singleton.1 hmem
    rcases hnew hf hsigned with hrefused | ⟨hgoes, hall⟩
    · exact .inl hrefused
    · exact .inr ⟨hgoes, fun body outcome hm => hall body outcome (hput session body outcome hm)⟩

theorem Longer.grows (h : Longer s s') (hg : s'.Grows s'' extra) : Longer s s'' := by
  obtain ⟨extra', hne, hg'⟩ := h
  exact ⟨extra' ++ extra, List.append_ne_nil_of_left_ne_nil hne _, hg'.trans hg⟩

theorem Longer.enrolled (h : Longer s s') (io : EnrolIo) (inv : Invitation) (key : Bytes32)
    (peer : UInt64) :
    Longer s (exec (Store.enrolJoiner io inv.identity inv.vault inv.vaultKey inv.role key peer)
      s').2 := by
  rcases Store.enrolJoiner_cases io inv.identity inv.vault inv.vaultKey inv.role key peer s' with
    ⟨_, e, he⟩ | ⟨_, entry, _, _, _, hgrows⟩
  · rw [he]
    exact h
  · exact h.grows hgrows

/-- Nothing has been written so far, or an enrolment was not carried through and left its mark. -/
def CleanOrMarked (s : Store π.toPlatform) (inv : Invitation) (h : Host π) : Prop :=
  (h.store = s ∧ AllCarried s inv h.history) ∨ (Longer s h.store ∧ ¬ AllCarried s inv h.history)

theorem CleanOrMarked.record (hc : CleanOrMarked s inv h)
    (henrol : ∀ session request io, e ≠ .enrol session request io)
    (haccept : ∀ session body outcome, e ≠ .put session .accept body outcome) :
    CleanOrMarked s inv (h.record e) := by
  rcases hc with ⟨hstore, hall⟩ | ⟨hlonger, hnot⟩
  · exact .inl ⟨hstore, hall.append henrol haccept⟩
  · exact .inr ⟨hlonger, fun hall => hnot hall.of_append⟩

def Delivering (s : Store π.toPlatform) (inv : Invitation) (session : String)
    (request : MailboxJoinRequest) (h : Host π) : Prop :=
  (∃ io accept history,
    exec (Store.enrolJoiner io inv.identity inv.vault inv.vaultKey inv.role
      request.verifyingKey request.peerId) s = (.ok accept, h.store) ∧
    h.history = history ++ [.enrol session request io]) ∨
  (Longer s h.store ∧ ¬ AllCarried s inv h.history)

theorem CleanOrMarked.enrol_ok (hc : CleanOrMarked s inv h)
    (he : exec (Store.enrolJoiner io inv.identity inv.vault inv.vaultKey inv.role
      request.verifyingKey request.peerId) h.store = (.ok accept, store)) :
    Delivering s inv session request { h.record (.enrol session request io) with store } := by
  rcases hc with ⟨rfl, _⟩ | ⟨hlonger, hnot⟩
  · exact .inl ⟨io, accept, h.history, he, rfl⟩
  · have hafter := hlonger.enrolled io inv request.verifyingKey request.peerId
    rw [he] at hafter
    exact .inr ⟨hafter, fun hall => hnot hall.of_append⟩

theorem CleanOrMarked.enrol_error (hjson : π.rosterJson.Lawful) (hc : CleanOrMarked s inv h)
    (he : exec (Store.enrolJoiner io inv.identity inv.vault inv.vaultKey inv.role
      request.verifyingKey request.peerId) h.store = (.error e, store)) :
    CleanOrMarked s inv { h.record (.enrol session request io) with store } := by
  rcases hc with ⟨rfl, hall⟩ | ⟨hlonger, hnot⟩
  · rcases Store.enrolJoiner_cases io inv.identity inv.vault inv.vaultKey inv.role
      request.verifyingKey request.peerId h.store with
      ⟨huntouched, e', he'⟩ | ⟨founder, entry, hf, hsigned, hrefused, hgrows⟩
    · rw [he'] at he
      cases he
      refine .inl ⟨rfl, hall.append_enrol fun hf hsigned => ?_⟩
      rcases huntouched with hnone | hunsigned | hrefused
      · rw [hnone] at hf
        cases hf
      · obtain ⟨entry, hsigned⟩ := hsigned
        exact absurd hsigned (hunsigned entry)
      · exact .inl hrefused
    · -- The append was not refused, so an error means that the enrolment did not go through.
      rw [he] at hgrows
      refine .inr ⟨⟨_, Io.written_ne_nil (Store.two_le_ownRosterLine hjson h.store entry) hrefused,
        hgrows⟩, fun hall' => ?_⟩
      have hnew := hall' session request io (List.mem_append_right _ (List.mem_singleton.2 rfl))
      rcases hnew (by rw [hf]; rfl) ⟨entry, hsigned⟩ with ⟨msg, hmsg⟩ | ⟨hgoes, _⟩
      · exact hrefused msg hmsg
      · have hok : ∃ accept s', exec (Store.enrolJoiner io inv.identity inv.vault inv.vaultKey
            inv.role request.verifyingKey request.peerId) h.store = (.ok accept, s') :=
          hgoes.ok hf hsigned
        rw [he] at hok
        obtain ⟨_, _, hok⟩ := hok
        cases hok
  · have hafter := hlonger.enrolled io inv request.verifyingKey request.peerId
    rw [he] at hafter
    exact .inr ⟨hafter, fun hall => hnot hall.of_append⟩

theorem Delivering.delivered (hd : Delivering s inv session request h) (more : List HostEvent)
    (hall : AllCarried s inv (h.history ++ more)) :
    EnrolledOnly s h.store inv.role request.peerId := by
  rcases hd with ⟨io, accept, history, he, _⟩ | ⟨_, hnot⟩
  · obtain ⟨founder, entry, entries, n, t, hf, hsigned, _, _, hcollect, rfl, hback, _⟩ :=
      Store.enrolJoiner_ok he
    have hkeylogs := Store.backfillWrapsIo_sameButKeylogs io
      (vaultSubkeys π.crypto inv.vaultKey).1 (vaultSubkeys π.crypto inv.vaultKey).2
      ((s.withEntry entry).withPeers entries)
    rw [hback] at hkeylogs
    obtain ⟨keylogs, hstore⟩ := hkeylogs
    obtain ⟨hop, hsubject, _, _⟩ := hsigned.entry_eq
    exact ⟨entry, io.orders.2, entries, hop, hsubject,
      congrArg (fun s => s.disk.rosters) hstore, hcollect, congrArg Store.peers hstore⟩
  · exact absurd hall.of_append hnot

theorem Delivering.lost (hjson : π.rosterJson.Lawful) (hd : Delivering s inv session request h)
    (hne : outcome ≠ .ok .written) :
    CleanOrMarked s inv (h.record (.put session .accept body outcome)) := by
  rcases hd with ⟨io, accept, history, he, hhistory⟩ | ⟨hlonger, hnot⟩
  · obtain ⟨founder, entry, entries, n, t, hf, hsigned, hroster, _⟩ := Store.enrolJoiner_ok he
    have hrefused : ∀ msg, io.roster ≠ .refused msg := by
      rw [hroster]
      exact nofun
    refine .inr ⟨?_, fun hall => ?_⟩
    · rcases Store.enrolJoiner_cases io inv.identity inv.vault inv.vaultKey inv.role
        request.verifyingKey request.peerId s with ⟨_, e, he'⟩ | ⟨_, entry', _, _, _, hgrows⟩
      · rw [he] at he'
        cases he'
      · rw [he] at hgrows
        exact ⟨_, Io.written_ne_nil (Store.two_le_ownRosterLine hjson s entry') hrefused, hgrows⟩
    · have hmem : HostEvent.enrol session request io ∈
          (h.record (.put session .accept body outcome)).history := by
        rw [Host.record, hhistory]
        exact List.mem_append_left _ (List.mem_append_right _ (List.mem_singleton.2 rfl))
      rcases hall session request io hmem (by rw [hf]; rfl) ⟨entry, hsigned⟩ with
        ⟨msg, hmsg⟩ | ⟨_, hput⟩
      · exact hrefused msg hmsg
      · exact hne (hput body outcome (List.mem_append_right _ (List.mem_singleton.2 rfl)))
  · exact .inr ⟨hlonger, fun hall => hnot hall.of_append⟩

end Carried

def enrolOutline (hjson : π.rosterJson.Lawful) (s : Store π.toPlatform) (inv : Invitation)
    (session : String) : Outline (fun _ : Host π => True) inv session where
  start := CleanOrMarked s inv
  responded _ h := CleanOrMarked s inv h ∧ h.responder.attemptsLeft ≠ 0
  challenged _ h := CleanOrMarked s inv h ∧ h.responder.attemptsLeft ≠ 0
  proven := CleanOrMarked s inv
  greeted := CleanOrMarked s inv
  enrolled request := Delivering s inv session request
  ended p h := AllCarried s inv h.history → EnrolledOnly s h.store inv.role p
  failed := CleanOrMarked s inv
  start_inv _ _ := trivial
  challenged_inv _ _ _ := trivial
  proven_inv _ _ := trivial
  greeted_inv _ _ := trivial
  enrolled_inv _ _ _ := trivial
  ended_inv _ _ _ := trivial
  failed_inv _ _ := trivial
  start_fails _ h := h
  challenged_fails _ _ h := h.1
  greeted_fails _ h := h
  answer _ _ _ _ _ _ h hr := ⟨h, (Responder.respond_ok hr).1⟩
  write_msg2 _ _ _ h := ⟨h.1.record nofun nofun, h.2⟩
  fail_msg2 _ _ _ _ h _ := h.1.record nofun nofun
  verify_ok p _ confirm h _ := h.1.record (e := .confirm session p.expected confirm) nofun nofun
  verify_error p _ confirm h _ := h.1.record (e := .confirm session p.expected confirm) nofun nofun
  budget _ _ h := h.2
  write_confirm _ _ h := h.record nofun nofun
  fail_confirm _ _ _ h _ := h.record nofun nofun
  enrol_ok _ _ _ _ _ h he := h.enrol_ok he
  enrol_error _ _ _ _ _ h he := h.enrol_error hjson he
  write_accept _ _ _ h hall := h.delivered _ hall
  fail_accept _ _ _ _ h hne := h.lost hjson hne

def enrolOutlines (hjson : π.rosterJson.Lawful) (s : Store π.toPlatform) (inv : Invitation) :
    Outlines (fun _ : Host π => True) inv (CleanOrMarked s inv)
      fun p h => AllCarried s inv h.history → EnrolledOnly s h.store inv.role p where
  of := enrolOutline hjson s inv
  start _ _ h _ := h
  ended _ _ _ h := h
  failed _ _ h := h
  inv _ _ := trivial

theorem Longer.rosters_ne {s s' : Store π.toPlatform} (h : Longer s s') :
    s'.disk.rosters ≠ s.disk.rosters := by
  obtain ⟨extra, hne, hid, hlog⟩ := h
  intro hsame
  have hpeer : s'.peerId = s.peerId := congrArg (Identity.peerId π.toPlatform) hid
  rw [Store.exportOwnRoster, Store.exportOwnRoster, hpeer, hsame] at hlog
  exact hne (List.append_right_eq_self.1 hlog.symm)

end MailboxHost

open MailboxHost in
/-- A run that fails leaves the rosters and key logs as they were exactly if no session failed after
it had begun to write to the roster log; a run that succeeds then adds one device. -/
theorem enrols_one_or_none (π : PairingPlatform) (hjson : π.rosterJson.Lawful) (inv : Invitation)
    (window : Nat) (store : Store π.toPlatform) (code : String) (responderId : Bytes32)
    (ambient : HostAmbient π) (turns : List (Option (HostAmbient π)))
    (r : Except HostError UInt64)
    (hend : ((acceptFor inv window).run.interleave surround
      (armed store code responderId ambient) turns).1.result? = some r) :
    let h := ((acceptFor inv window).run.interleave surround
      (armed store code responderId ambient) turns).2.host
    (∀ e, r = .error e →
      ((h.store.disk.rosters = store.disk.rosters ∧ h.store.disk.keylogs = store.disk.keylogs ∧
        h.store.peers = store.peers) ↔ AllCarried store inv h.history)) ∧
    ∀ p, r = .ok p → AllCarried store inv h.history → EnrolledOnly store h.store inv.role p := by
  intro h
  have hstart : CleanOrMarked store inv (armed store code responderId ambient).host :=
    .inl ⟨rfl, nofun⟩
  have hrun := (((enrolOutlines hjson store inv).triple_acceptFor window).interleave surround_host
    ⟨hstart, rfl⟩ trivial turns).2 r hend
  constructor
  · rintro e rfl
    rcases hrun with ⟨hstore, hall⟩ | ⟨hlonger, hnot⟩
    · apply iff_of_true _ hall
      rw [hstore]
      exact ⟨rfl, rfl, rfl⟩
    · exact iff_of_false (fun hsame => hlonger.rosters_ne hsame.1) hnot
  · rintro p rfl
    exact hrun

section Sample
open Store MailboxHost

def constantPake (confirm : Bytes32) : PakeLib Bytes32 where
  Secret := Unit
  SpakeKey := Unit
  startA _ _ _ _ := []
  startB _ _ _ _ := []
  finishA _ _ _ _ _ := some ()
  finishB _ _ _ _ _ := some ()
  deriveKey _ _ := confirm
  keyedHash _ _ := confirm
  encrypt _ _ plaintext := plaintext
  decrypt _ _ ciphertext := some ciphertext

abbrev samplePairing : PairingPlatform where
  toPlatform := samplePlatform
  pake := constantPake (.replicate 2)
  b64UrlDecode _ := some (List.replicate 32 1)
  parseRequest bytes := (Bytes32.ofBytes? bytes).map fun key => ⟨key, derivedPeerId key⟩
  renderAccept _ := []

def sampleInvitation : Invitation where
  identity := plainIdentity 1
  vault := .replicate 5
  vaultKey := .replicate 9
  role := .writer

def sampleMailbox (put : SlotOutcome) (roster : Io) : HostAmbient samplePairing where
  sessions := .ok ["session"]
  get := .ok (some (List.replicate 32 2))
  put := .ok put
  polls := 0
  secret := ()
  io :=
    { orders := (ascending, ascending)
      wraps _ := ⟨default, List.replicate 24 0, List.length_replicate⟩
      roster
      cache := .done
      keylog _ := .done }

def sampleHost : Store samplePlatform := (sampleVault 1).after sampleFound

def samplePairingRun (ambient : HostAmbient samplePairing)
    (turns : List (Option (HostAmbient samplePairing))) :
    Task (HostState samplePairing) (Except HostError UInt64) × HostState samplePairing :=
  (acceptFor sampleInvitation 1).run.interleave surround
    (armed sampleHost "123456" (.replicate 1) ambient) turns

def HostEvent.unwritten : HostEvent → Bool
  | .enrol _ _ io => (io.roster matches .refused _)
  | _ => true

def windowClosed : HostError := .text "timed out waiting for a device to type the pairing code"

theorem enrols_none_of_refused :
    (samplePairingRun (sampleMailbox .written (.refused "no space left on device"))
      (List.replicate 15 none)).2.host.store.disk.rosters = sampleHost.disk.rosters := by
  have hend : (samplePairingRun (sampleMailbox .written (.refused "no space left on device"))
      (List.replicate 15 none)).1.result? = some (.error windowClosed) := by
    decide +kernel
  have hrefused : (samplePairingRun (sampleMailbox .written (.refused "no space left on device"))
      (List.replicate 15 none)).2.host.history.all HostEvent.unwritten = true := by
    decide +kernel
  have hall : AllCarried (π := samplePairing) sampleHost sampleInvitation (samplePairingRun
      (sampleMailbox .written (.refused "no space left on device"))
      (List.replicate 15 none)).2.host.history := by
    intro session request io hmem _ _
    have hio := List.all_eq_true.1 hrefused _ hmem
    cases hroster : io.roster with
    | refused msg => exact .inl ⟨msg, rfl⟩
    | done => simp [HostEvent.unwritten, hroster] at hio
    | torn more msg => simp [HostEvent.unwritten, hroster] at hio
    | unsynced msg => simp [HostEvent.unwritten, hroster] at hio
  rw [samplePairingRun] at hall hend ⊢
  have hmain := (enrols_one_or_none samplePairing samplePlatform_framed.roster sampleInvitation 1
    sampleHost "123456" (.replicate 1) (sampleMailbox .written (.refused "no space left on device"))
    (List.replicate 15 none) (.error windowClosed) hend).1 windowClosed rfl
  exact (hmain.2 hall).1

/-- Somebody else has written the accept slot when the host comes to it: the run fails, and the
device is in the roster. -/
theorem enrolled_by_failed_run :
    ∃ (inv : Invitation) (store : Store samplePlatform) (ambient : HostAmbient samplePairing)
      (turns : List (Option (HostAmbient samplePairing))) (e : HostError) (peer : UInt64),
      let s := (acceptFor inv 1).run.interleave surround
        (armed store "123456" (.replicate 1) ambient) turns
      s.1.result? = some (.error e) ∧ store.roleOf peer = none ∧
        s.2.host.store.roleOf peer = some .writer :=
  ⟨sampleInvitation, sampleHost, sampleMailbox .written .done,
    List.replicate 13 none ++ some (sampleMailbox .alreadyTaken .done) :: List.replicate 2 none,
    windowClosed, derivedPeerId (.replicate 2), by decide +kernel, by decide +kernel,
    by decide +kernel⟩

end Sample

end Roam
