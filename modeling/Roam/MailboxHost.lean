import Roam.Pairing
import Roam.Pake
import Roam.Library.Task

namespace Roam
set_option autoImplicit true
open Library Library.Fallible Pake

inductive Slot
  | msg1
  | msg2
  | confirmJoiner
  | confirmHost
  | request
  | accept
deriving DecidableEq, Repr

def Slot.asStr : Slot → String
  | .msg1 => "msg1"
  | .msg2 => "msg2"
  | .confirmJoiner => "confirm-joiner"
  | .confirmHost => "confirm-host"
  | .request => "request"
  | .accept => "accept"

inductive SlotOutcome
  | written
  | alreadyTaken
deriving DecidableEq, Repr

structure MailboxJoinRequest where
  verifyingKey : Bytes32
  peerId : UInt64
deriving DecidableEq

/-- The libraries of the pairing flow: the handshake, base64 for session ids, and JSON at its own
types. -/
structure PairingPlatform extends Platform where
  pake : PakeLib Bytes32
  b64UrlDecode : String → Option Bytes
  parseRequest : Bytes → Option MailboxJoinRequest
  renderAccept : JoinAccept → Bytes

/-- What the mailbox and the surroundings decide between two awaits: how each call on the mailbox
ends, how many polls fit into the wait for a slot, and the random and written values. -/
structure HostAmbient (π : PairingPlatform) where
  sessions : Except String (List String)
  get : Except String (Option Bytes)
  put : Except String SlotOutcome
  polls : Nat
  secret : π.pake.Secret
  io : EnrolIo

/-- History: what the host put into a slot and how that ended, the confirmation that it expected
and the one it read, and the device that it began to enrol. -/
inductive HostEvent
  | put (session : String) (slot : Slot) (body : Bytes) (outcome : Except String SlotOutcome)
  | confirm (session : String) (expected given : Bytes32)
  | enrol (session : String) (request : MailboxJoinRequest) (io : EnrolIo)

def HostEvent.session : HostEvent → String
  | .put session _ _ _ | .confirm session _ _ | .enrol session _ _ => session

structure Host (π : PairingPlatform) where
  store : Store π.toPlatform
  responder : Responder
  history : List HostEvent

structure HostState (π : PairingPlatform) where
  host : Host π
  ambient : HostAmbient π

inductive HostError
  | text (msg : String)
  | mailbox (msg : String)
  | pake (e : PakeError)
  | storage (e : StorageError)
deriving DecidableEq

def roleName : Role → String
  | .reader => "reader"
  | .writer => "writer"
  | .admin => "admin"

/-- A task of the host: `?` ends it, and it gives way at each await. -/
abbrev HostTask (π : PairingPlatform) := ExceptT HostError (Task (HostState π))

structure Invitation where
  identity : Identity
  vault : Bytes32
  vaultKey : Bytes32
  role : Role

namespace HostTask
variable {π : PairingPlatform}

def alone (f : HostState π → Except HostError α × Host π) : HostTask π α :=
  ExceptT.mk (.atomic fun s => ((f s).1, { s with host := (f s).2 }))

def ofResult (x : Except HostError α) : HostTask π α := ExceptT.mk (.done x)

def text (x : Option α) (msg : String) : HostTask π α :=
  ofResult (match x with
    | some a => .ok a
    | none => .error (.text msg))

def attempt (t : HostTask π α) : HostTask π (Except HostError α) :=
  ExceptT.mk (t.run >>= fun r => .done (.ok r))

end HostTask

def Host.record (h : Host π) (e : HostEvent) : Host π := { h with history := h.history ++ [e] }

namespace MailboxHost
variable {π : PairingPlatform}
open HostTask

def sessions : HostTask π (List String) :=
  alone fun s => (s.ambient.sessions.mapError .mailbox, s.host)

def get (_session : String) (_slot : Slot) : HostTask π (Option Bytes) :=
  alone fun s => (s.ambient.get.mapError .mailbox, s.host)

def write (session : String) (slot : Slot) (body : Bytes) : HostTask π Unit :=
  alone fun s =>
    let outcome := s.ambient.put
    let h := s.host.record (.put session slot body outcome)
    match outcome with
    | .ok .written => (.ok (), h)
    | .ok .alreadyTaken =>
      (.error (.text s!"pairing slot {slot.asStr} was already written — abandoning"), h)
    | .error e => (.error (.mailbox e), h)

def pollSlot (session : String) (slot : Slot) : Nat → HostTask π Bytes
  | 0 => do
    match ← get session slot with
    | some body => pure body
    | none =>
      throw (.text ("timed out waiting for the other device to write \x60" ++ slot.asStr ++ "\x60"))
  | polls + 1 => do
    match ← get session slot with
    | some body => pure body
    | none => pollSlot session slot polls

/-- `read`, which is `await_slot` with the timeouts of the host. -/
def read (session : String) (slot : Slot) : HostTask π Bytes := do
  let polls ← alone fun s => (.ok s.ambient.polls, s.host)
  pollSlot session slot polls

def decodeSessionId (π : PairingPlatform) (session : String) : HostTask π Bytes32 := do
  let bytes ← text (π.b64UrlDecode session) "pairing session id is not base64url"
  text (Bytes32.ofBytes? bytes) "pairing session id is not 32 bytes"

def respond (initiatorId : Bytes32) (msg1 : Bytes) :
    HostTask π (PendingResponder Bytes32 × Bytes) :=
  alone fun s =>
    ((s.host.responder.respond π.pake s.ambient.secret initiatorId msg1).mapError .pake, s.host)

def verify (session : String) (pending : PendingResponder Bytes32) (confirm : Bytes32) :
    HostTask π (SessionKey Bytes32 × Bytes32) :=
  alone fun s =>
    let (result, responder) := s.host.responder.verify pending confirm
    (result.mapError .pake,
      { s.host.record (.confirm session pending.expected confirm) with responder })

def enrol (inv : Invitation) (session : String) (request : MailboxJoinRequest) :
    HostTask π JoinAccept :=
  alone fun s =>
    let (result, store) := exec (Store.enrolJoiner s.ambient.io inv.identity inv.vault
      inv.vaultKey inv.role request.verifyingKey request.peerId) s.host.store
    (result.mapError .storage,
      { s.host.record (.enrol session request s.ambient.io) with store })

def serve (inv : Invitation) (session : String) (msg1 : Bytes) : HostTask π UInt64 := do
  let initiatorId ← decodeSessionId π session
  let (pending, msg2) ← respond initiatorId msg1
  write session .msg2 msg2
  let theirs ← read session .confirmJoiner
  let theirConfirm ← text (Bytes32.ofBytes? theirs) "malformed confirmation"
  let (key, ourConfirm) ← verify session pending theirConfirm
  write session .confirmHost ourConfirm.bytes
  let (sealer, opener) := key.split .responder
  let body ← read session .request
  let (plaintext, _) ← ofResult ((opener.decrypt π.pake body).mapError .pake)
  let request ← text (π.parseRequest plaintext) "decode the joiner's request"
  let accept ← enrol inv session request
  let (sealed, _) := sealer.encrypt (π.renderAccept accept)
  write session .accept (sealed.ciphertext π.pake)
  pure request.peerId

/-- The sessions that are listed, one after the other: the device that was enrolled, if one was, and
all sessions served so far. -/
def serveAll (inv : Invitation) :
    List String → List String → HostTask π (Option UInt64 × List String)
  | [], served => pure (none, served)
  | session :: rest, served =>
    if session ∈ served then serveAll inv rest served
    else do
      match ← get session .msg1 with
      | none => serveAll inv rest served
      | some msg1 =>
        match ← attempt (serve inv session msg1) with
        | .ok peer => pure (some peer, served ++ [session])
        | .error _ => serveAll inv rest (served ++ [session])

def checkBudget : HostTask π Unit :=
  alone fun s =>
    if s.host.responder.attemptsLeft = 0 then
      (.error (.text "too many wrong codes — this pairing code is used up, show a fresh one"),
        s.host)
    else (.ok (), s.host)

def rounds (inv : Invitation) : Nat → List String → HostTask π UInt64
  | 0, _ => do
    checkBudget
    throw (.text "timed out waiting for a device to type the pairing code")
  | window + 1, served => do
    checkBudget
    let listed ← sessions
    match ← serveAll inv listed served with
    | (some peer, _) => pure peer
    | (none, served) => rounds inv window served

/-- Serve sessions until one device has joined, the window closes or the budget is spent. -/
def acceptFor (inv : Invitation) (window : Nat) : HostTask π UInt64 := do
  let role ← alone fun s => (.ok (s.host.store.roleOf s.host.store.peerId), s.host)
  if role ≠ some .admin then
    let name := match role with
      | some role => roleName role
      | none => "not a member"
    throw (.text
      (s!"this device is {name} in the vault, and only an Admin can add another device — "
      ++ "ask an Admin device to host the invite"))
  rounds inv window []

end MailboxHost

end Roam
