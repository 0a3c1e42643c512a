import Roam.Base
import Roam.Library.Saturation
import Roam.Library.Utf8

namespace Roam
set_option autoImplicit true
open Library

inductive Role
  | reader
  | writer
  | admin
deriving DecidableEq, Repr, Inhabited

def roleByte : Role → UInt8
  | .reader => 0
  | .writer => 1
  | .admin => 2

theorem roleByte_injective : Function.Injective roleByte := by
  intro a b h
  cases a <;> cases b <;> first | rfl | cases h

instance : LinearOrder Role := LinearOrder.lift' roleByte roleByte_injective

/-- A membership change. `setName` is a self-asserted device name and grants nothing. -/
inductive RosterOp
  | add (role : Role)
  | setRole (role : Role)
  | revoke
  | setName (name : String)
deriving DecidableEq, Repr

/-- One signed roster entry. `lamport` is the clock of its subject, `seq` the position in the
log of its author. -/
structure RosterEntry where
  seq : UInt64
  lamport : UInt64
  op : RosterOp
  subjectPeer : UInt64
  subjectKey : Bytes32
  addedBy : UInt64
deriving DecidableEq

inductive PeerStatus
  | active
  | revoked
deriving DecidableEq, Repr

structure PeerRecord where
  peerId : UInt64
  verifyingKey : Bytes32
  status : PeerStatus
  role : Role
  name : Option String
deriving DecidableEq

def RosterEntry.canonicalBytes (e : RosterEntry) : Bytes :=
  let tags : UInt8 × UInt8 := match e.op with
    | .add role => (0, roleByte role)
    | .setRole role => (2, roleByte role)
    | .revoke => (1, 0xFF)
    | .setName _ => (3, 0xFF)
  "roam.roster.v3".toUTF8.toList ++ toLeBytes 8 e.seq ++ toLeBytes 8 e.lamport ++
    [tags.1, tags.2] ++ toLeBytes 8 e.subjectPeer ++ e.subjectKey.bytes ++
    toLeBytes 8 e.addedBy ++
    match e.op with
    | .setName name =>
      -- `name.len() as u32`, in four bytes
      toLeBytes 4 (UInt64.ofNat name.utf8ByteSize) ++ name.toUTF8.toList
    | _ => []

def RosterOp.grant? : RosterOp → Option Role
  | .add role => some role
  | .setRole role => some role
  | _ => none

/-- The signed bytes cover every field of an entry. The name of a `setName` is the last of them, so
that its length field is not needed to read it back. -/
theorem RosterEntry.eq_of_canonicalBytes {e e' : RosterEntry}
    (h : e.canonicalBytes = e'.canonicalBytes) : e = e' := by
  obtain ⟨seq, lamport, op, peer, key, author⟩ := e
  obtain ⟨seq', lamport', op', peer', key', author'⟩ := e'
  simp only [canonicalBytes, List.append_assoc] at h
  have h := List.append_cancel_left h
  obtain ⟨h₁, h⟩ := List.append_inj h (by rw [toLeBytes_length, toLeBytes_length])
  obtain ⟨h₂, h⟩ := List.append_inj h (by rw [toLeBytes_length, toLeBytes_length])
  obtain ⟨h₃, h⟩ := List.append_inj h rfl
  obtain ⟨h₄, h⟩ := List.append_inj h (by rw [toLeBytes_length, toLeBytes_length])
  obtain ⟨h₅, h⟩ := List.append_inj h (by rw [key.size, key'.size])
  obtain ⟨h₆, htail⟩ := List.append_inj h (by rw [toLeBytes_length, toLeBytes_length])
  cases toLeBytes_injective h₁
  cases toLeBytes_injective h₂
  cases toLeBytes_injective h₄
  cases toLeBytes_injective h₆
  cases Bytes32.bytes_injective h₅
  have hop : op = op' := by
    cases op with
    | add role =>
      cases op' with
      | add role' => rw [roleByte_injective (List.cons.inj (List.cons.inj h₃).2).1]
      | _ => simp at h₃
    | setRole role =>
      cases op' with
      | setRole role' => rw [roleByte_injective (List.cons.inj (List.cons.inj h₃).2).1]
      | _ => simp at h₃
    | revoke =>
      cases op' with
      | revoke => rfl
      | _ => simp at h₃
    | setName name =>
      cases op' with
      | setName name' =>
        obtain ⟨_, hname⟩ := List.append_inj htail (by rw [toLeBytes_length, toLeBytes_length])
        rw [toUTF8_injective hname]
      | _ => simp at h₃
  rw [hop]

def RosterOp.grantsAdmin (op : RosterOp) : Bool :=
  op.grant? == some .admin

def validEntries (entries : List RosterEntry) : List RosterEntry :=
  entries.filter fun e => e.subjectPeer = derivedPeerId e.subjectKey

def adminPass (valid : List RosterEntry) (admins : Finset UInt64) : Finset UInt64 :=
  valid.foldl
    (fun admins e =>
      if e.op.grantsAdmin && e.addedBy ∈ admins then insert e.subjectPeer admins else admins)
    admins

/-- The closure of the founder under admin grants, by passes over the entries until the set
stops growing. Each round but the last adds a subject, so the bound is never reached. -/
def everAdmin (valid : List RosterEntry) (founder : Option UInt64) : Finset UInt64 :=
  saturate (adminPass valid) (valid.length + 1) founder.toFinset

def ceilingScan : Nat → UInt64 → List UInt64 → UInt64
  | _, ceiling, [] => ceiling
  | i, ceiling, lamport :: rest =>
    if i = 0 ∨ lamport ≤ ceiling + 1 then ceilingScan (i + 1) lamport rest else ceiling

def grantLamports (admitted : List RosterEntry) :
    Std.TreeMap UInt64 (Std.TreeSet UInt64) :=
  admitted.foldl
    (fun perSubject e =>
      if e.op.grant?.isSome then
        perSubject.alter e.subjectPeer fun lamports? => some ((lamports?.getD ∅).insert e.lamport)
      else perSubject)
    ∅

/-- The causal ceiling of each subject: the end of the contiguous prefix of its granted
lamports. -/
def ceilings (admitted : List RosterEntry) : Std.TreeMap UInt64 UInt64 :=
  (grantLamports admitted).map fun _ lamports => ceilingScan 0 0 lamports.toList

/-- What the main loop accumulates: the key, the revocation and the winning role of each
subject. -/
structure RosterFold where
  keys : Std.TreeMap UInt64 Bytes32
  revoked : Finset UInt64
  roles : Std.TreeMap UInt64 (UInt64 × UInt64 × Role)

def leastKey (key : Bytes32) : Option Bytes32 → Option Bytes32
  | some k => some (if key < k then key else k)
  | none => some key

/-- The newer decision wins, by lamport and then author; a full tie falls to least privilege. -/
def newestRole (cand : UInt64 × UInt64 × Role) :
    Option (UInt64 × UInt64 × Role) → Option (UInt64 × UInt64 × Role)
  | some cur =>
    if toLex (cur.1, cur.2.1) < toLex (cand.1, cand.2.1) then some cand
    else if (cand.1, cand.2.1) = (cur.1, cur.2.1) then
      some (cur.1, cur.2.1, min cur.2.2 cand.2.2)
    else some cur
  | none => some cand

def foldEntry (ceilings : Std.TreeMap UInt64 UInt64) (acc : RosterFold) (e : RosterEntry) :
    RosterFold :=
  let keys := acc.keys.alter e.subjectPeer (leastKey e.subjectKey)
  match e.op with
  | .revoke => { acc with keys, revoked := insert e.subjectPeer acc.revoked }
  | .add role | .setRole role =>
    -- A clock jump above the subject's causal ceiling is ignored for role selection.
    if e.lamport > ceilings.getD e.subjectPeer 0 then { acc with keys }
    else
      { acc with
        keys
        roles := acc.roles.alter e.subjectPeer (newestRole (e.lamport, e.addedBy, role)) }
  | .setName _ => { acc with keys }

def foldNames (valid : List RosterEntry) : Std.TreeMap UInt64 (UInt64 × String) :=
  valid.foldl
    (fun names e =>
      match e.op with
      | .setName name =>
        if e.addedBy ≠ e.subjectPeer then names
        else
          names.alter e.subjectPeer fun slot? =>
            let slot := slot?.getD (0, "")
            if slot.1 ≤ e.seq then some (e.seq, name) else some slot
      | _ => names)
    ∅

def foldRoster (entries : List RosterEntry) (founder : Option UInt64) : RosterFold :=
  let valid := validEntries entries
  let admins := everAdmin valid founder
  let admitted := valid.filter fun e => e.addedBy ∈ admins
  admitted.foldl (foldEntry (ceilings admitted)) ⟨∅, ∅, ∅⟩

/-- Fold signed roster entries into the peer set. `keys[subject]!` is the source's indexing,
which panics on a missing key. -/
def mergeRoster (entries : List RosterEntry) (founder : Option UInt64) : List PeerRecord :=
  let acc := foldRoster entries founder
  let names := foldNames (validEntries entries)
  let out := acc.roles.toList.map fun (subject, _, _, role) =>
    { peerId := subject
      verifyingKey := acc.keys[subject]!
      status := if subject ∈ acc.revoked then .revoked else .active
      role
      name := names[subject]?.map (·.2) : PeerRecord }
  out.insertionSort fun a b => a.peerId ≤ b.peerId

end Roam
