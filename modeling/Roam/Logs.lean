import Roam.Platform

namespace Roam
set_option autoImplicit true
open Library

section
variable (π : Platform)

def malformed (x : Except String α) : Except StorageError α := x.mapError .malformedEntry

def b64Bytes32 (s msg : String) : Except StorageError Bytes32 := do
  let bytes ← malformed (π.b64Decode s)
  match Bytes32.ofBytes? bytes with
  | some key => pure key
  | none => .error (.malformedEntry msg)

def b64Signature (s : String) : Except StorageError Bytes := do
  let bytes ← malformed (π.b64Decode s)
  if bytes.length = 64 then pure bytes else .error (.malformedEntry "signature length")

def verifyBytes (r : LineReader Line Entry StorageError) (bytes : Bytes) :
    Except StorageError (List Entry) :=
  if validUtf8 bytes then r.readText bytes else .error (.malformedEntry (π.utf8Error bytes))

/-- Read a log file: a missing file is an empty log, invalid UTF-8 an IO error. -/
def readVerified (r : LineReader Line Entry StorageError) (file : Option Bytes) :
    Except StorageError (List Entry) :=
  match file with
  | none => .ok []
  | some bytes => if validUtf8 bytes then r.readText bytes else .error (.io (π.utf8Error bytes))

def appendLine (file : Option Bytes) (line : Bytes) : Bytes := file.getD [] ++ (line ++ [10])

def RosterLine.check (author : UInt64) (key : Bytes32) (line : RosterLine) :
    Except StorageError RosterEntry :=
  if line.addedBy ≠ author then .error (.badSignature line.addedBy)
  else do
    let subjectKey ← b64Bytes32 π line.subjectKey "subject key length"
    let sig ← b64Signature π line.sig
    let entry : RosterEntry :=
      { seq := line.seq, lamport := line.lamport, op := line.op, subjectPeer := line.subjectPeer,
        subjectKey, addedBy := line.addedBy }
    if π.verify key entry.canonicalBytes sig then pure entry else .error (.badSignature author)

def rosterReader (author : UInt64) (key : Bytes32) :
    LineReader RosterLine RosterEntry StorageError where
  parse line := malformed (π.rosterJson.parse line)
  check := RosterLine.check π author key

def RosterLine.ofEntry (id : Identity) (e : RosterEntry) : RosterLine where
  seq := e.seq
  lamport := e.lamport
  op := e.op
  subjectPeer := e.subjectPeer
  subjectKey := π.b64Encode e.subjectKey.bytes
  addedBy := e.addedBy
  sig := π.b64Encode (π.sign id.secret e.canonicalBytes)

def RosterLog.append (author : UInt64) (file : Option Bytes) (id : Identity) (lamport : UInt64)
    (op : RosterOp) (subjectPeer : UInt64) (subjectKey : Bytes32) :
    Except StorageError (RosterEntry × Bytes) :=
  if id.peerId π ≠ author then
    .error (.peer s!"identity {id.peerId π} may not author roster of {author}")
  else do
    let entries ← readVerified π (rosterReader π author (id.verifyingKey π)) file
    let seq := (entries.getLast?.map RosterEntry.seq).getD 0 + 1
    let entry : RosterEntry := { seq, lamport, op, subjectPeer, subjectKey, addedBy := author }
    pure (entry, appendLine file (π.rosterJson.render (RosterLine.ofEntry π id entry)))

def RosterLog.peekSelfKey (author : UInt64) (file : Option Bytes) :
    Except StorageError (Option Bytes32) :=
  match file with
  | none => .ok none
  | some bytes =>
    if validUtf8 bytes then
      .ok <| ((textLines bytes).filter fun line => !isBlank line).findSome? fun line =>
        match π.rosterJson.parse line with
        | .error _ => none
        | .ok parsed =>
          if parsed.subjectPeer ≠ author then none
          else
            match π.b64Decode parsed.subjectKey with
            | .error _ => none
            | .ok key => Bytes32.ofBytes? key
    else .error (.io (π.utf8Error bytes))

def KeyBodyLine.decode : KeyBodyLine → Except StorageError KeyBody
  | .rotate parents nonce => do
    let parentEpochs ← parents.mapM fun p => b64Bytes32 π p "expected 32 bytes"
    let nonce ← b64Bytes32 π nonce "expected 32 bytes"
    pure (.rotate parentEpochs nonce)
  | .wrap recipient blob => do
    let blob ← malformed (π.b64Decode blob)
    pure (.wrap recipient blob)

def KeyLine.check (author : UInt64) (key : Bytes32) (line : KeyLine) :
    Except StorageError KeyLogEntry :=
  if line.author ≠ author then .error (.badSignature line.author)
  else do
    let body ← line.body.decode π
    let sig ← b64Signature π line.sig
    let epochId ← b64Bytes32 π line.epochId "expected 32 bytes"
    let entry : KeyLogEntry := { seq := line.seq, author := line.author, epochId, body }
    if π.verify key entry.canonicalBytes sig then pure entry else .error (.badSignature author)

def keyReader (author : UInt64) (key : Bytes32) : LineReader KeyLine KeyLogEntry StorageError where
  parse line := malformed (π.keyJson.parse line)
  check := KeyLine.check π author key

def KeyBodyLine.ofBody : KeyBody → KeyBodyLine
  | .rotate parentEpochs nonce =>
    .rotate (parentEpochs.map fun p => π.b64Encode p.bytes) (π.b64Encode nonce.bytes)
  | .wrap recipient blob => .wrap recipient (π.b64Encode blob)

def KeyLine.ofEntry (id : Identity) (e : KeyLogEntry) : KeyLine where
  seq := e.seq
  author := e.author
  epochId := π.b64Encode e.epochId.bytes
  body := .ofBody π e.body
  sig := π.b64Encode (π.sign id.secret e.canonicalBytes)

def KeyLog.append (author : UInt64) (file : Option Bytes) (id : Identity) (epochId : Bytes32)
    (body : KeyBody) : Except StorageError (KeyLogEntry × Bytes) :=
  if id.peerId π ≠ author then
    .error (.peer s!"identity {id.peerId π} may not author keylog of {author}")
  else do
    let entries ← readVerified π (keyReader π author (id.verifyingKey π)) file
    let seq := (entries.getLast?.map KeyLogEntry.seq).getD 0 + 1
    let entry : KeyLogEntry := { seq, author, epochId, body }
    pure (entry, appendLine file (π.keyJson.render (KeyLine.ofEntry π id entry)))

structure Entry where
  peerId : UInt64
  update : Bytes
deriving DecidableEq

def oplogSigDomain : Bytes := "roam-oplog-update-v1".toUTF8.toList ++ [0]

def EntryLine.check (peerId : UInt64) (key : Bytes32) (line : EntryLine) :
    Except StorageError Entry :=
  if line.peer ≠ peerId then .error (.badSignature line.peer)
  else do
    let update ← malformed (π.b64Decode line.update)
    let sig ← b64Signature π line.sig
    if π.verify key (oplogSigDomain ++ update) sig then pure { peerId := line.peer, update }
    else .error (.badSignature line.peer)

def EntryLine.ofUpdate (peerId : UInt64) (id : Identity) (update : Bytes) : EntryLine where
  peer := peerId
  sig := π.b64Encode (π.sign id.secret (oplogSigDomain ++ update))
  update := π.b64Encode update

/-- Sign an update into a log. Unlike the other logs this one is not read first. -/
def OpLog.append (peerId : UInt64) (file : Option Bytes) (id : Identity) (update : Bytes) : Bytes :=
  appendLine file (π.opJson.render (EntryLine.ofUpdate π peerId id update))

def opReader (peerId : UInt64) (key : Bytes32) : LineReader EntryLine Entry StorageError where
  parse line := malformed (π.opJson.parse line)
  check := EntryLine.check π peerId key

end

end Roam
