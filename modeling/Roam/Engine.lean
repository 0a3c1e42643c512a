import Roam.SyncFiles

namespace Roam
set_option autoImplicit true
open Library Library.Fallible

inductive Frame
  | hello (vault : Bytes32)
  | have (docVersion : Bytes)
  | ops (author : UInt64) (jsonl : Bytes)
  | rosterHave (authors : List (UInt64 × UInt64))
  | rosterOps (author : UInt64) (jsonl : Bytes)
  | ping
  | blobWant (hash : String)
  | blobData (hash : String) (bytes : Bytes)
  | keylogHave (authors : List (UInt64 × UInt64))
  | keylogOps (author : UInt64) (jsonl : Bytes)
  | snapshotHave (ids : List String)
  | snapshotWant (id : String)
  | snapshotData (framed : Bytes)
  | blobChunk (hash : String) (offset totalLen : Nat) (bytes : Bytes)
deriving DecidableEq

inductive Act
  | send (peer : UInt64) (frame : Frame)
  | dial (peer : UInt64)
  | addRoute (peer : UInt64) (key : Bytes32)
  | removeRoute (peer : UInt64)
  | changed
  | localFlush
deriving DecidableEq

def blobChunkSize : Nat := 1024 * 1024

def maxIncomingBlobBytes : Nat := 16 * 1024 * 1024 * 1024

structure IncomingBlob where
  totalLen : Nat
  received : Nat
  seen : Std.TreeSet Nat

def chunkOffsetIsAdmissible (offset totalLen : Nat) : Bool :=
  if totalLen = 0 then offset = 0 else offset < totalLen && offset % blobChunkSize = 0

def expectedChunkLen (offset totalLen : Nat) : Nat := min blobChunkSize (totalLen - offset)

def chunkIsAdmissible (offset totalLen len : Nat) : Bool :=
  chunkOffsetIsAdmissible offset totalLen && len = expectedChunkLen offset totalLen

/-- The state of an engine, with the store that it shares. The maps are hash maps in the source;
one pass over them sends at most one frame to a peer, so that their order is not modelled. -/
structure Engine (π : SyncPlatform) where
  identity : Identity
  vault : Bytes32
  vaultKey : Bytes32
  store : Store π.toPlatform
  files : SyncFiles
  /-- How much of the own log was pushed to each peer, in bytes. -/
  sentOffsets : Std.TreeMap UInt64 Nat
  ackedVersions : Std.TreeMap UInt64 Bytes
  connected : Std.TreeSet UInt64
  incomingBlobs : Std.TreeMap String IncomingBlob

/-- What an engine meets while it handles a frame: the order of the walk over the roster logs, how
writing ends, which peers can be dialed, and what snapshot ids lead to that are no names. -/
structure Env where
  order : RosterOrder
  io : Io
  dial : UInt64 → Bool
  elsewhere : String → Option Bytes

namespace Engine
variable {π : SyncPlatform}

def new (identity : Identity) (vault vaultKey : Bytes32) (store : Store π.toPlatform)
    (files : SyncFiles) : Engine π where
  identity := identity
  vault := vault
  vaultKey := vaultKey
  store := store
  files := files
  sentOffsets := ∅
  ackedVersions := ∅
  connected := ∅
  incomingBlobs := ∅

def peerId (e : Engine π) : UInt64 := e.identity.peerId π.toPlatform

def isActive (e : Engine π) (peer : UInt64) : Bool :=
  e.store.peers.any fun p => p.peerId = peer ∧ p.status = .active

def keyFor (e : Engine π) (peer : UInt64) : Option Bytes32 :=
  (e.store.peers.find? fun p => p.peerId = peer).bind fun p =>
    if π.validKey p.verifyingKey then some p.verifyingKey else none

def activePeers (e : Engine π) : List PeerRecord :=
  e.store.peers.filter fun p => p.status = .active ∧ p.peerId ≠ e.peerId

def heldLogs (e : Engine π) (exportLog : UInt64 → Bytes) : List (UInt64 × Bytes) :=
  e.activePeers.filterMap fun p =>
    let jsonl := exportLog p.peerId
    if jsonl.isEmpty then none else some (p.peerId, jsonl)

def heldPeerLogs (e : Engine π) : List (UInt64 × Bytes) := e.heldLogs e.store.exportPeerLog

def heldKeylogs (e : Engine π) : List (UInt64 × Bytes) := e.heldLogs e.store.exportKeylog

section Push

def logFrames (e : Engine π) : List Frame :=
  .ops e.peerId e.store.exportOwnLog :: e.heldPeerLogs.map fun log => .ops log.1 log.2

def keylogFrames (e : Engine π) : List Frame :=
  .keylogOps e.peerId e.store.exportOwnKeylog ::
    e.heldKeylogs.map fun log => .keylogOps log.1 log.2

def bundle (e : Engine π) : List Frame :=
  [.hello e.vault, .rosterHave (e.store.peers.map fun p => (p.peerId, 0)),
    .have e.store.docVersionBytes] ++ e.logFrames ++
  [.rosterOps e.peerId e.store.exportOwnRoster,
    .keylogHave ((e.peerId, 0) :: e.heldKeylogs.map fun log => (log.1, 0))] ++ e.keylogFrames

def sendAll (peer : UInt64) (frames : List Frame) : List Act := frames.map (.send peer)

def sendBundle (e : Engine π) (peer : UInt64) : Engine π × List Act :=
  ({ e with
      sentOffsets := e.sentOffsets.insert peer e.store.exportOwnLog.length
      connected := e.connected.insert peer },
    sendAll peer e.bundle)

def connect (dial : UInt64 → Bool) (e : Engine π) (peer : UInt64) : Engine π × List Act :=
  if dial peer then
    let (e, acts) := e.sendBundle peer
    (e, .dial peer :: acts)
  else (e, [.dial peer])

def connectAll (dial : UInt64 → Bool) : Engine π → List (UInt64 × Bytes32) → Engine π × List Act
  | e, [] => (e, [])
  | e, (peer, key) :: peers =>
    let (e, acts) := e.connect dial peer
    let (e, more) := e.connectAll dial peers
    (e, .addRoute peer key :: acts ++ more)

def unsent (log : Bytes) (offset : Nat) : Bytes := log.drop (min offset log.length)

def pushes (e : Engine π) : List (UInt64 × Bytes) :=
  e.sentOffsets.toList.filterMap fun (peer, offset) =>
    let suffix := unsent e.store.exportOwnLog offset
    if suffix.isEmpty then none else some (peer, suffix)

def flushLocal (e : Engine π) : Engine π × List Act :=
  ({ e with sentOffsets := e.sentOffsets.map fun _ _ => e.store.exportOwnLog.length },
    e.pushes.map (fun push => .send push.1 (.ops e.peerId push.2)) ++ [.localFlush])

def broadcast (e : Engine π) (frame : Frame) : List Act :=
  e.connected.toList.map fun peer => .send peer frame

def broadcastOwnRoster (e : Engine π) : List Act :=
  e.broadcast (.rosterOps e.peerId e.store.exportOwnRoster)

def broadcastOwnKeylog (e : Engine π) : List Act :=
  e.broadcast (.keylogOps e.peerId e.store.exportOwnKeylog)

def requestMissingBlobs (e : Engine π) : List Act :=
  let wanted := e.store.missingBlobHashes
  let active := e.activePeers.map PeerRecord.peerId
  (e.connected.toList.filter (· ∈ active)).flatMap fun peer =>
    wanted.map fun hash => .send peer (.blobWant hash)

end Push

section Local

def withStore (e : Engine π) (op : StoreM π.toPlatform α)
    (next : Engine π → α → Engine π × List Act) : Except StorageError α × Engine π × List Act :=
  match exec op e.store with
  | (.ok a, store) => (.ok a, next { e with store } a)
  | (.error err, store) => (.error err, { e with store }, [])

def editText (io : Io) (id : String) (pos : Nat) (s : String) (e : Engine π) :
    Except StorageError Unit × Engine π × List Act :=
  e.withStore (Store.editText io id pos s) fun e _ => e.flushLocal

def addPeer (orders : RosterOrder × RosterOrder) (peer : UInt64) (key : Bytes32) (role : Role)
    (e : Engine π) : Except StorageError Unit × Engine π × List Act :=
  e.withStore (Store.addPeer orders peer key role) fun e _ =>
    (e, .addRoute peer key :: e.broadcastOwnRoster)

def forget (e : Engine π) (peer : UInt64) : Engine π :=
  { e with
    connected := e.connected.erase peer
    sentOffsets := e.sentOffsets.erase peer
    ackedVersions := e.ackedVersions.erase peer }

def revokePeer (orders : RosterOrder × RosterOrder) (peer : UInt64) (key : Bytes32)
    (e : Engine π) : Except StorageError Unit × Engine π × List Act :=
  e.withStore (Store.revokePeer orders peer key) fun e _ =>
    (e.forget peer, .removeRoute peer :: (e.forget peer).broadcastOwnRoster)

def setRole (orders : RosterOrder × RosterOrder) (peer : UInt64) (key : Bytes32) (role : Role)
    (e : Engine π) : Except StorageError Unit × Engine π × List Act :=
  e.withStore (Store.setRole orders peer key role) fun e _ => (e, e.broadcastOwnRoster)

def setDeviceName (orders : RosterOrder × RosterOrder) (name : String) (e : Engine π) :
    Except StorageError Unit × Engine π × List Act :=
  e.withStore (Store.setDeviceName orders name) fun e _ => (e, e.broadcastOwnRoster)

def subkeys (e : Engine π) : Bytes32 × Bytes32 := vaultSubkeys π.crypto e.vaultKey

def rotateEpoch (seed : Store.RotationSeed) (paperPublic : Option Bytes32) (e : Engine π) :
    Except StorageError Bytes32 × Engine π × List Act :=
  e.withStore (Store.rotateEpoch seed e.subkeys.1 e.subkeys.2 paperPublic) fun e _ =>
    (e, e.broadcastOwnKeylog)

def backfillWraps (wraps : Nat → WrapSeed) (e : Engine π) :
    Except StorageError Nat × Engine π × List Act :=
  e.withStore (Store.backfillWraps wraps e.subkeys.1 e.subkeys.2) fun e published =>
    (e, if published > 0 then e.broadcastOwnKeylog else [])

end Local

section Handle

/-- The next chunks of a blob. Every chunk has a byte, so the fuel of one per byte is enough. -/
def serveChunks (hash : String) (blob : Bytes) : Nat → Nat → List Frame
  | 0, _ => []
  | fuel + 1, offset =>
    if offset < blob.length then
      let chunk := (blob.drop offset).take (expectedChunkLen offset blob.length)
      if chunk.isEmpty then []
      else
        .blobChunk hash offset blob.length chunk ::
          serveChunks hash blob fuel (offset + chunk.length)
    else []

def blobFrames (hash : String) (blob : Bytes) : List Frame :=
  if blob.isEmpty then [.blobChunk hash 0 0 []] else serveChunks hash blob blob.length 0

def supersedes (e : Engine π) (peer : UInt64) (incoming : π.Version) : Bool :=
  match e.ackedVersions[peer]? with
  | none => true
  | some prev =>
    match π.versionOf prev with
    | .ok prev => π.includes incoming prev
    | .error _ => true

/-- What a peer said that it holds replaces an older statement only. -/
def acknowledge (e : Engine π) (peer : UInt64) (docVersion : Bytes) (incoming : π.Version) :
    Engine π :=
  if e.supersedes peer incoming then
    { e with ackedVersions := e.ackedVersions.insert peer docVersion }
  else e

def isBehind (e : Engine π) (incoming : π.Version) : Bool :=
  match π.versionOf e.store.docVersionBytes with
  | .ok ours => !π.includes incoming ours
  | .error _ => false

/-- What `offer_snapshots` sends: the held objects, to a peer that is behind. -/
def snapshotOffer (e : Engine π) (incoming : π.Version) : List Frame :=
  let ids := if e.isBehind incoming then e.files.heldSnapshotIds else []
  if ids.isEmpty then [] else [.snapshotHave ids]

def newPeers (e : Engine π) : List (UInt64 × Bytes32) :=
  (e.activePeers.filter fun p => !e.connected.contains p.peerId).map fun p =>
    (p.peerId, p.verifyingKey)

def notifyIf (changed : Bool) : List Act := if changed then [.changed] else []

def docChanged (e e' : Engine π) : Bool := e'.store.docVersionBytes ≠ e.store.docVersionBytes

def handleOps (env : Env) (e : Engine π) (author : UInt64) (jsonl : Bytes) :
    Engine π × List Act :=
  if author = e.peerId then (e, [])
  else
    match e.keyFor author with
    | none => (e, [])
    | some key =>
      match exec (Store.applyPeerOpsIo env.io author key jsonl) e.store with
      | (.ok _, store) => ({ e with store }, notifyIf (e.docChanged { e with store }))
      | (.error _, store) => ({ e with store }, [])

def handleRosterOps (env : Env) (e : Engine π) (author : UInt64) (jsonl : Bytes) :
    Engine π × List Act :=
  if author = e.peerId then (e, [])
  else
    match e.keyFor author with
    | none => (e, [])
    | some key =>
      match exec (Store.importRoster env.order author key jsonl) e.store with
      | (.ok _, store) =>
        let e := { e with store }
        e.connectAll env.dial e.newPeers
      | (.error _, store) => ({ e with store }, [])

def handleKeylogOps (e : Engine π) (author : UInt64) (jsonl : Bytes) : Engine π :=
  if author = e.peerId then e
  else
    match e.keyFor author with
    | none => e
    | some key => { e with store := (exec (Store.importKeylog author key jsonl) e.store).2 }

def handleBlobData (e : Engine π) (hash : String) (bytes : Bytes) : Engine π × List Act :=
  if blobHash π.toPlatform bytes ≠ hash then (e, [])
  else if e.store.hasBlob hash ∨ !e.store.filesetWants hash then (e, [])
  else ({ e with store := e.store.putBlob bytes }, [.changed])

def countChunk (entry : IncomingBlob) (offset totalLen len : Nat) : IncomingBlob :=
  if entry.totalLen = totalLen ∧ !entry.seen.contains offset then
    { entry with received := entry.received + len, seen := entry.seen.insert offset }
  else entry

def completeBlob (e : Engine π) (hash : String) : Engine π × List Act :=
  let e := { e with incomingBlobs := e.incomingBlobs.erase hash }
  if e.store.hasBlob hash then ({ e with files := e.files.discardIncoming hash }, [])
  else
    let (stored, files, store) := e.files.finalizeIncoming π e.store hash
    ({ e with files, store }, notifyIf stored)

def handleBlobChunk (e : Engine π) (hash : String) (offset totalLen : Nat) (bytes : Bytes) :
    Engine π × List Act :=
  if totalLen > maxIncomingBlobBytes then (e, [])
  else if !chunkIsAdmissible offset totalLen bytes.length then (e, [])
  else if e.store.hasBlob hash ∨ !e.store.filesetWants hash then (e, [])
  else
    match e.files.writeIncomingChunk hash offset totalLen bytes with
    | none => (e, [])
    | some files =>
      let entry := e.incomingBlobs[hash]?.getD { totalLen, received := 0, seen := ∅ }
      let entry := countChunk entry offset totalLen bytes.length
      let e := { e with files, incomingBlobs := e.incomingBlobs.insert hash entry }
      if entry.received < entry.totalLen then (e, []) else e.completeBlob hash

def handleSnapshotData (env : Env) (e : Engine π) (framed : Bytes) : Engine π × List Act :=
  match e.store.keychain e.subkeys.1 e.subkeys.2 with
  | .error _ => (e, [])
  | .ok kc =>
    let adopt := Store.verifyAndAdoptSnapshot env.io kc e.store.adminAuthorKeys
      (blobHash π.toPlatform framed) framed e.files
    match exec adopt e.store with
    | (.ok (.adopted _ _, files), store) =>
      ({ e with store, files }, notifyIf (e.docChanged { e with store, files }))
    | (_, store) => ({ e with store }, [])

def answer (env : Env) (e : Engine π) : Frame → List Frame
  | .have docVersion =>
    match π.versionOf docVersion with
    | .ok incoming => e.logFrames ++ e.snapshotOffer incoming
    | .error _ => []
  | .rosterHave _ => [.rosterOps e.peerId e.store.exportOwnRoster]
  | .keylogHave _ => e.keylogFrames
  | .blobWant hash =>
    match e.store.blob? hash with
    | some blob => blobFrames hash blob
    | none => []
  | .snapshotHave ids =>
    (ids.filter fun id => id ∉ e.files.heldSnapshotIds).map .snapshotWant
  | .snapshotWant id =>
    match e.files.loadSnapshotObject e.store.disk.snapshot env.elsewhere id with
    | some framed => [.snapshotData framed]
    | none => []
  | _ => []

def handleHello (e : Engine π) (peer : UInt64) (vault : Bytes32) : Engine π × List Act :=
  if vault ≠ e.vault then (e, [])
  else if !e.isActive peer then (e, [])
  else
    let e := { e with sentOffsets := e.sentOffsets.insertIfNew peer 0 }
    if e.connected.contains peer then (e, []) else e.sendBundle peer

def handleHave (env : Env) (e : Engine π) (peer : UInt64) (docVersion : Bytes) :
    Engine π × List Act :=
  match π.versionOf docVersion with
  | .error _ => (e, [])
  | .ok incoming =>
    if e.isActive peer then
      (e.acknowledge peer docVersion incoming, sendAll peer (e.answer env (.have docVersion)))
    else (e, [])

/-- The read gate: only an active peer gets an answer. -/
def reply (env : Env) (e : Engine π) (peer : UInt64) (frame : Frame) : Engine π × List Act :=
  if e.isActive peer then (e, sendAll peer (e.answer env frame)) else (e, [])

def handle (env : Env) (e : Engine π) (peer : UInt64) (frame : Frame) : Engine π × List Act :=
  match frame with
  | .hello vault => e.handleHello peer vault
  | .have docVersion => e.handleHave env peer docVersion
  | .ops author jsonl => e.handleOps env author jsonl
  | .rosterOps author jsonl => e.handleRosterOps env author jsonl
  | .keylogOps author jsonl => (e.handleKeylogOps author jsonl, [])
  | .rosterHave _ | .keylogHave _ | .blobWant _ | .snapshotHave _ | .snapshotWant _ =>
    e.reply env peer frame
  | .blobData hash bytes => e.handleBlobData hash bytes
  | .blobChunk hash offset totalLen bytes => e.handleBlobChunk hash offset totalLen bytes
  | .snapshotData framed => if e.isActive peer then e.handleSnapshotData env framed else (e, [])
  | .ping => (e, [])

end Handle

end Engine

end Roam
