import Roam.Library.Fallible
import Roam.Logs
import Roam.Library.Worklist

namespace Roam
set_option autoImplicit true
open Library Library.Fallible

/-- How writing to a file ends. A write that fails may have left nothing, a part (some bytes, but
not all), or everything. -/
inductive Io
  | done
  | refused (msg : String)
  | torn (more : Nat) (msg : String)
  | unsynced (msg : String)

def Io.result : Io → Except StorageError Unit
  | .done => .ok ()
  | .refused msg | .torn _ msg | .unsynced msg => .error (.io msg)

/-- What reaches the file of the bytes that were to be written. -/
def Io.written (bytes : Bytes) : Io → Bytes
  | .done | .unsynced _ => bytes
  | .refused _ => []
  | .torn more _ => bytes.take (min (more + 1) (bytes.length - 1))

def Io.append (file : Option Bytes) (bytes : Bytes) (io : Io) : Option Bytes :=
  match io with
  | .refused _ => file
  | _ => some (file.getD [] ++ io.written bytes)

def Io.replace (file : Option Bytes) (bytes : Bytes) (io : Io) : Option Bytes :=
  match io with
  | .refused _ => file
  | _ => some (io.written bytes)

/-- The files of a vault: the founder pin, the roster, key and op logs by author, the fast-load
snapshot, the history of markers, and the blobs by hash. -/
structure Disk where
  founder : Option UInt64
  rosters : Std.TreeMap UInt64 Bytes
  keylogs : Std.TreeMap UInt64 Bytes
  ops : Std.TreeMap UInt64 Bytes
  snapshot : Option Bytes
  history : Option Bytes
  blobs : Std.TreeMap String Bytes

structure Store (π : Platform) where
  identity : Identity
  disk : Disk
  peers : List PeerRecord
  founder : Option UInt64
  doc : π.Doc
  persisted : π.Version

/-- The order in which one walk over the roster logs meets the keys of its hash map. -/
abbrev RosterOrder := HashOrder UInt64 Bytes32

/-- A store operation keeps the changes it made before it failed. -/
abbrev StoreM (π : Platform) := Fallible StorageError (Store π)

def maxNameLen : Nat := 64

section Collect
variable (π : Platform)

/-- A log that cannot be verified under the trusted key is skipped. -/
def readRoster (disk : Disk) (author : UInt64) (key : Bytes32) : List RosterEntry :=
  if π.validKey key then
    match readVerified π (rosterReader π author key) disk.rosters[author]? with
    | .ok entries => entries
    | .error _ => []
  else []

def learnSubject (e : RosterEntry) : Option (UInt64 × Bytes32) :=
  if derivedPeerId e.subjectKey = e.subjectPeer then some (e.subjectPeer, e.subjectKey) else none

def rosterWalk (disk : Disk) : Exploration UInt64 Bytes32 RosterEntry where
  read := readRoster π disk
  learn := learnSubject

/-- The authors trusted at the start: the device, and the founder whose log names its own key. -/
def trustSeeds (disk : Disk) (selfId : UInt64) (selfKey : Bytes32) (founder : Option UInt64) :
    Except StorageError (Std.TreeMap UInt64 Bytes32) :=
  let trusted := (∅ : Std.TreeMap UInt64 Bytes32).insert selfId selfKey
  match founder with
  | none => .ok trusted
  | some fid =>
    if trusted.contains fid then .ok trusted
    else do
      match ← RosterLog.peekSelfKey π fid disk.rosters[fid]? with
      | some fkey =>
        if derivedPeerId fkey = fid then pure (trusted.insert fid fkey) else pure trusted
      | none => pure trusted

def walkBound (disk : Disk) : Nat :=
  (disk.rosters.toList.map fun p => (p.2.splitOn 10).length).sum + 3

def collectRosterEntries (order : RosterOrder) (disk : Disk) (selfId : UInt64) (selfKey : Bytes32)
    (founder : Option UInt64) : Except StorageError (List RosterEntry) := do
  let trusted ← trustSeeds π disk selfId selfKey founder
  pure ((rosterWalk π disk).explore order (walkBound disk) trusted ∅ [])

end Collect

namespace Store
variable {π : Platform}

def peerId (s : Store π) : UInt64 := s.identity.peerId π

def selfKey (s : Store π) : Bytes32 := s.identity.verifyingKey π

def collect (order : RosterOrder) (s : Store π) : Except StorageError (List RosterEntry) :=
  collectRosterEntries π order s.disk s.peerId s.selfKey s.founder

def roleOf (s : Store π) (peer : UInt64) : Option Role :=
  (s.peers.find? fun p => p.peerId = peer).map PeerRecord.role

def requireAdmin (s : Store π) : Except StorageError Unit :=
  match s.peers.find? fun p => p.peerId = s.peerId with
  | some p =>
    if p.status = .active ∧ p.role = .admin then .ok ()
    else .error (.peer "device is not an active admin")
  | none => .error (.peer "device is not an active admin")

def checkPeerIdBinding (peer : UInt64) (key : Bytes32) : Except StorageError Unit :=
  if peer ≠ derivedPeerId key then
    .error (.peer "peer_id does not match verifying key (first 8 LE bytes)")
  else .ok ()

def saturatingSucc (n : UInt64) : UInt64 := if n + 1 = 0 then n else n + 1

/-- One more than every lamport collected about a subject, whoever signed it. -/
def nextRoleLamport (order : RosterOrder) (s : Store π) (subject : UInt64) :
    Except StorageError UInt64 := do
  let entries ← s.collect order
  let lamports := (entries.filter fun e => e.subjectPeer = subject).map RosterEntry.lamport
  pure (saturatingSucc (lamports.max?.getD 0))

def writeRoster (author : UInt64) (bytes : Bytes) : StoreM π Unit :=
  modify fun s => { s with disk.rosters := s.disk.rosters.insert author bytes }

/-- Collect and fold the logs on disk again. The `peers.json` cache is never read back. -/
def refreshPeers (order : RosterOrder) : StoreM π Unit := do
  let s ← get
  let entries ← ofResult (s.collect order)
  set { s with peers := mergeRoster entries s.founder }

/-- Sign an operation about a subject into the own roster log, under the next lamport, and fold
the roster again. The two orders are those of the walk that picks the lamport and of the walk
that refreshes the peers. -/
def authorRoster (orders : RosterOrder × RosterOrder) (op : RosterOp) (subject : UInt64)
    (key : Bytes32) : StoreM π Unit := do
  let s ← get
  let lamport ← ofResult (s.nextRoleLamport orders.1 subject)
  let (_, file) ← ofResult
    (RosterLog.append π s.peerId s.disk.rosters[s.peerId]? s.identity lamport op subject key)
  writeRoster s.peerId file
  refreshPeers orders.2

def authorAsAdmin (orders : RosterOrder × RosterOrder) (op : RosterOp) (peer : UInt64)
    (key : Bytes32) : StoreM π Unit := do
  ofResult (requireAdmin (← get))
  ofResult (checkPeerIdBinding peer key)
  authorRoster orders op peer key

def addPeer (orders : RosterOrder × RosterOrder) (peer : UInt64) (key : Bytes32) (role : Role) :
    StoreM π Unit :=
  authorAsAdmin orders (.add role) peer key

def setRole (orders : RosterOrder × RosterOrder) (peer : UInt64) (key : Bytes32) (role : Role) :
    StoreM π Unit :=
  authorAsAdmin orders (.setRole role) peer key

def revokePeer (orders : RosterOrder × RosterOrder) (peer : UInt64) (key : Bytes32) :
    StoreM π Unit :=
  authorAsAdmin orders .revoke peer key

def writeFounder (peer : UInt64) : StoreM π Unit :=
  modify fun s => { s with disk.founder := some peer, founder := some peer }

def declareFounder (orders : RosterOrder × RosterOrder) (role : Role) : StoreM π Unit := do
  if role ≠ .admin then
    throw (.peer "founder must be Admin (it is the vault's root authority)")
  let s ← get
  if s.disk.founder.isSome then
    throw (.peer "vault founder already pinned")
  writeFounder s.peerId
  authorRoster orders (.add role) s.peerId s.selfKey

def setDeviceName (orders : RosterOrder × RosterOrder) (name : String) : StoreM π Unit := do
  if name.length > maxNameLen then
    throw (.peer s!"device name exceeds {maxNameLen} chars")
  let s ← get
  authorRoster orders (.setName name) s.peerId s.selfKey

def pinFounder (order : RosterOrder) (peer : UInt64) : StoreM π Unit := do
  match (← get).disk.founder with
  | some existing =>
    if existing ≠ peer then
      throw (.peer
        s!"founder already pinned to {existing}, refusing to re-pin to {peer}")
  | none =>
    writeFounder peer
    refreshPeers order

/-- The guard of `import_roster` and `import_keylog`: new bytes must extend the stored ones. -/
def checkExtends (what : String) (stored : Option Bytes) (bytes : Bytes) :
    Except StorageError Unit :=
  match stored with
  | some existing =>
    if existing.isPrefixOf bytes then .ok ()
    else
      .error (.peer (s!"refusing to clobber {what} with a non-extending fork " ++
        s!"({bytes.length} vs {existing.length} bytes on disk)"))
  | none => .ok ()

def importRoster (order : RosterOrder) (author : UInt64) (key : Bytes32) (bytes : Bytes) :
    StoreM π Unit := do
  let s ← get
  if author = s.peerId then
    throw (.peer "cannot import a roster log under our own peer id")
  ofResult (checkExtends s!"roster {author} log" s.disk.rosters[author]? bytes)
  let _ ← ofResult (verifyBytes π (rosterReader π author key) bytes)
  writeRoster author bytes
  refreshPeers order

def bundleLog (self : UInt64) (rosters : Std.TreeMap UInt64 Bytes) (log : UInt64 × Bytes) :
    Std.TreeMap UInt64 Bytes :=
  if log.1 = self then rosters
  else
    match rosters[log.1]? with
    | some existing =>
      if existing.isPrefixOf log.2 then rosters.insert log.1 log.2 else rosters
    | none => rosters.insert log.1 log.2

def importRosterBundle (order : RosterOrder) (logs : List (UInt64 × Bytes)) : StoreM π Unit := do
  modify fun s => { s with disk.rosters := logs.foldl (bundleLog s.peerId) s.disk.rosters }
  refreshPeers order

def exportOwnRoster (s : Store π) : Bytes := s.disk.rosters[s.peerId]?.getD []

def exportAllRosters (s : Store π) : List (UInt64 × Bytes) := s.disk.rosters.toList

def importKeylog (author : UInt64) (key : Bytes32) (bytes : Bytes) : StoreM π Unit := do
  let s ← get
  if author = s.peerId then
    throw (.peer "cannot import a key-log under our own peer id")
  ofResult (checkExtends s!"keylog {author}" s.disk.keylogs[author]? bytes)
  let _ ← ofResult (verifyBytes π (keyReader π author key) bytes)
  set { s with disk.keylogs := s.disk.keylogs.insert author bytes }

/-- The own key log, then the logs of the other active admins in roster order. -/
def mergedKeylog (s : Store π) : Except StorageError (List KeyLogEntry) := do
  let own ← readVerified π (keyReader π s.peerId s.selfKey) s.disk.keylogs[s.peerId]?
  s.peers.foldlM (fun all peer =>
    if peer.status ≠ .active ∨ peer.role ≠ .admin ∨ peer.peerId = s.peerId then pure all
    else if π.validKey peer.verifyingKey then do
      let entries ← readVerified π (keyReader π peer.peerId peer.verifyingKey)
        s.disk.keylogs[peer.peerId]?
      pure (all ++ entries)
    else pure all) own

def keychain (s : Store π) (idKey epoch0Key : Bytes32) : Except StorageError Keychain := do
  let entries ← s.mergedKeylog
  pure (Keychain.build π.crypto idKey epoch0Key s.peerId (π.x25519Secret s.identity.secret) entries)

def withKeylog (s : Store π) (author : UInt64) (bytes : Bytes) : Store π :=
  { s with disk.keylogs := s.disk.keylogs.insert author bytes }

def putKeylog (s : Store π) (author : UInt64) : Option Bytes → Store π
  | some bytes => s.withKeylog author bytes
  | none => s

def appendKeylogIo (io : Io) (epochId : Bytes32) (body : KeyBody) : StoreM π Unit := do
  let s ← get
  let (entry, _) ← ofResult
    (KeyLog.append π s.peerId s.disk.keylogs[s.peerId]? s.identity epochId body)
  let line := π.keyJson.render (KeyLine.ofEntry π s.identity entry)
  set (s.putKeylog s.peerId (io.append s.disk.keylogs[s.peerId]? (line ++ [10])))
  ofResult io.result

def appendKeylog (epochId : Bytes32) (body : KeyBody) : StoreM π Unit :=
  appendKeylogIo .done epochId body

/-- Whom a new epoch is wrapped to: the active peers with a usable key, the device itself when
the roster does not list it, and the paper key. -/
def wrapTargets (s : Store π) (paperPublic : Option Bytes32) : List (Recipient × Bytes32) :=
  let members := (s.peers.filter fun p => p.status = .active ∧ π.validKey p.verifyingKey).map
    fun p => (.device p.peerId, π.toX25519 p.verifyingKey)
  let self := if s.peers.any fun p => p.peerId = s.peerId then []
    else [(.device s.peerId, π.toX25519 s.selfKey)]
  members ++ self ++ paperPublic.toList.map fun paper => (.paper, paper)

structure RotationSeed where
  nonce : Bytes32
  key : Bytes32
  wraps : Nat → WrapSeed

/-- Mint an epoch on top of all leaves and hand its key to every member, in the own key log. -/
def rotateEpoch (seed : RotationSeed) (idKey epoch0Key : Bytes32) (paperPublic : Option Bytes32) :
    StoreM π Bytes32 := do
  let s ← get
  ofResult s.requireAdmin
  let kc ← ofResult (s.keychain idKey epoch0Key)
  let parents := kc.dagHeads
  let epochId := computeEpochId π.crypto parents s.peerId seed.nonce seed.key
  appendKeylog epochId (.rotate parents seed.nonce)
  (s.wrapTargets paperPublic).zipIdx.forM fun ((recipient, recipientPub), i) =>
    appendKeylog epochId
      (.wrap recipient (wrap π.crypto (seed.wraps i) recipientPub seed.key))
  pure epochId

def exportKeylog (s : Store π) (author : UInt64) : Bytes := s.disk.keylogs[author]?.getD []

def exportPeerLog (s : Store π) (peer : UInt64) : Bytes := s.disk.ops[peer]?.getD []

def checkWriter (s : Store π) (peer : UInt64) : Except StorageError Unit :=
  match s.peers.find? fun p => p.peerId = peer with
  | some p =>
    if p.status = .active ∧ p.role ≠ .reader then .ok ()
    else if p.status = .active then
      .error (.peer s!"refusing content ops from reader peer {peer}")
    else .error (.peer s!"refusing ops from revoked peer {peer}")
  | none => .error (.peer s!"refusing ops from unknown peer {peer}")

def probeEntry (π : Platform) (self peer : UInt64) (e : Entry) : Except StorageError Unit := do
  let probe ← (π.newDoc self).mapError .crdt
  let _ ← (π.importAuthoredBy probe peer e.update).mapError .crdt
  pure ()

def probeAuthored (π : Platform) (self peer : UInt64) (entries : List Entry) :
    Except StorageError Unit :=
  entries.forM (probeEntry π self peer)

def importEntry (e : Entry) : StoreM π Unit := do
  let s ← get
  let doc ← ofResult ((π.importUpdate s.doc e.update).mapError .crdt)
  set { s with doc }

def importEntries (entries : List Entry) : StoreM π Unit := entries.forM importEntry

def mergeEntries (entries : List Entry) : StoreM π Unit := do
  importEntries entries
  modify fun s =>
    let doc := π.commit s.doc
    { s with doc, persisted := π.version doc }

/-- An imported log must not be shorter than the stored one. -/
def checkShrinks (peer : UInt64) (stored : Option Bytes) (bytes : Bytes) :
    Except StorageError Unit :=
  match stored with
  | some existing =>
    if bytes.length < existing.length then
      .error (.peer
        s!"refusing to shrink peer {peer} log ({bytes.length} < {existing.length} bytes)")
    else .ok ()
  | none => .ok ()

def admitLog (peer : UInt64) (key : Bytes32) (bytes : Bytes) : StoreM π (List Entry) := do
  let s ← get
  ofResult (s.checkWriter peer)
  if peer = s.peerId then
    throw (.peer "cannot import a peer log under our own peer id")
  ofResult (checkShrinks peer s.disk.ops[peer]? bytes)
  let entries ← ofResult (verifyBytes π (opReader π peer key) bytes)
  ofResult (probeAuthored π s.peerId peer entries)
  pure entries

def withOps (s : Store π) (peer : UInt64) (bytes : Bytes) : Store π :=
  { s with disk.ops := s.disk.ops.insert peer bytes }

def putOps (s : Store π) (peer : UInt64) : Option Bytes → Store π
  | some bytes => s.withOps peer bytes
  | none => s

def writeOps (io : Io) (peer : UInt64) (bytes : Bytes) : StoreM π Unit := do
  modify fun s => s.putOps peer (io.replace s.disk.ops[peer]? bytes)
  ofResult io.result

def importPeerIo (io : Io) (peer : UInt64) (key : Bytes32) (bytes : Bytes) : StoreM π Unit := do
  let entries ← admitLog peer key bytes
  writeOps io peer bytes
  mergeEntries entries

def importPeer (peer : UInt64) (key : Bytes32) (bytes : Bytes) : StoreM π Unit :=
  importPeerIo .done peer key bytes

def overlap (stored appended : Bytes) : Nat :=
  let lengths := (List.range (min stored.length appended.length)).map (· + 1)
  (lengths.reverse.find? fun k => (appended.take k).isSuffixOf stored).getD 0

def mergeLog (stored appended : Bytes) : Bytes :=
  if stored.isPrefixOf appended then appended
  else if appended.isPrefixOf stored then stored
  else stored ++ appended.drop (overlap stored appended)

def applyPeerOpsIo (io : Io) (author : UInt64) (key : Bytes32) (appended : Bytes) :
    StoreM π Unit := do
  let s ← get
  if author = s.peerId then pure ()
  else importPeerIo io author key (mergeLog (s.exportPeerLog author) appended)

def applyPeerOps (author : UInt64) (key : Bytes32) (appended : Bytes) : StoreM π Unit :=
  applyPeerOpsIo .done author key appended

def fresh (identity : Identity) (doc : π.Doc) : Store π where
  identity := identity
  disk := { founder := none, rosters := ∅, keylogs := ∅, ops := ∅, snapshot := none, history := none
            blobs := ∅ }
  peers := []
  founder := none
  doc := doc
  persisted := π.version doc

end Store

end Roam
