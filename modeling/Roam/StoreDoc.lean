import Roam.Store

namespace Roam
set_option autoImplicit true
open Library Library.Fallible

/-- `count_log_lines`: a file that cannot be read counts as empty. -/
def countLogLines (file : Option Bytes) : Nat :=
  match file with
  | some bytes =>
    if validUtf8 bytes then ((textLines bytes).filter fun line => !isBlank line).length else 0
  | none => 0

namespace Store
variable {π : Platform}

def ofDoc (x : Except String α) : StoreM π α := ofResult (x.mapError .crdt)

section LocalEdits

def appendOwn (io : Io) (update : Bytes) : StoreM π Unit := do
  let s ← get
  let line := π.opJson.render (EntryLine.ofUpdate π s.peerId s.identity update)
  set (s.putOps s.peerId (io.append s.disk.ops[s.peerId]? (line ++ [10])))
  ofResult io.result

def newDelta (s : Store π) : Except StorageError (Option Bytes) :=
  if π.version s.doc ≠ s.persisted then
    (π.exportFrom s.doc s.persisted).mapError .crdt |>.map some
  else .ok none

def exportAndAppend (io : Io) : StoreM π Unit := do
  let s ← get
  let current := π.version s.doc
  match ← ofResult s.newDelta with
  | some delta =>
    appendOwn io delta
    modify fun s => { s with persisted := current }
  | none => pure ()

def persistNewOps (io : Io) : StoreM π Unit := do
  modify fun s => { s with doc := π.commit s.doc }
  exportAndAppend io

def editDoc (io : Io) (edit : DocEdit π.Frontier) : StoreM π Unit := do
  let s ← get
  let doc ← ofDoc (π.edit s.doc edit)
  set { s with doc }
  persistNewOps io

def editText (io : Io) (id : String) (pos : Nat) (text : String) : StoreM π Unit :=
  editDoc io (.insertText id pos text)

def deleteText (io : Io) (id : String) (pos len : Nat) : StoreM π Unit :=
  editDoc io (.deleteText id pos len)

def setEntry (io : Io) (mapId key value : String) : StoreM π Unit :=
  editDoc io (.setEntry mapId key value)

def removeEntry (io : Io) (mapId key : String) : StoreM π Unit :=
  editDoc io (.removeEntry mapId key)

def revertText (io : Io) (container : String) (target : π.Frontier) : StoreM π Unit :=
  editDoc io (.revertContainer container target)

end LocalEdits

section Snapshots

/-- `snapshot::save`: a temporary file that is renamed, so a failure leaves the old snapshot. -/
def saveSnapshot (io : Io) (bytes : Bytes) : StoreM π Unit := do
  ofResult io.result
  modify fun s => { s with disk.snapshot := some bytes }

def logLens (s : Store π) : List (UInt64 × Nat) :=
  let own := (∅ : Std.TreeMap UInt64 Nat).insert s.peerId (countLogLines s.disk.ops[s.peerId]?)
  (s.peers.foldl (fun lens peer => lens.insert peer.peerId (countLogLines s.disk.ops[peer.peerId]?))
    own).toList

def appendMarker (io : Io) (marker : Marker) : StoreM π Unit := do
  modify fun s =>
    { s with disk.history := io.append s.disk.history (π.markerJson.render marker ++ [10]) }
  ofResult io.result

def writeSnapshot (io ioMarker : Io) (now : Int) : StoreM π Unit := do
  let s ← get
  let bytes ← ofDoc (π.snapshot s.doc)
  saveSnapshot io bytes
  appendMarker ioMarker
    { tsMs := now, frontier := π.b64Encode (π.frontierBytes (π.oplogFrontier s.doc)),
      logLens := s.logLens }

def adoptSnapshot (io : Io) (bytes : Bytes) : StoreM π Unit := do
  let s ← get
  let doc ← ofDoc (π.importUpdate s.doc bytes)
  let doc := π.commit doc
  set { s with doc }
  let merged ← ofDoc (π.snapshot doc)
  saveSnapshot io merged
  modify fun s => { s with persisted := π.version s.doc }

end Snapshots

section Open

def replayEntries (π : Platform) (doc : π.Doc) (entries : List Entry) :
    Except StorageError π.Doc :=
  entries.foldlM (fun doc e => (π.importUpdate doc e.update).mapError .crdt) doc

def readPeerLog (π : Platform) (disk : Disk) (self : UInt64) (peer : PeerRecord) :
    Except StorageError (List Entry) :=
  if peer.status ≠ .active ∨ peer.peerId = self then .ok []
  else if π.validKey peer.verifyingKey then
    readVerified π (opReader π peer.peerId peer.verifyingKey) disk.ops[peer.peerId]?
  else .ok []

def replayPeer (disk : Disk) (self : UInt64) (doc : π.Doc) (peer : PeerRecord) :
    Except StorageError π.Doc := do
  let entries ← readPeerLog π disk self peer
  replayEntries π doc entries

def baseDoc (π : Platform) (self : UInt64) (snapshot : Option Bytes) : Except StorageError π.Doc :=
  match snapshot with
  | some bytes => (π.fromSnapshot self bytes).mapError .crdt
  | none => (π.newDoc self).mapError .crdt

/-- Open a vault from its files: the roster, then the document from the snapshot, the own log and
the logs of the active peers. -/
def openVault (order : RosterOrder) (disk : Disk) (identity : Identity) :
    Except StorageError (Store π) := do
  let selfId := identity.peerId π
  let selfKey := identity.verifyingKey π
  let entries ← collectRosterEntries π order disk selfId selfKey disk.founder
  let peers := mergeRoster entries disk.founder
  let base ← baseDoc π selfId disk.snapshot
  let own ← readVerified π (opReader π selfId selfKey) disk.ops[selfId]?
  let doc ← replayEntries π base own
  let doc ← peers.foldlM (replayPeer disk selfId) doc
  let doc := π.commit doc
  pure { identity, disk, peers, founder := disk.founder, doc, persisted := π.version doc }

end Open

end Store

end Roam
