import Roam.Backend
import Roam.Library.Task

namespace Roam
set_option autoImplicit true
open Library Library.Fallible

inductive Fault
  | request
  | reply
deriving DecidableEq, Repr

/-- What the surroundings decide between two awaits: random values, how writing ends, the orders of
hash maps, the time and what becomes of the next request. -/
structure Ambient where
  nonce : Bytes
  wraps : Nat → WrapSeed
  io : Nat → Io
  order : RosterOrder
  now : Int
  retentionLag : Int
  fault : Option Fault

/-- A `put_entry` or `put_blob`: its payload, the head at that moment, the key chain that the pass
took, what the server had under the id before and has after it, and whether the answer arrived. -/
structure Issue where
  kind : SetKind
  id : String
  payload : Sealed
  head : Option Bytes32
  seen : Option Keychain
  before : Option Bytes
  after : Option Bytes
  answered : Bool

/-- The store behind its lock with the files beside it, and the server. The last two fields are
history: what was uploaded, and the key chain that a pass last took. -/
structure Session (π : BackendPlatform) where
  store : Store π.toPlatform
  files : SyncFiles
  poisoned : List String
  remote : Remote
  ambient : Ambient
  issued : List Issue
  seen : Option Keychain

inductive PassError
  | storage (e : StorageError)
  | blob (hash : String)
  | backend
deriving DecidableEq

/-- A pass: `?` ends it, and it gives way at each await and each lock. -/
abbrev Pass (π : BackendPlatform) := ExceptT PassError (Task (Session π))

namespace Session
variable {π : BackendPlatform} (key : VaultKey)

def keychain (s : Session π) : Except StorageError Keychain :=
  s.store.keychain (key.idKey π) (key.epoch0Key π)

def head (s : Session π) : Option Bytes32 := (s.keychain key).toOption.map Keychain.head

end Session

namespace Pass
variable {π : BackendPlatform}

def locked (f : Session π → Except PassError α × Session π) : Pass π α := ExceptT.mk (.atomic f)

def read (f : Session π → α) : Pass π α := locked fun s => (.ok (f s), s)

def readOk (f : Session π → Except StorageError α) : Pass π α :=
  locked fun s => ((f s).mapError .storage, s)

def onStore (op : Ambient → StoreM π.toPlatform α) : Pass π α :=
  locked fun s =>
    let (r, store) := exec (op s.ambient) s.store
    (r.mapError .storage, { s with store })

def answer (s : Session π) (f : Remote → α × Remote) : Except PassError α × Session π :=
  match s.ambient.fault with
  | none => (.ok (f s.remote).1, { s with remote := (f s.remote).2 })
  | some .request => (.error .backend, s)
  | some .reply => (.error .backend, { s with remote := (f s.remote).2 })

def request (f : Remote → α × Remote) : Pass π α := locked fun s => answer s f

def attempt (p : Pass π α) : Pass π (Except PassError α) :=
  ExceptT.mk (p.run >>= fun r => .done (.ok r))

def reconcileSet (kind : SetKind) (localIds : List String) : Pass π (List String × List String) :=
  request fun r => (r.difference kind localIds, r)

def getObject (kind : SetKind) (id : String) : Pass π (Option Bytes) :=
  request fun r => (r.get kind id, r)

def putObject (kind : SetKind) (id : String) (ct : Bytes) : Pass π Unit :=
  request fun r => ((), r.put kind id ct)

def upload (key : VaultKey) (kc : Keychain) (kind : SetKind) (id : String) (plaintext : Bytes) :
    Pass π Unit :=
  locked fun s =>
    match sealUnderHead π kc key s.ambient.nonce plaintext with
    | none => (.ok (), s)
    | some payload =>
      let (r, s') := answer s fun r => ((), r.put kind id (payload.bytes π.crypto))
      let issue : Issue :=
        { kind, id, payload, head := s.head key, seen := s.seen, before := s.remote.get kind id
          after := s'.remote.get kind id, answered := r.isOk }
      (r, { s' with issued := s'.issued ++ [issue] })

end Pass

namespace TrustBundle

def SignedLog.new (π : Platform) (log : UInt64 × Bytes) : SignedLog := ⟨log.1, π.b64Encode log.2⟩

def SignedLog.decode (π : Platform) (log : SignedLog) : Option Bytes :=
  (π.b64Decode log.bytes).toOption

variable {π : BackendPlatform}

def fromStore (s : Store π.toPlatform) : TrustBundle :=
  let peers := (s.peerId :: s.peers.map PeerRecord.peerId).dedup.mergeSort (· ≤ ·)
  let keylogs := peers.map fun peer => (peer, s.exportKeylog peer)
  { v := 1
    rosters := (s.exportAllRosters.filter fun log => log.2 ≠ []).map (SignedLog.new π.toPlatform)
    keylogs := (keylogs.filter fun log => log.2 ≠ []).map (SignedLog.new π.toPlatform) }

def id (key : VaultKey) (bundle : TrustBundle) : String :=
  key.trustId π (toHex (π.crypto.blake3 (π.trustJson.render bundle)).bytes)

def isEmpty (bundle : TrustBundle) : Bool := bundle.rosters.isEmpty && bundle.keylogs.isEmpty

def importKeylogs (known : List PeerRecord) (logs : List SignedLog) (s : Store π.toPlatform) :
    Store π.toPlatform :=
  logs.foldl (fun s log =>
    if log.peer = s.peerId then s
    else
      match known.find? fun p => p.peerId = log.peer with
      | none => s
      | some p =>
        if π.validKey p.verifyingKey then
          match log.decode π.toPlatform with
          | none => s
          | some bytes => (exec (Store.importKeylog log.peer p.verifyingKey bytes) s).2
        else s) s

/-- The roster logs first: they may name the keys that the key logs are checked with. -/
def apply (order : RosterOrder) (bundle : TrustBundle) : StoreM π.toPlatform Unit := do
  if bundle.v ≠ 1 then pure ()
  else
    let rosters := bundle.rosters.filterMap fun log =>
      (log.decode π.toPlatform).map fun bytes => (log.peer, bytes)
    if rosters ≠ [] then Store.importRosterBundle order rosters
    modify fun s => importKeylogs s.peers bundle.keylogs s

end TrustBundle

namespace Pass
variable {π : BackendPlatform} (key : VaultKey)

/-- `VaultKey::open` of a fetched bundle. One that does not open or parse is passed over. -/
def openTrust (ct : Bytes) : Option TrustBundle :=
  (openEpoch π.crypto (key.epoch0Key π) ct).bind fun plaintext =>
    (π.trustJson.parse plaintext).toOption

def fetchTrust (applied : Bool) (id : String) : Pass π Bool := do
  match ← getObject .trust id with
  | none => pure applied
  | some ct =>
    match openTrust (π := π) key ct with
    | none => pure applied
    | some bundle => do
      onStore fun a => bundle.apply a.order
      pure true

/-- Publish the logs that this device holds, take in those that others published, and hand out the
wraps that members lack. -/
def reconcileTrust : Pass π Bool := do
  let bundle ← read fun s => TrustBundle.fromStore s.store
  let localId := bundle.id (π := π) key
  let localIds := if bundle.isEmpty then [] else [localId]
  let (have_, need) ← reconcileSet .trust localIds
  if localId ∈ have_ then
    -- under epoch 0, since it may carry the key of the head to a device that lacks it
    locked fun s => answer s fun r =>
      let payload := key.seal π s.ambient.nonce (π.trustJson.render bundle)
      ((), r.put .trust localId (payload.bytes π.crypto))
  let applied ← need.foldlM (fetchTrust key) false
  if applied then
    let _ ← attempt (onStore fun a => Store.backfillWraps a.wraps (key.idKey π) (key.epoch0Key π))
    pure true
  else pure false

def heldSnapshots : Pass π (List HeldSnapshot) :=
  readOk fun s => s.files.heldSnapshots π.toSyncPlatform

def adopt (kc : Keychain) (authorKeys : Std.TreeMap UInt64 Bytes32) (id : String)
    (framed : Bytes) : Pass π AdoptOutcome :=
  locked fun s =>
    let (r, store) := exec
      (Store.verifyAndAdoptSnapshot (s.ambient.io 0) kc authorKeys id framed s.files) s.store
    match r with
    | .ok (outcome, files) => (.ok outcome, { s with store, files })
    | .error e => (.error (.storage e), { s with store })

def importNeededSnapshots (kc : Keychain) : Pass π Nat := do
  let held ← heldSnapshots
  let (_, need) ← reconcileSet .snapshots (held.map HeldSnapshot.id)
  if need = [] then pure 0
  else
    let authorKeys ← read fun s => s.store.adminAuthorKeys
    need.foldlM (fun undecryptable id => do
      match ← getObject .snapshots id with
      | none => pure undecryptable
      | some framed =>
        match ← adopt kc authorKeys id framed with
        | .undecryptable => pure (undecryptable + 1)
        | _ => pure undecryptable) 0

def heldPeers (s : Store π.toPlatform) : List UInt64 :=
  let others := (s.peers.filter fun p => p.peerId ≠ s.peerId ∧ p.status = .active).map
    PeerRecord.peerId
  (s.peerId :: others).dedup.mergeSort (· ≤ ·)

def localEntries (s : Store π.toPlatform) : List (String × Bytes) :=
  (heldPeers s).flatMap fun peer =>
    (splitLogLines (s.exportPeerLog peer)).map fun line => (key.entryIdContent π peer line, line)

def localBlobs (s : Store π.toPlatform) : List (String × String) :=
  s.blobList.map fun hash => (key.blobId π hash, hash)

def uploadEntries (kc : Keychain) (have_ : List String) (entries : List (String × Bytes)) :
    Pass π Unit :=
  entries.forM fun (id, line) =>
    if id ∈ have_ then upload key kc .entries id line else pure ()

/-- `BlobStore::get`: what does not have the hash is an error. -/
def getBlob (hash : String) : Pass π (Option Bytes) :=
  locked fun s =>
    match s.store.disk.blobs[hash]? with
    | none => (.ok none, s)
    | some bytes =>
      if blobHash π.toPlatform bytes = hash then (.ok (some bytes), s) else (.error (.blob hash), s)

def uploadBlobs (kc : Keychain) (have_ : List String) (blobs : List (String × String)) :
    Pass π Unit :=
  blobs.forM fun (id, hash) =>
    if id ∈ have_ then do
      match ← getBlob hash with
      | none => pure ()
      | some bytes => upload key kc .blobs id bytes
    else pure ()

def markPoisoned (id : String) : Pass π Unit :=
  locked fun s => (.ok (), { s with poisoned := if id ∈ s.poisoned then s.poisoned
    else s.poisoned ++ [id] })

/-- A blob whose bytes do not lead to the id that it was found under is refused for good. -/
def fetchBlob (kc : Keychain) (undecryptable : Nat) (id : String) : Pass π Nat := do
  match ← getObject .blobs id with
  | none => pure undecryptable
  | some ct =>
    match openClassified π.crypto kc ct with
    | none => pure (undecryptable + 1)
    | some plaintext => do
      if key.blobId π (blobHash π.toPlatform plaintext) ≠ id then markPoisoned id
      else locked fun s => (.ok (), { s with store := s.store.putBlob plaintext })
      pure undecryptable

structure Fetched where
  byAuthor : Std.TreeMap UInt64 (List Bytes)
  undecryptable : Nat

/-- A fetched line goes to the author that it names. One that does not lead to the id that it was
found under is refused for good; one of an author who is not active is dropped. -/
def sortEntry (kc : Keychain) (peers : List PeerRecord) (acc : Fetched)
    (item : String × Except PassError (Option Bytes)) : Pass π Fetched := do
  match ← ExceptT.mk (.done item.2) with
  | none => pure acc
  | some ct =>
    match openClassified π.crypto kc ct with
    | none => pure { acc with undecryptable := acc.undecryptable + 1 }
    | some line =>
      match π.linePeer line with
      | none => pure acc
      | some author =>
        if key.entryIdContent π author line ≠ item.1 then
          markPoisoned item.1
          pure acc
        else if peers.any fun p => p.peerId = author then
          pure { acc with
            byAuthor := acc.byAuthor.insert author ((acc.byAuthor[author]?.getD []) ++ [line]) }
        else pure acc

def importLines (author : UInt64) (vkey : Bytes32) (lines : List Bytes) : Pass π Unit :=
  locked fun s =>
    let (r, store) := exec
      (Store.dedupAppendPeerLines (s.ambient.io 0) author vkey lines) s.store
    match r with
    | .ok _ => (.ok (), { s with store })
    | .error _ =>
      let store := lines.zipIdx.foldl (fun store (line, i) =>
        (exec (Store.dedupAppendPeerLine (s.ambient.io (i + 1)) author vkey line) store).2)
          store
      (.ok (), { s with store })

def importNeededEntries (kc : Keychain) (need poisoned : List String) : Pass π Nat := do
  let peers ← read fun s => s.store.peers.filter fun p =>
    p.peerId ≠ s.store.peerId ∧ p.status = .active ∧ π.validKey p.verifyingKey
  let fetched ← (need.filter fun id => id ∉ poisoned).mapM fun id => do
    let r ← attempt (getObject .entries id)
    pure (id, r)
  let sorted ← fetched.foldlM (sortEntry key kc peers) { byAuthor := ∅, undecryptable := 0 }
  sorted.byAuthor.toList.forM fun (author, lines) =>
    match peers.find? fun p => p.peerId = author with
    | none => pure ()
    | some p => importLines author p.verifyingKey lines
  pure sorted.undecryptable

def frame (manifestJson sealed : Bytes) : Bytes :=
  toLeBytes 4 (UInt64.ofNat manifestJson.length) ++ manifestJson ++ sealed

def signManifest (π : BackendPlatform) (identity : Identity) (m : SnapshotManifest) :
    SnapshotManifest :=
  let m := { m with author := identity.peerId π.toPlatform, sig := "" }
  { m with sig := π.b64UrlEncode (π.sign identity.secret m.signingBytes) }

def produceHeldSnapshot (beforeTs : Int) (nonce : Bytes) (files : SyncFiles) :
    StoreM π.toPlatform (Option (String × Bytes) × SyncFiles) := do
  let s ← get
  if s.selfRole ≠ some .admin then pure (none, files)
  else
    let kc ← ofResult (s.keychain (key.idKey π) (key.epoch0Key π))
    match ← Store.buildBackendSnapshot beforeTs with
    | none => pure (none, files)
    | some snap =>
      match sealUnderHead π kc key nonce snap.bytes with
      | none => pure (none, files)
      | some payload =>
        let ct := payload.bytes π.crypto
        let id := key.snapshotId π snap.frontierDigest
        let manifest := signManifest π s.identity
          { frontierDigest := snap.frontierDigest
            snapshotCtHash := π.crypto.blake3 ct
            subsumedEntryIds := snap.subsumedLines.map fun l => key.entryIdContent π l.1 l.2
            blobRefIds := snap.blobRefs.map (key.blobId π)
            author := 0
            sig := "" }
        let framed := frame (π.renderManifest manifest) ct
        let files := files.persistSnapshotObject id framed
        let files ← ofResult
          (files.recordHeldSnapshot π.toSyncPlatform id manifest.subsumedEntryIds)
        pure (some (id, framed), files)

def writeAndProduce : Pass π (Option (String × Bytes)) :=
  locked fun s =>
    let a := s.ambient
    let (r, store) := exec (do
      Store.writeSnapshot (a.io 0) (a.io 1) a.now
      produceHeldSnapshot key (a.now - a.retentionLag) a.nonce s.files) s.store
    match r with
    | .ok (produced, files) => (.ok produced, { s with store, files })
    | .error e => (.error (.storage e), { s with store })

def maybeProduceSnapshot : Pass π Unit := do
  if ← request fun r => (r.snapshotWanted, r) then
    if (← read fun s => s.store.selfRole) = some .admin then
      match ← writeAndProduce key with
      | none => pure ()
      | some (id, framed) => putObject .snapshots id framed

def takeKeychain : Pass π Keychain :=
  locked fun s =>
    ((s.keychain key).mapError .storage, { s with seen := (s.keychain key).toOption })

def push (kc : Keychain) (entries : List (String × Bytes)) (blobs : List (String × String))
    (haveEntries haveBlobs : List String) : Pass π Unit := do
  uploadEntries key kc haveEntries entries
  uploadBlobs key kc haveBlobs blobs

def pull (kc : Keychain) (needEntries needBlobs : List String) : Pass π Nat := do
  let poisoned ← read fun s => s.poisoned
  let undecryptable ← (needBlobs.filter fun id => id ∉ poisoned).foldlM (fetchBlob key kc) 0
  if needEntries = [] then pure undecryptable
  else
    let more ← importNeededEntries key kc needEntries poisoned
    pure (undecryptable + more)

structure Found where
  entries : List (String × Bytes)
  blobs : List (String × String)
  haveEntries : List String
  needEntries : List String
  haveBlobs : List String
  needBlobs : List String

def discover : Pass π Found := do
  let subsumed := (← heldSnapshots).flatMap HeldSnapshot.subsumed
  let (entries, blobs) ← read fun s => (localEntries key s.store, localBlobs key s.store)
  let (haveEntries, needEntries) ← reconcileSet .entries (entries.map Prod.fst)
  let (haveBlobs, needBlobs) ← reconcileSet .blobs (blobs.map Prod.fst)
  pure { entries, blobs, haveEntries, haveBlobs, needBlobs
         -- what a held snapshot covers is not fetched again
         needEntries := needEntries.filter fun id => id ∉ subsumed }

def reconcileOnce : Pass π Unit := do
  let _ ← reconcileTrust key
  let kc ← takeKeychain key
  let _ ← importNeededSnapshots kc
  let found ← discover key
  push key kc found.entries found.blobs found.haveEntries found.haveBlobs
  let _ ← pull key kc found.needEntries found.needBlobs
  maybeProduceSnapshot key

end Pass

end Roam
