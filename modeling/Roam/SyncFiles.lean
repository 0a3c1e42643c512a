import Roam.Checkpoint
import Roam.SnapshotFiles
import Roam.StoreSpec

namespace Roam
set_option autoImplicit true
open Library Library.Fallible

inductive EntryStatus
  | live
  | tombstoned
deriving DecidableEq, Repr

inductive EntryKind
  | text
  | blob
deriving DecidableEq, Repr

/-- A value of the file-set map, with the fields that synchronisation reads. -/
structure FileEntry where
  kind : EntryKind
  status : EntryStatus
  contentHash : String
deriving DecidableEq, Repr

/-- The signed description that travels with a sealed snapshot. -/
structure SnapshotManifest where
  frontierDigest : Bytes32
  snapshotCtHash : Bytes32
  subsumedEntryIds : List String
  blobRefIds : List String
  author : UInt64
  sig : String
deriving DecidableEq

structure HeldSnapshot where
  id : String
  subsumed : List String
deriving DecidableEq

/-- The libraries under the engine: `serde_json` at the types above, and base64 without padding. -/
structure SyncPlatform extends Platform where
  fileEntry : String → Option FileEntry
  manifest : Bytes → Option SnapshotManifest
  heldJson : Json HeldSnapshot
  b64UrlDecode : String → Option Bytes

/-- The files beside those of the store: `assets/incoming/<hash>.part`, the objects in `snapshots`
and `snapshots/held.jsonl`. -/
structure SyncFiles where
  parts : Std.TreeMap String Bytes
  objects : Std.TreeMap String Bytes
  held : Option Bytes

def hexDigit (n : Nat) : Char := "0123456789abcdef".toList.getD n '0'

def toHex (bytes : Bytes) : String :=
  String.ofList (bytes.flatMap fun b => [hexDigit (b.toNat / 16), hexDigit (b.toNat % 16)])

/-- `BlobStore::hash`. -/
def blobHash (π : Platform) (bytes : Bytes) : String := toHex (π.crypto.blake3 bytes).bytes

def isValidHash (hash : String) : Bool :=
  hash.toList.length = 64 ∧
    hash.toList.all fun c => ('0' ≤ c ∧ c ≤ '9') ∨ ('a' ≤ c ∧ c ≤ 'f')

namespace Store
variable {π : SyncPlatform}

def hasBlob (s : Store π.toPlatform) (hash : String) : Bool :=
  isValidHash hash && s.disk.blobs.contains hash

/-- The bytes that `size` and `read_range` work on; an error counts as no blob. -/
def blob? (s : Store π.toPlatform) (hash : String) : Option Bytes :=
  if isValidHash hash then s.disk.blobs[hash]? else none

def withBlob (s : Store π.toPlatform) (hash : String) (bytes : Bytes) : Store π.toPlatform :=
  { s with disk.blobs := s.disk.blobs.insert hash bytes }

def putBlob (s : Store π.toPlatform) (bytes : Bytes) : Store π.toPlatform :=
  let hash := blobHash π.toPlatform bytes
  if s.disk.blobs.contains hash then s else s.withBlob hash bytes

def liveBlobs (s : Store π.toPlatform) : List String :=
  (((π.entries s.doc filesetMapId).filterMap fun entry => π.fileEntry entry.2).filter fun entry =>
    entry.kind = .blob ∧ entry.status = .live).map FileEntry.contentHash

def filesetWants (s : Store π.toPlatform) (hash : String) : Bool := s.liveBlobs.contains hash

def missingBlobHashes (s : Store π.toPlatform) : List String :=
  (s.liveBlobs.filter fun hash => !s.hasBlob hash).eraseDups

end Store

namespace SyncFiles

/-- `BlobStore::write_incoming_chunk`: the first chunk fixes the length of the part. -/
def writeIncomingChunk (files : SyncFiles) (hash : String) (offset totalLen : Nat)
    (bytes : Bytes) : Option SyncFiles :=
  if isValidHash hash ∧ offset + bytes.length ≤ totalLen then
    let part := files.parts[hash]?.getD (List.replicate totalLen 0)
    if part.length = totalLen then
      let part := part.take offset ++ bytes ++ part.drop (offset + bytes.length)
      some { files with parts := files.parts.insert hash part }
    else none
  else none

def discardIncoming (files : SyncFiles) (hash : String) : SyncFiles :=
  { files with parts := files.parts.erase hash }

/-- `BlobStore::finalize_incoming`: a part becomes a blob if it has the hash, and is dropped in
either case. -/
def finalizeIncoming (π : SyncPlatform) (files : SyncFiles) (s : Store π.toPlatform)
    (hash : String) : Bool × SyncFiles × Store π.toPlatform :=
  match files.parts[hash]? with
  | none => (false, files, s)
  | some bytes =>
    if blobHash π.toPlatform bytes =
      hash then (true, files.discardIncoming hash, s.withBlob hash bytes)
    else (false, files.discardIncoming hash, s)

def heldSnapshotIds (files : SyncFiles) : List String :=
  files.objects.keys.filter fun name => ¬ Reserved name

/-- `load_snapshot_object` joins any id to the directory. What an id leads to that is no name in it
is given from outside. -/
def loadSnapshotObject (files : SyncFiles) (snapshot : Option Bytes)
    (elsewhere : String → Option Bytes) (id : String) : Option Bytes :=
  if id = "snapshot.loro" then snapshot
  else if id = "held.jsonl" then files.held
  else if EntryName id then files.objects[id]?
  else elsewhere id

def heldSnapshots (π : SyncPlatform) (files : SyncFiles) :
    Except StorageError (List HeldSnapshot) :=
  match files.held with
  | none => .ok []
  | some bytes =>
    if validUtf8 bytes then
      ((textLines bytes).filter fun line => !isBlank line).mapM fun line =>
        (π.heldJson.parse line).mapError .json
    else .error (.io (π.utf8Error bytes))

def recordHeldSnapshot (π : SyncPlatform) (files : SyncFiles) (id : String)
    (subsumed : List String) : Except StorageError SyncFiles := do
  let held ← files.heldSnapshots π
  if held.any fun h => h.id = id then pure files
  else
    pure { files with held := some (appendLine files.held (π.heldJson.render { id, subsumed })) }

def persistSnapshotObject (files : SyncFiles) (id : String) (framed : Bytes) : SyncFiles :=
  { files with objects := files.objects.insert id framed }

end SyncFiles

def manifestDomain : Bytes := "roam-snapshot-manifest-v1".toUTF8.toList

def idListBytes (ids : List String) : Bytes :=
  toLeBytes 8 (UInt64.ofNat ids.length) ++
    (ids.mergeSort (· ≤ ·)).flatMap fun id =>
      toLeBytes 8 (UInt64.ofNat id.utf8ByteSize) ++ id.toUTF8.toList

def SnapshotManifest.signingBytes (m : SnapshotManifest) : Bytes :=
  manifestDomain ++ m.frontierDigest.bytes ++ m.snapshotCtHash.bytes ++ toLeBytes 8 m.author ++
    idListBytes m.subsumedEntryIds ++ idListBytes m.blobRefIds

def SnapshotManifest.verify (π : SyncPlatform) (m : SnapshotManifest) (key : Bytes32) : Bool :=
  match π.b64UrlDecode m.sig with
  | some sig => sig.length = 64 && π.verify key m.signingBytes sig
  | none => false

/-- `u32-LE manifest_len ‖ manifest_json ‖ sealed_ct`. -/
def unframe (bytes : Bytes) : Option (Bytes × Bytes) :=
  if bytes.length < 4 then none
  else
    let len := (fromLeBytes (bytes.take 4)).toNat
    let rest := bytes.drop 4
    if rest.length < len then none else some (rest.take len, rest.drop len)

def vaultIdLabel : String := "roam-backend-client id-derivation v1"

def vaultAeadLabel : String := "roam-backend-client aead v1"

def vaultSubkeys (c : Crypto) (vaultKey : Bytes32) : Bytes32 × Bytes32 :=
  (c.deriveKey vaultIdLabel vaultKey.bytes, c.deriveKey vaultAeadLabel vaultKey.bytes)

/-- The key and the body of a sealed payload: it is tagged if it starts with the id of a known epoch
other than epoch 0. -/
def Keychain.classify (kc : Keychain) (payload : Bytes) : Option Bytes32 × Bytes :=
  let tag := do
    let epoch ← Bytes32.ofBytes? (payload.take 32)
    if epoch = epoch0Id then none else kc.epochs[epoch]?
  match tag with
  | some node => (node.key, payload.drop 32)
  | none => (kc.epochKey epoch0Id, payload)

def openEpoch (c : Crypto) (key : Bytes32) (body : Bytes) : Option Bytes :=
  if body.length < 24 then none else c.aeadOpen key (body.take 24) (body.drop 24)

def openClassified (c : Crypto) (kc : Keychain) (payload : Bytes) : Option Bytes :=
  let (key, body) := kc.classify payload
  key.bind fun key => openEpoch c key body

inductive AdoptOutcome
  | adopted (id : String) (subsumed : List String)
  | undecryptable
  | rejected (reason : String)
deriving DecidableEq, Repr

namespace Store
variable {π : SyncPlatform}

def selfRole (s : Store π.toPlatform) : Option Role := s.roleOf s.peerId

def adminAuthorKeys (s : Store π.toPlatform) : Std.TreeMap UInt64 Bytes32 :=
  let keys := s.peers.foldl (fun keys p =>
    if p.role = .admin ∧ p.status = .active ∧ π.validKey p.verifyingKey then
      keys.insert p.peerId p.verifyingKey
    else keys) ∅
  if s.selfRole = some .admin ∧ π.validKey s.selfKey then keys.insert s.peerId s.selfKey else keys

/-- All that is checked before a snapshot object is adopted: its plaintext and what it subsumes. -/
def openSnapshot (kc : Keychain) (authorKeys : Std.TreeMap UInt64 Bytes32) (framed : Bytes) :
    Except AdoptOutcome (Bytes × List String) := do
  let some (manifestJson, sealed) := unframe framed | throw (.rejected "malformed frame")
  let some manifest := π.manifest manifestJson | throw (.rejected "manifest parse")
  let some key := authorKeys[manifest.author]? | throw (.rejected "author not admin")
  if !manifest.verify π key then throw (.rejected "bad signature")
  if π.crypto.blake3 sealed ≠ manifest.snapshotCtHash then throw (.rejected "ct hash mismatch")
  let some plaintext := openClassified π.crypto kc sealed | throw .undecryptable
  pure (plaintext, manifest.subsumedEntryIds)

/-- Check a snapshot object and, if it can be trusted and opened, merge it into the document and
keep it. -/
def verifyAndAdoptSnapshot (io : Io) (kc : Keychain) (authorKeys : Std.TreeMap UInt64 Bytes32)
    (id : String) (framed : Bytes) (files : SyncFiles) :
    StoreM π.toPlatform (AdoptOutcome × SyncFiles) :=
  match openSnapshot (π := π) kc authorKeys framed with
  | .error outcome => pure (outcome, files)
  | .ok (plaintext, subsumed) => do
    adoptSnapshot io plaintext
    let files ← ofResult (files.recordHeldSnapshot π id subsumed)
    pure (.adopted id subsumed, files.persistSnapshotObject id framed)

end Store

/-- The epochs that the device can open, each with an active member that has no wrap of it. -/
def Keychain.backfillTargets (kc : Keychain) (roster : List PeerRecord) :
    List (Bytes32 × Bytes32 × UInt64) :=
  kc.epochs.toList.flatMap fun (epoch, node) =>
    if epoch = epoch0Id then []
    else
      match node.key with
      | none => []
      | some key =>
        (roster.filter fun p => p.status = .active ∧ !node.wrappedTo.contains p.peerId).map
          fun p => (epoch, key, p.peerId)

namespace Store
variable {π : Platform}

def memberKey (s : Store π) (peer : UInt64) : Option Bytes32 :=
  (s.peers.find? fun p => p.peerId = peer).bind fun p =>
    if π.validKey p.verifyingKey then some (π.toX25519 p.verifyingKey) else none

/-- Publish the wraps that members lack, in the own key log; how many. -/
def backfillWrapsIo (io : Nat → Io) (wraps : Nat → WrapSeed) (idKey epoch0Key : Bytes32) :
    StoreM π Nat := do
  let s ← get
  let kc ← ofResult (s.keychain idKey epoch0Key)
  (kc.backfillTargets s.peers).zipIdx.foldlM (fun published ((epoch, key, peer), i) =>
    match s.memberKey peer with
    | none => pure published
    | some recipientPub => do
      appendKeylogIo (io i) epoch (.wrap (.device peer) (wrap π.crypto (wraps i) recipientPub key))
      pure (published + 1)) 0

def backfillWraps (wraps : Nat → WrapSeed) (idKey epoch0Key : Bytes32) : StoreM π Nat :=
  backfillWrapsIo (fun _ => .done) wraps idKey epoch0Key

theorem backfillWrapsIo_leaves {R : Store π → Store π → Prop} [IsPreorder (Store π) R]
    (hR : ∀ (s : Store π) more, R s (s.withKeylog s.peerId (s.exportKeylog s.peerId ++ more)))
    (io : Nat → Io) (wraps : Nat → WrapSeed) (idKey epoch0Key : Bytes32) :
    Leaves R (backfillWrapsIo io wraps idKey epoch0Key : StoreM π Nat) := by
  refine Leaves.get.bind fun s => ?_
  refine (Leaves.ofResult (s.keychain idKey epoch0Key)).bind fun kc => ?_
  apply Leaves.foldlM
  rintro published ⟨⟨epoch, key, peer⟩, i⟩
  dsimp only
  cases s.memberKey peer with
  | none => exact .pure published
  | some recipientPub => exact (appendKeylogIo_leaves hR _ _ _).bind fun _ => .pure (published + 1)

def exportOwnLog (s : Store π) : Bytes := s.exportPeerLog s.peerId

def exportOwnKeylog (s : Store π) : Bytes := s.exportKeylog s.peerId

def docVersionBytes (s : Store π) : Bytes := π.versionBytes (π.version s.doc)

end Store

end Roam
