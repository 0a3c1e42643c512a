import Roam.SnapshotCover
import Roam.SyncFiles

namespace Roam
set_option autoImplicit true
open Library

structure TrustBundle.SignedLog where
  peer : UInt64
  bytes : String
deriving DecidableEq

/-- The roster and key logs that a device holds, its own and those of others. -/
structure TrustBundle where
  v : UInt8
  rosters : List TrustBundle.SignedLog
  keylogs : List TrustBundle.SignedLog
deriving DecidableEq

/-- The libraries of the backend client: the keyed hash and the encoding of ids, JSON at its own
types, and the `peer` field of the JSON text of a log line. -/
structure BackendPlatform extends SyncPlatform where
  keyedHash : Bytes32 → Bytes → Bytes32
  b64UrlEncode : Bytes → String
  trustJson : Json TrustBundle
  renderManifest : SnapshotManifest → Bytes
  linePeer : Bytes → Option UInt64

structure VaultKey where
  root : Bytes32
deriving DecidableEq

namespace VaultKey
variable (π : BackendPlatform) (key : VaultKey)

def idKey : Bytes32 := (vaultSubkeys π.crypto key.root).1

def epoch0Key : Bytes32 := (vaultSubkeys π.crypto key.root).2

def keyed (input : Bytes) : String := π.b64UrlEncode (π.keyedHash (key.idKey π) input).bytes

def entryIdContent (peer : UInt64) (line : Bytes) : String :=
  key.keyed π ("entry".toUTF8.toList ++ toLeBytes 8 peer ++ (π.crypto.blake3 line).bytes)

def blobId (contentHash : String) : String :=
  key.keyed π ("blob".toUTF8.toList ++ contentHash.toUTF8.toList)

def trustId (contentHash : String) : String :=
  key.keyed π ("trust".toUTF8.toList ++ contentHash.toUTF8.toList)

def snapshotId (frontierDigest : Bytes32) : String :=
  key.keyed π ("snapshot".toUTF8.toList ++ frontierDigest.bytes)

end VaultKey

/-- A payload before it is written out: what is sealed, under the key of which epoch. -/
structure Sealed where
  epoch : Bytes32
  key : Bytes32
  nonce : Bytes
  plaintext : Bytes
deriving DecidableEq

/-- `nonce ‖ ct`, after the id of the epoch unless it is epoch 0. -/
def Sealed.bytes (c : Crypto) (p : Sealed) : Bytes :=
  (if p.epoch = epoch0Id then [] else p.epoch.bytes) ++ p.nonce ++
    c.aeadSeal p.key p.nonce p.plaintext

/-- `VaultKey::seal`. -/
def VaultKey.seal (π : BackendPlatform) (key : VaultKey) (nonce plaintext : Bytes) : Sealed where
  epoch := epoch0Id
  key := key.epoch0Key π
  nonce := nonce
  plaintext := plaintext

/-- Nothing is sealed when the vault was rotated and the key of the head is not there yet. -/
def sealUnderHead (π : BackendPlatform) (kc : Keychain) (key : VaultKey) (nonce plaintext : Bytes) :
    Option Sealed :=
  match kc.headWriteKey with
  | some (epoch, epochKey) =>
    if epoch ≠ epoch0Id then some { epoch, key := epochKey, nonce, plaintext }
    else some (key.seal π nonce plaintext)
  | none => if kc.head = epoch0Id then some (key.seal π nonce plaintext) else none

structure SealedUnder (π : BackendPlatform) (kc : Keychain) (key : VaultKey) (plaintext : Bytes)
    (p : Sealed) : Prop where
  epoch : p.epoch = kc.head
  plaintext : p.plaintext = plaintext
  key : kc.epochKey kc.head = some p.key ∨ kc.head = epoch0Id ∧ p.key = key.epoch0Key π

theorem sealUnderHead_some (h : sealUnderHead π kc key nonce plaintext = some p) :
    SealedUnder π kc key plaintext p := by
  rw [sealUnderHead, Keychain.headWriteKey] at h
  cases hkey : kc.epochKey kc.head with
  | none =>
    simp only [hkey, Option.map_none] at h
    split at h
    next hhead =>
      cases h
      exact ⟨hhead.symm, rfl, .inr ⟨hhead, rfl⟩⟩
    next => cases h
  | some k =>
    simp only [hkey, Option.map_some] at h
    split at h
    next =>
      cases h
      exact ⟨rfl, rfl, .inl hkey⟩
    next hhead =>
      cases h
      have hepoch := not_not.1 hhead
      exact ⟨hepoch.symm, rfl, .inr ⟨hepoch, rfl⟩⟩

inductive SetKind
  | entries
  | blobs
  | snapshots
  | trust
deriving DecidableEq, Repr

structure Remote where
  objects : SetKind → Std.TreeMap String Bytes
  snapshotWanted : Bool

namespace Remote

def get (r : Remote) (kind : SetKind) (id : String) : Option Bytes := (r.objects kind)[id]?

def put (r : Remote) (kind : SetKind) (id : String) (ct : Bytes) : Remote :=
  { r with objects := fun k =>
      if k = kind then (r.objects k).insertIfNew id ct else r.objects k }

/-- What a set reconciliation finds: the ids that the server lacks and those that it has besides. -/
def difference (r : Remote) (kind : SetKind) (localIds : List String) : List String × List String :=
  (localIds.filter fun id => !(r.objects kind).contains id,
    (r.objects kind).keys.filter fun id => id ∉ localIds)

end Remote

namespace Store
variable {π : Platform}

/-- `BlobStore::list`. -/
def blobList (s : Store π) : List String := s.disk.blobs.keys.filter isValidHash

/-- `Store::dedup_append_peer_line`. -/
def dedupAppendPeerLine (io : Io) (author : UInt64) (key : Bytes32) (line : Bytes) :
    StoreM π Unit := do
  let s ← get
  if author = s.peerId then pure ()
  else
    let existing := s.exportPeerLog author
    if line ∈ splitLogLines existing then pure ()
    else
      let whole := if existing ≠ [] ∧ existing.getLast? ≠ some 10 then existing ++ [10]
        else existing
      let whole := whole ++ line
      importPeerIo io author key (if whole.getLast? = some 10 then whole else whole ++ [10])

end Store

end Roam
