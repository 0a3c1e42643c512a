import Roam.Roster

namespace Roam
set_option autoImplicit true

inductive Recipient
  | device (peer : UInt64)
  | paper
deriving DecidableEq, Repr

/-- A `rotate` announces an epoch; a `wrap` delivers the key of one to a recipient. -/
inductive KeyBody
  | rotate (parentEpochs : List Bytes32) (nonce : Bytes32)
  | wrap (recipient : Recipient) (blob : Bytes)
deriving DecidableEq

structure KeyLogEntry where
  seq : UInt64
  author : UInt64
  epochId : Bytes32
  body : KeyBody
deriving DecidableEq

def Recipient.canonicalBytes : Recipient → Bytes
  | .device p => 0 :: toLeBytes 8 p
  | .paper => [1]

def KeyLogEntry.canonicalBytes (e : KeyLogEntry) : Bytes :=
  "roam.keylog.v1".toUTF8.toList ++ toLeBytes 8 e.seq ++ toLeBytes 8 e.author ++ e.epochId.bytes ++
    match e.body with
    | .rotate parentEpochs nonce =>
      0 :: toLeBytes 8 (UInt64.ofNat parentEpochs.length) ++ parentEpochs.flatMap Bytes32.bytes ++
        nonce.bytes
    | .wrap recipient blob =>
      1 :: recipient.canonicalBytes ++ toLeBytes 8 (UInt64.ofNat blob.length) ++ blob

/-- The hash and the sealed-box primitives that the key chain is built on. -/
structure Crypto where
  blake3 : Bytes → Bytes32
  deriveKey : String → Bytes → Bytes32
  x25519Public : Bytes32 → Bytes32
  diffieHellman : Bytes32 → Bytes32 → Bytes32
  aeadSeal : Bytes32 → Bytes → Bytes → Bytes
  aeadOpen : Bytes32 → Bytes → Bytes → Option Bytes

def Bytes32.ofBytes? (bytes : Bytes) : Option Bytes32 :=
  if h : bytes.length = 32 then some ⟨bytes, h⟩ else none

structure WrapSeed where
  ephSecret : Bytes32
  nonce : Bytes
  size : nonce.length = 24

section
variable (c : Crypto)

def wrapSubkey (shared ephPub recipientPub : Bytes32) : Bytes32 :=
  c.deriveKey "roam keywrap v1" (shared.bytes ++ ephPub.bytes ++ recipientPub.bytes)

def wrap (seed : WrapSeed) (recipientPub key : Bytes32) : Bytes :=
  let ephPub := c.x25519Public seed.ephSecret
  let shared := c.diffieHellman seed.ephSecret recipientPub
  let subkey := wrapSubkey c shared ephPub recipientPub
  ephPub.bytes ++ seed.nonce ++ c.aeadSeal subkey seed.nonce key.bytes

def unwrap (recipientSecret : Bytes32) (blob : Bytes) : Option Bytes32 :=
  if blob.length < 56 then none
  else do
    let ephPub ← Bytes32.ofBytes? (blob.take 32)
    let shared := c.diffieHellman recipientSecret ephPub
    let subkey := wrapSubkey c shared ephPub (c.x25519Public recipientSecret)
    let key ← c.aeadOpen subkey ((blob.drop 32).take 24) (blob.drop 56)
    Bytes32.ofBytes? key

/-- The id of an epoch commits to its parents, its minter, its nonce and its key. -/
def computeEpochId (parents : List Bytes32) (mintedBy : UInt64) (nonce key : Bytes32) : Bytes32 :=
  c.blake3 (parents.flatMap Bytes32.bytes ++ toLeBytes 8 mintedBy ++ nonce.bytes ++ key.bytes)

end

def epoch0Id : Bytes32 := .replicate 0

structure EpochNode where
  parents : List Bytes32
  mintedBy : UInt64
  nonce : Bytes32
  key : Option Bytes32
  wrappedTo : Std.TreeSet UInt64
  wrappedPaper : Bool

structure Keychain where
  idKey : Bytes32
  epochs : Std.TreeMap Bytes32 EpochNode
  head : Bytes32

def EpochNode.genesis (epoch0Key : Bytes32) : EpochNode where
  parents := []
  mintedBy := 0
  nonce := .replicate 0
  key := some epoch0Key
  wrappedTo := ∅
  wrappedPaper := false

def EpochNode.announced (parents : List Bytes32) (mintedBy : UInt64) (nonce : Bytes32) :
    EpochNode where
  parents := parents
  mintedBy := mintedBy
  nonce := nonce
  key := none
  wrappedTo := ∅
  wrappedPaper := false

def announceEpoch (epochs : Std.TreeMap Bytes32 EpochNode) (e : KeyLogEntry) :
    Std.TreeMap Bytes32 EpochNode :=
  match e.body with
  | .rotate parentEpochs nonce =>
    epochs.alter e.epochId fun node? => some (node?.getD (.announced parentEpochs e.author nonce))
  | .wrap _ _ => epochs

def EpochNode.attachWrap (c : Crypto) (selfPeer : UInt64) (secret epochId : Bytes32)
    (recipient : Recipient) (blob : Bytes) (node : EpochNode) : EpochNode :=
  match recipient with
  | .device p =>
    let node := { node with wrappedTo := node.wrappedTo.insert p }
    if p = selfPeer ∧ node.key.isNone then
      match unwrap c secret blob with
      | some k =>
        if computeEpochId c node.parents node.mintedBy node.nonce k = epochId then
          { node with key := some k }
        else node
      | none => node
    else node
  | .paper => { node with wrappedPaper := true }

def attachEntry (c : Crypto) (selfPeer : UInt64) (secret : Bytes32)
    (epochs : Std.TreeMap Bytes32 EpochNode) (e : KeyLogEntry) : Std.TreeMap Bytes32 EpochNode :=
  match e.body with
  | .rotate _ _ => epochs
  | .wrap recipient blob =>
    epochs.alter e.epochId
      (Option.map (EpochNode.attachWrap c selfPeer secret e.epochId recipient blob))

def parentIds (epochs : Std.TreeMap Bytes32 EpochNode) : Std.TreeSet Bytes32 :=
  epochs.toList.foldl (fun ids p => p.2.parents.foldl (fun ids p => ids.insert p) ids) ∅

def leaves (epochs : Std.TreeMap Bytes32 EpochNode) : List Bytes32 :=
  epochs.keys.filter fun id => !(parentIds epochs).contains id

def selectHead (epochs : Std.TreeMap Bytes32 EpochNode) : Bytes32 :=
  (leaves epochs).min?.getD epoch0Id

def epochNodes (c : Crypto) (epoch0Key : Bytes32) (selfPeer : UInt64) (secret : Bytes32)
    (entries : List KeyLogEntry) : Std.TreeMap Bytes32 EpochNode :=
  let genesis := (∅ : Std.TreeMap Bytes32 EpochNode).insert epoch0Id (.genesis epoch0Key)
  entries.foldl (attachEntry c selfPeer secret) (entries.foldl announceEpoch genesis)

def Keychain.build (c : Crypto) (idKey epoch0Key : Bytes32) (selfPeer : UInt64) (secret : Bytes32)
    (entries : List KeyLogEntry) : Keychain :=
  let epochs := epochNodes c epoch0Key selfPeer secret entries
  { idKey, epochs, head := selectHead epochs }

def Keychain.epochKey (kc : Keychain) (epoch : Bytes32) : Option Bytes32 :=
  kc.epochs[epoch]?.bind EpochNode.key

def Keychain.headWriteKey (kc : Keychain) : Option (Bytes32 × Bytes32) :=
  (kc.epochKey kc.head).map fun k => (kc.head, k)

def Keychain.keyMatchesEpoch (c : Crypto) (kc : Keychain) (epoch key : Bytes32) : Bool :=
  if epoch = epoch0Id then false
  else
    match kc.epochs[epoch]? with
    | some node => computeEpochId c node.parents node.mintedBy node.nonce key = epoch
    | none => false

def Keychain.dagHeads (kc : Keychain) : List Bytes32 :=
  let heads := leaves kc.epochs
  if heads.isEmpty then [epoch0Id] else heads

end Roam
