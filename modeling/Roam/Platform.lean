import Roam.Keychain
import Roam.Document
import Roam.Library.LineLog

namespace Roam
set_option autoImplicit true
open Library

inductive StorageError
  | io (msg : String)
  | json (msg : String)
  | base64 (msg : String)
  | malformedEntry (msg : String)
  | badSignature (peer : UInt64)
  | peer (msg : String)
  | crdt (msg : String)
deriving DecidableEq, Repr

structure RosterLine where
  seq : UInt64
  lamport : UInt64
  op : RosterOp
  subjectPeer : UInt64
  subjectKey : String
  addedBy : UInt64
  sig : String
deriving DecidableEq

inductive KeyBodyLine
  | rotate (parents : List String) (nonce : String)
  | wrap (recipient : Recipient) (blob : String)
deriving DecidableEq

structure KeyLine where
  seq : UInt64
  author : UInt64
  epochId : String
  body : KeyBodyLine
  sig : String
deriving DecidableEq

structure EntryLine where
  peer : UInt64
  sig : String
  update : String
deriving DecidableEq

/-- A moment that a checkpoint can go back to: its time, the frontier of the document in base64,
and the number of lines that the op log of each peer had. -/
structure Marker where
  tsMs : Int
  frontier : String
  logLens : List (UInt64 × Nat)
deriving DecidableEq

/-- The markers of the source: the time is an `i64`, and the counts are a map of `u64`. -/
structure Marker.Fits (m : Marker) : Prop where
  tsMs : -2 ^ 63 ≤ m.tsMs ∧ m.tsMs < 2 ^ 63
  keys : m.logLens.Pairwise fun log log' => log.1 < log'.1
  counts : ∀ log ∈ m.logLens, log.2 < 2 ^ 64

structure Json (Line : Type) where
  parse : Bytes → Except String Line
  render : Line → Bytes

/-- The libraries under the store: the document, JSON, base64, ed25519 and the key-wrap
primitives. `contentHash` reads that field of the JSON text of a file entry. -/
structure Platform extends DocLib where
  rosterJson : Json RosterLine
  keyJson : Json KeyLine
  opJson : Json EntryLine
  markerJson : Json Marker
  contentHash : String → Option String
  b64Encode : Bytes → String
  b64Decode : String → Except String Bytes
  utf8Error : Bytes → String
  publicKey : Bytes32 → Bytes32
  validKey : Bytes32 → Bool
  sign : Bytes32 → Bytes → Bytes
  verify : Bytes32 → Bytes → Bytes → Bool
  x25519Secret : Bytes32 → Bytes32
  toX25519 : Bytes32 → Bytes32
  crypto : Crypto

structure Json.Lawful (json : Json Line) : Prop where
  parse_render : ∀ line, json.parse (json.render line) = .ok line
  object : ∀ line, ObjectLine (json.render line)

/-- A line that was cut does not parse, and neither does one that continues a cut one. -/
structure Json.Framed (json : Json Line) : Prop extends json.Lawful where
  torn : ∀ line text, text <+: json.render line → text ≠ json.render line →
    ∃ msg, json.parse text = .error msg
  joined : ∀ line line' text, text <+: json.render line → text ≠ [] →
    ∃ msg, json.parse (text ++ json.render line') = .error msg

/-- `Json.Framed` for those records that the type of the source can hold. -/
structure Json.FramedOn (json : Json α) (P : α → Prop) : Prop where
  parse_render : ∀ a, P a → json.parse (json.render a) = .ok a
  object : ∀ a, P a → ObjectLine (json.render a)
  torn : ∀ a text, P a → text <+: json.render a → text ≠ json.render a →
    ∃ msg, json.parse text = .error msg
  joined : ∀ a a' text, P a → P a' → text <+: json.render a → text ≠ [] →
    ∃ msg, json.parse (text ++ json.render a') = .error msg

theorem Json.Framed.on {json : Json α} (h : json.Framed) (P : α → Prop) : json.FramedOn P where
  parse_render a _ := h.parse_render a
  object a _ := h.object a
  torn a text _ := h.torn a text
  joined a a' text _ _ := h.joined a a' text

/-- After a text on the same line an object does not parse, unless that text is white space. -/
def Json.StandsAlone (json : Json Line) : Prop :=
  ∀ line text, (∃ msg, json.parse (text ++ json.render line) = .error msg) ∨
    isBlank text = true ∧ json.parse (text ++ json.render line) = .ok line

/-- What a writer needs of the libraries to read back what it wrote. -/
structure Platform.Lawful (π : Platform) : Prop where
  roster : π.rosterJson.Lawful
  key : π.keyJson.Lawful
  op : π.opJson.Lawful
  b64 : ∀ bytes, π.b64Decode (π.b64Encode bytes) = .ok bytes
  sig_length : ∀ secret msg, (π.sign secret msg).length = 64
  verify_sign : ∀ secret msg, π.verify (π.publicKey secret) msg (π.sign secret msg) = true
  valid_publicKey : ∀ secret, π.validKey (π.publicKey secret) = true

structure Platform.Framed (π : Platform) : Prop extends π.Lawful where
  rosterFramed : π.rosterJson.Framed
  keyFramed : π.keyJson.Framed
  opFramed : π.opJson.Framed

structure Identity where
  secret : Bytes32

def Identity.verifyingKey (π : Platform) (id : Identity) : Bytes32 := π.publicKey id.secret

def Identity.peerId (π : Platform) (id : Identity) : UInt64 := derivedPeerId (id.verifyingKey π)

end Roam
