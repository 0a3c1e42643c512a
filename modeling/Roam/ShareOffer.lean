import Roam.Base
import Roam.ShareNames

namespace Roam.Share
set_option autoImplicit true
open Library

structure FileMeta where
  path : RelPath
  len : UInt64
deriving DecidableEq

structure Contact where
  displayName : String
  fields : List (String × String)
deriving DecidableEq

inductive Payload
  | file (info : FileMeta)
  | folder (name : SafeName) (files : List FileMeta)
  | text (text : String)
  | clipboard (text : String)
  | contact (card : Contact)
deriving DecidableEq

structure StreamRef where
  item : Nat
  path : RelPath
  len : UInt64
deriving DecidableEq

structure ShareOffer where
  sender : String
  items : List Payload
deriving DecidableEq

inductive ShareFrame
  | offer (offer : ShareOffer)
  | accept (streams : List UInt32)
  | decline
  | chunk (stream : UInt32) (offset : UInt64) (bytes : Bytes)
  | done
deriving DecidableEq

def ShareFrame.kind : ShareFrame → String
  | .offer _ => "Offer"
  | .accept _ => "Accept"
  | .decline => "Decline"
  | .chunk _ _ _ => "Chunk"
  | .done => "Done"

inductive ShareError
  | stat (path : List String)
  | noUsableName
  | cannotShare (path : List String) (why : NameError)
  | symlink (path : List String)
  | overLimit (claimed : UInt64)
  | unexpected (kind : String)
  | unknownStream (stream : UInt32)
  | offsetTooLarge
  | offsetOverflow
  | tooLong (stream : UInt32) (sent : Nat) (declared : UInt64)
  | connectionLost
  | noLocalFile (path : String)
  | unreadable (path : List String)
  | write (path : List String)
deriving DecidableEq

inductive Halt
  | failed (e : ShareError)
  | panicked
deriving DecidableEq

def expectOk : Except NameError α → Except Halt α
  | .ok a => .ok a
  | .error _ => .error .panicked

def saturatingAdd (a b : UInt64) : UInt64 :=
  if a.toNat + b.toNat < 2 ^ 64 then a + b else UInt64.ofNat (2 ^ 64 - 1)

namespace ShareOffer

/-- The streams of one item; a folder's own name comes before the path of each of its files. -/
def itemStreams (item : Nat) : Payload → Except Halt (List StreamRef)
  | .file info => .ok [⟨item, info.path, info.len⟩]
  | .folder name files =>
    files.mapM fun info => do
      let path ← expectOk (RelPath.new (name.text ++ "/" ++ info.path.display))
      return ⟨item, path, info.len⟩
  | .text _ | .clipboard _ | .contact _ => .ok []

def streams (offer : ShareOffer) : Except Halt (List StreamRef) := do
  let perItem ← offer.items.zipIdx.mapM fun (payload, item) => itemStreams item payload
  return perItem.flatten

def totalLen (offer : ShareOffer) : Except Halt UInt64 := do
  let streams ← offer.streams
  return streams.foldl (fun acc s => saturatingAdd acc s.len) 0

end ShareOffer

end Roam.Share
