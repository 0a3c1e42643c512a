import Roam.ShareOffer
import Roam.Library.Chunks

namespace Roam.Share
set_option autoImplicit true
open Library

def defaultMaxAcceptBytes : UInt64 := 8 * 1024 * 1024 * 1024

inductive Os
  | unix
  | windows
deriving DecidableEq

inductive Usize
  | bits32
  | bits64
deriving DecidableEq

def Usize.bits : Usize → Nat
  | .bits32 => 32
  | .bits64 => 64

structure Host where
  os : Os
  usize : Usize
deriving DecidableEq

def Host.Allocates (host : Host) (size : Nat) : Prop := size < 2 ^ (host.usize.bits - 1)

instance (host : Host) (size : Nat) : Decidable (host.Allocates size) :=
  inferInstanceAs (Decidable (_ < _))

/-- What a path is pushed onto is dropped if it begins with a drive. -/
def Os.replaces : Os → String → Bool
  | .unix, _ => false
  | .windows, c =>
    match c.toList with
    | first :: ':' :: _ => first.isAlpha
    | _ => false

def Host.push (host : Host) (path : List String) (c : String) : List String :=
  if host.os.replaces c then [c] else path ++ [c]

def RelPath.resolveUnder (host : Host) (base : List String) (path : RelPath) : List String :=
  path.components.foldl host.push base

structure Received where
  files : List (List String)
  texts : List String
deriving DecidableEq

inductive Answer
  | overLimit (claimed : UInt64)
  | declined
  | accepted (streams : List StreamRef)

def answer (decide : ShareOffer → Bool) (offer : ShareOffer) : Except Halt Answer := do
  let claimed ← offer.totalLen
  if claimed > defaultMaxAcceptBytes then
    return .overLimit claimed
  else if decide offer then
    let streams ← offer.streams
    return .accepted streams
  else
    return .declined

def wanted (streams : List StreamRef) : List UInt32 :=
  (List.range (streams.length % 2 ^ 32)).map UInt32.ofNat

abbrev Buffers := Std.TreeMap UInt32 Bytes

def Host.cut (host : Host) (len : UInt64) : Nat := len.toNat % 2 ^ host.usize.bits

/-- A chunk goes to its place in the buffer of its stream, which starts as zeros. -/
def takeChunk (host : Host) (streams : List StreamRef) (buffers : Buffers) (stream : UInt32)
    (offset : UInt64) (bytes : Bytes) : Except Halt Buffers :=
  match streams[stream.toNat]? with
  | none => .error (.failed (.unknownStream stream))
  | some info =>
    let stop := offset.toNat + bytes.length
    if 2 ^ host.usize.bits ≤ offset.toNat then .error (.failed .offsetTooLarge)
    else if 2 ^ host.usize.bits ≤ stop then .error (.failed .offsetOverflow)
    else if info.len.toNat < stop then .error (.failed (.tooLong stream stop info.len))
    else if buffers[stream]? = none ∧ ¬ host.Allocates (host.cut info.len) then .error .panicked
    else
      let buffer := buffers[stream]?.getD (List.replicate (host.cut info.len) 0)
      -- a slice that is out of range panics
      if stop ≤ buffer.length then .ok (buffers.insert stream (overwrite buffer offset.toNat bytes))
      else .error .panicked

def assemble (host : Host) (streams : List StreamRef) :
    Buffers → List ShareFrame → Except Halt Buffers
  | _, [] => .error (.failed .connectionLost)
  | buffers, .chunk stream offset bytes :: frames => do
    let buffers ← takeChunk host streams buffers stream offset bytes
    assemble host streams buffers frames
  | buffers, .done :: _ => .ok buffers
  | _, frame :: _ => .error (.failed (.unexpected frame.kind))

/-- How the disk of the receiver takes a file: whole, not at all, or not beyond some bytes. -/
inductive WriteIo
  | done
  | refused
  | torn (written : Nat)

structure Written where
  stream : UInt32
  path : List String
  bytes : Bytes
deriving DecidableEq

def writeStreams (host : Host) (io : List String → WriteIo) (dest : List String)
    (streams : List StreamRef) :
    List (UInt32 × Bytes) → List Written × Except Halt (List (List String))
  | [] => ([], .ok [])
  | (stream, bytes) :: rest =>
    match streams[stream.toNat]? with
    | none => ([], .error .panicked)
    | some info =>
      let path := info.path.resolveUnder host dest
      match io path with
      | .refused => ([], .error (.failed (.write path)))
      | .torn n => ([⟨stream, path, bytes.take n⟩], .error (.failed (.write path)))
      | .done =>
        let (written, paths) := writeStreams host io dest streams rest
        (⟨stream, path, bytes⟩ :: written, paths.map (path :: ·))

def inlineTexts (items : List Payload) : List String :=
  items.filterMap fun
    | .text text | .clipboard text => some text
    | _ => none

structure Reception where
  written : List Written
  result : Except Halt Received

/-- `receive_share_with` from the offer on. -/
def receiveShareWith (host : Host) (io : List String → WriteIo) (dest : List String)
    (decide : ShareOffer → Bool) (offer : ShareOffer) (frames : List ShareFrame) : Reception :=
  match answer decide offer with
  | .error halt => ⟨[], .error halt⟩
  | .ok (.overLimit claimed) => ⟨[], .error (.failed (.overLimit claimed))⟩
  | .ok .declined =>
    match frames with
    | [] => ⟨[], .error (.failed .connectionLost)⟩
    | .done :: _ => ⟨[], .ok ⟨[], []⟩⟩
    | frame :: _ => ⟨[], .error (.failed (.unexpected frame.kind))⟩
  | .ok (.accepted streams) =>
    match assemble host streams ∅ frames with
    | .error halt => ⟨[], .error halt⟩
    | .ok buffers =>
      let (written, paths) := writeStreams host io dest streams buffers.toList
      ⟨written, paths.map fun files => ⟨files, inlineTexts offer.items⟩⟩

end Roam.Share
