import Roam.Base
import Roam.Library.ByteFile
import Roam.Library.Text

namespace Roam
set_option autoImplicit true
open Library

section Path

def dotName : Bytes := [46]

/-- `Path::components`: paths are equal as keys if they have the same components. -/
def components (path : Bytes) : List Bytes :=
  let parts := path.splitOn 47
  let normal := parts.filter fun part => part ≠ [] ∧ part ≠ dotName
  if path.head? = some 47 then [47] :: normal
  else if parts.head? = some dotName then dotName :: normal
  else normal

end Path

inductive FsError
  | notFound (path : Bytes)
  | exhausted
  | notUtf8 (path : Bytes)
  | nameTooLong (name : Bytes)
  | claimedTwice (name : Bytes)
deriving DecidableEq

inductive FsReply
  | done
  | bytes (bytes : Bytes)
  | len (len : Nat)
deriving DecidableEq

/-- Offsets and lengths fit the address space: no sum of two of them wraps. -/
inductive FsCall
  | read (path : Bytes)
  | readRange (path : Bytes) (offset len : Nat)
  | write (path bytes : Bytes)
  | append (path bytes : Bytes)
  | appendSync (path bytes : Bytes)
  | createSized (path : Bytes) (len : Nat)
  | writeRange (path : Bytes) (offset : Nat) (bytes : Bytes)
  | rename (source target : Bytes)
  | removeFile (path : Bytes)
  | fileLen (path : Bytes)

structure MemFs where
  files : Std.TreeMap (List Bytes) Bytes
  ownerOnly : Std.TreeSet (List Bytes)

namespace MemFs

def file (fs : MemFs) (path : Bytes) : Except FsError Bytes :=
  match fs.files[components path]? with
  | some bytes => .ok bytes
  | none => .error (.notFound path)

def put (fs : MemFs) (path bytes : Bytes) : MemFs :=
  { fs with files := fs.files.insert (components path) bytes }

def readRange (bytes : Bytes) (offset len : Nat) : Bytes :=
  let start := min offset bytes.length
  let stop := min (start + len) bytes.length
  (bytes.drop start).take (stop - start)

def append (fs : MemFs) (path bytes : Bytes) : MemFs :=
  fs.put path (fs.files[components path]?.getD [] ++ bytes)

def rename (fs : MemFs) (source target : Bytes) : Except FsError Unit × MemFs :=
  match fs.files[components source]? with
  | none => (.error (.notFound source), fs)
  | some bytes =>
    let ownerOnly :=
      if fs.ownerOnly.contains (components source) then
        (fs.ownerOnly.erase (components source)).insert (components target)
      else fs.ownerOnly
    (.ok (), ⟨(fs.files.erase (components source)).insert (components target) bytes, ownerOnly⟩)

def call (fs : MemFs) : FsCall → Except FsError FsReply × MemFs
  | .read path => ((fs.file path).map .bytes, fs)
  | .readRange path offset len => ((fs.file path).map fun b => .bytes (readRange b offset len), fs)
  | .write path bytes => (.ok .done, fs.put path bytes)
  | .append path bytes | .appendSync path bytes => (.ok .done, fs.append path bytes)
  | .createSized path len => (.ok .done, fs.put path (List.replicate len 0))
  | .writeRange path offset bytes =>
    match fs.file path with
    | .ok b => (.ok .done, fs.put path (writeAt 0 b offset bytes))
    | .error err => (.error err, fs)
  | .rename source target =>
    let (result, fs) := fs.rename source target
    (result.map fun _ => .done, fs)
  | .removeFile path =>
    match fs.file path with
    | .ok _ => (.ok .done, { fs with files := fs.files.erase (components path) })
    | .error err => (.error err, fs)
  | .fileLen path => ((fs.file path).map fun b => .len b.length, fs)

end MemFs

def headerLen : Nat := 1024

def magic : Bytes := "ROAMSAH1".toList.map fun c => UInt8.ofNat c.toNat

def maxName : Nat := headerLen - 11

/-- What the header of a slot says. The slot is free if the name is empty. -/
structure Header where
  name : Bytes
  ownerOnly : Bool
deriving DecidableEq

namespace Header

def free : Header := ⟨[], false⟩

def encode (h : Header) : Bytes :=
  magic ++ [if h.ownerOnly then 1 else 0] ++
    [UInt8.ofNat (h.name.length % 256), UInt8.ofNat (h.name.length / 256)] ++ h.name ++
    List.replicate (maxName - h.name.length) 0

def decode (bytes : Bytes) : Option Header :=
  if bytes.length < 11 ∨ bytes.take 8 ≠ magic then none
  else
    let len := (bytes.getD 9 0).toNat + 256 * (bytes.getD 10 0).toNat
    if 11 + len ≤ bytes.length then
      let name := (bytes.drop 11).take len
      if validUtf8 name then some ⟨name, bytes.getD 8 0 &&& 1 ≠ 0⟩ else none
    else none

end Header

def readHeader (slot : Bytes) : Header := (Header.decode (readAt slot 0 headerLen)).getD .free

def writeHeader (slot : Bytes) (h : Header) : Except FsError Bytes :=
  if h.name.length > maxName then .error (.nameTooLong h.name) else .ok (writeAt 0 slot 0 h.encode)

/-- The pool: the slots, the index of the names and the stack of free slots. -/
structure SlotPool where
  slots : List Bytes
  names : Std.TreeMap (List Bytes) Nat
  free : List Nat

namespace SlotPool

def adoptSlots : List Bytes → Nat → Std.TreeMap (List Bytes) Nat → List Nat →
    Except FsError (Std.TreeMap (List Bytes) Nat × List Nat)
  | [], _, names, free => .ok (names, free)
  | slot :: slots, index, names, free =>
    match Header.decode (readAt slot 0 headerLen) with
    | some h =>
      if h.name = [] then adoptSlots slots (index + 1) names (free ++ [index])
      else if names.contains (components h.name) then .error (.claimedTwice h.name)
      else adoptSlots slots (index + 1) (names.insert (components h.name) index) free
    | none => adoptSlots slots (index + 1) names (free ++ [index])

def adopt (slots : List Bytes) : Except FsError SlotPool :=
  (adoptSlots slots 0 ∅ []).map fun (names, free) => { slots, names, free }

def slot (p : SlotPool) (index : Nat) : Bytes := p.slots.getD index []

def setSlot (p : SlotPool) (index : Nat) (bytes : Bytes) : SlotPool :=
  { p with slots := p.slots.set index bytes }

def indexOf (p : SlotPool) (path : Bytes) : Except FsError Nat :=
  match p.names[components path]? with
  | some index => .ok index
  | none => .error (.notFound path)

/-- A slot that is taken gets its header, and loses what its last tenant left. -/
def indexOrClaim (p : SlotPool) (path : Bytes) : Except FsError Nat × SlotPool :=
  match p.names[components path]? with
  | some index => (.ok index, p)
  | none =>
    if !validUtf8 path then (.error (.notUtf8 path), p)
    else
      match p.free.getLast? with
      | none => (.error .exhausted, p)
      | some index =>
        match writeHeader (p.slot index) ⟨path, false⟩ with
        | .error err => (.error err, { p with free := p.free.dropLast ++ [index] })
        | .ok slot =>
          (.ok index,
            { slots := p.slots.set index (resize 0 slot headerLen)
              names := p.names.insert (components path) index
              free := p.free.dropLast })

def lenOf (p : SlotPool) (index : Nat) : Nat := (p.slot index).length - headerLen

def update (p : SlotPool) (path : Bytes) (f : Bytes → Bytes) : Except FsError FsReply × SlotPool :=
  match p.indexOrClaim path with
  | (.ok index, p) => (.ok .done, p.setSlot index (f (p.slot index)))
  | (.error err, p) => (.error err, p)

def write (p : SlotPool) (path bytes : Bytes) : Except FsError FsReply × SlotPool :=
  p.update path fun slot => writeAt 0 (resize 0 slot headerLen) headerLen bytes

def append (p : SlotPool) (path bytes : Bytes) : Except FsError FsReply × SlotPool :=
  p.update path fun slot => writeAt 0 slot (max slot.length headerLen) bytes

def appendSync (p : SlotPool) (path bytes : Bytes) : Except FsError FsReply × SlotPool :=
  match p.append path bytes with
  | (.ok _, p) => ((p.indexOf path).map fun _ => .done, p)
  | (.error err, p) => (.error err, p)

def createSized (p : SlotPool) (path : Bytes) (len : Nat) : Except FsError FsReply × SlotPool :=
  p.update path fun slot => resize 0 (resize 0 slot headerLen) (headerLen + len)

def read (p : SlotPool) (path : Bytes) : Except FsError Bytes :=
  (p.indexOf path).map fun index => readAt (p.slot index) headerLen (p.lenOf index)

def readRange (p : SlotPool) (path : Bytes) (offset len : Nat) : Except FsError Bytes :=
  (p.indexOf path).map fun index =>
    let size := p.lenOf index
    let start := min offset size
    readAt (p.slot index) (headerLen + start) (min len (size - start))

def recycle (p : SlotPool) (key : List Bytes) (index : Nat) : SlotPool :=
  { slots := p.slots.set index (resize 0 (writeAt 0 (p.slot index) 0 Header.free.encode) headerLen)
    names := p.names.erase key
    free := p.free ++ [index] }

def displace (p : SlotPool) (target : Bytes) : SlotPool :=
  match p.names[components target]? with
  | some displaced => p.recycle (components target) displaced
  | none => p

def rename (p : SlotPool) (source target : Bytes) : Except FsError FsReply × SlotPool :=
  match p.indexOf source with
  | .error err => (.error err, p)
  | .ok index =>
    if !validUtf8 target then (.error (.notUtf8 target), p)
    else
      let p := p.displace target
      match writeHeader (p.slot index) { readHeader (p.slot index) with name := target } with
      | .error err => (.error err, p)
      | .ok slot =>
        (.ok .done,
          { p.setSlot index slot with
            names := (p.names.erase (components source)).insert (components target) index })

def removeFile (p : SlotPool) (path : Bytes) : Except FsError FsReply × SlotPool :=
  match p.indexOf path with
  | .error err => (.error err, p)
  | .ok index => (.ok .done, p.recycle (components path) index)

def writeRange (p : SlotPool) (path : Bytes) (offset : Nat) (bytes : Bytes) :
    Except FsError FsReply × SlotPool :=
  match p.indexOf path with
  | .error err => (.error err, p)
  | .ok index =>
    (.ok .done, p.setSlot index (writeAt 0 (p.slot index) (headerLen + offset) bytes))

def call (p : SlotPool) : FsCall → Except FsError FsReply × SlotPool
  | .read path => ((p.read path).map .bytes, p)
  | .readRange path offset len => ((p.readRange path offset len).map .bytes, p)
  | .write path bytes => p.write path bytes
  | .append path bytes => p.append path bytes
  | .appendSync path bytes => p.appendSync path bytes
  | .createSized path len => p.createSized path len
  | .writeRange path offset bytes => p.writeRange path offset bytes
  | .rename source target => p.rename source target
  | .removeFile path => p.removeFile path
  | .fileLen path => ((p.indexOf path).map fun index => .len (p.lenOf index), p)

end SlotPool

end Roam
