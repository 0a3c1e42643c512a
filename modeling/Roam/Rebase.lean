import Roam.Library.EditScript

namespace Roam.Rebase
set_option autoImplicit true
open Library

-- Texts are lists of characters, and `none` stands for an index that is out of bounds.

inductive ChangeTag
  | equal
  | delete
  | insert
deriving DecidableEq

structure Change where
  tag : ChangeTag
  value : List Char
deriving DecidableEq

abbrev TextDiff := List Char → List Char → List Change

inductive LocalEdit
  | insert (aPos : Nat) (s : List Char)
  | delete (start stop : Nat)
deriving DecidableEq

structure Conflict where
  ancestorStart : Nat
  ancestorEnd : Nat
  ancestorText : List Char
deriving DecidableEq

section LocalEdits

def pushDelete (edits : List LocalEdit) (aIdx count : Nat) : List LocalEdit :=
  match edits.getLast? with
  | some (.delete start stop) =>
    if stop = aIdx then edits.dropLast ++ [.delete start (aIdx + count)]
    else edits ++ [.delete aIdx (aIdx + count)]
  | _ => edits ++ [.delete aIdx (aIdx + count)]

def pushInsert (edits : List LocalEdit) (aIdx : Nat) (value : List Char) : List LocalEdit :=
  match edits.getLast? with
  | some (.insert aPos s) =>
    if aPos = aIdx then edits.dropLast ++ [.insert aPos (s ++ value)]
    else edits ++ [.insert aIdx value]
  | _ => edits ++ [.insert aIdx value]

def pushChange (acc : List LocalEdit × Nat) (change : Change) : List LocalEdit × Nat :=
  match change.tag with
  | .equal => (acc.1, acc.2 + change.value.length)
  | .delete => (pushDelete acc.1 acc.2 change.value.length, acc.2 + change.value.length)
  | .insert => (pushInsert acc.1 acc.2 change.value, acc.2)

def localEdits (changes : List Change) : List LocalEdit := (changes.foldl pushChange ([], 0)).1

end LocalEdits

section PositionMap

def setAt {α : Type} (l : List α) (i : Nat) (v : α) : Option (List α) :=
  if i < l.length then some (l.set i v) else none

structure Mapping where
  aToR : List Nat
  present : List Bool
  aIdx : Nat
  rIdx : Nat

def Mapping.keepChar (m : Mapping) : Option Mapping := do
  let aToR ← setAt m.aToR m.aIdx m.rIdx
  let present ← setAt m.present m.aIdx true
  some ⟨aToR, present, m.aIdx + 1, m.rIdx + 1⟩

def Mapping.deleteChar (m : Mapping) : Option Mapping := do
  let aToR ← setAt m.aToR m.aIdx m.rIdx
  let present ← setAt m.present m.aIdx false
  some ⟨aToR, present, m.aIdx + 1, m.rIdx⟩

def Mapping.change (m : Mapping) (change : Change) : Option Mapping :=
  match change.tag with
  | .equal => change.value.foldlM (fun m _ => m.keepChar) m
  | .delete => change.value.foldlM (fun m _ => m.deleteChar) m
  | .insert => some { m with rIdx := m.rIdx + change.value.length }

/-- Where each boundary of the ancestor lies in the remote text, and which characters are still
there. -/
structure PositionMap where
  aToR : List Nat
  present : List Bool

def positionMap (changes : List Change) (aLen : Nat) : Option PositionMap := do
  let m ← changes.foldlM Mapping.change
    ⟨List.replicate (aLen + 1) 0, List.replicate aLen false, 0, 0⟩
  let aToR ← setAt m.aToR m.aIdx m.rIdx
  some ⟨aToR, m.present⟩

end PositionMap

section Replay

structure Replay where
  chars : List Char
  shift : Int

def position (map : PositionMap) (st : Replay) (aPos : Nat) : Option Nat := do
  let base ← map.aToR[aPos]?
  if 0 ≤ (base : Int) + st.shift then some ((base : Int) + st.shift).toNat else none

def insertAt (map : PositionMap) (st : Replay) (aPos : Nat) (s : List Char) : Option Replay := do
  let rPos ← position map st aPos
  if rPos ≤ st.chars.length then
    some ⟨st.chars.take rPos ++ s ++ st.chars.drop rPos, st.shift + s.length⟩
  else none

def removeAt (map : PositionMap) (st : Replay) (aIdx : Nat) : Option Replay := do
  if ← map.present[aIdx]? then
    let rPos ← position map st aIdx
    if rPos < st.chars.length then some ⟨st.chars.eraseIdx rPos, st.shift - 1⟩ else none
  else some st

def removeRange (map : PositionMap) (st : Replay) (start count : Nat) : Option Replay :=
  (List.range' start count).foldlM (removeAt map) st

def applyEdit (map : PositionMap) (st : Replay) : LocalEdit → Option Replay
  | .insert aPos s => insertAt map st aPos s
  | .delete start stop => removeRange map st start (stop - start)

end Replay

section Conflicts

def footprint : LocalEdit → Nat × Nat
  | .delete start stop => (start, stop)
  | .insert aPos _ => (aPos, aPos)

def charSlice (a : List Char) (start stop : Nat) : List Char := (a.drop start).take (stop - start)

/-- The overlap of two footprints, if it has a width. -/
def overlap (a : List Char) (mine theirs : Nat × Nat) : Option Conflict :=
  if mine.1 < theirs.2 ∧ theirs.1 < mine.2 then
    let start := max mine.1 theirs.1
    let stop := min mine.2 theirs.2
    some ⟨start, stop, charSlice a start stop⟩
  else none

def addConflict (conflicts : List Conflict) : Option Conflict → List Conflict
  | some conflict => if conflict ∈ conflicts then conflicts else conflicts ++ [conflict]
  | none => conflicts

def detectConflicts (a : List Char) (mine theirs : List LocalEdit) : List Conflict :=
  mine.foldl (fun conflicts edit =>
    if (footprint edit).1 = (footprint edit).2 then conflicts
    else theirs.foldl (fun conflicts other =>
      addConflict conflicts (overlap a (footprint edit) (footprint other))) conflicts) []

end Conflicts

def mergeLocalOntoRemote (diff : TextDiff) (a l r : List Char) :
    Option (List Char × List Conflict) := do
  let edits := localEdits (diff a l)
  let conflicts := detectConflicts a edits (localEdits (diff a r))
  let map ← positionMap (diff a r) a.length
  let st ← edits.foldlM (applyEdit map) ⟨r, 0⟩
  some (st.chars, conflicts)

def Change.items : Change → List (Edit Char)
  | ⟨.equal, value⟩ => value.map .keep
  | ⟨.delete, value⟩ => value.map .delete
  | ⟨.insert, value⟩ => value.map .insert

def items (changes : List Change) : List (Edit Char) := changes.flatMap Change.items

/-- The equal and the deleted text is the old one, the equal and the inserted text the new one. -/
def IsScript (a b : List Char) (changes : List Change) : Prop :=
  (changes.filter fun c => c.tag ≠ .insert).flatMap Change.value = a ∧
    (changes.filter fun c => c.tag ≠ .delete).flatMap Change.value = b

end Roam.Rebase
