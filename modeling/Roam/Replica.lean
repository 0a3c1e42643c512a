import Roam.TextOps
import Roam.Library.TreeFold

namespace Roam
set_option autoImplicit true
open Library

/-- A text that several replicas edit: its states join, an edit only adds to them, and it has on the
text the effect that its author saw. -/
class TextCrdt (T : Type) extends SemilatticeSup T, OrderBot T where
  text : T → List Char
  edit : T → UInt64 → TextOp → T
  text_bot : text ⊥ = []
  text_edit : ∀ t peer op u, op.apply (text t) = some u → text (edit t peer op) = u
  le_edit : ∀ t peer op, t ≤ edit t peer op

structure Write (V : Type) where
  lamport : Nat
  peer : UInt64
  value : V
deriving DecidableEq

def Write.Older (a b : Write V) : Prop :=
  a.lamport < b.lamport ∨ a.lamport = b.lamport ∧ a.peer < b.peer

instance (a b : Write V) : Decidable (a.Older b) := inferInstanceAs (Decidable (_ ∨ _))

def Write.newest (a b : Write V) : Write V := if a.Older b then b else a

theorem Write.newest_self (a : Write V) : newest a a = a := ite_self a

theorem Write.newest_eq (a b : Write V) : newest a b = a ∨ newest a b = b := by
  rw [newest]
  split
  next => exact .inr rfl
  next => exact .inl rfl

/-- The document of a device as the bridge sees it: the file-set map, a last-writer-wins register
for each key, and the text containers. -/
structure Replica (K V T : Type) [Ord K] where
  peer : UInt64
  clock : Nat
  entries : Std.TreeMap K (Write V)
  texts : Std.TreeMap K T

namespace Replica

section
variable {K V T : Type} [Ord K]

def getEntry (d : Replica K V T) (key : K) : Option V := d.entries[key]?.map Write.value

/-- A new operation is later than all that the device has seen. -/
def setEntry (d : Replica K V T) (key : K) (value : V) : Replica K V T :=
  { d with
    clock := d.clock + 1
    entries := d.entries.insert key ⟨d.clock + 1, d.peer, value⟩ }

variable [TextCrdt T]

def container (d : Replica K V T) (key : K) : T := d.texts.getD key ⊥

def text (d : Replica K V T) (key : K) : List Char := TextCrdt.text (d.container key)

def editText (d : Replica K V T) (key : K) (op : TextOp) : Replica K V T :=
  { d with
    clock := d.clock + 1
    texts := d.texts.insert key (TextCrdt.edit (d.container key) d.peer op) }

def merge (d other : Replica K V T) : Replica K V T :=
  { d with
    clock := max d.clock other.clock
    entries := joinMap Write.newest d.entries other.entries
    texts := joinMap (· ⊔ ·) d.texts other.texts }

theorem container_setEntry (d : Replica K V T) (j k : K) (v : V) :
    (d.setEntry j v).container k = d.container k := rfl

theorem text_setEntry (d : Replica K V T) (j k : K) (v : V) : (d.setEntry j v).text k = d.text k :=
  rfl

theorem getEntry_editText (d : Replica K V T) (j k : K) (op : TextOp) :
    (d.editText j op).getEntry k = d.getEntry k := rfl

end

section
variable {K V T : Type} [Ord K] [Std.TransOrd K] [Std.LawfulEqOrd K] [DecidableEq K]

theorem entries_setEntry (d : Replica K V T) (j k : K) (v : V) :
    (d.setEntry j v).entries[k]? = if j = k then some ⟨d.clock + 1, d.peer, v⟩
      else d.entries[k]? := by
  rw [setEntry, get_insert]

theorem getEntry_setEntry (d : Replica K V T) (j k : K) (v : V) :
    (d.setEntry j v).getEntry k = if j = k then some v else d.getEntry k := by
  rw [getEntry, entries_setEntry]
  split
  next => rfl
  next => rfl

variable [TextCrdt T]

theorem container_editText (d : Replica K V T) (j k : K) (op : TextOp) :
    (d.editText j op).container k =
      if j = k then TextCrdt.edit (d.container j) d.peer op else d.container k := by
  simp only [container, editText, Std.TreeMap.getD_insert, Std.LawfulEqOrd.compare_eq_iff_eq]

theorem text_editText {d : Replica K V T} {op : TextOp} (h : op.apply (d.text k) = some u) :
    (d.editText k op).text k = u := by
  rw [text, container_editText, if_pos rfl]
  exact TextCrdt.text_edit _ _ _ _ h

end

end Replica

end Roam
