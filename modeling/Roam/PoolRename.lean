import Roam.SlotPool

namespace Roam
set_option autoImplicit true
open Library

inductive SlotOp
  | writeAt (index offset : Nat) (bytes : Bytes)
  | truncate (index len : Nat)

def SlotOp.apply (slots : List Bytes) : SlotOp → List Bytes
  | .writeAt index offset bytes =>
    slots.set index (Library.writeAt 0 (slots.getD index []) offset bytes)
  | .truncate index len => slots.set index (resize 0 (slots.getD index []) len)

namespace SlotPool
variable {p q : SlotPool} {key : List Bytes} {index : Nat} {source target : Bytes}

def headerOps (index : Nat) (h : Header) : List SlotOp :=
  if h.name.length > maxName then [] else [.writeAt index 0 h.encode]

def displaceOps (p : SlotPool) (target : Bytes) : List SlotOp :=
  match p.names[components target]? with
  | some displaced => headerOps displaced .free ++ [.truncate displaced headerLen]
  | none => []

def renameOps (p : SlotPool) (source target : Bytes) : List SlotOp :=
  match p.indexOf source with
  | .error _ => []
  | .ok index =>
    if !validUtf8 target then []
    else
      p.displaceOps target ++
        headerOps index { readHeader ((p.displace target).slot index) with name := target }

def stopped (p : SlotPool) (source target : Bytes) (k : Nat) : List Bytes :=
  runAll SlotOp.apply p.slots ((p.renameOps source target).take k)

theorem runAll_displaceOps (h : p.Indexed) (target : Bytes) :
    runAll SlotOp.apply p.slots (p.displaceOps target) = (p.displace target).slots := by
  rw [displaceOps, displace]
  cases hd : p.names[components target]? with
  | none => rfl
  | some d =>
    have hset (s : Bytes) : (p.slots.set d s).getD d [] = s := by
      rw [List.getD_eq_getElem?_getD, List.getElem?_set_self (h.index_lt hd), Option.getD_some]
    change (p.slots.set d _).set d (resize 0 ((p.slots.set d _).getD d []) headerLen) = _
    rw [hset, List.set_set]
    rfl

theorem runAll_renameOps (h : p.Indexed) (source target : Bytes) :
    runAll SlotOp.apply p.slots (p.renameOps source target) = (p.rename source target).2.slots := by
  rw [renameOps, rename]
  cases p.indexOf source with
  | error err => rfl
  | ok index =>
    dsimp only
    split
    next => rfl
    next =>
      rw [runAll_append, runAll_displaceOps h, headerOps, writeHeader]
      split
      next => rfl
      next => rfl

theorem Indexed.retitled (h : q.Indexed) (hi : q.names[key]? = some index)
    (hnone : q.names[components target]? = none) (hne : key ≠ components target)
    (hutf8 : validUtf8 target = true) (hle : target.length ≤ maxName) (owner : Bool) :
    ∃ p' : SlotPool, p'.Indexed ∧
      p'.slots = q.slots.set index (writeAt 0 (q.slot index) 0 (Header.encode ⟨target, owner⟩)) ∧
      p'.contents (components target) = if target = [] then none else q.contents key := by
  have hkey := slotKey_header (h := ⟨target, owner⟩) hutf8 hle (take_header hle (q.slot index))
  by_cases ht : target = []
  · obtain ⟨hindexed, hcontents⟩ := h.unnamed hi (hkey.trans (if_pos ht))
    refine ⟨_, hindexed, rfl, ?_⟩
    rw [hcontents, Function.update_of_ne hne.symm, contents, hnone, if_pos ht]
    rfl
  · obtain ⟨hindexed, hcontents⟩ := h.renamed hi hnone (hkey.trans (if_neg ht))
    refine ⟨_, hindexed, rfl, ?_⟩
    rw [hcontents, Function.update_self, data_header hle, if_neg ht, contents, hi]
    rfl

def Replaced (p p' : SlotPool) (source target : Bytes) : Prop :=
  p'.contents (components target) = p.contents (components target) ∨
    p'.contents (components target) = p.contents (components source)

/-- There was no file at the target, or nothing is done yet, or all of it and the header names the
target. -/
def Whole (p : SlotPool) (source target : Bytes) (k : Nat) : Prop :=
  p.contents (components target) = none ∨ (p.renameOps source target).take k = [] ∨
    3 ≤ k ∧ ValidPath target

/-- The slots can be adopted, and they show a whole target exactly at a whole stop. -/
def Stops (p : SlotPool) (source target : Bytes) (k : Nat) : Prop :=
  ∃ p', adopt (p.stopped source target k) = .ok p' ∧
    (Replaced p p' source target ↔ p.Whole source target k)

-- the slots say what any pool with these slots and a right index says
theorem Indexed.stops (hq : q.Indexed) (hslots : q.slots = p.stopped source target k)
    (hiff : Replaced p q source target ↔ p.Whole source target k) : p.Stops source target k := by
  obtain ⟨p', hok, hsame⟩ := hq.readopt
  rw [hslots] at hok
  refine ⟨p', hok, ?_⟩
  rwa [Replaced, hsame]

theorem Indexed.stops_gone (hq : q.Indexed) (hslots : q.slots = p.stopped source target k)
    (hsource : p.contents (components source) ≠ none)
    (hnil : (p.renameOps source target).take k ≠ []) (hnot : ¬ (3 ≤ k ∧ ValidPath target))
    (hnone : q.contents (components target) = none) : p.Stops source target k := by
  apply hq.stops hslots
  rw [Replaced, Whole, hnone, or_iff_left hsource.symm, or_iff_left (not_or.2 ⟨hnil, hnot⟩),
    eq_comm]

theorem renameOps_eq (hi : p.names[components source]? = some index)
    (hnil : (p.renameOps source target).take k ≠ []) :
    validUtf8 target = true ∧ ∃ owner, p.renameOps source target =
      p.displaceOps target ++ headerOps index ⟨target, owner⟩ := by
  rw [renameOps, indexOf, hi] at hnil ⊢
  dsimp only at hnil ⊢
  cases hutf8 : validUtf8 target with
  | false =>
    rw [hutf8] at hnil
    exact absurd List.take_nil hnil
  | true => exact ⟨rfl, (readHeader ((p.displace target).slot index)).ownerOnly, rfl⟩

theorem length_headerOps (index : Nat) (h : Header) : (headerOps index h).length ≤ 1 := by
  rw [headerOps]
  split
  next => exact Nat.zero_le 1
  next => exact Nat.le_refl 1

theorem Indexed.stops_done (h : p.Indexed) (hi : p.names[components source]? = some index)
    (hne : components source ≠ components target) (hnil : (p.renameOps source target).take k ≠ [])
    (hk : p.contents (components target) = none ∨ 3 ≤ k)
    (hall : (p.renameOps source target).length ≤ k) : p.Stops source target k := by
  obtain ⟨hutf8, owner, hops⟩ := renameOps_eq hi hnil
  obtain ⟨hq, hgone, hcontents, hnames⟩ := Refines.displaced h target
  have hsource : p.contents (components source) ≠ none := by
    rw [contents, hi]
    exact Option.some_ne_none _
  have hslots : p.stopped source target k =
      runAll SlotOp.apply (p.displace target).slots (headerOps index ⟨target, owner⟩) := by
    rw [stopped, List.take_of_length_le hall, hops, runAll_append, runAll_displaceOps h]
  by_cases hle : target.length ≤ maxName
  · obtain ⟨q, hindexed, hset, hnew⟩ :=
      hq.retitled ((hnames _ hne).trans hi) hgone hne hutf8 hle owner
    rw [hcontents, Function.update_of_ne hne] at hnew
    rw [headerOps, if_neg hle.not_gt] at hslots
    by_cases ht : target = []
    · exact hindexed.stops_gone (hset.trans hslots.symm) hsource hnil
        (fun hwhole => hwhole.2.nonempty ht) (hnew.trans (if_pos ht))
    · refine hindexed.stops (hset.trans hslots.symm)
        (iff_of_true (.inr (hnew.trans (if_neg ht))) ?_)
      exact hk.imp_right fun hk => .inr ⟨hk, ht, hutf8, hle⟩
  · rw [headerOps, if_pos (not_le.1 hle)] at hslots
    refine hq.stops_gone hslots.symm hsource hnil (fun hwhole => hle hwhole.2.length) ?_
    rw [hcontents, Function.update_self]

/-- Wherever a rename stops, the slots can be adopted. The target then has its old bytes or those of
the source if and only if it stops where the rename is whole. -/
theorem rename_atomic_iff (h : p.Indexed) (hsource : p.contents (components source) ≠ none)
    (hne : components source ≠ components target) (k : Nat) :
    ∃ p', adopt (p.stopped source target k) = .ok p' ∧
      (Replaced p p' source target ↔ p.Whole source target k) := by
  obtain ⟨bytes, hbytes⟩ := Option.ne_none_iff_exists'.1 hsource
  obtain ⟨index, hi, -⟩ := Option.map_eq_some_iff.1 hbytes
  by_cases hnil : (p.renameOps source target).take k = []
  · exact h.stops (congrArg (runAll SlotOp.apply p.slots) hnil).symm
      (iff_of_true (.inl rfl) (.inr (.inl hnil)))
  obtain ⟨-, owner, hops⟩ := renameOps_eq hi hnil
  have hheader := length_headerOps index ⟨target, owner⟩
  have hpos : k ≠ 0 := by
    rintro rfl
    exact hnil rfl
  cases hd : p.names[components target]? with
  | none =>
    apply h.stops_done hi hne hnil
    · rw [contents, hd]
      exact .inl rfl
    · rw [hops, displaceOps, hd]
      exact hheader.trans (Nat.pos_of_ne_zero hpos)
  | some d =>
    have hdisplace :
        p.displaceOps target = [.writeAt d 0 Header.free.encode, .truncate d headerLen] := by
      rw [displaceOps, hd]
      rfl
    rw [hdisplace] at hops
    obtain _ | _ | _ | k := k
    · exact absurd rfl hpos
    · -- the header of the displaced slot is cleared, and its bytes are still behind it
      have hkey :=
        slotKey_header rfl (Nat.zero_le _) (take_header (h := .free) (Nat.zero_le _) (p.slot d))
      obtain ⟨hindexed, hcleared⟩ := h.unnamed hd (hkey.trans (if_pos rfl))
      refine hindexed.stops_gone ?_ hsource hnil (fun hwhole => absurd hwhole.1 (by decide)) ?_
      · rw [stopped, hops]
        rfl
      · rw [hcleared, Function.update_self]
    · obtain ⟨hq, _, hcontents, _⟩ := Refines.displaced h target
      refine hq.stops_gone ?_ hsource hnil (fun hwhole => absurd hwhole.1 (by decide)) ?_
      · rw [← runAll_displaceOps h, hdisplace, stopped, hops]
        rfl
      · rw [hcontents, Function.update_self]
    · apply h.stops_done hi hne hnil (.inr (Nat.le_add_left 3 k))
      rw [hops, List.length_append]
      exact (Nat.add_le_add_left hheader 2).trans (Nat.le_add_left 3 k)

end SlotPool

def twoFiles : SlotPool :=
  runAll SlotPool.after ⟨[[], []], ∅, [0, 1]⟩ [.write [97] [1], .write [98] [2]]

/-- After the first operation of a rename onto a file there is no file at its path. -/
theorem rename_stopped_empty : twoFiles.contents (components [97]) = some [1] ∧
      twoFiles.contents (components [98]) = some [2] ∧
      (SlotPool.adopt (twoFiles.stopped [97] [98] 1)).toOption.map
        (fun p => p.contents (components [98])) = some none := by
  decide +kernel

theorem twoFiles_indexed : twoFiles.Indexed := by
  have hstart : Refines ⟨[[], []], ∅, [0, 1]⟩ ⟨∅, ∅⟩ :=
    ⟨@SlotPool.indexed_of_adopt _ [[], []] rfl, fun _ => rfl⟩
  have hfirst :=
    (Refines.call hstart (c := .write [97] [1]) (by decide +kernel) (by decide +kernel)).2
  exact (Refines.call hfirst (c := .write [98] [2]) (by decide +kernel)
    (by decide +kernel)).2.indexed

theorem rename_atomic_twoFiles :
    twoFiles.Indexed ∧ ∃ p', SlotPool.adopt (twoFiles.stopped [97] [98] 3) = .ok p' ∧
      (SlotPool.Replaced twoFiles p' [97] [98] ↔ twoFiles.Whole [97] [98] 3) :=
  ⟨twoFiles_indexed,
    SlotPool.rename_atomic_iff twoFiles_indexed (by decide +kernel) (by decide +kernel) 3⟩

end Roam
