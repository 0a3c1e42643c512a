import Roam.RebaseSpec

namespace Roam
set_option autoImplicit true
open Library Rebase

inductive TextOp
  | insert (pos : Nat) (s : List Char)
  | delete (pos len : Nat)
deriving DecidableEq

section DiffToOps

def diffMaxChars : Nat := 1000000

def coarseReplace (oldLen : Nat) (new : List Char) : List TextOp :=
  (if oldLen > 0 then [.delete 0 oldLen] else []) ++ (if new ≠ [] then [.insert 0 new] else [])

/-- The loop of `diff_to_ops`: the operations so far, the cursor in the text that they leave, and
the run of insertions or deletions that is not written yet. -/
structure OpsLoop where
  ops : List TextOp
  cursor : Nat
  pendingInsert : List Char
  insertPos : Nat
  deleteLen : Nat

def OpsLoop.start : OpsLoop := ⟨[], 0, [], 0, 0⟩

def OpsLoop.flushInsert (l : OpsLoop) : OpsLoop :=
  if l.pendingInsert ≠ [] then
    { l with ops := l.ops ++ [.insert l.insertPos l.pendingInsert], pendingInsert := [] }
  else l

def OpsLoop.flushDelete (l : OpsLoop) : OpsLoop :=
  if l.deleteLen > 0 then
    { l with ops := l.ops ++ [.delete l.cursor l.deleteLen], deleteLen := 0 }
  else l

def OpsLoop.keep (l : OpsLoop) (value : List Char) : OpsLoop :=
  { l with cursor := l.cursor + value.length }

def OpsLoop.remove (l : OpsLoop) (value : List Char) : OpsLoop :=
  { l with deleteLen := l.deleteLen + value.length }

def OpsLoop.add (l : OpsLoop) (value : List Char) : OpsLoop :=
  { l with
    insertPos := if l.pendingInsert = [] then l.cursor else l.insertPos
    pendingInsert := l.pendingInsert ++ value
    cursor := l.cursor + value.length }

def OpsLoop.change (l : OpsLoop) : Change → OpsLoop
  | ⟨.equal, value⟩ => l.flushInsert.flushDelete.keep value
  | ⟨.delete, value⟩ => l.flushInsert.remove value
  | ⟨.insert, value⟩ => l.flushDelete.add value

def diffToOpsBounded (diff : TextDiff) (old new : List Char) (maxChars : Nat) : List TextOp :=
  if old.length > maxChars ∨ new.length > maxChars then coarseReplace old.length new
  else ((diff old new).foldl OpsLoop.change .start).flushInsert.flushDelete.ops

def diffToOps (diff : TextDiff) (old new : List Char) : List TextOp :=
  diffToOpsBounded diff old new diffMaxChars

end DiffToOps

section Apply

def TextOp.apply (t : List Char) : TextOp → Option (List Char)
  | .insert pos s => if pos ≤ t.length then some (t.take pos ++ s ++ t.drop pos) else none
  | .delete pos len => if pos + len ≤ t.length then some (t.take pos ++ t.drop (pos + len))
      else none

def applyOps (t : List Char) (ops : List TextOp) : Option (List Char) := ops.foldlM TextOp.apply t

theorem applyOps_concat (t : List Char) (ops : List TextOp) (op : TextOp) :
    applyOps t (ops ++ [op]) = (applyOps t ops).bind fun t => op.apply t := by
  rw [applyOps, List.foldlM_append, applyOps]
  congr 1
  funext u
  exact bind_pure (TextOp.apply u op)

theorem TextOp.apply_insert (before after s : List Char) :
    TextOp.apply (before ++ after) (.insert before.length s) = some (before ++ s ++ after) := by
  rw [apply, if_pos (by rw [List.length_append]; omega), List.take_left, List.drop_left]

theorem TextOp.apply_delete (before gone after : List Char) :
    TextOp.apply (before ++ (gone ++ after)) (.delete before.length gone.length) =
      some (before ++ after) := by
  have hdrop : (before ++ (gone ++ after)).drop (before.length + gone.length) = after := by
    rw [← List.append_assoc, ← List.length_append, List.drop_left]
  rw [apply, if_pos (by rw [List.length_append, List.length_append]; omega), List.take_left, hdrop]

/-- The operations so far turn the old text into the new text of the changes seen, but for the run
that is pending, and the old text of the changes to come. -/
structure OpsLoop.Reaches (l : OpsLoop) (old seen rest : List Char) : Prop where
  cursor : l.cursor = seen.length
  text : ∃ before gone, seen = before ++ l.pendingInsert ∧ gone.length = l.deleteLen ∧
    (l.pendingInsert ≠ [] → gone = [] ∧ l.insertPos = before.length) ∧
    applyOps old l.ops = some (before ++ (gone ++ rest))

variable {l : OpsLoop} {old seen rest : List Char} {diff : TextDiff}

theorem OpsLoop.Reaches.start (old : List Char) : OpsLoop.start.Reaches old [] old where
  cursor := rfl
  text := ⟨[], [], rfl, rfl, fun h => absurd rfl h, rfl⟩

theorem OpsLoop.Reaches.flushInsert (h : l.Reaches old seen rest) :
    l.flushInsert.Reaches old seen rest ∧ l.flushInsert.pendingInsert = [] ∧
      (l.deleteLen = 0 → l.flushInsert.deleteLen = 0) := by
  rw [OpsLoop.flushInsert]
  split
  next hne =>
    obtain ⟨before, gone, hseen, hlen, hpend, htext⟩ := h.text
    obtain ⟨rfl, hpos⟩ := hpend hne
    refine ⟨⟨h.cursor, seen, [], (List.append_nil seen).symm, hlen, fun h => absurd rfl h, ?_⟩,
      rfl, id⟩
    rw [applyOps_concat, htext, Option.bind_some, hpos, List.nil_append, TextOp.apply_insert,
      ← hseen]
  next hne => exact ⟨h, not_not.1 hne, id⟩

theorem OpsLoop.Reaches.flushDelete (h : l.Reaches old seen rest) (hp : l.pendingInsert = []) :
    l.flushDelete.Reaches old seen rest ∧ l.flushDelete.pendingInsert = [] ∧
      l.flushDelete.deleteLen = 0 := by
  rw [OpsLoop.flushDelete]
  split
  next hpos =>
    obtain ⟨before, gone, hseen, hlen, _, htext⟩ := h.text
    rw [hp, List.append_nil] at hseen
    subst hseen
    refine ⟨⟨h.cursor, seen, [], ?_, rfl, fun hne => absurd hp hne, ?_⟩, hp, rfl⟩
    · rw [hp, List.append_nil]
    · rw [applyOps_concat, htext, Option.bind_some, h.cursor, ← hlen, TextOp.apply_delete]
      rfl
  next hpos => exact ⟨h, hp, Nat.eq_zero_of_not_pos hpos⟩

theorem OpsLoop.Reaches.flushDelete_pending (h : l.Reaches old seen rest)
    (hp : l.pendingInsert ≠ []) : l.flushDelete = l := by
  obtain ⟨before, gone, _, hlen, hpend, _⟩ := h.text
  obtain ⟨rfl, _⟩ := hpend hp
  rw [OpsLoop.flushDelete, if_neg]
  rw [← hlen]
  exact Nat.lt_irrefl 0

theorem OpsLoop.Reaches.settled (h : l.Reaches old seen rest) (hp : l.pendingInsert = [])
    (hd : l.deleteLen = 0) : applyOps old l.ops = some (seen ++ rest) := by
  obtain ⟨before, gone, hseen, hlen, _, htext⟩ := h.text
  rw [hp, List.append_nil] at hseen
  rw [hd] at hlen
  rw [htext, hseen, List.length_eq_zero_iff.1 hlen, List.nil_append]

theorem OpsLoop.Reaches.equal (h : l.Reaches old seen (value ++ rest)) :
    (l.change ⟨.equal, value⟩).Reaches old (seen ++ value) rest := by
  obtain ⟨hi, hp, _⟩ := h.flushInsert
  obtain ⟨hd, hp', hlen⟩ := hi.flushDelete hp
  refine ⟨?_, seen ++ value, [], ?_, hlen.symm, fun hne => absurd hp' hne, ?_⟩
  · rw [List.length_append, ← hd.cursor]
    rfl
  · exact (List.append_nil _).symm.trans (congrArg (seen ++ value ++ ·) hp'.symm)
  · rw [List.nil_append, List.append_assoc]
    exact hd.settled hp' hlen

theorem OpsLoop.Reaches.delete (h : l.Reaches old seen (value ++ rest)) :
    (l.change ⟨.delete, value⟩).Reaches old seen rest := by
  obtain ⟨hi, hp, _⟩ := h.flushInsert
  obtain ⟨before, gone, hseen, hlen, _, htext⟩ := hi.text
  refine ⟨hi.cursor, before, gone ++ value, hseen, ?_, fun hne => absurd hp hne, ?_⟩
  · rw [List.length_append, hlen]
    rfl
  · rw [List.append_assoc]
    exact htext

theorem OpsLoop.Reaches.add (h : l.Reaches old seen rest)
    (hd : l.pendingInsert = [] → l.deleteLen = 0) :
    (l.add value).Reaches old (seen ++ value) rest := by
  refine ⟨?_, ?_⟩
  · rw [List.length_append, ← h.cursor]
    rfl
  · obtain ⟨before, gone, hseen, hlen, hpend, htext⟩ := h.text
    have hgone : gone = [] ∧ (l.add value).insertPos = before.length := by
      by_cases hp : l.pendingInsert = []
      · rw [hd hp] at hlen
        rw [hp, List.append_nil] at hseen
        rw [OpsLoop.add, if_pos hp, h.cursor, hseen]
        exact ⟨List.length_eq_zero_iff.1 hlen, rfl⟩
      · rw [OpsLoop.add, if_neg hp]
        exact hpend hp
    refine ⟨before, gone, ?_, hlen, fun _ => hgone, htext⟩
    rw [hseen, List.append_assoc]
    rfl

theorem OpsLoop.Reaches.insert (h : l.Reaches old seen rest) :
    (l.change ⟨.insert, value⟩).Reaches old (seen ++ value) rest := by
  by_cases hp : l.pendingInsert = []
  · obtain ⟨hd, _, hlen⟩ := h.flushDelete hp
    exact hd.add fun _ => hlen
  · rw [OpsLoop.change, h.flushDelete_pending hp]
    exact h.add fun hnil => absurd hnil hp

theorem OpsLoop.Reaches.changes (changes : List Change)
    (h : l.Reaches old seen (oldText (items changes))) :
    (changes.foldl OpsLoop.change l).Reaches old (seen ++ newText (items changes)) [] := by
  induction changes generalizing l seen with
  | nil => rwa [items, List.flatMap_nil, newText, List.append_nil]
  | cons c changes ih =>
    obtain ⟨tag, value⟩ := c
    obtain ⟨hold, hnew⟩ := texts_of_map value tag
    rw [items, List.flatMap_cons, ← items, oldText_append, hold] at h
    rw [items, List.flatMap_cons, ← items, newText_append, ← List.append_assoc,
      List.foldl_cons, hnew]
    apply ih
    cases tag with
    | equal => exact h.equal
    | delete =>
      rw [if_pos rfl, List.append_nil]
      exact h.delete
    | insert => exact h.insert

theorem applyOps_coarseReplace (old new : List Char) :
    applyOps old (coarseReplace old.length new) = some new := by
  have hdelete :
      applyOps old (if old.length > 0 then [.delete 0 old.length] else []) = some [] := by
    split
    next =>
      have h := TextOp.apply_delete [] old []
      rw [List.append_nil, List.nil_append] at h
      exact (bind_pure _).trans h
    next h => rw [List.length_eq_zero_iff.1 (Nat.eq_zero_of_not_pos h)]; rfl
  rw [coarseReplace]
  by_cases hnew : new = []
  · rw [if_neg (not_not.2 hnew), List.append_nil, hdelete, hnew]
  · rw [if_pos hnew, applyOps_concat, hdelete, Option.bind_some]
    exact (TextOp.apply_insert [] [] new).trans (congrArg some (List.append_nil new))

/-- The operations are in range and turn the old text into the new one. -/
theorem applyOps_diffToOps (hdiff : IsScript old new (diff old new)) :
    applyOps old (diffToOps diff old new) = some new := by
  rw [diffToOps, diffToOpsBounded]
  split
  next => exact applyOps_coarseReplace old new
  next =>
    have hstart : OpsLoop.start.Reaches old [] (oldText (items (diff old new))) := by
      rw [hdiff.oldText]
      exact .start old
    have hend := OpsLoop.Reaches.changes _ hstart
    obtain ⟨hi, hp, _⟩ := hend.flushInsert
    obtain ⟨hd, hp', hlen⟩ := hi.flushDelete hp
    rw [hd.settled hp' hlen, List.append_nil, List.nil_append, hdiff.newText]

theorem eq_of_diffToOps_nil (hdiff : IsScript old new (diff old new))
    (h : diffToOps diff old new = []) : new = old := by
  have happly := applyOps_diffToOps hdiff
  rw [h] at happly
  exact (Option.some.inj happly).symm

theorem foldl_change_of_equal {changes : List Change} (h : ∀ c ∈ changes, c.tag = .equal)
    (hl : l.ops = [] ∧ l.pendingInsert = [] ∧ l.deleteLen = 0) :
    (changes.foldl OpsLoop.change l).ops = [] ∧
      (changes.foldl OpsLoop.change l).pendingInsert = [] ∧
      (changes.foldl OpsLoop.change l).deleteLen = 0 := by
  induction changes generalizing l with
  | nil => exact hl
  | cons c changes ih =>
    rw [List.forall_mem_cons] at h
    obtain ⟨tag, value⟩ := c
    obtain rfl : tag = .equal := h.1
    apply ih h.2
    have hi : l.flushInsert = l := by rw [OpsLoop.flushInsert, if_neg (not_not.2 hl.2.1)]
    have hd : l.flushDelete = l := by rw [OpsLoop.flushDelete, hl.2.2, if_neg (Nat.lt_irrefl 0)]
    rw [OpsLoop.change, hi, hd]
    exact hl

theorem diffToOps_self (hequal : ∀ c ∈ diff t t, c.tag = .equal)
    (ht : t.length ≤ diffMaxChars) : diffToOps diff t t = [] := by
  obtain ⟨hops, hp, hd⟩ := foldl_change_of_equal hequal (l := .start) ⟨rfl, rfl, rfl⟩
  have hfits : ¬ (t.length > diffMaxChars ∨ t.length > diffMaxChars) :=
    fun h => Nat.not_lt.2 ht (or_self_iff.1 h)
  rw [diffToOps, diffToOpsBounded, if_neg hfits, OpsLoop.flushInsert, if_neg (not_not.2 hp),
    OpsLoop.flushDelete, hd, if_neg (Nat.lt_irrefl 0), hops]

theorem diffToOps_long (diff : TextDiff) (ht : diffMaxChars < t.length) :
    diffToOps diff t t ≠ [] := by
  rw [diffToOps, diffToOpsBounded, if_pos (.inl ht), coarseReplace,
    if_pos (Nat.lt_of_le_of_lt (Nat.zero_le _) ht)]
  exact List.cons_ne_nil _ _

def TextOp.Empty : TextOp → Prop
  | .insert _ s => s = []
  | .delete _ len => len = 0

theorem flushInsert_nonempty (h : ∀ op ∈ l.ops, ¬ op.Empty) :
    ∀ op ∈ l.flushInsert.ops, ¬ op.Empty := by
  rw [OpsLoop.flushInsert]
  split
  next hne =>
    rw [List.forall_mem_append, List.forall_mem_singleton]
    exact ⟨h, hne⟩
  next => exact h

theorem flushDelete_nonempty (h : ∀ op ∈ l.ops, ¬ op.Empty) :
    ∀ op ∈ l.flushDelete.ops, ¬ op.Empty := by
  rw [OpsLoop.flushDelete]
  split
  next hpos =>
    rw [List.forall_mem_append, List.forall_mem_singleton]
    exact ⟨h, Nat.ne_of_gt hpos⟩
  next => exact h

theorem foldl_change_nonempty (changes : List Change) (h : ∀ op ∈ l.ops, ¬ op.Empty) :
    ∀ op ∈ (changes.foldl OpsLoop.change l).ops, ¬ op.Empty := by
  induction changes generalizing l with
  | nil => exact h
  | cons c changes ih =>
    obtain ⟨tag, value⟩ := c
    apply ih
    cases tag with
    | equal => exact flushDelete_nonempty (flushInsert_nonempty h)
    | delete => exact flushInsert_nonempty h
    | insert => exact flushDelete_nonempty h

theorem diffToOps_nonempty (diff : TextDiff) (old new : List Char) :
    ∀ op ∈ diffToOps diff old new, ¬ op.Empty := by
  rw [diffToOps, diffToOpsBounded]
  split
  next =>
    rw [coarseReplace, List.forall_mem_append]
    apply And.intro
    · split
      next hpos =>
        rw [List.forall_mem_singleton]
        exact Nat.ne_of_gt hpos
      next => exact List.forall_mem_nil _
    · split
      next hne =>
        rw [List.forall_mem_singleton]
        exact hne
      next => exact List.forall_mem_nil _
  next =>
    apply flushDelete_nonempty
    apply flushInsert_nonempty
    exact foldl_change_nonempty _ (List.forall_mem_nil _)

/-- The operations are in range, yield the new text and are none of them empty. There are none just
when the texts are the same, unless that one text is too long for the diff: then it is replaced by
itself. -/
theorem diffToOps_exact_iff {diff : TextDiff} {old new : List Char}
    (hdiff : IsScript old new (diff old new))
    (hequal : old = new → ∀ c ∈ diff old new, c.tag = .equal) :
    (applyOps old (diffToOps diff old new) = some new ∧
      (∀ op ∈ diffToOps diff old new, ¬ op.Empty) ∧ (diffToOps diff old new = [] ↔ old = new)) ↔
    (old = new → old.length ≤ diffMaxChars) := by
  constructor
  · rintro ⟨_, _, hnil⟩ rfl
    by_contra hlong
    exact diffToOps_long diff (Nat.lt_of_not_le hlong) (hnil.2 rfl)
  · intro hfits
    refine ⟨applyOps_diffToOps hdiff, diffToOps_nonempty diff old new, ?_, ?_⟩
    · intro hnil
      exact (eq_of_diffToOps_nil hdiff hnil).symm
    · rintro rfl
      exact diffToOps_self (hequal rfl) (hfits rfl)

theorem long_text_replaced : applyOps (List.replicate 1000001 'a')
        [.delete 0 1000001, .insert 0 (List.replicate 1000001 'a')] =
      some (List.replicate 1000001 'a') ∧
    diffToOps replaceDiff (List.replicate 1000001 'a') (List.replicate 1000001 'a') =
      [.delete 0 1000001, .insert 0 (List.replicate 1000001 'a')] := by
  have hlen : (List.replicate 1000001 'a').length = 1000001 := List.length_replicate
  have hne : List.replicate 1000001 'a' ≠ [] := List.ne_nil_of_length_eq_add_one hlen
  have hops : coarseReplace (List.replicate 1000001 'a').length (List.replicate 1000001 'a') =
      [.delete 0 1000001, .insert 0 (List.replicate 1000001 'a')] := by
    rw [coarseReplace, if_pos hne, hlen, if_pos (Nat.succ_pos 1000000)]
    rfl
  constructor
  · rw [← hops]
    exact applyOps_coarseReplace _ _
  · rw [diffToOps, diffToOpsBounded, if_pos, hops]
    rw [hlen, or_self]
    exact Nat.lt_succ_self 1000000

theorem diffToOps_exact_edit :
    (['a', 'b', 'c'] = ['a', 'x', 'c', 'd'] → ['a', 'b', 'c'].length ≤ diffMaxChars) ∧
    applyOps ['a', 'b', 'c'] (diffToOps replaceDiff ['a', 'b', 'c'] ['a', 'x', 'c', 'd']) =
      some ['a', 'x', 'c', 'd'] ∧
    (∀ op ∈ diffToOps replaceDiff ['a', 'b', 'c'] ['a', 'x', 'c', 'd'], ¬ op.Empty) ∧
    (diffToOps replaceDiff ['a', 'b', 'c'] ['a', 'x', 'c', 'd'] = [] ↔
      ['a', 'b', 'c'] = ['a', 'x', 'c', 'd']) :=
  ⟨fun h => absurd h (by decide),
    (diffToOps_exact_iff (replaceDiff_isScript _ _) (fun h => absurd h (by decide))).2
      fun h => absurd h (by decide)⟩

end Apply

end Roam
