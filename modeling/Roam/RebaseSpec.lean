import Roam.Rebase

namespace Roam.Rebase
set_option autoImplicit true
open Library

section Items

theorem texts_of_map (value : List Char) (tag : ChangeTag) :
    oldText (Change.items ⟨tag, value⟩) = (if tag = .insert then [] else value) ∧
      newText (Change.items ⟨tag, value⟩) = if tag = .delete then [] else value := by
  induction value with
  | nil => cases tag <;> exact ⟨rfl, rfl⟩
  | cons c value ih =>
    cases tag with
    | equal => exact ⟨congrArg (c :: ·) ih.1, congrArg (c :: ·) ih.2⟩
    | delete => exact ⟨congrArg (c :: ·) ih.1, ih.2⟩
    | insert => exact ⟨ih.1, congrArg (c :: ·) ih.2⟩

theorem texts_of_items (changes : List Change) :
    oldText (items changes) = (changes.filter fun c => c.tag ≠ .insert).flatMap Change.value ∧
      newText (items changes) = (changes.filter fun c => c.tag ≠ .delete).flatMap Change.value := by
  induction changes with
  | nil => exact ⟨rfl, rfl⟩
  | cons change changes ih =>
    obtain ⟨tag, value⟩ := change
    obtain ⟨hold, hnew⟩ := texts_of_map value tag
    rw [items, List.flatMap_cons, ← items, oldText_append, newText_append, ih.1, ih.2, hold, hnew,
      List.filter_cons, List.filter_cons]
    cases tag <;> exact ⟨rfl, rfl⟩

theorem IsScript.oldText (h : IsScript a b changes) : oldText (items changes) = a :=
  (texts_of_items changes).1.trans h.1

theorem IsScript.newText (h : IsScript a b changes) : newText (items changes) = b :=
  (texts_of_items changes).2.trans h.2

end Items

section Mapping

def Mapping.step (m : Mapping) : Edit Char → Option Mapping
  | .keep _ => m.keepChar
  | .delete _ => m.deleteChar
  | .insert _ => some { m with rIdx := m.rIdx + 1 }

theorem Mapping.change_eq (m : Mapping) (change : Change) :
    m.change change = change.items.foldlM Mapping.step m := by
  obtain ⟨tag, value⟩ := change
  induction value generalizing m with
  | nil => cases tag <;> rfl
  | cons c value ih =>
    cases tag with
    | equal =>
      simp only [Mapping.change, Change.items, List.foldlM_cons, List.map_cons] at ih ⊢
      exact bind_congr fun m' => ih m'
    | delete =>
      simp only [Mapping.change, Change.items, List.foldlM_cons, List.map_cons] at ih ⊢
      exact bind_congr fun m' => ih m'
    | insert =>
      have hrest := ih { m with rIdx := m.rIdx + 1 }
      simp only [Mapping.change, List.length_cons, Nat.add_assoc, Nat.add_comm 1] at hrest ⊢
      exact hrest

theorem foldlM_items (m : Mapping) (changes : List Change) :
    changes.foldlM Mapping.change m = (items changes).foldlM Mapping.step m := by
  induction changes generalizing m with
  | nil => rfl
  | cons change changes ih =>
    rw [List.foldlM_cons, items, List.flatMap_cons, List.foldlM_append, ← items, Mapping.change_eq]
    exact bind_congr ih

structure Mapping.Covers (m m' : Mapping) (s : List (Edit Char)) : Prop where
  aIdx : m'.aIdx = m.aIdx + (oldText s).length
  rIdx : m'.rIdx = m.rIdx + (newText s).length
  aToR : ∀ i, m'.aToR[i]? = if m.aIdx ≤ i ∧ i < m'.aIdx then some (m.rIdx + place s (i - m.aIdx))
    else m.aToR[i]?
  present : ∀ i, m'.present[i]? = if m.aIdx ≤ i ∧ i < m'.aIdx then some (!deletes s (i - m.aIdx))
    else m.present[i]?

theorem setAt_eq {α : Type} {l : List α} (h : i < l.length) (v : α) :
    setAt l i v = some (l.set i v) := if_pos h

theorem Mapping.Covers.cons {e : Edit Char} {m m' : Mapping} {s : List (Edit Char)} (w : Nat)
    (hold : (oldText (e :: s)).length = (oldText s).length + 1)
    (hnew : (newText (e :: s)).length = (newText s).length + w) (hfirst : place (e :: s) 0 = 0)
    (hplace : ∀ i, place (e :: s) (i + 1) = place s i + w)
    (hdeletes : ∀ i, deletes (e :: s) (i + 1) = deletes s i)
    (hA : m.aIdx < m.aToR.length) (hP : m.aIdx < m.present.length)
    (h : Mapping.Covers ⟨m.aToR.set m.aIdx m.rIdx, m.present.set m.aIdx !deletes (e :: s) 0,
      m.aIdx + 1, m.rIdx + w⟩ m' s) : m.Covers m' (e :: s) := by
  obtain ⟨haIdx, hrIdx, haToR, hpresent⟩ := h
  dsimp only at haIdx hrIdx haToR hpresent
  refine ⟨by omega, by omega, ?_, ?_⟩
  · intro i
    rw [haToR]
    rcases Nat.lt_trichotomy i m.aIdx with hlt | rfl | hgt
    · rw [if_neg (by omega), if_neg (by omega), List.getElem?_set_ne (by omega)]
    · rw [if_neg (by omega), if_pos (by omega), List.getElem?_set_self hA, Nat.sub_self, hfirst,
        Nat.add_zero]
    · have hi : i - m.aIdx = i - (m.aIdx + 1) + 1 := by omega
      rw [hi, hplace, List.getElem?_set_ne (by omega)]
      apply ite_congr
      · rw [eq_iff_iff]
        omega
      · intro _
        congr 1
        omega
      · intro _
        rfl
  · intro i
    rw [hpresent]
    rcases Nat.lt_trichotomy i m.aIdx with hlt | rfl | hgt
    · rw [if_neg (by omega), if_neg (by omega), List.getElem?_set_ne (by omega)]
    · rw [if_neg (by omega), if_pos (by omega), List.getElem?_set_self hP, Nat.sub_self]
    · have hi : i - m.aIdx = i - (m.aIdx + 1) + 1 := by omega
      rw [hi, hdeletes, List.getElem?_set_ne (by omega)]
      apply ite_congr
      · rw [eq_iff_iff]
        omega
      · intro _
        rfl
      · intro _
        rfl

theorem Mapping.foldlM_step {s : List (Edit Char)} {m : Mapping}
    (hA : m.aIdx + (oldText s).length ≤ m.aToR.length)
    (hP : m.aIdx + (oldText s).length ≤ m.present.length) :
    ∃ m', s.foldlM Mapping.step m = some m' ∧ m.Covers m' s := by
  induction s generalizing m with
  | nil =>
    refine ⟨m, rfl, rfl, rfl, ?_, ?_⟩
    · intro i
      rw [if_neg (by omega)]
    · intro i
      rw [if_neg (by omega)]
  | cons e s ih =>
    cases e with
    | insert c =>
      obtain ⟨m', hm', hcovers⟩ := @ih { m with rIdx := m.rIdx + 1 } hA hP
      refine ⟨m', hm', hcovers.aIdx, ?_, ?_, hcovers.present⟩
      · rw [hcovers.rIdx, Library.newText, List.length_cons]
        dsimp only
        omega
      · intro i
        rw [hcovers.aToR]
        dsimp only
        rw [place, Nat.add_assoc, Nat.add_comm 1]
    | keep c =>
      rw [Library.oldText, List.length_cons] at hA hP
      have hA' : m.aIdx < m.aToR.length := by omega
      have hP' : m.aIdx < m.present.length := by omega
      obtain ⟨m', hm', hcovers⟩ :=
        @ih ⟨m.aToR.set m.aIdx m.rIdx, m.present.set m.aIdx true, m.aIdx + 1, m.rIdx + 1⟩
          (by rw [List.length_set]; dsimp only; omega) (by rw [List.length_set]; dsimp only; omega)
      refine ⟨m', ?_, .cons 1 rfl rfl rfl (fun _ => rfl) (fun _ => rfl) hA' hP' hcovers⟩
      rw [List.foldlM_cons, step, keepChar, setAt_eq hA', setAt_eq hP']
      exact hm'
    | delete c =>
      rw [Library.oldText, List.length_cons] at hA hP
      have hA' : m.aIdx < m.aToR.length := by omega
      have hP' : m.aIdx < m.present.length := by omega
      obtain ⟨m', hm', hcovers⟩ :=
        @ih ⟨m.aToR.set m.aIdx m.rIdx, m.present.set m.aIdx false, m.aIdx + 1, m.rIdx⟩
          (by rw [List.length_set]; dsimp only; omega) (by rw [List.length_set]; dsimp only; omega)
      refine ⟨m', ?_, .cons 0 rfl rfl rfl (fun _ => rfl) (fun _ => rfl) hA' hP' hcovers⟩
      rw [List.foldlM_cons, step, deleteChar, setAt_eq hA', setAt_eq hP']
      exact hm'

structure PositionMap.Of (map : PositionMap) (s : List (Edit Char)) : Prop where
  aToR : ∀ i ≤ (oldText s).length, map.aToR[i]? = some (place s i)
  present : ∀ i < (oldText s).length, map.present[i]? = some (!deletes s i)

theorem positionMap_of (changes : List Change) :
    ∃ map, positionMap changes (oldText (items changes)).length = some map ∧
      map.Of (items changes) := by
  obtain ⟨m, hm, hcovers⟩ := Mapping.foldlM_step (s := items changes)
    (m := ⟨List.replicate ((oldText (items changes)).length + 1) 0,
      List.replicate (oldText (items changes)).length false, 0, 0⟩)
    (by rw [List.length_replicate]; dsimp only; omega)
    (by rw [List.length_replicate]; dsimp only; omega)
  obtain ⟨haIdx, hrIdx, haToR, hpresent⟩ := hcovers
  dsimp only at haIdx hrIdx haToR hpresent
  rw [Nat.zero_add] at haIdx hrIdx
  have hlast : m.aIdx < m.aToR.length := by
    have hget := haToR m.aIdx
    rw [if_neg (by omega), haIdx, List.getElem?_replicate, if_pos (Nat.lt_succ_self _),
      ← haIdx] at hget
    exact (List.getElem?_eq_some_iff.1 hget).1
  refine ⟨⟨m.aToR.set m.aIdx m.rIdx, m.present⟩, ?_, ?_, ?_⟩
  · rw [positionMap, foldlM_items, hm]
    exact congrArg (Option.bind · _) (setAt_eq hlast m.rIdx)
  · intro i hi
    rcases Nat.lt_or_eq_of_le hi with hlt | heq
    · rw [List.getElem?_set_ne (by omega), haToR, if_pos (by omega), Nat.zero_add, Nat.sub_zero]
    · rw [heq, ← haIdx, List.getElem?_set_self hlast, haIdx, place_end (Nat.le_refl _), hrIdx]
  · intro i hi
    rw [hpresent, if_pos (by omega), Nat.sub_zero]

end Mapping

section Replay
variable {map : PositionMap} {st st' : Replay} {edits : List LocalEdit}

theorem insertAt_append (aPos : Nat) (s t : List Char) : insertAt map st aPos (s ++ t) =
      insertAt map st aPos s >>= fun st => insertAt map st aPos t := by
  simp only [insertAt, position]
  cases map.aToR[aPos]? with
  | none => rfl
  | some base =>
    dsimp only [Option.bind_eq_bind, Option.bind_some]
    by_cases hpos : 0 ≤ (base : Int) + st.shift
    · rw [if_pos hpos]
      dsimp only [Option.bind_some]
      by_cases hle : ((base : Int) + st.shift).toNat ≤ st.chars.length
      · have hpos' : 0 ≤ (base : Int) + (st.shift + s.length) := by omega
        have hlen : (st.chars.take ((base : Int) + st.shift).toNat ++ s).length =
            ((base : Int) + (st.shift + s.length)).toNat := by
          rw [List.length_append, List.length_take_of_le hle]
          omega
        rw [if_pos hle, if_pos hle]
        dsimp only [Option.bind_some]
        rw [if_pos hpos']
        dsimp only [Option.bind_some]
        rw [if_pos, List.take_left' hlen, List.drop_left' hlen]
        · simp only [List.append_assoc, List.length_append, Int.natCast_add, Int.add_assoc]
        · rw [List.length_append, hlen]
          exact Nat.le_add_right _ _
      · rw [if_neg hle, if_neg hle]
        rfl
    · rw [if_neg hpos]
      rfl

theorem removeRange_add (start count more : Nat) : removeRange map st start (count + more) =
      removeRange map st start count >>= fun st => removeRange map st (start + count) more := by
  rw [removeRange, ← List.range'_append_1, List.foldlM_append]
  rfl

def replayChange (map : PositionMap) (acc : Replay × Nat) (change : Change) :
    Option (Replay × Nat) :=
  match change.tag with
  | .equal => some (acc.1, acc.2 + change.value.length)
  | .delete =>
    (removeRange map acc.1 acc.2 change.value.length).map (·, acc.2 + change.value.length)
  | .insert => (insertAt map acc.1 acc.2 change.value).map (·, acc.2)

def LocalEdit.Ordered : LocalEdit → Prop
  | .delete start stop => start ≤ stop
  | .insert _ _ => True

theorem foldlM_pushDelete (h : ∀ e ∈ edits, e.Ordered) (aIdx count : Nat) :
    (pushDelete edits aIdx count).foldlM (applyEdit map) st =
      edits.foldlM (applyEdit map) st >>= fun st => removeRange map st aIdx count := by
  have hpush : (edits ++ [LocalEdit.delete aIdx (aIdx + count)]).foldlM (applyEdit map) st =
      edits.foldlM (applyEdit map) st >>= fun st => removeRange map st aIdx count := by
    rw [List.foldlM_append]
    simp only [List.foldlM_cons, List.foldlM_nil, applyEdit, Nat.add_sub_cancel_left, bind_pure]
  rw [pushDelete]
  split
  next start stop hlast =>
    split
    next heq =>
      -- the last range grows
      subst heq
      obtain ⟨init, rfl⟩ := List.getLast?_eq_some_iff.1 hlast
      have hle : start ≤ stop := h _ (List.mem_append_right _ (List.mem_singleton.2 rfl))
      have hcount : stop + count - start = stop - start + count := by omega
      have hstop : start + (stop - start) = stop := by omega
      rw [List.dropLast_concat, List.foldlM_append, List.foldlM_append, bind_assoc]
      apply bind_congr
      intro st'
      simp only [List.foldlM_cons, List.foldlM_nil, applyEdit, bind_pure, hcount, removeRange_add,
        hstop]
    next => exact hpush
  next => exact hpush

theorem foldlM_pushInsert (edits : List LocalEdit) (aIdx : Nat) (value : List Char) :
    (pushInsert edits aIdx value).foldlM (applyEdit map) st =
      edits.foldlM (applyEdit map) st >>= fun st => insertAt map st aIdx value := by
  have hpush : (edits ++ [LocalEdit.insert aIdx value]).foldlM (applyEdit map) st =
      edits.foldlM (applyEdit map) st >>= fun st => insertAt map st aIdx value := by
    rw [List.foldlM_append]
    simp only [List.foldlM_cons, List.foldlM_nil, applyEdit, bind_pure]
  rw [pushInsert]
  split
  next aPos s hlast =>
    split
    next heq =>
      -- the last text grows
      subst heq
      obtain ⟨init, rfl⟩ := List.getLast?_eq_some_iff.1 hlast
      rw [List.dropLast_concat, List.foldlM_append, List.foldlM_append, bind_assoc]
      apply bind_congr
      intro st'
      simp only [List.foldlM_cons, List.foldlM_nil, applyEdit, bind_pure, insertAt_append]
    next => exact hpush
  next => exact hpush

theorem ordered_concat {last : LocalEdit} (h : ∀ e ∈ edits, e.Ordered)
    (hlast : last.Ordered) : ∀ e ∈ edits ++ [last], e.Ordered := by
  rw [List.forall_mem_append, List.forall_mem_singleton]
  exact ⟨h, hlast⟩

theorem pushDelete_ordered (h : ∀ e ∈ edits, e.Ordered) (aIdx count : Nat) :
    ∀ e ∈ pushDelete edits aIdx count, e.Ordered := by
  have hnew : (LocalEdit.delete aIdx (aIdx + count)).Ordered := Nat.le_add_right aIdx count
  rw [pushDelete]
  split
  next start stop hlast =>
    split
    next heq =>
      have hle : start ≤ stop := h _ (List.mem_of_getLast? hlast)
      apply ordered_concat fun e he => h e ((List.dropLast_sublist edits).subset he)
      exact hle.trans (heq.trans_le (Nat.le_add_right _ _))
    next => exact ordered_concat h hnew
  next => exact ordered_concat h hnew

theorem pushInsert_ordered (h : ∀ e ∈ edits, e.Ordered) (aIdx : Nat)
    (value : List Char) : ∀ e ∈ pushInsert edits aIdx value, e.Ordered := by
  rw [pushInsert]
  split
  next =>
    split
    next => exact ordered_concat (fun e he => h e ((List.dropLast_sublist edits).subset he)) trivial
    next => exact ordered_concat h trivial
  next => exact ordered_concat h trivial

theorem foldlM_pushChange {changes : List Change} (h : ∀ e ∈ edits, e.Ordered) (aIdx : Nat) :
    (changes.foldl pushChange (edits, aIdx)).1.foldlM (applyEdit map) st =
      edits.foldlM (applyEdit map) st >>= fun st =>
        (changes.foldlM (replayChange map) (st, aIdx)).map Prod.fst := by
  induction changes generalizing edits aIdx with
  | nil => exact (bind_pure _).symm
  | cons change changes ih =>
    obtain ⟨tag, value⟩ := change
    cases tag with
    | equal =>
      rw [List.foldl_cons, pushChange]
      exact ih h _
    | delete =>
      rw [List.foldl_cons, pushChange]
      dsimp only
      rw [ih (pushDelete_ordered h _ _), foldlM_pushDelete h, bind_assoc]
      apply bind_congr
      intro st'
      rw [List.foldlM_cons, replayChange]
      cases removeRange map st' aIdx value.length with
      | none => rfl
      | some st'' => rfl
    | insert =>
      rw [List.foldl_cons, pushChange]
      dsimp only
      rw [ih (pushInsert_ordered h _ _), foldlM_pushInsert, bind_assoc]
      apply bind_congr
      intro st'
      rw [List.foldlM_cons, replayChange]
      cases insertAt map st' aIdx value with
      | none => rfl
      | some st'' => rfl

end Replay

section Merge
variable {map : PositionMap} {st : Replay} {theirs : List (Edit Char)}

/-- The replay has reached a boundary of the ancestor: the finished text lies before it, and what
follows it is the remote text from there on. -/
structure Replay.At (theirs : List (Edit Char)) (st : Replay) (p : Nat) (done : List Char) :
    Prop where
  chars : st.chars = done ++ (newText theirs).drop (place theirs p)
  shift : (done.length : Int) = place theirs p + st.shift

theorem Replay.At.position (h : st.At theirs p done) (hmap : map.Of theirs)
    (hp : p ≤ (oldText theirs).length) : Rebase.position map st p = some done.length := by
  have hshift := h.shift
  rw [Rebase.position, hmap.aToR p hp]
  dsimp only [Option.bind_eq_bind, Option.bind_some]
  rw [if_pos (by omega), ← hshift, Int.toNat_natCast]

theorem Replay.At.insert (h : st.At theirs p done) (hmap : map.Of theirs)
    (hp : p ≤ (oldText theirs).length) (s : List Char) :
    ∃ st', insertAt map st p s = some st' ∧ st'.At theirs p (done ++ s) := by
  have hle : done.length ≤ st.chars.length := by
    rw [h.chars, List.length_append]
    exact Nat.le_add_right _ _
  refine ⟨⟨st.chars.take done.length ++ s ++ st.chars.drop done.length, st.shift + s.length⟩,
    ?_, ?_, ?_⟩
  · rw [insertAt, h.position hmap hp]
    exact if_pos hle
  · rw [h.chars, List.take_left, List.drop_left]
  · have hshift := h.shift
    rw [List.length_append]
    dsimp only
    omega

theorem Replay.At.keep (h : st.At theirs p done) (hp : p < (oldText theirs).length) :
    st.At theirs (p + 1) (done ++ (kept theirs p ++ inserted theirs (p + 1))) where
  chars := by
    rw [h.chars, newText_drop_place hp]
    simp only [List.append_assoc]
  shift := by
    have hshift := h.shift
    rw [place_succ hp, List.length_append, List.length_append]
    omega

theorem Replay.At.delete (h : st.At theirs p done) (hmap : map.Of theirs)
    (hp : p < (oldText theirs).length) : ∃ st', removeAt map st p = some st' ∧
      st'.At theirs (p + 1) (done ++ inserted theirs (p + 1)) := by
  have hkeep := h.keep hp
  rw [removeAt, hmap.present p hp]
  dsimp only [Option.bind_eq_bind, Option.bind_some]
  cases hdel : deletes theirs p with
  | true =>
    refine ⟨st, rfl, ?_⟩
    rwa [kept, hdel, cond_true, List.nil_append] at hkeep
  | false =>
    rw [kept, hdel, cond_false, List.getElem?_eq_getElem hp, Option.toList_some,
      List.singleton_append] at hkeep
    have hlt : done.length < st.chars.length := by
      rw [hkeep.chars]
      simp only [List.length_append, List.length_cons]
      omega
    refine ⟨⟨st.chars.eraseIdx done.length, st.shift - 1⟩, ?_, ?_, ?_⟩
    · rw [h.position hmap hp.le]
      exact if_pos hlt
    · rw [hkeep.chars, List.append_assoc, List.eraseIdx_append_of_length_le (Nat.le_refl _),
        Nat.sub_self, List.cons_append, List.eraseIdx_cons_zero, List.append_assoc]
    · have hshift := hkeep.shift
      rw [List.length_append, List.length_cons] at hshift
      rw [List.length_append]
      dsimp only
      omega

theorem kept_eq (h : (oldText theirs).drop p = c :: rest) :
    p < (oldText theirs).length ∧ kept theirs p = (bif deletes theirs p then [] else [c]) ∧
      (oldText theirs).drop (p + 1) = rest := by
  have hlt : p < (oldText theirs).length := by
    rw [← not_le, ← List.drop_eq_nil_iff, h]
    exact List.cons_ne_nil c rest
  rw [List.drop_eq_getElem_cons hlt, List.cons.injEq] at h
  rw [kept, List.getElem?_eq_getElem hlt, h.1]
  exact ⟨hlt, rfl, h.2⟩

/-- What a part of a script does: the replay goes on behind it, with the text of the part done. -/
def Weaves (theirs : List (Edit Char)) (p : Nat) (done : List Char) (part : List (Edit Char))
    (st' : Replay) (p' : Nat) : Prop :=
  ∃ done', st'.At theirs p' done' ∧
    ∀ s, done ++ weave theirs (part ++ s) p = done' ++ weave theirs s p'

theorem Replay.At.keeps (h : st.At theirs p done) (hold : (oldText theirs).drop p = value ++ rest) :
    Weaves theirs p done (value.map .keep) st (p + value.length) := by
  induction value generalizing p done with
  | nil => exact ⟨done, h, fun _ => rfl⟩
  | cons c value ih =>
    obtain ⟨hlt, hkept, hrest⟩ := kept_eq hold
    obtain ⟨done', hat, hweave⟩ := ih (h.keep hlt) hrest
    rw [List.length_cons, Nat.add_comm value.length, ← Nat.add_assoc]
    refine ⟨done', hat, ?_⟩
    intro s
    rw [← hweave, List.map_cons, List.cons_append, weave, hkept]
    simp only [List.append_assoc]

theorem Replay.At.removeRange (h : st.At theirs p done) (hmap : map.Of theirs)
    (hold : (oldText theirs).drop p = value ++ rest) :
    ∃ st', Rebase.removeRange map st p value.length = some st' ∧
      Weaves theirs p done (value.map .delete) st' (p + value.length) := by
  induction value generalizing p done st with
  | nil => exact ⟨st, rfl, done, h, fun _ => rfl⟩
  | cons c value ih =>
    obtain ⟨hlt, _, hrest⟩ := kept_eq hold
    obtain ⟨st₁, hst₁, hat₁⟩ := h.delete hmap hlt
    obtain ⟨st', hst', done', hat, hweave⟩ := ih hat₁ hrest
    rw [List.length_cons, Nat.add_comm value.length, ← Nat.add_assoc]
    refine ⟨st', ?_, done', hat, ?_⟩
    · rw [Rebase.removeRange, Nat.add_comm 1, List.range'_succ, List.foldlM_cons, hst₁]
      exact hst'
    · intro s
      rw [← hweave, List.map_cons, List.cons_append, weave, List.append_assoc]

theorem weave_inserts (value : List Char) (s : List (Edit Char)) (p : Nat) :
    weave theirs (value.map .insert ++ s) p = value ++ weave theirs s p := by
  induction value with
  | nil => rfl
  | cons c value ih => rw [List.map_cons, List.cons_append, weave, ih, List.cons_append]

theorem Replay.At.change (h : st.At theirs p done) (hmap : map.Of theirs) (change : Change)
    (hp : p ≤ (oldText theirs).length)
    (hold : (oldText theirs).drop p = oldText change.items ++ rest) :
    ∃ st', replayChange map (st, p) change = some (st', p + (oldText change.items).length) ∧
      Weaves theirs p done change.items st' (p + (oldText change.items).length) := by
  obtain ⟨tag, value⟩ := change
  rw [(texts_of_map value tag).1] at hold ⊢
  cases tag with
  | equal => exact ⟨st, rfl, h.keeps hold⟩
  | delete =>
    simp only [reduceCtorEq, ↓reduceIte] at hold ⊢
    obtain ⟨st', hst', hweaves⟩ := h.removeRange hmap hold
    refine ⟨st', ?_, hweaves⟩
    rw [replayChange, hst']
    rfl
  | insert =>
    obtain ⟨st', hst', hat⟩ := h.insert hmap hp value
    refine ⟨st', ?_, done ++ value, hat, ?_⟩
    · rw [replayChange, hst']
      rfl
    · intro s
      rw [Change.items, weave_inserts, List.append_assoc]
      rfl

theorem Replay.At.changes (h : st.At theirs p done) (hmap : map.Of theirs) (changes : List Change)
    (hp : p ≤ (oldText theirs).length) (hold : (oldText theirs).drop p = oldText (items changes)) :
    ∃ st', changes.foldlM (replayChange map) (st, p) = some (st', (oldText theirs).length) ∧
      st'.At theirs (oldText theirs).length (done ++ weave theirs (items changes) p) := by
  induction changes generalizing st p done with
  | nil =>
    have hend : p = (oldText theirs).length := hp.antisymm (List.drop_eq_nil_iff.1 hold)
    subst hend
    refine ⟨st, rfl, ?_⟩
    rwa [items, List.flatMap_nil, weave, List.append_nil]
  | cons change changes ih =>
    rw [items, List.flatMap_cons, ← items, oldText_append] at hold
    obtain ⟨st₁, hst₁, done₁, hat₁, hweave⟩ := h.change hmap change hp hold
    have hlen := congrArg List.length hold
    rw [List.length_drop, List.length_append] at hlen
    have hrest : (oldText theirs).drop (p + (oldText change.items).length) =
        oldText (items changes) := by
      rw [← List.drop_drop, hold, List.drop_left]
    obtain ⟨st', hst', hat⟩ := ih hat₁ (by omega) hrest
    refine ⟨st', ?_, ?_⟩
    · rw [List.foldlM_cons, hst₁]
      exact hst'
    · rw [items, List.flatMap_cons, ← items, hweave]
      exact hat

theorem Replay.At.start (theirs : List (Edit Char)) :
    Replay.At theirs ⟨newText theirs, 0⟩ 0 (inserted theirs 0) where
  chars := newText_take_place_zero theirs
  shift := by
    rw [place_zero]
    exact (Int.add_zero _).symm

theorem mergeLocalOntoRemote_eq {diff : TextDiff} (hl : IsScript a l (diff a l))
    (hr : IsScript a r (diff a r)) : mergeLocalOntoRemote diff a l r =
      some (interleave a (items (diff a l)) (items (diff a r)),
        detectConflicts a (localEdits (diff a l)) (localEdits (diff a r))) := by
  obtain ⟨map, hpos, hmap⟩ := positionMap_of (diff a r)
  rw [hr.oldText] at hpos
  have hstart := Replay.At.start (items (diff a r))
  rw [hr.newText] at hstart
  have hold : (oldText (items (diff a r))).drop 0 = oldText (items (diff a l)) := by
    rw [hl.oldText, hr.oldText, List.drop_zero]
  obtain ⟨st, hst, hat⟩ := hstart.changes hmap (diff a l) (Nat.zero_le _) hold
  have hreplay : (localEdits (diff a l)).foldlM (applyEdit map) ⟨r, 0⟩ = some st := by
    rw [localEdits, foldlM_pushChange (List.forall_mem_nil _), List.foldlM_nil, pure_bind, hst]
    rfl
  have hchars : st.chars = interleave a (items (diff a l)) (items (diff a r)) := by
    have hweave := interleave_eq_weave (items (diff a l)) (items (diff a r))
    rw [hl.oldText] at hweave
    rw [hat.chars, hweave, place_end (Nat.le_refl _), List.drop_length, List.append_nil]
  rw [mergeLocalOntoRemote, hpos]
  dsimp only [Option.bind_eq_bind, Option.bind_some]
  rw [hreplay, ← hchars]
  rfl

theorem items_of_equal (h : ∀ c ∈ changes, c.tag = .equal) :
    items changes = (oldText (items changes)).map .keep := by
  induction changes with
  | nil => rfl
  | cons change changes ih =>
    obtain ⟨tag, value⟩ := change
    obtain ⟨htag, hrest⟩ := List.forall_mem_cons.1 h
    cases htag
    rw [items, List.flatMap_cons, ← items, oldText_append, List.map_append, ← ih hrest,
      Change.items, oldText_keeps]

/-- The merge is the interleaving of the two scripts, and an unchanged side leaves the other one. -/
theorem merge_interleaves {diff : TextDiff} (hdiff : ∀ a b, IsScript a b (diff a b))
    (a l r : List Char) : (mergeLocalOntoRemote diff a l r).map Prod.fst =
      some (interleave a (items (diff a l)) (items (diff a r))) ∧
    ((∀ t, ∀ c ∈ diff t t, c.tag = .equal) →
      (mergeLocalOntoRemote diff a l a).map Prod.fst = some l ∧
      (mergeLocalOntoRemote diff a a r).map Prod.fst = some r) := by
  refine ⟨?_, ?_⟩
  · rw [mergeLocalOntoRemote_eq (hdiff a l) (hdiff a r)]
    rfl
  · intro hequal
    have hkeeps := items_of_equal (hequal a)
    rw [(hdiff a a).oldText] at hkeeps
    refine ⟨?_, ?_⟩
    · have hmine := interleave_keeps_right (items (diff a l)) a
      rw [(hdiff a l).oldText, (hdiff a l).newText] at hmine
      rw [mergeLocalOntoRemote_eq (hdiff a l) (hdiff a a), hkeeps, hmine]
      rfl
    · have htheirs := interleave_keeps_left (items (diff a r))
      rw [(hdiff a r).oldText, (hdiff a r).newText] at htheirs
      rw [mergeLocalOntoRemote_eq (hdiff a a) (hdiff a r), hkeeps, htheirs]
      rfl

end Merge

section Sample

def replaceDiff : TextDiff := fun a b =>
  if a = b then [⟨.equal, a⟩] else [⟨.delete, a⟩, ⟨.insert, b⟩]

theorem replaceDiff_isScript (a b : List Char) : IsScript a b (replaceDiff a b) := by
  rw [replaceDiff]
  split
  next h =>
    subst h
    exact ⟨List.append_nil a, List.append_nil a⟩
  next => exact ⟨List.append_nil a, List.append_nil b⟩

theorem replaceDiff_equal (t : List Char) : ∀ c ∈ replaceDiff t t, c.tag = .equal := by
  rw [replaceDiff, if_pos rfl]
  exact List.forall_mem_singleton.2 rfl

theorem merge_interleaves_replace :
    (mergeLocalOntoRemote replaceDiff ['a'] ['b'] ['c']).map Prod.fst = some ['c', 'b'] ∧
      (mergeLocalOntoRemote replaceDiff ['a'] ['b'] ['a']).map Prod.fst = some ['b'] := by
  obtain ⟨hmerge, hidle⟩ := merge_interleaves replaceDiff_isScript ['a'] ['b'] ['c']
  exact ⟨hmerge.trans (by decide), (hidle replaceDiff_equal).1⟩

end Sample

end Roam.Rebase
