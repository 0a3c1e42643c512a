import Roam.RebaseSpec
import Mathlib.Data.List.Pairwise

namespace Roam.Rebase
set_option autoImplicit true
open Library

section Spans
variable {s : List (Edit Char)} {spans : List (Nat × Nat)} {edits : List LocalEdit} {n k : Nat}

/-- A script deletes the characters on both sides of a boundary and inserts nothing between them. -/
def RunsOver (s : List (Edit Char)) (i : Nat) : Prop :=
  0 < i ∧ deletes s (i - 1) = true ∧ deletes s i = true ∧ inserted s i = []

/-- The footprints of a script: they follow each other, cover what is deleted, have a point where
something is inserted, and are as long as they can be. -/
structure Spans (s : List (Edit Char)) (spans : List (Nat × Nat)) : Prop where
  sorted : spans.Pairwise fun f g => f.2 ≤ g.1
  within : ∀ f ∈ spans, f.1 ≤ f.2 ∧ f.2 ≤ (oldText s).length
  deleted : ∀ i, deletes s i = true ↔ ∃ f ∈ spans, f.1 ≤ i ∧ i < f.2
  point : ∀ i, inserted s i ≠ [] ↔ (i, i) ∈ spans
  run : ∀ i, RunsOver s i → ∃ f ∈ spans, f.1 < i ∧ i < f.2
  last : ∀ n, (oldText s).length = n + 1 → deletes s n = true → inserted s (n + 1) = [] →
    ∃ init start, start ≤ n ∧ spans = init ++ [(start, n + 1)]

theorem Spans.concat (h : Spans s spans) (f : Nat × Nat) (hn : (oldText s).length ≤ f.1) :
    (spans ++ [f]).Pairwise fun f g => f.2 ≤ g.1 := by
  rw [List.pairwise_append]
  refine ⟨h.sorted, List.pairwise_singleton _ _, ?_⟩
  intro g hg f' hf'
  rw [List.mem_singleton.1 hf']
  exact (h.within g hg).2.trans hn

theorem Spans.equal (h : Spans s spans) (hv : value ≠ []) : Spans (s ++ value.map .keep) spans := by
  have hlen : (oldText (s ++ value.map .keep)).length = (oldText s).length + value.length := by
    rw [oldText_append, oldText_keeps, List.length_append]
  have hdel (i : Nat) : deletes (s ++ value.map .keep) i = deletes s i := by
    rw [deletes_append, deletes_keeps]
    split
    next => rfl
    next hle => exact (deletes_of_length_le (Nat.le_of_not_lt hle)).symm
  have hins (i : Nat) : inserted (s ++ value.map .keep) i = inserted s i := by
    rw [inserted_append, inserted_keeps, ite_self, List.append_nil]
  have hpos := List.length_pos_of_ne_nil hv
  refine ⟨h.sorted, ?_, ?_, ?_, ?_, ?_⟩
  · intro f hf
    have := h.within f hf
    omega
  · simpa only [hdel] using h.deleted
  · simpa only [hins] using h.point
  · simpa only [RunsOver, hdel, hins] using h.run
  · intro n hn hd
    rw [hdel, deletes_of_length_le (by omega)] at hd
    cases hd

theorem Spans.insert {spans' : List (Nat × Nat)} (h : Spans s spans) (hv : value ≠ [])
    (hpush : (oldText s).length = n ∧
      ((∃ init, spans = init ++ [(n, n)] ∧ spans' = spans) ∨ spans' = spans ++ [(n, n)])) :
    Spans (s ++ value.map .insert) spans' := by
  obtain ⟨hn, hpush⟩ := hpush
  have hlen : oldText (s ++ value.map .insert) = oldText s := by
    rw [oldText_append]
    exact (congrArg (oldText s ++ ·) (texts_of_map value .insert).1).trans (List.append_nil _)
  have hdel (i : Nat) : deletes (s ++ value.map .insert) i = deletes s i := by
    rw [deletes_append, deletes_inserts]
    split
    next => rfl
    next hle => exact (deletes_of_length_le (Nat.le_of_not_lt hle)).symm
  have hins (i : Nat) : inserted (s ++ value.map .insert) i ≠ [] ↔ inserted s i ≠ [] ∨ i = n := by
    rw [inserted_append, inserted_inserts, hn]
    by_cases hi : i = n
    · rw [hi, if_pos le_rfl, Nat.sub_self, if_pos rfl]
      exact iff_of_true (List.append_ne_nil_of_right_ne_nil _ hv) (.inr rfl)
    · have hnone : (if n ≤ i then if i - n = 0 then value else [] else []) = [] := by
        split
        next hle => exact if_neg (by omega)
        next => rfl
      rw [hnone, List.append_nil]
      exact (or_iff_left hi).symm
  obtain ⟨hsorted, hmem⟩ : spans'.Pairwise (fun f g => f.2 ≤ g.1) ∧
      ∀ f, f ∈ spans' ↔ f ∈ spans ∨ f = (n, n) := by
    rcases hpush with ⟨init, rfl, rfl⟩ | rfl
    · refine ⟨h.sorted, fun f => (or_iff_left_of_imp ?_).symm⟩
      rintro rfl
      exact List.mem_append_right _ (List.mem_singleton.2 rfl)
    · refine ⟨h.concat (n, n) hn.le, fun f => ?_⟩
      rw [List.mem_append, List.mem_singleton]
  refine ⟨hsorted, ?_, ?_, ?_, ?_, ?_⟩
  · intro f hf
    rw [hlen]
    rcases (hmem f).1 hf with hf | rfl
    · exact h.within f hf
    · exact ⟨le_rfl, hn.ge⟩
  · intro i
    rw [hdel, h.deleted]
    simp only [hmem, or_and_right, exists_or, exists_eq_left]
    exact (or_iff_left fun hi => absurd hi.2 hi.1.not_gt).symm
  · intro i
    rw [hins, h.point, hmem, Prod.mk.injEq, and_self]
  · rintro i ⟨hi, hbefore, hat, hnone⟩
    rw [hdel] at hbefore hat
    have hnone' : inserted s i = [] := not_not.1 fun hne => (hins i).2 (.inl hne) hnone
    obtain ⟨f, hf, hlt⟩ := h.run i ⟨hi, hbefore, hat, hnone'⟩
    exact ⟨f, (hmem f).2 (.inl hf), hlt⟩
  · intro m hm _ hnone
    rw [hlen] at hm
    exact absurd hnone ((hins (m + 1)).2 (.inr (hm.symm.trans hn)))

theorem Spans.delete {spans' : List (Nat × Nat)} (h : Spans s spans) (hv : value ≠ [])
    (hpush : (oldText s).length = n ∧ ((∃ init start, start < n ∧ spans = init ++ [(start, n)] ∧
        spans' = init ++ [(start, n + value.length)]) ∨
      (∀ init start, start < n → spans ≠ init ++ [(start, n)]) ∧
        spans' = spans ++ [(n, n + value.length)])) : Spans (s ++ value.map .delete) spans' := by
  obtain ⟨hn, hpush⟩ := hpush
  have hpos := List.length_pos_of_ne_nil hv
  have hlen : (oldText (s ++ value.map .delete)).length = n + value.length := by
    rw [oldText_append, List.length_append, hn]
    exact congrArg (n + ·.length) (texts_of_map value .delete).1
  have hdel (i : Nat) : deletes (s ++ value.map .delete) i = true ↔
      deletes s i = true ∨ n ≤ i ∧ i < n + value.length := by
    rw [deletes_append, deletes_run, hn]
    split
    next hlt => exact (or_iff_left fun hi => absurd hlt hi.1.not_gt).symm
    next hle =>
      rw [deletes_of_length_le (by omega), decide_eq_true_iff]
      simp only [Bool.false_eq_true, false_or]
      omega
  have hins (i : Nat) : inserted (s ++ value.map .delete) i = inserted s i := by
    rw [inserted_append, inserted_run, ite_self, List.append_nil]
  -- the new range begins where the last one did, if that is a range up to here
  obtain ⟨init, start, rfl, hsorted, hmem, hstart, hjoin⟩ : ∃ init start,
      spans' = init ++ [(start, n + value.length)] ∧
      (init ++ [(start, n + value.length)]).Pairwise (fun f g => f.2 ≤ g.1) ∧
      (∀ f, f ∈ spans ↔ f ∈ init ∨ start < n ∧ f = (start, n)) ∧ start ≤ n ∧
      ((∃ init start, start < n ∧ spans = init ++ [(start, n)]) → start < n) := by
    rcases hpush with ⟨init, start, hlt, rfl, rfl⟩ | ⟨hne, rfl⟩
    · refine ⟨init, start, rfl, ?_, ?_, hlt.le, fun _ => hlt⟩
      · have hsorted := h.sorted
        simp only [List.pairwise_append, List.mem_singleton, forall_eq] at hsorted ⊢
        exact ⟨hsorted.1, List.pairwise_singleton _ _, hsorted.2.2⟩
      · intro f
        rw [List.mem_append, List.mem_singleton, and_iff_right hlt]
    · refine ⟨spans, n, rfl, h.concat (n, _) hn.le, ?_, le_rfl, ?_⟩
      · exact fun f => (or_iff_left fun hf => hf.1.false).symm
      · rintro ⟨init, start, hlt, heq⟩
        exact absurd heq (hne init start hlt)
  refine ⟨hsorted, ?_, ?_, ?_, ?_, ?_⟩
  · rw [hlen, List.forall_mem_append, List.forall_mem_singleton]
    refine ⟨fun f hf => ?_, hstart.trans (Nat.le_add_right _ _), le_rfl⟩
    have := h.within f ((hmem f).2 (.inl hf))
    omega
  · intro i
    rw [hdel, h.deleted]
    simp only [hmem, List.mem_append, List.mem_singleton, or_and_right, exists_or, exists_eq_left,
      and_assoc, or_assoc, exists_and_left, exists_eq_left]
    apply or_congr_right
    omega
  · intro i
    rw [hins, h.point, hmem, List.mem_append, List.mem_singleton]
    apply or_congr_right
    simp only [Prod.mk.injEq]
    omega
  · rintro i ⟨hipos, hbefore, hat, hnone⟩
    rw [hdel] at hbefore hat
    rw [hins] at hnone
    have hbeyond (i : Nat) (hi : n ≤ i) : ¬ deletes s i = true := by
      rw [deletes_of_length_le (hn.trans_le hi)]
      exact Bool.false_ne_true
    by_cases hlt : i < n
    · have hrun :=
        h.run i ⟨hipos, hbefore.resolve_right (by omega), hat.resolve_right (by omega), hnone⟩
      obtain ⟨f, hf, hi⟩ := hrun
      rcases (hmem f).1 hf with hf | ⟨_, rfl⟩
      · exact ⟨f, List.mem_append_left _ hf, hi⟩
      · exact ⟨_, List.mem_append_right _ (List.mem_singleton.2 rfl), hi.1,
          hi.2.trans_le (Nat.le_add_right _ _)⟩
    · have hend := (hat.resolve_left (hbeyond i (Nat.le_of_not_lt hlt))).2
      refine ⟨_, List.mem_append_right _ (List.mem_singleton.2 rfl), ?_, hend⟩
      rcases Nat.lt_or_eq_of_le (Nat.le_of_not_lt hlt) with hgt | rfl
      · exact hstart.trans_lt hgt
      · obtain ⟨m, rfl⟩ := Nat.exists_eq_succ_of_ne_zero hipos.ne'
        obtain ⟨init', start', hle, heq⟩ := h.last m hn (hbefore.resolve_right (by omega)) hnone
        exact hjoin ⟨init', start', Nat.lt_succ_of_le hle, heq⟩
  · intro m hm _ _
    rw [hlen] at hm
    exact ⟨init, start, by omega, by rw [hm]⟩

def Proper (edits : List LocalEdit) : Prop :=
  ∀ start stop, .delete start stop ∈ edits → start < stop

theorem Proper.concat (h : Proper edits)
    (he : ∀ start stop, e = .delete start stop → start < stop) : Proper (edits ++ [e]) := by
  intro start stop hmem
  rw [List.mem_append, List.mem_singleton] at hmem
  exact hmem.elim (h start stop) fun heq => he start stop heq.symm

theorem pushInsert_spans (h : Proper edits) (n : Nat) (value : List Char) :
    Proper (pushInsert edits n value) ∧ ((∃ init, edits.map footprint = init ++ [(n, n)] ∧
      (pushInsert edits n value).map footprint = edits.map footprint) ∨
    (pushInsert edits n value).map footprint = edits.map footprint ++ [(n, n)]) := by
  have hnew : Proper (edits ++ [.insert n value]) := h.concat (by rintro _ _ ⟨⟩)
  rw [pushInsert]
  split
  next aPos s hlast =>
    split
    next heq =>
      obtain ⟨init, rfl⟩ := List.getLast?_eq_some_iff.1 hlast
      rw [heq, List.dropLast_concat, List.map_append, List.map_append]
      refine ⟨Proper.concat (fun start stop he => h start stop (List.mem_append_left _ he)) ?_, ?_⟩
      · rintro _ _ ⟨⟩
      · exact .inl ⟨init.map footprint, rfl, rfl⟩
    next => exact ⟨hnew, .inr List.map_append⟩
  next => exact ⟨hnew, .inr List.map_append⟩

theorem pushDelete_spans (h : Proper edits) (n : Nat) (hk : 0 < k) : Proper (pushDelete edits n k) ∧
    ((∃ init start, start < n ∧ edits.map footprint = init ++ [(start, n)] ∧
      (pushDelete edits n k).map footprint = init ++ [(start, n + k)]) ∨
    (∀ init start, start < n → edits.map footprint ≠ init ++ [(start, n)]) ∧
      (pushDelete edits n k).map footprint = edits.map footprint ++ [(n, n + k)]) := by
  have hnew : Proper (edits ++ [.delete n (n + k)]) := by
    apply h.concat
    rintro _ _ ⟨⟩
    omega
  rw [pushDelete]
  split
  next start stop hlast =>
    obtain ⟨init, rfl⟩ := List.getLast?_eq_some_iff.1 hlast
    split
    next heq =>
      subst heq
      have hlt := h start stop (List.mem_append_right _ (List.mem_singleton.2 rfl))
      rw [List.dropLast_concat, List.map_append, List.map_append]
      refine ⟨Proper.concat (fun start stop he => h start stop (List.mem_append_left _ he)) ?_,
        .inl ⟨init.map footprint, start, hlt, rfl, rfl⟩⟩
      rintro _ _ ⟨⟩
      omega
    next hne =>
      refine ⟨hnew, .inr ⟨?_, List.map_append⟩⟩
      intro init' start' _ heq
      rw [List.map_append] at heq
      exact hne (Prod.mk.inj (List.singleton_inj.1 (List.append_inj' heq rfl).2)).2
  next hlast =>
    refine ⟨hnew, .inr ⟨?_, List.map_append⟩⟩
    intro init start hlt heq
    -- a footprint with a width is that of a range
    obtain ⟨edits', e, rfl⟩ : ∃ edits' e, edits = edits' ++ [e] := by
      rcases List.eq_nil_or_concat' edits with rfl | h
      · exact absurd heq (List.append_ne_nil_of_right_ne_nil _ (List.cons_ne_nil _ _)).symm
      · exact h
    rw [List.map_append] at heq
    have he := List.singleton_inj.1 (List.append_inj' heq rfl).2
    cases e with
    | delete start' stop' =>
      cases he
      exact hlast start n List.getLast?_concat
    | insert aPos s =>
      cases he
      exact hlt.false

theorem localEdits_spans {changes : List Change} (h : ∀ c ∈ changes, c.value ≠ []) :
    Spans (items changes) ((localEdits changes).map footprint) := by
  have hfold (s : List (Edit Char)) (edits : List LocalEdit) (hs : Spans s (edits.map footprint))
      (hp : Proper edits) : Spans (s ++ items changes)
        ((changes.foldl pushChange (edits, (oldText s).length)).1.map footprint) := by
    induction changes generalizing s edits with
    | nil =>
      rw [items, List.flatMap_nil, List.append_nil]
      exact hs
    | cons c changes ih =>
      obtain ⟨tag, value⟩ := c
      rw [List.forall_mem_cons] at h
      rw [items, List.flatMap_cons, ← items, ← List.append_assoc, List.foldl_cons]
      have hlen := congrArg List.length (oldText_append s (Change.items ⟨tag, value⟩))
      rw [List.length_append, (texts_of_map value tag).1] at hlen
      cases tag with
      | equal =>
        have hnext := ih h.2 _ _ (hs.equal h.1) hp
        rw [show (oldText (s ++ value.map .keep)).length = _ from hlen] at hnext
        exact hnext
      | delete =>
        obtain ⟨hp', hpush⟩ :=
          pushDelete_spans hp (oldText s).length (List.length_pos_of_ne_nil h.1)
        have hnext := ih h.2 _ _ (hs.delete h.1 ⟨rfl, hpush⟩) hp'
        rw [show (oldText (s ++ value.map .delete)).length = _ from hlen] at hnext
        exact hnext
      | insert =>
        obtain ⟨hp', hpush⟩ := pushInsert_spans hp (oldText s).length value
        have hnext := ih h.2 _ _ (hs.insert h.1 ⟨rfl, hpush⟩) hp'
        rw [show (oldText (s ++ value.map .insert)).length = _ from hlen] at hnext
        exact hnext
  refine hfold [] [] ⟨.nil, List.forall_mem_nil _, ?_, ?_, ?_, ?_⟩ fun _ _ h =>
    absurd h List.not_mem_nil
  · refine fun _ => iff_of_false Bool.false_ne_true ?_
    rintro ⟨_, h, _⟩
    exact List.not_mem_nil h
  · exact fun _ => iff_of_false (not_not.2 rfl) List.not_mem_nil
  · exact fun _ h => absurd h.2.1 Bool.false_ne_true
  · exact fun _ h => absurd h (Nat.succ_ne_zero _).symm

theorem Spans.apart (h : Spans s spans) (hf : f ∈ spans) (hg : g ∈ spans) :
    f = g ∨ f.2 ≤ g.1 ∨ g.2 ≤ f.1 := by
  have : Std.Symm fun f g : Nat × Nat => f = g ∨ f.2 ≤ g.1 ∨ g.2 ≤ f.1 :=
    ⟨fun _ _ h => h.imp Eq.symm Or.symm⟩
  have hpairs : spans.Pairwise fun f g => f = g ∨ f.2 ≤ g.1 ∨ g.2 ≤ f.1 :=
    h.sorted.imp fun hle => .inr (.inl hle)
  exact hpairs.forall_of_forall (fun _ _ => .inl rfl) hf hg

theorem Spans.runsOver (h : Spans s spans) (hf : f ∈ spans) (hlt : f.1 < i) (hlt' : i < f.2) :
    RunsOver s i := by
  refine ⟨Nat.zero_lt_of_lt hlt, ?_, ?_, ?_⟩
  · exact (h.deleted _).2 ⟨f, hf, by omega, by omega⟩
  · exact (h.deleted i).2 ⟨f, hf, hlt.le, hlt'⟩
  · by_contra hne
    have hapart := h.apart hf ((h.point i).1 hne)
    rw [Prod.ext_iff] at hapart
    dsimp only at hapart
    omega

end Spans

section Loop

structure Added (before after found : List Conflict) : Prop where
  mem : ∀ c, c ∈ after ↔ c ∈ before ∨ c ∈ found
  sublist : after.Sublist (before ++ found)

theorem Added.refl (conflicts : List Conflict) : Added conflicts conflicts [] where
  mem _ := (or_iff_left List.not_mem_nil).symm
  sublist := List.sublist_append_left _ _

theorem addConflict_added (conflicts : List Conflict) (o : Option Conflict) :
    Added conflicts (addConflict conflicts o) o.toList := by
  cases o with
  | none => exact .refl conflicts
  | some d =>
    rw [addConflict.eq_def]
    dsimp only
    split
    next hd =>
      refine ⟨fun c => (or_iff_left_of_imp fun hc => ?_).symm, List.sublist_append_left _ _⟩
      rw [List.mem_singleton.1 hc]
      exact hd
    next => exact ⟨fun c => List.mem_append, .refl _⟩

theorem Added.foldl {α : Type} {step : List Conflict → α → List Conflict}
    {found : α → List Conflict}
    (h : ∀ conflicts x, Added conflicts (step conflicts x) (found x)) (l : List α)
    (conflicts : List Conflict) : Added conflicts (l.foldl step conflicts) (l.flatMap found) := by
  induction l generalizing conflicts with
  | nil => exact .refl conflicts
  | cons x l ih =>
    have hx := h conflicts x
    have hl := ih (step conflicts x)
    rw [List.foldl_cons, List.flatMap_cons]
    constructor
    · intro c
      rw [hl.mem, hx.mem, List.mem_append, or_assoc]
    · rw [← List.append_assoc]
      exact hl.sublist.trans (hx.sublist.append_right _)

def overlaps (a : List Char) (mine theirs : List (Nat × Nat)) : List Conflict :=
  mine.flatMap fun f => if f.1 = f.2 then [] else theirs.flatMap fun g => (overlap a f g).toList

theorem detectConflicts_added (a : List Char) (mine theirs : List LocalEdit) :
    Added [] (detectConflicts a mine theirs)
      (overlaps a (mine.map footprint) (theirs.map footprint)) := by
  rw [overlaps, List.flatMap_map]
  apply Added.foldl
  intro conflicts e
  split
  next => exact .refl conflicts
  next =>
    rw [List.flatMap_map]
    exact Added.foldl (fun conflicts o =>
      addConflict_added conflicts (overlap a (footprint e) (footprint o))) theirs conflicts

end Loop

section Conflicts
variable {a : List Char} {mine theirs : List LocalEdit} {s t : List (Edit Char)}

theorem mem_overlap {f g : Nat × Nat} : c ∈ (overlap a f g).toList ↔ f.1 < g.2 ∧ g.1 < f.2 ∧
      c = ⟨max f.1 g.1, min f.2 g.2, charSlice a (max f.1 g.1) (min f.2 g.2)⟩ := by
  rw [Option.mem_toList, overlap]
  split
  next h =>
    rw [Option.some.injEq, eq_comm (a := c), ← and_assoc]
    exact (and_iff_right h).symm
  next h => exact iff_of_false (Option.some_ne_none c ∘ Eq.symm) fun hc => h ⟨hc.1, hc.2.1⟩

theorem mem_detectConflicts : c ∈ detectConflicts a mine theirs ↔
    ∃ f ∈ mine.map footprint, f.1 ≠ f.2 ∧
      ∃ g ∈ theirs.map footprint, c ∈ (overlap a f g).toList := by
  rw [(detectConflicts_added a mine theirs).mem, or_iff_right List.not_mem_nil, overlaps,
    List.mem_flatMap]
  apply exists_congr
  intro f
  apply and_congr_right
  intro _
  split
  next hpoint => exact iff_of_false List.not_mem_nil fun hc => hc.1 hpoint
  next hwide => rw [List.mem_flatMap, and_iff_right hwide]

theorem detectConflicts_sorted (hm : Spans s (mine.map footprint))
    (ht : Spans t (theirs.map footprint)) :
    (detectConflicts a mine theirs).Pairwise fun c c' => c.ancestorEnd ≤ c'.ancestorStart := by
  apply List.Pairwise.sublist (detectConflicts_added a mine theirs).sublist
  rw [List.nil_append, overlaps, List.pairwise_flatMap]
  constructor
  · intro f _
    split
    next => exact .nil
    next =>
      rw [List.pairwise_flatMap]
      refine ⟨fun g _ => ?_, ht.sorted.imp ?_⟩
      · cases overlap a f g with
        | none => exact .nil
        | some c => exact List.pairwise_singleton _ c
      · intro g g' hle c hc c' hc'
        obtain ⟨_, _, rfl⟩ := mem_overlap.1 hc
        obtain ⟨_, _, rfl⟩ := mem_overlap.1 hc'
        exact (min_le_right _ _).trans (hle.trans (le_max_right _ _))
  · apply hm.sorted.imp
    intro f f' hle c hc c' hc'
    have hbound (f : Nat × Nat) (c : Conflict)
        (hc : c ∈ if f.1 = f.2 then []
          else (theirs.map footprint).flatMap fun g => (overlap a f g).toList) :
        f.1 ≤ c.ancestorStart ∧ c.ancestorEnd ≤ f.2 := by
      split at hc
      next => cases hc
      next =>
        obtain ⟨g, _, hc⟩ := List.mem_flatMap.1 hc
        obtain ⟨_, _, rfl⟩ := mem_overlap.1 hc
        exact ⟨le_max_left _ _, min_le_left _ _⟩
    exact (hbound f c hc).2.trans (hle.trans (hbound f' c' hc').1)

/-- One side inserts inside a run that the other side deletes. -/
def Pierced (s t : List (Edit Char)) : Prop := ∃ i, RunsOver s i ∧ inserted t i ≠ []

theorem point_mem (hm : Spans s (mine.map footprint)) (ht : Spans t (theirs.map footprint))
    (h : Pierced s t) : ∃ c ∈ detectConflicts a mine theirs, c.ancestorStart = c.ancestorEnd := by
  obtain ⟨i, hrun, hins⟩ := h
  obtain ⟨f, hf, hlt, hlt'⟩ := hm.run i hrun
  refine ⟨_, mem_detectConflicts.2 ⟨f, hf, (hlt.trans hlt').ne, (i, i), (ht.point i).1 hins,
    mem_overlap.2 ⟨hlt, hlt', rfl⟩⟩, ?_⟩
  exact (max_eq_right hlt.le).trans (min_eq_right hlt'.le).symm

theorem width_of_overlap {mine theirs : List (Nat × Nat)} (hm : Spans s mine) (ht : Spans t theirs)
    (h : ¬ Pierced s t) (hf : f ∈ mine) (hg : g ∈ theirs) (hlt : f.1 < g.2) (hlt' : g.1 < f.2) :
    g.1 < g.2 := by
  refine (ht.within g hg).1.lt_of_ne fun hpoint => h ⟨g.1, hm.runsOver hf (hpoint ▸ hlt) hlt', ?_⟩
  rw [ht.point, show (g.1, g.1) = g from Prod.ext rfl hpoint]
  exact hg

/-- The ranges are in order, disjoint, of positive width and within the ancestor, and they are where
both scripts delete. -/
structure ConflictsExact (a : List Char) (s t : List (Edit Char)) (conflicts : List Conflict) :
    Prop where
  sorted : conflicts.Pairwise fun c c' => c.ancestorEnd ≤ c'.ancestorStart
  width : ∀ c ∈ conflicts, c.ancestorStart < c.ancestorEnd ∧ c.ancestorEnd ≤ a.length
  union : ∀ i, (∃ c ∈ conflicts, c.ancestorStart ≤ i ∧ i < c.ancestorEnd) ↔
    deletes s i = true ∧ deletes t i = true

theorem detectConflicts_exact (hm : Spans s (mine.map footprint))
    (ht : Spans t (theirs.map footprint)) (ha : oldText s = a) (h : ¬ Pierced s t) :
    ConflictsExact a s t (detectConflicts a mine theirs) where
  sorted := detectConflicts_sorted hm ht
  width c hc := by
    obtain ⟨f, hf, hne, g, hg, hc⟩ := mem_detectConflicts.1 hc
    obtain ⟨hlt, hlt', rfl⟩ := mem_overlap.1 hc
    have hwide := width_of_overlap hm ht h hf hg hlt hlt'
    have hwithin := hm.within f hf
    refine ⟨max_lt (lt_min (hwithin.1.lt_of_ne hne) hlt) (lt_min hlt' hwide), ?_⟩
    rw [← ha]
    exact (min_le_left _ _).trans hwithin.2
  union i := by
    rw [hm.deleted, ht.deleted]
    constructor
    · rintro ⟨c, hc, hle, hlt⟩
      obtain ⟨f, hf, _, g, hg, hc⟩ := mem_detectConflicts.1 hc
      obtain ⟨_, _, rfl⟩ := mem_overlap.1 hc
      rw [Nat.max_le] at hle
      rw [Nat.lt_min] at hlt
      exact ⟨⟨f, hf, hle.1, hlt.1⟩, g, hg, hle.2, hlt.2⟩
    · rintro ⟨⟨f, hf, hle, hlt⟩, g, hg, hle', hlt'⟩
      refine ⟨_, mem_detectConflicts.2 ⟨f, hf, (hle.trans_lt hlt).ne, g, hg,
        mem_overlap.2 ⟨?_, ?_, rfl⟩⟩, max_le hle hle', lt_min hlt hlt'⟩
      · exact hle.trans_lt hlt'
      · exact hle'.trans_lt hlt

theorem ConflictsExact.nodup (h : ConflictsExact a s t conflicts) : conflicts.Nodup := by
  apply h.sorted.imp_of_mem
  rintro c _ hc _ hle rfl
  exact (h.width c hc).1.not_ge hle

theorem mem_detectConflicts_comm (hm : Spans s (mine.map footprint))
    (ht : Spans t (theirs.map footprint))
    (h : ¬ Pierced s t) (hc : c ∈ detectConflicts a mine theirs) :
    c ∈ detectConflicts a theirs mine := by
  obtain ⟨f, hf, _, g, hg, hc⟩ := mem_detectConflicts.1 hc
  obtain ⟨hlt, hlt', rfl⟩ := mem_overlap.1 hc
  have hwide := width_of_overlap hm ht h hf hg hlt hlt'
  refine mem_detectConflicts.2 ⟨g, hg, hwide.ne, f, hf, mem_overlap.2 ⟨hlt', hlt, ?_⟩⟩
  rw [max_comm, min_comm]

theorem detectConflicts_comm (hm : Spans s (mine.map footprint))
    (ht : Spans t (theirs.map footprint))
    (ha : oldText s = a) (ha' : oldText t = a) (h : ¬ Pierced s t) (h' : ¬ Pierced t s) :
    detectConflicts a mine theirs = detectConflicts a theirs mine := by
  have hexact := detectConflicts_exact hm ht ha h
  have hexact' := detectConflicts_exact ht hm ha' h'
  have hperm := (List.perm_ext_iff_of_nodup hexact.nodup hexact'.nodup).2
    fun c => ⟨mem_detectConflicts_comm hm ht h, mem_detectConflicts_comm ht hm h'⟩
  refine hperm.eq_of_pairwise ?_ hexact.sorted hexact'.sorted
  intro c c' hc hc' hle hle'
  -- two ranges with a width cannot each end before the other begins
  have hwidth := (hexact.width c hc).1
  have hwidth' := (hexact'.width c' hc').1
  omega

end Conflicts

section Merge

structure IsCharScript (a b : List Char) (changes : List Change) : Prop where
  script : IsScript a b changes
  nonempty : ∀ c ∈ changes, c.value ≠ []

def Conflict.range (c : Conflict) : Nat × Nat := (c.ancestorStart, c.ancestorEnd)

/-- The conflicts are exact, and the same when the sides are exchanged, if and only if neither side
inserts inside a run that the other one deletes. -/
theorem merge_conflicts_iff {diff : TextDiff} {a l r : List Char}
    (hl : IsCharScript a l (diff a l)) (hr : IsCharScript a r (diff a r)) :
    (∃ merged merged' conflicts conflicts',
      mergeLocalOntoRemote diff a l r = some (merged, conflicts) ∧
      mergeLocalOntoRemote diff a r l = some (merged', conflicts') ∧
      ConflictsExact a (items (diff a l)) (items (diff a r)) conflicts ∧
      conflicts'.map Conflict.range = conflicts.map Conflict.range) ↔
    ¬ Pierced (items (diff a l)) (items (diff a r)) ∧
      ¬ Pierced (items (diff a r)) (items (diff a l)) := by
  have hm := localEdits_spans hl.nonempty
  have ht := localEdits_spans hr.nonempty
  rw [mergeLocalOntoRemote_eq hl.script hr.script, mergeLocalOntoRemote_eq hr.script hl.script]
  constructor
  · rintro ⟨_, _, _, _, ⟨⟩, ⟨⟩, hexact, hsame⟩
    constructor
    · intro hpierced
      obtain ⟨c, hc, hpoint⟩ := point_mem (a := a) hm ht hpierced
      exact (hexact.width c hc).1.ne hpoint
    · intro hpierced
      obtain ⟨c, hc, hpoint⟩ := point_mem (a := a) ht hm hpierced
      have hrange := List.mem_map_of_mem (f := Conflict.range) hc
      rw [hsame] at hrange
      obtain ⟨c', hc', heq⟩ := List.mem_map.1 hrange
      obtain ⟨hstart, hend⟩ := Prod.mk.inj heq
      exact (hexact.width c' hc').1.ne (hstart.trans (hpoint.trans hend.symm))
  · rintro ⟨h, h'⟩
    refine ⟨_, _, _, _, rfl, rfl, detectConflicts_exact hm ht hl.script.oldText h, ?_⟩
    rw [detectConflicts_comm hm ht hl.script.oldText hr.script.oldText h h']

def pierceDiff : TextDiff := fun a b =>
  if b = [] then [⟨.delete, a⟩] else [⟨.equal, a.take 1⟩, ⟨.insert, ['X']⟩, ⟨.equal, a.drop 1⟩]

/-- A deletion around an insertion is reported as a conflict of no width, and only one way round. -/
theorem insertion_reported : IsScript ['a', 'b', 'c'] [] (pierceDiff ['a', 'b', 'c'] []) ∧
    IsScript ['a', 'b', 'c'] ['a', 'X', 'b', 'c'] (pierceDiff ['a', 'b', 'c'] ['a', 'X',
      'b', 'c']) ∧ mergeLocalOntoRemote pierceDiff ['a', 'b', 'c'] [] ['a', 'X', 'b', 'c'] =
      some (['X'], [⟨1, 1, []⟩]) ∧
    mergeLocalOntoRemote pierceDiff ['a', 'b', 'c'] ['a', 'X', 'b', 'c'] [] = some (['X'], []) :=
  ⟨⟨rfl, rfl⟩, ⟨rfl, rfl⟩, by decide, by decide⟩

theorem merge_conflicts_replaced : ∃ merged merged' conflicts conflicts',
      mergeLocalOntoRemote replaceDiff ['a', 'b'] ['c'] ['d'] = some (merged, conflicts) ∧
      mergeLocalOntoRemote replaceDiff ['a', 'b'] ['d'] ['c'] = some (merged', conflicts') ∧
      ConflictsExact ['a', 'b'] (items (replaceDiff ['a', 'b'] ['c']))
        (items (replaceDiff ['a', 'b'] ['d'])) conflicts ∧
      conflicts'.map Conflict.range = conflicts.map Conflict.range := by
  have hnone (x y : Char) :
      ¬ Pierced [.delete 'a', .delete 'b', .insert x] [.delete 'a', .delete 'b', .insert y] := by
    rintro ⟨i, ⟨_, _, hat, _⟩, hins⟩
    match i with
    | 0 => exact hins rfl
    | 1 => exact hins rfl
    | _ + 2 => cases hat
  exact (merge_conflicts_iff ⟨replaceDiff_isScript _ _, by decide⟩
    ⟨replaceDiff_isScript _ _, by decide⟩).2 ⟨hnone 'c' 'd', hnone 'd' 'c'⟩

end Merge

end Roam.Rebase
