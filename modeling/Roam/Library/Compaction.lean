import Roam.Library.Run
import Mathlib.Data.List.Perm.Subperm

namespace Library
set_option autoImplicit true

/-- A log that lost entries at its head and got others at its end. -/
def Compacts (log appended dropped log' : List α) : Prop := log ++ appended = dropped ++ log'

theorem Compacts.refl (log : List α) : Compacts log [] [] log := List.append_nil log

theorem Compacts.trans (h : Compacts log appended dropped log')
    (h' : Compacts log' appended' dropped' log'') :
    Compacts log (appended ++ appended') (dropped ++ dropped') log'' := by
  rw [Compacts] at *
  rw [← List.append_assoc, h, List.append_assoc, h', List.append_assoc]

theorem Compacts.of_extends {log log' : List α} (h : log <+: log') :
    Compacts log (log'.drop log.length) [] log' := by
  obtain ⟨more, rfl⟩ := h
  rw [Compacts, List.drop_left, List.nil_append]

theorem Compacts.of_drop (log : List α) (n : Nat) :
    Compacts log [] (log.take (log.length - (log.drop n).length)) (log.drop n) := by
  rw [Compacts, List.append_nil, List.length_drop]
  by_cases hn : n ≤ log.length
  · rw [Nat.sub_sub_self hn, List.take_append_drop]
  · have hle := Nat.le_of_not_le hn
    rw [Nat.sub_eq_zero_of_le hle, Nat.sub_zero, List.take_length, List.drop_eq_nil_of_le hle,
      List.append_nil]

/-- As many entries as the log once had are dropped from it. What was appended since is left if
and only if nothing was dropped meanwhile, or nothing appended. -/
theorem Compacts.drop_count_iff (h : Compacts log appended dropped log') :
    log'.drop log.length = appended ↔ dropped = [] ∨ appended = [] := by
  have hrest : log'.drop log.length = appended.drop dropped.length := by
    calc log'.drop log.length = ((dropped ++ log').drop dropped.length).drop log.length := by
          rw [List.drop_left]
      _ = ((log ++ appended).drop log.length).drop dropped.length := by
          rw [← h, List.drop_drop, List.drop_drop, Nat.add_comm]
      _ = appended.drop dropped.length := by rw [List.drop_left]
  rw [hrest]
  constructor
  · intro heq
    have hlen := congrArg List.length heq
    rw [List.length_drop] at hlen
    rw [← List.length_eq_zero_iff, ← List.length_eq_zero_iff]
    omega
  · intro hor
    cases hor with
    | inl hd => rw [hd, List.length_nil, List.drop_zero]
    | inr ha => rw [ha, List.drop_nil]

/-- As many entries as the log once had are taken from it. They are those that it had then and has
still if and only if nothing was dropped meanwhile, or nothing appended, or it had or has none. -/
theorem Compacts.take_count_iff (h : Compacts log appended dropped log') :
    log'.take log.length = log.drop dropped.length ↔
      dropped = [] ∨ appended = [] ∨ log = [] ∨ log' = [] := by
  have hlog' : log' = (log ++ appended).drop dropped.length := by rw [h, List.drop_left]
  have hlen := congrArg List.length h
  rw [List.length_append, List.length_append] at hlen
  constructor
  · intro heq
    have hcount := congrArg List.length heq
    rw [List.length_take, List.length_drop] at hcount
    simp only [← List.length_eq_zero_iff]
    omega
  · intro hor
    rcases hor with hd | ha | hl | hl'
    · rw [hd, List.length_nil, List.drop_zero] at hlog'
      rw [hd, hlog', List.length_nil, List.drop_zero, List.take_left]
    · rw [ha, List.append_nil] at hlog'
      rw [hlog', List.take_of_length_le]
      rw [List.length_drop]
      exact Nat.sub_le _ _
    · rw [hl, List.length_nil, List.take_zero, List.drop_nil]
    · rw [hl', List.take_nil]
      rw [hl', List.length_nil] at hlen
      rw [List.drop_eq_nil_of_le]
      omega

theorem take_filter {p : α → Bool} {l : List α} (h : ∀ a ∈ l.take n, p a = true) :
    (l.filter p).take n = l.take n := by
  induction l generalizing n with
  | nil => rfl
  | cons a l ih =>
    cases n with
    | zero => rfl
    | succ n =>
      rw [List.take_succ_cons, List.forall_mem_cons] at h
      rw [List.filter_cons_of_pos h.1, List.take_succ_cons, List.take_succ_cons, ih h.2]

theorem Along.compacts {step : σ → ι → σ} {P : σ → ι → Prop} {log : σ → List β}
    {appended dropped : σ → ι → List β}
    (hstep : ∀ s i, P s i → Compacts (log s) (appended s i) (dropped s i) (log (step s i)))
    (h : Along step P s inputs) : Compacts (log s) (Library.outputs step appended s inputs)
      (Library.outputs step dropped s inputs) (log (runAll step s inputs)) := by
  induction inputs generalizing s with
  | nil => exact .refl _
  | cons i inputs ih => exact (hstep s i h.1).trans (ih h.2)

/-- Of a list in which those with `P` come last, the first `k` and those without `P` are kept. Then
none that comes after `k` others in what was kept has `P`, in whatever order they are. -/
theorem not_old_of_kept {l kept : List α} {P : α → Prop} (hsorted : l.Pairwise fun a b => P a → P b)
    (hnodup : kept.Nodup) (hsub : kept ⊆ l) (hkept : ∀ a ∈ kept, a ∈ l.drop k → ¬ P a) :
    ∀ a ∈ kept.drop k, ¬ P a := by
  intro a ha hold
  rw [← List.take_append_drop k l, List.pairwise_append] at hsorted
  have hfirst (b : α) (hb : b ∈ kept) (hlater : b ∈ l.drop k → P b) : b ∈ l.take k := by
    have hl := hsub hb
    rw [← List.take_append_drop k l, List.mem_append] at hl
    exact hl.resolve_right fun hdrop => hkept b hb hdrop (hlater hdrop)
  have hatake := hfirst a (List.mem_of_mem_drop ha) fun _ => hold
  -- one more than `k` of them would be among the first `k`
  have hsubset : a :: kept.take k ⊆ l.take k := by
    rw [List.cons_subset]
    refine ⟨hatake, fun b hb => ?_⟩
    exact hfirst b (List.mem_of_mem_take hb) fun hdrop => hsorted.2.2 a hatake b hdrop hold
  have hnodup' : (a :: kept.take k).Nodup := by
    rw [← List.take_append_drop k kept] at hnodup
    have hsplit := List.nodup_append.1 hnodup
    exact List.nodup_cons.2 ⟨fun hmem => hsplit.2.2 a hmem a ha rfl, hsplit.1⟩
  have hlen := (List.subperm_of_subset hnodup' hsubset).length_le
  have hlong := List.length_pos_of_mem ha
  rw [List.length_drop] at hlong
  rw [List.length_cons, List.length_take, List.length_take] at hlen
  omega

end Library
