import Mathlib

namespace Library
set_option autoImplicit true

/-- The least set that holds the seeds and is closed under the edges. -/
inductive Reach (seed : α → Prop) (edge : α → α → Prop) : α → Prop
  | base : seed a → Reach seed edge a
  | step : Reach seed edge a → edge a b → Reach seed edge b

section Reach
variable {seed seed' P : α → Prop} {edge edge' : α → α → Prop}

theorem Reach.mono (h : Reach seed edge a) (hs : ∀ a, seed a → seed' a)
    (he : ∀ a b, edge a b → edge' a b) : Reach seed' edge' a := by
  induction h with
  | base h => exact .base (hs _ h)
  | step _ hab ih => exact .step ih (he _ _ hab)

theorem Reach.least (h : Reach seed edge a) (hs : ∀ a, seed a → P a)
    (he : ∀ a b, P a → edge a b → P b) : P a := by
  induction h with
  | base h => exact hs _ h
  | step _ hab ih => exact he _ _ ih hab

end Reach

def saturate (step : Finset α → Finset α) : Nat → Finset α → Finset α
  | 0, s => s
  | n + 1, s => if (step s).card = s.card then step s else saturate step n (step s)

section Saturate
variable {step : Finset α → Finset α} {s U : Finset α} {P : α → Prop}

theorem subset_saturate (hinc : ∀ s, s ⊆ step s) (n : Nat) (s : Finset α) :
    s ⊆ saturate step n s := by
  induction n generalizing s with
  | zero => exact Finset.Subset.refl s
  | succ n ih =>
    rw [saturate]
    split
    · exact hinc s
    · exact (hinc s).trans (ih _)

theorem saturate_forall (hstep : ∀ s, (∀ a ∈ s, P a) → ∀ a ∈ step s, P a) (n : Nat)
    (hs : ∀ a ∈ s, P a) : ∀ a ∈ saturate step n s, P a := by
  induction n generalizing s with
  | zero => exact hs
  | succ n ih =>
    rw [saturate]
    split
    · exact hstep s hs
    · exact ih (hstep s hs)

/-- Inside a finite universe the loop ends at a fixed point: every round that does not end it
adds a member, and there is room for `U.card - s.card` of them. -/
theorem saturate_fixed (hinc : ∀ s, s ⊆ step s) (hU : ∀ s, s ⊆ U → step s ⊆ U)
    (hs : s ⊆ U) (hn : U.card < s.card + n) : step (saturate step n s) = saturate step n s := by
  induction n generalizing s with
  | zero =>
    have hle := Finset.card_le_card hs
    omega
  | succ n ih =>
    rw [saturate]
    split
    · rename_i heq
      have hfix : s = step s := Finset.eq_of_subset_of_card_le (hinc s) (Nat.le_of_eq heq)
      rw [← hfix, ← hfix]
    · rename_i hne
      have hle := Finset.card_le_card (hinc s)
      exact ih (hU s hs) (by omega)

end Saturate

section Rules
variable [DecidableEq α] (fires : ρ → Bool) (source target : ρ → α)

/-- One pass over a list of rules: a rule that fires adds its target once its source is in. -/
def rulePass (rules : List ρ) (s : Finset α) : Finset α :=
  rules.foldl (fun s r => if fires r && source r ∈ s then insert (target r) s else s) s

def RuleEdge (rules : List ρ) (a b : α) : Prop :=
  ∃ r ∈ rules, fires r = true ∧ source r = a ∧ target r = b

variable {fires source target} {P : α → Prop}

theorem rulePass_cons (r : ρ) (rules : List ρ) (s : Finset α) :
    rulePass fires source target (r :: rules) s = rulePass fires source target rules
        (if fires r && source r ∈ s then insert (target r) s else s) :=
  rfl

theorem subset_rulePass (rules : List ρ) (s : Finset α) :
    s ⊆ rulePass fires source target rules s := by
  induction rules generalizing s with
  | nil => exact Finset.Subset.refl s
  | cons r rules ih =>
    rw [rulePass_cons]
    refine Finset.Subset.trans ?_ (ih _)
    split
    · exact Finset.subset_insert _ _
    · exact Finset.Subset.refl s

theorem rulePass_forall {rules : List ρ} {s : Finset α} (hs : ∀ a ∈ s, P a)
    (hr : ∀ r ∈ rules, fires r = true → P (source r) → P (target r)) :
    ∀ a ∈ rulePass fires source target rules s, P a := by
  induction rules generalizing s with
  | nil => exact hs
  | cons r rules ih =>
    rw [rulePass_cons]
    apply ih
    · intro a ha
      split at ha
      · rename_i hc
        rw [Bool.and_eq_true, decide_eq_true_eq] at hc
        rcases Finset.mem_insert.1 ha with rfl | ha
        · exact hr r List.mem_cons_self hc.1 (hs _ hc.2)
        · exact hs a ha
      · exact hs a ha
    · intro r' hr'
      exact hr r' (List.mem_cons_of_mem r hr')

theorem target_mem_rulePass {rules : List ρ} {s : Finset α} (hr : r ∈ rules)
    (hf : fires r = true) (hs : source r ∈ s) :
    target r ∈ rulePass fires source target rules s := by
  induction rules generalizing s with
  | nil => cases hr
  | cons r' rules ih =>
    rw [rulePass_cons]
    rcases List.mem_cons.1 hr with rfl | hr
    · apply subset_rulePass rules
      simp only [hf, hs, decide_true, Bool.and_self, ↓reduceIte, Finset.mem_insert_self]
    · apply ih hr
      split
      · exact Finset.mem_insert_of_mem hs
      · exact hs

/-- Passes over the rules, repeated until nothing is added, compute reachability. One round
for each rule and one more are always enough. -/
theorem mem_saturate_rulePass {rules : List ρ} {s : Finset α} (hn : rules.length < n) :
    a ∈ saturate (rulePass fires source target rules) n s ↔
      Reach (· ∈ s) (RuleEdge fires source target rules) a := by
  constructor
  · apply saturate_forall
    · intro s hs
      refine rulePass_forall hs ?_
      intro r hr hf hsrc
      exact .step hsrc ⟨r, hr, hf, rfl, rfl⟩
    · intro a ha
      exact .base ha
  · intro h
    obtain ⟨U, hUdef⟩ : ∃ U, U = s ∪ (rules.map target).toFinset := ⟨_, rfl⟩
    have hU : ∀ t, t ⊆ U → rulePass fires source target rules t ⊆ U := by
      intro t ht
      refine rulePass_forall (fun a ha => ht ha) ?_
      intro r hr _ _
      rw [hUdef]
      exact Finset.mem_union_right _ (List.mem_toFinset.2 (List.mem_map_of_mem hr))
    have hcard : U.card < s.card + n := by
      have h₁ := Finset.card_union_le s (rules.map target).toFinset
      have h₂ := List.toFinset_card_le (rules.map target)
      rw [List.length_map] at h₂
      rw [hUdef]
      omega
    have hfix := saturate_fixed (subset_rulePass rules) hU
      (hUdef ▸ Finset.subset_union_left) hcard
    refine h.least (fun a ha => subset_saturate (subset_rulePass rules) n s ha) ?_
    rintro _ _ ha ⟨r, hr, hf, rfl, rfl⟩
    rw [← hfix]
    exact target_mem_rulePass hr hf ha

end Rules

end Library
