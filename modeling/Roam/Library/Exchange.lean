import Mathlib.Logic.Hydra
import Mathlib.Algebra.Order.Group.Nat

namespace Library
set_option autoImplicit true

theorem eventually_still {α : Type} {r : α → α → Prop} (hr : WellFounded r) {run : Nat → α}
    (h : ∀ k, run (k + 1) = run k ∨ r (run (k + 1)) (run k)) :
    ∃ last, ∀ k, last ≤ k → run k = run last := by
  obtain ⟨_, ⟨last, rfl⟩, hmin⟩ := hr.has_min (Set.range run) (Set.range_nonempty run)
  refine ⟨last, ?_⟩
  intro k hk
  induction k, hk using Nat.le_induction with
  | base => rfl
  | succ k hk ih =>
    cases h k with
    | inl hstill => exact hstill.trans ih
    | inr hlow => exact absurd (ih ▸ hlow) (hmin _ ⟨k + 1, rfl⟩)

/-- Parties that handle one message at a time, each with a choice that is made for them. Of what
they send, some messages reach the network. -/
structure Exchange (σ μ ω : Type) where
  handle : σ → μ → ω → σ × List μ
  arrives : μ → Bool

structure Traffic (σ μ : Type) where
  state : σ
  flight : Multiset μ
  sent : List μ

namespace Exchange
variable {σ μ ω : Type} [DecidableEq μ] (x : Exchange σ μ ω)

/-- One message is taken from the network and handled. Nothing happens if it is not there. -/
def deliver (t : Traffic σ μ) (choice : μ × ω) : Traffic σ μ :=
  if choice.1 ∈ t.flight then
    let (state, out) := x.handle t.state choice.1 choice.2
    { state
      flight := t.flight.erase choice.1 + (out.filter x.arrives : List μ)
      sent := t.sent ++ out }
  else t

def after (t : Traffic σ μ) (schedule : Nat → μ × ω) : Nat → Traffic σ μ
  | 0 => t
  | k + 1 => x.deliver (after t schedule k) (schedule k)

/-- Whatever a message makes a party do uses up some of a budget, or leads to messages of lower
rank only. -/
structure Settles (budget : σ → Nat) (rank : μ → Nat) : Prop where
  budget_le : ∀ s m c, budget (x.handle s m c).1 ≤ budget s
  progress : ∀ s m c, budget (x.handle s m c).1 < budget s ∨
    ∀ m' ∈ (x.handle s m c).2, rank m' < rank m

/-- One traffic is below another: less budget, or a message replaced by some of lower rank. -/
def Below (budget : σ → Nat) (rank : μ → Nat) : Traffic σ μ → Traffic σ μ → Prop :=
  InvImage (Prod.Lex (· < ·) (Relation.CutExpand (InvImage (· < ·) rank)))
    fun t => (budget t.state, t.flight)

omit [DecidableEq μ] in
theorem below_wellFounded (budget : σ → Nat) (rank : μ → Nat) : WellFounded (Below budget rank) :=
  InvImage.wf _ (wellFounded_lt.prod_lex (InvImage.wf rank wellFounded_lt).cutExpand)

variable {x} {budget : σ → Nat} {rank : μ → Nat}

theorem Settles.deliver_below (h : x.Settles budget rank) (t : Traffic σ μ) (choice : μ × ω) :
    x.deliver t choice = t ∨ Below budget rank (x.deliver t choice) t := by
  rw [deliver]
  split
  next hm =>
    right
    by_cases hb : budget (x.handle t.state choice.1 choice.2).1 < budget t.state
    · exact .left _ _ hb
    · have heq := le_antisymm (h.budget_le t.state choice.1 choice.2) (not_lt.1 hb)
      have hrank := (h.progress t.state choice.1 choice.2).resolve_left hb
      -- the message is cut, and what arrives of the answers grows in its place
      apply Prod.lex_def.2
      refine .inr ⟨heq, (((x.handle t.state choice.1 choice.2).2.filter x.arrives : List μ) :
        Multiset μ), choice.1, ?_, ?_⟩
      · intro m' hm'
        exact hrank m' (List.mem_of_mem_filter (Multiset.mem_coe.1 hm'))
      · change t.flight.erase choice.1 + _ + {choice.1} = t.flight + _
        rw [add_right_comm, ← Multiset.cons_zero, Multiset.add_cons, add_zero,
          Multiset.cons_erase hm]
  next => exact .inl rfl

/-- Only finitely many messages are ever sent, whatever the order of delivery. -/
theorem Settles.quiesces (h : x.Settles budget rank) (t : Traffic σ μ) (schedule : Nat → μ × ω) :
    ∃ last, ∀ k, last ≤ k → x.after t schedule k = x.after t schedule last :=
  eventually_still (below_wellFounded budget rank) fun k =>
    h.deliver_below (x.after t schedule k) (schedule k)

end Exchange

end Library
