import Mathlib

namespace Library
set_option autoImplicit true

section
variable {Op : Type} {past : Op → Set Op} {S T N : Set Op}

/-- The operations of a set whose causal predecessors are all in the set; the others wait. -/
def ready (past : Op → Set Op) (S : Set Op) : Set Op := { o ∈ S | past o ⊆ S }

theorem ready_subset : ready past S ⊆ S := fun _ h => h.1

theorem ready_mono (h : S ⊆ T) : ready past S ⊆ ready past T :=
  fun _ ho => ⟨h ho.1, ho.2.trans h⟩

def NoneWaits (past : Op → Set Op) (S : Set Op) (w p : Op → Prop) : Prop :=
  ∀ o ∈ S, w o → ∀ q ∈ past o, p q → q ∈ S

theorem ready_union_new {w p : Op → Prop} (hwait : NoneWaits past S w p) (hnew : ∀ o ∈ N, p o)
    (ho : o ∈ ready past (S ∪ N)) (hw : w o) : o ∈ ready past S ∨ o ∈ N := by
  cases ho.1 with
  | inr hn => exact .inr hn
  | inl hs =>
    refine .inl ⟨hs, ?_⟩
    intro q hq
    cases ho.2 hq with
    | inl hqs => exact hqs
    | inr hqn => exact hwait o hs hw q hq (hnew q hqn)

theorem NoneWaits.union_new {w p : Op → Prop} (hwait : NoneWaits past S w p)
    (hnew : ∀ o ∈ N, past o ⊆ S ∪ N) : NoneWaits past (S ∪ N) w p := by
  intro o ho hw q hq hp
  cases ho with
  | inl hs => exact .inl (hwait o hs hw q hq hp)
  | inr hn => exact hnew o hn hq

end

end Library
