import Mathlib.Data.List.Basic
import Mathlib.Data.Set.Defs

namespace Library
set_option autoImplicit true

/-- The words that `code` gives the members of `S` end by themselves: whatever text follows two
of them, the words and the texts after them can be told apart. -/
def Delimited (S : Set α) (code : α → List β) : Prop :=
  ∀ ⦃a b⦄, a ∈ S → b ∈ S → ∀ ⦃s t⦄, code a ++ s = code b ++ t → a = b ∧ s = t

theorem Delimited.of_length {code : α → List β} (hinj : ∀ a ∈ S, ∀ b ∈ S, code a = code b → a = b)
    (hlen : ∀ a ∈ S, ∀ b ∈ S, (code a).length = (code b).length) : Delimited S code := by
  intro a b ha hb s t h
  obtain ⟨hcode, hrest⟩ := List.append_inj h (hlen a ha b hb)
  exact ⟨hinj a ha b hb hcode, hrest⟩

theorem Delimited.bind {head : γ → List β} {body : α → List β} (size : α → γ)
    (hhead : Delimited T head) (hT : ∀ a ∈ S, size a ∈ T)
    (hbody : ∀ a ∈ S, ∀ b ∈ S, size a = size b → ∀ ⦃s t⦄, body a ++ s = body b ++ t →
      a = b ∧ s = t) : Delimited S (fun a => head (size a) ++ body a) := by
  intro a b ha hb s t h
  rw [List.append_assoc, List.append_assoc] at h
  obtain ⟨hsize, hrest⟩ := hhead (hT a ha) (hT b hb) h
  exact hbody a ha b hb hsize hrest

theorem Delimited.flatMap {code : α → List β} (h : Delimited S code) {as bs : List α}
    (has : ∀ a ∈ as, a ∈ S) (hbs : ∀ b ∈ bs, b ∈ S) (hlen : as.length = bs.length)
    (heq : as.flatMap code ++ s = bs.flatMap code ++ t) : as = bs ∧ s = t := by
  induction as generalizing bs with
  | nil =>
    obtain rfl := List.eq_nil_of_length_eq_zero hlen.symm
    exact ⟨rfl, heq⟩
  | cons a as ih =>
    cases bs with
    | nil => cases hlen
    | cons b bs =>
      rw [List.flatMap_cons, List.flatMap_cons, List.append_assoc, List.append_assoc] at heq
      obtain ⟨rfl, hrest⟩ := h (has a List.mem_cons_self) (hbs b List.mem_cons_self) heq
      obtain ⟨rfl, hst⟩ := ih (fun x hx => has x (List.mem_cons_of_mem _ hx))
        (fun x hx => hbs x (List.mem_cons_of_mem _ hx)) (Nat.succ.inj hlen) hrest
      exact ⟨rfl, hst⟩

theorem append_ne_of_take_ne (n : Nat) {tag tag' : List β} (hn : n ≤ tag.length)
    (hn' : n ≤ tag'.length) (hne : tag.take n ≠ tag'.take n) (s t : List β) :
    tag ++ s ≠ tag' ++ t := by
  intro h
  apply hne
  rw [← List.take_append_of_le_length hn, ← List.take_append_of_le_length hn', h]

end Library
