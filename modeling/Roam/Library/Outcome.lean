import Mathlib.Data.List.Forall2

namespace Library
set_option autoImplicit true

section
variable {f : α → Except ε β} {as : List α} {bs : List β}

theorem mapM_ok_iff : as.mapM f = .ok bs ↔ List.Forall₂ (fun a b => f a = .ok b) as bs := by
  induction as generalizing bs with
  | nil =>
    rw [List.mapM_nil, List.forall₂_nil_left_iff]
    exact ⟨fun h => (Except.ok.inj h).symm, fun h => congrArg Except.ok h.symm⟩
  | cons a as ih =>
    rw [List.mapM_cons, List.forall₂_cons_left_iff]
    cases ha : f a with
    | error e =>
      constructor
      · exact nofun
      · rintro ⟨b, _, h, _⟩
        cases h
    | ok b =>
      cases has : as.mapM f with
      | error e =>
        constructor
        · exact nofun
        · rintro ⟨_, bs', _, h, _⟩
          rw [← ih, has] at h
          cases h
      | ok bs' =>
        constructor
        · intro h
          cases h
          exact ⟨b, bs', rfl, ih.1 has, rfl⟩
        · rintro ⟨_, bs'', h, h', rfl⟩
          cases h
          rw [← ih, has] at h'
          cases h'
          rfl

theorem mapM_exists {g : β → γ} {k : α → γ} (h : ∀ a ∈ as, ∃ b, f a = .ok b ∧ g b = k a) :
    ∃ bs, as.mapM f = .ok bs ∧ bs.map g = as.map k := by
  induction as with
  | nil => exact ⟨[], rfl, rfl⟩
  | cons a as ih =>
    rw [List.forall_mem_cons] at h
    obtain ⟨⟨b, hb, hg⟩, has⟩ := h
    obtain ⟨bs, hbs, hgs⟩ := ih has
    refine ⟨b :: bs, ?_, ?_⟩
    · rw [List.mapM_cons, hb, hbs]
      rfl
    · rw [List.map_cons, List.map_cons, hg, hgs]

theorem mapM_error (h : ∀ a ∈ as, f a = .error e ∨ ∃ b, f a = .ok b) (ha : a ∈ as)
    (hf : f a = .error e) : as.mapM f = .error e := by
  induction as with
  | nil => cases ha
  | cons a' as ih =>
    rw [List.forall_mem_cons] at h
    rw [List.mapM_cons]
    rcases h.1 with herror | ⟨b, hb⟩
    · rw [herror]
      rfl
    · have hmem : a ∈ as := by
        rcases List.mem_cons.1 ha with rfl | hmem
        · cases hb.symm.trans hf
        · exact hmem
      rw [hb, ih h.2 hmem]
      rfl

end

end Library
