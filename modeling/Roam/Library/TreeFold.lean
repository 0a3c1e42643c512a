import Mathlib

namespace Library
set_option autoImplicit true

section Lookup
variable [Ord κ] [Std.TransOrd κ] [Std.LawfulEqOrd κ] [DecidableEq κ] {m : Std.TreeMap κ β}

theorem get_insert : (m.insert k v)[a]? = if k = a then some v else m[a]? := by
  simp only [Std.TreeMap.getElem?_insert, Std.LawfulEqOrd.compare_eq_iff_eq]

theorem get_erase : (m.erase k)[a]? = if k = a then none else m[a]? := by
  simp only [Std.TreeMap.getElem?_erase, Std.LawfulEqOrd.compare_eq_iff_eq]

end Lookup

section
variable [DecidableEq κ]

def valuesAt (item : ι → Option (κ × β)) (k : κ) (items : List ι) : List β :=
  items.filterMap fun x => (item x).bind fun p => if p.1 = k then some p.2 else none

theorem mem_valuesAt {item : ι → Option (κ × β)} {items : List ι} :
    v ∈ valuesAt item k items ↔ ∃ x ∈ items, item x = some (k, v) := by
  simp only [valuesAt, List.mem_filterMap, Option.bind_eq_some_iff, Option.ite_none_right_eq_some,
    Option.some.injEq, Prod.exists]
  constructor
  · rintro ⟨x, hx, a, b, he, rfl, rfl⟩
    exact ⟨x, hx, he⟩
  · rintro ⟨x, hx, he⟩
    exact ⟨x, hx, k, v, he, rfl, rfl⟩

/-- When each step of a loop updates the map at the key of its item, if it has one, every slot
of the final map is the fold of the values of its own key. -/
theorem getElem?_foldl [Ord κ] [Std.TransOrd κ] [Std.LawfulEqOrd κ]
    {item : ι → Option (κ × β)} {update : β → Option γ → Option γ} {step : σ → ι → σ}
    (map : σ → Std.TreeMap κ γ) (hnone : ∀ a x, item x = none → map (step a x) = map a)
    (hsome : ∀ a x k v, item x = some (k, v) → map (step a x) = (map a).alter k (update v))
    (items : List ι) (a : σ) (k : κ) : (map (items.foldl step a))[k]? =
      (valuesAt item k items).foldl (fun o v => update v o) (map a)[k]? := by
  induction items generalizing a with
  | nil => rfl
  | cons x items ih =>
    rw [List.foldl_cons, ih]
    cases hx : item x with
    | none => simp only [valuesAt, List.filterMap_cons, hx, Option.bind_none, hnone a x hx]
    | some p =>
      simp only [valuesAt, List.filterMap_cons, hx, Option.bind_some, hsome a x p.1 p.2 hx,
        Std.TreeMap.getElem?_alter, Std.LawfulEqOrd.compare_eq_iff_eq]
      by_cases hp : p.1 = k
      · simp only [hp, ↓reduceIte, List.foldl_cons]
      · simp only [hp, ↓reduceIte]

end

structure Selects (better : β → β → Prop) (update : β → Option β → Option β) : Prop where
  first : ∀ v, update v none = some v
  choice : ∀ v c, ∃ b, update v (some c) = some b ∧ (b = v ∨ b = c) ∧ better v b ∧ better c b
  refl : ∀ v, better v v
  trans : ∀ a b c, better a b → better b c → better a c

section
variable {better : β → β → Prop} {update : β → Option β → Option β}

theorem Selects.foldl_some (h : Selects better update) (c : β) (vs : List β) :
    ∃ b, vs.foldl (fun o v => update v o) (some c) = some b ∧ b ∈ c :: vs ∧
      ∀ v ∈ c :: vs, better v b := by
  induction vs generalizing c with
  | nil =>
    refine ⟨c, rfl, List.mem_singleton_self c, ?_⟩
    intro v hv
    rw [List.mem_singleton.1 hv]
    exact h.refl c
  | cons w vs ih =>
    obtain ⟨d, hd, hsel, hw, hc⟩ := h.choice w c
    obtain ⟨b, hb, hmem, hall⟩ := ih d
    have hdb := hall d List.mem_cons_self
    refine ⟨b, by rw [List.foldl_cons, hd, hb], ?_, ?_⟩
    · rcases List.mem_cons.1 hmem with rfl | hmem
      · rcases hsel with rfl | rfl
        · exact List.mem_cons_of_mem c List.mem_cons_self
        · exact List.mem_cons_self
      · exact List.mem_cons_of_mem c (List.mem_cons_of_mem w hmem)
    · intro v hv
      rcases List.mem_cons.1 hv with rfl | hv
      · exact h.trans _ _ _ hc hdb
      · rcases List.mem_cons.1 hv with rfl | hv
        · exact h.trans _ _ _ hw hdb
        · exact hall v (List.mem_cons_of_mem d hv)

/-- The fold of a selecting update over a list is none for the empty list, and otherwise a
member that no member beats. -/
theorem Selects.foldl_none (h : Selects better update) (vs : List β) :
    (vs = [] ∧ vs.foldl (fun o v => update v o) none = none) ∨
      ∃ b, vs.foldl (fun o v => update v o) none = some b ∧ b ∈ vs ∧ ∀ v ∈ vs, better v b := by
  cases vs with
  | nil => exact .inl ⟨rfl, rfl⟩
  | cons v vs =>
    obtain ⟨b, hb, hrest⟩ := h.foldl_some v vs
    exact .inr ⟨b, by rw [List.foldl_cons, h.first, hb], hrest⟩

theorem Selects.foldl_eq_some (h : Selects better update) {vs : List β}
    (hb : vs.foldl (fun o v => update v o) none = some b) : b ∈ vs ∧ ∀ v ∈ vs, better v b := by
  rcases h.foldl_none vs with ⟨_, hn⟩ | ⟨b', hb', hrest⟩
  · rw [hn] at hb
    cases hb
  · rw [hb'] at hb
    cases hb
    exact hrest

theorem Selects.foldl_isSome (h : Selects better update) (vs : List β) :
    (vs.foldl (fun o v => update v o) none).isSome ↔ ∃ v, v ∈ vs := by
  rcases h.foldl_none vs with ⟨rfl, hn⟩ | ⟨b, hb, hmem, _⟩
  · simp only [hn, Option.isSome_none, Bool.false_eq_true, List.not_mem_nil, exists_false]
  · simp only [hb, Option.isSome_some, true_iff]
    exact ⟨b, hmem⟩

end

section
variable {K α : Type} [Ord K]

def joinMap (join : α → α → α) (m m' : Std.TreeMap K α) : Std.TreeMap K α :=
  m'.foldl (fun m k v => m.alter k fun u => u.merge join (some v)) m

end

end Library
