import Mathlib

namespace Library
set_option autoImplicit true

/-- `m` lies in the gap-free run of `S` that starts at the least member of `S`: every value
between some member and `m` is a member. -/
def InRun [LE α] (S : α → Prop) (m : α) : Prop :=
  S m ∧ ∀ k, (∃ f, S f ∧ f ≤ k) → k ≤ m → S k

def GapFree [LE α] [LT α] (S : α → Prop) (l : α) : Prop :=
  ∀ f k, S f → f ≤ k → k < l → S k

section
variable [LinearOrder α] {S T : α → Prop}

theorem InRun.congr (hST : ∀ m, S m ↔ T m) : InRun S m ↔ InRun T m := by
  have he : S = T := funext fun m => propext (hST m)
  rw [he]

theorem inRun_top_iff (hT : ∀ m, T m ↔ S m ∨ m = l) : InRun T l ↔ GapFree S l := by
  constructor
  · intro h f k hf hfk hkl
    exact ((hT k).1 (h.2 k ⟨f, (hT f).2 (.inl hf), hfk⟩ hkl.le)).resolve_right hkl.ne
  · intro h
    refine ⟨(hT l).2 (.inr rfl), ?_⟩
    intro k hk hkl
    obtain ⟨f, hf, hfk⟩ := hk
    by_cases he : k = l
    · exact (hT k).2 (.inr he)
    · have hkl' : k < l := lt_of_le_of_ne hkl he
      have hfl : f ≠ l := (hfk.trans_lt hkl').ne
      exact (hT k).2 (.inl (h f k (((hT f).1 hf).resolve_right hfl) hfk hkl'))

theorem inRun_below_iff (hT : ∀ m, T m ↔ S m ∨ m = l) (hm : m < l) : InRun T m ↔ InRun S m := by
  have hiff (k : α) (hk : k ≤ m) : T k ↔ S k := by
    rw [hT, or_iff_left (hk.trans_lt hm).ne]
  have hbelow (k : α) (hk : k ≤ m) : (∃ f, T f ∧ f ≤ k) ↔ ∃ f, S f ∧ f ≤ k := by
    constructor
    · intro h
      obtain ⟨f, hf, hfk⟩ := h
      exact ⟨f, (hiff f (hfk.trans hk)).1 hf, hfk⟩
    · intro h
      obtain ⟨f, hf, hfk⟩ := h
      exact ⟨f, (hiff f (hfk.trans hk)).2 hf, hfk⟩
  constructor
  · intro h
    exact ⟨(hiff m le_rfl).1 h.1, fun k hk hkm =>
      (hiff k hkm).1 (h.2 k ((hbelow k hkm).2 hk) hkm)⟩
  · intro h
    exact ⟨(hiff m le_rfl).2 h.1, fun k hk hkm =>
      (hiff k hkm).2 (h.2 k ((hbelow k hkm).1 hk) hkm)⟩

/-- Walk an ascending list from `c` while each value is at most the successor of the last. -/
def runCeiling (next : α → α) : α → List α → α
  | c, [] => c
  | c, l :: ls => if l ≤ next c then runCeiling next l ls else c

variable {next : α → α}

theorem runCeiling_mem (c : α) (ls : List α) : runCeiling next c ls ∈ c :: ls := by
  induction ls generalizing c with
  | nil => exact List.mem_singleton_self c
  | cons l ls ih =>
    rw [runCeiling]
    split
    · exact List.mem_cons_of_mem c (ih l)
    · exact List.mem_cons_self

theorem le_runCeiling {c : α} {ls : List α} (hs : (c :: ls).Pairwise (· < ·)) :
    c ≤ runCeiling next c ls := by
  induction ls generalizing c with
  | nil => exact le_refl c
  | cons l ls ih =>
    rw [runCeiling]
    rw [List.pairwise_cons] at hs
    split
    · exact (hs.1 l List.mem_cons_self).le.trans (ih hs.2)
    · exact le_refl c

theorem mem_of_le_runCeiling (hnext : ∀ a b, a < b → a < next a ∧ next a ≤ b) {c : α}
    {ls : List α} (hs : (c :: ls).Pairwise (· < ·)) (hc : c ≤ k)
    (hk : k ≤ runCeiling next c ls) : k ∈ c :: ls := by
  induction ls generalizing c with
  | nil =>
    rw [le_antisymm hk hc]
    exact List.mem_singleton_self c
  | cons l ls ih =>
    rw [runCeiling] at hk
    have hlt := (List.pairwise_cons.1 hs).1 l List.mem_cons_self
    split at hk
    · rename_i hl
      by_cases hkl : l ≤ k
      · exact List.mem_cons_of_mem c (ih (List.pairwise_cons.1 hs).2 hkl hk)
      · rcases hc.lt_or_eq with hck | rfl
        · exact (hkl (hl.trans (hnext c k hck).2)).elim
        · exact List.mem_cons_self
    · rw [le_antisymm hk hc]
      exact List.mem_cons_self

theorem runCeiling_gap (hnext : ∀ a b, a < b → a < next a ∧ next a ≤ b) {c : α} {ls : List α}
    (hs : (c :: ls).Pairwise (· < ·)) (hm : m ∈ c :: ls) (hlt : runCeiling next c ls < m) :
    ∃ k, runCeiling next c ls ≤ k ∧ k ≤ m ∧ k ∉ c :: ls := by
  induction ls generalizing c with
  | nil =>
    rw [List.mem_singleton.1 hm] at hlt
    exact (lt_irrefl c hlt).elim
  | cons l ls ih =>
    have hcl := List.pairwise_cons.1 hs
    rw [runCeiling] at hlt ⊢
    split at hlt
    · rename_i hl
      rw [if_pos hl]
      have hle : l ≤ runCeiling next l ls := le_runCeiling hcl.2
      have hcm : c < m := (hcl.1 l List.mem_cons_self).trans_le (hle.trans hlt.le)
      have hm' : m ∈ l :: ls := (List.mem_cons.1 hm).resolve_left hcm.ne'
      obtain ⟨k, hk, hkm, hnot⟩ := ih hcl.2 hm' hlt
      refine ⟨k, hk, hkm, ?_⟩
      intro hmem
      rcases List.mem_cons.1 hmem with rfl | hmem
      · exact absurd ((hcl.1 l List.mem_cons_self).trans_le hle) hk.not_gt
      · exact hnot hmem
    · rename_i hl
      rw [if_neg hl]
      obtain ⟨hc, hcm⟩ := hnext c m hlt
      refine ⟨next c, hc.le, hcm, ?_⟩
      intro hmem
      rcases List.mem_cons.1 hmem with he | hmem
      · exact hc.ne' he
      · rcases List.mem_cons.1 hmem with he | hmem
        · exact hl he.ge
        · exact hl ((List.pairwise_cons.1 hcl.2).1 _ hmem).le

/-- The members of an ascending list at or below the end of the walk from its head are those
of the gap-free run. -/
theorem inRun_iff_le_runCeiling (hnext : ∀ a b, a < b → a < next a ∧ next a ≤ b) {c : α}
    {ls : List α} (hs : (c :: ls).Pairwise (· < ·)) (hm : m ∈ c :: ls) :
    InRun (· ∈ c :: ls) m ↔ m ≤ runCeiling next c ls := by
  have hmin : ∀ f ∈ c :: ls, c ≤ f := by
    intro f hf
    rcases List.mem_cons.1 hf with rfl | hf
    · exact le_refl f
    · exact ((List.pairwise_cons.1 hs).1 f hf).le
  constructor
  · intro h
    by_contra hlt
    obtain ⟨k, hk, hkm, hnot⟩ := runCeiling_gap hnext hs hm (not_le.1 hlt)
    exact hnot (h.2 k ⟨_, runCeiling_mem c ls, hk⟩ hkm)
  · intro hle
    refine ⟨hm, ?_⟩
    rintro k ⟨f, hf, hfk⟩ hkm
    exact mem_of_le_runCeiling hnext hs ((hmin f hf).trans hfk) (hkm.trans hle)

end

end Library
