import Roam.Library.Saturation

namespace Library
set_option autoImplicit true

structure HashOrder (κ V : Type) [Ord κ] where
  keys : Std.TreeMap κ V → List κ
  perm : ∀ known, (keys known).Perm known.keys

def HashOrder.ascending (κ V : Type) [Ord κ] : HashOrder κ V where
  keys known := known.keys
  perm _ := .refl _

/-- A search that reads a node under the label known for it, and learns nodes with their labels
from what it reads. -/
structure Exploration (κ V E : Type) where
  read : κ → V → List E
  learn : E → Option (κ × V)

section
variable {κ V E : Type} [Ord κ] [DecidableEq κ] [Inhabited V]

def Exploration.learnEntry (x : Exploration κ V E) (known : Std.TreeMap κ V) (e : E) :
    Std.TreeMap κ V :=
  match x.learn e with
  | some (k, v) => known.insertIfNew k v
  | none => known

/-- Visit known nodes that are not yet processed, in any order, until none is left. -/
def Exploration.explore (x : Exploration κ V E) (order : HashOrder κ V) :
    Nat → Std.TreeMap κ V → Finset κ → List E → List E
  | 0, _, _, out => out
  | fuel + 1, known, processed, out =>
    match (order.keys known).find? (fun k => k ∉ processed) with
    | none => out
    | some k =>
      let entries := x.read k known[k]!
      x.explore order fuel (entries.foldl x.learnEntry known) (insert k processed) (out ++ entries)

/-- A search that picks, as long as there is one, any known node that is not yet processed: the
nodes in the order of their visits, and what was read there. -/
inductive Exploration.Walk (x : Exploration κ V E) :
    Std.TreeMap κ V → Finset κ → List κ → List E → Prop
  | done (known : Std.TreeMap κ V) (processed : Finset κ) (h : ∀ k ∈ known, k ∈ processed) :
      x.Walk known processed [] []
  | visit (k : κ) (hk : k ∈ known) (hnew : k ∉ processed)
      (rest : x.Walk ((x.read k known[k]!).foldl x.learnEntry known) (insert k processed)
        visited out) :
      x.Walk known processed (k :: visited) (x.read k known[k]! ++ out)

theorem Exploration.Walk.notMem {x : Exploration κ V E} (h : x.Walk known processed visited out)
    (hk : k ∈ visited) : k ∉ processed := by
  induction h with
  | done known processed h => cases hk
  | visit k' hk' hnew rest ih =>
    cases List.mem_cons.1 hk with
    | inl heq => exact heq ▸ hnew
    | inr hk => exact fun hmem => ih hk (Finset.mem_insert_of_mem hmem)

theorem Exploration.Walk.nodup {x : Exploration κ V E} (h : x.Walk known processed visited out) :
    visited.Nodup := by
  induction h with
  | done known processed h => exact List.nodup_nil
  | visit k hk hnew rest ih =>
    apply List.nodup_cons.2
    exact ⟨fun hmem => rest.notMem hmem (Finset.mem_insert_self k _), ih⟩

end

theorem getElem!_of_label [Ord κ] [Std.TransOrd κ] [Inhabited V] {known : Std.TreeMap κ V}
    {val : κ → V}
    (h : ∀ k v, known[k]? = some v → v = val k) (hk : k ∈ known) : known[k]! = val k := by
  rw [Std.TreeMap.getElem!_eq_get!_getElem?]
  obtain ⟨v, hsome⟩ := Option.isSome_iff_exists.1 (Std.TreeMap.mem_iff_isSome_getElem?.1 hk)
  rw [hsome]
  exact h k v hsome

section
variable {κ V E : Type} [Ord κ]
variable {x : Exploration κ V E} {seeds : Std.TreeMap κ V} {val : κ → V}

def Exploration.Edge (x : Exploration κ V E) (val : κ → V) (a b : κ) : Prop :=
  ∃ e ∈ x.read a (val a), ∃ v, x.learn e = some (b, v)

structure Exploration.Labelled (x : Exploration κ V E) (val : κ → V) (seeds : Std.TreeMap κ V) :
    Prop where
  seeds : ∀ k v, seeds[k]? = some v → v = val k
  learns : ∀ a, ∀ e ∈ x.read a (val a), ∀ k v, x.learn e = some (k, v) → v = val k

/-- Labels are a function of the node, except that what is learned of a seed is not looked at. -/
structure Exploration.Settled (x : Exploration κ V E) (val : κ → V) (seeds : Std.TreeMap κ V) :
    Prop where
  start : ∀ k v, seeds[k]? = some v → v = val k
  learns : ∀ a, ∀ e ∈ x.read a (val a), ∀ k v, x.learn e = some (k, v) → k ∈ seeds ∨ v = val k

theorem Exploration.Labelled.settled (h : x.Labelled val seeds) : x.Settled val seeds :=
  ⟨h.seeds, fun a e he k v hl => .inr (h.learns a e he k v hl)⟩

structure Exploration.Inv (x : Exploration κ V E) (val : κ → V) (seeds known : Std.TreeMap κ V)
    (processed : Finset κ) (out : List E) : Prop where
  label : ∀ k v, known[k]? = some v → v = val k
  reach : ∀ k ∈ known, Reach (· ∈ seeds) (x.Edge val) k
  base : ∀ k ∈ seeds, k ∈ known
  visited : ∀ k ∈ processed, k ∈ known
  closed : ∀ a ∈ processed, ∀ b, x.Edge val a b → b ∈ known
  entries : ∀ e, e ∈ out ↔ ∃ a ∈ processed, e ∈ x.read a (val a)

theorem Exploration.Inv.start (hv : x.Settled val seeds) : x.Inv val seeds seeds ∅ [] where
  label := hv.start
  reach k hk := .base hk
  base k hk := hk
  visited k hk := absurd hk (Finset.notMem_empty k)
  closed a ha := absurd ha (Finset.notMem_empty a)
  entries e := by simp only [List.not_mem_nil, Finset.notMem_empty, false_and, exists_false]

variable [Std.TransOrd κ] [Std.LawfulEqOrd κ] {known : Std.TreeMap κ V}

theorem Exploration.mem_learnEntry :
    k ∈ x.learnEntry known e ↔ k ∈ known ∨ ∃ v, x.learn e = some (k, v) := by
  rw [learnEntry]
  cases h : x.learn e with
  | none => simp only [reduceCtorEq, exists_false, or_false]
  | some p =>
    obtain ⟨k', v⟩ := p
    simp only [Std.TreeMap.mem_insertIfNew, Std.LawfulEqOrd.compare_eq_iff_eq, Option.some.injEq,
      Prod.mk.injEq, exists_and_left, exists_eq', and_true]
    exact or_comm

theorem Exploration.mem_foldl_learnEntry (es : List E) :
    k ∈ es.foldl x.learnEntry known ↔ k ∈ known ∨ ∃ e ∈ es, ∃ v, x.learn e = some (k, v) := by
  induction es generalizing known with
  | nil => simp only [List.foldl_nil, List.not_mem_nil, false_and, exists_false, or_false]
  | cons e es ih =>
    rw [List.foldl_cons, ih, mem_learnEntry]
    simp only [List.mem_cons, exists_eq_or_imp, or_assoc]

theorem Exploration.label_foldl (es : List E) (hk : ∀ k v, known[k]? = some v → v = val k)
    (hl : ∀ e ∈ es, ∀ k v, x.learn e = some (k, v) → k ∈ known ∨ v = val k) :
    ∀ k v, (es.foldl x.learnEntry known)[k]? = some v → v = val k := by
  induction es generalizing known with
  | nil => exact hk
  | cons e es ih =>
    apply ih
    · intro k v h
      rw [learnEntry] at h
      cases he : x.learn e with
      | none =>
        rw [he] at h
        exact hk k v h
      | some p =>
        obtain ⟨k', v'⟩ := p
        simp only [he, Std.TreeMap.getElem?_insertIfNew] at h
        by_cases hc : compare k' k = .eq ∧ k' ∉ known
        · rw [if_pos hc] at h
          cases h
          rw [← Std.LawfulEqOrd.compare_eq_iff_eq.1 hc.1]
          exact (hl e List.mem_cons_self k' _ he).resolve_left hc.2
        · rw [if_neg hc] at h
          exact hk k v h
    · intro e' he' k v hlearn
      cases hl e' (List.mem_cons_of_mem e he') k v hlearn with
      | inl hknown => exact .inl (mem_learnEntry.2 (.inl hknown))
      | inr hlabel => exact .inr hlabel

variable [DecidableEq κ] [Inhabited V]

theorem Exploration.Inv.visit (hv : x.Settled val seeds)
    (h : x.Inv val seeds known processed out) (hk : k ∈ known) :
    x.Inv val seeds ((x.read k known[k]!).foldl x.learnEntry known) (insert k processed)
      (out ++ x.read k known[k]!) := by
  rw [getElem!_of_label h.label hk]
  exact {
    label := label_foldl _ h.label fun e he b v hl => (hv.learns k e he b v hl).imp_left (h.base b)
    reach := by
      intro b hb
      cases (mem_foldl_learnEntry _).1 hb with
      | inl hb => exact h.reach b hb
      | inr hb => exact .step (h.reach k hk) hb
    base := fun b hb => (mem_foldl_learnEntry _).2 (.inl (h.base b hb))
    visited := by
      intro b hb
      cases Finset.mem_insert.1 hb with
      | inl hb => exact (mem_foldl_learnEntry _).2 (.inl (hb ▸ hk))
      | inr hb => exact (mem_foldl_learnEntry _).2 (.inl (h.visited b hb))
    closed := by
      intro a ha b hab
      cases Finset.mem_insert.1 ha with
      | inl ha =>
        subst ha
        exact (mem_foldl_learnEntry _).2 (.inr hab)
      | inr ha => exact (mem_foldl_learnEntry _).2 (.inl (h.closed a ha b hab))
    entries := by
      intro e
      simp only [List.mem_append, h.entries, Finset.mem_insert, exists_eq_or_imp]
      exact or_comm }

theorem Exploration.Walk.out_eq (hv : x.Settled val seeds) (h : x.Walk known processed visited out)
    (hinv : x.Inv val seeds known processed before) :
    out = visited.flatMap fun a => x.read a (val a) := by
  induction h generalizing before with
  | done known processed h => rfl
  | visit k hk hnew rest ih =>
    rw [List.flatMap_cons, ← ih (hinv.visit hv hk), getElem!_of_label hinv.label hk]

theorem Exploration.Walk.mem_iff (hv : x.Settled val seeds) (h : x.Walk known processed visited out)
    (hinv : x.Inv val seeds known processed before) :
    (k ∈ processed ∨ k ∈ visited) ↔ Reach (· ∈ seeds) (x.Edge val) k := by
  induction h generalizing before with
  | done known processed hall =>
    rw [or_iff_left List.not_mem_nil]
    constructor
    · exact fun hk => hinv.reach k (hinv.visited k hk)
    · intro hk
      apply Reach.least hk
      · exact fun b hb => hall b (hinv.base b hb)
      · exact fun b c hb hbc => hall c (hinv.closed b hb c hbc)
  | visit k' hk' hnew rest ih =>
    rw [← ih (hinv.visit hv hk'), List.mem_cons, Finset.mem_insert, or_left_comm, or_assoc]

theorem Exploration.explore_walk (hv : x.Settled val seeds) (order : HashOrder κ V)
    {nodes : Finset κ} (hn : ∀ k, Reach (· ∈ seeds) (x.Edge val) k → k ∈ nodes)
    (h : x.Inv val seeds known processed before) (hf : nodes.card < processed.card + fuel) :
    ∃ visited out, x.Walk known processed visited out ∧
      x.explore order fuel known processed before = before ++ out := by
  induction fuel generalizing known processed before with
  | zero =>
    have hle := Finset.card_le_card fun k hk => hn k (h.reach k (h.visited k hk))
    omega
  | succ fuel ih =>
    rw [explore]
    cases hfind : (order.keys known).find? (fun k => k ∉ processed) with
    | some k =>
      have hmem : k ∈ known := by
        rw [← Std.TreeMap.mem_keys]
        exact (order.perm known).mem_iff.1 (List.mem_of_find?_eq_some hfind)
      have hnew : k ∉ processed := by
        simpa only [decide_eq_true_eq] using List.find?_some hfind
      have hfuel : nodes.card < (insert k processed).card + fuel := by
        rw [Finset.card_insert_of_notMem hnew]
        omega
      obtain ⟨visited, out, hwalk, hout⟩ := ih (h.visit hv hmem) hfuel
      refine ⟨k :: visited, _, .visit k hmem hnew hwalk, ?_⟩
      rw [← List.append_assoc]
      exact hout
    | none =>
      refine ⟨[], [], .done known processed fun k hk => ?_, (List.append_nil before).symm⟩
      rw [List.find?_eq_none] at hfind
      have hk' := hfind k ((order.perm known).mem_iff.2 (Std.TreeMap.mem_keys.2 hk))
      simpa only [decide_eq_true_eq, not_not] using hk'

/-- With labels a function of the node and enough fuel, an exploration in any order reads exactly
the nodes that are reachable from its seeds. -/
theorem Exploration.mem_explore (hv : x.Labelled val seeds) (order : HashOrder κ V)
    {nodes : Finset κ} (hn : ∀ k, Reach (· ∈ seeds) (x.Edge val) k → k ∈ nodes)
    (hf : nodes.card < fuel) : e ∈ x.explore order fuel seeds ∅ [] ↔
      ∃ a, Reach (· ∈ seeds) (x.Edge val) a ∧ e ∈ x.read a (val a) := by
  have hinv := Inv.start hv.settled
  have hfuel : nodes.card < (∅ : Finset κ).card + fuel := by
    rw [Finset.card_empty, Nat.zero_add]
    exact hf
  obtain ⟨visited, out, hwalk, hout⟩ := explore_walk hv.settled order hn hinv hfuel
  rw [hout, List.nil_append, hwalk.out_eq hv.settled hinv, List.mem_flatMap]
  have hreach (a : κ) : a ∈ visited ↔ Reach (· ∈ seeds) (x.Edge val) a := by
    rw [← hwalk.mem_iff hv.settled hinv, or_iff_right (Finset.notMem_empty a)]
  simp only [hreach]

end

end Library
