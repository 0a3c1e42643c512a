import Roam.Roster
import Roam.Library.GapRun
import Roam.Library.TreeFold

namespace Roam
set_option autoImplicit true
open Library

theorem mem_validEntries :
    e ∈ validEntries entries ↔ e ∈ entries ∧ e.subjectPeer = derivedPeerId e.subjectKey := by
  simp only [validEntries, List.mem_filter, decide_eq_true_eq]

/-- The fixpoint loop computes the closure of the founder under admin grants. -/
theorem mem_everAdmin : a ∈ everAdmin valid founder ↔ Reach (fun a => founder = some a)
        (fun a b => ∃ e ∈ valid, e.op.grantsAdmin = true ∧ e.addedBy = a ∧ e.subjectPeer = b)
        a := by
  have h : a ∈ saturate (rulePass (fun e => e.op.grantsAdmin) RosterEntry.addedBy
      RosterEntry.subjectPeer valid) (valid.length + 1) founder.toFinset ↔ _ :=
    mem_saturate_rulePass (Nat.lt_succ_self valid.length)
  simp only [Option.mem_toFinset, Option.mem_def] at h
  exact h

def grantItem (e : RosterEntry) : Option (UInt64 × UInt64) :=
  if e.op.grant?.isSome then some (e.subjectPeer, e.lamport) else none

theorem grantLamports_getElem? (admitted : List RosterEntry) (s : UInt64) :
    (grantLamports admitted)[s]? =
      (valuesAt grantItem s admitted).foldl (fun o l => some ((o.getD ∅).insert l)) none := by
  apply getElem?_foldl id
  · intro m e h
    rw [grantItem, ite_eq_right_iff] at h
    exact if_neg fun hg => Option.some_ne_none _ (h hg)
  · intro m e k l h
    rw [grantItem, Option.ite_none_right_eq_some, Option.some.injEq, Prod.mk.injEq] at h
    obtain ⟨hg, rfl, rfl⟩ := h
    exact if_pos hg

theorem mem_grantItems : l ∈ valuesAt grantItem s admitted ↔
      ∃ e ∈ admitted, e.op.grant?.isSome ∧ e.subjectPeer = s ∧ e.lamport = l := by
  rw [mem_valuesAt]
  simp only [grantItem, Option.ite_none_right_eq_some, Option.some.injEq, Prod.mk.injEq]

theorem foldl_insert_some (vs : List UInt64) (S : Std.TreeSet UInt64) :
    ∃ S', vs.foldl (fun o l => some ((o.getD ∅).insert l)) (some S) = some S' ∧
      ∀ m, m ∈ S' ↔ m ∈ S ∨ m ∈ vs := by
  induction vs generalizing S with
  | nil => exact ⟨S, rfl, by simp only [List.not_mem_nil, or_false, implies_true]⟩
  | cons v vs ih =>
    obtain ⟨S', hS', hmem⟩ := ih (S.insert v)
    refine ⟨S', hS', ?_⟩
    intro m
    rw [hmem, Std.TreeSet.mem_insert, Std.LawfulEqOrd.compare_eq_iff_eq, List.mem_cons, eq_comm]
    tauto

theorem grantLamports_spec (admitted : List RosterEntry) (s : UInt64) :
    ((∀ l, l ∉ valuesAt grantItem s admitted) ∧ (grantLamports admitted)[s]? = none) ∨
      ∃ S, (grantLamports admitted)[s]? = some S ∧ (∃ l, l ∈ S) ∧
        ∀ l, l ∈ S ↔ l ∈ valuesAt grantItem s admitted := by
  rw [grantLamports_getElem?]
  cases hvs : valuesAt grantItem s admitted with
  | nil => exact .inl ⟨fun l => List.not_mem_nil, rfl⟩
  | cons v vs =>
    obtain ⟨S, hS, hmem⟩ := foldl_insert_some vs (Std.TreeSet.insert ∅ v)
    have hv (m : UInt64) : m ∈ (∅ : Std.TreeSet UInt64).insert v ↔ m = v := by
      rw [Std.TreeSet.mem_insert, Std.LawfulEqOrd.compare_eq_iff_eq, eq_comm]
      simp only [Std.TreeSet.not_mem_emptyc, or_false]
    refine .inr ⟨S, hS, ⟨v, (hmem v).2 (.inl ((hv v).2 rfl))⟩, ?_⟩
    intro l
    rw [hmem, hv, List.mem_cons]

theorem ceilingScan_succ (i : Nat) (c : UInt64) (ls : List UInt64) :
    ceilingScan (i + 1) c ls = runCeiling (· + 1) c ls := by
  induction ls generalizing i c with
  | nil => rfl
  | cons l ls ih => simp only [ceilingScan, runCeiling, Nat.add_one_ne_zero, false_or, ih]

theorem ceilingScan_cons (l : UInt64) (ls : List UInt64) :
    ceilingScan 0 0 (l :: ls) = runCeiling (· + 1) l ls := by
  simp only [ceilingScan, true_or, ↓reduceIte, ceilingScan_succ]

theorem lt_add_one_le (a b : UInt64) (h : a < b) : a < a + 1 ∧ a + 1 ≤ b := by
  rw [UInt64.lt_iff_toNat_lt] at h ⊢
  rw [UInt64.le_iff_toNat_le, UInt64.toNat_add, UInt64.toNat_one]
  have hb := UInt64.toNat_lt b
  omega

theorem treeSet_ordered (S : Std.TreeSet UInt64) : S.toList.Pairwise (· < ·) := by
  apply List.Pairwise.imp ?_ S.ordered_toList
  intro a b h
  exact compare_lt_iff_lt.1 h

/-- Among the grants of a subject, those at or below its ceiling are those of the gap-free run
that starts at its least granted lamport. -/
theorem le_ceiling_iff (h : l ∈ valuesAt grantItem s admitted) :
    l ≤ (ceilings admitted).getD s 0 ↔ InRun (· ∈ valuesAt grantItem s admitted) l := by
  rcases grantLamports_spec admitted s with ⟨hn, _⟩ | ⟨S, hS, ⟨m, hm⟩, hmem⟩
  · exact (hn l h).elim
  · rw [ceilings, Std.TreeMap.getD_eq_getD_getElem?, Std.TreeMap.getElem?_map, hS]
    simp only [Option.map_some, Option.getD_some]
    have hlist (k : UInt64) : k ∈ S.toList ↔ k ∈ valuesAt grantItem s admitted := by
      rw [Std.TreeSet.mem_toList, hmem]
    rw [← InRun.congr hlist]
    have hord := treeSet_ordered S
    cases hl : S.toList with
    | nil =>
      rw [← hlist, hl] at h
      cases h
    | cons c ls =>
      rw [hl] at hord hlist
      rw [ceilingScan_cons]
      exact (inRun_iff_le_runCeiling lt_add_one_le hord ((hlist l).2 h)).symm

theorem foldEntry_keys (c : Std.TreeMap UInt64 UInt64) (acc : RosterFold) (e : RosterEntry) :
    (foldEntry c acc e).keys = acc.keys.alter e.subjectPeer (leastKey e.subjectKey) := by
  unfold foldEntry
  cases e.op with
  | add role => dsimp only; split <;> rfl
  | setRole role => dsimp only; split <;> rfl
  | revoke => rfl
  | setName name => rfl

theorem leastKey_selects : Selects (fun v b => b ≤ v) leastKey where
  first _ := rfl
  choice v c := by
    rw [leastKey]
    split
    · rename_i h
      exact ⟨v, rfl, .inl rfl, le_refl v, h.le⟩
    · rename_i h
      exact ⟨c, rfl, .inr rfl, not_lt.1 h, le_refl c⟩
  refl := le_refl
  trans _ _ _ hab hbc := hbc.trans hab

def keyItem (e : RosterEntry) : Option (UInt64 × Bytes32) := some (e.subjectPeer, e.subjectKey)

theorem foldl_keys (c : Std.TreeMap UInt64 UInt64) (admitted : List RosterEntry) (s : UInt64) :
    (admitted.foldl (foldEntry c) ⟨∅, ∅, ∅⟩).keys[s]? =
      (valuesAt keyItem s admitted).foldl (fun o v => leastKey v o) none := by
  apply getElem?_foldl RosterFold.keys
  · intro acc e h
    cases h
  · intro acc e k v h
    cases h
    exact foldEntry_keys c acc e

theorem mem_keyItems : k ∈ valuesAt keyItem s admitted ↔
      ∃ e ∈ admitted, e.subjectPeer = s ∧ e.subjectKey = k := by
  rw [mem_valuesAt]
  simp only [keyItem, Option.some.injEq, Prod.mk.injEq]

def roleItem (c : Std.TreeMap UInt64 UInt64) (e : RosterEntry) :
    Option (UInt64 × UInt64 × UInt64 × Role) :=
  e.op.grant?.bind fun role =>
    if e.lamport ≤ c.getD e.subjectPeer 0 then
      some (e.subjectPeer, e.lamport, e.addedBy, role)
    else none

theorem foldEntry_roles (c : Std.TreeMap UInt64 UInt64) (acc : RosterFold) (e : RosterEntry) :
    (foldEntry c acc e).roles = match roleItem c e with
      | some p => acc.roles.alter p.1 (newestRole p.2)
      | none => acc.roles := by
  unfold foldEntry roleItem
  cases e.op with
  | add role =>
    simp only [RosterOp.grant?, Option.bind_some, gt_iff_lt]
    by_cases h : e.lamport ≤ c.getD e.subjectPeer 0
    · simp only [h, not_lt.2 h, ↓reduceIte]
    · simp only [h, not_le.1 h, ↓reduceIte]
  | setRole role =>
    simp only [RosterOp.grant?, Option.bind_some, gt_iff_lt]
    by_cases h : e.lamport ≤ c.getD e.subjectPeer 0
    · simp only [h, not_lt.2 h, ↓reduceIte]
    · simp only [h, not_le.1 h, ↓reduceIte]
  | revoke => rfl
  | setName name => rfl

def NotNewer (v b : UInt64 × UInt64 × Role) : Prop :=
  toLex (v.1, v.2.1) < toLex (b.1, b.2.1) ∨ (v.1, v.2.1) = (b.1, b.2.1) ∧ b.2.2 ≤ v.2.2

theorem newestRole_selects : Selects NotNewer newestRole where
  first _ := rfl
  choice v c := by
    obtain ⟨vl, va, vr⟩ := v
    obtain ⟨cl, ca, cr⟩ := c
    simp only [newestRole]
    split
    · rename_i h
      exact ⟨_, rfl, .inl rfl, .inr ⟨rfl, le_refl _⟩, .inl h⟩
    · rename_i hlt
      split
      · rename_i heq
        cases heq
        refine ⟨_, rfl, ?_, .inr ⟨rfl, min_le_right cr vr⟩, .inr ⟨rfl, min_le_left cr vr⟩⟩
        rcases min_choice cr vr with hm | hm
        · exact .inr (by rw [hm])
        · exact .inl (by rw [hm])
      · rename_i hne
        have hvc := lt_of_le_of_ne (not_lt.1 hlt) fun h => hne (toLex_inj.1 h)
        exact ⟨_, rfl, .inr rfl, .inl hvc, .inr ⟨rfl, le_refl _⟩⟩
  refl v := .inr ⟨rfl, le_refl _⟩
  trans a b c hab hbc := by
    rcases hab with hab | ⟨hab, hr⟩
    · rcases hbc with hbc | ⟨hbc, _⟩
      · exact .inl (hab.trans hbc)
      · exact .inl (hbc ▸ hab)
    · rcases hbc with hbc | ⟨hbc, hr'⟩
      · exact .inl (hab ▸ hbc)
      · exact .inr ⟨hab.trans hbc, hr'.trans hr⟩

theorem foldl_roles (c : Std.TreeMap UInt64 UInt64) (admitted : List RosterEntry) (s : UInt64) :
    (admitted.foldl (foldEntry c) ⟨∅, ∅, ∅⟩).roles[s]? =
      (valuesAt (roleItem c) s admitted).foldl (fun o v => newestRole v o) none := by
  apply getElem?_foldl RosterFold.roles
  · intro acc e h
    rw [foldEntry_roles, h]
  · intro acc e k v h
    rw [foldEntry_roles, h]

theorem mem_roleItems {c : Std.TreeMap UInt64 UInt64} :
    (l, a, r) ∈ valuesAt (roleItem c) s admitted ↔
      ∃ e ∈ admitted, e.op.grant? = some r ∧ e.lamport ≤ c.getD s 0 ∧ e.subjectPeer = s ∧
        e.lamport = l ∧ e.addedBy = a := by
  rw [mem_valuesAt]
  constructor
  · rintro ⟨e, he, h⟩
    simp only [roleItem, Option.bind_eq_some_iff, Option.ite_none_right_eq_some,
      Option.some.injEq, Prod.mk.injEq] at h
    obtain ⟨role, hg, hle, rfl, rfl, rfl, rfl⟩ := h
    exact ⟨e, he, hg, hle, rfl, rfl, rfl⟩
  · rintro ⟨e, he, hg, hle, rfl, rfl, rfl⟩
    refine ⟨e, he, ?_⟩
    simp only [roleItem, hg, Option.bind_some, hle, ↓reduceIte]

theorem foldEntry_revoked (c : Std.TreeMap UInt64 UInt64) (acc : RosterFold) (e : RosterEntry) :
    (foldEntry c acc e).revoked =
      if e.op = .revoke then insert e.subjectPeer acc.revoked else acc.revoked := by
  unfold foldEntry
  cases e.op with
  | add role => dsimp only; split <;> rfl
  | setRole role => dsimp only; split <;> rfl
  | revoke => rfl
  | setName name => rfl

theorem mem_foldl_revoked (c : Std.TreeMap UInt64 UInt64) (admitted : List RosterEntry)
    (acc : RosterFold) : s ∈ (admitted.foldl (foldEntry c) acc).revoked ↔
      s ∈ acc.revoked ∨ ∃ e ∈ admitted, e.op = .revoke ∧ e.subjectPeer = s := by
  induction admitted generalizing acc with
  | nil => simp only [List.foldl_nil, List.not_mem_nil, false_and, exists_false, or_false]
  | cons e admitted ih =>
    rw [List.foldl_cons, ih, foldEntry_revoked]
    by_cases h : e.op = .revoke
    · simp only [h, ↓reduceIte, Finset.mem_insert, List.exists_mem_cons_iff, true_and]
      rw [eq_comm, or_comm (a := e.subjectPeer = s), or_assoc]
    · simp only [h, ↓reduceIte, List.exists_mem_cons_iff, false_and, false_or]

def rosterRecord (entries : List RosterEntry) (founder : Option UInt64) (s : UInt64)
    (role : Role) : PeerRecord where
  peerId := s
  verifyingKey := (foldRoster entries founder).keys[s]!
  status := if s ∈ (foldRoster entries founder).revoked then .revoked else .active
  role := role
  name := (foldNames (validEntries entries))[s]?.map (·.2)

theorem mergeRoster_eq (entries : List RosterEntry) (founder : Option UInt64) :
    mergeRoster entries founder = (foldRoster entries founder).roles.toList.map fun p =>
        rosterRecord entries founder p.1 p.2.2.2 := by
  apply List.Pairwise.insertionSort_eq
  rw [List.pairwise_map]
  apply List.Pairwise.imp ?_ (foldRoster entries founder).roles.ordered_keys_toList
  intro a b h
  exact (compare_lt_iff_lt.1 h).le

theorem mergeRoster_ascending (entries : List RosterEntry) (founder : Option UInt64) :
    ((mergeRoster entries founder).map PeerRecord.peerId).Pairwise (· < ·) := by
  rw [mergeRoster_eq, List.map_map, List.pairwise_map]
  apply List.Pairwise.imp ?_ (foldRoster entries founder).roles.ordered_keys_toList
  intro a b h
  exact compare_lt_iff_lt.1 h

theorem mem_mergeRoster : rec ∈ mergeRoster entries founder ↔
      ∃ s w, (foldRoster entries founder).roles[s]? = some w ∧
        rosterRecord entries founder s w.2.2 = rec := by
  simp only [mergeRoster_eq, List.mem_map, Prod.exists, Std.TreeMap.mem_toList_iff_getElem?_eq_some]

end Roam
