import Roam.Library.FileTree

namespace Library
set_option autoImplicit true
open FileTree

-- Every path whose last component is a name leads to a file in some tree. On its way through the
-- components the walk must never come to a place where it needs an entry to be a file and a
-- directory, or a link to two places. So each name is a link into a corridor of its own, and a
-- corridor is deeper than the number of times that the walk can go up in it.

section
variable (cs₀ : List String)

def freshName (i : Nat) : String :=
  String.ofList (List.replicate ((cs₀.map fun c => c.toList.length).sum + i + 1) 'u')

def corridorDepth : Nat := cs₀.length + 1

def corridor (i d : Nat) : Place := List.replicate d (freshName cs₀ i)

/-- The entries that the walk along some components passes, from a depth in a corridor on. -/
def doors : List String → Nat → Nat → List (Place × FileNode)
  | [], _, _ => []
  | c :: cs, i, d =>
    if c = "" ∨ c = "." then doors cs i d
    else if c = ".." then doors cs i (d - 1)
    else if cs = [] then [(c :: corridor cs₀ i d, .file [])]
    else
      (c :: corridor cs₀ i d,
        .link (absPath (List.replicate (corridorDepth cs₀) (freshName cs₀ (i + 1))))) ::
          doors cs (i + 1) (corridorDepth cs₀)

def corridors : List Place :=
  (List.range (cs₀.length + 1)).flatMap fun i =>
    (List.range (corridorDepth cs₀ + 1)).map (corridor cs₀ i)

end

section
variable {cs₀ : List String}

theorem freshName_toList (cs₀ : List String) (i : Nat) : (freshName cs₀ i).toList =
    List.replicate ((cs₀.map fun c => c.toList.length).sum + i + 1) 'u' := String.toList_ofList

theorem freshName_injective (h : freshName cs₀ i = freshName cs₀ j) : i = j := by
  have hlen := congrArg (fun s => s.toList.length) h
  simp only [freshName_toList, List.length_replicate] at hlen
  omega

theorem freshName_not_mem (i : Nat) : freshName cs₀ i ∉ cs₀ := by
  intro h
  have hle := List.single_le_sum (fun _ _ => Nat.zero_le _) _
    (List.mem_map_of_mem (f := fun c : String => c.toList.length) h)
  rw [freshName_toList, List.length_replicate] at hle
  omega

theorem freshName_entry (cs₀ : List String) (i : Nat) : EntryName (freshName cs₀ i) := by
  have hmem {c : Char} (h : c ∈ (freshName cs₀ i).toList) : c = 'u' :=
    List.eq_of_mem_replicate (freshName_toList cs₀ i ▸ h)
  have hu : 'u' ∈ (freshName cs₀ i).toList := by
    rw [freshName_toList]
    exact List.mem_replicate.2 ⟨Nat.succ_ne_zero _, rfl⟩
  refine ⟨?_, ?_, ?_, fun h => absurd (hmem h) (by decide), fun h => absurd (hmem h) (by decide)⟩
  · intro h
    rw [h] at hu
    exact absurd hu (by decide)
  · intro h
    rw [h] at hu
    exact absurd hu (by decide)
  · intro h
    rw [h] at hu
    exact absurd hu (by decide)

theorem corridor_tail (i d : Nat) : (corridor cs₀ i d).tail = corridor cs₀ i (d - 1) :=
  List.tail_replicate

theorem corridor_succ (i d : Nat) :
    freshName cs₀ i :: corridor cs₀ i d = corridor cs₀ i (d + 1) := List.replicate_succ.symm

theorem corridor_injective (h : corridor cs₀ i d = corridor cs₀ j e) (he : 1 ≤ e) : i = j := by
  have hlen := congrArg List.length h
  rw [corridor, corridor, List.length_replicate, List.length_replicate] at hlen
  subst hlen
  rw [corridor, corridor, List.replicate_inj] at h
  exact freshName_injective (h.2.resolve_left (Nat.one_le_iff_ne_zero.1 he))

theorem mem_corridors :
    p ∈ corridors cs₀ ↔ ∃ i d, i ≤ cs₀.length ∧ d ≤ corridorDepth cs₀ ∧ p = corridor cs₀ i d := by
  simp only [corridors, List.mem_flatMap, List.mem_range, List.mem_map, Nat.lt_succ_iff]
  constructor
  · rintro ⟨i, hi, d, hd, rfl⟩
    exact ⟨i, d, hi, hd, rfl⟩
  · rintro ⟨i, d, hi, hd, rfl⟩
    exact ⟨i, hi, d, hd, rfl⟩

/-- A state of the walk: at the root, or in a corridor and not so far up that the rest of the
components could lead out of it. -/
def Inside (cs₀ : List String) (cs : List String) (i d : Nat) : Prop :=
  i + cs.length ≤ cs₀.length ∧ d ≤ corridorDepth cs₀ ∧ (i = 0 ∧ d = 0 ∨ 1 ≤ i ∧ cs.length < d)

theorem Inside.stay (h : Inside cs₀ (c :: cs) i d) : Inside cs₀ cs i d := by
  simp only [Inside, List.length_cons] at h ⊢
  omega

theorem Inside.up (h : Inside cs₀ (c :: cs) i d) : Inside cs₀ cs i (d - 1) := by
  simp only [Inside, List.length_cons] at h ⊢
  omega

theorem Inside.enter (h : Inside cs₀ (c :: cs) i d) :
    Inside cs₀ cs (i + 1) (corridorDepth cs₀) := by
  simp only [Inside, corridorDepth, List.length_cons] at h ⊢
  omega

theorem mem_doors (hi : Inside cs₀ cs i d) (h : (p, x) ∈ doors cs₀ cs i d) :
    ∃ c ∈ cs, ∃ j e, p = c :: corridor cs₀ j e ∧ ¬ DirComponent c ∧ i ≤ j ∧ j ≤ cs₀.length ∧
      e ≤ corridorDepth cs₀ ∧ (j = 0 ∧ e = 0 ∨ 1 ≤ j ∧ 1 ≤ e) := by
  induction cs generalizing i d with
  | nil => cases h
  | cons c cs ih =>
    have hhere (hc : ¬ DirComponent c) : ∃ c' ∈ c :: cs, ∃ j e,
        c :: corridor cs₀ i d = c' :: corridor cs₀ j e ∧ ¬ DirComponent c' ∧ i ≤ j ∧
          j ≤ cs₀.length ∧ e ≤ corridorDepth cs₀ ∧ (j = 0 ∧ e = 0 ∨ 1 ≤ j ∧ 1 ≤ e) := by
      simp only [Inside, List.length_cons] at hi
      exact ⟨c, List.mem_cons_self, i, d, rfl, hc, le_rfl, by omega, hi.2.1, by omega⟩
    have hlater {i' d' : Nat} (hi' : Inside cs₀ cs i' d') (hle : i ≤ i')
        (h : (p, x) ∈ doors cs₀ cs i' d') : ∃ c' ∈ c :: cs, ∃ j e,
        p = c' :: corridor cs₀ j e ∧ ¬ DirComponent c' ∧ i ≤ j ∧
          j ≤ cs₀.length ∧ e ≤ corridorDepth cs₀ ∧ (j = 0 ∧ e = 0 ∨ 1 ≤ j ∧ 1 ≤ e) := by
      obtain ⟨c', hc', j, e, hp, hdir, hj, hrest⟩ := ih hi' h
      exact ⟨c', List.mem_cons_of_mem c hc', j, e, hp, hdir, hle.trans hj, hrest⟩
    rw [doors] at h
    split at h
    next => exact hlater hi.stay le_rfl h
    next hc =>
      split at h
      next => exact hlater hi.up le_rfl h
      next hdots =>
        rw [not_or] at hc
        have hdir : ¬ DirComponent c := not_or_intro hc.1 (not_or_intro hc.2 hdots)
        split at h
        next =>
          cases List.mem_singleton.1 h
          exact hhere hdir
        next =>
          cases List.mem_cons.1 h with
          | inl h =>
            cases h
            exact hhere hdir
          | inr h => exact hlater hi.enter (Nat.le_succ i) h

theorem lookup_doors (hi : Inside cs₀ cs i d) (h : (p, x) ∈ doors cs₀ cs i d) :
    (doors cs₀ cs i d).lookup p = some x := by
  induction cs generalizing i d with
  | nil => cases h
  | cons c cs ih =>
    rw [doors] at h ⊢
    split at h
    next hc =>
      rw [if_pos hc]
      exact ih hi.stay h
    next hc =>
      rw [if_neg hc]
      split at h
      next hdots =>
        rw [if_pos hdots]
        exact ih hi.up h
      next hdots =>
        rw [if_neg hdots]
        split at h
        next hlast =>
          rw [if_pos hlast]
          cases List.mem_singleton.1 h
          exact List.lookup_cons_self
        next hlast =>
          rw [if_neg hlast]
          cases List.mem_cons.1 h with
          | inl h =>
            cases h
            exact List.lookup_cons_self
          | inr h =>
            obtain ⟨c', _, j, e, rfl, _, hj, _, _, he⟩ := mem_doors hi.enter h
            have hne : c' :: corridor cs₀ j e ≠ c :: corridor cs₀ i d := by
              intro heq
              rw [List.cons.injEq] at heq
              have := corridor_injective heq.2.symm (by omega)
              omega
            rw [List.lookup_cons, beq_eq_false_iff_ne.2 hne]
            exact ih hi.enter h

variable (cs₀) in
def mazeNode (entry : String) (p : Place) : Option FileNode :=
  if p ∈ corridors cs₀ then some .dir
  else if p = [entry, freshName cs₀ 0] then some (.link "/")
  else (doors cs₀ cs₀ 0 0).lookup p

theorem inside_start (cs₀ : List String) : Inside cs₀ cs₀ 0 0 :=
  ⟨(Nat.zero_add _).le, Nat.zero_le _, .inl ⟨rfl, rfl⟩⟩

theorem corridor_mem (hi : i ≤ cs₀.length) (hd : d ≤ corridorDepth cs₀) :
    corridor cs₀ i d ∈ corridors cs₀ := mem_corridors.2 ⟨i, d, hi, hd, rfl⟩

theorem mazeNode_corridor (hi : i ≤ cs₀.length) (hd : d ≤ corridorDepth cs₀) :
    mazeNode cs₀ entry (corridor cs₀ i d) = some .dir := by
  rw [mazeNode, if_pos (corridor_mem hi hd)]

theorem not_mem_corridors (hc : c ∈ cs₀) (p : Place) : c :: p ∉ corridors cs₀ := by
  intro h
  obtain ⟨i, d, _, _, heq⟩ := mem_corridors.1 h
  have hmem : c ∈ corridor cs₀ i d := heq ▸ List.mem_cons_self
  exact freshName_not_mem i (List.eq_of_mem_replicate hmem ▸ hc)

theorem mazeNode_door (h : (p, x) ∈ doors cs₀ cs₀ 0 0) : mazeNode cs₀ entry p = some x := by
  obtain ⟨c, hc, j, e, rfl, _, _, _, _, he⟩ := mem_doors (inside_start cs₀) h
  have hlink : c :: corridor cs₀ j e ≠ [entry, freshName cs₀ 0] := by
    intro heq
    rw [List.cons.injEq] at heq
    have hone : corridor cs₀ j e = corridor cs₀ 0 1 := heq.2
    have hlen := congrArg List.length hone
    rw [corridor, corridor, List.length_replicate, List.length_replicate] at hlen
    have := corridor_injective hone le_rfl
    omega
  rw [mazeNode, if_neg (not_mem_corridors hc _), if_neg hlink]
  exact lookup_doors (inside_start cs₀) h

theorem mazeNode_isSome (h : (mazeNode cs₀ entry p).isSome) :
    p ∈ corridors cs₀ ∨ p = [entry, freshName cs₀ 0] ∨ ∃ x, (p, x) ∈ doors cs₀ cs₀ 0 0 := by
  rw [mazeNode] at h
  split at h
  next hp => exact .inl hp
  next =>
    split at h
    next hp => exact .inr (.inl hp)
    next =>
      obtain ⟨x, hx⟩ := Option.isSome_iff_exists.1 h
      obtain ⟨l₁, l₂, heq, _⟩ := List.lookup_eq_some_iff.1 hx
      exact .inr (.inr ⟨x, heq ▸ List.mem_append_right l₁ List.mem_cons_self⟩)

theorem mazeNode_entry (hcs : ∀ c ∈ cs₀, '/' ∉ c.toList ∧ '\x00' ∉ c.toList)
    (hentry : EntryName entry) (h : (mazeNode cs₀ entry (name :: dir)).isSome) :
    mazeNode cs₀ entry dir = some .dir ∧ EntryName name := by
  rcases mazeNode_isSome h with hp | hp | ⟨x, hp⟩
  · obtain ⟨i, d, hi, hd, heq⟩ := mem_corridors.1 hp
    have htail : dir = corridor cs₀ i (d - 1) := by rw [← corridor_tail, ← heq, List.tail_cons]
    have hname : name = freshName cs₀ i :=
      List.eq_of_mem_replicate (heq ▸ List.mem_cons_self : name ∈ corridor cs₀ i d)
    rw [htail, hname]
    exact ⟨mazeNode_corridor hi ((Nat.sub_le d 1).trans hd), freshName_entry cs₀ i⟩
  · cases hp
    have hdepth : 1 ≤ corridorDepth cs₀ := Nat.succ_pos _
    exact ⟨@mazeNode_corridor cs₀ 0 1 _ (Nat.zero_le _) hdepth, hentry⟩
  · obtain ⟨c, hc, j, e, heq, hdir, _, hj, he, _⟩ := mem_doors (inside_start cs₀) hp
    cases heq
    refine ⟨mazeNode_corridor hj he, ?_, ?_, ?_, (hcs name hc).1, (hcs name hc).2⟩
    · exact fun h => hdir (.inl h)
    · exact fun h => hdir (.inr (.inl h))
    · exact fun h => hdir (.inr (.inr h))

variable (cs₀) in
def maze (hcs : ∀ c ∈ cs₀, '/' ∉ c.toList ∧ '\x00' ∉ c.toList) (hentry : EntryName entry) :
    FileTree where
  node := mazeNode cs₀ entry
  support := corridors cs₀ ++ [entry, freshName cs₀ 0] :: (doors cs₀ cs₀ 0 0).map Prod.fst
  finite := by
    intro p h
    rw [List.mem_append, List.mem_cons]
    rcases mazeNode_isSome h with hp | hp | ⟨x, hp⟩
    · exact .inl hp
    · exact .inr (.inl hp)
    · exact .inr (.inr (List.mem_map_of_mem hp))
  root := @mazeNode_corridor cs₀ 0 0 entry (Nat.zero_le _) (Nat.zero_le _)
  parent _ _ h := (mazeNode_entry hcs hentry h).1
  named _ _ h := (mazeNode_entry hcs hentry h).2

structure HasMaze (cs₀ : List String) (t : FileTree) : Prop where
  corridor : ∀ {i d}, i ≤ cs₀.length → d ≤ corridorDepth cs₀ →
    t.node (corridor cs₀ i d) = some .dir
  door : ∀ {p x}, (p, x) ∈ doors cs₀ cs₀ 0 0 → t.node p = some x

variable {t : FileTree}

theorem walk_corridor (ht : HasMaze cs₀ t) (hi : i ≤ cs₀.length) (hd : d + n ≤ corridorDepth cs₀) :
    t.walk links (corridor cs₀ i d) (List.replicate n (freshName cs₀ i) ++ cs) =
      t.walk links (corridor cs₀ i (d + n)) cs := by
  induction n generalizing d with
  | zero => rfl
  | succ n ih =>
    have hname := freshName_entry cs₀ i
    have hnext := @HasMaze.corridor cs₀ t ht i (d + 1) hi (by omega)
    have hhop :
        t.hop (corridor cs₀ i d) (freshName cs₀ i) = .ok (.to (corridor cs₀ i (d + 1))) := by
      rw [← corridor_succ] at hnext ⊢
      exact hop_dir (ht.corridor hi (by omega)) hname hnext
    rw [List.replicate_succ, List.cons_append, walk_to hhop, ih (by omega), Nat.add_right_comm,
      Nat.add_assoc]

theorem walk_doors (ht : HasMaze cs₀ t) (hi : Inside cs₀ cs i d)
    (hdoors : doors cs₀ cs i d ⊆ doors cs₀ cs₀ 0 0) (hl : cs.length ≤ links)
    (hlast : cs.getLast? = some c) (hc : ¬ DirComponent c) :
    ∃ p, t.walk links (corridor cs₀ i d) cs = .ok p ∧ t.node p = some (.file []) := by
  induction cs generalizing i d links with
  | nil => cases hlast
  | cons c' cs ih =>
    have hcur : ¬ t.node (corridor cs₀ i d) ≠ some .dir :=
      not_not.2 (ht.corridor ((Nat.le_add_right _ _).trans hi.1) hi.2.1)
    have hrest (hdir : DirComponent c') : cs.getLast? = some c := by
      cases cs with
      | nil =>
        cases hlast
        exact absurd hdir hc
      | cons c'' cs => exact hlast
    have hlen : cs.length ≤ links := (Nat.le_succ _).trans hl
    rw [doors] at hdoors
    split at hdoors
    next hdot =>
      have hhop : t.hop (corridor cs₀ i d) c' = .ok (.to (corridor cs₀ i d)) := by
        rw [hop, if_neg hcur, if_pos hdot]
      rw [walk_to hhop]
      exact ih hi.stay hdoors hlen (hrest (hdot.imp_right .inl))
    next hdot =>
      split at hdoors
      next hdots =>
        have hhop : t.hop (corridor cs₀ i d) c' = .ok (.to (corridor cs₀ i (d - 1))) := by
          rw [hop, if_neg hcur, if_neg hdot, if_pos hdots, corridor_tail]
        rw [walk_to hhop]
        exact ih hi.up hdoors hlen (hrest (.inr (.inr hdots)))
      next hdots =>
        split at hdoors
        next hnil =>
          have hfile := ht.door (hdoors List.mem_cons_self)
          have hhop : t.hop (corridor cs₀ i d) c' = .ok (.to (c' :: corridor cs₀ i d)) := by
            rw [hop, if_neg hcur, if_neg hdot, if_neg hdots, hfile]
          rw [walk_to hhop, hnil]
          refine ⟨_, ?_, hfile⟩
          cases links with
          | zero => rfl
          | succ links => rfl
        next hnil =>
          obtain ⟨links, rfl⟩ := Nat.exists_eq_add_of_lt ((Nat.zero_lt_succ _).trans_le hl)
          rw [Nat.zero_add] at hl ⊢
          have hlink := ht.door (hdoors List.mem_cons_self)
          have hslash : ∀ name ∈ List.replicate (corridorDepth cs₀) (freshName cs₀ (i + 1)),
              '/' ∉ name.toList := by
            intro name hm
            rw [List.eq_of_mem_replicate hm]
            exact (freshName_entry cs₀ (i + 1)).no_slash
          have habs : isAbsolute (absPath
              (List.replicate (corridorDepth cs₀) (freshName cs₀ (i + 1)))) = true := by
            rw [corridorDepth, List.replicate_succ]
            exact isAbsolute_absPath _ _
          have hhop : t.hop (corridor cs₀ i d) c' = .ok (.via [] ("" ::
              List.replicate (corridorDepth cs₀) (freshName cs₀ (i + 1)))) := by
            rw [hop, if_neg hcur, if_neg hdot, if_neg hdots, hlink]
            simp only [habs, ↓reduceIte, splitPath_absPath hslash]
          have hroot : t.hop [] "" = .ok (.to []) := hop_empty t.root
          have hi' := hi.enter
          have hcorridor : t.walk links (corridor cs₀ (i + 1) 0)
              (List.replicate (corridorDepth cs₀) (freshName cs₀ (i + 1)) ++ cs) =
                t.walk links (corridor cs₀ (i + 1) (0 + corridorDepth cs₀)) cs := by
            apply walk_corridor ht
            · exact (Nat.le_add_right _ _).trans hi'.1
            · exact (Nat.zero_add _).le
          rw [walk_via hhop, List.cons_append, walk_to hroot]
          rw [Nat.zero_add] at hcorridor
          have hlast' : cs.getLast? = some c := by
            cases cs with
            | nil => exact absurd rfl hnil
            | cons c'' cs => exact hlast
          obtain ⟨p, hp, hfile⟩ := ih hi' (fun x hx => hdoors (List.mem_cons_of_mem _ hx))
            (Nat.le_of_succ_le_succ hl) hlast'
          exact ⟨p, hcorridor.trans hp, hfile⟩

end

theorem exists_tree_walk {cs : List String} {entry : String}
    (hcs : ∀ c ∈ cs, '/' ∉ c.toList ∧ '\x00' ∉ c.toList) (hentry : EntryName entry)
    (hu : 'u' ∉ entry.toList) (hlast : cs.getLast? = some c) (hc : ¬ DirComponent c) :
    ∃ (t : FileTree) (r : String) (p : Place), EntryName r ∧ t.node [r] = some .dir ∧
      t.node [entry, r] = some (.link "/") ∧ t.walk cs.length [] cs = .ok p ∧
      t.node p = some (.file []) := by
  have ht : HasMaze cs (maze cs hcs hentry) := ⟨mazeNode_corridor, mazeNode_door⟩
  obtain ⟨p, hp, hfile⟩ := walk_doors ht (inside_start cs) (List.Subset.refl _) le_rfl hlast hc
  have hdir := @HasMaze.corridor _ _ ht 0 1 (Nat.zero_le _) (Nat.succ_pos _)
  have hnew : [entry, freshName cs 0] ∉ corridors cs := by
    intro h
    obtain ⟨i, d, _, _, heq⟩ := mem_corridors.1 h
    have hname : entry = freshName cs i :=
      List.eq_of_mem_replicate (heq ▸ List.mem_cons_self : entry ∈ corridor cs i d)
    rw [hname, freshName_toList] at hu
    exact hu (List.mem_replicate.2 ⟨Nat.succ_ne_zero _, rfl⟩)
  refine ⟨maze cs hcs hentry, freshName cs 0, p, freshName_entry cs 0, hdir, ?_, hp, hfile⟩
  exact (if_neg hnew).trans (if_pos rfl)

end Library
