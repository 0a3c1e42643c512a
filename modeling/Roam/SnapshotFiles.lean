import Roam.Library.PathWitness

namespace Roam
set_option autoImplicit true
open Library

def Reserved (name : String) : Prop :=
  name = "snapshot.loro" ∨ name = "held.jsonl" ∨ ".tmp".toList <:+ name.toList

instance : DecidablePred Reserved := fun _ => inferInstanceAs (Decidable (_ ∨ _))

section
variable (m : Machine) (root : String)

/-- `Store::held_snapshot_ids` of the vault at a path. -/
def heldSnapshotIds : Except FileError (List String) :=
  match m.readDir (joinPath root "snapshots") with
  | .ok names => .ok ((names.filter fun name => ¬ Reserved name).mergeSort)
  | .error .notFound => .ok []
  | .error err => .error err

/-- `Store::load_snapshot_object`. -/
def loadSnapshotObject (id : String) : Except FileError (Option (List UInt8)) :=
  match m.read (joinPath (joinPath root "snapshots") id) with
  | .ok bytes => .ok (some bytes)
  | .error .notFound => .ok none
  | .error err => .error err

end

/-- Every object that the vault at a path gives out under an id is one that it lists. -/
def ServesHeldOnly (m : Machine) (root id : String) : Prop :=
  ∀ bytes, loadSnapshotObject m root id = .ok (some bytes) →
    ∃ ids, heldSnapshotIds m root = .ok ids ∧ id ∈ ids

/-- The ids that are names of snapshot objects, or that can never lead to a file: the last
component stands for a directory, or there is a zero byte. -/
def HarmlessId (id : String) : Prop :=
  EntryName id ∧ ¬ Reserved id ∨ '\x00' ∈ id.toList ∨
    ∃ c, (splitPath id).getLast? = some c ∧ FileTree.DirComponent c

variable {m : Machine} {root id : String}

theorem loadSnapshotObject_eq_some :
    loadSnapshotObject m root id = .ok (some bytes) ↔
      m.read (joinPath (joinPath root "snapshots") id) = .ok bytes := by
  rw [loadSnapshotObject]
  split
  next bytes' h => simp only [Except.ok.injEq, Option.some.injEq, h]
  next h => simp only [Except.ok.injEq, reduceCtorEq, h]
  next h => simp only [reduceCtorEq, h]

theorem mem_heldSnapshotIds (h : m.readDir (joinPath root "snapshots") = .ok names) :
    ∃ ids, heldSnapshotIds m root = .ok ids ∧ ∀ id, id ∈ ids ↔ id ∈ names ∧ ¬ Reserved id := by
  rw [heldSnapshotIds, h]
  refine ⟨_, rfl, ?_⟩
  intro id
  rw [List.mem_mergeSort, List.mem_filter, decide_eq_true_eq]

theorem snapshots_join (h : isAbsolute id = false) : joinPath root "snapshots" ≠ "" ∧
      joinPath (joinPath root "snapshots") id = joinPath root "snapshots" ++ "/" ++ id := by
  have hlast : (joinPath root "snapshots").toList.getLast? = some 's' := by
    rw [joinPath]
    split
    next => rfl
    next =>
      split
      next => rw [String.toList_append, List.getLast?_append]; rfl
      next => rw [String.toList_append, List.getLast?_append]; rfl
  have hne : joinPath root "snapshots" ≠ "" := by
    intro hempty
    rw [hempty] at hlast
    cases hlast
  refine ⟨hne, joinPath_eq hne ?_ h⟩
  rw [hlast]
  decide

theorem servesHeldOnly_of_name (hn : EntryName id) (hr : ¬ Reserved id) :
    ServesHeldOnly m root id := by
  intro bytes h
  have habs : isAbsolute id = false := by
    rw [isAbsolute, beq_eq_false_iff_ne]
    exact fun hhead => hn.no_slash (List.mem_of_head? hhead)
  obtain ⟨hne, hjoin⟩ := @snapshots_join root id habs
  obtain ⟨p, hp, _⟩ := Machine.read_ok.1 (loadSnapshotObject_eq_some.1 h)
  rw [hjoin] at hp
  obtain ⟨d, hd, hdir, hentry⟩ := Machine.resolve_parent hne hn hp
  obtain ⟨ids, hids, hmem⟩ := mem_heldSnapshotIds (Machine.readDir_ok hd hdir)
  exact ⟨ids, hids, (hmem id).2 ⟨m.tree.mem_names.2 hentry, hr⟩⟩

theorem servesHeldOnly_of_harmless (h : HarmlessId id) : ServesHeldOnly m root id := by
  rcases h with ⟨hn, hr⟩ | hnul | ⟨c, hlast, hc⟩
  · exact servesHeldOnly_of_name hn hr
  · intro bytes h
    obtain ⟨p, hp, _⟩ := Machine.read_ok.1 (loadSnapshotObject_eq_some.1 h)
    exact absurd (nul_mem_joinPath hnul) (Machine.resolve_ok.1 hp).1
  · intro bytes h
    obtain ⟨p, hp, hfile⟩ := Machine.read_ok.1 (loadSnapshotObject_eq_some.1 h)
    obtain ⟨front, hfront⟩ := splitPath_joinPath (joinPath root "snapshots") id
    have hend : (splitPath (joinPath (joinPath root "snapshots") id)).getLast? = some c := by
      rw [← hfront, List.getLast?_append, hlast]
      rfl
    have hdir := Machine.resolve_dir hend hc hp
    rw [hfile] at hdir
    cases hdir

theorem name_of_mem_heldSnapshotIds (h : heldSnapshotIds m root = .ok ids) (hid : id ∈ ids) :
    EntryName id ∧ ¬ Reserved id := by
  cases hdir : m.readDir (joinPath root "snapshots") with
  | error err =>
    rw [heldSnapshotIds, hdir] at h
    cases err with
    | notFound =>
      cases h
      cases hid
    | notDirectory => cases h
    | isDirectory => cases h
    | tooManyLinks => cases h
    | invalidPath => cases h
  | ok names =>
    obtain ⟨ids', hids, hmem⟩ := mem_heldSnapshotIds hdir
    cases h.symm.trans hids
    obtain ⟨hname, hr⟩ := (hmem id).1 hid
    obtain ⟨place, rfl⟩ := Machine.readDir_names hdir
    exact ⟨m.tree.named id place (m.tree.mem_names.1 hname), hr⟩

theorem exists_served (hnul : '\x00' ∉ id.toList) (hlast : (splitPath id).getLast? = some c)
    (hc : ¬ FileTree.DirComponent c) : ∃ m root, loadSnapshotObject m root id = .ok (some []) := by
  have hcs : ∀ c ∈ splitPath id, '/' ∉ c.toList ∧ '\x00' ∉ c.toList := by
    intro c hc
    obtain ⟨hslash, hchars⟩ := mem_splitPath hc
    exact ⟨hslash, fun h => hnul (hchars _ h)⟩
  have hentry : EntryName "snapshots" := by decide
  obtain ⟨t, r, p, hr, hdir, hlink, hwalk, hfile⟩ :=
    exists_tree_walk hcs hentry (by decide) hlast hc
  cases habs : isAbsolute id with
  | true =>
    refine ⟨⟨t, [], t.root, (splitPath id).length⟩, "", loadSnapshotObject_eq_some.2 ?_⟩
    rw [joinPath, if_pos habs]
    refine Machine.read_ok.2 ⟨p, Machine.resolve_ok.2 ⟨hnul, ?_, ?_⟩, hfile⟩
    · rintro rfl
      cases habs
    · rw [ite_self]
      exact hwalk
  | false =>
    have hpath : joinPath (joinPath (absPath [r]) "snapshots") id =
        absPath [r, "snapshots"] ++ "/" ++ id := by
      rw [(snapshots_join habs).2, joinPath_absPath hr (by decide)]
    have hsplit : splitPath (absPath [r, "snapshots"] ++ "/" ++ id) =
        "" :: r :: "snapshots" :: splitPath id := by
      rw [splitPath_append, splitPath_absPath]
      · rfl
      · exact List.forall_mem_cons.2 ⟨hr.no_slash, List.forall_mem_singleton.2 hentry.no_slash⟩
    have hroot : t.hop [] "" = .ok (.to []) := FileTree.hop_empty t.root
    have hdown : t.hop [] r = .ok (.to [r]) := FileTree.hop_dir t.root hr hdir
    have hback : t.hop [r] "snapshots" = .ok (.via [] ["", ""]) :=
      FileTree.hop_link hdir hentry hlink
    refine ⟨⟨t, [], t.root, (splitPath id).length + 1⟩, absPath [r],
      loadSnapshotObject_eq_some.2 ?_⟩
    rw [hpath]
    refine Machine.read_ok.2 ⟨p, Machine.resolve_ok.2 ⟨?_, ?_, ?_⟩, hfile⟩
    · simp only [absPath, List.foldl_cons, List.foldl_nil, String.toList_append, List.mem_append,
        hr.no_nul, hnul, or_false]
      decide
    · intro hempty
      have := congrArg splitPath hempty
      rw [hsplit] at this
      cases this
    · rw [ite_self, hsplit, FileTree.walk_to hroot, FileTree.walk_to hdown, FileTree.walk_via hback,
        List.cons_append, FileTree.walk_to hroot, List.cons_append, FileTree.walk_to hroot]
      exact hwalk

/-- The ids under which no file but a listed snapshot object is ever served. -/
theorem servesHeldOnly_iff (id : String) :
    (∀ m root, ServesHeldOnly m root id) ↔ HarmlessId id := by
  constructor
  · intro h
    by_contra hharm
    rw [HarmlessId, not_or, not_or] at hharm
    obtain ⟨hname, hnul, hlast⟩ := hharm
    obtain ⟨c, hc⟩ :=
      Option.ne_none_iff_exists'.1 (mt List.getLast?_eq_none_iff.1 (splitPath_ne_nil id))
    obtain ⟨m, root, hserved⟩ := exists_served hnul hc fun hdir => hlast ⟨c, hc, hdir⟩
    obtain ⟨ids, hids, hid⟩ := h m root [] hserved
    exact hname (name_of_mem_heldSnapshotIds hids hid)
  · intro h m root
    exact servesHeldOnly_of_harmless h

def sampleMachine : Machine where
  tree := .ofList [(["vault"], .dir), (["snapshots", "vault"], .dir),
    (["identity.key", "vault"], .file [42])] (by decide)
  cwd := []
  cwd_dir := rfl
  maxLinks := 40

/-- The key file is served to whoever asks for the snapshot of that name. -/
theorem serves_identity_key :
    loadSnapshotObject sampleMachine "/vault" "../identity.key" = .ok (some [42]) ∧
      heldSnapshotIds sampleMachine "/vault" = .ok [] ∧
      ¬ ServesHeldOnly sampleMachine "/vault" "../identity.key" := by
  have hserved : loadSnapshotObject sampleMachine "/vault" "../identity.key" = .ok (some [42]) ∧
      heldSnapshotIds sampleMachine "/vault" = .ok [] := by
    decide +kernel
  refine ⟨hserved.1, hserved.2, ?_⟩
  intro h
  obtain ⟨ids, hids, hid⟩ := h [42] hserved.1
  cases hserved.2.symm.trans hids
  cases hid

end Roam
