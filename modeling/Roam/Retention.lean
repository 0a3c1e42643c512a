import Roam.Library.Run
import Mathlib.Data.List.Sort
import Mathlib.Data.List.Dedup
import Mathlib.Data.Finset.Dedup
import Mathlib.Data.Finset.Order
import Std.Data.TreeMap.Lemmas

namespace Roam.Retention
set_option autoImplicit true
open Library

/-- An entry of a bucket. The server sees its age only: the operations and the blob references are
sealed. -/
structure StoredEntry (O : Type) where
  born : Int
  ops : List O
  blobRefs : List String
deriving DecidableEq

/-- A snapshot of a bucket. The two lists of ids are its manifest, in plain text. -/
structure StoredSnapshot (O : Type) where
  born : Int
  ops : List O
  subsumed : List String
  blobRefs : List String
deriving DecidableEq

structure Bucket (O : Type) where
  entries : Std.TreeMap String (StoredEntry O)
  snapshots : Std.TreeMap String (StoredSnapshot O)
  blobs : Std.TreeMap String Int
  trust : Std.TreeMap String Int

def Bucket.empty : Bucket O := ⟨∅, ∅, ∅, ∅⟩

/-- File times have whole seconds. -/
def mtimeMs (now : Int) : Int := now / 1000 * 1000

section Planners

structure SnapshotFile where
  id : String
  ts : Int
  subsumed : List String
  blobRefs : List String

def newestFirst (snapshots : List SnapshotFile) : List SnapshotFile :=
  snapshots.insertionSort fun a b => b.ts ≤ a.ts

def snapshotsToDrop (snapshots : List SnapshotFile) (n : Nat) : List String :=
  ((newestFirst snapshots).drop n).map SnapshotFile.id

def entriesToDelete (retainedSubsumed : List String) (entryAges : Std.TreeMap String Int)
    (now grace : Int) : List String :=
  (retainedSubsumed.dedup.filter fun id =>
    match entryAges[id]? with
    | none => false
    | some born => grace ≤ now - born).insertionSort (· ≤ ·)

def blobsToDelete (retainedBlobRefs droppedBlobRefs : List String)
    (blobAges : Std.TreeMap String Int) (now grace : Int) : List String :=
  ((blobAges.toList.filter fun p =>
    decide (p.1 ∈ droppedBlobRefs) && decide (p.1 ∉ retainedBlobRefs) &&
      decide (grace ≤ now - p.2)).map Prod.fst).insertionSort (· ≤ ·)

def trustToDelete (trustAges : List (String × Int)) (now grace : Int) (keep : Nat) :
    List String :=
  ((((trustAges.insertionSort fun a b => b.2 ≤ a.2).drop (max keep 1)).filter fun p =>
    grace ≤ now - p.2).map Prod.fst).insertionSort (· ≤ ·)

end Planners

/-- The options of a sweep, and the order in which the names of files are listed. -/
structure SweepOpts where
  keep : Nat
  grace : Int
  now : Int
  ls : List String → List String
  ls_perm : ∀ names, (ls names).Perm names

structure Swept where
  snapshots : List String
  entries : List String
  blobs : List String
  trust : List String

namespace Bucket
variable {O : Type}

def loadSnapshots (b : Bucket O) (ls : List String → List String) : List SnapshotFile :=
  (ls b.snapshots.keys).filterMap fun id =>
    b.snapshots[id]?.map fun s => ⟨id, s.born, s.subsumed, s.blobRefs⟩

/-- The trust bundles with their ages, in the order of the map that holds them. -/
def trustAges (b : Bucket O) (ls : List String → List String) : List (String × Int) :=
  (ls b.trust.keys).filterMap fun id => b.trust[id]?.map (id, ·)

def rm [Ord κ] (m : Std.TreeMap κ α) (ids : List κ) : Std.TreeMap κ α :=
  ids.foldl (fun m id => m.erase id) m

/-- Drop the old snapshots, then the entries that the others subsume and the blobs that only the
dropped ones have. -/
def sweep (b : Bucket O) (opts : SweepOpts) : Swept × Bucket O :=
  let keep := max opts.keep 1
  let snaps := b.loadSnapshots opts.ls
  let droppedIds := snapshotsToDrop snaps keep
  let dropped := snaps.filter fun s => s.id ∈ droppedIds
  let retained := snaps.filter fun s => s.id ∉ droppedIds
  let delEntries := entriesToDelete (retained.flatMap SnapshotFile.subsumed)
    (b.entries.map fun _ e => e.born) opts.now opts.grace
  let delBlobs := blobsToDelete (retained.flatMap SnapshotFile.blobRefs)
    (dropped.flatMap SnapshotFile.blobRefs) b.blobs opts.now opts.grace
  let delTrust := trustToDelete (b.trustAges opts.ls) opts.now opts.grace keep
  (⟨droppedIds, delEntries, delBlobs, delTrust⟩,
    { entries := rm b.entries delEntries
      snapshots := rm b.snapshots droppedIds
      blobs := rm b.blobs delBlobs
      trust := rm b.trust delTrust })

end Bucket

inductive BucketCall (O : Type)
  | putEntry (now : Int) (id : String) (ops : List O) (blobRefs : List String)
  | putSnapshot (now : Int) (id : String) (ops : List O) (subsumed blobRefs : List String)
  | putBlob (now : Int) (id : String)
  | putTrust (now : Int) (id : String)
  | sweep (opts : SweepOpts)

def Bucket.step (b : Bucket O) : BucketCall O → Bucket O
  | .putEntry now id ops blobRefs =>
    { b with entries := b.entries.insertIfNew id ⟨mtimeMs now, ops, blobRefs⟩ }
  | .putSnapshot now id ops subsumed blobRefs =>
    { b with snapshots := b.snapshots.insertIfNew id ⟨mtimeMs now, ops, subsumed, blobRefs⟩ }
  | .putBlob now id => { b with blobs := b.blobs.insertIfNew id (mtimeMs now) }
  | .putTrust now id => { b with trust := b.trust.insertIfNew id (mtimeMs now) }
  | .sweep opts => (b.sweep opts).2

section Sweep
variable {O : Type} {b : Bucket O} {opts : SweepOpts}

theorem getElem?_rm {κ α : Type} [Ord κ] [Std.TransOrd κ] [Std.LawfulEqOrd κ] [DecidableEq κ]
    (m : Std.TreeMap κ α) (ids : List κ) (k : κ) :
    (Bucket.rm m ids)[k]? = if k ∈ ids then none else m[k]? := by
  induction ids generalizing m with
  | nil => rw [if_neg List.not_mem_nil]; rfl
  | cons id ids ih =>
    rw [Bucket.rm, List.foldl_cons]
    refine (ih (m.erase id)).trans ?_
    simp only [Std.TreeMap.getElem?_erase, Std.LawfulEqOrd.compare_eq_iff_eq]
    by_cases hmem : k ∈ ids
    · rw [if_pos hmem, if_pos (List.mem_cons_of_mem id hmem)]
    · rw [if_neg hmem]
      by_cases hk : id = k
      · rw [if_pos hk, if_pos (hk ▸ List.mem_cons_self)]
      · rw [if_neg hk, if_neg fun h => (List.mem_cons.1 h).elim (fun h => hk h.symm) hmem]

variable {id id' : String} {f : SnapshotFile}

def StoredSnapshot.file (s : StoredSnapshot O) (id : String) : SnapshotFile :=
  ⟨id, s.born, s.subsumed, s.blobRefs⟩

theorem mem_loadSnapshots :
    f ∈ b.loadSnapshots opts.ls ↔ ∃ s, b.snapshots[f.id]? = some s ∧ f = s.file f.id := by
  rw [Bucket.loadSnapshots, List.mem_filterMap]
  apply Iff.intro
  · rintro ⟨id, -, hf⟩
    obtain ⟨s, hs, rfl⟩ := Option.map_eq_some_iff.1 hf
    exact ⟨s, hs, rfl⟩
  · rintro ⟨s, hs, hf⟩
    refine ⟨f.id, ?_, ?_⟩
    · rw [(opts.ls_perm _).mem_iff, Std.TreeMap.mem_keys, Std.TreeMap.mem_iff_isSome_getElem?, hs]
      rfl
    · rw [hs]
      exact congrArg some hf.symm

theorem file_mem (opts : SweepOpts) {s : StoredSnapshot O} (hs : b.snapshots[id]? = some s) :
    s.file id ∈ b.loadSnapshots opts.ls :=
  mem_loadSnapshots.2 ⟨s, hs, rfl⟩

theorem eq_of_id_eq {f g : SnapshotFile} (hf : f ∈ b.loadSnapshots opts.ls)
    (hg : g ∈ b.loadSnapshots opts.ls) (h : f.id = g.id) : f = g := by
  obtain ⟨s, hs, hfile⟩ := mem_loadSnapshots.1 hf
  obtain ⟨s', hs', hfile'⟩ := mem_loadSnapshots.1 hg
  rw [h, hs'] at hs
  cases hs
  rw [hfile, hfile', h]

theorem nodup_loadSnapshots : (b.loadSnapshots opts.ls).Nodup := by
  apply List.Nodup.filterMap
  · intro id id' f hf hf'
    obtain ⟨s, -, rfl⟩ := Option.map_eq_some_iff.1 hf
    obtain ⟨s', -, h⟩ := Option.map_eq_some_iff.1 hf'
    exact (congrArg SnapshotFile.id h).symm
  · exact (opts.ls_perm _).nodup_iff.2 Std.TreeMap.nodup_keys

theorem newestFirst_perm (snapshots : List SnapshotFile) : (newestFirst snapshots).Perm snapshots :=
  List.perm_insertionSort _ _

theorem newestFirst_pairwise (snapshots : List SnapshotFile) :
    (newestFirst snapshots).Pairwise fun a b => b.ts ≤ a.ts := by
  have : Std.Total fun a b : SnapshotFile => b.ts ≤ a.ts := ⟨fun a b => le_total b.ts a.ts⟩
  have : IsTrans SnapshotFile fun a b => b.ts ≤ a.ts := ⟨fun _ _ _ h h' => h'.trans h⟩
  exact List.pairwise_insertionSort _ _

def Bucket.droppedIds (b : Bucket O) (opts : SweepOpts) : List String :=
  snapshotsToDrop (b.loadSnapshots opts.ls) (max opts.keep 1)

theorem mem_droppedIds : id ∈ b.droppedIds opts ↔
      ∃ f ∈ (newestFirst (b.loadSnapshots opts.ls)).drop (max opts.keep 1), f.id = id :=
  List.mem_map

theorem exists_newest_kept (opts : SweepOpts) {s : StoredSnapshot O}
    (hs : b.snapshots[id]? = some s) :
    ∃ top t, b.snapshots[top]? = some t ∧ top ∉ b.droppedIds opts ∧
      ∀ (id' : String) (s' : StoredSnapshot O), b.snapshots[id']? = some s' → s'.born ≤ t.born := by
  have hsorted := newestFirst_pairwise (b.loadSnapshots opts.ls)
  have hperm := newestFirst_perm (b.loadSnapshots opts.ls)
  have hnodup := hperm.nodup_iff.2 nodup_loadSnapshots
  have hdropped (id : String) : id ∈ b.droppedIds opts ↔
      ∃ f ∈ (newestFirst (b.loadSnapshots opts.ls)).drop (max opts.keep 1), f.id = id :=
    mem_droppedIds
  cases hlist : newestFirst (b.loadSnapshots opts.ls) with
  | nil =>
    have hmem := hperm.mem_iff.2 (file_mem opts hs)
    rw [hlist] at hmem
    cases hmem
  | cons f rest =>
    rw [hlist] at hsorted hperm hnodup hdropped
    have hf := hperm.mem_iff.1 List.mem_cons_self
    obtain ⟨t, ht, hfile⟩ := mem_loadSnapshots.1 hf
    refine ⟨f.id, t, ht, ?_, ?_⟩
    · intro hdrop
      obtain ⟨g, hg, hid⟩ := (hdropped f.id).1 hdrop
      -- at least the first of the list is kept
      obtain ⟨n, hn⟩ : ∃ n, max opts.keep 1 = n + 1 :=
        Nat.exists_eq_succ_of_ne_zero (Nat.lt_of_lt_of_le Nat.one_pos (le_max_right _ _)).ne'
      rw [hn, List.drop_succ_cons] at hg
      have hrest := List.mem_of_mem_drop hg
      have hsame := eq_of_id_eq (hperm.mem_iff.1 (List.mem_cons_of_mem f hrest)) hf hid
      rw [hsame] at hrest
      exact (List.nodup_cons.1 hnodup).1 hrest
    · intro id' s' hs'
      have hmem := hperm.mem_iff.2 (file_mem opts hs')
      have hborn : f.ts = t.born := by rw [hfile]; rfl
      rw [← hborn]
      rcases List.mem_cons.1 hmem with heq | hrest
      · exact (congrArg SnapshotFile.ts heq).le
      · exact (List.pairwise_cons.1 hsorted).1 _ hrest

theorem snapshots_sweep (id : String) :
    (b.sweep opts).2.snapshots[id]? = if id ∈ b.droppedIds opts then none else b.snapshots[id]? :=
  getElem?_rm _ _ _

def Bucket.Subsumes (b : Bucket O) (opts : SweepOpts) (id : String) : Prop :=
  ∃ sid s, b.snapshots[sid]? = some s ∧ sid ∉ b.droppedIds opts ∧ id ∈ s.subsumed

theorem mem_entriesToDelete {retained : List String} {ages : Std.TreeMap String Int} :
    id ∈ entriesToDelete retained ages now grace ↔
      id ∈ retained ∧ ∃ born, ages[id]? = some born ∧ grace ≤ now - born := by
  rw [entriesToDelete, List.mem_insertionSort, List.mem_filter, List.mem_dedup]
  apply and_congr_right'
  split
  next hnone => exact iff_of_false nofun (by rintro ⟨born, hborn, -⟩; cases hnone.symm.trans hborn)
  next born hborn =>
    rw [decide_eq_true_eq, hborn]
    exact ⟨fun h => ⟨born, rfl, h⟩, by rintro ⟨_, ⟨rfl⟩, h⟩; exact h⟩

theorem mem_filter_loadSnapshots {P : String → Prop} [DecidablePred P] :
    f ∈ (b.loadSnapshots opts.ls).filter (fun s => P s.id) ↔
      ∃ s, b.snapshots[f.id]? = some s ∧ f = s.file f.id ∧ P f.id := by
  rw [List.mem_filter, mem_loadSnapshots, decide_eq_true_eq]
  exact ⟨fun ⟨⟨s, hs, hf⟩, hd⟩ => ⟨s, hs, hf, hd⟩, fun ⟨s, hs, hf, hd⟩ => ⟨⟨s, hs, hf⟩, hd⟩⟩

theorem mem_deleted_entries : id ∈ (b.sweep opts).1.entries ↔ b.Subsumes opts id ∧
      ∃ e, b.entries[id]? = some e ∧ opts.grace ≤ opts.now - e.born := by
  refine mem_entriesToDelete.trans (and_congr ?_ ?_)
  · rw [List.mem_flatMap]
    apply Iff.intro
    · rintro ⟨f, hf, hid⟩
      obtain ⟨s, hs, hfile, hkept⟩ := (mem_filter_loadSnapshots (P := (· ∉ b.droppedIds opts))).1 hf
      rw [hfile] at hid
      exact ⟨f.id, s, hs, hkept, hid⟩
    · rintro ⟨sid, s, hs, hkept, hid⟩
      refine ⟨s.file sid, ?_, hid⟩
      exact (mem_filter_loadSnapshots (P := (· ∉ b.droppedIds opts))).2 ⟨s, hs, rfl, hkept⟩
  · rw [Std.TreeMap.getElem?_map]
    simp only [Option.map_eq_some_iff]
    constructor
    · rintro ⟨_, ⟨e, he, rfl⟩, h⟩
      exact ⟨e, he, h⟩
    · rintro ⟨e, he, h⟩
      exact ⟨e.born, ⟨e, he, rfl⟩, h⟩

theorem entries_sweep {e : StoredEntry O} : (b.sweep opts).2.entries[id]? = some e ↔
      b.entries[id]? = some e ∧ ¬ (b.Subsumes opts id ∧ opts.grace ≤ opts.now - e.born) := by
  have hrm : (b.sweep opts).2.entries[id]? =
      if id ∈ (b.sweep opts).1.entries then none else b.entries[id]? := getElem?_rm _ _ _
  rw [hrm]
  by_cases hdelete : id ∈ (b.sweep opts).1.entries
  · rw [if_pos hdelete]
    obtain ⟨hsub, e', he', hold⟩ := mem_deleted_entries.1 hdelete
    refine iff_of_false nofun ?_
    rintro ⟨he, hkept⟩
    cases he'.symm.trans he
    exact hkept ⟨hsub, hold⟩
  · rw [if_neg hdelete]
    refine (and_iff_left_of_imp ?_).symm
    rintro he ⟨hsub, hold⟩
    exact hdelete (mem_deleted_entries.2 ⟨hsub, e, he, hold⟩)

theorem mem_blobRefs {files : List SnapshotFile} {P : String → Prop} {blob : String}
    (h : ∀ f, f ∈ files ↔ ∃ s, b.snapshots[f.id]? = some s ∧ f = s.file f.id ∧ P f.id) :
    blob ∈ files.flatMap SnapshotFile.blobRefs ↔
      ∃ sid s, b.snapshots[sid]? = some s ∧ P sid ∧ blob ∈ s.blobRefs := by
  rw [List.mem_flatMap]
  apply Iff.intro
  · rintro ⟨f, hf, hblob⟩
    obtain ⟨s, hs, hfile, hP⟩ := (h f).1 hf
    rw [hfile] at hblob
    exact ⟨f.id, s, hs, hP, hblob⟩
  · rintro ⟨sid, s, hs, hP, hblob⟩
    exact ⟨s.file sid, (h _).2 ⟨s, hs, rfl, hP⟩, hblob⟩

theorem mem_deleted_blobs {blob : String} : blob ∈ (b.sweep opts).1.blobs ↔
      (∃ sid s, b.snapshots[sid]? = some s ∧ sid ∈ b.droppedIds opts ∧ blob ∈ s.blobRefs) ∧
      (¬ ∃ sid s, b.snapshots[sid]? = some s ∧ sid ∉ b.droppedIds opts ∧ blob ∈ s.blobRefs) ∧
      ∃ born, b.blobs[blob]? = some born ∧ opts.grace ≤ opts.now - born := by
  rw [← mem_blobRefs fun _ => mem_filter_loadSnapshots,
    ← mem_blobRefs fun _ => mem_filter_loadSnapshots]
  refine List.mem_insertionSort _ |>.trans (List.mem_map.trans ?_)
  simp only [List.mem_filter, Bool.and_eq_true, decide_eq_true_eq]
  apply Iff.intro
  · rintro ⟨⟨id, born⟩, ⟨hborn, ⟨hdrop, hkeep⟩, hold⟩, rfl⟩
    exact ⟨hdrop, hkeep, born, Std.TreeMap.mem_toList_iff_getElem?_eq_some.1 hborn, hold⟩
  · rintro ⟨hdrop, hkeep, born, hborn, hold⟩
    exact ⟨(blob, born), ⟨Std.TreeMap.mem_toList_iff_getElem?_eq_some.2 hborn,
      ⟨hdrop, hkeep⟩, hold⟩, rfl⟩

def firstOf (id : String) (names : List String) : List String :=
  if id ∈ names then id :: names.erase id else names

theorem firstOf_perm (id : String) (names : List String) : (firstOf id names).Perm names := by
  rw [firstOf]
  split
  next hmem => exact (List.perm_cons_erase hmem).symm
  next => exact .rfl

def SweepOpts.onlyNewest (id : String) (grace now : Int) : SweepOpts :=
  ⟨1, grace, now, firstOf id, firstOf_perm id⟩

theorem newestFirst_cons {rest : List SnapshotFile}
    (h : ∀ g ∈ rest, g.ts ≤ f.ts) : newestFirst (f :: rest) = f :: newestFirst rest := by
  have hmem (g : SnapshotFile) (hg : g ∈ newestFirst rest) : g.ts ≤ f.ts :=
    h g ((newestFirst_perm rest).mem_iff.1 hg)
  change List.orderedInsert _ f (newestFirst rest) = f :: newestFirst rest
  cases hrest : newestFirst rest with
  | nil => rfl
  | cons g gs =>
    rw [hrest] at hmem
    exact if_pos (hmem g List.mem_cons_self)

theorem droppedIds_onlyNewest {top : StoredSnapshot O} (htop : b.snapshots[id]? = some top)
    (hnewest : ∀ (id' : String) (s' : StoredSnapshot O), b.snapshots[id']? = some s' →
      s'.born ≤ top.born) {grace now : Int} :
    id' ∈ b.droppedIds (.onlyNewest id grace now) ↔ id' ≠ id ∧ ∃ s, b.snapshots[id']? = some s := by
  have hkeys : id ∈ b.snapshots.keys := by
    rw [Std.TreeMap.mem_keys, Std.TreeMap.mem_iff_isSome_getElem?, htop]
    rfl
  obtain ⟨rest, hload⟩ : ∃ rest, b.loadSnapshots (SweepOpts.onlyNewest id grace now).ls =
      top.file id :: rest := by
    have hls : (SweepOpts.onlyNewest id grace now).ls b.snapshots.keys =
        id :: b.snapshots.keys.erase id := if_pos hkeys
    rw [Bucket.loadSnapshots, hls, List.filterMap_cons, htop]
    exact ⟨_, rfl⟩
  have hmem (f : SnapshotFile) : f ∈ top.file id :: rest ↔
      ∃ s, b.snapshots[f.id]? = some s ∧ f = s.file f.id := by
    rw [← hload]
    exact mem_loadSnapshots
  have hnodup : (top.file id :: rest).Nodup := by
    rw [← hload]
    exact nodup_loadSnapshots
  have hts : ∀ g ∈ rest, g.ts ≤ (top.file id).ts := by
    intro g hg
    obtain ⟨s, hs, hfile⟩ := (hmem g).1 (List.mem_cons_of_mem _ hg)
    rw [hfile]
    exact hnewest _ s hs
  rw [mem_droppedIds, hload, newestFirst_cons hts]
  change (∃ f ∈ newestFirst rest, f.id = id') ↔ _
  simp only [(newestFirst_perm rest).mem_iff]
  apply Iff.intro
  · rintro ⟨f, hf, rfl⟩
    obtain ⟨s, hs, hfile⟩ := (hmem f).1 (List.mem_cons_of_mem _ hf)
    refine ⟨?_, s, hs⟩
    intro hid
    rw [hid] at hfile hs
    cases htop.symm.trans hs
    rw [hfile] at hf
    exact (List.nodup_cons.1 hnodup).1 hf
  · rintro ⟨hne, s, hs⟩
    refine ⟨s.file id', ?_, rfl⟩
    rcases List.mem_cons.1 ((hmem (s.file id')).2 ⟨s, hs, rfl⟩) with heq | hrest
    · exact absurd (congrArg SnapshotFile.id heq) hne
    · exact hrest

end Sweep

section Blobs
variable {O : Type} {b : Bucket O} {opts : SweepOpts}

/-- A sweep deletes no blob that a snapshot which stays has, or a stored entry that none of them
subsumes. -/
def Bucket.KeepsLiveBlobs (b : Bucket O) (opts : SweepOpts) : Prop :=
  ∀ blob ∈ (b.sweep opts).1.blobs,
    (∀ (id : String) (s : StoredSnapshot O), (b.sweep opts).2.snapshots[id]? = some s →
      blob ∉ s.blobRefs) ∧
    ∀ (id : String) (e : StoredEntry O), b.entries[id]? = some e → blob ∈ e.blobRefs →
      ∃ (sid : String) (s : StoredSnapshot O), (b.sweep opts).2.snapshots[sid]? = some s ∧
        id ∈ s.subsumed

/-- A blob of a stored entry that an older snapshot has left the newest snapshot for good only if
that one subsumes the entry. -/
def Bucket.NewestHasBlobs (b : Bucket O) : Prop :=
  ∀ (top : String) (t : StoredSnapshot O), b.snapshots[top]? = some t →
    (∀ (id : String) (s : StoredSnapshot O), b.snapshots[id]? = some s → s.born ≤ t.born) →
    ∀ (id : String) (e : StoredEntry O) (blob : String), b.entries[id]? = some e →
      blob ∈ e.blobRefs →
      b.blobs.contains blob = true →
      (∃ (old : String) (s : StoredSnapshot O), old ≠ top ∧ b.snapshots[old]? = some s ∧
        blob ∈ s.blobRefs) →
      id ∈ t.subsumed ∨ blob ∈ t.blobRefs

theorem snapshots_sweep_eq_some {id : String} {s : StoredSnapshot O} :
    (b.sweep opts).2.snapshots[id]? = some s ↔ b.snapshots[id]? = some s ∧
      id ∉ b.droppedIds opts := by
  rw [snapshots_sweep]
  split
  next hdrop => exact iff_of_false nofun fun h => h.2 hdrop
  next hkeep => exact (and_iff_left hkeep).symm

theorem keepsLiveBlobs_of_newestHasBlobs (h : b.NewestHasBlobs) (opts : SweepOpts) :
    b.KeepsLiveBlobs opts := by
  intro blob hblob
  obtain ⟨⟨old, s, hs, hdrop, hold⟩, hretained, born, hborn, -⟩ := mem_deleted_blobs.1 hblob
  apply And.intro
  · intro id s hs hmem
    obtain ⟨hs, hkeep⟩ := snapshots_sweep_eq_some.1 hs
    exact hretained ⟨id, s, hs, hkeep, hmem⟩
  · intro id e he hmem
    obtain ⟨top, t, ht, hkeep, hnewest⟩ := exists_newest_kept opts hs
    have hcontains : b.blobs.contains blob = true := by
      rw [Std.TreeMap.contains_eq_isSome_getElem?, hborn]
      rfl
    have hne : old ≠ top := by
      rintro rfl
      exact hkeep hdrop
    rcases h top t ht hnewest id e blob he hmem hcontains ⟨old, s, hne, hs, hold⟩ with hsub | hhas
    · exact ⟨top, t, snapshots_sweep_eq_some.2 ⟨ht, hkeep⟩, hsub⟩
    · exact absurd ⟨top, t, ht, hkeep, hhas⟩ hretained

theorem keepsLiveBlobs_iff (b : Bucket O) (since : Int) :
    (∀ opts : SweepOpts, since ≤ opts.now → b.KeepsLiveBlobs opts) ↔ b.NewestHasBlobs := by
  refine ⟨fun h => ?_, fun h opts _ => keepsLiveBlobs_of_newestHasBlobs h opts⟩
  intro top t ht hnewest id e blob he hmem hcontains hold
  by_contra hlost
  rw [not_or] at hlost
  obtain ⟨born, hborn⟩ : ∃ born, b.blobs[blob]? = some born := by
    rw [Std.TreeMap.contains_eq_isSome_getElem?] at hcontains
    exact Option.isSome_iff_exists.1 hcontains
  obtain ⟨old, s, hne, hs, hblob⟩ := hold
  have hdropped (id' : String) : id' ∈ b.droppedIds (.onlyNewest top 0 (max since born)) ↔
      id' ≠ top ∧ ∃ s, b.snapshots[id']? = some s :=
    droppedIds_onlyNewest ht hnewest
  have hdelete : blob ∈ (b.sweep (.onlyNewest top 0 (max since born))).1.blobs := by
    refine mem_deleted_blobs.2 ⟨⟨old, s, hs, (hdropped old).2 ⟨hne, s, hs⟩, hblob⟩, ?_, born,
      hborn, ?_⟩
    · rintro ⟨sid, s', hs', hkeep, hmem'⟩
      have hsid : sid = top := by
        by_contra hsid
        exact hkeep ((hdropped sid).2 ⟨hsid, s', hs'⟩)
      rw [hsid, ht] at hs'
      cases hs'
      exact hlost.2 hmem'
    · exact Int.sub_nonneg_of_le (le_max_right since born)
  obtain ⟨sid, s', hs', hsub⟩ := (h _ (le_max_left since born) blob hdelete).2 id e he hmem
  obtain ⟨hs', hkeep⟩ := snapshots_sweep_eq_some.1 hs'
  have hsid : sid = top := by
    by_contra hsid
    exact hkeep ((hdropped sid).2 ⟨hsid, s', hs'⟩)
  rw [hsid, ht] at hs'
  cases hs'
  exact hlost.1 hsub

/-- All sweeps from a bucket keep the live blobs exactly if no stored entry refers to a blob that
left the newest snapshot; and so along every run. -/
theorem sweeps_keep_live_blobs_iff (b : Bucket O) (since : Int) (calls : List (BucketCall O)) :
    ((∀ opts : SweepOpts, since ≤ opts.now → b.KeepsLiveBlobs opts) ↔ b.NewestHasBlobs) ∧
      (Along Bucket.step (fun b _ => ∀ opts, since ≤ opts.now → b.KeepsLiveBlobs opts) b calls ↔
        Along Bucket.step (fun b _ => b.NewestHasBlobs) b calls) :=
  ⟨keepsLiveBlobs_iff b since, along_iff
    (fun b _ (_ : True) => keepsLiveBlobs_iff b since) (fun _ _ _ _ => trivial) trivial⟩

def BucketCall.now : BucketCall O → Int
  | .putEntry now _ _ _ => now
  | .putSnapshot now _ _ _ _ => now
  | .putBlob now _ => now
  | .putTrust now _ => now
  | .sweep opts => opts.now

def blobComesBack : List (BucketCall Nat) :=
  [.putBlob 0 "b", .putSnapshot 0 "s1" [] [] ["b"], .putSnapshot 1000 "s2" [] [] [],
    .putBlob 2000 "b", .putEntry 2000 "e" [] ["b"]]

theorem sweep_deletes_blob_of_stored_entry :
    ¬ ∀ (calls : List (BucketCall Nat)) (opts : SweepOpts), 1 ≤ opts.keep →
      (calls.map BucketCall.now ++ [opts.now]).Pairwise (· ≤ ·) →
      (runAll Bucket.step .empty calls).KeepsLiveBlobs opts := by
  intro h
  have hkeeps := h blobComesBack ⟨1, 0, 3000, id, fun _ => .rfl⟩ (by decide) (by decide)
  have hdelete := (hkeeps "b" (by decide +kernel)).2 "e" ⟨2000, [], ["b"]⟩ (by decide +kernel)
    (by decide)
  obtain ⟨sid, s, hs, hsub⟩ := hdelete
  have hnone : ∀ p ∈ ((runAll Bucket.step .empty blobComesBack).sweep
      ⟨1, 0, 3000, id, fun _ => .rfl⟩).2.snapshots.toList, "e" ∉ p.2.subsumed := by decide +kernel
  exact hnone (sid, s) (Std.TreeMap.mem_toList_iff_getElem?_eq_some.2 hs) hsub

end Blobs

section Ops
variable {O : Type} {b : Bucket O} {o : O} {content : String → List O}

def Bucket.Covers (b : Bucket O) (o : O) : Prop :=
  (∃ (id : String) (e : StoredEntry O), b.entries[id]? = some e ∧ o ∈ e.ops) ∨
    ∃ (id : String) (s : StoredSnapshot O), b.snapshots[id]? = some s ∧ o ∈ s.ops

/-- What honest devices put: an id names one content, and a snapshot has the operations of the
entries that it subsumes. -/
def BucketCall.Honest (content : String → List O) : BucketCall O → Prop
  | .putEntry _ id ops _ => ops = content id
  | .putSnapshot _ _ ops subsumed _ => ∀ id ∈ subsumed, ∀ o ∈ content id, o ∈ ops
  | _ => True

/-- A new snapshot comes in a later second than the stored ones and has all their operations. -/
def Bucket.Adopted (b : Bucket O) : BucketCall O → Prop
  | .putSnapshot now id ops _ _ => b.snapshots[id]? = none →
    ∀ (sid : String) (s : StoredSnapshot O), b.snapshots[sid]? = some s →
      s.born < mtimeMs now ∧ ∀ o ∈ s.ops, o ∈ ops
  | _ => True

instance [DecidableEq O] (content : String → List O) :
    DecidablePred (BucketCall.Honest content)
  | .putEntry _ id ops _ => inferInstanceAs (Decidable (ops = content id))
  | .putSnapshot _ _ ops subsumed _ =>
    inferInstanceAs (Decidable (∀ id ∈ subsumed, ∀ o ∈ content id, o ∈ ops))
  | .putBlob _ _ => .isTrue trivial
  | .putTrust _ _ => .isTrue trivial
  | .sweep _ => .isTrue trivial

theorem forall_stored_iff {m : Std.TreeMap String α} {P : String → α → Prop} :
    (∀ p ∈ m.toList, P p.1 p.2) ↔ ∀ (id : String) (a : α), m[id]? = some a → P id a :=
  ⟨fun h id a ha => h (id, a) (Std.TreeMap.mem_toList_iff_getElem?_eq_some.2 ha),
    fun h p hp => h p.1 p.2 (Std.TreeMap.mem_toList_iff_getElem?_eq_some.1 hp)⟩

instance [DecidableEq O] (b : Bucket O) : DecidablePred b.Adopted
  | .putSnapshot now id ops _ _ =>
    decidable_of_iff ((b.snapshots[id]?).isNone = true → ∀ p ∈ b.snapshots.toList,
        p.2.born < mtimeMs now ∧ ∀ o ∈ p.2.ops, o ∈ ops)
      (imp_congr Option.isNone_iff_eq_none
        (forall_stored_iff (P := fun _ (s : StoredSnapshot O) => s.born < mtimeMs now ∧ ∀ o ∈ s.ops,
          o ∈ ops)))
  | .putEntry _ _ _ _ => .isTrue trivial
  | .putBlob _ _ => .isTrue trivial
  | .putTrust _ _ => .isTrue trivial
  | .sweep _ => .isTrue trivial

/-- The stored entries and snapshots are honest ones, and a newer snapshot has all that an older
one has. -/
structure Bucket.Grown (content : String → List O) (b : Bucket O) : Prop where
  entry : ∀ (id : String) (e : StoredEntry O), b.entries[id]? = some e → e.ops = content id
  subsumed : ∀ (id : String) (s : StoredSnapshot O), b.snapshots[id]? = some s →
    ∀ sub ∈ s.subsumed, ∀ o ∈ content sub, o ∈ s.ops
  chain : ∀ (id id' : String) (s s' : StoredSnapshot O), b.snapshots[id]? = some s →
    b.snapshots[id']? = some s' → s.born ≤ s'.born → ∀ o ∈ s.ops, o ∈ s'.ops

theorem getElem?_insertIfNew {α : Type} {m : Std.TreeMap String α} {id k : String} {v w : α}
    (h : (m.insertIfNew id v)[k]? = some w) : m[k]? = some w ∨ k = id ∧ w = v ∧ m[id]? = none := by
  rw [Std.TreeMap.getElem?_insertIfNew] at h
  split at h
  next hnew =>
    cases h
    rw [Std.LawfulEqOrd.compare_eq_iff_eq, Std.TreeMap.mem_iff_isSome_getElem?,
      Option.not_isSome_iff_eq_none] at hnew
    exact .inr ⟨hnew.1.symm, rfl, hnew.2⟩
  next => exact .inl h

theorem getElem?_insertIfNew_of_some {α : Type} {m : Std.TreeMap String α} {id k : String} {v w : α}
    (h : m[k]? = some w) : (m.insertIfNew id v)[k]? = some w := by
  rw [Std.TreeMap.getElem?_insertIfNew, if_neg]
  · exact h
  · rintro ⟨heq, hnot⟩
    rw [Std.LawfulEqOrd.compare_eq_iff_eq] at heq
    rw [heq, Std.TreeMap.mem_iff_isSome_getElem?, h] at hnot
    exact hnot rfl

theorem Bucket.Grown.step (h : b.Grown content) {call : BucketCall O}
    (hhonest : call.Honest content) (hadopted : b.Adopted call) : (b.step call).Grown content := by
  cases call with
  | putEntry now id ops blobRefs =>
    refine ⟨?_, h.subsumed, h.chain⟩
    intro k e he
    rcases getElem?_insertIfNew he with hold | ⟨rfl, rfl, -⟩
    · exact h.entry k e hold
    · exact hhonest
  | putSnapshot now id ops subsumed blobRefs =>
    refine ⟨h.entry, ?_, ?_⟩
    · intro k s hs
      rcases getElem?_insertIfNew hs with hold | ⟨rfl, rfl, -⟩
      · exact h.subsumed k s hold
      · exact hhonest
    · intro k k' s s' hs hs' hle
      rcases getElem?_insertIfNew hs with hold | ⟨rfl, rfl, hnew⟩
      · rcases getElem?_insertIfNew hs' with hold' | ⟨rfl, rfl, hnew⟩
        · exact h.chain k k' s s' hold hold' hle
        · exact (hadopted hnew k s hold).2
      · rcases getElem?_insertIfNew hs' with hold' | ⟨rfl, rfl, -⟩
        · exact absurd hle (not_le.2 (hadopted hnew k' s' hold').1)
        · exact fun o ho => ho
  | putBlob now id => exact ⟨h.entry, h.subsumed, h.chain⟩
  | putTrust now id => exact ⟨h.entry, h.subsumed, h.chain⟩
  | sweep opts =>
    refine ⟨?_, ?_, ?_⟩
    · intro k e he
      exact h.entry k e (entries_sweep.1 he).1
    · intro k s hs
      exact h.subsumed k s (snapshots_sweep_eq_some.1 hs).1
    · intro k k' s s' hs hs'
      exact h.chain k k' s s' (snapshots_sweep_eq_some.1 hs).1 (snapshots_sweep_eq_some.1 hs').1

theorem Bucket.Grown.covers_sweep (h : b.Grown content)
    (hcovers : b.Covers o) (opts : SweepOpts) : (b.sweep opts).2.Covers o := by
  rcases hcovers with ⟨id, e, he, ho⟩ | ⟨id, s, hs, ho⟩
  · by_cases hkept : b.Subsumes opts id ∧ opts.grace ≤ opts.now - e.born
    · obtain ⟨⟨sid, s, hs, hkeep, hsub⟩, -⟩ := hkept
      rw [h.entry id e he] at ho
      exact .inr ⟨sid, s, snapshots_sweep_eq_some.2 ⟨hs, hkeep⟩, h.subsumed sid s hs id hsub o ho⟩
    · exact .inl ⟨id, e, entries_sweep.2 ⟨he, hkept⟩, ho⟩
  · obtain ⟨top, t, ht, hkeep, hnewest⟩ := exists_newest_kept opts hs
    exact .inr ⟨top, t, snapshots_sweep_eq_some.2 ⟨ht, hkeep⟩,
      h.chain id top s t hs ht (hnewest id s hs) o ho⟩

theorem Bucket.Grown.covers_step (h : b.Grown content)
    (hcovers : b.Covers o) (call : BucketCall O) : (b.step call).Covers o := by
  cases call with
  | sweep opts => exact h.covers_sweep hcovers opts
  | putBlob now id => exact hcovers
  | putTrust now id => exact hcovers
  | putEntry now id ops blobRefs =>
    rcases hcovers with ⟨k, e, he, ho⟩ | hsnap
    · exact .inl ⟨k, e, getElem?_insertIfNew_of_some he, ho⟩
    · exact .inr hsnap
  | putSnapshot now id ops subsumed blobRefs =>
    rcases hcovers with hentry | ⟨k, s, hs, ho⟩
    · exact .inl hentry
    · exact .inr ⟨k, s, getElem?_insertIfNew_of_some hs, ho⟩

/-- The operation is in an entry that no stored snapshot subsumes, or in every newest snapshot. -/
def Bucket.Safe (b : Bucket O) (o : O) : Prop :=
  (∃ (id : String) (e : StoredEntry O), b.entries[id]? = some e ∧ o ∈ e.ops ∧
    ∀ (sid : String) (s : StoredSnapshot O), b.snapshots[sid]? = some s → id ∉ s.subsumed) ∨
  (∃ (id : String) (s : StoredSnapshot O), b.snapshots[id]? = some s) ∧
    ∀ (id : String) (t : StoredSnapshot O), b.snapshots[id]? = some t →
      (∀ (sid : String) (s : StoredSnapshot O), b.snapshots[sid]? = some s → s.born ≤ t.born) →
        o ∈ t.ops

theorem Bucket.Safe.sweep (h : b.Safe o) (opts : SweepOpts) : (b.sweep opts).2.Safe o := by
  rcases h with ⟨id, e, he, ho, hfree⟩ | ⟨⟨id, s, hs⟩, hnewest⟩
  · refine .inl ⟨id, e, entries_sweep.2 ⟨he, ?_⟩, ho, ?_⟩
    · rintro ⟨⟨sid, s, hs, -, hsub⟩, -⟩
      exact hfree sid s hs hsub
    · intro sid s hs
      exact hfree sid s (snapshots_sweep_eq_some.1 hs).1
  · obtain ⟨top, t, ht, hkeep, htop⟩ := exists_newest_kept opts hs
    have ht' := snapshots_sweep_eq_some.2 ⟨ht, hkeep⟩
    refine .inr ⟨⟨top, t, ht'⟩, ?_⟩
    intro id' t' hstored hmax
    apply hnewest id' t' (snapshots_sweep_eq_some.1 hstored).1
    intro sid s' hs'
    exact (htop sid s' hs').trans (hmax top t ht')

theorem Bucket.Safe.covers (h : b.Safe o) : b.Covers o := by
  rcases h with ⟨id, e, he, ho, -⟩ | ⟨⟨id, s, hs⟩, hnewest⟩
  · exact .inl ⟨id, e, he, ho⟩
  · obtain ⟨top, t, ht, -, htop⟩ := exists_newest_kept (.onlyNewest id 0 0) hs
    exact .inr ⟨top, t, ht, hnewest top t ht htop⟩

theorem Bucket.Safe.sweeps (h : b.Safe o) (sweeps : List SweepOpts) :
    (runAll (fun b opts => (b.sweep opts).2) b sweeps).Covers o := by
  have hstep (b : Bucket O) (opts : SweepOpts) (h : b.Safe o) : (b.sweep opts).2.Safe o :=
    h.sweep opts
  exact (runAll_invariant hstep h).covers

def Bucket.keepAll (b : Bucket O) (now : Int) : SweepOpts :=
  ⟨b.snapshots.keys.length, 0, now, fun names => names, fun _ => .rfl⟩

theorem droppedIds_keepAll (now : Int) : b.droppedIds (b.keepAll now) = [] := by
  have hlen :
      (newestFirst (b.loadSnapshots (b.keepAll now).ls)).length ≤ b.snapshots.keys.length := by
    rw [(newestFirst_perm _).length_eq]
    exact List.length_filterMap_le _ _
  have hdrop :
      (newestFirst (b.loadSnapshots (b.keepAll now).ls)).drop (max (b.keepAll now).keep 1) = [] :=
    List.drop_eq_nil_of_le (hlen.trans (le_max_left _ _))
  rw [Bucket.droppedIds, snapshotsToDrop, hdrop]
  rfl

theorem exists_keepAll (b : Bucket O) (since : Int) : ∃ now, since ≤ now ∧
    (∀ (id : String) (s : StoredSnapshot O),
      (b.sweep (b.keepAll now)).2.snapshots[id]? = some s ↔ b.snapshots[id]? = some s) ∧
    ∀ (id : String) (e : StoredEntry O), (b.sweep (b.keepAll now)).2.entries[id]? = some e →
      b.entries[id]? = some e ∧
      ∀ (sid : String) (s : StoredSnapshot O), b.snapshots[sid]? = some s → id ∉ s.subsumed := by
  obtain ⟨bound, hbound⟩ := (b.entries.toList.map fun p => p.2.born).toFinset.exists_le
  refine ⟨max since bound, le_max_left since bound, ?_, ?_⟩
  · intro id s
    rw [snapshots_sweep_eq_some, droppedIds_keepAll]
    exact and_iff_left List.not_mem_nil
  · intro id e he
    obtain ⟨he, hkept⟩ := entries_sweep.1 he
    refine ⟨he, fun sid s hs hid => hkept ⟨⟨sid, s, hs, ?_, hid⟩, ?_⟩⟩
    · rw [droppedIds_keepAll]
      exact List.not_mem_nil
    · have hborn : e.born ≤ bound := by
        apply hbound
        rw [List.mem_toFinset]
        exact List.mem_map_of_mem (f := fun p => p.2.born)
          (Std.TreeMap.mem_toList_iff_getElem?_eq_some.2 he)
      exact Int.sub_nonneg_of_le (hborn.trans (le_max_right since bound))

theorem not_covers_onlyNewest {top : String} {t : StoredSnapshot O}
    (hentries : ∀ (id : String) (e : StoredEntry O), b.entries[id]? = some e → o ∉ e.ops)
    (ht : b.snapshots[top]? = some t)
    (hnewest : ∀ (id : String) (s : StoredSnapshot O), b.snapshots[id]? = some s → s.born ≤ t.born)
    (hlacks : o ∉ t.ops) (grace now : Int) :
    ¬ (b.sweep (.onlyNewest top grace now)).2.Covers o := by
  rintro (⟨id, e, he, ho⟩ | ⟨id, s, hs, ho⟩)
  · exact hentries id e (entries_sweep.1 he).1 ho
  · obtain ⟨hstored, hkeep⟩ := snapshots_sweep_eq_some.1 hs
    rw [droppedIds_onlyNewest ht hnewest, not_and_or, not_not] at hkeep
    rcases hkeep with rfl | hnone
    · cases ht.symm.trans hstored
      exact hlacks ho
    · exact hnone ⟨s, hstored⟩

theorem Bucket.lost_of_not_safe (h : ¬ b.Safe o) (since : Int) :
    ∃ sweeps : List SweepOpts, (∀ opts ∈ sweeps, since ≤ opts.now) ∧
      (sweeps.map SweepOpts.now).Pairwise (· ≤ ·) ∧
      ¬ (runAll (fun b opts => (b.sweep opts).2) b sweeps).Covers o := by
  rw [Bucket.Safe, not_or] at h
  obtain ⟨hentries, hsnapshots⟩ := h
  obtain ⟨now, hnow, hsame, hkept⟩ := exists_keepAll b since
  -- all entries of the operation are subsumed
  have hgone (id : String) (e : StoredEntry O)
      (he : (b.sweep (b.keepAll now)).2.entries[id]? = some e) : o ∉ e.ops := by
    intro ho
    obtain ⟨he, hfree⟩ := hkept id e he
    exact hentries ⟨id, e, he, ho, hfree⟩
  by_cases hsome : ∃ (id : String) (s : StoredSnapshot O), b.snapshots[id]? = some s
  · rw [not_and, not_forall] at hsnapshots
    obtain ⟨top, htop⟩ := hsnapshots hsome
    simp only [not_forall] at htop
    obtain ⟨t, ht, hnewest, hlacks⟩ := htop
    refine ⟨[b.keepAll now, .onlyNewest top 0 now], ?_, List.pairwise_pair.2 (Int.le_refl now), ?_⟩
    · intro opts hopts
      rcases List.mem_cons.1 hopts with rfl | hopts
      · exact hnow
      · rw [List.mem_singleton.1 hopts]
        exact hnow
    · exact not_covers_onlyNewest hgone ((hsame top t).2 ht)
        (fun id s hs => hnewest id s ((hsame id s).1 hs)) hlacks 0 now
  · refine ⟨[b.keepAll now], fun opts hopts => List.mem_singleton.1 hopts ▸ hnow,
      List.pairwise_singleton _ _, ?_⟩
    rintro (⟨id, e, he, ho⟩ | ⟨id, s, hs, ho⟩)
    · exact hgone id e he ho
    · exact hsome ⟨id, s, (hsame id s).1 hs⟩

theorem Bucket.Grown.empty (content : String → List O) : Bucket.empty.Grown content where
  entry _ _ h := by cases Std.TreeMap.getElem?_emptyc.symm.trans h
  subsumed _ _ h := by cases Std.TreeMap.getElem?_emptyc.symm.trans h
  chain _ _ _ _ h := by cases Std.TreeMap.getElem?_emptyc.symm.trans h

/-- Sweeps alone keep an operation in any case exactly if it is safe: in an entry that no stored
snapshot subsumes, or in every newest snapshot. -/
theorem sweeps_keep_op_iff (b : Bucket O) (o : O) (since : Int) :
    (∀ sweeps : List SweepOpts, (∀ opts ∈ sweeps, since ≤ opts.now) →
        (sweeps.map SweepOpts.now).Pairwise (· ≤ ·) →
        (runAll (fun b opts => (b.sweep opts).2) b sweeps).Covers o) ↔ b.Safe o := by
  refine ⟨fun h => ?_, fun h sweeps _ _ => h.sweeps sweeps⟩
  by_contra hsafe
  obtain ⟨sweeps, hsince, hsorted, hlost⟩ := Bucket.lost_of_not_safe hsafe since
  exact hlost (h sweeps hsince hsorted)

/-- If every new snapshot has the operations of the stored ones, all that was ever in an entry stays
in an entry or in a snapshot. -/
theorem retention_keeps_ops {content : String → List O} {before after : List (BucketCall O)}
    (hhonest : ∀ call ∈ before ++ after, call.Honest content)
    (hadopted : Along Bucket.step Bucket.Adopted .empty (before ++ after))
    {id : String} {e : StoredEntry O}
    (he : (runAll Bucket.step .empty before).entries[id]? = some e) (ho : o ∈ e.ops) :
    (runAll Bucket.step .empty (before ++ after)).Covers o := by
  rw [along_append] at hadopted
  rw [List.forall_mem_append] at hhonest
  have hgrown : (runAll Bucket.step .empty before).Grown content :=
    (hadopted.1.and_of_forall hhonest.1).invariant
      (fun _ _ h hcall => h.step hcall.1 hcall.2) (.empty content)
  rw [runAll_append]
  have hstep (b : Bucket O) (call : BucketCall O) (h : b.Grown content ∧ b.Covers o)
      (hcall : call.Honest content ∧ b.Adopted call) :
      (b.step call).Grown content ∧ (b.step call).Covers o :=
    ⟨h.1.step hcall.1 hcall.2, h.1.covers_step h.2 call⟩
  have hend := (hadopted.2.and_of_forall hhonest.2).invariant hstep
    ⟨hgrown, .inl ⟨id, e, he, ho⟩⟩
  exact hend.2

theorem retention_keeps_ops_adopted : (runAll Bucket.step .empty
      ([.putEntry 0 "e" [1] []] ++ [.putSnapshot 1000 "s1" [1] ["e"] [],
        .sweep ⟨1, 0, 2000, fun names => names, fun _ => .rfl⟩, .putSnapshot 3000 "s2" [1, 2] [] [],
        .sweep ⟨1, 0, 4000, fun names => names, fun _ => .rfl⟩])).Covers 1 := by
  let content : String → List Nat := fun id => if id = "e" then [1] else []
  have hstored : (runAll Bucket.step (.empty : Bucket Nat) [.putEntry 0 "e" [1] []]).entries["e"]? =
      some ⟨0, [1], []⟩ := by decide +kernel
  have hhonest : ∀ call ∈ [.putEntry 0 "e" [1] []] ++ [.putSnapshot 1000 "s1" [1] ["e"] [],
      .sweep ⟨1, 0, 2000, fun names => names, fun _ => .rfl⟩, .putSnapshot 3000 "s2" [1, 2] [] [],
      .sweep ⟨1, 0, 4000, fun names => names, fun _ => .rfl⟩], BucketCall.Honest content call := by
    decide +kernel
  exact retention_keeps_ops hhonest (by decide +kernel) hstored (by decide)

def strangerSnapshot : List (BucketCall Nat) :=
  [.putSnapshot 1000 "s1" [1] ["e"] [], .sweep ⟨1, 0, 2000, fun names => names, fun _ => .rfl⟩,
    .putSnapshot 3000 "s2" [2] [] [], .sweep ⟨1, 0, 4000, fun names => names, fun _ => .rfl⟩]

def sameSecond : List (BucketCall Nat) :=
  [.putSnapshot 1000 "s1" [2] [] [], .putSnapshot 1500 "s2" [1, 2] ["e"] [],
    .sweep ⟨2, 0, 3000, fun names => names, fun _ => .rfl⟩,
    .sweep ⟨1, 0, 4000, fun names => names, fun _ => .rfl⟩]

theorem not_covers_of_toList (he : ∀ p ∈ b.entries.toList, o ∉ p.2.ops)
    (hs : ∀ p ∈ b.snapshots.toList, o ∉ p.2.ops) : ¬ b.Covers o := by
  rintro (⟨id, e, hstored, ho⟩ | ⟨id, s, hstored, ho⟩)
  · exact he (id, e) (Std.TreeMap.mem_toList_iff_getElem?_eq_some.2 hstored) ho
  · exact hs (id, s) (Std.TreeMap.mem_toList_iff_getElem?_eq_some.2 hstored) ho

/-- An operation that was in an entry can be in no entry and in no snapshot any more: the author of
the newest snapshot never had it, or two snapshots came in one second. -/
theorem retention_loses_op :
    (¬ ∀ (content : String → List Nat) (before after : List (BucketCall Nat)) (id : String)
      (e : StoredEntry Nat) (o : Nat), (∀ call ∈ before ++ after, call.Honest content) →
      ((before ++ after).map BucketCall.now).Pairwise (· ≤ ·) →
      (runAll Bucket.step .empty before).entries[id]? = some e → o ∈ e.ops →
      (runAll Bucket.step .empty (before ++ after)).Covers o) ∧
    ¬ (runAll Bucket.step .empty ([.putEntry 0 "e" [1] []] ++ sameSecond)).Covers 1 := by
  apply And.intro
  · intro h
    have hcovers := h (fun id => if id = "e" then [1] else []) [.putEntry 0 "e" [1] []]
      strangerSnapshot "e" ⟨0, [1],
        []⟩ 1 (by decide +kernel) (by decide +kernel) (by decide +kernel)
      (by decide)
    exact not_covers_of_toList (by decide +kernel) (by decide +kernel) hcovers
  · exact not_covers_of_toList (by decide +kernel) (by decide +kernel)

end Ops

section Reclaim
variable {O : Type} {b : Bucket O} {opts : SweepOpts} {blob : String}

def Bucket.NoSnapshotHas (b : Bucket O) (blob : String) : Prop :=
  ∀ (id : String) (s : StoredSnapshot O), b.snapshots[id]? = some s → blob ∉ s.blobRefs

theorem blobs_sweep_of_noSnapshotHas (h : b.NoSnapshotHas blob) :
    (b.sweep opts).2.blobs[blob]? = b.blobs[blob]? := by
  refine (getElem?_rm _ _ _).trans (if_neg ?_)
  intro hdelete
  obtain ⟨⟨id, s, hs, _, hmem⟩, _⟩ := mem_deleted_blobs.1 hdelete
  exact h id s hs hmem

theorem blobs_step_of_noSnapshotHas {call : BucketCall O} (h : b.NoSnapshotHas blob)
    (hcall : ∀ now, call ≠ .putBlob now blob) : (b.step call).blobs[blob]? = b.blobs[blob]? := by
  cases call with
  | putEntry now id ops blobRefs | putSnapshot now id ops subsumed blobRefs | putTrust now id => rfl
  | putBlob now id =>
    have hne : id ≠ blob := by
      rintro rfl
      exact hcall now rfl
    rw [Bucket.step, Std.TreeMap.getElem?_insertIfNew, if_neg]
    rintro ⟨heq, _⟩
    exact hne (Std.LawfulEqOrd.compare_eq_iff_eq.1 heq)
  | sweep opts => exact blobs_sweep_of_noSnapshotHas h

/-- A blob of a snapshot that a sweep drops, which no snapshot has from then on, is gone after a
later sweep if and only if it was old enough at the sweep that dropped the snapshot. -/
theorem blob_reclaimed_iff {first last : SweepOpts} {calls : List (BucketCall O)} {id : String}
    {s : StoredSnapshot O} (hs : b.snapshots[id]? = some s) (hdrop : id ∈ b.droppedIds first)
    (hblob : blob ∈ s.blobRefs)
    (hnone : Along Bucket.step (fun b _ => b.NoSnapshotHas blob) (b.sweep first).2 (calls ++
      [.sweep last])) (hput : ∀ now, .putBlob now blob ∉ calls) :
    (runAll Bucket.step b (.sweep first :: calls ++ [.sweep last])).blobs[blob]? = none ↔
      ∀ born, b.blobs[blob]? = some born → first.grace ≤ first.now - born := by
  have hkept : (b.sweep first).2.NoSnapshotHas blob := by
    cases calls with
    | nil => exact hnone.1
    | cons call calls => exact hnone.1
  -- the sweep that drops the snapshot
  have hfirst : (b.sweep first).2.blobs[blob]? = none ↔
      ∀ born, b.blobs[blob]? = some born → first.grace ≤ first.now - born := by
    have hrm : (b.sweep first).2.blobs[blob]? =
        if blob ∈ (b.sweep first).1.blobs then none else b.blobs[blob]? := getElem?_rm _ _ _
    have hdelete : blob ∈ (b.sweep first).1.blobs ↔
        ∃ born, b.blobs[blob]? = some born ∧ first.grace ≤ first.now - born := by
      rw [mem_deleted_blobs, and_iff_right ⟨id, s, hs, hdrop, hblob⟩, and_iff_right]
      rintro ⟨sid, s', hs', hkeep, hmem⟩
      exact hkept sid s' (snapshots_sweep_eq_some.2 ⟨hs', hkeep⟩) hmem
    rw [hrm]
    cases hborn : b.blobs[blob]? with
    | none => exact iff_of_true (ite_self none) nofun
    | some born =>
      simp only [hborn, Option.some.injEq, exists_eq_left'] at hdelete
      rw [ite_eq_left_iff, hdelete]
      simp only [reduceCtorEq, imp_false, not_not, Option.some.injEq, forall_eq']
  -- nothing after it touches the blob
  have hrest : ∀ call ∈ calls ++ [BucketCall.sweep last], ∀ now, call ≠ .putBlob now blob := by
    rw [List.forall_mem_append, List.forall_mem_singleton]
    refine ⟨?_, nofun⟩
    rintro call hcall now rfl
    exact hput now hcall
  let Same (b' : Bucket O) : Prop := b'.blobs[blob]? = (b.sweep first).2.blobs[blob]?
  have hsame : Same (runAll Bucket.step (b.sweep first).2 (calls ++ [.sweep last])) :=
    (hnone.and_of_forall hrest).invariant
      (fun _ _ hinv hcall => (blobs_step_of_noSnapshotHas hcall.2 hcall.1).trans hinv) rfl
  rw [← hfirst, ← hsame]
  rfl

def supersededBlob : Bucket Nat :=
  runAll Bucket.step .empty
    [.putBlob 0 "b", .putSnapshot 0 "s1" [] [] ["b"], .putSnapshot 1000 "s2" [] [] []]

def SweepOpts.keepOne (now : Int) : SweepOpts := ⟨1, 5000, now, fun names => names, fun _ => .rfl⟩

/-- The snapshot goes while its blob is young, and no later sweep sees that the blob is dead. -/
theorem blob_never_reclaimed : (runAll Bucket.step supersededBlob [.sweep (.keepOne 2000),
      .sweep (.keepOne 10000)]).blobs["b"]? = some 0 := by
  decide +kernel

theorem blob_reclaimed_old : (runAll Bucket.step supersededBlob
      (.sweep (.keepOne 6000) :: [] ++ [.sweep (.keepOne 7000)])).blobs["b"]? = none := by
  have hnone : ∀ p ∈ (supersededBlob.sweep (.keepOne 6000)).2.snapshots.toList,
      "b" ∉ p.2.blobRefs := by
    decide +kernel
  have hgone : (supersededBlob.sweep (.keepOne 6000)).2.NoSnapshotHas "b" :=
    fun id s hs => hnone (id, s) (Std.TreeMap.mem_toList_iff_getElem?_eq_some.2 hs)
  apply (@blob_reclaimed_iff Nat _ "b" _ _ [] "s1" ⟨0, [], [], ["b"]⟩ (by decide +kernel)
    (by decide +kernel) (by decide) ⟨hgone, trivial⟩ fun _ => List.not_mem_nil).2
  intro born hborn
  have hzero : supersededBlob.blobs["b"]? = some 0 := by decide +kernel
  rw [hzero] at hborn
  cases hborn
  decide

end Reclaim

end Roam.Retention
