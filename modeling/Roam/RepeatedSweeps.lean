import Roam.Library.Compaction
import Roam.Retention

namespace Roam.Retention
set_option autoImplicit true
open Library

variable {O : Type} {b : Bucket O} {opts opts' : SweepOpts}

theorem droppedIds_sweep (hkeep : opts'.keep = opts.keep) :
    (b.sweep opts).2.droppedIds opts' = [] := by
  have hperm := newestFirst_perm ((b.sweep opts).2.loadSnapshots opts'.ls)
  have hstored {f : SnapshotFile} (hf : f ∈ newestFirst ((b.sweep opts).2.loadSnapshots opts'.ls)) :
      f ∈ newestFirst (b.loadSnapshots opts.ls) ∧ f.id ∉ b.droppedIds opts := by
    obtain ⟨s, hs, hfile⟩ := mem_loadSnapshots.1 (hperm.mem_iff.1 hf)
    rw [snapshots_sweep_eq_some] at hs
    exact ⟨(newestFirst_perm _).mem_iff.2 (mem_loadSnapshots.2 ⟨s, hs.1, hfile⟩), hs.2⟩
  rw [Bucket.droppedIds, snapshotsToDrop, hkeep, List.map_eq_nil_iff,
    List.eq_nil_iff_forall_not_mem]
  intro f hf
  exact not_old_of_kept (P := fun _ => True) (List.pairwise_of_forall fun _ _ _ => trivial)
    (hperm.nodup_iff.2 nodup_loadSnapshots) (fun _ hg => (hstored hg).1)
    (fun g hg hdrop _ => (hstored hg).2 (mem_droppedIds.2 ⟨g, hdrop, rfl⟩)) f hf trivial

def newestTrust (b : Bucket O) (opts : SweepOpts) : List (String × Int) :=
  (b.trustAges opts.ls).insertionSort fun a b => b.2 ≤ a.2

theorem mem_newestTrust {p : String × Int} : p ∈ newestTrust b opts ↔ b.trust[p.1]? = some p.2 := by
  rw [newestTrust, List.mem_insertionSort, Bucket.trustAges, List.mem_filterMap]
  constructor
  · rintro ⟨id, -, hp⟩
    obtain ⟨born, hborn, rfl⟩ := Option.map_eq_some_iff.1 hp
    exact hborn
  · intro hp
    refine ⟨p.1, ?_, by rw [hp]; rfl⟩
    rw [(opts.ls_perm _).mem_iff, Std.TreeMap.mem_keys, Std.TreeMap.mem_iff_isSome_getElem?, hp]
    rfl

theorem newestTrust_pairwise (b : Bucket O) (opts : SweepOpts) :
    (newestTrust b opts).Pairwise fun a b => b.2 ≤ a.2 := by
  have : Std.Total fun a b : String × Int => b.2 ≤ a.2 := ⟨fun a b => le_total b.2 a.2⟩
  have : IsTrans (String × Int) fun a b => b.2 ≤ a.2 := ⟨fun _ _ _ h h' => h'.trans h⟩
  exact List.pairwise_insertionSort _ _

theorem nodup_newestTrust (b : Bucket O) (opts : SweepOpts) : (newestTrust b opts).Nodup := by
  rw [newestTrust, (List.perm_insertionSort _ _).nodup_iff]
  apply ((opts.ls_perm _).nodup_iff.2 Std.TreeMap.nodup_keys).filterMap
  intro id id' p hp hp'
  obtain ⟨_, -, rfl⟩ := Option.map_eq_some_iff.1 hp
  obtain ⟨_, -, heq⟩ := Option.map_eq_some_iff.1 hp'
  exact (congrArg Prod.fst heq).symm

theorem mem_trustToDelete {id : String} : id ∈ trustToDelete (b.trustAges opts.ls) now grace keep ↔
      ∃ born, (id, born) ∈ (newestTrust b opts).drop (max keep 1) ∧ grace ≤ now - born := by
  rw [trustToDelete, ← newestTrust, List.mem_insertionSort, List.mem_map]
  simp only [List.mem_filter, decide_eq_true_eq]
  constructor
  · rintro ⟨p, hp, rfl⟩
    exact ⟨p.2, hp⟩
  · rintro ⟨born, h⟩
    exact ⟨_, h, rfl⟩

theorem trustToDelete_sweep :
    trustToDelete ((b.sweep opts).2.trustAges opts'.ls) opts.now opts.grace (max opts.keep 1) =
      [] := by
  rw [List.eq_nil_iff_forall_not_mem]
  intro id hid
  obtain ⟨born, hmem, hold⟩ := mem_trustToDelete.1 hid
  have hstored {p : String × Int} (hp : p ∈ newestTrust (b.sweep opts).2 opts') :
      p ∈ newestTrust b opts ∧
        p.1 ∉ trustToDelete (b.trustAges opts.ls) opts.now opts.grace (max opts.keep 1) := by
    rw [mem_newestTrust, Bucket.sweep, getElem?_rm] at hp
    split at hp
    next => cases hp
    next hnot => exact ⟨mem_newestTrust.2 hp, hnot⟩
  refine not_old_of_kept (P := fun p : String × Int => opts.grace ≤ opts.now - p.2) ?_
    (nodup_newestTrust _ _) (fun _ hp => (hstored hp).1)
    (fun p hp hdrop hp' => (hstored hp).2 ?_) _ hmem hold
  · apply (newestTrust_pairwise b opts).imp
    intro a b hle ha
    omega
  · exact mem_trustToDelete.2 ⟨p.2, hdrop, hp'⟩

/-- A sweep leaves nothing for a second one at the same time, whatever order the snapshots are
listed in then. -/
theorem second_sweep_deletes_nothing (b : Bucket O) (opts opts' : SweepOpts) :
    ((b.sweep opts).2.sweep
      { opts' with keep := opts.keep, grace := opts.grace, now := opts.now }).1 =
        ⟨[], [], [], []⟩ := by
  have hdropped := @droppedIds_sweep O b opts
    { opts' with keep := opts.keep, grace := opts.grace, now := opts.now } rfl
  refine Swept.mk.injEq .. |>.mpr ⟨hdropped, ?_, ?_, trustToDelete_sweep⟩
  · apply List.eq_nil_iff_forall_not_mem.2
    intro id hid
    obtain ⟨⟨sid, s, hs, _, hsubsumed⟩, e, he, hold⟩ := mem_deleted_entries.1 hid
    rw [snapshots_sweep_eq_some] at hs
    exact (entries_sweep.1 he).2 ⟨⟨sid, s, hs.1, hs.2, hsubsumed⟩, hold⟩
  · apply List.eq_nil_iff_forall_not_mem.2
    intro id hid
    obtain ⟨⟨sid, s, _, hdrop, _⟩, _⟩ := mem_deleted_blobs.1 hid
    rw [hdropped] at hdrop
    cases hdrop

theorem newest_not_deleted {id : String} (h : b.trust[id]? = some born) (opts : SweepOpts) :
    ∃ (id' : String) (born' : Int), b.trust[id']? = some born' ∧ born ≤ born' ∧
      id' ∉ trustToDelete (b.trustAges opts.ls) opts.now opts.grace (max opts.keep 1) := by
  have hmem : (id, born) ∈ newestTrust b opts := mem_newestTrust.2 h
  have hsorted := newestTrust_pairwise b opts
  have hnodup := nodup_newestTrust b opts
  have hstored (p : String × Int) (hp : p ∈ newestTrust b opts) := mem_newestTrust.1 hp
  have hdeleted (id : String) :=
    @mem_trustToDelete O b opts opts.now opts.grace (max opts.keep 1) id
  generalize newestTrust b opts = l at hmem hsorted hnodup hstored hdeleted
  cases l with
  | nil => cases hmem
  | cons p rest =>
    have hp := hstored p List.mem_cons_self
    refine ⟨p.1, p.2, hp, ?_, fun hdelete => ?_⟩
    · rcases List.mem_cons.1 hmem with heq | hrest
      · exact (congrArg Prod.snd heq).le
      · exact (List.pairwise_cons.1 hsorted).1 _ hrest
    · obtain ⟨born', hdrop, -⟩ := (hdeleted p.1).1 hdelete
      -- at least the first of the list is kept
      obtain ⟨n, hn⟩ : ∃ n, max (max opts.keep 1) 1 = n + 1 :=
        ⟨max (max opts.keep 1) 1 - 1, by omega⟩
      rw [hn, List.drop_succ_cons] at hdrop
      have hrest := List.mem_of_mem_drop hdrop
      have hborn := hstored _ (List.mem_cons_of_mem p hrest)
      cases Option.some.inj (hp.symm.trans hborn)
      exact (List.nodup_cons.1 hnodup).1 hrest

/-- The server is never left with older trust bundles only, let alone with none. -/
theorem newer_trust_stays (b : Bucket O) (calls : List (BucketCall O)) (id : String) (born : Int)
    (h : b.trust[id]? = some born) : ∃ (id' : String) (born' : Int),
      (runAll Bucket.step b calls).trust[id']? = some born' ∧ born ≤ born' := by
  induction calls generalizing b id born with
  | nil => exact ⟨id, born, h, le_rfl⟩
  | cons call calls ih =>
    have hstep : ∃ (id' : String) (born' : Int),
        (b.step call).trust[id']? = some born' ∧ born ≤ born' := by
      cases call with
      | putEntry now id' ops blobRefs => exact ⟨id, born, h, le_rfl⟩
      | putSnapshot now id' ops subsumed blobRefs => exact ⟨id, born, h, le_rfl⟩
      | putBlob now id' => exact ⟨id, born, h, le_rfl⟩
      | putTrust now id' => exact ⟨id, born, getElem?_insertIfNew_of_some h, le_rfl⟩
      | sweep opts =>
        obtain ⟨id', born', hstored, hle, hnot⟩ := newest_not_deleted h opts
        exact ⟨id', born', (getElem?_rm _ _ _).trans ((if_neg hnot).trans hstored), hle⟩
    obtain ⟨id', born', hstored, hle⟩ := hstep
    obtain ⟨last, born'', hlast, hle'⟩ := ih _ id' born' hstored
    exact ⟨last, born'', hlast, hle.trans hle'⟩

theorem newer_trust_stays_swept :
    ((⟨∅, ∅, ∅, (∅ : Std.TreeMap String Int).insert "a" 1⟩ : Bucket Nat).trust["a"]? = some 1) ∧
      ∃ (id' : String) (born' : Int), (runAll Bucket.step
        (⟨∅, ∅, ∅, (∅ : Std.TreeMap String Int).insert "a" 1⟩ : Bucket Nat)
        [.putTrust 2000 "b", .sweep ⟨0, 0, 9000, id, fun _ => .rfl⟩]).trust[id']? = some born' ∧
          1 ≤ born' :=
  ⟨by decide +kernel, newer_trust_stays _ _ "a" 1 (by decide +kernel)⟩

end Roam.Retention
