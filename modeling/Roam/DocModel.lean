import Roam.StoreDocSpec
import Roam.Library.Causal

namespace Roam
set_option autoImplicit true
open Library

/-- The documents of a platform as sets of operations. A document absorbs what it imports; an
operation is part of its version, of what it exports and of its snapshots once the causal
predecessors of the operation are there. -/
structure DocModel (π : Platform) where
  Op : Type
  author : Op → UInt64
  past : Op → Set Op
  absorbed : π.Doc → Set Op
  owner : π.Doc → UInt64
  ops : Bytes → Set Op
  known : π.Version → Set Op
  known_injective : Function.Injective known
  newDoc_ok : ∀ p doc, π.newDoc p = .ok doc → absorbed doc = ∅ ∧ owner doc = p
  fromSnapshot_ok : ∀ p bytes doc, π.fromSnapshot p bytes = .ok doc →
    absorbed doc = ops bytes ∧ owner doc = p
  import_ok : ∀ doc bytes doc', π.importUpdate doc bytes = .ok doc' →
    absorbed doc' = absorbed doc ∪ ops bytes ∧ owner doc' = owner doc
  commit_eq : ∀ doc, absorbed (π.commit doc) = absorbed doc ∧ owner (π.commit doc) = owner doc
  edit_ok : ∀ doc e doc', π.edit doc e = .ok doc' → owner doc' = owner doc ∧
    ∃ new, absorbed doc' = absorbed doc ∪ new ∧
      ∀ o ∈ new, author o = owner doc ∧ o ∉ absorbed doc ∧ past o ⊆ absorbed doc'
  version_eq : ∀ doc, known (π.version (π.commit doc)) = ready past (absorbed doc)
  export_ok : ∀ doc v bytes, π.exportFrom doc v = .ok bytes →
    ops bytes = ready past (absorbed doc) \ known v
  snapshot_ok : ∀ doc bytes, π.snapshot doc = .ok bytes → ops bytes = ready past (absorbed doc)
  authored : ∀ doc a bytes doc', π.importAuthoredBy doc a bytes = .ok doc' →
    ∀ o ∈ ops bytes, author o = a

def DocModel.entryOps {π : Platform} (m : DocModel π) (entries : List Entry) : Set m.Op :=
  { o | ∃ e ∈ entries, o ∈ m.ops e.update }

section
variable {π : Platform} {m : DocModel π}

@[simp] theorem DocModel.entryOps_nil : m.entryOps [] = ∅ := by
  ext o
  simp only [entryOps, List.not_mem_nil, false_and, exists_false, Set.ofPred_false]

@[simp] theorem DocModel.entryOps_cons (e : Entry) (entries : List Entry) :
    m.entryOps (e :: entries) = m.ops e.update ∪ m.entryOps entries := by
  ext o
  simp only [entryOps, List.mem_cons, exists_eq_or_imp, Set.mem_ofPred_eq, Set.mem_union]

@[simp] theorem DocModel.entryOps_append (entries entries' : List Entry) :
    m.entryOps (entries ++ entries') = m.entryOps entries ∪ m.entryOps entries' := by
  induction entries with
  | nil => rw [List.nil_append, entryOps_nil, Set.empty_union]
  | cons e entries ih => rw [List.cons_append, entryOps_cons, entryOps_cons, ih, Set.union_assoc]

theorem DocModel.entryOps_subset (h : ∀ e ∈ entries, e ∈ entries') :
    m.entryOps entries ⊆ m.entryOps entries' := by
  intro o ho
  obtain ⟨e, he, ho⟩ := ho
  exact ⟨e, h e he, ho⟩

theorem DocModel.replay_ok {doc doc' : π.Doc} (h : Store.replayEntries π doc entries = .ok doc') :
    m.absorbed doc' = m.absorbed doc ∪ m.entryOps entries ∧ m.owner doc' = m.owner doc := by
  induction entries generalizing doc with
  | nil =>
    cases h
    rw [entryOps_nil, Set.union_empty]
    exact ⟨rfl, rfl⟩
  | cons e entries ih =>
    have hcons : Store.replayEntries π doc (e :: entries) =
        (π.importUpdate doc e.update).mapError StorageError.crdt >>= fun doc =>
          Store.replayEntries π doc entries := rfl
    rw [hcons, except_bind_eq_ok] at h
    obtain ⟨mid, hi, hr⟩ := h
    obtain ⟨habs, hown⟩ := m.import_ok doc e.update mid (mapError_eq_ok.1 hi)
    obtain ⟨habs', hown'⟩ := ih hr
    rw [habs', habs, entryOps_cons, Set.union_assoc]
    exact ⟨rfl, hown'.trans hown⟩

theorem DocModel.stops_ok {doc doc' : π.Doc} (h : Store.Stops π doc entries merged doc') :
    m.absorbed doc' = m.absorbed doc ∪ m.entryOps merged ∧ m.owner doc' = m.owner doc := by
  induction h with
  | here doc e rest msg hi =>
    rw [entryOps_nil, Set.union_empty]
    exact ⟨rfl, rfl⟩
  | later doc mid stop e rest merged hi hs ih =>
    obtain ⟨habs, hown⟩ := m.import_ok doc e.update mid hi
    rw [ih.1, habs, entryOps_cons, Set.union_assoc]
    exact ⟨rfl, ih.2.trans hown⟩

theorem DocModel.authored_of_probed (h : Store.probeAuthored π self peer entries = .ok ())
    (ho : o ∈ m.entryOps entries) : m.author o = peer := by
  obtain ⟨e, he, ho⟩ := ho
  induction entries with
  | nil => cases he
  | cons e' entries ih =>
    have hcons : Store.probeAuthored π self peer (e' :: entries) =
        (Store.probeEntry π self peer e' >>= fun _ => Store.probeAuthored π self peer entries) :=
          rfl
    rw [hcons, except_bind_eq_ok] at h
    obtain ⟨_, hprobe, h⟩ := h
    cases he with
    | tail _ he => exact ih h he
    | head =>
      simp only [Store.probeEntry, except_bind_eq_ok] at hprobe
      obtain ⟨probe, _, doc, himp, _⟩ := hprobe
      exact m.authored probe peer e.update doc (mapError_eq_ok.1 himp) o ho

def DocModel.snapshotOps (m : DocModel π) (snapshot : Option Bytes) : Set m.Op :=
  { o | ∃ bytes, snapshot = some bytes ∧ o ∈ m.ops bytes }

theorem DocModel.baseDoc_ok {base : π.Doc} (h : Store.baseDoc π self snapshot = .ok base) :
    m.absorbed base = m.snapshotOps snapshot ∧ m.owner base = self := by
  cases snapshot with
  | none =>
    obtain ⟨habs, hown⟩ := m.newDoc_ok self base (mapError_eq_ok.1 h)
    refine ⟨?_, hown⟩
    rw [habs]
    simp only [snapshotOps, reduceCtorEq, false_and, exists_false, Set.ofPred_false]
  | some bytes =>
    obtain ⟨habs, hown⟩ := m.fromSnapshot_ok self bytes base (mapError_eq_ok.1 h)
    refine ⟨?_, hown⟩
    rw [habs]
    simp only [snapshotOps, Option.some.injEq, exists_eq_left', Set.ofPred_mem_eq]

theorem DocModel.known_commit (m : DocModel π) (doc : π.Doc) :
    m.known (π.version (π.commit doc)) ⊆ m.absorbed (π.commit doc) := by
  rw [m.version_eq, (m.commit_eq doc).1]
  exact ready_subset

theorem DocModel.opened_ok (h : Store.Opened order disk device entries base own logs doc s) :
    m.absorbed s.doc = m.snapshotOps disk.snapshot ∪ m.entryOps (own ++ logs.flatten) ∧
      m.owner s.doc = s.peerId ∧ m.known s.persisted = ready m.past (m.absorbed s.doc) := by
  obtain ⟨habs, hown⟩ := m.baseDoc_ok h.base_eq
  obtain ⟨habs', hown'⟩ := m.replay_ok h.replayed
  rw [h.store]
  simp only [(m.commit_eq doc).1, (m.commit_eq doc).2, m.version_eq]
  rw [habs', habs, hown', hown]
  exact ⟨rfl, rfl, trivial⟩

end

end Roam
