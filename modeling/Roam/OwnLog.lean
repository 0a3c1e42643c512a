import Roam.DocModel
import Roam.PlainPlatform
import Roam.StoreCalls

namespace Roam
set_option autoImplicit true
open Library Library.Fallible

namespace Store
variable {π : Platform} {m : DocModel π} {s s' s₀ : Store π}

def appends (s : Store π) : StoreCall π → List Bytes
  | .edit _ e =>
    match π.edit s.doc e with
    | .ok doc =>
      match (s.withDoc doc).newDelta with
      | .ok (some delta) => [delta]
      | _ => []
    | .error _ => []
  | _ => []

theorem mem_appends {c : StoreCall π} (h : delta ∈ s.appends c) :
    ∃ io e doc, c = .edit io e ∧ π.edit s.doc e = .ok doc ∧
      π.exportFrom (π.commit doc) s.persisted = .ok delta := by
  cases c with
  | edit io e =>
    simp only [appends] at h
    split at h
    next doc he =>
      split at h
      next delta' hd =>
        obtain rfl := List.mem_singleton.1 h
        refine ⟨io, e, doc, rfl, he, ?_⟩
        rw [newDelta] at hd
        split at hd
        next =>
          cases hx : π.exportFrom (π.commit doc) s.persisted with
          | error msg =>
            rw [withDoc] at hd
            simp only [hx] at hd
            cases hd
          | ok delta'' =>
            rw [withDoc] at hd
            simp only [hx] at hd
            cases hd
            rfl
        next => cases hd
      next => cases h
    next => cases h
  | importPeer io peer key bytes => cases h
  | applyPeerOps io author key appended => cases h
  | adoptSnapshot io bytes => cases h
  | writeSnapshot io ioMarker now => cases h
  | sync c => cases h

section Foreign

def ForeignPersisted (m : DocModel π) (s : Store π) (S : Set m.Op) : Prop :=
  ∀ o ∈ ready m.past S, m.author o ≠ s.peerId → o ∈ m.known s.persisted

def NoneAwaitsOwn (m : DocModel π) (s : Store π) (S : Set m.Op) : Prop :=
  NoneWaits m.past S (fun o => m.author o ≠ s.peerId) fun o => m.author o = s.peerId

/-- A log whose updates all merge, or of which only such merge as show nothing new. -/
def MergesWhole (m : DocModel π) (s : Store π) (entries : List Entry) : Prop :=
  (∀ doc, replayEntries π s.doc entries = .ok doc →
      s.NoneAwaitsOwn m (m.absorbed s.doc ∪ m.entryOps entries)) ∧
    ∀ merged doc, Stops π s.doc entries merged doc →
      s.NoneAwaitsOwn m (m.absorbed s.doc ∪ m.entryOps merged) ∧
        s.ForeignPersisted m (m.absorbed s.doc ∪ m.entryOps merged)

/-- What an import must be like for its operations not to be taken for own ones later. -/
def Settles (m : DocModel π) (s : Store π) : StoreCall π → Prop
  | .importPeer io peer key bytes =>
    io = .done → ∀ entries, s.Admitted peer key bytes entries → s.MergesWhole m entries
  | .applyPeerOps io author key appended =>
    io = .done → ∀ entries,
      s.Admitted author key (mergeLog (s.exportPeerLog author) appended) entries →
        s.MergesWhole m entries
  | .adoptSnapshot io bytes =>
    ∀ doc, π.importUpdate s.doc bytes = .ok doc →
      s.NoneAwaitsOwn m (m.absorbed s.doc ∪ m.ops bytes) ∧
        (Saves π io doc ∨ s.ForeignPersisted m (m.absorbed s.doc ∪ m.ops bytes))
  | _ => True

/-- Only own operations are left to be persisted, and own operations release no others. -/
structure OwnPending (m : DocModel π) (s : Store π) : Prop where
  owner : m.owner s.doc = s.peerId
  foreign : s.ForeignPersisted m (m.absorbed s.doc)
  waits : s.NoneAwaitsOwn m (m.absorbed s.doc)

theorem OwnPending.congr (h : s.OwnPending m) (hs : SameDoc s s') : s'.OwnPending m := by
  have hid : s'.peerId = s.peerId := congrArg (Identity.peerId π) hs.identity
  refine ⟨?_, ?_, ?_⟩
  · rw [hs.doc, hid]
    exact h.owner
  · rw [ForeignPersisted, hs.doc, hs.persisted, hid]
    exact h.foreign
  · rw [NoneAwaitsOwn, hs.doc, hid]
    exact h.waits

theorem OwnPending.of_caughtUp {doc : π.Doc} (hdoc : s'.doc = π.commit doc)
    (hp : s'.persisted = π.version (π.commit doc)) (howner : m.owner doc = s'.peerId)
    (hw : s'.NoneAwaitsOwn m (m.absorbed doc)) : s'.OwnPending m := by
  refine ⟨?_, ?_, ?_⟩
  · rw [hdoc, (m.commit_eq doc).2, howner]
  · rw [hdoc, (m.commit_eq doc).1, ForeignPersisted, hp, m.version_eq]
    intro o ho _
    exact ho
  · rw [hdoc, (m.commit_eq doc).1]
    exact hw

theorem OwnPending.opened {disk : Disk} (ho : openVault order disk device = .ok s)
    (hw : s.NoneAwaitsOwn m (m.absorbed s.doc)) : s.OwnPending m := by
  obtain ⟨entries, base, own, logs, doc, h⟩ := openVault_iff.1 ho
  obtain ⟨habs, hown, hknown⟩ := m.opened_ok h
  refine ⟨hown, ?_, hw⟩
  intro o ho _
  rw [hknown]
  exact ho

theorem OwnPending.withDoc (h : s.OwnPending m) {doc : π.Doc} (he : π.edit s.doc e = .ok doc) :
    (s.withDoc doc).OwnPending m := by
  obtain ⟨hown, new, habs, hnew⟩ := m.edit_ok s.doc e doc he
  have habs' : m.absorbed (s.withDoc doc).doc = m.absorbed s.doc ∪ new :=
    (m.commit_eq doc).1.trans habs
  have hauthor : ∀ o ∈ new, m.author o = s.peerId := fun o ho => (hnew o ho).1.trans h.owner
  refine ⟨(m.commit_eq doc).2.trans (hown.trans h.owner), ?_, ?_⟩
  · rw [habs']
    intro o ho hf
    cases ready_union_new h.waits hauthor ho hf with
    | inl ho => exact h.foreign o ho hf
    | inr ho => exact absurd (hauthor o ho) hf
  · rw [habs']
    exact h.waits.union_new fun o ho => habs ▸ (hnew o ho).2.2

theorem OwnPending.edited (h : s.OwnPending m) (ho : Edited io e s r s') : s'.OwnPending m := by
  cases ho with
  | refused msg he => exact h
  | unexported doc msg he hd => exact h.withDoc he
  | nothing doc he hv => exact h.withDoc he
  | failed doc delta err he hd hio => exact (h.withDoc he).congr (putOps_sameDoc _ _ _)
  | logged doc delta he hd hio =>
    have hdoc := h.withDoc he
    refine .of_caughtUp rfl rfl ((m.commit_eq doc).2.symm.trans hdoc.owner) ?_
    have hw := hdoc.waits
    rw [Store.withDoc, (m.commit_eq doc).1] at hw
    exact hw

theorem OwnPending.imported (h : s.OwnPending m) (ho : Imported io peer key bytes s r s')
    (hc : s.Settles m (.importPeer io peer key bytes)) : s'.OwnPending m := by
  cases ho with
  | refused err => exact h
  | unwritten entries err ha hio => exact h.congr (putOps_sameDoc _ _ _)
  | stopped entries merged doc err ha hio hs =>
    obtain ⟨habs, hown⟩ := m.stops_ok hs
    obtain ⟨hw, hf⟩ := (hc hio entries ha).2 merged doc hs
    rw [← habs] at hw hf
    exact ⟨hown.trans h.owner, hf, hw⟩
  | merged entries doc ha hio hr =>
    obtain ⟨habs, hown⟩ := m.replay_ok hr
    have hw := (hc hio entries ha).1 doc hr
    rw [← habs] at hw
    exact .of_caughtUp rfl rfl (hown.trans h.owner) hw

theorem OwnPending.adopted (h : s.OwnPending m) (ho : Adopted io bytes s r s')
    (hc : s.Settles m (.adoptSnapshot io bytes)) : s'.OwnPending m := by
  cases ho with
  | refused msg hi => exact h
  | unsaved doc err hi hu =>
    obtain ⟨habs, hown⟩ := m.import_ok s.doc bytes doc hi
    obtain ⟨hw, hsaved⟩ := hc doc hi
    have hf := hsaved.resolve_left hu
    rw [← habs, ← (m.commit_eq doc).1] at hw hf
    exact ⟨(m.commit_eq doc).2.trans (hown.trans h.owner), hf, hw⟩
  | adopted doc merged hi hm hio =>
    obtain ⟨habs, hown⟩ := m.import_ok s.doc bytes doc hi
    have hw := (hc doc hi).1
    rw [← habs] at hw
    exact .of_caughtUp rfl rfl (hown.trans h.owner) hw

theorem OwnPending.step (h : s.OwnPending m) (hc : s.Settles m c) : (s.after c).OwnPending m := by
  cases c with
  | edit io e => exact h.edited (editDoc_outcome io e s)
  | importPeer io peer key bytes => exact h.imported (importPeerIo_outcome io peer key bytes s) hc
  | applyPeerOps io author key appended =>
    obtain ⟨_, ho⟩ := applyPeerOpsIo_outcome io author key appended s
    exact h.imported ho hc
  | adoptSnapshot io bytes => exact h.adopted (adoptSnapshot_outcome io bytes s) hc
  | writeSnapshot io ioMarker now =>
    exact writeSnapshot_outcome (P := (·.OwnPending m)) io ioMarker now h
      fun _ _ _ => h.congr ⟨rfl, rfl, rfl⟩
  | sync c => exact h.congr (syncCall_sameData c s).toSameDoc

theorem OwnPending.appends (h : s.OwnPending m) (hd : delta ∈ s.appends c) (ho : o ∈ m.ops delta) :
    m.author o = s.peerId := by
  obtain ⟨io, e, doc, rfl, he, hx⟩ := mem_appends hd
  rw [m.export_ok _ _ _ hx] at ho
  by_contra hne
  exact ho.2 ((h.withDoc he).foreign o ho.1 hne)

/-- In a run from an opened vault in which every import merges whole or shows nothing new, only
own operations are handed to the own log. -/
theorem appends_own {disk : Disk} (m : DocModel π) (ho : openVault order disk device = .ok s₀)
    (hw : s₀.NoneAwaitsOwn m (m.absorbed s₀.doc)) (calls : List (StoreCall π))
    (hc : Along after (Settles m) s₀ calls) :
    ∀ delta ∈ outputs after appends s₀ calls, ∀ o ∈ m.ops delta, m.author o = s₀.peerId := by
  have hstep (s : Store π) (c : StoreCall π)
      (h : s.identity = s₀.identity ∧ s.OwnPending m) (hc : s.Settles m c) :
      (s.after c).identity = s₀.identity ∧ (s.after c).OwnPending m :=
    ⟨(after_identity s c).trans h.1, h.2.step hc⟩
  refine hc.outputs hstep ?_ ⟨rfl, .opened ho hw⟩
  intro s c h _ delta hd o hop
  rw [h.2.appends hd hop, peerId, peerId, h.1]

end Foreign

end Store

def sampleOps : List Nat := List.range 16

def sampleAuthor (o : Nat) : UInt64 := derivedPeerId (.replicate (UInt8.ofNat (o / 4)))

def SamplePast (o q : Nat) : Prop := q ∈ sampleOps ∧ q / 4 = o / 4 ∧ q < o

def sampleReady (ops : List Nat) : List Nat :=
  sampleOps.filter fun o => o ∈ ops ∧ ∀ q ∈ sampleOps, q / 4 = o / 4 ∧ q < o → q ∈ ops

def sampleUpdate (update : Bytes) : List Nat := update.map UInt8.toNat

def sampleBytes (ops : List Nat) : Bytes := ops.map UInt8.ofNat

structure SampleDoc where
  peer : UInt64
  ops : List Nat

abbrev SampleVersion := { ops : List Nat // sampleOps.filter (· ∈ ops) = ops }

def sampleVersion (ops : List Nat) : SampleVersion :=
  ⟨sampleOps.filter (· ∈ ops), by
    apply List.filter_congr
    intro o ho
    simp only [List.mem_filter, ho, decide_eq_true_eq, true_and]⟩

def sampleImport (doc : SampleDoc) (update : Bytes) : Except String SampleDoc :=
  if ∀ o ∈ sampleUpdate update, o ∈ sampleOps then
    .ok { doc with ops := doc.ops ++ sampleUpdate update }
  else .error "unknown operation"

def sampleDocs : DocLib where
  Doc := SampleDoc
  Version := SampleVersion
  Frontier := SampleVersion
  versionEq := inferInstance
  versionBytes v := sampleBytes v.1
  versionOf bytes := .ok (sampleVersion (sampleUpdate bytes))
  includes v w := w.1 ⊆ v.1
  frontierBytes v := sampleBytes v.1
  frontierOf bytes := .ok (sampleVersion (sampleUpdate bytes))
  newDoc peer := .ok ⟨peer, []⟩
  fromSnapshot peer bytes := sampleImport ⟨peer, []⟩ bytes
  edit doc _ :=
    match sampleOps.find? fun o => sampleAuthor o = doc.peer ∧ o ∉ doc.ops with
    | some o => .ok { doc with ops := doc.ops ++ [o] }
    | none => .error "no operation left"
  importUpdate := sampleImport
  importAuthoredBy doc author update :=
    if ∀ o ∈ sampleUpdate update, sampleAuthor o = author then sampleImport doc update
    else .error "foreign operation"
  commit doc := doc
  version doc := sampleVersion (sampleReady doc.ops)
  exportFrom doc v := .ok (sampleBytes ((sampleReady doc.ops).filter fun o => o ∉ v.1))
  snapshot doc := .ok (sampleBytes (sampleReady doc.ops))
  oplogFrontier doc := sampleVersion (sampleReady doc.ops)
  shallowSnapshot doc _ := .ok (sampleBytes (sampleReady doc.ops))
  checkout doc _ := .ok doc
  checkoutLatest doc := doc
  entries _ _ := []

abbrev samplePlatform : Platform := { openPlatform with toDocLib := sampleDocs }

theorem samplePlatform_framed : samplePlatform.Framed where
  roster := openPlatform_framed.roster
  key := openPlatform_framed.key
  op := openPlatform_framed.op
  b64 := openPlatform_framed.b64
  sig_length := openPlatform_framed.sig_length
  verify_sign := openPlatform_framed.verify_sign
  valid_publicKey := openPlatform_framed.valid_publicKey
  rosterFramed := openPlatform_framed.rosterFramed
  keyFramed := openPlatform_framed.keyFramed
  opFramed := openPlatform_framed.opFramed

theorem mem_sampleReady {ops : List Nat} :
    o ∈ sampleReady ops ↔ o ∈ ready SamplePast { o | o ∈ ops ∧ o ∈ sampleOps } := by
  simp only [sampleReady, List.mem_filter, decide_eq_true_eq]
  constructor
  · intro ho
    exact ⟨⟨ho.2.1, ho.1⟩, fun q hq => ⟨ho.2.2 q hq.1 hq.2, hq.1⟩⟩
  · intro ho
    exact ⟨ho.1.2, ho.1.1, fun q hq hp => (ho.2 ⟨hq, hp⟩).1⟩

theorem sampleReady_subset (h : o ∈ sampleReady ops) : o ∈ sampleOps := (List.mem_filter.1 h).1

theorem sampleUpdate_bytes {ops : List Nat} (h : ∀ o ∈ ops, o ∈ sampleOps) :
    sampleUpdate (sampleBytes ops) = ops := by
  rw [sampleUpdate, sampleBytes, List.map_map, List.map_congr_left, List.map_id]
  intro o ho
  have hlt := List.mem_range.1 (h o ho)
  exact UInt8.toNat_ofNat_of_lt (hlt.trans (by decide))

theorem sampleOps_sorted : sampleOps.Pairwise (· < ·) := by decide +kernel

theorem mem_sampleVersion : o ∈ (sampleVersion ops).1 ↔ o ∈ sampleOps ∧ o ∈ ops := by
  rw [sampleVersion, List.mem_filter, decide_eq_true_eq]

theorem sampleEdit_next {doc : SampleDoc}
    (h : sampleOps.find? (fun o => sampleAuthor o = doc.peer ∧ o ∉ doc.ops) = some o) :
    sampleAuthor o = doc.peer ∧ o ∉ doc.ops ∧ o ∈ sampleOps ∧
      ∀ q, SamplePast o q → q ∈ doc.ops := by
  obtain ⟨ho, before, after, hsplit, hbefore⟩ := List.find?_eq_some_iff_append.1 h
  simp only [decide_eq_true_eq] at ho
  refine ⟨ho.1, ho.2, List.mem_of_find?_eq_some h, ?_⟩
  intro q hq
  obtain ⟨hmem, htag, hlt⟩ := hq
  have hauthor : sampleAuthor q = doc.peer := by rw [← ho.1, sampleAuthor, sampleAuthor, htag]
  rw [hsplit, List.mem_append, List.mem_cons] at hmem
  rcases hmem with hm | rfl | hm
  · by_contra hnot
    have := hbefore q hm
    simp only [hauthor, hnot, not_false_eq_true, and_self, decide_true, Bool.not_true,
      Bool.false_eq_true] at this
  · exact absurd hlt (lt_irrefl q)
  · have hsorted := sampleOps_sorted
    rw [hsplit, List.pairwise_append, List.pairwise_cons] at hsorted
    exact absurd (hsorted.2.1.1 q hm) (lt_asymm hlt)

theorem sampleImport_ok {doc doc' : SampleDoc} (h : sampleImport doc update = .ok doc') :
    (∀ o ∈ sampleUpdate update, o ∈ sampleOps) ∧
      doc' = { doc with ops := doc.ops ++ sampleUpdate update } := by
  rw [sampleImport] at h
  split at h
  next hall =>
    cases h
    exact ⟨hall, rfl⟩
  next => cases h

def sampleModel : DocModel samplePlatform where
  Op := Nat
  author := sampleAuthor
  past := SamplePast
  absorbed doc := { o | o ∈ SampleDoc.ops doc ∧ o ∈ sampleOps }
  owner doc := SampleDoc.peer doc
  ops bytes := { o | o ∈ sampleUpdate bytes }
  known v := { o | o ∈ v.1 }
  known_injective := by
    intro v w h
    apply Subtype.ext
    rw [← v.2, ← w.2]
    apply List.filter_congr
    intro o _
    exact decide_eq_decide.2 (Set.ext_iff.1 h o)
  newDoc_ok := by
    intro p doc h
    cases h
    refine ⟨?_, rfl⟩
    ext o
    simp only [List.not_mem_nil, false_and, Set.ofPred_false]
  fromSnapshot_ok := by
    intro p bytes doc h
    obtain ⟨hall, rfl⟩ := sampleImport_ok h
    refine ⟨?_, rfl⟩
    ext o
    simp only [List.nil_append, Set.mem_ofPred_eq]
    exact ⟨fun ho => ho.1, fun ho => ⟨ho, hall o ho⟩⟩
  import_ok := by
    intro doc bytes doc' h
    obtain ⟨hall, rfl⟩ := sampleImport_ok h
    refine ⟨?_, rfl⟩
    ext o
    simp only [List.mem_append, Set.mem_ofPred_eq, Set.mem_union, or_and_right]
    exact or_congr Iff.rfl ⟨fun ho => ho.1, fun ho => ⟨ho, hall o ho⟩⟩
  commit_eq _ := ⟨rfl, rfl⟩
  edit_ok := by
    intro doc e doc' h
    simp only [sampleDocs] at h
    split at h
    next o hfind =>
      cases h
      obtain ⟨hauthor, hnot, hmem, hpast⟩ := sampleEdit_next hfind
      refine ⟨rfl, {o}, ?_, ?_⟩
      · ext q
        simp only [List.mem_append, List.mem_singleton, Set.mem_ofPred_eq, Set.mem_union,
          Set.mem_singleton_iff, or_and_right]
        refine or_congr Iff.rfl ⟨fun hq => hq.1, ?_⟩
        rintro rfl
        exact ⟨rfl, hmem⟩
      · rintro q rfl
        refine ⟨hauthor, fun hq => hnot hq.1, ?_⟩
        intro p hp
        exact ⟨List.mem_append_left _ (hpast p hp), hp.1⟩
    next => cases h
  version_eq := by
    intro doc
    ext o
    exact mem_sampleVersion.trans
      ⟨fun ho => mem_sampleReady.1 ho.2, fun ho => ⟨ho.1.2, mem_sampleReady.2 ho⟩⟩
  export_ok := by
    intro doc v bytes h
    cases h
    rw [sampleUpdate_bytes fun o ho => sampleReady_subset (List.mem_of_mem_filter ho)]
    ext o
    simp only [List.mem_filter, Set.mem_ofPred_eq, Set.mem_sdiff, mem_sampleReady,
      decide_eq_true_eq]
  snapshot_ok := by
    intro doc bytes h
    cases h
    rw [sampleUpdate_bytes fun o ho => sampleReady_subset ho]
    ext o
    exact mem_sampleReady
  authored := by
    intro doc a bytes doc' h
    simp only [sampleDocs] at h
    split at h
    next hall => exact hall
    next => cases h

theorem sampleModel_noneWaits (S : Set Nat) (self : UInt64) :
    NoneWaits SamplePast S (fun o => sampleAuthor o ≠ self) fun o => sampleAuthor o = self := by
  intro o _ hne q hq hself
  refine absurd ?_ hne
  rw [← hself, sampleAuthor, sampleAuthor, hq.2.1]

def sampleVault (n : UInt8) : Store samplePlatform :=
  Store.fresh (plainIdentity n) ⟨(plainIdentity n).peerId samplePlatform, []⟩

theorem openVault_sampleVault :
    Store.openVault ascending (sampleVault 1).disk (plainIdentity 1) = .ok (sampleVault 1) := by
  have hcollect : collectRosterEntries samplePlatform ascending (sampleVault 1).disk
      ((plainIdentity 1).peerId samplePlatform) ((plainIdentity 1).verifyingKey samplePlatform)
        none = .ok [] := by
    decide +kernel
  apply Store.openVault_iff.2
  exact ⟨[], _, [], [], _, hcollect, rfl, rfl, .nil, rfl, rfl⟩

namespace Store
variable {π : Platform} {m : DocModel π} {s s' s₀ : Store π}

def sampleEdit : DocEdit samplePlatform.Frontier := .insertText "text" 0 "x"

theorem appends_own_around_adoption :
    ∃ calls, outputs after appends (sampleVault 1) calls = [[4], [5], [5, 6]] ∧
      ∀ delta ∈ outputs after appends (sampleVault 1) calls, ∀ o ∈ sampleModel.ops delta,
        sampleModel.author o = (sampleVault 1).peerId := by
  refine ⟨[.edit .done sampleEdit, .adoptSnapshot .done [8],
    .edit (.refused "no space left on device") sampleEdit, .edit .done sampleEdit], ?_, ?_⟩
  · decide +kernel
  · refine appends_own sampleModel openVault_sampleVault (sampleModel_noneWaits _ _) _ ?_
    refine ⟨trivial, ?_, trivial, trivial, trivial⟩
    intro doc _
    exact ⟨sampleModel_noneWaits _ _, .inl ⟨rfl, _, rfl⟩⟩

/-- A snapshot that was merged but not saved is signed as own by the next edit. -/
theorem not_appends_own_unsaved :
    openVault ascending (sampleVault 1).disk (plainIdentity 1) = .ok (sampleVault 1) ∧
      ∃ calls, ∃ delta ∈ outputs after appends (sampleVault 1) calls,
        ∃ o ∈ sampleModel.ops delta, sampleModel.author o ≠ (sampleVault 1).peerId := by
  let calls : List (StoreCall samplePlatform) :=
    [.adoptSnapshot (.refused "no space left on device") [8], .edit .done sampleEdit]
  have hout : outputs after appends (sampleVault 1) calls = [[4, 8]] ∧
      sampleAuthor 8 ≠ (sampleVault 1).peerId := by
    decide +kernel
  refine ⟨openVault_sampleVault, calls, [4, 8], ?_, (8 : Nat), ?_, hout.2⟩
  · rw [hout.1]
    exact List.mem_cons_self
  · exact List.mem_cons_of_mem 4 List.mem_cons_self

section Unlogged

def Logs (m : DocModel π) (s : Store π) (o : m.Op) : Prop :=
  ∃ line ∈ textLines (s.exportPeerLog s.peerId),
    ∃ e, (opReader π s.peerId s.selfKey).Reads line e ∧ o ∈ m.ops e.update

def OwnPersisted (m : DocModel π) (s : Store π) : Prop :=
  ∀ o ∈ ready m.past (m.absorbed s.doc), m.author o = s.peerId → o ∈ m.known s.persisted

/-- What a call must be like for own operations that were not logged to be logged later: no part
of a line is left in the log, and `persisted` does not move past them. -/
def KeepsUnlogged (m : DocModel π) (s : Store π) : StoreCall π → Prop
  | .edit io _ => ∀ more msg, io ≠ .torn more msg
  | .importPeer io peer key bytes =>
    io = .done → ∀ entries doc, s.Admitted peer key bytes entries →
      replayEntries π s.doc entries = .ok doc → s.OwnPersisted m
  | .applyPeerOps io author key appended =>
    io = .done → ∀ entries doc,
      s.Admitted author key (mergeLog (s.exportPeerLog author) appended) entries →
        replayEntries π s.doc entries = .ok doc → s.OwnPersisted m
  | .adoptSnapshot io bytes =>
    ∀ doc, π.importUpdate s.doc bytes = .ok doc →
      (Saves π io doc → s.OwnPersisted m) ∧
        ∀ o ∈ m.ops bytes, m.author o = s.peerId → o ∈ m.absorbed s.doc ∨
          ¬ Saves π io doc ∧ o ∈ ready m.past (m.absorbed s.doc ∪ m.ops bytes)
  | _ => True

def AllLogged (m : DocModel π) (s : Store π) : Prop :=
  ∀ o ∈ m.absorbed s.doc, m.author o = s.peerId → s.Logs m o

structure LoggedOrPending (m : DocModel π) (s : Store π) : Prop where
  owner : m.owner s.doc = s.peerId
  whole : Terminated 10 (s.exportPeerLog s.peerId)
  known : m.known s.persisted ⊆ m.absorbed s.doc
  logged : ∀ o ∈ m.absorbed s.doc, m.author o = s.peerId →
    s.Logs m o ∨ o ∈ ready m.past (m.absorbed s.doc) ∧ o ∉ m.known s.persisted

def ownLine (s : Store π) (update : Bytes) : Bytes :=
  π.opJson.render (EntryLine.ofUpdate π s.peerId s.identity update)

theorem exportPeerLog_putOps (s : Store π) (peer other : UInt64) (file : Option Bytes) :
    (s.putOps peer file).exportPeerLog other =
      if peer = other then (file.or s.disk.ops[other]?).getD [] else s.exportPeerLog other := by
  cases file with
  | none =>
    simp only [putOps, exportPeerLog, Option.none_or, ite_self]
  | some bytes =>
    simp only [putOps, withOps, exportPeerLog, get_insert, Option.some_or, Option.getD_some]
    split
    next => rfl
    next => rfl

theorem exportPeerLog_appended (hio : ∀ more msg, io ≠ .torn more msg) (update : Bytes) :
    (s.appended io update).exportPeerLog s.peerId = s.exportPeerLog s.peerId ∧ io ≠ .done ∨
      (s.appended io update).exportPeerLog s.peerId =
        s.exportPeerLog s.peerId ++ (s.ownLine update ++ [10]) := by
  rw [appended, exportPeerLog_putOps, if_pos rfl]
  cases io with
  | done => exact .inr rfl
  | unsynced msg => exact .inr rfl
  | torn more msg => exact absurd rfl (hio more msg)
  | refused msg =>
    refine .inl ⟨?_, by rintro ⟨⟩⟩
    simp only [Io.append, Option.or_self, exportPeerLog]

section
variable (hπ : π.Lawful)
include hπ

theorem reads_ownLine (s : Store π) (update : Bytes) :
    (opReader π s.peerId s.selfKey).Reads (s.ownLine update) { peerId := s.peerId, update } := by
  refine ⟨EntryLine.ofUpdate π s.peerId s.identity update, ?_,
    EntryLine.check_ofUpdate hπ s.identity update⟩
  exact malformed_eq_ok.2 (hπ.op.parse_render _)

theorem textLines_ownLine (h : Terminated 10 text) (update : Bytes) :
    textLines (text ++ (s.ownLine update ++ [10])) = textLines text ++ [s.ownLine update] := by
  obtain ⟨lines, hl, rfl⟩ := h.exists_lines
  have hobj := hπ.op.object (EntryLine.ofUpdate π s.peerId s.identity update)
  have hjoin : joinLines 10 lines ++ (s.ownLine update ++ [10]) =
      joinLines 10 (lines ++ [s.ownLine update]) ++ [] := by
    rw [joinLines_append, joinLines_cons, List.append_nil]
    rfl
  have hall : ∀ line ∈ lines ++ [s.ownLine update], 10 ∉ line :=
    List.forall_mem_append.2 ⟨hl, List.forall_mem_singleton.2 hobj.single⟩
  have hlines := textLines_joinLines hl (@List.not_mem_nil UInt8 10)
  rw [if_pos rfl, List.append_nil, List.append_nil] at hlines
  rw [hjoin, textLines_joinLines hall List.not_mem_nil, if_pos rfl, List.append_nil, hlines,
    List.map_append, List.map_singleton]
  exact congrArg (fun line => _ ++ [line]) hobj.stripCr

end

structure SameLog (s s' : Store π) : Prop where
  identity : s'.identity = s.identity
  log : s'.exportPeerLog s.peerId = s.exportPeerLog s.peerId

theorem SameLog.peerId (h : SameLog s s') : s'.peerId = s.peerId :=
  congrArg (Identity.peerId π) h.identity

theorem SameLog.selfKey (h : SameLog s s') : s'.selfKey = s.selfKey :=
  congrArg (Identity.verifyingKey π) h.identity

theorem Logs.congr (h : s.Logs m o) (hs : SameLog s s') : s'.Logs m o := by
  rw [Logs, hs.peerId, hs.log, hs.selfKey]
  exact h

theorem SameLog.putOps (hp : peer ≠ s.peerId) (file : Option Bytes) :
    SameLog s (s.putOps peer file) where
  identity := (putOps_sameDoc s peer file).identity
  log := by rw [exportPeerLog_putOps, if_neg hp]

theorem LoggedOrPending.grow (h : s.LoggedOrPending m) (hs : SameLog s s')
    (hp : s'.persisted = s.persisted) (hown : m.owner s'.doc = m.owner s.doc)
    (habs : m.absorbed s'.doc = m.absorbed s.doc ∪ new)
    (hnew : ∀ o ∈ new, m.author o = s.peerId → o ∈ m.absorbed s.doc ∨
      o ∈ ready m.past (m.absorbed s.doc ∪ new) ∧ o ∉ m.known s.persisted) :
    s'.LoggedOrPending m where
  owner := by rw [hown, h.owner, hs.peerId]
  whole := by
    rw [hs.peerId, hs.log]
    exact h.whole
  known := by
    rw [hp, habs]
    exact h.known.trans Set.subset_union_left
  logged := by
    rw [habs, hp, hs.peerId]
    intro o ho ha
    have hold (ho : o ∈ m.absorbed s.doc) : s'.Logs m o ∨
        o ∈ ready m.past (m.absorbed s.doc ∪ new) ∧ o ∉ m.known s.persisted := by
      cases h.logged o ho ha with
      | inl hl => exact .inl (hl.congr hs)
      | inr hr => exact .inr ⟨ready_mono Set.subset_union_left hr.1, hr.2⟩
    cases ho with
    | inl ho => exact hold ho
    | inr ho =>
      cases hnew o ho ha with
      | inl ho => exact hold ho
      | inr ho => exact .inr ho

theorem LoggedOrPending.of_allLogged {doc : π.Doc} (hdoc : s'.doc = π.commit doc)
    (hp : s'.persisted = π.version (π.commit doc)) (hown : m.owner doc = s'.peerId)
    (hw : Terminated 10 (s'.exportPeerLog s'.peerId)) (hl : s'.AllLogged m) :
    s'.LoggedOrPending m where
  owner := by rw [hdoc, (m.commit_eq doc).2, hown]
  whole := hw
  known := by
    rw [hdoc, (m.commit_eq doc).1, hp, m.version_eq]
    exact ready_subset
  logged o ho ha := .inl (hl o ho ha)

theorem LoggedOrPending.appended (hπ : π.Lawful) (h : s.LoggedOrPending m)
    (hd : π.exportFrom s.doc s.persisted = .ok delta)
    (hlog : s'.exportPeerLog s.peerId = s.exportPeerLog s.peerId ++ (s.ownLine delta ++ [10]))
    (hid : s'.identity = s.identity) (hdoc : s'.doc = s.doc) :
    s'.AllLogged m ∧ Terminated 10 (s'.exportPeerLog s'.peerId) := by
  have hpeer : s'.peerId = s.peerId := congrArg (Identity.peerId π) hid
  have hkey : s'.selfKey = s.selfKey := congrArg (Identity.verifyingKey π) hid
  rw [AllLogged, hdoc, hpeer, hlog]
  constructor
  · intro o ho ha
    rw [Logs, hpeer, hkey, hlog, textLines_ownLine hπ h.whole]
    cases h.logged o ho ha with
    | inl hl =>
      obtain ⟨line, hm, hr⟩ := hl
      exact ⟨line, List.mem_append_left _ hm, hr⟩
    | inr hr =>
      refine ⟨_, List.mem_append_right _ List.mem_cons_self, _, reads_ownLine hπ s delta, ?_⟩
      rw [m.export_ok _ _ _ hd]
      exact hr
  · refine .inr ?_
    rw [← List.append_assoc, List.getLast?_concat]

theorem LoggedOrPending.withDoc (h : s.LoggedOrPending m) {doc : π.Doc}
    (he : π.edit s.doc e = .ok doc) : (s.withDoc doc).LoggedOrPending m := by
  obtain ⟨hown, new, habs, hnew⟩ := m.edit_ok s.doc e doc he
  refine h.grow ⟨rfl, rfl⟩ rfl ((m.commit_eq doc).2.trans hown) ((m.commit_eq doc).1.trans habs) ?_
  intro o ho _
  obtain ⟨_, hnot, hpast⟩ := hnew o ho
  exact .inr ⟨⟨.inr ho, habs ▸ hpast⟩, fun hk => hnot (h.known hk)⟩

theorem LoggedOrPending.congr (h : s.LoggedOrPending m) (hs : SameLog s s')
    (hp : s'.persisted = s.persisted) (hdoc : s'.doc = s.doc) : s'.LoggedOrPending m := by
  have habs : m.absorbed s'.doc = m.absorbed s.doc ∪ ∅ := by rw [hdoc, Set.union_empty]
  refine h.grow hs hp (congrArg m.owner hdoc) habs ?_
  intro o ho
  cases ho

theorem LoggedOrPending.caughtUp (hπ : π.Lawful) (h : s.LoggedOrPending m)
    (hd : π.exportFrom s.doc s.persisted = .ok delta) :
    (s.appended .done delta).caughtUp.AllLogged m ∧
      Terminated 10 ((s.appended .done delta).caughtUp.exportPeerLog s.peerId) := by
  refine h.appended hπ hd ?_ rfl rfl
  cases @exportPeerLog_appended _ s .done (fun _ _ => nofun) delta with
  | inl hlog => exact absurd rfl hlog.2
  | inr hlog => exact hlog

theorem LoggedOrPending.edited (hπ : π.Lawful) (h : s.LoggedOrPending m)
    (hio : ∀ more msg, io ≠ .torn more msg) (ho : Edited io e s r s') : s'.LoggedOrPending m := by
  cases ho with
  | refused msg he => exact h
  | unexported doc msg he hd => exact h.withDoc he
  | nothing doc he hv => exact h.withDoc he
  | failed doc delta err he hd herr =>
    have hdoc := h.withDoc he
    have hsame := putOps_sameDoc (s.withDoc doc) s.peerId (io.append s.disk.ops[s.peerId]?
      ((s.withDoc doc).ownLine delta ++ [10]))
    cases @exportPeerLog_appended _ (s.withDoc doc) _ hio delta with
    | inl hlog => exact hdoc.congr ⟨hsame.identity, hlog.1⟩ hsame.persisted hsame.doc
    | inr hlog =>
      obtain ⟨hall, hw⟩ := hdoc.appended hπ hd hlog hsame.identity hsame.doc
      have hpeer : ((s.withDoc doc).appended io delta).peerId = s.peerId :=
        congrArg (Identity.peerId π) hsame.identity
      refine ⟨?_, hw, ?_, fun o ho ha => .inl (hall o ho ha)⟩
      · rw [hpeer]
        exact hsame.doc ▸ hdoc.owner
      · exact hsame.doc ▸ hsame.persisted ▸ hdoc.known
  | logged doc delta he hd hdone =>
    obtain ⟨hall, hw⟩ := (h.withDoc he).caughtUp hπ hd
    exact .of_allLogged rfl rfl ((m.commit_eq doc).2.symm.trans (h.withDoc he).owner) hw hall

theorem LoggedOrPending.edited_ok (hπ : π.Lawful) (h : s.LoggedOrPending m)
    (ho : Edited io e s (.ok ()) s') : s'.AllLogged m := by
  cases ho with
  | logged doc delta he hd hdone => exact ((h.withDoc he).caughtUp hπ hd).1
  | nothing doc he hv =>
    intro o ho ha
    cases (h.withDoc he).logged o ho ha with
    | inl hl => exact hl
    | inr hr =>
      have hknown : m.known s.persisted = ready m.past (m.absorbed (π.commit doc)) := by
        rw [← hv, m.version_eq, (m.commit_eq doc).1]
      exact absurd (hknown ▸ hr.1) hr.2

theorem LoggedOrPending.settled (h : s.LoggedOrPending m) (hp : s.OwnPersisted m)
    (hs : SameLog s s') (hown : ∀ o ∈ m.absorbed s'.doc, m.author o = s.peerId →
      o ∈ m.absorbed s.doc) : s'.AllLogged m := by
  intro o ho ha
  rw [hs.peerId] at ha
  cases h.logged o (hown o ho ha) ha with
  | inl hl => exact hl.congr hs
  | inr hr => exact absurd (hp o hr.1 ha) hr.2

theorem LoggedOrPending.imported (h : s.LoggedOrPending m)
    (ho : Imported io peer key bytes s r s')
    (hc : s.KeepsUnlogged m (.importPeer io peer key bytes)) : s'.LoggedOrPending m := by
  cases ho with
  | refused err => exact h
  | unwritten entries err ha hio =>
    have hsame := putOps_sameDoc s peer (io.replace s.disk.ops[peer]? bytes)
    exact h.congr (.putOps ha.other _) hsame.persisted hsame.doc
  | stopped entries merged doc err ha hio hs =>
    obtain ⟨habs, hown⟩ := m.stops_ok hs
    have hlog : SameLog s { s.withOps peer bytes with doc } :=
      ⟨rfl, (SameLog.putOps ha.other (some bytes)).log⟩
    refine h.grow hlog rfl hown habs ?_
    intro o ho hself
    have hpeer := m.authored_of_probed ha.probed (m.entryOps_subset hs.subset ho)
    exact absurd (hpeer.symm.trans hself) ha.other
  | merged entries doc ha hio hr =>
    obtain ⟨habs, hown⟩ := m.replay_ok hr
    have hlog : SameLog s ((s.withOps peer bytes).withDoc doc).caughtUp :=
      ⟨rfl, (SameLog.putOps ha.other (some bytes)).log⟩
    have hall : ((s.withOps peer bytes).withDoc doc).caughtUp.AllLogged m := by
      refine h.settled (hc hio entries doc ha hr) hlog ?_
      intro o ho hself
      have habs' : m.absorbed (π.commit doc) = m.absorbed s.doc ∪ m.entryOps entries :=
        (m.commit_eq doc).1.trans habs
      cases habs' ▸ ho with
      | inl ho => exact ho
      | inr ho =>
        exact absurd ((m.authored_of_probed ha.probed ho).symm.trans hself) ha.other
    refine .of_allLogged rfl rfl (hown.trans h.owner) ?_ hall
    rw [hlog.peerId, hlog.log]
    exact h.whole

theorem LoggedOrPending.adopted (h : s.LoggedOrPending m) (ho : Adopted io bytes s r s')
    (hc : s.KeepsUnlogged m (.adoptSnapshot io bytes)) : s'.LoggedOrPending m := by
  cases ho with
  | refused msg hi => exact h
  | unsaved doc err hi hu =>
    obtain ⟨habs, hown⟩ := m.import_ok s.doc bytes doc hi
    refine h.grow ⟨rfl, rfl⟩ rfl ((m.commit_eq doc).2.trans hown)
      ((m.commit_eq doc).1.trans habs) ?_
    intro o ho ha
    by_cases hin : o ∈ m.absorbed s.doc
    · exact .inl hin
    · have hready := ((hc doc hi).2 o ho ha).resolve_left hin
      exact .inr ⟨hready.2, fun hk => hin (h.known hk)⟩
  | adopted doc merged hi hm hio =>
    obtain ⟨habs, hown⟩ := m.import_ok s.doc bytes doc hi
    have hsaves : Saves π io doc := ⟨hio, merged, hm⟩
    refine .of_allLogged rfl rfl (hown.trans h.owner) h.whole ?_
    refine h.settled ((hc doc hi).1 hsaves) ⟨rfl, rfl⟩ ?_
    intro o ho ha
    have habs' : m.absorbed (π.commit doc) = m.absorbed s.doc ∪ m.ops bytes :=
      (m.commit_eq doc).1.trans habs
    cases habs' ▸ ho with
    | inl ho => exact ho
    | inr ho =>
      cases (hc doc hi).2 o ho ha with
      | inl ho => exact ho
      | inr hu => exact absurd hsaves hu.1

theorem LoggedOrPending.step (hπ : π.Lawful) (h : s.LoggedOrPending m) (hc : s.KeepsUnlogged m c) :
    (s.after c).LoggedOrPending m := by
  cases c with
  | edit io e => exact h.edited hπ hc (editDoc_outcome io e s)
  | importPeer io peer key bytes => exact h.imported (importPeerIo_outcome io peer key bytes s) hc
  | applyPeerOps io author key appended =>
    obtain ⟨_, ho⟩ := applyPeerOpsIo_outcome io author key appended s
    exact h.imported ho hc
  | adoptSnapshot io bytes => exact h.adopted (adoptSnapshot_outcome io bytes s) hc
  | writeSnapshot io ioMarker now =>
    exact writeSnapshot_outcome (P := (·.LoggedOrPending m)) io ioMarker now h
      fun _ _ _ => h.congr ⟨rfl, rfl⟩ rfl rfl
  | sync c =>
    have hs := syncCall_sameData c s
    refine h.congr ⟨hs.identity, ?_⟩ hs.persisted hs.doc
    rw [exportPeerLog, after, StoreCall.run, hs.ops]
    rfl

/-- In a run in which no append leaves a part of a line, and `persisted` never moves past own
operations that were not logged, an edit that succeeds leaves every own operation logged. -/
theorem logged_of_edit_ok {disk : Disk} (hπ : π.Lawful) (m : DocModel π)
    (ho : openVault order disk device = .ok s₀) (hw : Terminated 10 (s₀.exportPeerLog s₀.peerId))
    (hl : s₀.AllLogged m) (calls : List (StoreCall π))
    (hc : Along after (KeepsUnlogged m) s₀ calls) (io : Io) (e : DocEdit π.Frontier)
    (h : exec (editDoc io e) (runAll after s₀ calls) = (.ok (), s')) : s'.AllLogged m := by
  have hstart : s₀.LoggedOrPending m := by
    obtain ⟨entries, base, own, logs, doc, hopen⟩ := openVault_iff.1 ho
    obtain ⟨_, hown, hknown⟩ := m.opened_ok hopen
    exact ⟨hown, hw, hknown ▸ ready_subset, fun o ho ha => .inl (hl o ho ha)⟩
  have hrun : (runAll after s₀ calls).LoggedOrPending m :=
    hc.invariant (fun s c h hc => h.step hπ hc) hstart
  have hout := editDoc_outcome io e (runAll after s₀ calls)
  rw [h] at hout
  exact hrun.edited_ok hπ hout

section
variable (peer : UInt64) (key : Bytes32)

def lineHolds (o : Nat) (line : Bytes) : Bool :=
  ((opReader samplePlatform peer key).parse line >>=
    (opReader samplePlatform peer key).check).toOption.any fun e => o ∈ sampleUpdate e.update

theorem lineHolds_of_reads {o : Nat} (h : (opReader samplePlatform peer key).Reads line e)
    (ho : o ∈ sampleModel.ops e.update) : lineHolds peer key o line = true := by
  have hread := except_bind_eq_ok.2 h
  unfold lineHolds
  rw [hread]
  exact decide_eq_true ho

end

theorem sample_ownPersisted {s : Store samplePlatform}
    (h : ∀ o ∈ sampleReady (SampleDoc.ops s.doc), sampleAuthor o = s.peerId →
      o ∈ Subtype.val s.persisted) : s.OwnPersisted sampleModel :=
  fun o ho ha => h o (mem_sampleReady.2 ho) ha

/-- Two appends that fail, one of them after the line was written, and a snapshot that is adopted
when all was logged. -/
theorem logged_after_failed_appends :
    ∃ calls s', exec (editDoc .done sampleEdit) (runAll after (sampleVault 1) calls) =
      (.ok (), s') ∧ s'.AllLogged sampleModel := by
  let calls : List (StoreCall samplePlatform) :=
    [.edit (.refused "no space left on device") sampleEdit, .edit .done sampleEdit,
      .adoptSnapshot .done [8], .edit (.unsynced "input/output error") sampleEdit]
  let merging :=
    ((sampleVault 1).after (.edit (.refused "no space left on device") sampleEdit)).after
    (.edit .done sampleEdit)
  have hrun : (exec (editDoc .done sampleEdit) (runAll after (sampleVault 1) calls)).1 = .ok () ∧
      (∀ o ∈ sampleReady (SampleDoc.ops merging.doc), sampleAuthor o = merging.peerId →
        o ∈ Subtype.val merging.persisted) ∧
      sampleAuthor 8 ≠ merging.peerId ∧
      (sampleVault 1).exportPeerLog (sampleVault 1).peerId = [] := by
    decide +kernel
  obtain ⟨hok, hmerging, hforeign, hlog⟩ := hrun
  have hadopt : merging.KeepsUnlogged sampleModel (.adoptSnapshot .done [8]) := by
    intro doc _
    refine ⟨fun _ => sample_ownPersisted hmerging, ?_⟩
    intro o ho ha
    obtain rfl : o = (8 : Nat) := List.mem_singleton.1 ho
    exact absurd ha hforeign
  refine ⟨calls, _, exec_of_fst hok, ?_⟩
  refine logged_of_edit_ok samplePlatform_framed.toLawful sampleModel openVault_sampleVault
    (.inl hlog) ?_ calls ?_ .done sampleEdit (exec_of_fst hok)
  · intro o ho _
    cases ho.1
  · exact ⟨fun _ _ => nofun, fun _ _ => nofun, hadopt, fun _ _ => nofun, trivial⟩

def sampleWriter : UInt64 := (plainIdentity 2).peerId samplePlatform

def sampleFound : StoreCall samplePlatform :=
  .sync (.roster (ascending, ascending) (.declareFounder .admin))

def sampleJoin : StoreCall samplePlatform :=
  .sync (.roster (ascending, ascending) (.addPeer sampleWriter (.replicate 2) .writer))

def sampleMerge : StoreCall samplePlatform :=
  .importPeer .done sampleWriter (.replicate 2)
    (OpLog.append samplePlatform sampleWriter none (plainIdentity 2) [8])

/-- An edit that could not be logged is passed over when a peer's log is imported before the next
edit. -/
theorem not_logged_of_edit_ok :
    openVault ascending (sampleVault 1).disk (plainIdentity 1) = .ok (sampleVault 1) ∧
      ∃ calls s', exec (editDoc .done sampleEdit) (runAll after (sampleVault 1) calls) =
        (.ok (), s') ∧ ¬ s'.AllLogged sampleModel := by
  let calls := [sampleFound, sampleJoin, .edit (.refused "no space left on device") sampleEdit,
    sampleMerge]
  let run := exec (editDoc .done sampleEdit) (runAll after (sampleVault 1) calls)
  have hrun : run.1 = .ok () ∧ (4 ∈ SampleDoc.ops run.2.doc ∧ 4 ∈ sampleOps) ∧
      sampleAuthor 4 = run.2.peerId ∧
      (textLines (run.2.exportPeerLog run.2.peerId)).all (fun line =>
        !lineHolds run.2.peerId run.2.selfKey 4 line) = true := by
    decide +kernel
  obtain ⟨hok, hmem, hauthor, hlines⟩ := hrun
  refine ⟨openVault_sampleVault, calls, run.2, exec_of_fst hok, ?_⟩
  intro hall
  obtain ⟨line, hl, e, hr, ho⟩ := hall (4 : Nat) hmem hauthor
  have hnot := List.all_eq_true.1 hlines line hl
  rw [lineHolds_of_reads _ _ hr ho] at hnot
  cases hnot

end Unlogged

end Store

end Roam
