import Roam.SharedRoster
import Roam.Network
import Roam.OwnLog

namespace Roam
set_option autoImplicit true
open Library Library.Fallible

def Decodes (π : Platform) (update : Bytes) : Prop :=
  ∀ doc, ∃ doc', π.importUpdate doc update = .ok doc'

/-- Documents as sets of operations: whether an update can be merged is a matter of its bytes, and
what a document writes can be read back. -/
structure Platform.Total (π : Platform) : Prop where
  import_any : ∀ doc update doc', π.importUpdate doc update = .ok doc' → Decodes π update
  authored_any : ∀ doc author update doc', π.importAuthoredBy doc author update = .ok doc' →
    Decodes π update
  export_ok : ∀ doc v, ∃ delta, π.exportFrom doc v = .ok delta ∧ Decodes π delta
  snapshot_ok : ∀ doc, ∃ bytes, π.snapshot doc = .ok bytes ∧
    ∀ peer, ∃ doc', π.fromSnapshot peer bytes = .ok doc'

section
variable {π : Platform}

theorem replayEntries_of_decodes {entries : List Entry} (h : ∀ e ∈ entries, Decodes π e.update)
    (doc : π.Doc) : ∃ doc', Store.replayEntries π doc entries = .ok doc' := by
  induction entries generalizing doc with
  | nil => exact ⟨doc, rfl⟩
  | cons e entries ih =>
    obtain ⟨mid, hmid⟩ := h e List.mem_cons_self doc
    obtain ⟨doc', hdoc'⟩ := ih (fun e he => h e (List.mem_cons_of_mem _ he)) mid
    refine ⟨doc', ?_⟩
    rw [Store.replayEntries, List.foldlM_cons, hmid]
    exact hdoc'

theorem Platform.Total.decodes_of_replay (ht : π.Total) {doc doc' : π.Doc}
    (h : Store.replayEntries π doc entries = .ok doc') : ∀ e ∈ entries, Decodes π e.update := by
  induction entries generalizing doc with
  | nil => exact List.forall_mem_nil _
  | cons e entries ih =>
    rw [Store.replayEntries, List.foldlM_cons, except_bind_eq_ok] at h
    obtain ⟨mid, hi, hr⟩ := h
    exact List.forall_mem_cons.2 ⟨ht.import_any doc _ mid (mapError_eq_ok.1 hi), ih hr⟩

theorem not_stops {doc doc' : π.Doc} (h : ∀ e ∈ entries, Decodes π e.update) :
    ¬ Store.Stops π doc entries merged doc' := by
  intro hs
  induction hs with
  | here doc e rest msg hi =>
    obtain ⟨doc', hok⟩ := h e List.mem_cons_self doc
    rw [hi] at hok
    cases hok
  | later doc mid stop e rest merged hi hs ih =>
    exact ih fun e he => h e (List.mem_cons_of_mem _ he)

theorem Platform.Total.decodes_of_probed (ht : π.Total)
    (h : Store.probeAuthored π self peer entries = .ok ()) : ∀ e ∈ entries, Decodes π e.update := by
  induction entries with
  | nil => exact List.forall_mem_nil _
  | cons e entries ih =>
    have hcons : Store.probeAuthored π self peer (e :: entries) =
        (Store.probeEntry π self peer e >>= fun _ => Store.probeAuthored π self peer entries) := rfl
    rw [hcons, except_bind_eq_ok] at h
    obtain ⟨_, hprobe, h⟩ := h
    simp only [Store.probeEntry, except_bind_eq_ok] at hprobe
    obtain ⟨probe, _, doc, himp, _⟩ := hprobe
    exact List.forall_mem_cons.2
      ⟨ht.authored_any probe peer _ doc (mapError_eq_ok.1 himp), ih h⟩

end

namespace Store
variable {π : Platform} {m : DocModel π} {s s' s₀ : Store π}

def Replays (s : Store π) (peer : UInt64) (key : Bytes32) : Prop :=
  peer ≠ s.peerId ∧ ∃ p ∈ s.peers, p.peerId = peer ∧ p.verifyingKey = key ∧ p.status = .active ∧
    π.validKey key = true

def HoldsLog (m : DocModel π) (s : Store π) (peer : UInt64) (key : Bytes32) (S : Set m.Op) : Prop :=
  ∃ entries, readVerified π (opReader π peer key) s.disk.ops[peer]? = .ok entries ∧
    (∀ e ∈ entries, Decodes π e.update) ∧ m.entryOps entries ⊆ S

def ownOps (m : DocModel π) (s : Store π) : Set m.Op :=
  { o | ∃ own, readVerified π (opReader π s.peerId s.selfKey) s.disk.ops[s.peerId]? = .ok own ∧
    o ∈ m.entryOps own }

/-- The operations that do not depend on the roster: those of the snapshot and of the own log. -/
def keptOps (m : DocModel π) (s : Store π) : Set m.Op :=
  m.snapshotOps s.disk.snapshot ∪ s.ownOps m

def ContinuesLog (m : DocModel π) (s : Store π) (peer : UInt64) (key : Bytes32) (bytes : Bytes) :
    Prop :=
  ∀ entries, s.Admitted peer key bytes entries → s.Replays peer key ∧
    ∀ old, readVerified π (opReader π peer key) s.disk.ops[peer]? = .ok old →
      m.entryOps old ⊆ m.entryOps entries ∪ s.keptOps m

/-- What a call must be like for the vault to be reopened as it was. -/
def Reopenable (m : DocModel π) (s : Store π) : StoreCall π → Prop
  | .edit io _ => io = .done
  | .importPeer io peer key bytes => io = .done ∧ s.ContinuesLog m peer key bytes
  | .applyPeerOps io author key appended =>
    io = .done ∧ s.ContinuesLog m author key (mergeLog (s.exportPeerLog author) appended)
  | .adoptSnapshot io bytes =>
    io = .done ∧ ∀ doc, π.importUpdate s.doc bytes = .ok doc →
      m.ops bytes ⊆ m.absorbed s.doc ∪ ready m.past (m.absorbed s.doc ∪ m.ops bytes)
  | .writeSnapshot io ioMarker _ => io = .done ∧ ioMarker = .done
  | .sync c =>
    ((exec c.run s).1 = .ok () ∨ (exec c.run s).2 = s) ∧
      ∀ peer key,
        (s.Replays peer key → ¬ (exec c.run s).2.Replays peer key →
          s.HoldsLog m peer key (s.keptOps m)) ∧
        ((exec c.run s).2.Replays peer key → ¬ s.Replays peer key →
          s.HoldsLog m peer key (m.absorbed s.doc))

def Pinned (s : Store π) : Prop := s.founder = s.disk.founder

structure Reproduces (m : DocModel π) (s : Store π) : Prop where
  refreshed : s.Refreshed
  pinned : s.Pinned
  known : m.known s.persisted ⊆ m.absorbed s.doc
  whole : Terminated 10 (s.exportPeerLog s.peerId)
  base : ∃ base, baseDoc π s.peerId s.disk.snapshot = .ok base
  shown : m.snapshotOps s.disk.snapshot ⊆ ready m.past (m.absorbed s.doc)
  own : s.HoldsLog m s.peerId s.selfKey (m.absorbed s.doc)
  peers : ∀ peer key, s.Replays peer key → s.HoldsLog m peer key (m.absorbed s.doc)
  covered : ∀ o ∈ m.absorbed s.doc, o ∈ s.keptOps m ∨
    ∃ peer key entries, s.Replays peer key ∧
      readVerified π (opReader π peer key) s.disk.ops[peer]? = .ok entries ∧ o ∈ m.entryOps entries

section Roster

structure SameRoster (s s' : Store π) : Prop where
  identity : s'.identity = s.identity
  peers : s'.peers = s.peers
  founder : s'.founder = s.founder
  pin : s'.disk.founder = s.disk.founder
  rosters : s'.disk.rosters = s.disk.rosters

theorem SameRoster.collect (h : SameRoster s s') (order : RosterOrder) :
    s'.collect order = s.collect order := by
  have hwalk : rosterWalk π s'.disk = rosterWalk π s.disk := by
    have hread : readRoster π s'.disk = readRoster π s.disk := by
      funext author key
      simp only [readRoster, h.rosters]
    simp only [rosterWalk, hread]
  have hbound : walkBound s'.disk = walkBound s.disk := by rw [walkBound, walkBound, h.rosters]
  have hseeds (id : UInt64) (key : Bytes32) : trustSeeds π s'.disk id key s.founder =
      trustSeeds π s.disk id key s.founder := by
    simp only [trustSeeds, h.rosters]
  rw [Store.collect, Store.collect, collectRosterEntries, collectRosterEntries, hwalk, hbound,
    h.founder, hseeds, peerId, peerId, selfKey, selfKey, h.identity]

theorem SameRoster.refreshed (h : SameRoster s s') (hr : s.Refreshed) : s'.Refreshed := by
  obtain ⟨order, entries, hc, hp⟩ := hr
  refine ⟨order, entries, (h.collect order).trans hc, ?_⟩
  rw [h.peers, h.founder, hp]

theorem SameRoster.replays (h : SameRoster s s') : s'.Replays peer key ↔ s.Replays peer key := by
  rw [Replays, Replays, peerId, h.identity, h.peers]
  rfl

theorem Refreshed.replays_unique (hr : s.Refreshed) (h : s.Replays peer key)
    (h' : s.Replays peer key') : key' = key := by
  obtain ⟨order, entries, _, hpeers⟩ := hr
  obtain ⟨_, p, hp, hid, rfl, _⟩ := h
  obtain ⟨_, q, hq, hid', rfl, _⟩ := h'
  rw [hpeers] at hp hq
  have hk := (mergeRoster_record hp).1
  have hk' := (mergeRoster_record hq).1
  rw [hid] at hk
  rw [hid'] at hk'
  exact hk'.unique hk

theorem Rostered.refresh (h : Rostered s r s') (hok : r = .ok ()) (hr : s.Refreshed) :
    s'.Refreshed := by
  cases h with
  | unchanged r => exact hr
  | pinned err peer => cases hok
  | refreshed t order hc hf =>
    rw [exec_refreshPeers] at hok ⊢
    split at hok
    next entries he => exact ⟨order, entries, he, rfl⟩
    next => cases hok

theorem Rostered.pin (h : Rostered s r s') (hp : s.Pinned) : s'.Pinned := by
  cases h with
  | unchanged r => exact hp
  | pinned err peer => rfl
  | refreshed t order hc hf =>
    have hs := refreshPeers_sameFiles order t
    rw [Pinned, hs.founder, hs.disk]
    exact hf hp

theorem Refreshed.sync (hr : s.Refreshed) {c : SyncCall} (h : (exec c.run s).1 = .ok ()) :
    (exec c.run s).2.Refreshed := by
  cases syncCall_outcome c s with
  | inl ho => exact ho.refresh h hr
  | inr ho =>
    obtain ⟨author, bytes, ho⟩ := ho
    rw [ho]
    exact SameRoster.refreshed ⟨rfl, rfl, rfl, rfl, rfl⟩ hr

theorem Pinned.sync (h : s.Pinned) (c : SyncCall) : (exec c.run s).2.Pinned := by
  cases syncCall_outcome c s with
  | inl ho => exact ho.pin h
  | inr ho =>
    obtain ⟨author, bytes, ho⟩ := ho
    rw [ho]
    exact h

end Roster

section Steps

theorem HoldsLog.of_file (h : s.HoldsLog m peer key S)
    (hf : s'.disk.ops[peer]? = s.disk.ops[peer]?) (hS : S ⊆ T) : s'.HoldsLog m peer key T := by
  obtain ⟨entries, hread, hdec, hsub⟩ := h
  exact ⟨entries, hf ▸ hread, hdec, hsub.trans hS⟩

theorem ownOps_congr (hid : s'.identity = s.identity)
    (hf : s'.disk.ops[s.peerId]? = s.disk.ops[s.peerId]?) : s'.ownOps m = s.ownOps m := by
  have hpeer : s'.peerId = s.peerId := congrArg (Identity.peerId π) hid
  have hkey : s'.selfKey = s.selfKey := congrArg (Identity.verifyingKey π) hid
  rw [ownOps, ownOps, hpeer, hkey, hf]

theorem ops_putOps_ne (h : peer ≠ other) (file : Option Bytes) :
    (s.putOps peer file).disk.ops[other]? = s.disk.ops[other]? := by
  cases file with
  | none => rfl
  | some bytes =>
    rw [putOps, withOps, get_insert, if_neg h]

theorem Reproduces.of_sameLogs (h : s.Reproduces m) (hs : SameRoster s s')
    (hops : s'.disk.ops = s.disk.ops) (hknown : m.known s'.persisted ⊆ m.absorbed s'.doc)
    (habs : m.absorbed s.doc ⊆ m.absorbed s'.doc)
    (hbase : ∃ base, baseDoc π s.peerId s'.disk.snapshot = .ok base)
    (hshown : m.snapshotOps s'.disk.snapshot ⊆ ready m.past (m.absorbed s'.doc))
    (hkept : m.snapshotOps s.disk.snapshot ⊆ m.snapshotOps s'.disk.snapshot)
    (hnew : m.absorbed s'.doc ⊆ m.absorbed s.doc ∪ m.snapshotOps s'.disk.snapshot) :
    s'.Reproduces m := by
  have hpeer : s'.peerId = s.peerId := congrArg (Identity.peerId π) hs.identity
  have hkey : s'.selfKey = s.selfKey := congrArg (Identity.verifyingKey π) hs.identity
  have hfile (peer : UInt64) : s'.disk.ops[peer]? = s.disk.ops[peer]? := by rw [hops]
  have hkeptOps : s.keptOps m ⊆ s'.keptOps m :=
    Set.union_subset_union hkept (ownOps_congr hs.identity (hfile _)).ge
  exact {
    refreshed := hs.refreshed h.refreshed
    pinned := by
      rw [Pinned, hs.founder, hs.pin]
      exact h.pinned
    known := hknown
    whole := by
      rw [exportPeerLog, hpeer, hfile]
      exact h.whole
    base := hpeer ▸ hbase
    shown := hshown
    own := by
      rw [hpeer, hkey]
      exact h.own.of_file (hfile _) habs
    peers := by
      intro peer key hr
      exact (h.peers peer key (hs.replays.1 hr)).of_file (hfile peer) habs
    covered := by
      intro o ho
      cases hnew ho with
      | inr ho => exact .inl (.inl ho)
      | inl ho =>
        cases h.covered o ho with
        | inl ho => exact .inl (hkeptOps ho)
        | inr ho =>
          obtain ⟨peer, key, entries, hr, hread, ho⟩ := ho
          exact .inr ⟨peer, key, entries, hs.replays.2 hr, hfile peer ▸ hread, ho⟩ }

theorem edit_nothing {doc : π.Doc} (hk : m.known s.persisted ⊆ m.absorbed s.doc)
    (he : π.edit s.doc e = .ok doc) (hv : π.version (π.commit doc) = s.persisted) :
    m.absorbed (π.commit doc) = m.absorbed s.doc := by
  obtain ⟨_, new, habs, hnew⟩ := m.edit_ok s.doc e doc he
  rw [(m.commit_eq doc).1, habs]
  apply Set.union_eq_self_of_subset_right
  intro o ho
  obtain ⟨_, _, hpast⟩ := hnew o ho
  have hready : o ∈ ready m.past (m.absorbed doc) := ⟨habs ▸ .inr ho, hpast⟩
  rw [← m.version_eq, hv] at hready
  exact hk hready

theorem Reproduces.logged (hπ : π.Lawful) (ht : π.Total) (h : s.Reproduces m) {doc : π.Doc}
    (he : π.edit s.doc e = .ok doc) (hd : π.exportFrom (π.commit doc) s.persisted = .ok delta) :
    ((s.withDoc doc).appended .done delta).caughtUp.Reproduces m := by
  obtain ⟨_, new, habs, hnew⟩ := m.edit_ok s.doc e doc he
  have habs' : m.absorbed (π.commit doc) = m.absorbed s.doc ∪ new := (m.commit_eq doc).1.trans habs
  have hsub : m.absorbed s.doc ⊆ m.absorbed (π.commit doc) := habs' ▸ Set.subset_union_left
  have hdelta := m.export_ok _ _ _ hd
  obtain ⟨delta', hd', hdec⟩ := ht.export_ok (π.commit doc) s.persisted
  obtain rfl : delta' = delta := Except.ok.inj (hd'.symm.trans hd)
  obtain ⟨own, hread, hown, hsubOwn⟩ := h.own
  -- the own log with the new line, and what it reads as
  have hfile : ((s.withDoc doc).appended .done delta').caughtUp.disk.ops[s.peerId]? =
      some (appendLine s.disk.ops[s.peerId]? (s.ownLine delta')) :=
    Std.TreeMap.getElem?_insert_self
  have hread' : readVerified π (opReader π s.peerId s.selfKey)
      (some (appendLine s.disk.ops[s.peerId]? (s.ownLine delta'))) =
        .ok (own ++ [{ peerId := s.peerId, update := delta' }]) :=
    readVerified_appendLine h.whole hread (hπ.op.object _) (reads_ownLine hπ s delta')
  have hother (peer : UInt64) (hp : peer ≠ s.peerId) :
      ((s.withDoc doc).appended .done delta').caughtUp.disk.ops[peer]? = s.disk.ops[peer]? :=
    ops_putOps_ne hp.symm _
  have hownOps : s.ownOps m ∪ m.ops delta' ⊆
      ((s.withDoc doc).appended .done delta').caughtUp.ownOps m := by
    intro o ho
    refine ⟨_, (congrArg _ hfile).trans hread', ?_⟩
    rw [m.entryOps_append]
    cases ho with
    | inl ho =>
      obtain ⟨own', hread'', ho⟩ := ho
      obtain rfl : own = own' := Except.ok.inj (hread.symm.trans hread'')
      exact .inl ho
    | inr ho => exact .inr ⟨_, List.mem_cons_self, ho⟩
  have hs : SameRoster s ((s.withDoc doc).appended .done delta').caughtUp :=
    ⟨rfl, rfl, rfl, rfl, rfl⟩
  exact {
    refreshed := hs.refreshed h.refreshed
    pinned := h.pinned
    known := m.known_commit doc
    whole := by
      refine .inr ((congrArg (fun file => (Option.getD file []).getLast?) hfile).trans ?_)
      simp only [Option.getD_some, appendLine, ← List.append_assoc, List.getLast?_concat]
    base := h.base
    shown := h.shown.trans (ready_mono hsub)
    own := by
      refine ⟨_, (congrArg _ hfile).trans hread', ?_, ?_⟩
      · exact List.forall_mem_append.2 ⟨hown, List.forall_mem_singleton.2 hdec⟩
      · rw [m.entryOps_append, m.entryOps_cons, m.entryOps_nil, Set.union_empty, hdelta]
        exact Set.union_subset (hsubOwn.trans hsub) (Set.sdiff_subset.trans ready_subset)
    peers := by
      intro peer key hr
      exact (h.peers peer key (hs.replays.1 hr)).of_file (hother peer hr.1) hsub
    covered := by
      intro o ho
      have hnewOps (ho : o ∈ new) : o ∈ m.ops delta' := by
        obtain ⟨_, hnot, hpast⟩ := hnew o ho
        rw [hdelta, habs']
        rw [habs] at hpast
        exact ⟨⟨.inr ho, hpast⟩, fun hk => hnot (h.known hk)⟩
      cases habs' ▸ ho with
      | inr ho => exact .inl (.inr (hownOps (.inr (hnewOps ho))))
      | inl ho =>
        cases h.covered o ho with
        | inl ho =>
          cases ho with
          | inl ho => exact .inl (.inl ho)
          | inr ho => exact .inl (.inr (hownOps (.inl ho)))
        | inr ho =>
          obtain ⟨peer, key, entries, hr, hread, ho⟩ := ho
          exact .inr ⟨peer, key, entries, hs.replays.2 hr, hother peer hr.1 ▸ hread, ho⟩ }

theorem Reproduces.edited (hπ : π.Lawful) (ht : π.Total) (h : s.Reproduces m)
    (ho : Edited .done e s r s') : s'.Reproduces m := by
  cases ho with
  | refused msg he => exact h
  | unexported doc msg he hd =>
    obtain ⟨delta, hd', _⟩ := ht.export_ok (π.commit doc) s.persisted
    rw [hd] at hd'
    cases hd'
  | nothing doc he hv =>
    have habs := edit_nothing h.known he hv
    refine h.of_sameLogs ⟨rfl, rfl, rfl, rfl, rfl⟩ rfl ?_ habs.ge h.base ?_ subset_rfl ?_
    · exact h.known.trans habs.ge
    · exact habs.symm ▸ h.shown
    · exact habs.le.trans Set.subset_union_left
  | failed doc delta err he hd hio => cases hio
  | logged doc delta he hd hio => exact h.logged hπ ht he hd

theorem Reproduces.imported (ht : π.Total) (h : s.Reproduces m)
    (hc : s.ContinuesLog m peer key bytes) (ho : Imported .done peer key bytes s r s') :
    s'.Reproduces m := by
  cases ho with
  | refused err => exact h
  | unwritten entries err ha hio => exact absurd rfl hio
  | stopped entries merged doc err ha hio hs =>
    exact absurd hs (not_stops (ht.decodes_of_probed ha.probed))
  | merged entries doc ha hio hr =>
    obtain ⟨hreplays, hcont⟩ := hc entries ha
    obtain ⟨habs, _⟩ := m.replay_ok hr
    have habs' : m.absorbed (π.commit doc) = m.absorbed s.doc ∪ m.entryOps entries :=
      (m.commit_eq doc).1.trans habs
    have hsub : m.absorbed s.doc ⊆ m.absorbed (π.commit doc) := habs' ▸ Set.subset_union_left
    have hread : readVerified π (opReader π peer key)
        ((s.withOps peer bytes).withDoc doc).caughtUp.disk.ops[peer]? = .ok entries :=
      (congrArg _ Std.TreeMap.getElem?_insert_self).trans (readVerified_of_verifyBytes ha.verified)
    have hother (p : UInt64) (hp : p ≠ peer) :
        ((s.withOps peer bytes).withDoc doc).caughtUp.disk.ops[p]? = s.disk.ops[p]? :=
      ops_putOps_ne hp.symm (some bytes)
    have hs : SameRoster s ((s.withOps peer bytes).withDoc doc).caughtUp :=
      ⟨rfl, rfl, rfl, rfl, rfl⟩
    have hkept : s.keptOps m ⊆ ((s.withOps peer bytes).withDoc doc).caughtUp.keptOps m :=
      Set.union_subset_union subset_rfl (ownOps_congr hs.identity (hother _ ha.other.symm)).ge
    exact {
      refreshed := hs.refreshed h.refreshed
      pinned := h.pinned
      known := m.known_commit doc
      whole := by
        have hlog := congrArg (Option.getD · []) (hother s.peerId ha.other.symm)
        exact Eq.mpr (congrArg (Terminated 10) hlog) h.whole
      base := h.base
      shown := h.shown.trans (ready_mono hsub)
      own := h.own.of_file (hother _ ha.other.symm) hsub
      peers := by
        intro p k hr
        by_cases hp : p = peer
        · subst hp
          obtain rfl := h.refreshed.replays_unique hreplays (hs.replays.1 hr)
          exact ⟨entries, hread, ht.decodes_of_probed ha.probed, habs' ▸ Set.subset_union_right⟩
        · exact (h.peers p k (hs.replays.1 hr)).of_file (hother p hp) hsub
      covered := by
        intro o ho
        have hnew (ho : o ∈ m.entryOps entries) : ∃ p k es,
            ((s.withOps peer bytes).withDoc doc).caughtUp.Replays p k ∧
              readVerified π (opReader π p k)
                ((s.withOps peer bytes).withDoc doc).caughtUp.disk.ops[p]? = .ok es ∧
              o ∈ m.entryOps es :=
          ⟨peer, key, entries, hs.replays.2 hreplays, hread, ho⟩
        cases habs' ▸ ho with
        | inr ho => exact .inr (hnew ho)
        | inl ho =>
          cases h.covered o ho with
          | inl ho => exact .inl (hkept ho)
          | inr ho =>
            obtain ⟨p, k, es, hr, hes, hop⟩ := ho
            by_cases hp : p = peer
            · subst hp
              obtain rfl := h.refreshed.replays_unique hreplays hr
              cases hcont es hes hop with
              | inl hop => exact .inr (hnew hop)
              | inr hop => exact .inl (hkept hop)
            · exact .inr ⟨p, k, es, hs.replays.2 hr, hother p hp ▸ hes, hop⟩ }

theorem snapshotOps_some (bytes : Bytes) : m.snapshotOps (some bytes) = m.ops bytes := by
  simp only [DocModel.snapshotOps, Option.some.injEq, exists_eq_left', Set.ofPred_mem_eq]

theorem baseDoc_of_snapshot (ht : π.Total) {doc : π.Doc} (h : π.snapshot doc = .ok bytes)
    (self : UInt64) : ∃ base, baseDoc π self (some bytes) = .ok base := by
  obtain ⟨bytes', hb, hfrom⟩ := ht.snapshot_ok doc
  obtain rfl : bytes' = bytes := Except.ok.inj (hb.symm.trans h)
  obtain ⟨base, hbase⟩ := hfrom self
  exact ⟨base, mapError_eq_ok.2 hbase⟩

theorem Reproduces.adopted (ht : π.Total) (h : s.Reproduces m)
    (hc : ∀ doc, π.importUpdate s.doc bytes = .ok doc →
      m.ops bytes ⊆ m.absorbed s.doc ∪ ready m.past (m.absorbed s.doc ∪ m.ops bytes))
    (ho : Adopted .done bytes s r s') : s'.Reproduces m := by
  cases ho with
  | refused msg hi => exact h
  | unsaved doc err hi hu =>
    obtain ⟨merged, hm, _⟩ := ht.snapshot_ok (π.commit doc)
    exact absurd ⟨rfl, merged, hm⟩ hu
  | adopted doc merged hi hm hio =>
    have habs : m.absorbed (π.commit doc) = m.absorbed s.doc ∪ m.ops bytes :=
      (m.commit_eq doc).1.trans (m.import_ok s.doc bytes doc hi).1
    have hsub : m.absorbed s.doc ⊆ m.absorbed (π.commit doc) := habs ▸ Set.subset_union_left
    have hops := (snapshotOps_some merged).trans (m.snapshot_ok _ _ hm)
    refine h.of_sameLogs ⟨rfl, rfl, rfl, rfl, rfl⟩ rfl (m.known_commit doc) hsub
      (baseDoc_of_snapshot ht hm s.peerId) hops.le ?_ ?_
    · exact (h.shown.trans (ready_mono hsub)).trans hops.ge
    · intro o ho
      cases habs ▸ ho with
      | inl ho => exact .inl ho
      | inr ho =>
        cases hc doc hi ho with
        | inl ho => exact .inl ho
        | inr ho => exact .inr (hops.ge (habs.symm ▸ ho))

theorem Reproduces.sync (h : s.Reproduces m) (c : SyncCall) (hc : s.Reopenable m (.sync c)) :
    (s.after (.sync c)).Reproduces m := by
  obtain ⟨hok, hstand⟩ := hc
  rw [after, StoreCall.run]
  cases hok with
  | inr hsame =>
    rw [hsame]
    exact h
  | inl hok =>
    have hs := syncCall_sameData c s
    have hpeer : (exec c.run s).2.peerId = s.peerId := congrArg (Identity.peerId π) hs.identity
    have hkey : (exec c.run s).2.selfKey = s.selfKey :=
      congrArg (Identity.verifyingKey π) hs.identity
    have hfile (peer : UInt64) : (exec c.run s).2.disk.ops[peer]? = s.disk.ops[peer]? := by
      rw [hs.ops]
    have hkept : (exec c.run s).2.keptOps m = s.keptOps m := by
      rw [keptOps, keptOps, hs.snapshot, ownOps_congr hs.identity (hfile _)]
    exact {
      refreshed := h.refreshed.sync hok
      pinned := h.pinned.sync c
      known := by
        rw [hs.persisted, hs.doc]
        exact h.known
      whole := by
        rw [exportPeerLog, hpeer, hfile]
        exact h.whole
      base := by
        rw [hpeer, hs.snapshot]
        exact h.base
      shown := by
        rw [hs.snapshot, hs.doc]
        exact h.shown
      own := by
        rw [hpeer, hkey, hs.doc]
        exact h.own.of_file (hfile _) subset_rfl
      peers := by
        intro peer key hr
        rw [hs.doc]
        by_cases hold : s.Replays peer key
        · exact (h.peers peer key hold).of_file (hfile peer) subset_rfl
        · exact ((hstand peer key).2 hr hold).of_file (hfile peer) subset_rfl
      covered := by
        rw [hs.doc, hkept]
        intro o ho
        cases h.covered o ho with
        | inl ho => exact .inl ho
        | inr ho =>
          obtain ⟨peer, key, entries, hr, hread, ho⟩ := ho
          by_cases hnew : (exec c.run s).2.Replays peer key
          · exact .inr ⟨peer, key, entries, hnew, hfile peer ▸ hread, ho⟩
          · obtain ⟨entries', hread', _, hsub⟩ := (hstand peer key).1 hr hnew
            obtain rfl : entries' = entries := Except.ok.inj (hread'.symm.trans hread)
            exact .inl (hsub ho) }

theorem Reproduces.step (hπ : π.Lawful) (ht : π.Total) (h : s.Reproduces m)
    (hc : s.Reopenable m c) : (s.after c).Reproduces m := by
  cases c with
  | edit io e =>
    obtain rfl : io = .done := hc
    exact h.edited hπ ht (editDoc_outcome .done e s)
  | importPeer io peer key bytes =>
    obtain ⟨rfl, hc⟩ := hc
    exact h.imported ht hc (importPeerIo_outcome .done peer key bytes s)
  | applyPeerOps io author key appended =>
    obtain ⟨rfl, hc⟩ := hc
    obtain ⟨_, ho⟩ := applyPeerOpsIo_outcome .done author key appended s
    exact h.imported ht hc ho
  | adoptSnapshot io bytes =>
    obtain ⟨rfl, hc⟩ := hc
    exact h.adopted ht hc (adoptSnapshot_outcome .done bytes s)
  | writeSnapshot io ioMarker now =>
    refine writeSnapshot_outcome (P := (·.Reproduces m)) io ioMarker now h ?_
    intro bytes history hb
    have hops := (snapshotOps_some bytes).trans (m.snapshot_ok _ _ hb)
    exact h.of_sameLogs ⟨rfl, rfl, rfl, rfl, rfl⟩ rfl h.known subset_rfl
      (baseDoc_of_snapshot ht hb s.peerId) hops.le (h.shown.trans hops.ge) Set.subset_union_left
  | sync c => exact h.sync c hc

end Steps

section Opening

theorem forall₂_of_forall_exists {R : α → β → Prop} {as : List α} (h : ∀ a ∈ as, ∃ b, R a b) :
    ∃ bs, List.Forall₂ R as bs := by
  induction as with
  | nil => exact ⟨[], .nil⟩
  | cons a as ih =>
    obtain ⟨b, hb⟩ := h a List.mem_cons_self
    obtain ⟨bs, hbs⟩ := ih fun a ha => h a (List.mem_cons_of_mem _ ha)
    exact ⟨b :: bs, .cons hb hbs⟩

theorem mem_flatten_of_reads {f : α → Except ε (List β)} {as : List α} {bss : List (List β)}
    (h : List.Forall₂ (fun a bs => f a = .ok bs) as bss) :
    b ∈ bss.flatten ↔ ∃ a ∈ as, ∃ bs, f a = .ok bs ∧ b ∈ bs := by
  induction h with
  | nil => simp only [List.flatten_nil, List.not_mem_nil, false_and, exists_false]
  | cons hf _ ih =>
    simp only [List.flatten_cons, List.mem_append, List.mem_cons, exists_eq_or_imp, ih, hf,
      Except.ok.injEq, exists_eq_left']

theorem readPeerLog_iff {disk : Disk} {p : PeerRecord} : readPeerLog π disk self p = .ok es ↔
      if p.status = .active ∧ p.peerId ≠ self ∧ π.validKey p.verifyingKey = true then
        readVerified π (opReader π p.peerId p.verifyingKey) disk.ops[p.peerId]? = .ok es
      else es = [] := by
  rw [readPeerLog]
  by_cases ha : p.status = .active
  · by_cases hp : p.peerId = self
    · simp only [ha, hp, ne_eq, not_true_eq_false, or_true, ↓reduceIte, false_and, and_false,
        Except.ok.injEq, eq_comm]
    · by_cases hv : π.validKey p.verifyingKey = true
      · simp only [ha, hp, hv, ne_eq, not_true_eq_false, or_self, ↓reduceIte, not_false_eq_true,
          and_self]
      · simp only [ha, hp, hv, ne_eq, not_true_eq_false, or_self, ↓reduceIte, Bool.false_eq_true,
          and_false, Except.ok.injEq, eq_comm]
  · simp only [ha, ne_eq, not_false_eq_true, true_or, ↓reduceIte, false_and, Except.ok.injEq,
      eq_comm]

theorem Replays.of_mem (hp : p ∈ s.peers)
    (h : p.status = .active ∧ p.peerId ≠ s.peerId ∧ π.validKey p.verifyingKey = true) :
    s.Replays p.peerId p.verifyingKey :=
  ⟨h.2.1, p, hp, rfl, rfl, h.1, h.2.2⟩

theorem Reproduces.opened {disk : Disk} (ht : π.Total) (ho : openVault order disk device = .ok s)
    (hw : Terminated 10 (s.exportPeerLog s.peerId))
    (hs : m.snapshotOps s.disk.snapshot ⊆ ready m.past (m.absorbed s.doc)) : s.Reproduces m := by
  obtain ⟨entries, base, own, logs, doc, h⟩ := openVault_iff.1 ho
  obtain ⟨habs, _, hknown⟩ := m.opened_ok h
  have hdec := List.forall_mem_append.1 (ht.decodes_of_replay h.replayed)
  rw [m.entryOps_append] at habs
  obtain rfl := h.store
  have hlog (p : PeerRecord) (es : List Entry) (hp : p ∈ mergeRoster entries disk.founder)
      (hread : readPeerLog π disk (device.peerId π) p = .ok es) : ∀ e ∈ es, e ∈ logs.flatten :=
    fun e he => (mem_flatten_of_reads h.logs_eq).2 ⟨p, hp, es, hread, he⟩
  exact {
    refreshed := ⟨order, entries, h.collected, rfl⟩
    pinned := rfl
    known := hknown.le.trans ready_subset
    whole := hw
    base := ⟨base, h.base_eq⟩
    shown := hs
    own := ⟨own, h.own_eq, hdec.1, habs ▸ Set.subset_union_left.trans Set.subset_union_right⟩
    peers := by
      intro peer key hr
      obtain ⟨hne, p, hp, rfl, rfl, hactive, hvalid⟩ := hr
      obtain ⟨es, _, hread⟩ := exists_right_of_forall₂ h.logs_eq hp
      have hes := hlog p es hp hread
      rw [readPeerLog_iff, if_pos ⟨hactive, hne, hvalid⟩] at hread
      refine ⟨es, hread, fun e he => hdec.2 e (hes e he), ?_⟩
      rw [habs]
      exact (m.entryOps_subset hes).trans (Set.subset_union_right.trans Set.subset_union_right)
    covered := by
      intro o ho
      rw [habs] at ho
      rcases ho with ho | ho | ho
      · exact .inl (.inl ho)
      · exact .inl (.inr ⟨own, h.own_eq, ho⟩)
      · obtain ⟨e, he, ho⟩ := ho
        obtain ⟨p, hp, es, hread, he⟩ := (mem_flatten_of_reads h.logs_eq).1 he
        rw [readPeerLog_iff] at hread
        split at hread
        next hstand =>
          exact .inr ⟨_, _, es, .of_mem hp hstand, hread, e, he, ho⟩
        next =>
          subst hread
          cases he }

theorem replays_iff_mem (hr : s.Refreshed) (hk : s.KeyedBy keyOf)
    (hc : s.collect order = .ok entries) : s.Replays peer key ↔ ∃ p ∈ mergeRoster entries s.founder,
      (p.status = .active ∧ p.peerId ≠ s.peerId ∧ π.validKey p.verifyingKey = true) ∧
        p.peerId = peer ∧ p.verifyingKey = key := by
  obtain ⟨order₀, entries₀, hc₀, hpeers₀⟩ := hr
  have hmember : (mergeRoster entries s.founder).map PeerRecord.membership =
      s.peers.map PeerRecord.membership := by
    rw [hpeers₀]
    exact membership_of_adminEntry (adminEntry_congr (collect_congr hk hc hc₀))
  constructor
  · intro h
    obtain ⟨hne, p, hp, rfl, rfl, hactive, hvalid⟩ := h
    have hm := List.mem_map_of_mem (f := PeerRecord.membership) hp
    rw [← hmember, List.mem_map] at hm
    obtain ⟨q, hq, heq⟩ := hm
    simp only [PeerRecord.membership, Prod.mk.injEq] at heq
    obtain ⟨hid, hkey, hstatus, _⟩ := heq
    refine ⟨q, hq, ⟨hstatus.trans hactive, ?_, ?_⟩, hid, hkey⟩
    · rw [hid]
      exact hne
    · rw [hkey]
      exact hvalid
  · intro h
    obtain ⟨p, hp, ⟨hactive, hne, hvalid⟩, rfl, rfl⟩ := h
    have hm := List.mem_map_of_mem (f := PeerRecord.membership) hp
    rw [hmember, List.mem_map] at hm
    obtain ⟨q, hq, heq⟩ := hm
    simp only [PeerRecord.membership, Prod.mk.injEq] at heq
    obtain ⟨hid, hkey, hstatus, _⟩ := heq
    exact ⟨hne, q, hq, hid, hkey, hstatus.trans hactive, hvalid⟩

theorem Reproduces.reopen (h : s.Reproduces m) (hk : s.KeyedBy keyOf) (order : RosterOrder) :
    ∃ s', openVault order s.disk s.identity = .ok s' ∧ m.absorbed s'.doc = m.absorbed s.doc := by
  obtain ⟨order₀, entries₀, hc₀, _⟩ := h.refreshed
  obtain ⟨t, hseeds, _⟩ := except_bind_eq_ok.1 hc₀
  obtain ⟨entries, hc⟩ := collect_of_seeds hseeds order
  have hreplays {peer : UInt64} {key : Bytes32} :=
    @replays_iff_mem _ _ _ _ _ peer key h.refreshed hk hc
  have hpin : s.founder = s.disk.founder := h.pinned
  rw [hpin] at hreplays
  obtain ⟨base, hbase⟩ := h.base
  obtain ⟨own, hown, hownDec, hownSub⟩ := h.own
  -- the log of every peer that is read can be read, and the document has it
  have hread (p : PeerRecord) (hp : p ∈ mergeRoster entries s.disk.founder) :
      ∃ es, readPeerLog π s.disk s.peerId p = .ok es ∧ (∀ e ∈ es, Decodes π e.update) ∧
        m.entryOps es ⊆ m.absorbed s.doc := by
    simp only [readPeerLog_iff]
    split
    next hstand => exact h.peers _ _ (hreplays.2 ⟨p, hp, hstand, rfl, rfl⟩)
    next =>
      refine ⟨[], rfl, List.forall_mem_nil _, ?_⟩
      rw [m.entryOps_nil]
      exact Set.empty_subset _
  obtain ⟨logs, hlogs⟩ := forall₂_of_forall_exists fun p hp =>
    (hread p hp).imp fun es hes => hes.1
  have hmem (e : Entry) (he : e ∈ logs.flatten) :
      Decodes π e.update ∧ m.ops e.update ⊆ m.absorbed s.doc := by
    obtain ⟨p, hp, es, hes, he⟩ := (mem_flatten_of_reads hlogs).1 he
    obtain ⟨es', hes', hdec, hsub⟩ := hread p hp
    obtain rfl : es' = es := Except.ok.inj (hes'.symm.trans hes)
    exact ⟨hdec e he, fun o ho => hsub ⟨e, he, ho⟩⟩
  have hdec : ∀ e ∈ own ++ logs.flatten, Decodes π e.update :=
    List.forall_mem_append.2 ⟨hownDec, fun e he => (hmem e he).1⟩
  obtain ⟨doc, hdoc⟩ := replayEntries_of_decodes hdec base
  have hopened : Opened order s.disk s.identity entries base own logs doc
      { s with peers := mergeRoster entries s.disk.founder, founder := s.disk.founder,
               doc := π.commit doc, persisted := π.version (π.commit doc) } :=
    ⟨hpin ▸ hc, hbase, hown, hlogs, hdoc, rfl⟩
  refine ⟨_, openVault_iff.2 ⟨entries, base, own, logs, doc, hopened⟩, ?_⟩
  rw [(m.opened_ok hopened).1, m.entryOps_append]
  apply Set.Subset.antisymm
  · refine Set.union_subset (h.shown.trans ready_subset) (Set.union_subset hownSub ?_)
    intro o ho
    obtain ⟨e, he, ho⟩ := ho
    exact (hmem e he).2 ho
  · intro o ho
    cases h.covered o ho with
    | inl ho =>
      cases ho with
      | inl ho => exact .inl ho
      | inr ho =>
        obtain ⟨own', hown', ho⟩ := ho
        obtain rfl : own = own' := Except.ok.inj (hown.symm.trans hown')
        exact .inr (.inl ho)
    | inr ho =>
      obtain ⟨peer, key, es, hr, hes, e, he, ho⟩ := ho
      obtain ⟨p, hp, hstand, rfl, rfl⟩ := hreplays.1 hr
      refine .inr (.inr ⟨e, (mem_flatten_of_reads hlogs).2 ⟨p, hp, es, ?_, he⟩, ho⟩)
      rw [readPeerLog_iff, if_pos hstand]
      exact hes

/-- After a run in which no write fails, peers with a stored log keep their standing, imports go on
from the stored logs, and adopted snapshots leave nothing waiting, the vault is reopened with the
operations that it had. -/
theorem reopen_after_run {disk : Disk} {keyOf : UInt64 → Bytes32} (hπ : π.Lawful) (ht : π.Total)
    (m : DocModel π) (ho : openVault order₀ disk device = .ok s₀)
    (hw : Terminated 10 (s₀.exportPeerLog s₀.peerId))
    (hs : m.snapshotOps s₀.disk.snapshot ⊆ ready m.past (m.absorbed s₀.doc))
    (calls : List (StoreCall π)) (hc : Along after (Reopenable m) s₀ calls)
    (hk : (runAll after s₀ calls).KeyedBy keyOf) (order : RosterOrder) :
    ∃ s', openVault order (runAll after s₀ calls).disk device = .ok s' ∧
      m.absorbed s'.doc = m.absorbed (runAll after s₀ calls).doc := by
  have hrun : (runAll after s₀ calls).Reproduces m :=
    hc.invariant (fun s c h hc => h.step hπ ht hc) (.opened ht ho hw hs)
  have hid : (runAll after s₀ calls).identity = device := by
    refine hc.invariant (fun s c h _ => (after_identity s c).trans h) ?_
    obtain ⟨entries, base, own, logs, doc, hopen⟩ := openVault_iff.1 ho
    rw [hopen.store]
  rw [← hid]
  exact hrun.reopen hk order

end Opening

section Samples

theorem samplePlatform_total : samplePlatform.Total where
  import_any := by
    intro doc update doc' h doc''
    exact ⟨_, if_pos (sampleImport_ok h).1⟩
  authored_any := by
    intro doc author update doc' h doc''
    simp only [sampleDocs] at h
    split at h
    next => exact ⟨_, if_pos (sampleImport_ok h).1⟩
    next => cases h
  export_ok := by
    intro doc v
    refine ⟨_, rfl, fun doc' => ⟨_, if_pos ?_⟩⟩
    rw [sampleUpdate_bytes fun o ho => sampleReady_subset (List.mem_of_mem_filter ho)]
    exact fun o ho => sampleReady_subset (List.mem_of_mem_filter ho)
  snapshot_ok := by
    intro doc
    refine ⟨_, rfl, fun peer => ⟨_, if_pos ?_⟩⟩
    rw [sampleUpdate_bytes fun o ho => sampleReady_subset ho]
    exact fun o ho => sampleReady_subset ho

theorem holdsLog_of_none (h : s.disk.ops[peer]? = none) : s.HoldsLog m peer key S := by
  refine ⟨[], ?_, List.forall_mem_nil _, ?_⟩
  · rw [h]
    rfl
  · rw [m.entryOps_nil]
    exact Set.empty_subset S

theorem reopenable_of_noLogs {c : SyncCall} (hok : s.result (.sync c) = .ok ())
    (h : s.disk.ops.toList = []) : s.Reopenable m (.sync c) := by
  have hnone (peer : UInt64) : s.disk.ops[peer]? = none := by
    rw [Option.eq_none_iff_forall_ne_some]
    intro bytes hb
    have hmem := Std.TreeMap.mem_toList_iff_getElem?_eq_some.2 hb
    rw [h] at hmem
    cases hmem
  exact ⟨.inl hok, fun peer key =>
    ⟨fun _ _ => holdsLog_of_none (hnone peer), fun _ _ => holdsLog_of_none (hnone peer)⟩⟩

theorem keyedBy_of_founder {keyOf : UInt64 → Bytes32} (hself : s.selfKey = keyOf s.peerId)
    (hf : s.founder = some s.peerId) (honly : ∀ log ∈ s.disk.rosters.toList, log.1 = s.peerId)
    (hown : ∀ e ∈ readRoster π s.disk s.peerId (keyOf s.peerId), ∀ q ∈ learnSubject e,
      q.2 = keyOf q.1) : s.KeyedBy keyOf where
  self := hself
  logs := by
    intro author e he peer key hl
    by_cases ha : author = s.peerId
    · subst ha
      exact hown e he (peer, key) hl
    · have hnone : s.disk.rosters[author]? = none := by
        rw [Option.eq_none_iff_forall_ne_some]
        intro bytes hb
        exact ha (honly (author, bytes) (Std.TreeMap.mem_toList_iff_getElem?_eq_some.2 hb))
      rw [readRoster_none hnone] at he
      cases he
  founder := by
    intro fid key hne hfid
    rw [hf] at hfid
    exact absurd (Option.some.inj hfid).symm hne

theorem reopen_after_import :
    ∃ calls s', openVault ascending (runAll after (sampleVault 1) calls).disk (plainIdentity 1) =
        .ok s' ∧ sampleModel.absorbed s'.doc =
        sampleModel.absorbed (runAll after (sampleVault 1) calls).doc := by
  let founded := (sampleVault 1).after sampleFound
  let joined := founded.after sampleJoin
  let edited := joined.after (.edit .done sampleEdit)
  let calls := [sampleFound, sampleJoin, .edit .done sampleEdit, sampleMerge]
  let final := runAll after (sampleVault 1) calls
  have hrun :
      (((sampleVault 1).result sampleFound = .ok () ∧ founded.result sampleJoin = .ok ()) ∧
        (sampleVault 1).disk.ops.toList = [] ∧ founded.disk.ops.toList = []) ∧
      (edited.disk.ops[sampleWriter]? = none ∧ sampleWriter ≠ edited.peerId ∧
        ∃ p ∈ edited.peers, p.peerId = sampleWriter ∧ p.verifyingKey = .replicate 2 ∧
          p.status = .active) ∧
      final.selfKey = Network.pairKey final.peerId ∧ final.founder = some final.peerId ∧
      (∀ log ∈ final.disk.rosters.toList, log.1 = final.peerId) ∧
      (∀ e ∈ readRoster samplePlatform final.disk final.peerId (Network.pairKey final.peerId),
        ∀ q ∈ learnSubject e, q.2 = Network.pairKey q.1) ∧
      (sampleVault 1).exportPeerLog (sampleVault 1).peerId = [] := by
    decide +kernel
  obtain ⟨⟨⟨hfound, hjoin⟩, hempty, hempty'⟩, ⟨hnone, hother, p, hp, hid, hkey, hactive⟩, hself,
    hfounder, honly, hown, hlog⟩ := hrun
  have himport : edited.Reopenable sampleModel sampleMerge := by
    refine ⟨rfl, fun entries _ => ⟨⟨hother, p, hp, hid, hkey, hactive, rfl⟩, ?_⟩⟩
    intro old hold
    rw [hnone] at hold
    cases hold
    rw [sampleModel.entryOps_nil]
    exact Set.empty_subset _
  have halong : Along after (Reopenable sampleModel) (sampleVault 1) calls :=
    ⟨reopenable_of_noLogs hfound hempty, reopenable_of_noLogs hjoin hempty', rfl, himport, trivial⟩
  have hshown : sampleModel.snapshotOps (sampleVault 1).disk.snapshot ⊆
      ready sampleModel.past (sampleModel.absorbed (sampleVault 1).doc) := by
    intro o ho
    obtain ⟨bytes, hb, _⟩ := ho
    cases hb
  have hkeyed : final.KeyedBy Network.pairKey := keyedBy_of_founder hself hfounder honly hown
  exact ⟨calls, reopen_after_run samplePlatform_framed.toLawful samplePlatform_total sampleModel
    openVault_sampleVault (.inl hlog) hshown calls halong hkeyed ascending⟩

theorem reopened_empty {s : Store samplePlatform}
    (h : (openVault ascending s.disk (plainIdentity 1)).map
      (fun t : Store samplePlatform => SampleDoc.ops t.doc) = .ok [])
    (ho : o ∈ SampleDoc.ops s.doc ∧ o ∈ sampleOps) :
    ∃ s', openVault ascending s.disk (plainIdentity 1) = .ok s' ∧
      sampleModel.absorbed s'.doc ≠ sampleModel.absorbed s.doc := by
  cases hopen : openVault (π := samplePlatform) ascending s.disk (plainIdentity 1) with
  | error e =>
    rw [hopen] at h
    cases h
  | ok s' =>
    rw [hopen] at h
    have hnil : SampleDoc.ops s'.doc = [] := Except.ok.inj h
    refine ⟨s', rfl, ?_⟩
    intro heq
    have hmem : o ∈ SampleDoc.ops s'.doc ∧ o ∈ sampleOps := (Set.ext_iff.1 heq o).2 ho
    rw [hnil] at hmem
    cases hmem.1

def sampleRevoke : StoreCall samplePlatform :=
  .sync (.roster (ascending, ascending) (.revokePeer sampleWriter (.replicate 2)))

/-- What a peer wrote before it was revoked is gone when the vault is reopened. -/
theorem not_reopen_after_revoke :
    openVault ascending (sampleVault 1).disk (plainIdentity 1) = .ok (sampleVault 1) ∧
      ∃ calls s', openVault ascending (runAll after (sampleVault 1) calls).disk (plainIdentity 1) =
          .ok s' ∧ sampleModel.absorbed s'.doc ≠
          sampleModel.absorbed (runAll after (sampleVault 1) calls).doc := by
  let calls := [sampleFound, sampleJoin, sampleMerge, sampleRevoke]
  have hrun : (openVault ascending (runAll after (sampleVault 1) calls).disk (plainIdentity 1)).map
        (fun t : Store samplePlatform => SampleDoc.ops t.doc) = .ok [] ∧
      8 ∈ SampleDoc.ops (runAll after (sampleVault 1) calls).doc ∧ 8 ∈ sampleOps := by
    decide +kernel
  exact ⟨openVault_sampleVault, calls, reopened_empty hrun.1 hrun.2⟩

end Samples

end Store

end Roam
