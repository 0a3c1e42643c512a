import Roam.Network

namespace Roam
set_option autoImplicit true
open Library

section Members
variable (π : Platform) (disk : Disk)

/-- The keys that the roster logs name: those that an entry vouches for in a log that verifies under
some key, and those that a log's author names as its own. -/
inductive DirectoryKey : Bytes32 → Prop
  | subject (author : UInt64) (key : Bytes32) (e : RosterEntry) (he : e ∈
      readRoster π disk author key) :
      DirectoryKey e.subjectKey
  | own (author : UInt64) (key : Bytes32)
      (hpeek : RosterLog.peekSelfKey π author disk.rosters[author]? = .ok (some key)) :
      DirectoryKey key

def DistinctKeys : Prop :=
  ∀ key key', DirectoryKey π disk key → DirectoryKey π disk key' →
    key.bytes.take 8 = key'.bytes.take 8 → key = key'

variable (selfId : UInt64) (selfKey : Bytes32) (founder : Option UInt64)

/-- The least set of authors, each with its key, that holds the device, the founder when its log
names a key of its own, and every subject that the log of a member vouches for with a key of its
own. -/
inductive RosterMember : UInt64 → Bytes32 → Prop
  | self : RosterMember selfId selfKey
  | founder (fid : UInt64) (key : Bytes32) (pinned : founder = some fid) (other : fid ≠ selfId)
      (hpeek : RosterLog.peekSelfKey π fid disk.rosters[fid]? = .ok (some key))
      (own : derivedPeerId key = fid) : RosterMember fid key
  | vouched (author : UInt64) (key : Bytes32) (member : RosterMember author key) (e : RosterEntry)
      (he : e ∈ readRoster π disk author key) (other : e.subjectPeer ≠ selfId)
      (own : derivedPeerId e.subjectKey = e.subjectPeer) : RosterMember e.subjectPeer e.subjectKey

end Members

section Walk
variable {π : Platform} {disk : Disk} {selfId : UInt64} {selfKey : Bytes32}
  {founder : Option UInt64}
  {t : Std.TreeMap UInt64 Bytes32}

open Classical in
noncomputable def keyFor (π : Platform) (disk : Disk) (selfId : UInt64) (selfKey : Bytes32)
    (author : UInt64) : Bytes32 :=
  if author = selfId then selfKey
  else if h : ∃ key, DirectoryKey π disk key ∧ derivedPeerId key = author then h.choose
  else .replicate 0

theorem keyFor_self : keyFor π disk selfId selfKey selfId = selfKey := if_pos rfl

theorem keyFor_eq (hkeys : DistinctKeys π disk) (hne : derivedPeerId key ≠ selfId)
    (hkey : DirectoryKey π disk key) : keyFor π disk selfId selfKey (derivedPeerId key) = key := by
  have hex : ∃ key', DirectoryKey π disk key' ∧ derivedPeerId key' = derivedPeerId key :=
    ⟨key, hkey, rfl⟩
  rw [keyFor, if_neg hne, dif_pos hex]
  exact hkeys _ _ hex.choose_spec.1 hkey (take_eq_of_derivedPeerId hex.choose_spec.2)

theorem learnSubject_eq_some : learnSubject e = some (peer, key) ↔
      derivedPeerId e.subjectKey = e.subjectPeer ∧ e.subjectPeer = peer ∧ e.subjectKey = key := by
  rw [learnSubject]
  simp only [Option.ite_none_right_eq_some, Option.some.injEq, Prod.mk.injEq]

theorem self_mem_trustSeeds
    (ht : trustSeeds π disk selfId selfKey founder = .ok t) : selfId ∈ t := by
  rw [Std.TreeMap.mem_iff_isSome_getElem?, (Store.trustSeeds_getElem? ht).2 (.inl ⟨rfl, rfl⟩)]
  rfl

theorem rosterWalk_settled (hkeys : DistinctKeys π disk)
    (ht : trustSeeds π disk selfId selfKey founder = .ok t) :
    (rosterWalk π disk).Settled (keyFor π disk selfId selfKey) t where
  start := by
    intro a key ha
    rcases (Store.trustSeeds_getElem? ht).1 ha with ⟨rfl, rfl⟩ | ⟨hne, _, hpeek, rfl⟩
    · exact keyFor_self.symm
    · exact (keyFor_eq hkeys hne (.own _ key hpeek)).symm
  learns := by
    intro a e he peer key hlearn
    obtain ⟨hown, rfl, rfl⟩ := learnSubject_eq_some.1 hlearn
    by_cases hself : e.subjectPeer = selfId
    · rw [hself]
      exact .inl (self_mem_trustSeeds ht)
    · right
      rw [← hown] at hself ⊢
      exact (keyFor_eq hkeys hself (.subject a _ e he)).symm

theorem RosterMember.keyFor_eq (hkeys : DistinctKeys π disk)
    (h : RosterMember π disk selfId selfKey founder a key) :
    keyFor π disk selfId selfKey a = key := by
  cases h with
  | self => exact keyFor_self
  | founder fid key pinned other hpeek own =>
    subst own
    exact Roam.keyFor_eq hkeys other (.own _ key hpeek)
  | vouched author key member e he other own =>
    rw [← own] at other ⊢
    exact Roam.keyFor_eq hkeys other (.subject author key e he)

theorem rosterMember_iff_reach (hkeys : DistinctKeys π disk)
    (ht : trustSeeds π disk selfId selfKey founder = .ok t) :
    (∃ key, RosterMember π disk selfId selfKey founder a key) ↔
      Reach (· ∈ t) ((rosterWalk π disk).Edge (keyFor π disk selfId selfKey)) a := by
  constructor
  · rintro ⟨key, h⟩
    induction h with
    | self => exact .base (self_mem_trustSeeds ht)
    | founder fid key pinned other hpeek own =>
      apply Reach.base
      rw [Std.TreeMap.mem_iff_isSome_getElem?,
        (Store.trustSeeds_getElem? ht).2 (.inr ⟨other, pinned, hpeek, own⟩)]
      rfl
    | vouched author key member e he other own ih =>
      refine .step ih ⟨e, ?_, e.subjectKey, learnSubject_eq_some.2 ⟨own, rfl, rfl⟩⟩
      rw [member.keyFor_eq hkeys]
      exact he
  · intro h
    induction h with
    | base ha =>
      obtain ⟨key, hkey⟩ := Option.isSome_iff_exists.1 (Std.TreeMap.mem_iff_isSome_getElem?.1 ha)
      rcases (Store.trustSeeds_getElem? ht).1 hkey with ⟨rfl, rfl⟩ | ⟨hne, hf, hpeek, hown⟩
      · exact ⟨_, .self⟩
      · exact ⟨key, .founder _ key hf hne hpeek hown⟩
    | step _ hedge ih =>
      obtain ⟨key, hmember⟩ := ih
      obtain ⟨e, he, v, hlearn⟩ := hedge
      obtain ⟨hown, rfl, rfl⟩ := learnSubject_eq_some.1 hlearn
      by_cases hself : e.subjectPeer = selfId
      · rw [hself]
        exact ⟨_, .self⟩
      · rw [hmember.keyFor_eq hkeys] at he
        exact ⟨_, .vouched _ key hmember e he hself hown⟩

structure CollectsMembers (π : Platform) (disk : Disk) (selfId : UInt64) (selfKey : Bytes32)
    (founder : Option UInt64) (visited : List UInt64) (entries : List RosterEntry) : Prop where
  nodup : visited.Nodup
  members : ∀ a, a ∈ visited ↔ ∃ key, RosterMember π disk selfId selfKey founder a key
  union : ∀ keyOf : UInt64 → Bytes32,
    (∀ a key, RosterMember π disk selfId selfKey founder a key → keyOf a = key) →
      entries = visited.flatMap fun a => readRoster π disk a (keyOf a)

theorem walk_collects (hkeys : DistinctKeys π disk)
    (ht : trustSeeds π disk selfId selfKey founder = .ok t)
    (h : (rosterWalk π disk).Walk t ∅ visited entries) :
    CollectsMembers π disk selfId selfKey founder visited entries := by
  have hsettled := rosterWalk_settled hkeys ht
  have hinv := Exploration.Inv.start hsettled
  have hmembers (a : UInt64) :
      a ∈ visited ↔ ∃ key, RosterMember π disk selfId selfKey founder a key := by
    rw [rosterMember_iff_reach hkeys ht, ← h.mem_iff hsettled hinv,
      or_iff_right (Finset.notMem_empty a)]
  refine ⟨h.nodup, hmembers, fun keyOf hkeyOf => ?_⟩
  rw [h.out_eq hsettled hinv]
  apply List.flatMap_congr
  intro a ha
  obtain ⟨key, hmember⟩ := (hmembers a).1 ha
  rw [hkeyOf a key hmember, hmember.keyFor_eq hkeys]
  rfl

theorem collectRosterEntries_walk (hkeys : DistinctKeys π disk)
    (ht : trustSeeds π disk selfId selfKey founder = .ok t) (order : RosterOrder) :
    ∃ visited entries, (rosterWalk π disk).Walk t ∅ visited entries ∧
      collectRosterEntries π order disk selfId selfKey founder = .ok entries := by
  have hsettled := rosterWalk_settled hkeys ht
  obtain ⟨nodes, hbound, hnodes⟩ := Store.walk_nodes ht (keyFor π disk selfId selfKey)
  have hfuel : nodes.card < (∅ : Finset UInt64).card + walkBound disk := by
    rw [Finset.card_empty, Nat.zero_add]
    exact hbound
  obtain ⟨visited, entries, hwalk, hexplore⟩ :=
    Exploration.explore_walk hsettled order hnodes (.start hsettled) hfuel
  refine ⟨visited, entries, hwalk, except_bind_eq_ok.2 ⟨t, ht, ?_⟩⟩
  rw [hexplore]
  rfl

theorem CollectsMembers.perm (hkeys : DistinctKeys π disk)
    (h : CollectsMembers π disk selfId selfKey founder visited entries)
    (h' : CollectsMembers π disk selfId selfKey founder visited' entries') :
    entries.Perm entries' := by
  have hkeyFor (a : UInt64) (key : Bytes32) (hmember : RosterMember π disk selfId selfKey founder
      a key) :
      keyFor π disk selfId selfKey a = key := hmember.keyFor_eq hkeys
  have hsame : visited.Perm visited' := by
    apply (List.perm_ext_iff_of_nodup h.nodup h'.nodup).2
    intro a
    rw [h.members, h'.members]
  rw [h.union _ hkeyFor, h'.union _ hkeyFor]
  exact hsame.flatMap_right _

/-- The roster that is collected does not depend on the order in which the authors are picked: it is
the union of the logs of the members, each of which is read once, under its one key. -/
theorem collect_any_order (hkeys : DistinctKeys π disk) (selfId : UInt64) (selfKey : Bytes32)
    (founder : Option UInt64) : (∀ order order',
      (collectRosterEntries π order disk selfId selfKey founder).map Multiset.ofList =
        (collectRosterEntries π order' disk selfId selfKey founder).map Multiset.ofList) ∧
      (∀ a key key', RosterMember π disk selfId selfKey founder a key →
        RosterMember π disk selfId selfKey founder a key' → key = key') ∧
      ∀ t, trustSeeds π disk selfId selfKey founder = .ok t →
        (∀ order, ∃ visited entries, (rosterWalk π disk).Walk t ∅ visited entries ∧
            collectRosterEntries π order disk selfId selfKey founder = .ok entries) ∧
          ∀ visited entries, (rosterWalk π disk).Walk t ∅ visited entries →
            CollectsMembers π disk selfId selfKey founder visited entries := by
  refine ⟨fun order order' => ?_, fun a key key' h h' => ?_, fun t ht => ⟨?_, ?_⟩⟩
  · cases hseeds : trustSeeds π disk selfId selfKey founder with
    | error e => rw [collectRosterEntries, collectRosterEntries, hseeds]; rfl
    | ok t =>
      obtain ⟨visited, entries, hwalk, hcollect⟩ := collectRosterEntries_walk hkeys hseeds order
      obtain ⟨visited', entries', hwalk', hcollect'⟩ :=
        collectRosterEntries_walk hkeys hseeds order'
      have hperm :=
        (walk_collects hkeys hseeds hwalk).perm hkeys (walk_collects hkeys hseeds hwalk')
      rw [hcollect, hcollect']
      exact congrArg Except.ok (Multiset.coe_eq_coe.2 hperm)
  · rw [← h.keyFor_eq hkeys, ← h'.keyFor_eq hkeys]
  · exact collectRosterEntries_walk hkeys ht
  · intro visited entries hwalk
    exact walk_collects hkeys ht hwalk

end Walk

section Named
variable {π : Platform} {disk : Disk}

def lineKey (π : Platform) (line : Bytes) : Option Bytes32 :=
  match π.rosterJson.parse line with
  | .error _ => none
  | .ok parsed =>
    match π.b64Decode parsed.subjectKey with
    | .error _ => none
    | .ok key => Bytes32.ofBytes? key

def namedKeys (π : Platform) (disk : Disk) : List Bytes32 :=
  disk.rosters.toList.flatMap fun p =>
    ((textLines p.2).filter fun line => !isBlank line).filterMap (lineKey π)

theorem mem_namedKeys {author : UInt64} (hfile : disk.rosters[author]? = some bytes)
    (hline : line ∈ (textLines bytes).filter fun line => !isBlank line)
    (hkey : lineKey π line = some key) :
    key ∈ namedKeys π disk := by
  rw [namedKeys, List.mem_flatMap]
  exact ⟨(author, bytes), Std.TreeMap.mem_toList_iff_getElem?_eq_some.2 hfile,
    List.mem_filterMap.2 ⟨line, hline, hkey⟩⟩

theorem lineKey_of_reads (h : (rosterReader π author key).Reads line e) :
    lineKey π line = some e.subjectKey := by
  obtain ⟨parsed, hparse, hcheck⟩ := h
  obtain ⟨_, _, hdecode, _⟩ := RosterLine.check_inv hcheck
  rw [lineKey, malformed_eq_ok.1 hparse]
  dsimp only
  rw [hdecode]
  exact dif_pos e.subjectKey.size

theorem DirectoryKey.mem_namedKeys (h : DirectoryKey π disk key) : key ∈ namedKeys π disk := by
  cases h with
  | subject author key e he =>
    rw [readRoster] at he
    split at he
    · split at he
      next entries hread =>
        cases hfile : disk.rosters[author]? with
        | none =>
          rw [hfile] at hread
          cases hread
          cases he
        | some bytes =>
          rw [hfile, readVerified] at hread
          split at hread
          · obtain ⟨line, hline, hreads⟩ := LineReader.readLines_mem hread he
            exact Roam.mem_namedKeys hfile hline (lineKey_of_reads hreads)
          · cases hread
      next => cases he
    · cases he
  | own author key hpeek =>
    cases hfile : disk.rosters[author]? with
    | none =>
      rw [hfile] at hpeek
      cases hpeek
    | some bytes =>
      rw [hfile, RosterLog.peekSelfKey] at hpeek
      split at hpeek
      next =>
        obtain ⟨line, hline, hkey⟩ := List.exists_of_findSome?_eq_some (Except.ok.inj hpeek)
        refine Roam.mem_namedKeys hfile hline ?_
        rw [lineKey]
        cases hparse : π.rosterJson.parse line with
        | error e =>
          rw [hparse] at hkey
          cases hkey
        | ok parsed =>
          rw [hparse] at hkey
          dsimp only at hkey
          split at hkey
          next => cases hkey
          next => exact hkey
      next => cases hpeek

theorem distinctKeys_of_namedKeys (h : ∀ key ∈ namedKeys π disk, ∀ key' ∈ namedKeys π disk,
      key.bytes.take 8 = key'.bytes.take 8 → key = key') : DistinctKeys π disk :=
  fun key key' hkey hkey' => h key hkey.mem_namedKeys key' hkey'.mem_namedKeys

end Named

theorem founderStore_any_order :
    (collectRosterEntries openPlatform ascending Network.founderStore.disk
      Network.founderStore.peerId Network.founderStore.selfKey
        Network.founderStore.founder).toOption.isSome = true ∧ ∀ order order' : RosterOrder,
        (collectRosterEntries openPlatform order Network.founderStore.disk
          Network.founderStore.peerId Network.founderStore.selfKey
          Network.founderStore.founder).map Multiset.ofList =
        (collectRosterEntries openPlatform order' Network.founderStore.disk
          Network.founderStore.peerId Network.founderStore.selfKey
          Network.founderStore.founder).map Multiset.ofList := by
  have hkeys : DistinctKeys openPlatform Network.founderStore.disk :=
    distinctKeys_of_namedKeys (by decide +kernel)
  exact ⟨by decide +kernel, (collect_any_order hkeys _ _ _).1⟩

end Roam
