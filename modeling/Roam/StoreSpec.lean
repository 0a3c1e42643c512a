import Roam.Store
import Roam.LogSpec
import Roam.RosterSpec

namespace Roam
set_option autoImplicit true
open Library Library.Fallible

theorem Io.result_ok_iff {io : Io} : io.result = .ok () ↔ io = .done := by
  cases io with
  | done => simp only [result]
  | refused msg => simp only [result, reduceCtorEq]
  | torn more msg => simp only [result, reduceCtorEq]
  | unsynced msg => simp only [result, reduceCtorEq]

namespace Store
variable {π : Platform} {s : Store π}

def withRoster (s : Store π) (author : UInt64) (bytes : Bytes) : Store π :=
  { s with disk.rosters := s.disk.rosters.insert author bytes }

def withPeers (s : Store π) (entries : List RosterEntry) : Store π :=
  { s with peers := mergeRoster entries s.founder }

theorem exec_refreshPeers :
    exec (refreshPeers order) s =
      match s.collect order with
      | .ok entries => (.ok (), s.withPeers entries)
      | .error e => (.error e, s) := by
  cases h : s.collect order with
  | ok entries => simp only [refreshPeers, exec_bind, exec_get, exec_ofResult, h, exec_set,
      withPeers]
  | error e => simp only [refreshPeers, exec_bind, exec_get, exec_ofResult, h]

/-- The parts of a store that reading the roster again or merging updates leaves alone. -/
structure SameFiles (s s' : Store π) : Prop where
  identity : s'.identity = s.identity
  founder : s'.founder = s.founder
  disk : s'.disk = s.disk

theorem refreshPeers_sameFiles (order : RosterOrder) (s : Store π) :
    SameFiles s (exec (refreshPeers order) s).2 := by
  rw [exec_refreshPeers]
  split
  next => exact ⟨rfl, rfl, rfl⟩
  next => exact ⟨rfl, rfl, rfl⟩

def signOwn (s : Store π) (lamport : UInt64) (op : RosterOp) (subject : UInt64) (key : Bytes32) :
    Except StorageError (RosterEntry × Bytes) :=
  RosterLog.append π s.peerId s.disk.rosters[s.peerId]? s.identity lamport op subject key

theorem exec_authorRoster :
    exec (authorRoster orders op subject key) s =
      match s.nextRoleLamport orders.1 subject with
      | .error e => (.error e, s)
      | .ok lamport =>
        match s.signOwn lamport op subject key with
        | .error e => (.error e, s)
        | .ok (_, file) => exec (refreshPeers orders.2) (s.withRoster s.peerId file) := by
  simp only [authorRoster, exec_bind, exec_get, exec_ofResult, signOwn]
  cases s.nextRoleLamport orders.1 subject with
  | error e => rfl
  | ok lamport =>
    simp only []
    cases RosterLog.append π s.peerId s.disk.rosters[s.peerId]? s.identity lamport op subject
      key with
    | error e => rfl
    | ok p => rfl

structure Authored (s : Store π) (orders : RosterOrder × RosterOrder) (op : RosterOp)
    (subject : UInt64) (key : Bytes32) (lamport : UInt64) (entry : RosterEntry) (file : Bytes)
    (entries : List RosterEntry) (s' : Store π) : Prop where
  lamport_eq : s.nextRoleLamport orders.1 subject = .ok lamport
  signed : s.signOwn lamport op subject key = .ok (entry, file)
  collected : (s.withRoster s.peerId file).collect orders.2 = .ok entries
  result : s' = (s.withRoster s.peerId file).withPeers entries

theorem authorRoster_ok (h : exec (authorRoster orders op subject key) s = (.ok (), s')) :
    ∃ lamport entry file entries,
      Authored s orders op subject key lamport entry file entries s' := by
  rw [exec_authorRoster] at h
  cases hl : s.nextRoleLamport orders.1 subject with
  | error e =>
    rw [hl] at h
    cases h
  | ok lamport =>
    cases hs : s.signOwn lamport op subject key with
    | error e =>
      rw [hl] at h
      simp only [hs] at h
      cases h
    | ok p =>
      obtain ⟨entry, file⟩ := p
      rw [hl] at h
      simp only [hs, exec_refreshPeers] at h
      cases hc : (s.withRoster s.peerId file).collect orders.2 with
      | error e =>
        rw [hc] at h
        cases h
      | ok entries =>
        rw [hc] at h
        exact ⟨lamport, entry, file, entries, hl, hs, hc, (Prod.mk.inj h).2.symm⟩

theorem exec_authorAsAdmin :
    exec (authorAsAdmin orders op peer key) s =
      match s.requireAdmin with
      | .error e => (.error e, s)
      | .ok _ =>
        match checkPeerIdBinding peer key with
        | .error e => (.error e, s)
        | .ok _ => exec (authorRoster orders op peer key) s := by
  simp only [authorAsAdmin, exec_bind, exec_get, exec_ofResult]
  cases s.requireAdmin with
  | error e => rfl
  | ok u =>
    simp only []
    cases checkPeerIdBinding peer key with
    | error e => rfl
    | ok u => rfl

theorem authorAsAdmin_ok (h : exec (authorAsAdmin orders op peer key) s = (.ok (), s')) :
    s.requireAdmin = .ok () ∧ peer = derivedPeerId key ∧
      exec (authorRoster orders op peer key) s = (.ok (), s') := by
  rw [exec_authorAsAdmin] at h
  cases hr : s.requireAdmin with
  | error e =>
    rw [hr] at h
    cases h
  | ok u =>
    rw [hr] at h
    by_cases hb : peer = derivedPeerId key
    · simp only [checkPeerIdBinding, hb, ne_eq, not_true_eq_false, ↓reduceIte] at h
      rw [hb]
      exact ⟨rfl, rfl, h⟩
    · simp only [checkPeerIdBinding, ne_eq, hb, not_false_eq_true, ↓reduceIte] at h
      cases h

def withFounder (s : Store π) (peer : UInt64) : Store π :=
  { s with disk.founder := some peer, founder := some peer }

theorem exec_declareFounder : exec (declareFounder orders role) s = if role ≠ .admin then
        (.error (.peer "founder must be Admin (it is the vault's root authority)"), s)
      else if s.disk.founder.isSome then (.error (.peer "vault founder already pinned"), s)
      else exec (authorRoster orders (.add role) s.peerId s.selfKey) (s.withFounder s.peerId) := by
  simp only [declareFounder]
  split
  next => rfl
  next =>
    simp only [exec_bind, exec_get]
    split
    next => rfl
    next => simp only [writeFounder, exec_bind, exec_modify, withFounder]

theorem exec_setDeviceName : exec (setDeviceName orders name) s = if name.length > maxNameLen then
        (.error (.peer s!"device name exceeds {maxNameLen} chars"), s)
      else exec (authorRoster orders (.setName name) s.peerId s.selfKey) s := by
  simp only [setDeviceName]
  split
  next => rfl
  next => simp only [exec_bind, exec_get]

theorem exec_pinFounder :
    exec (pinFounder order peer) s =
      match s.disk.founder with
      | some existing =>
        if existing ≠ peer then
          (.error (.peer s!"founder already pinned to {existing}, refusing to re-pin to {peer}"), s)
        else (.ok (), s)
      | none => exec (refreshPeers order) (s.withFounder peer) := by
  simp only [pinFounder, exec_bind, exec_get]
  cases s.disk.founder with
  | none => simp only [writeFounder, exec_bind, exec_modify, withFounder]
  | some existing =>
    simp only []
    split
    next => rfl
    next => rfl

theorem checkExtends_ok_iff :
    checkExtends what stored bytes = .ok () ↔
      ∀ existing, stored = some existing → existing <+: bytes := by
  cases stored with
  | none => simp only [checkExtends, reduceCtorEq, false_imp_iff, implies_true]
  | some existing =>
    simp only [checkExtends, Option.some.injEq, forall_eq']
    split
    next h => simp only [List.isPrefixOf_iff_prefix.1 h]
    next h => simp only [reduceCtorEq, ← List.isPrefixOf_iff_prefix, h]

theorem exec_importRoster :
    exec (importRoster order author key bytes) s =
      if author =
        s.peerId then (.error (.peer "cannot import a roster log under our own peer id"), s)
      else
        match checkExtends s!"roster {author} log" s.disk.rosters[author]? bytes with
        | .error e => (.error e, s)
        | .ok _ =>
          match verifyBytes π (rosterReader π author key) bytes with
          | .error e => (.error e, s)
          | .ok _ => exec (refreshPeers order) (s.withRoster author bytes) := by
  simp only [importRoster, exec_bind, exec_get]
  split
  next h => rfl
  next h =>
    simp only [exec_bind, exec_ofResult]
    cases checkExtends s!"roster {author} log" s.disk.rosters[author]? bytes with
    | error e => rfl
    | ok u =>
      simp only []
      cases verifyBytes π (rosterReader π author key) bytes with
      | error e => rfl
      | ok entries => rfl

def withBundle (s : Store π) (logs : List (UInt64 × Bytes)) : Store π :=
  { s with disk.rosters := logs.foldl (bundleLog s.peerId) s.disk.rosters }

theorem exec_importRosterBundle :
    exec (importRosterBundle order logs) s = exec (refreshPeers order) (s.withBundle logs) := by
  simp only [importRosterBundle, exec_bind, exec_modify, withBundle]

theorem bundleLog_getElem? {rosters : Std.TreeMap UInt64 Bytes} {logs : List (UInt64 × Bytes)}
    (h : (logs.foldl (bundleLog self) rosters)[a]? = some bytes) :
    rosters[a]? = some bytes ∨ a ≠ self ∧ (a, bytes) ∈ logs := by
  induction logs generalizing rosters with
  | nil => exact .inl h
  | cons log logs ih =>
    have hinsert (ha : log.1 ≠ self) (hb : (rosters.insert log.1 log.2)[a]? = some bytes) :
        rosters[a]? = some bytes ∨ a ≠ self ∧ (a, bytes) ∈ log :: logs := by
      rw [get_insert] at hb
      split at hb
      next heq =>
        cases hb
        subst heq
        exact .inr ⟨ha, List.mem_cons_self⟩
      next => exact .inl hb
    cases ih h with
    | inr h => exact .inr ⟨h.1, List.mem_cons_of_mem log h.2⟩
    | inl h =>
      rw [bundleLog] at h
      split at h
      next => exact .inl h
      next ha =>
        split at h
        next =>
          split at h
          next => exact hinsert ha h
          next => exact .inl h
        next => exact hinsert ha h

theorem bundleLog_self {rosters : Std.TreeMap UInt64 Bytes} {logs : List (UInt64 × Bytes)} :
    (logs.foldl (bundleLog self) rosters)[self]? = rosters[self]? := by
  induction logs generalizing rosters with
  | nil => rfl
  | cons log logs ih =>
    have hinsert (ha : log.1 ≠ self) : (rosters.insert log.1 log.2)[self]? = rosters[self]? := by
      rw [get_insert, if_neg ha]
    rw [List.foldl_cons, ih, bundleLog]
    split
    next => rfl
    next ha =>
      split
      next =>
        split
        next => exact hinsert ha
        next => rfl
      next => exact hinsert ha

theorem exec_importKeylog :
    exec (importKeylog author key bytes) s =
      if author = s.peerId then (.error (.peer "cannot import a key-log under our own peer id"), s)
      else
        match checkExtends s!"keylog {author}" s.disk.keylogs[author]? bytes with
        | .error e => (.error e, s)
        | .ok _ =>
          match verifyBytes π (keyReader π author key) bytes with
          | .error e => (.error e, s)
          | .ok _ => (.ok (), s.withKeylog author bytes) := by
  simp only [importKeylog, exec_bind, exec_get]
  split
  next h => rfl
  next h =>
    simp only [exec_bind, exec_ofResult]
    cases checkExtends s!"keylog {author}" s.disk.keylogs[author]? bytes with
    | error e => rfl
    | ok u =>
      simp only []
      cases verifyBytes π (keyReader π author key) bytes with
      | error e => rfl
      | ok entries => rfl

def keyLine (s : Store π) (entries : List KeyLogEntry) (epoch : Bytes32) (body : KeyBody) : Bytes :=
  π.keyJson.render (KeyLine.ofEntry π s.identity
    { seq := (entries.getLast?.map KeyLogEntry.seq).getD 0 + 1
      author := s.peerId
      epochId := epoch
      body })

theorem exec_appendKeylog (epoch : Bytes32) (body : KeyBody) (s : Store π) :
    exec (appendKeylog epoch body) s =
      match readVerified π (keyReader π s.peerId s.selfKey) s.disk.keylogs[s.peerId]? with
      | .error e => (.error e, s)
      | .ok entries => (.ok (), s.withKeylog s.peerId
          (appendLine s.disk.keylogs[s.peerId]? (s.keyLine entries epoch body))) := by
  have hself : ¬ s.identity.peerId π ≠ s.peerId := not_not.2 rfl
  rw [appendKeylog, appendKeylogIo, exec_bind, exec_get]
  dsimp only
  rw [exec_bind, exec_ofResult, KeyLog.append, if_neg hself, ← selfKey]
  cases readVerified π (keyReader π s.peerId s.selfKey) s.disk.keylogs[s.peerId]? with
  | error e => rfl
  | ok entries => rfl

section KeylogFrame
variable {R : Store π → Store π → Prop} [IsPreorder (Store π) R]

theorem appendKeylogIo_leaves
    (hR : ∀ (s : Store π) more, R s (s.withKeylog s.peerId (s.exportKeylog s.peerId ++ more)))
    (io : Io) (epoch : Bytes32) (body : KeyBody) :
    Leaves R (appendKeylogIo io epoch body : StoreM π Unit) := by
  refine ⟨fun s => ?_⟩
  rw [appendKeylogIo, exec_bind, exec_get]
  dsimp only
  rw [exec_bind, exec_ofResult]
  cases KeyLog.append π s.peerId s.disk.keylogs[s.peerId]? s.identity epoch body with
  | error e => exact refl_of R s
  | ok p =>
    cases io with
    | done => exact hR s _
    | torn more msg => exact hR s _
    | unsynced msg => exact hR s _
    | refused msg =>
      -- the file that is written back is the one that was there
      have hsame := hR s []
      rw [List.append_nil, exportKeylog] at hsame
      change R s (s.putKeylog s.peerId s.disk.keylogs[s.peerId]?)
      cases hfile : s.disk.keylogs[s.peerId]? with
      | none => exact refl_of R s
      | some bytes =>
        rw [hfile] at hsame
        exact hsame

theorem rotateEpoch_leaves
    (hR : ∀ (s : Store π) more, R s (s.withKeylog s.peerId (s.exportKeylog s.peerId ++ more)))
    (seed : RotationSeed) (idKey epoch0Key : Bytes32) (paperPublic : Option Bytes32) :
    Leaves R (rotateEpoch seed idKey epoch0Key paperPublic : StoreM π Bytes32) := by
  refine Leaves.get.bind fun s => ?_
  refine (Leaves.ofResult s.requireAdmin).bind fun _ => ?_
  refine (Leaves.ofResult (s.keychain idKey epoch0Key)).bind fun kc => ?_
  refine (appendKeylogIo_leaves hR _ _ _).bind fun _ => ?_
  exact (Leaves.forM fun _ => appendKeylogIo_leaves hR _ _ _).bind fun _ => .pure _

end KeylogFrame

theorem importEntries_cons (e : Entry) (entries : List Entry) :
    exec (importEntries (e :: entries)) s =
      match π.importUpdate s.doc e.update with
      | .error msg => (.error (.crdt msg), s)
      | .ok doc => exec (importEntries entries) { s with doc } := by
  have hcons : importEntries (e :: entries) =
      (importEntry e >>= fun _ => importEntries entries : StoreM π Unit) := rfl
  simp only [hcons, importEntry, exec_bind, exec_get, exec_ofResult]
  cases π.importUpdate s.doc e.update with
  | error msg => rfl
  | ok doc => rfl

section Collect
variable {keyOf : UInt64 → Bytes32} {disk : Disk} {bytes : Bytes} {t : Std.TreeMap UInt64 Bytes32}
  {founder : Option UInt64}

theorem readRoster_addedBy (h : e ∈ readRoster π disk author key) : e.addedBy = author := by
  rw [readRoster] at h
  split at h
  · split at h
    next hr =>
      obtain ⟨line, hline⟩ := readVerified_mem hr h
      exact rosterReader_addedBy hline
    next => cases h
  · cases h

theorem readRoster_none (h : disk.rosters[author]? = none) : readRoster π disk author key = [] := by
  rw [readRoster, h]
  split
  · rfl
  · rfl

theorem readRoster_length (h : disk.rosters[author]? = some bytes) :
    (readRoster π disk author key).length ≤ (bytes.splitOn 10).length := by
  rw [readRoster, h]
  split
  · split
    next hr => exact readVerified_length hr
    next => exact Nat.zero_le _
  · exact Nat.zero_le _

structure KeyedBy (keyOf : UInt64 → Bytes32) (s : Store π) : Prop where
  self : s.selfKey = keyOf s.peerId
  logs : ∀ author, ∀ e ∈ readRoster π s.disk author (keyOf author),
    ∀ peer key, learnSubject e = some (peer, key) → key = keyOf peer
  founder : ∀ fid key, fid ≠ s.peerId → s.founder = some fid →
    RosterLog.peekSelfKey π fid s.disk.rosters[fid]? = .ok (some key) →
      derivedPeerId key = fid → key = keyOf fid

def seeds (s : Store π) : Except StorageError (Std.TreeMap UInt64 Bytes32) :=
  trustSeeds π s.disk s.peerId s.selfKey s.founder

def Trusted (keyOf : UInt64 → Bytes32) (s : Store π) : UInt64 → Prop :=
  Reach (fun a => ∃ seeds, s.seeds = .ok seeds ∧ a ∈ seeds) ((rosterWalk π s.disk).Edge keyOf)

theorem trustSeeds_getElem? {selfKey : Bytes32}
    (h : trustSeeds π disk selfId selfKey founder = .ok t) :
    t[a]? = some key ↔ (a = selfId ∧ key = selfKey) ∨ (a ≠ selfId ∧ founder = some a ∧
        RosterLog.peekSelfKey π a disk.rosters[a]? = .ok (some key) ∧ derivedPeerId key = a) := by
  have hself (t : Std.TreeMap UInt64 Bytes32) (ht : t = Std.TreeMap.insert ∅ selfId selfKey) :
      t[a]? = some key ↔ a = selfId ∧ key = selfKey := by
    rw [ht]
    simp only [get_insert, Std.TreeMap.getElem?_emptyc, Option.ite_none_right_eq_some,
      Option.some.injEq]
    rw [eq_comm, eq_comm (a := key)]
  simp only [trustSeeds] at h
  cases hf : founder with
  | none =>
    rw [hf] at h
    cases h
    rw [hself _ rfl]
    simp only [reduceCtorEq, false_and, and_false, or_false]
  | some fid =>
    simp only [hf, Std.TreeMap.contains_insert, Std.TreeMap.contains_emptyc, Bool.or_false,
      beq_iff_eq, Std.LawfulEqOrd.compare_eq_iff_eq] at h
    by_cases hfid : selfId = fid
    · rw [if_pos hfid] at h
      cases h
      rw [hself _ rfl, ← hfid]
      simp only [Option.some.injEq]
      tauto
    · rw [if_neg hfid, except_bind_eq_ok] at h
      obtain ⟨k, hpeek, h⟩ := h
      have hnone (hk : ∀ fkey, k = some fkey → derivedPeerId fkey ≠ fid) :
          ¬ (a ≠ selfId ∧ some fid = some a ∧
            RosterLog.peekSelfKey π a disk.rosters[a]? = .ok (some key) ∧
              derivedPeerId key = a) := by
        intro hr
        obtain ⟨_, ha, hp, hd⟩ := hr
        cases ha
        rw [hpeek] at hp
        cases hp
        exact hk key rfl hd
      cases k with
      | none =>
        cases h
        rw [hself _ rfl, or_iff_left (hnone fun _ hk => nomatch hk)]
      | some fkey =>
        by_cases hd : derivedPeerId fkey = fid
        · simp only [hd, ↓reduceIte] at h
          cases h
          rw [get_insert]
          by_cases ha : fid = a
          · subst ha
            rw [if_pos rfl, hpeek]
            simp only [Option.some.injEq, Except.ok.injEq, true_and, ne_eq, Ne.symm hfid,
              false_and, false_or, not_false_eq_true]
            constructor
            · intro h
              exact ⟨h, h ▸ hd⟩
            · intro h
              exact h.1
          · rw [if_neg ha, hself _ rfl]
            simp only [Option.some.injEq, ha, false_and, and_false, or_false]
        · simp only [hd, ↓reduceIte] at h
          cases h
          rw [hself _ rfl, or_iff_left (hnone ?_)]
          intro fkey' hk
          cases hk
          exact hd

theorem seeds_getElem? (h : s.seeds = .ok t) : t[a]? = some key ↔ (a = s.peerId ∧ key = s.selfKey) ∨
      (a ≠ s.peerId ∧ s.founder = some a ∧
        RosterLog.peekSelfKey π a s.disk.rosters[a]? = .ok (some key) ∧ derivedPeerId key = a) :=
  trustSeeds_getElem? h

theorem seeds_ok (h : ∀ fid, s.founder = some fid → fid ≠ s.peerId →
      ∃ key?, RosterLog.peekSelfKey π fid s.disk.rosters[fid]? = .ok key?) :
    ∃ t, s.seeds = .ok t := by
  cases hf : s.founder with
  | none =>
    simp only [seeds, trustSeeds, hf]
    exact ⟨_, rfl⟩
  | some fid =>
    by_cases hfid : fid = s.peerId
    · simp only [seeds, trustSeeds, hf, hfid, Std.TreeMap.contains_insert_self, ↓reduceIte]
      exact ⟨_, rfl⟩
    · obtain ⟨key?, hpeek⟩ := h fid hf hfid
      simp only [seeds, trustSeeds, hf, hpeek, bind, Except.bind]
      split
      next => exact ⟨_, rfl⟩
      next =>
        cases key? with
        | none => exact ⟨_, rfl⟩
        | some key =>
          simp only
          split
          next => exact ⟨_, rfl⟩
          next => exact ⟨_, rfl⟩

theorem collect_of_seeds (h : s.seeds = .ok t)
    (order : RosterOrder) : ∃ entries, s.collect order = .ok entries :=
  ⟨_, except_bind_eq_ok.2 ⟨t, h, rfl⟩⟩

theorem labelled (hk : s.KeyedBy keyOf) (h : s.seeds = .ok t) :
    (rosterWalk π s.disk).Labelled keyOf t where
  seeds := by
    intro a key ha
    cases (seeds_getElem? h).1 ha with
    | inl hself =>
      obtain ⟨rfl, rfl⟩ := hself
      exact hk.self
    | inr hfounder =>
      obtain ⟨hne, hf, hp, hd⟩ := hfounder
      exact hk.founder a key hne hf hp hd
  learns := hk.logs

theorem trustSeeds_mem {selfKey : Bytes32}
    (h : trustSeeds π disk selfId selfKey founder = .ok t) (ha : a ∈ t) :
    a = selfId ∨ founder = some a := by
  obtain ⟨key, hkey⟩ := Option.isSome_iff_exists.1 (Std.TreeMap.mem_iff_isSome_getElem?.1 ha)
  cases (trustSeeds_getElem? h).1 hkey with
  | inl hself => exact .inl hself.1
  | inr hfounder => exact .inr hfounder.2.1

def namedPeers (π : Platform) (keyOf : UInt64 → Bytes32) (disk : Disk) : List UInt64 :=
  disk.rosters.toList.flatMap fun p =>
    (readRoster π disk p.1 (keyOf p.1)).map RosterEntry.subjectPeer

theorem namedPeers_length : (namedPeers π keyOf disk).length + 3 ≤ walkBound disk := by
  rw [namedPeers, walkBound, List.length_flatMap]
  apply Nat.add_le_add_right
  apply List.sum_le_sum
  intro p hp
  rw [List.length_map]
  exact readRoster_length (Std.TreeMap.mem_toList_iff_getElem?_eq_some.1 hp)

theorem edge_namedPeers (h : (rosterWalk π disk).Edge keyOf a b) : b ∈ namedPeers π keyOf disk := by
  obtain ⟨e, he, key, hl⟩ := h
  have hb : e.subjectPeer = b := by
    simp only [rosterWalk, learnSubject, Option.ite_none_right_eq_some, Option.some.injEq,
      Prod.mk.injEq] at hl
    exact hl.2.1
  cases hd : disk.rosters[a]? with
  | none =>
    have he : e ∈ readRoster π disk a (keyOf a) := he
    rw [readRoster_none hd] at he
    cases he
  | some bytes =>
    rw [namedPeers, List.mem_flatMap]
    exact ⟨(a, bytes), Std.TreeMap.mem_toList_iff_getElem?_eq_some.2 hd,
      List.mem_map.2 ⟨e, he, hb⟩⟩

theorem walk_nodes {selfKey : Bytes32}
    (ht : trustSeeds π disk selfId selfKey founder = .ok t) (keyOf : UInt64 → Bytes32) :
    ∃ nodes : Finset UInt64, nodes.card < walkBound disk ∧
      ∀ a, Reach (· ∈ t) ((rosterWalk π disk).Edge keyOf) a → a ∈ nodes := by
  refine ⟨insert selfId (founder.toFinset ∪ (namedPeers π keyOf disk).toFinset), ?_, fun a ha => ?_⟩
  · have h₁ := Finset.card_insert_le selfId (founder.toFinset ∪ (namedPeers π keyOf disk).toFinset)
    have h₂ := Finset.card_union_le founder.toFinset (namedPeers π keyOf disk).toFinset
    have h₃ := (namedPeers π keyOf disk).toFinset_card_le
    have h₄ : founder.toFinset.card ≤ 1 := by
      cases founder with
      | none => exact Nat.zero_le 1
      | some f => exact Nat.le_refl 1
    have h₅ := @namedPeers_length π keyOf disk
    omega
  · simp only [Finset.mem_insert, Finset.mem_union, Option.mem_toFinset, Option.mem_def,
      List.mem_toFinset]
    cases ha with
    | base ha =>
      cases trustSeeds_mem ht ha with
      | inl h => exact .inl h
      | inr h => exact .inr (.inl h)
    | step _ hab => exact .inr (.inr (edge_namedPeers hab))

theorem mem_collect (hk : s.KeyedBy keyOf) (h : s.collect order = .ok entries) :
    e ∈ entries ↔ ∃ a, s.Trusted keyOf a ∧ e ∈ readRoster π s.disk a (keyOf a) := by
  obtain ⟨t, ht, h⟩ := except_bind_eq_ok.1 h
  cases h
  have hseed : (fun a => ∃ t', s.seeds = .ok t' ∧ a ∈ t') = (· ∈ t) := by
    funext a
    have hs : s.seeds = .ok t := ht
    simp only [hs, Except.ok.injEq, exists_eq_left']
  rw [Trusted, hseed]
  obtain ⟨nodes, hbound, hnodes⟩ := walk_nodes ht keyOf
  exact Exploration.mem_explore (labelled hk ht) order hnodes hbound

end Collect

end Store

end Roam
