import Roam.StoreSpec
import Roam.RosterDecision

namespace Roam
set_option autoImplicit true
open Library Library.Fallible

theorem everAdmin_origin (h : EverAdmin entries founder a) :
    founder = some a ∨ ∃ x ∈ entries, founder = some x.addedBy := by
  induction h with
  | base ha => exact .inl ha
  | step _ hab ih =>
    obtain ⟨x, hx, _, rfl, _⟩ := hab
    cases ih with
    | inl hf => exact .inr ⟨x, hx.1, hf⟩
    | inr hf => exact .inr hf

theorem everAdmin_of_hasRole_admin (h : HasRole entries founder a .admin) :
    EverAdmin entries founder a := by
  obtain ⟨w, _, ⟨x, ⟨⟨⟨hv, ha, hp⟩, hr⟩, _⟩, _⟩, _⟩ := h
  refine .step ha ⟨x, hv, ?_, rfl, hp⟩
  rw [RosterOp.grantsAdmin, hr]
  rfl

theorem find?_mergeRoster :
    ((mergeRoster entries founder).find? fun p => p.peerId = peer).map PeerRecord.role = some r ↔
      HasRole entries founder peer r := by
  constructor
  · intro h
    obtain ⟨rec, hfind, rfl⟩ := Option.map_eq_some_iff.1 h
    have hp : rec.peerId = peer := by simpa only [decide_eq_true_eq] using List.find?_some hfind
    rw [← hp]
    exact (mergeRoster_record (List.mem_of_find?_eq_some hfind)).2.2
  · intro h
    obtain ⟨w, _, ⟨x, hx, _⟩, _⟩ := id h
    obtain ⟨rec, hrec, hp⟩ := mem_mergeRoster_peer.2 ⟨x, r, hx.1⟩
    cases hfind : (mergeRoster entries founder).find? fun p => p.peerId = peer with
    | none =>
      have hne := List.find?_eq_none.1 hfind rec hrec
      simp only [hp, decide_true, not_true_eq_false] at hne
    | some rec' =>
      have hp' : rec'.peerId = peer := by
        simpa only [decide_eq_true_eq] using List.find?_some hfind
      have hr := (mergeRoster_record (List.mem_of_find?_eq_some hfind)).2.2
      rw [hp'] at hr
      rw [Option.map_some, hr.unique h]

namespace Store
variable {π : Platform} {s s' : Store π} {keyOf : UInt64 → Bytes32}

section Peers

def Refreshed (s : Store π) : Prop :=
  ∃ order entries, s.collect order = .ok entries ∧ s.peers = mergeRoster entries s.founder

theorem collect_congr (hk : s.KeyedBy keyOf) (h : s.collect order = .ok entries)
    (h' : s.collect order' = .ok entries') : ∀ e, e ∈ entries ↔ e ∈ entries' := by
  intro e
  rw [mem_collect hk h, mem_collect hk h']

theorem roleOf_iff (hk : s.KeyedBy keyOf) (hs : s.Refreshed) (h : s.collect order = .ok entries) :
    s.roleOf peer = some r ↔ HasRole entries s.founder peer r := by
  obtain ⟨order', entries', hc, hp⟩ := hs
  rw [roleOf, hp, find?_mergeRoster, hasRole_congr (collect_congr hk hc h)]

theorem everAdmin_of_requireAdmin (hk : s.KeyedBy keyOf) (hs : s.Refreshed)
    (h : s.collect order = .ok entries) (hr : s.requireAdmin = .ok ()) :
    EverAdmin entries s.founder s.peerId := by
  apply everAdmin_of_hasRole_admin
  rw [← roleOf_iff hk hs h, roleOf]
  rw [requireAdmin] at hr
  cases hfind : s.peers.find? fun p => p.peerId = s.peerId with
  | none =>
    rw [hfind] at hr
    cases hr
  | some p =>
    simp only [hfind] at hr
    split at hr
    next hp => rw [Option.map_some, hp.2]
    next => cases hr

end Peers

section Append

def OwnLog (s : Store π) : Prop :=
  ∃ lines entries, s.disk.rosters[s.peerId]?.getD [] = joinLines 10 lines ∧
    WholeLog (rosterReader π s.peerId s.selfKey) lines entries

theorem signOwn_ok (hπ : π.Lawful) (hf : s.disk.rosters[s.peerId]?.getD [] = joinLines 10 lines)
    (hw : WholeLog (rosterReader π s.peerId s.selfKey) lines entries)
    (h : s.signOwn lamport op subject key = .ok (entry, file)) :
    (entry.lamport = lamport ∧ entry.op = op ∧ entry.subjectPeer = subject ∧
        entry.subjectKey = key ∧ entry.addedBy = s.peerId) ∧
      ∃ line, line = π.rosterJson.render (RosterLine.ofEntry π s.identity entry) ∧
        file = joinLines 10 (lines ++ [line]) ∧
        WholeLog (rosterReader π s.peerId s.selfKey) (lines ++ [line]) (entries ++ [entry]) := by
  have hid : ¬ s.identity.peerId π ≠ s.peerId := not_not.2 rfl
  rw [signOwn, RosterLog.append, if_neg hid, except_bind_eq_ok] at h
  obtain ⟨es, hes, h⟩ := h
  cases h
  refine ⟨⟨rfl, rfl, rfl, rfl, rfl⟩, _, rfl, ?_, hw.append (hπ.roster.object _)
    (rosterReader_ofEntry hπ s.identity rfl)⟩
  rw [appendLine, hf, joinLines_append]
  simp only [joinLines, List.flatMap_cons, List.flatMap_nil, List.append_nil]

theorem signOwn_isOk (ho : s.OwnLog) (lamport : UInt64) (op : RosterOp) (subject : UInt64)
    (key : Bytes32) : ∃ entry file, s.signOwn lamport op subject key = .ok (entry, file) := by
  obtain ⟨lines, entries, hf, hw⟩ := ho
  have hid : ¬ s.identity.peerId π ≠ s.peerId := not_not.2 rfl
  have hr : readVerified π (rosterReader π s.peerId s.selfKey) s.disk.rosters[s.peerId]? =
      .ok entries := hw.readVerified hf
  rw [signOwn, RosterLog.append, if_neg hid]
  exact ⟨_, _, except_bind_eq_ok.2 ⟨entries, hr, rfl⟩⟩

theorem readRoster_self (hπ : π.Lawful)
    (hf : s.disk.rosters[s.peerId]?.getD [] = joinLines 10 lines)
    (hw : WholeLog (rosterReader π s.peerId s.selfKey) lines entries) :
    readRoster π s.disk s.peerId s.selfKey = entries := by
  have hr : readVerified π (rosterReader π s.peerId s.selfKey) s.disk.rosters[s.peerId]? =
      .ok entries := hw.readVerified hf
  have hv : π.validKey s.selfKey = true := hπ.valid_publicKey s.identity.secret
  rw [readRoster, if_pos hv, hr]

theorem rosters_withRoster_ne (h : author ≠ a) :
    (s.withRoster a bytes).disk.rosters[author]? = s.disk.rosters[author]? := by
  rw [withRoster, get_insert, if_neg (Ne.symm h)]

structure Appends (keyOf : UInt64 → Bytes32) (s : Store π) (entry : RosterEntry) (s' : Store π) :
    Prop where
  identity : s'.identity = s.identity
  founder : s'.founder = s.founder
  files : ∀ a, a ≠ s.peerId → s'.disk.rosters[a]? = s.disk.rosters[a]?
  self : ∀ x, x ∈ readRoster π s'.disk s.peerId (keyOf s.peerId) ↔
    x ∈ readRoster π s.disk s.peerId (keyOf s.peerId) ∨ x = entry

theorem appends_of_signOwn (hπ : π.Lawful) (hk : s.KeyedBy keyOf) (ho : s.OwnLog)
    (h : s.signOwn lamport op subject key = .ok (entry, file)) :
    Appends keyOf s entry (s.withRoster s.peerId file) := by
  obtain ⟨lines, entries, hf, hw⟩ := ho
  obtain ⟨_, line, _, hfile, hw'⟩ := signOwn_ok hπ hf hw h
  have hget : (s.withRoster s.peerId file).disk.rosters[s.peerId]?.getD [] =
      joinLines 10 (lines ++ [line]) := by
    simp only [withRoster, Std.TreeMap.getElem?_insert_self, Option.getD_some, hfile]
  have hnew : readRoster π (s.withRoster s.peerId file).disk s.peerId s.selfKey =
      entries ++ [entry] :=
    readRoster_self (s := s.withRoster s.peerId file) hπ hget hw'
  exact {
    identity := rfl
    founder := rfl
    files := fun a ha => rosters_withRoster_ne ha
    self := by
      intro x
      rw [← hk.self, hnew, readRoster_self hπ hf hw, List.mem_append, List.mem_singleton] }

theorem Appends.peerId (ha : Appends keyOf s entry s') : s'.peerId = s.peerId := by
  rw [Store.peerId, Store.peerId, ha.identity]

theorem Appends.selfKey (ha : Appends keyOf s entry s') : s'.selfKey = s.selfKey := by
  rw [Store.selfKey, Store.selfKey, ha.identity]

theorem Appends.other (ha : Appends keyOf s entry s') (h : a ≠ s.peerId) :
    readRoster π s'.disk a key = readRoster π s.disk a key := by
  rw [readRoster, readRoster, ha.files a h]

theorem Appends.seeds (ha : Appends keyOf s entry s') : s'.seeds = s.seeds := by
  simp only [Store.seeds, trustSeeds, ha.peerId, ha.selfKey, ha.founder]
  cases s.founder with
  | none => rfl
  | some fid =>
    by_cases hfid : fid = s.peerId
    · simp only [hfid, Std.TreeMap.contains_insert_self, ↓reduceIte]
    · simp only [ha.files fid hfid]

theorem Appends.mem_read (ha : Appends keyOf s entry s') : x ∈ readRoster π s'.disk a (keyOf a) ↔
      x ∈ readRoster π s.disk a (keyOf a) ∨ a = s.peerId ∧ x = entry := by
  by_cases hself : a = s.peerId
  · rw [hself, ha.self]
    simp only [true_and]
  · rw [ha.other hself]
    simp only [hself, false_and, or_false]

theorem Appends.keyedBy (ha : Appends keyOf s entry s') (hk : s.KeyedBy keyOf)
    (he : ∀ peer key, learnSubject entry = some (peer, key) → key = keyOf peer) :
    s'.KeyedBy keyOf where
  self := by rw [ha.selfKey, ha.peerId, hk.self]
  logs := by
    intro a x hx
    cases ha.mem_read.1 hx with
    | inl hx => exact hk.logs a x hx
    | inr hx => exact hx.2 ▸ he
  founder := by
    intro fid key hne hf
    rw [ha.peerId] at hne
    rw [ha.files fid hne]
    exact hk.founder fid key hne (ha.founder ▸ hf)

theorem Appends.trusted (ha : Appends keyOf s entry s') (h : s.Trusted keyOf a) :
    s'.Trusted keyOf a := by
  apply Reach.mono h
  · intro b hb
    rw [ha.seeds]
    exact hb
  · intro b c hbc
    obtain ⟨x, hx, hl⟩ := hbc
    exact ⟨x, ha.mem_read.2 (.inl hx), hl⟩

theorem trusted_self (h : s.seeds = .ok t) : s.Trusted keyOf s.peerId := by
  refine .base ⟨t, h, ?_⟩
  rw [Std.TreeMap.mem_iff_isSome_getElem?, (seeds_getElem? h).2 (.inl ⟨rfl, rfl⟩)]
  rfl

theorem seeds_of_collect (h : s.collect order = .ok entries) : ∃ t, s.seeds = .ok t := by
  obtain ⟨t, ht, _⟩ := except_bind_eq_ok.1 h
  exact ⟨t, ht⟩

theorem trusted_addedBy (hk : s.KeyedBy keyOf) (h : s.collect order = .ok entries)
    (hx : x ∈ entries) : s.Trusted keyOf x.addedBy := by
  obtain ⟨a, ha, hr⟩ := (mem_collect hk h).1 hx
  rw [readRoster_addedBy hr]
  exact ha

theorem trusted_of_everAdmin (hk : s.KeyedBy keyOf) (h : s.collect order = .ok entries)
    (hme : EverAdmin entries s.founder s.peerId) (ha : EverAdmin entries s.founder a) :
    s.Trusted keyOf a := by
  obtain ⟨t, ht⟩ := seeds_of_collect h
  cases ha with
  | base hf =>
    cases everAdmin_origin hme with
    | inl hme =>
      obtain rfl : a = s.peerId := Option.some.inj (hf.symm.trans hme)
      exact trusted_self ht
    | inr hx =>
      obtain ⟨x, hx, hf'⟩ := hx
      obtain rfl : a = x.addedBy := Option.some.inj (hf.symm.trans hf')
      exact trusted_addedBy hk h hx
  | step _ hab =>
    obtain ⟨x, hx, _, _, rfl⟩ := hab
    obtain ⟨b, hb, hr⟩ := (mem_collect hk h).1 hx.1
    refine .step hb ⟨x, hr, x.subjectKey, ?_⟩
    simp only [rosterWalk, learnSubject, hx.2, ↓reduceIte]

theorem Appends.joins (ha : Appends keyOf s entry s') (hk : s.KeyedBy keyOf)
    (hk' : s'.KeyedBy keyOf) (h : s.collect order = .ok entries)
    (h' : s'.collect order' = .ok entries') (hme : EverAdmin entries s.founder s.peerId)
    (hby : entry.addedBy = s.peerId) (hv : entry.subjectPeer = derivedPeerId entry.subjectKey) :
    Joins s.founder entries entry entries' where
  old := by
    intro x hx
    obtain ⟨a, hta, hr⟩ := (mem_collect hk h).1 hx
    exact (mem_collect hk' h').2 ⟨a, ha.trusted hta, ha.mem_read.2 (.inl hr)⟩
  new := by
    obtain ⟨t, ht⟩ := seeds_of_collect h
    exact (mem_collect hk' h').2
      ⟨s.peerId, ha.trusted (trusted_self ht), ha.mem_read.2 (.inr ⟨rfl, rfl⟩)⟩
  author := hby ▸ hme
  valid := hv

/-- Who was ever an admin by the logs on disk, once the peer has the role. -/
def AdminOnce (keyOf : UInt64 → Bytes32) (s : Store π) (role : Role) (peer : UInt64) :
    UInt64 → Prop :=
  Reach (fun a => s.founder = some a ∨ role = .admin ∧ a = peer) fun a b =>
    ∃ x, ValidIn (readRoster π s.disk a (keyOf a)) x ∧ x.op.grantsAdmin = true ∧ x.subjectPeer = b

/-- A grant about the peer that counts once the peer has the role. -/
def CountsOnce (keyOf : UInt64 → Bytes32) (s : Store π) (role : Role) (peer : UInt64)
    (x : RosterEntry) (r : Role) : Prop :=
  ValidIn (readRoster π s.disk x.addedBy (keyOf x.addedBy)) x ∧
    s.AdminOnce keyOf role peer x.addedBy ∧ x.subjectPeer = peer ∧ x.op.grant? = some r

section Counted
variable (hk : s.KeyedBy keyOf) (h : s.collect order = .ok entries)
variable (hme : EverAdmin entries s.founder s.peerId)
include hk h hme

theorem mem_collect_of_everAdmin (ha : EverAdmin entries s.founder a)
    (hx : x ∈ readRoster π s.disk a (keyOf a)) : x ∈ entries :=
  (mem_collect hk h).2 ⟨a, trusted_of_everAdmin hk h hme ha, hx⟩

theorem everAdmin_of_adminOnce (hadmin : role = .admin → EverAdmin entries s.founder peer)
    (ha : s.AdminOnce keyOf role peer a) : EverAdmin entries s.founder a := by
  apply Reach.least ha
  · rintro b (hb | ⟨hr, rfl⟩)
    · exact .base hb
    · exact hadmin hr
  · rintro b c hb ⟨x, hx, hg, rfl⟩
    have hmem := mem_collect_of_everAdmin hk h hme hb hx.1
    exact .step hb ⟨x, ⟨hmem, hx.2⟩, hg, readRoster_addedBy hx.1, rfl⟩

end Counted

section Appended
variable (ha : Appends keyOf s entry s') (hk' : s'.KeyedBy keyOf)
variable (h' : s'.collect order' = .ok entries') (hj : Joins s.founder entries entry entries')
variable (hme : EverAdmin entries s.founder s.peerId) (hop : entry.op.grant? = some role)
include ha hk' h' hj hme

theorem Appends.mem_of_everAdmin (hadm : EverAdmin entries' s.founder a)
    (hx : x ∈ readRoster π s.disk a (keyOf a)) : x ∈ entries' := by
  rw [← ha.founder] at hadm
  apply mem_collect_of_everAdmin hk' h' ?_ hadm (ha.mem_read.2 (.inl hx))
  rw [ha.founder, ha.peerId]
  exact everAdmin_mono hj.old hme

include hop

theorem Appends.everAdmin_iff :
    EverAdmin entries' s.founder a ↔ s.AdminOnce keyOf role entry.subjectPeer a := by
  constructor
  · intro hadm
    apply Reach.least hadm
    · exact fun b hb => .base (.inl hb)
    · rintro b c hb ⟨x, hx, hg, rfl, rfl⟩
      obtain ⟨a, _, hr⟩ := (mem_collect hk' h').1 hx.1
      rw [readRoster_addedBy hr] at hb
      cases ha.mem_read.1 hr with
      | inl hr => exact .step hb ⟨x, ⟨hr, hx.2⟩, hg, rfl⟩
      | inr hr =>
        obtain ⟨_, rfl⟩ := hr
        rw [RosterOp.grantsAdmin, hop, beq_iff_eq, Option.some.injEq] at hg
        exact .base (.inr ⟨hg, rfl⟩)
  · intro hadm
    apply Reach.least hadm
    · rintro b (hb | ⟨hr, rfl⟩)
      · exact .base hb
      · refine .step (everAdmin_mono hj.old hj.author) ⟨entry, ⟨hj.new, hj.valid⟩, ?_, rfl, rfl⟩
        rw [RosterOp.grantsAdmin, hop, hr]
        rfl
    · rintro b c hb ⟨x, hx, hg, rfl⟩
      have hmem := ha.mem_of_everAdmin hk' h' hj hme hb hx.1
      exact .step hb ⟨x, ⟨hmem, hx.2⟩, hg, readRoster_addedBy hx.1, rfl⟩

theorem Appends.adminGrant_iff : AdminGrant entries' s.founder entry.subjectPeer x r ↔
      s.CountsOnce keyOf role entry.subjectPeer x r ∨ x = entry ∧ r = role := by
  have hiff := fun a => ha.everAdmin_iff (a := a) hk' h' hj hme hop
  constructor
  · rintro ⟨⟨hx, hadm, hp⟩, hr⟩
    obtain ⟨a, _, hread⟩ := (mem_collect hk' h').1 hx.1
    obtain rfl := readRoster_addedBy hread
    cases ha.mem_read.1 hread with
    | inl hread => exact .inl ⟨⟨hread, hx.2⟩, (hiff _).1 hadm, hp, hr⟩
    | inr hread =>
      obtain ⟨_, rfl⟩ := hread
      exact .inr ⟨rfl, Option.some.inj (hr.symm.trans hop)⟩
  · rintro (⟨hx, hadm, hp, hr⟩ | ⟨rfl, rfl⟩)
    · have hadm' := (hiff _).2 hadm
      have hmem := ha.mem_of_everAdmin hk' h' hj hme hadm' hx.1
      exact ⟨⟨⟨hmem, hx.2⟩, hadm', hp⟩, hr⟩
    · exact ⟨⟨⟨hj.new, hj.valid⟩, everAdmin_mono hj.old hj.author, rfl⟩, hop⟩

end Appended

end Append

section Decision

theorem lt_saturatingSucc {l n : UInt64} (hle : l ≤ n) (hl : l + 1 ≠ 0) : l < saturatingSucc n := by
  have hl' : (l + 1).toNat ≠ 0 := fun h0 => hl (UInt64.toNat_inj.1 h0)
  have hlt := n.toNat_lt
  rw [UInt64.toNat_add, UInt64.toNat_one] at hl'
  rw [UInt64.le_iff_toNat_le] at hle
  rw [saturatingSucc]
  split
  next hn =>
    have hn' := congrArg UInt64.toNat hn
    rw [UInt64.toNat_add, UInt64.toNat_one, UInt64.toNat_zero] at hn'
    rw [UInt64.lt_iff_toNat_lt]
    omega
  next hn =>
    have hn' : (n + 1).toNat ≠ 0 := fun h0 => hn (UInt64.toNat_inj.1 h0)
    rw [UInt64.toNat_add, UInt64.toNat_one] at hn'
    rw [UInt64.lt_iff_toNat_lt, UInt64.toNat_add, UInt64.toNat_one]
    omega

theorem lt_nextRoleLamport (hk : s.KeyedBy keyOf) (hc : s.collect order = .ok entries)
    (hl : s.nextRoleLamport order' peer = .ok lamport) (hx : x ∈ entries)
    (hp : x.subjectPeer = peer) (hclock : x.lamport + 1 ≠ 0) : x.lamport < lamport := by
  obtain ⟨seen, hseen, hl⟩ := except_bind_eq_ok.1 hl
  cases hl
  have hmem : x.lamport ∈
      (seen.filter fun e => e.subjectPeer = peer).map RosterEntry.lamport := by
    apply List.mem_map_of_mem
    simp only [List.mem_filter, (collect_congr hk hc hseen x).1 hx, hp, decide_true, and_self]
  cases hmax : ((seen.filter fun e => e.subjectPeer = peer).map RosterEntry.lamport).max? with
  | none =>
    rw [List.max?_eq_none_iff.1 hmax] at hmem
    cases hmem
  | some m => exact lt_saturatingSucc ((List.max?_eq_some_iff.1 hmax).2 _ hmem) hclock

/-- What every operation on the roster keeps: unambiguous keys, a readable own log, and peers
that are folded from the logs on disk. -/
structure Ready (keyOf : UInt64 → Bytes32) (s : Store π) : Prop where
  keyed : s.KeyedBy keyOf
  own : s.OwnLog
  refreshed : s.Refreshed

/-- Giving the peer the role counts no grants about the peer that were not counted before. -/
def GrowsQuietly (keyOf : UInt64 → Bytes32) (s : Store π) (entries : List RosterEntry)
    (role : Role) (peer : UInt64) : Prop :=
  ∀ x r, s.CountsOnce keyOf role peer x r → AdminGrant entries s.founder peer x r

theorem growsQuietly_of_admin (hs : s.Ready keyOf) (hadm : s.requireAdmin = .ok ())
    (hc : s.collect order = .ok entries)
    (hadmin : role = .admin → EverAdmin entries s.founder peer) :
    s.GrowsQuietly keyOf entries role peer := by
  rintro x r ⟨hx, honce, hp, hr⟩
  have hme := everAdmin_of_requireAdmin hs.keyed hs.refreshed hc hadm
  have hadm' := everAdmin_of_adminOnce hs.keyed hc hme hadmin honce
  exact ⟨⟨⟨mem_collect_of_everAdmin hs.keyed hc hme hadm' hx.1, hx.2⟩, hadm', hp⟩, hr⟩

def CountsWith (keyOf : UInt64 → Bytes32) (s : Store π) (role : Role) (peer : UInt64)
    (entry x : RosterEntry) (r : Role) : Prop :=
  s.CountsOnce keyOf role peer x r ∨ x = entry ∧ r = role

theorem Authored.joins (hπ : π.Lawful) (hs : s.Ready keyOf)
    (ha : Authored s orders op peer key lamport entry file entries' s')
    (hadm : s.requireAdmin = .ok ()) (hp : peer = derivedPeerId key) (hkey : key = keyOf peer)
    (hc : s.collect order = .ok entries) (hop : op.grant? = some role) :
    Joins s.founder entries entry entries' ∧
      AdminGrant entries' s.founder peer = s.CountsWith keyOf role peer entry ∧
      entry.lamport = lamport ∧ entry.op = op ∧ entry.subjectPeer = peer := by
  obtain ⟨lines, own, hf, hw⟩ := hs.own
  obtain ⟨⟨hlam, hop', hsub, hkey', hby⟩, _⟩ := signOwn_ok hπ hf hw ha.signed
  have happ := appends_of_signOwn hπ hs.keyed hs.own ha.signed
  have hk' := happ.keyedBy hs.keyed (by
    intro p k hlearn
    simp only [learnSubject, Option.ite_none_right_eq_some, Option.some.injEq,
      Prod.mk.injEq] at hlearn
    obtain ⟨_, rfl, rfl⟩ := hlearn
    rw [hkey', hsub, hkey])
  have hme := everAdmin_of_requireAdmin hs.keyed hs.refreshed hc hadm
  have hv : entry.subjectPeer = derivedPeerId entry.subjectKey := by rw [hsub, hkey', hp]
  have hj := happ.joins hs.keyed hk' hc ha.collected hme hby hv
  refine ⟨hj, ?_, hlam, hop', hsub⟩
  funext x r
  rw [← hsub]
  exact propext (happ.adminGrant_iff hk' ha.collected hj hme (hop'.symm ▸ hop))

/-- The outcome of a grant by an admin: the role of the newest grant in the gap-free run of all that
then count. -/
theorem roleOf_after_grant_iff (hπ : π.Lawful) (hs : s.Ready keyOf)
    (h : exec (authorAsAdmin orders op peer key) s = (.ok (), s')) (hop : op.grant? = some role)
    (hkey : key = keyOf peer) (hc : s.collect order = .ok entries)
    (hl : s.nextRoleLamport orders.1 peer = .ok lamport)
    (hsign : s.signOwn lamport op peer key = .ok (entry, file)) :
    s'.roleOf peer = some r ↔ NewestRole (s.CountsWith keyOf role peer entry) r := by
  obtain ⟨hadm, hp, h⟩ := authorAsAdmin_ok h
  obtain ⟨lamport', entry', file', entries', ha⟩ := authorRoster_ok h
  obtain rfl : lamport' = lamport := Except.ok.inj (ha.lamport_eq.symm.trans hl)
  cases Except.ok.inj (ha.signed.symm.trans hsign)
  obtain ⟨_, hgrants, _⟩ := ha.joins hπ hs hadm hp hkey hc hop
  rw [ha.result, ← hgrants, ← hasRole_eq_newest]
  exact find?_mergeRoster

/-- The grant sets the role when its lamport leaves no gap above the grants that count for the peer,
and otherwise the role stays what it was. -/
theorem roleOf_after_grant (hπ : π.Lawful) (hs : s.Ready keyOf)
    (h : exec (authorAsAdmin orders op peer key) s = (.ok (), s')) (hop : op.grant? = some role)
    (hkey : key = keyOf peer) (hc : s.collect order = .ok entries)
    (hl : s.nextRoleLamport orders.1 peer = .ok lamport)
    (hclock : ∀ l, GrantedAt entries s.founder peer l → l + 1 ≠ 0)
    (hgrow : s.GrowsQuietly keyOf entries role peer) :
    (GapFree (GrantedAt entries s.founder peer) lamport → s'.roleOf peer = some role) ∧
      (¬ GapFree (GrantedAt entries s.founder peer) lamport → s'.roleOf peer = s.roleOf peer) := by
  obtain ⟨hadm, hp, h⟩ := authorAsAdmin_ok h
  obtain ⟨lamport', entry, file, entries', ha⟩ := authorRoster_ok h
  obtain rfl : lamport' = lamport := Except.ok.inj (ha.lamport_eq.symm.trans hl)
  obtain ⟨hj, hgrants, hlam, hop', hsub⟩ := ha.joins hπ hs hadm hp hkey hc hop
  have hset : Joins.Settled s.founder entries entry entries' := by
    intro x r hx
    rw [hsub, hgrants] at hx
    rw [hsub]
    exact hx.imp (hgrow x r) And.left
  have hr : entry.op.grant? = some role := by rw [hop', hop]
  have hlt : ∀ l, GrantedAt entries s.founder entry.subjectPeer l → l < entry.lamport := by
    intro l hg
    have hne := hclock l (hsub ▸ hg)
    obtain ⟨x, r', hx, rfl⟩ := hg
    rw [hlam]
    exact lt_nextRoleLamport hs.keyed hc hl hx.1.1.1 (hx.1.2.2.trans hsub) hne
  have hrole (r : Role) : s'.roleOf peer = some r ↔ HasRole entries' s.founder peer r := by
    rw [ha.result]
    exact find?_mergeRoster
  subst hsub hlam
  constructor
  · intro hg
    exact (hrole role).2 (hj.hasRole_of_gapFree hset hr hlt hg)
  · intro hg
    apply Option.ext
    intro r
    rw [hrole, hj.hasRole_of_gap hset hr hlt hg, roleOf_iff hs.keyed hs.refreshed hc]

end Decision

end Store

end Roam
