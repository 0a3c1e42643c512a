import Roam.RoleDecision
import Roam.StoreCalls
import Roam.PlainPlatform

namespace Roam
set_option autoImplicit true
open Library Library.Fallible

def RosterCall.Keyed (keyOf : UInt64 → Bytes32) : RosterCall → Prop
  | .addPeer peer key _ | .setRole peer key _ | .revokePeer peer key => key = keyOf peer
  | _ => True

structure Network (π : Platform) (ι : Type) where
  stores : ι → Store π
  sent : List (UInt64 × Bytes)

namespace Network
variable {π : Platform} {ι : Type} [DecidableEq ι]

def setStore (net : Network π ι) (i : ι) (s : Store π) : Network π ι :=
  { net with stores := Function.update net.stores i s }

/-- One step of honest devices: a call of one of them, a log sent from its disk, or an import of
logs that were sent. A call keeps what it changed before it failed. -/
inductive Step (keyOf : UInt64 → Bytes32) : Network π ι → Network π ι → Prop
  | call (net : Network π ι) (i : ι) (orders : RosterOrder × RosterOrder) (c : RosterCall)
      (hc : c.Keyed keyOf) :
      Step keyOf net (net.setStore i (exec (c.run orders) (net.stores i)).2)
  | sendOwn (net : Network π ι) (i : ι) :
      Step keyOf net
        { net with sent := ((net.stores i).peerId, (net.stores i).exportOwnRoster) :: net.sent }
  | sendAll (net : Network π ι) (i : ι) :
      Step keyOf net { net with sent := (net.stores i).exportAllRosters ++ net.sent }
  | importRoster (net : Network π ι) (i : ι) (order : RosterOrder) (author : UInt64)
      (key : Bytes32) (bytes : Bytes) (hs : (author, bytes) ∈ net.sent) :
      Step keyOf net
        (net.setStore i (exec (Store.importRoster order author key bytes) (net.stores i)).2)
  | importBundle (net : Network π ι) (i : ι) (order : RosterOrder) (logs : List (UInt64 × Bytes))
      (hs : logs ⊆ net.sent) :
      Step keyOf net
        (net.setStore i (exec (Store.importRosterBundle order logs) (net.stores i)).2)

/-- What honest devices reach from fresh vaults. -/
inductive Reachable (keyOf : UInt64 → Bytes32) (ids : ι → Identity) (doc : π.Doc) :
    Network π ι → Prop
  | start : Reachable keyOf ids doc ⟨fun i => Store.fresh (ids i) doc, []⟩
  | step {net net' : Network π ι} (h : Reachable keyOf ids doc net) (hs : Step keyOf net net') :
      Reachable keyOf ids doc net'

end Network

section History
variable (π : Platform) {ι : Type}

def writtenLine (id : Identity) (e : RosterEntry) : Bytes :=
  π.rosterJson.render (RosterLine.ofEntry π id e)

def writtenLog (id : Identity) (es : List RosterEntry) : Bytes :=
  joinLines 10 (es.map (writtenLine π id))

structure Honest (keyOf : UInt64 → Bytes32) (ids : ι → Identity) (signed : ι → List RosterEntry) :
    Prop where
  keys : ∀ i, keyOf ((ids i).peerId π) = (ids i).verifyingKey π
  author : ∀ i, ∀ e ∈ signed i, e.addedBy = (ids i).peerId π
  bound : ∀ i, ∀ e ∈ signed i, ∀ peer key, learnSubject e = some (peer, key) → key = keyOf peer

/-- A log as some device once left it. -/
def IsCopy (ids : ι → Identity) (signed : ι → List RosterEntry) (author : UInt64)
    (bytes : Bytes) : Prop :=
  ∃ j es, author = (ids j).peerId π ∧ es <+: signed j ∧ bytes = writtenLog π (ids j) es

end History

structure Store.Holds {π : Platform} (ids : ι → Identity) (signed : ι → List RosterEntry) (i : ι)
    (s : Store π) : Prop where
  identity : s.identity = ids i
  own : s.disk.rosters[s.peerId]?.getD [] = writtenLog π (ids i) (signed i)
  files : ∀ author bytes, s.disk.rosters[author]? = some bytes → IsCopy π ids signed author bytes

section Reading
variable {π : Platform} {ι : Type} {ids : ι → Identity} {signed : ι → List RosterEntry}
variable {keyOf : UInt64 → Bytes32} {s : Store π} {i : ι}

theorem writtenLine_object (hπ : π.Lawful) {id : Identity} {es : List RosterEntry} :
    ∀ line ∈ es.map (writtenLine π id), ObjectLine line := by
  intro line hl
  obtain ⟨e, _, rfl⟩ := List.mem_map.1 hl
  exact hπ.roster.object _

theorem wholeLog_written (hπ : π.Lawful) {id : Identity} (h : ∀ e ∈ es, e.addedBy = id.peerId π) :
    WholeLog (rosterReader π (id.peerId π) (id.verifyingKey π)) (es.map (writtenLine π id)) es where
  object := writtenLine_object hπ
  reads := by
    rw [List.forall₂_map_left_iff, List.forall₂_same]
    intro e he
    exact rosterReader_ofEntry hπ id (h e he)

theorem peekSelfKey_written (hπ : π.Lawful) (id : Identity) (es : List RosterEntry)
    (author : UInt64) :
    ∃ key?, RosterLog.peekSelfKey π author (some (writtenLog π id es)) = .ok key? ∧
      ∀ key, key? = some key → ∃ e ∈ es, e.subjectPeer = author ∧ e.subjectKey = key := by
  have hutf : validUtf8 (writtenLog π id es ++ []) = validUtf8 [] :=
    validUtf8_joinLines fun line hl => (writtenLine_object hπ line hl).utf8
  have hlines := @ObjectLine.textLines_filter (es.map (writtenLine π id)) []
    (writtenLine_object hπ) List.not_mem_nil
  rw [List.append_nil] at hutf hlines
  rw [RosterLog.peekSelfKey]
  simp only [hutf]
  refine ⟨_, if_pos rfl, ?_⟩
  intro key hkey
  rw [writtenLog, hlines] at hkey
  obtain ⟨line, hline, hkey⟩ := List.exists_of_findSome?_eq_some hkey
  have hline : line ∈ es.map (writtenLine π id) := by
    simpa only [isBlank, ↓reduceIte, List.append_nil] using hline
  obtain ⟨e, he, rfl⟩ := List.mem_map.1 hline
  refine ⟨e, he, ?_⟩
  simp only [writtenLine, hπ.roster.parse_render, RosterLine.ofEntry, hπ.b64] at hkey
  split at hkey
  next => cases hkey
  next hp =>
    rw [Bytes32.ofBytes?, dif_pos e.subjectKey.size] at hkey
    exact ⟨not_not.1 hp, Option.some.inj hkey⟩

theorem readRoster_copy (hπ : π.Lawful) (hh : Honest π keyOf ids signed)
    (hf : disk.rosters[author]? = some bytes) (hc : IsCopy π ids signed author bytes) :
    ∃ j, readRoster π disk author (keyOf author) ⊆ signed j := by
  obtain ⟨j, es, rfl, hp, rfl⟩ := hc
  have hw := wholeLog_written hπ fun e he => hh.author j e (hp.subset he)
  have hr : readVerified π _ disk.rosters[(ids j).peerId π]? = .ok es :=
    hw.readVerified (congrArg (Option.getD · []) hf)
  have hv : π.validKey ((ids j).verifyingKey π) = true := hπ.valid_publicKey (ids j).secret
  refine ⟨j, ?_⟩
  rw [hh.keys j, readRoster, if_pos hv, hr]
  exact hp.subset

theorem Store.Holds.peerId (h : s.Holds ids signed i) : s.peerId = (ids i).peerId π := by
  rw [Store.peerId, h.identity]

theorem Store.Holds.selfKey (h : s.Holds ids signed i) : s.selfKey = (ids i).verifyingKey π := by
  rw [Store.selfKey, h.identity]

theorem Store.Holds.keyedBy (hπ : π.Lawful) (hh : Honest π keyOf ids signed)
    (h : s.Holds ids signed i) : s.KeyedBy keyOf where
  self := by rw [h.selfKey, h.peerId, hh.keys]
  logs := by
    intro author e he peer key hl
    cases hf : s.disk.rosters[author]? with
    | none =>
      rw [readRoster_none hf] at he
      cases he
    | some bytes =>
      obtain ⟨j, hsub⟩ := readRoster_copy hπ hh hf (h.files author bytes hf)
      exact hh.bound j e (hsub he) peer key hl
  founder := by
    intro fid key _ _ hpeek hd
    cases hf : s.disk.rosters[fid]? with
    | none =>
      rw [hf] at hpeek
      cases hpeek
    | some bytes =>
      obtain ⟨j, es, hfid, hp, rfl⟩ := h.files fid bytes hf
      obtain ⟨key?, hpeek', hkey⟩ := peekSelfKey_written hπ (ids j) es fid
      rw [hf, hpeek', Except.ok.injEq] at hpeek
      obtain ⟨e, he, rfl, rfl⟩ := hkey key hpeek
      apply hh.bound j e (hp.subset he)
      rw [learnSubject, if_pos hd]

theorem Store.Holds.wholeLog (hπ : π.Lawful) (hh : Honest π keyOf ids signed)
    (h : s.Holds ids signed i) :
    WholeLog (rosterReader π s.peerId s.selfKey) ((signed i).map (writtenLine π (ids i)))
      (signed i) := by
  rw [h.peerId, h.selfKey]
  exact wholeLog_written hπ (hh.author i)

theorem Store.Holds.ownLog (hπ : π.Lawful) (hh : Honest π keyOf ids signed)
    (h : s.Holds ids signed i) : s.OwnLog :=
  ⟨_, signed i, h.own, h.wholeLog hπ hh⟩

theorem Store.Holds.collect_ok (hπ : π.Lawful) (h : s.Holds ids signed i) (order : RosterOrder) :
    ∃ entries, s.collect order = .ok entries := by
  have hpeek (fid : UInt64) (_ : s.founder = some fid) (_ : fid ≠ s.peerId) :
      ∃ key?, RosterLog.peekSelfKey π fid s.disk.rosters[fid]? = .ok key? := by
    cases hf : s.disk.rosters[fid]? with
    | none => exact ⟨_, rfl⟩
    | some bytes =>
      obtain ⟨j, es, _, _, rfl⟩ := h.files fid bytes hf
      obtain ⟨key?, hp, _⟩ := peekSelfKey_written hπ (ids j) es fid
      exact ⟨key?, hp⟩
  obtain ⟨t, ht⟩ := Store.seeds_ok hpeek
  exact Store.collect_of_seeds ht order

theorem Store.Holds.ready (hπ : π.Lawful) (hh : Honest π keyOf ids signed)
    (h : s.Holds ids signed i) (hr : s.Refreshed) : s.Ready keyOf where
  keyed := h.keyedBy hπ hh
  own := h.ownLog hπ hh
  refreshed := hr

end Reading

section Steps
variable {π : Platform} {ι : Type} {ids : ι → Identity} {signed signed' : ι → List RosterEntry}
variable {keyOf : UInt64 → Bytes32} {s s' : Store π} {i : ι}

theorem IsCopy.mono (h : IsCopy π ids signed author bytes) (hm : ∀ j, signed j <+: signed' j) :
    IsCopy π ids signed' author bytes := by
  obtain ⟨j, es, ha, hp, hb⟩ := h
  exact ⟨j, es, ha, hp.trans (hm j), hb⟩

/-- What a step of one device leaves: it may have signed more, and its store holds it. -/
structure Continues (keyOf : UInt64 → Bytes32) (ids : ι → Identity) (i : ι)
    (signed signed' : ι → List RosterEntry) (s' : Store π) : Prop where
  others : ∀ j, j ≠ i → signed' j = signed j
  grows : ∀ j, signed j <+: signed' j
  honest : Honest π keyOf ids signed'
  holds : s'.Holds ids signed' i
  refreshed : s'.Refreshed

theorem Continues.unchanged (hh : Honest π keyOf ids signed) (h : s.Holds ids signed i)
    (hr : s.Refreshed) : Continues keyOf ids i signed signed s :=
  ⟨fun _ _ => rfl, fun _ => List.prefix_rfl, hh, h, hr⟩

theorem Store.Holds.withPeers (h : s.Holds ids signed i) (entries : List RosterEntry) :
    (s.withPeers entries).Holds ids signed i :=
  ⟨h.identity, h.own, h.files⟩

theorem Store.Holds.withFounder (h : s.Holds ids signed i) (peer : UInt64) :
    (s.withFounder peer).Holds ids signed i :=
  ⟨h.identity, h.own, h.files⟩

theorem Store.Holds.refresh (hπ : π.Lawful) (hh : Honest π keyOf ids signed)
    (h : s.Holds ids signed i) (order : RosterOrder) :
    Continues keyOf ids i signed signed (exec (Store.refreshPeers order) s).2 := by
  obtain ⟨entries, hc⟩ := h.collect_ok hπ order
  rw [Store.exec_refreshPeers, hc]
  exact ⟨fun _ _ => rfl, fun _ => List.prefix_rfl, hh, h.withPeers entries, order, entries, hc, rfl⟩

theorem Store.Holds.withRoster (h : s.Holds ids signed i) (ha : author ≠ s.peerId)
    (hc : IsCopy π ids signed author bytes) : (s.withRoster author bytes).Holds ids signed i where
  identity := h.identity
  own := by
    have hget : (s.withRoster author bytes).disk.rosters[s.peerId]? = s.disk.rosters[s.peerId]? :=
      Store.rosters_withRoster_ne (Ne.symm ha)
    exact (congrArg (Option.getD · []) hget).trans h.own
  files := by
    intro a b hb
    by_cases haa : a = author
    · subst haa
      simp only [Store.withRoster, Std.TreeMap.getElem?_insert_self, Option.some.injEq] at hb
      exact hb ▸ hc
    · rw [Store.rosters_withRoster_ne haa] at hb
      exact h.files a b hb

theorem Store.Holds.withBundle (h : s.Holds ids signed i)
    (hc : ∀ log ∈ logs, IsCopy π ids signed log.1 log.2) :
    (s.withBundle logs).Holds ids signed i where
  identity := h.identity
  own := by
    have hget : (s.withBundle logs).disk.rosters[s.peerId]? = s.disk.rosters[s.peerId]? :=
      Store.bundleLog_self
    exact (congrArg (Option.getD · []) hget).trans h.own
  files := by
    intro a bytes hb
    cases Store.bundleLog_getElem? hb with
    | inl hb => exact h.files a bytes hb
    | inr hb => exact hc (a, bytes) hb.2

variable [DecidableEq ι]

def signs (signed : ι → List RosterEntry) (i : ι) (e : RosterEntry) : ι → List RosterEntry :=
  Function.update signed i (signed i ++ [e])

theorem signs_self : signs signed i e i = signed i ++ [e] := Function.update_self ..

theorem signs_ne {j : ι} (h : j ≠ i) : signs signed i e j = signed j := Function.update_of_ne h ..

theorem signs_grows (j : ι) : signed j <+: signs signed i e j := by
  by_cases h : j = i
  · rw [h, signs_self]
    exact List.prefix_append _ _
  · rw [signs_ne h]

theorem Honest.signs (hh : Honest π keyOf ids signed) (ha : e.addedBy = (ids i).peerId π)
    (hb : ∀ peer key, learnSubject e = some (peer, key) → key = keyOf peer) :
    Honest π keyOf ids (signs signed i e) := by
  have hmem (j : ι) (x : RosterEntry) (hx : x ∈ Roam.signs signed i e j) :
      x ∈ signed j ∨ j = i ∧ x = e := by
    by_cases h : j = i
    · subst h
      rw [signs_self, List.mem_append, List.mem_singleton] at hx
      exact hx.imp_right fun hx => ⟨rfl, hx⟩
    · rw [signs_ne h] at hx
      exact .inl hx
  exact {
    keys := hh.keys
    author := by
      intro j x hx
      cases hmem j x hx with
      | inl hx => exact hh.author j x hx
      | inr hx =>
        obtain ⟨rfl, rfl⟩ := hx
        exact ha
    bound := by
      intro j x hx
      cases hmem j x hx with
      | inl hx => exact hh.bound j x hx
      | inr hx => exact hx.2 ▸ hb }

theorem Store.Holds.authorRoster (hπ : π.Lawful) (hh : Honest π keyOf ids signed)
    (h : s.Holds ids signed i) (orders : RosterOrder × RosterOrder) (op : RosterOp)
    (hkey : key = keyOf subject) : ∃ signed',
      Continues keyOf ids i signed signed' (exec (Store.authorRoster orders op subject key)
        s).2 := by
  obtain ⟨seen, hseen⟩ := h.collect_ok hπ orders.1
  have hl : ∃ lamport, s.nextRoleLamport orders.1 subject = .ok lamport :=
    ⟨_, except_bind_eq_ok.2 ⟨seen, hseen, rfl⟩⟩
  obtain ⟨lamport, hl⟩ := hl
  obtain ⟨e, file, hs⟩ := Store.signOwn_isOk (h.ownLog hπ hh) lamport op subject key
  obtain ⟨⟨_, _, hsub, hkey', hby⟩, line, rfl, rfl, _⟩ :=
    Store.signOwn_ok hπ h.own (h.wholeLog hπ hh) hs
  have hh' : Honest π keyOf ids (signs signed i e) := by
    apply hh.signs (hby.trans h.peerId)
    intro p k hlearn
    simp only [learnSubject, Option.ite_none_right_eq_some, Option.some.injEq,
      Prod.mk.injEq] at hlearn
    obtain ⟨_, rfl, rfl⟩ := hlearn
    rw [hkey', hsub, hkey]
  have hfile : joinLines 10 ((signed i).map (writtenLine π (ids i)) ++
        [π.rosterJson.render (RosterLine.ofEntry π s.identity e)]) =
      writtenLog π (ids i) (signs signed i e i) := by
    rw [writtenLog, signs_self, List.map_append, h.identity]
    rfl
  rw [hfile] at hs
  have h' : (s.withRoster s.peerId (writtenLog π (ids i) (signs signed i e i))).Holds ids
      (signs signed i e) i := {
    identity := h.identity
    own := by
      have hget : (s.withRoster s.peerId (writtenLog π (ids i) (signs signed i e i))).disk.rosters[
          s.peerId]? = some (writtenLog π (ids i) (signs signed i e i)) :=
        Std.TreeMap.getElem?_insert_self
      exact congrArg (Option.getD · []) hget
    files := by
      intro a bytes hb
      by_cases ha : a = s.peerId
      · subst ha
        simp only [Store.withRoster, Std.TreeMap.getElem?_insert_self, Option.some.injEq] at hb
        exact ⟨i, _, h.peerId, List.prefix_rfl, hb.symm⟩
      · rw [Store.rosters_withRoster_ne ha] at hb
        exact (h.files a bytes hb).mono signs_grows }
  have hcont := h'.refresh hπ hh' orders.2
  refine ⟨signs signed i e, ?_⟩
  rw [Store.exec_authorRoster, hl]
  simp only [hs]
  exact ⟨fun j hj => signs_ne hj, signs_grows, hh', hcont.holds, hcont.refreshed⟩

theorem Store.Holds.authorAsAdmin (hπ : π.Lawful) (hh : Honest π keyOf ids signed)
    (h : s.Holds ids signed i) (hr : s.Refreshed) (orders : RosterOrder × RosterOrder)
    (op : RosterOp) (hkey : key = keyOf peer) : ∃ signed',
      Continues keyOf ids i signed signed' (exec (Store.authorAsAdmin orders op peer key) s).2 := by
  rw [Store.exec_authorAsAdmin]
  cases s.requireAdmin with
  | error e => exact ⟨signed, .unchanged hh h hr⟩
  | ok u =>
    simp only
    cases Store.checkPeerIdBinding peer key with
    | error e => exact ⟨signed, .unchanged hh h hr⟩
    | ok u => exact h.authorRoster hπ hh orders op hkey

theorem Store.Holds.call (hπ : π.Lawful) (hh : Honest π keyOf ids signed)
    (h : s.Holds ids signed i) (hr : s.Refreshed) (orders : RosterOrder × RosterOrder)
    {c : RosterCall} (hc : c.Keyed keyOf) :
    ∃ signed', Continues keyOf ids i signed signed' (exec (c.run orders) s).2 := by
  have hself : s.selfKey = keyOf s.peerId := (h.keyedBy hπ hh).self
  cases c with
  | addPeer peer key role => exact h.authorAsAdmin hπ hh hr orders _ hc
  | setRole peer key role => exact h.authorAsAdmin hπ hh hr orders _ hc
  | revokePeer peer key => exact h.authorAsAdmin hπ hh hr orders _ hc
  | declareFounder role =>
    rw [RosterCall.run, Store.exec_declareFounder]
    split
    next => exact ⟨signed, .unchanged hh h hr⟩
    next =>
      split
      next => exact ⟨signed, .unchanged hh h hr⟩
      next => exact (h.withFounder s.peerId).authorRoster hπ hh orders _ hself
  | setDeviceName name =>
    rw [RosterCall.run, Store.exec_setDeviceName]
    split
    next => exact ⟨signed, .unchanged hh h hr⟩
    next => exact h.authorRoster hπ hh orders _ hself
  | pinFounder peer =>
    rw [RosterCall.run, Store.exec_pinFounder]
    split
    next =>
      split
      next => exact ⟨signed, .unchanged hh h hr⟩
      next => exact ⟨signed, .unchanged hh h hr⟩
    next => exact ⟨signed, (h.withFounder peer).refresh hπ hh orders.2⟩

end Steps

namespace Network
variable {π : Platform} {ι : Type} {ids : ι → Identity} {net net' : Network π ι}
variable {keyOf : UInt64 → Bytes32} {signed signed' : ι → List RosterEntry}

/-- The invariant of honest devices: one history of signatures explains every log on a disk or
in transit. -/
structure Explained (keyOf : UInt64 → Bytes32) (ids : ι → Identity)
    (signed : ι → List RosterEntry) (net : Network π ι) : Prop where
  honest : Honest π keyOf ids signed
  holds : ∀ i, (net.stores i).Holds ids signed i
  refreshed : ∀ i, (net.stores i).Refreshed
  sent : ∀ log ∈ net.sent, IsCopy π ids signed log.1 log.2

theorem Explained.send (h : Explained keyOf ids signed net)
    (hl : ∀ log ∈ logs, IsCopy π ids signed log.1 log.2) :
    Explained keyOf ids signed { net with sent := logs ++ net.sent } where
  honest := h.honest
  holds := h.holds
  refreshed := h.refreshed
  sent := by
    intro log hm
    cases List.mem_append.1 hm with
    | inl hm => exact hl log hm
    | inr hm => exact h.sent log hm

theorem explained_start (hπ : π.Lawful)
    (hkeys : ∀ i, keyOf ((ids i).peerId π) = (ids i).verifyingKey π) (doc : π.Doc) :
    Explained keyOf ids (fun _ => []) ⟨fun i => Store.fresh (ids i) doc, []⟩ := by
  have hh : Honest π keyOf ids (fun _ => []) :=
    ⟨hkeys, fun _ _ he => absurd he List.not_mem_nil, fun _ _ he => absurd he List.not_mem_nil⟩
  have hholds (i : ι) : (Store.fresh (ids i) doc : Store π).Holds ids (fun _ => []) i :=
    ⟨rfl, rfl, fun _ _ hb => nomatch hb⟩
  refine ⟨hh, hholds, ?_, fun _ hl => absurd hl List.not_mem_nil⟩
  intro i
  obtain ⟨entries, hc⟩ := (hholds i).collect_ok hπ (.ascending _ _)
  have hnil : entries = [] := by
    apply List.eq_nil_iff_forall_not_mem.2
    intro e he
    obtain ⟨a, _, hr⟩ := (Store.mem_collect ((hholds i).keyedBy hπ hh) hc).1 he
    rw [Store.readRoster_none rfl] at hr
    cases hr
  subst hnil
  exact ⟨_, _, hc, rfl⟩

variable [DecidableEq ι]

theorem Explained.setStore (h : Explained keyOf ids signed net)
    (hc : Continues keyOf ids i signed signed' s') :
    Explained keyOf ids signed' (net.setStore i s') := by
  have hstores (j : ι) : (net.setStore i s').stores j = if j = i then s' else net.stores j := by
    rw [Network.setStore]
    exact Function.update_apply ..
  exact {
    honest := hc.honest
    holds := by
      intro j
      rw [hstores]
      split
      next hj => exact hj ▸ hc.holds
      next hj =>
        have hold := h.holds j
        exact ⟨hold.identity, hc.others j hj ▸ hold.own,
          fun a b hb => (hold.files a b hb).mono hc.grows⟩
    refreshed := by
      intro j
      rw [hstores]
      split
      next => exact hc.refreshed
      next => exact h.refreshed j
    sent := fun log hl => (h.sent log hl).mono hc.grows }

theorem Explained.step (hπ : π.Lawful) (h : Explained keyOf ids signed net)
    (hs : Step keyOf net net') : ∃ signed', Explained keyOf ids signed' net' := by
  cases hs with
  | call i orders c hc =>
    obtain ⟨signed', hcont⟩ := (h.holds i).call hπ h.honest (h.refreshed i) orders hc
    exact ⟨signed', h.setStore hcont⟩
  | sendOwn i =>
    refine ⟨signed, @Explained.send _ _ _ _ _ _ [_] h ?_⟩
    intro log hm
    cases List.mem_singleton.1 hm
    exact ⟨i, signed i, (h.holds i).peerId, List.prefix_rfl, (h.holds i).own⟩
  | sendAll i =>
    refine ⟨signed, h.send ?_⟩
    intro log hm
    exact (h.holds i).files log.1 log.2 (Std.TreeMap.mem_toList_iff_getElem?_eq_some.1 hm)
  | importRoster i order author key bytes hsent =>
    refine ⟨signed, h.setStore ?_⟩
    have hsame := Continues.unchanged h.honest (h.holds i) (h.refreshed i)
    rw [Store.exec_importRoster]
    split
    next => exact hsame
    next ha =>
      split
      next => exact hsame
      next =>
        split
        next => exact hsame
        next => exact ((h.holds i).withRoster ha (h.sent _ hsent)).refresh hπ h.honest order
  | importBundle i order logs hsent =>
    refine ⟨signed, h.setStore ?_⟩
    rw [Store.exec_importRosterBundle]
    exact ((h.holds i).withBundle fun log hl => h.sent log (hsent hl)).refresh hπ h.honest order

/-- In every state that honest devices reach, one history of signatures explains all logs. -/
theorem Reachable.explained (hπ : π.Lawful)
    (hkeys : ∀ i, keyOf ((ids i).peerId π) = (ids i).verifyingKey π)
    (h : Reachable keyOf ids doc net) : ∃ signed, Explained keyOf ids signed net := by
  induction h with
  | start => exact ⟨_, explained_start hπ hkeys doc⟩
  | step _ hs ih =>
    obtain ⟨signed, he⟩ := ih
    exact he.step hπ hs

theorem Reachable.ready (hπ : π.Lawful)
    (hkeys : ∀ i, keyOf ((ids i).peerId π) = (ids i).verifyingKey π)
    (h : Reachable keyOf ids doc net) (i : ι) : (net.stores i).Ready keyOf := by
  obtain ⟨signed, he⟩ := h.explained hπ hkeys
  exact (he.holds i).ready hπ he.honest (he.refreshed i)

/-- The role decision of an admin takes effect, in any state that honest devices reach, exactly
when the lamport it is signed under leaves no gap above the grants that count for the peer, or
when it repeats the role that the peer has. -/
theorem roleOf_after_decision (hπ : π.Lawful)
    (hkeys : ∀ i, keyOf ((ids i).peerId π) = (ids i).verifyingKey π)
    (hreach : Reachable keyOf ids doc net) (i : ι)
    (hcall : exec (Store.setRole orders peer key role) (net.stores i) = (.ok (), s') ∨
      exec (Store.addPeer orders peer key role) (net.stores i) = (.ok (), s'))
    (hkey : key = keyOf peer) (hc : (net.stores i).collect order = .ok entries)
    (hl : (net.stores i).nextRoleLamport orders.1 peer = .ok lamport)
    (hclock : ∀ l, GrantedAt entries (net.stores i).founder peer l → l + 1 ≠ 0)
    (hgrow : (net.stores i).GrowsQuietly keyOf entries role peer) : s'.roleOf peer = some role ↔
      GapFree (GrantedAt entries (net.stores i).founder peer) lamport ∨
        (net.stores i).roleOf peer = some role := by
  have hready := hreach.ready hπ hkeys i
  have hout : ∃ op, RosterOp.grant? op = some role ∧
      exec (Store.authorAsAdmin orders op peer key) (net.stores i) = (.ok (), s') := by
    cases hcall with
    | inl h => exact ⟨.setRole role, rfl, h⟩
    | inr h => exact ⟨.add role, rfl, h⟩
  obtain ⟨op, hop, h⟩ := hout
  obtain ⟨hfree, hgap⟩ := Store.roleOf_after_grant hπ hready h hop hkey hc hl hclock hgrow
  by_cases hg : GapFree (GrantedAt entries (net.stores i).founder peer) lamport
  · simp only [hfree hg, hg, true_or]
  · simp only [hgap hg, hg, false_or]

section Sample

inductive Move
  | call (device : Bool) (c : RosterCall)
  | send (device : Bool)
  | receive (device : Bool)

def ascendingOrders : RosterOrder × RosterOrder := (.ascending _ _, .ascending _ _)

def Move.apply (net : Network openPlatform Bool) : Move → Network openPlatform Bool
  | .call b c => net.setStore b (exec (c.run ascendingOrders) (net.stores b)).2
  | .send b => { net with sent := (net.stores b).exportAllRosters ++ net.sent }
  | .receive b =>
    net.setStore b
      (exec (Store.importRosterBundle (.ascending _ _) net.sent) (net.stores b)).2

def pairIds (b : Bool) : Identity := plainIdentity (if b then 2 else 1)

def pairId (b : Bool) : UInt64 := (pairIds b).peerId openPlatform

def pairKey (peer : UInt64) : Bytes32 := .replicate peer.toUInt8

def run (moves : List Move) : Network openPlatform Bool :=
  moves.foldl Move.apply ⟨fun b => Store.fresh (pairIds b) [], []⟩

def Move.Keyed : Move → Prop
  | .call _ c => c.Keyed pairKey
  | _ => True

theorem run_reachable (h : ∀ m ∈ moves, Move.Keyed m) :
    Reachable pairKey pairIds [] (run moves) := by
  have hfold (net : Network openPlatform Bool) (hnet : Reachable pairKey pairIds [] net) :
      Reachable pairKey pairIds [] (moves.foldl Move.apply net) := by
    induction moves generalizing net with
    | nil => exact hnet
    | cons m moves ih =>
      apply ih (fun m hm => h m (List.mem_cons_of_mem _ hm))
      apply hnet.step
      have hm := h m List.mem_cons_self
      cases m with
      | call b c => exact .call net b ascendingOrders c hm
      | send b => exact .sendAll net b
      | receive b => exact .importBundle net b _ net.sent (List.Subset.refl _)
  exact hfold _ .start

theorem pairKey_pairId (b : Bool) : pairKey (pairId b) = (pairIds b).verifyingKey openPlatform := by
  cases b <;> decide

def joinMoves : List Move :=
  [.call false (.declareFounder .admin),
    .call false (.addPeer (pairId true) (pairKey (pairId true)) .writer), .send false,
    .receive true, .call true (.pinFounder (pairId false))]

theorem joinMoves_keyed : ∀ m ∈ joinMoves, Move.Keyed m := by
  simp only [joinMoves, List.forall_mem_cons, Move.Keyed, RosterCall.Keyed, List.not_mem_nil,
    false_imp_iff, implies_true, and_self]

def founderStore : Store openPlatform := (run joinMoves).stores false

def founderEntries : List RosterEntry :=
  (founderStore.collect (.ascending _ _)).toOption.getD []

theorem founderEntries_clock (l : UInt64)
    (hg : GrantedAt founderEntries founderStore.founder (pairId true) l) : l + 1 ≠ 0 := by
  have hall : ∀ x ∈ founderEntries, x.lamport + 1 ≠ 0 := by decide +kernel
  obtain ⟨x, _, hx, rfl⟩ := hg
  exact hall x hx.1.1.1

theorem roleOf_after_decision_joined :
    (exec (Store.setRole ascendingOrders (pairId true) (pairKey (pairId true)) .reader)
        founderStore).2.roleOf (pairId true) = some .reader ↔
      GapFree (GrantedAt founderEntries founderStore.founder (pairId true)) 2 ∨
        founderStore.roleOf (pairId true) = some .reader := by
  have hc : founderStore.collect (.ascending _ _) = .ok founderEntries := by decide +kernel
  have hl : founderStore.nextRoleLamport ascendingOrders.1 (pairId true) = .ok 2 := by
    decide +kernel
  have hπ : openPlatform.Lawful := plainPlatform_lawful fun _ _ => rfl
  have hreach := run_reachable joinMoves_keyed
  have hgrow : founderStore.GrowsQuietly pairKey founderEntries .reader (pairId true) :=
    Store.growsQuietly_of_admin (hreach.ready hπ pairKey_pairId false) (by decide +kernel) hc
      (by rintro ⟨⟩)
  exact roleOf_after_decision hπ pairKey_pairId hreach false
    (.inl (exec_of_fst (by decide +kernel))) rfl hc hl founderEntries_clock hgrow

/-- A writer that named its device keeps its role: the name took the next lamport of the writer,
and the admin's decision after it leaves a gap. -/
theorem setRole_after_rename : ∃ net : Network openPlatform Bool, Reachable pairKey pairIds [] net ∧
      (exec (Store.setRole ascendingOrders (pairId true) (pairKey (pairId true)) .reader)
        (net.stores false)).1 = .ok () ∧
      (exec (Store.setRole ascendingOrders (pairId true) (pairKey (pairId true)) .reader)
        (net.stores false)).2.roleOf (pairId true) = some .writer := by
  refine ⟨run (joinMoves ++ [.call true (.setDeviceName "laptop"), .send true, .receive false]),
    run_reachable ?_, ?_, ?_⟩
  · simp only [List.forall_mem_append]
    exact ⟨joinMoves_keyed, by simp [Move.Keyed, RosterCall.Keyed]⟩
  · decide +kernel
  · decide +kernel

end Sample

end Network

end Roam
