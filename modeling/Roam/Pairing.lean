import Roam.SyncFiles

namespace Roam
set_option autoImplicit true
open Library Library.Fallible

/-- What the surroundings decide while a device is enrolled: the orders of hash maps, the random
values of the wraps, and how each write ends. -/
structure EnrolIo where
  orders : RosterOrder × RosterOrder
  wraps : Nat → WrapSeed
  roster : Io
  cache : Io
  keylog : Nat → Io

theorem Io.written_ne_nil {io : Io} {line : Bytes} (hline : 2 ≤ line.length)
    (hio : ∀ msg, io ≠ .refused msg) : io.written line ≠ [] := by
  have hpos : line ≠ [] := List.ne_nil_of_length_pos (by omega)
  cases io with
  | done => exact hpos
  | refused msg => exact absurd rfl (hio msg)
  | torn more msg =>
    rw [Io.written, ← List.length_pos_iff, List.length_take]
    omega
  | unsynced msg => exact hpos

structure JoinAccept where
  vault : Bytes32
  vaultKey : Bytes32
  rosters : List (UInt64 × Bytes)
  keylogAuthor : UInt64
  keylogJsonl : Bytes
  founder : UInt64
deriving DecidableEq

structure Joined where
  vault : Bytes32
  vaultKey : Bytes32
  founder : UInt64
deriving DecidableEq

namespace Store
variable {π : Platform}

def ownRosterLine (s : Store π) (e : RosterEntry) : Bytes :=
  π.rosterJson.render (RosterLine.ofEntry π s.identity e) ++ [10]

/-- The store after an append to the own roster log that ended as `io` says. -/
def appendRosterIo (s : Store π) (io : Io) (line : Bytes) : Store π :=
  match io with
  | .refused _ => s
  | _ => s.withRoster s.peerId (s.exportOwnRoster ++ io.written line)

def addPeerIo (io : EnrolIo) (peer : UInt64) (key : Bytes32) (role : Role) : StoreM π Unit := do
  let s ← get
  ofResult s.requireAdmin
  ofResult (checkPeerIdBinding peer key)
  let lamport ← ofResult (s.nextRoleLamport io.orders.1 peer)
  let (entry, _) ← ofResult (s.signOwn lamport (.add role) peer key)
  set (s.appendRosterIo io.roster (s.ownRosterLine entry))
  ofResult io.roster.result
  refreshPeers io.orders.2
  ofResult io.cache.result

/-- Add the device to the roster, wrap every epoch to it, and put together what it needs. -/
def enrolJoiner (io : EnrolIo) (identity : Identity) (vault vaultKey : Bytes32) (role : Role)
    (joinerKey : Bytes32) (joinerPeerId : UInt64) : StoreM π JoinAccept := do
  let some founder := (← get).founder
    | throw (.peer "host is not founded — cannot deliver a founder pin to the joiner")
  addPeerIo io joinerPeerId joinerKey role
  let (idKey, epoch0) := vaultSubkeys π.crypto vaultKey
  let _ ← backfillWrapsIo io.keylog io.wraps idKey epoch0
  let s ← get
  pure
    { vault
      vaultKey
      rosters := s.exportAllRosters
      keylogAuthor := identity.peerId π
      keylogJsonl := s.exportOwnKeylog
      founder }

/-- Pin the founder, then the rosters, then the key log. -/
def adoptAccept (orders : RosterOrder × RosterOrder) (accept : JoinAccept) (hostKey : Bytes32) :
    StoreM π Joined := do
  pinFounder orders.1 accept.founder
  importRosterBundle orders.2 accept.rosters
  if accept.keylogJsonl ≠ [] then
    importKeylog accept.keylogAuthor hostKey accept.keylogJsonl
  pure { vault := accept.vault, vaultKey := accept.vaultKey, founder := accept.founder }

section Enrol
variable {s s' : Store π} {io : EnrolIo} {peer : UInt64} {key : Bytes32} {role : Role}

theorem seeds_withRoster_own (bytes : Bytes) : (s.withRoster s.peerId bytes).seeds = s.seeds := by
  have hown : (s.withRoster s.peerId bytes).peerId = s.peerId := rfl
  have hkey : (s.withRoster s.peerId bytes).selfKey = s.selfKey := rfl
  have hfounder : (s.withRoster s.peerId bytes).founder = s.founder := rfl
  simp only [seeds, trustSeeds, hown, hkey, hfounder]
  cases s.founder with
  | none => rfl
  | some fid =>
    dsimp only
    by_cases hfid : fid = s.peerId
    · rw [hfid, Std.TreeMap.contains_insert_self, if_pos rfl, if_pos rfl]
    · have hlog : (s.withRoster s.peerId bytes).disk.rosters[fid]? = s.disk.rosters[fid]? := by
        rw [withRoster, get_insert, if_neg (Ne.symm hfid)]
      rw [hlog]

def Signs (s : Store π) (io : EnrolIo) (peer : UInt64) (key : Bytes32) (role : Role)
    (entry : RosterEntry) : Prop :=
  s.requireAdmin = .ok () ∧ checkPeerIdBinding peer key = .ok () ∧
    ∃ lamport file, s.nextRoleLamport io.orders.1 peer = .ok lamport ∧
      s.signOwn lamport (.add role) peer key = .ok (entry, file)

def withEntry (s : Store π) (entry : RosterEntry) : Store π :=
  s.withRoster s.peerId (s.exportOwnRoster ++ s.ownRosterLine entry)

theorem Signs.collect (h : s.Signs io peer key role entry) (bytes : Bytes) (order : RosterOrder) :
    ∃ entries, (s.withRoster s.peerId bytes).collect order = .ok entries := by
  obtain ⟨_, _, lamport, _, hlamport, _⟩ := h
  obtain ⟨collected, hcollect, _⟩ := except_bind_eq_ok.1 hlamport
  obtain ⟨seeds, hseeds, _⟩ := except_bind_eq_ok.1 hcollect
  exact collect_of_seeds ((seeds_withRoster_own bytes).trans hseeds) order

theorem Signs.entry_eq {entry : RosterEntry} (h : s.Signs io peer key role entry) :
    entry.op = .add role ∧ entry.subjectPeer = peer ∧ entry.subjectKey = key ∧
      entry.addedBy = s.peerId := by
  obtain ⟨_, _, lamport, file, _, hsign⟩ := h
  have hid : ¬ s.identity.peerId π ≠ s.peerId := not_not.2 rfl
  rw [signOwn, RosterLog.append, if_neg hid] at hsign
  obtain ⟨entries, _, hok⟩ := except_bind_eq_ok.1 hsign
  cases hok
  exact ⟨rfl, rfl, rfl, rfl⟩

theorem exec_addPeerIo_unsigned (h : ∀ entry, ¬ s.Signs io peer key role entry) :
    ∃ e, exec (addPeerIo io peer key role) s = (.error e, s) := by
  simp only [addPeerIo, exec_bind, exec_get, exec_ofResult]
  cases hadmin : s.requireAdmin with
  | error e => exact ⟨e, rfl⟩
  | ok _ =>
    cases hbinding : checkPeerIdBinding peer key with
    | error e => exact ⟨e, rfl⟩
    | ok _ =>
      cases hlamport : s.nextRoleLamport io.orders.1 peer with
      | error e => exact ⟨e, rfl⟩
      | ok lamport =>
        dsimp only
        cases hsign : s.signOwn lamport (.add role) peer key with
        | error e => exact ⟨e, rfl⟩
        | ok p => exact absurd ⟨hadmin, hbinding, lamport, p.2, hlamport, hsign⟩ (h p.1)

theorem exec_addPeerIo_signed (h : s.Signs io peer key role entry) :
    exec (addPeerIo io peer key role) s =
      exec (do
        ofResult io.roster.result
        refreshPeers io.orders.2
        ofResult io.cache.result) (s.appendRosterIo io.roster (s.ownRosterLine entry)) := by
  obtain ⟨hadmin, hbinding, lamport, file, hlamport, hsign⟩ := h
  simp only [addPeerIo, exec_bind, exec_get, exec_ofResult, hadmin, hbinding, hlamport, hsign,
    exec_set]

theorem exec_addPeerIo_refused (h : s.Signs io peer key role entry)
    (hio : io.roster = .refused msg) :
    exec (addPeerIo io peer key role) s = (.error (.io msg), s) := by
  rw [exec_addPeerIo_signed h, hio]
  rfl

theorem exec_addPeerIo_done (h : s.Signs io peer key role entry) (hio : io.roster = .done) :
    ∃ entries, (s.withEntry entry).collect io.orders.2 = .ok entries ∧
      exec (addPeerIo io peer key role) s =
        (io.cache.result, (s.withEntry entry).withPeers entries) := by
  obtain ⟨entries, hcollect⟩ := h.collect (s.exportOwnRoster ++ s.ownRosterLine entry) io.orders.2
  refine ⟨entries, hcollect, ?_⟩
  have happend : s.appendRosterIo .done (s.ownRosterLine entry) = s.withEntry entry := rfl
  simp only [exec_addPeerIo_signed h, hio, happend, exec_bind, exec_ofResult, Io.result,
    exec_refreshPeers]
  rw [show (s.withEntry entry).collect io.orders.2 = .ok entries from hcollect]

theorem exec_addPeerIo_rosters (h : s.Signs io peer key role entry)
    (hio : ∀ msg, io.roster ≠ .refused msg) : (exec (addPeerIo io peer key role) s).2.disk.rosters =
      s.disk.rosters.insert s.peerId (s.exportOwnRoster ++
        io.roster.written (s.ownRosterLine entry)) := by
  rw [exec_addPeerIo_signed h]
  cases hroster : io.roster with
  | refused msg => exact absurd hroster (hio msg)
  | torn more msg => rfl
  | unsynced msg => rfl
  | done =>
    obtain ⟨entries, _, hdone⟩ := exec_addPeerIo_done h hroster
    rw [exec_addPeerIo_signed h, hroster] at hdone
    rw [hdone]
    rfl

theorem addPeerIo_ok (h : exec (addPeerIo io peer key role) s = (.ok (), s')) :
    ∃ entry entries, s.Signs io peer key role entry ∧ io.roster = .done ∧ io.cache = .done ∧
      (s.withEntry entry).collect io.orders.2 = .ok entries ∧
      s' = (s.withEntry entry).withPeers entries := by
  by_cases hsigned : ∃ entry, s.Signs io peer key role entry
  · obtain ⟨entry, hsigned⟩ := hsigned
    have hwrite := h
    rw [exec_addPeerIo_signed hsigned] at hwrite
    obtain ⟨_, _, hio, _⟩ := exec_bind_ok hwrite
    have hroster := Io.result_ok_iff.1 (exec_ofResult_ok hio).1
    obtain ⟨entries, hcollect, hdone⟩ := exec_addPeerIo_done hsigned hroster
    rw [hdone] at h
    obtain ⟨hcache, rfl⟩ := Prod.mk.inj h
    exact ⟨entry, entries, hsigned, hroster, Io.result_ok_iff.1 hcache, hcollect, rfl⟩
  · obtain ⟨e, he⟩ := exec_addPeerIo_unsigned (not_exists.1 hsigned)
    rw [he] at h
    cases h

/-- When writing does not fail it is `add_peer` as the other calls see it. -/
theorem exec_addPeerIo_eq (hroster : io.roster = .done) (hcache : io.cache = .done) :
    exec (addPeerIo io peer key role) s = exec (addPeer io.orders peer key role) s := by
  rw [addPeer, exec_authorAsAdmin, exec_authorRoster]
  cases hadmin : s.requireAdmin with
  | error e => simp only [addPeerIo, exec_bind, exec_get, exec_ofResult, hadmin]
  | ok _ =>
    cases hbinding : checkPeerIdBinding peer key with
    | error e => simp only [addPeerIo, exec_bind, exec_get, exec_ofResult, hadmin, hbinding]
    | ok _ =>
      cases hlamport : s.nextRoleLamport io.orders.1 peer with
      | error e =>
        simp only [addPeerIo, exec_bind, exec_get, exec_ofResult, hadmin, hbinding, hlamport]
      | ok lamport =>
        cases hsign : s.signOwn lamport (.add role) peer key with
        | error e =>
          simp only [addPeerIo, exec_bind, exec_get, exec_ofResult, hadmin, hbinding, hlamport,
            hsign]
        | ok p =>
          have hsigned : s.Signs io peer key role p.1 :=
            ⟨hadmin, hbinding, lamport, p.2, hlamport, hsign⟩
          obtain ⟨entries, hcollect, hdone⟩ := exec_addPeerIo_done hsigned hroster
          have hfile : s.withRoster s.peerId p.2 = s.withEntry p.1 := by
            have hid : ¬ s.identity.peerId π ≠ s.peerId := not_not.2 rfl
            rw [signOwn, RosterLog.append, if_neg hid] at hsign
            obtain ⟨_, _, hok⟩ := except_bind_eq_ok.1 hsign
            cases hok
            rfl
          simp only [hdone, hcache, hsign, hfile, exec_refreshPeers, hcollect, Io.result]

/-- Only key logs differ. -/
def SameButKeylogs (s s' : Store π) : Prop := ∃ keylogs, s' = { s with disk.keylogs := keylogs }

theorem SameButKeylogs.refl (s : Store π) : SameButKeylogs s s := ⟨s.disk.keylogs, rfl⟩

theorem SameButKeylogs.trans {s'' : Store π} (h : SameButKeylogs s s')
    (h' : SameButKeylogs s' s'') : SameButKeylogs s s'' := by
  obtain ⟨_, rfl⟩ := h
  obtain ⟨keylogs, rfl⟩ := h'
  exact ⟨keylogs, rfl⟩

instance : IsPreorder (Store π) SameButKeylogs where
  refl := .refl
  trans _ _ _ := .trans

theorem backfillWrapsIo_sameButKeylogs (io : EnrolIo) (idKey epoch0Key : Bytes32) (s : Store π) :
    SameButKeylogs s (exec (backfillWrapsIo io.keylog io.wraps idKey epoch0Key) s).2 :=
  (backfillWrapsIo_leaves (fun _ _ => ⟨_, rfl⟩) io.keylog io.wraps idKey epoch0Key).holds s

def GoesThrough (s : Store π) (io : EnrolIo) (vaultKey : Bytes32) (role : Role) (key : Bytes32)
    (peer : UInt64) : Prop :=
  io.roster = .done ∧ io.cache = .done ∧
    ∃ n, (exec (backfillWrapsIo io.keylog io.wraps (vaultSubkeys π.crypto vaultKey).1
      (vaultSubkeys π.crypto vaultKey).2) (exec (addPeerIo io peer key role) s).2).1 = .ok n

variable {identity : Identity} {vault vaultKey : Bytes32} {founder : UInt64}

theorem exec_enrolJoiner_founded (hf : s.founder = some founder) :
    exec (enrolJoiner io identity vault vaultKey role key peer) s =
      exec (do
        addPeerIo io peer key role
        let _ ← backfillWrapsIo io.keylog io.wraps (vaultSubkeys π.crypto vaultKey).1
          (vaultSubkeys π.crypto vaultKey).2
        let s ← get
        pure
          { vault
            vaultKey
            rosters := s.exportAllRosters
            keylogAuthor := identity.peerId π
            keylogJsonl := s.exportOwnKeylog
            founder }) s := by
  rw [enrolJoiner, exec_bind, exec_get]
  dsimp only
  rw [hf]

theorem enrolJoiner_untouched (h : s.founder = none ∨ (∀ entry, ¬ s.Signs io peer key role entry) ∨
      ∃ msg, io.roster = .refused msg) :
    ∃ e, exec (enrolJoiner io identity vault vaultKey role key peer) s = (.error e, s) := by
  cases hf : s.founder with
  | none =>
    rw [enrolJoiner, exec_bind, exec_get]
    dsimp only
    rw [hf]
    exact ⟨_, rfl⟩
  | some founder =>
    have hadd : ∃ e, exec (addPeerIo io peer key role) s = (.error e, s) := by
      by_cases hsigned : ∃ entry, s.Signs io peer key role entry
      · obtain ⟨entry, hsigned⟩ := hsigned
        rcases h with hnone | hnot | ⟨msg, hrefused⟩
        · rw [hf] at hnone
          cases hnone
        · exact absurd hsigned (hnot entry)
        · exact ⟨_, exec_addPeerIo_refused hsigned hrefused⟩
      · exact exec_addPeerIo_unsigned (not_exists.1 hsigned)
    obtain ⟨e, he⟩ := hadd
    rw [exec_enrolJoiner_founded hf, exec_bind, he]
    exact ⟨e, rfl⟩

theorem enrolJoiner_rosters (hf : s.founder = some founder) :
    (exec (enrolJoiner io identity vault vaultKey role key peer) s).2.disk.rosters =
      (exec (addPeerIo io peer key role) s).2.disk.rosters := by
  rw [exec_enrolJoiner_founded hf, exec_bind]
  cases exec (addPeerIo io peer key role) s with
  | mk r t =>
    cases r with
    | error e => rfl
    | ok _ =>
      have hkeylogs := backfillWrapsIo_sameButKeylogs io (vaultSubkeys π.crypto vaultKey).1
        (vaultSubkeys π.crypto vaultKey).2 t
      simp only [exec_bind]
      cases hexec : exec (backfillWrapsIo io.keylog io.wraps (vaultSubkeys π.crypto vaultKey).1
          (vaultSubkeys π.crypto vaultKey).2) t with
      | mk r' t' =>
        rw [hexec] at hkeylogs
        obtain ⟨_, rfl⟩ := hkeylogs
        cases r' with
        | error e => rfl
        | ok n => rfl

theorem enrolJoiner_ok
    (h : exec (enrolJoiner io identity vault vaultKey role key peer) s = (.ok accept, s')) :
    ∃ founder entry entries n t, s.founder = some founder ∧ s.Signs io peer key role entry ∧
      io.roster = .done ∧ io.cache = .done ∧ (s.withEntry entry).collect io.orders.2 = .ok entries ∧
      t = (s.withEntry entry).withPeers entries ∧
      exec (backfillWrapsIo io.keylog io.wraps (vaultSubkeys π.crypto vaultKey).1
        (vaultSubkeys π.crypto vaultKey).2) t = (.ok n, s') ∧
      accept = { vault, vaultKey, rosters := s'.exportAllRosters, keylogAuthor := identity.peerId π,
                 keylogJsonl := s'.exportOwnKeylog, founder } := by
  cases hf : s.founder with
  | none =>
    have huntouched : ∃ e, exec (enrolJoiner io identity vault vaultKey role key peer) s =
        (.error e, s) := enrolJoiner_untouched (.inl hf)
    obtain ⟨e, he⟩ := huntouched
    rw [he] at h
    cases h
  | some founder =>
    rw [exec_enrolJoiner_founded hf] at h
    obtain ⟨_, t, hadd, hrest⟩ := exec_bind_ok h
    obtain ⟨n, t', hback, hlast⟩ := exec_bind_ok hrest
    rw [exec_bind, exec_get] at hlast
    dsimp only at hlast
    rw [exec_pure] at hlast
    obtain ⟨haccept, rfl⟩ := Prod.mk.inj hlast
    obtain rfl := Except.ok.inj haccept
    obtain ⟨entry, entries, hsigned, hroster, hcache, hcollect, rfl⟩ := addPeerIo_ok hadd
    exact ⟨founder, entry, entries, n, _, rfl, hsigned, hroster, hcache, hcollect, rfl, hback, rfl⟩

theorem GoesThrough.ok (h : s.GoesThrough io vaultKey role key peer)
    (hf : s.founder = some founder) (hsigned : s.Signs io peer key role entry) :
    ∃ accept s', exec (enrolJoiner io identity vault vaultKey role key peer) s =
      (.ok accept, s') := by
  obtain ⟨hroster, hcache, n, hback⟩ := h
  obtain ⟨entries, _, hadd⟩ := exec_addPeerIo_done hsigned hroster
  rw [hcache] at hadd
  rw [hadd] at hback
  rw [exec_enrolJoiner_founded hf, exec_bind, hadd]
  dsimp only [Io.result]
  rw [exec_bind, exec_of_fst hback]
  exact ⟨_, _, rfl⟩

def Grows (s s' : Store π) (extra : Bytes) : Prop :=
  s'.identity = s.identity ∧ s'.exportOwnRoster = s.exportOwnRoster ++ extra

theorem Grows.trans {s'' : Store π} (h : Grows s s' extra) (h' : Grows s' s'' extra') :
    Grows s s'' (extra ++ extra') := by
  refine ⟨h'.1.trans h.1, ?_⟩
  rw [h'.2, h.2, List.append_assoc]

theorem Grows.of_rosters (hid : s'.identity = s.identity)
    (h : s'.disk.rosters = s.disk.rosters.insert s.peerId (s.exportOwnRoster ++ extra)) :
    Grows s s' extra := by
  refine ⟨hid, ?_⟩
  have hpeer : s'.peerId = s.peerId := congrArg (Identity.peerId π) hid
  rw [exportOwnRoster, hpeer, h, Std.TreeMap.getElem?_insert_self]
  rfl

theorem refreshPeers_cache_identity (t : Store π) :
    (exec (do
      refreshPeers order
      ofResult cache) t).2.identity = t.identity := by
  rw [exec_bind, exec_refreshPeers]
  cases t.collect order with
  | ok entries => rfl
  | error e => rfl

theorem addPeerIo_identity (io : EnrolIo) (peer : UInt64) (key : Bytes32) (role : Role)
    (s : Store π) : (exec (addPeerIo io peer key role) s).2.identity = s.identity := by
  by_cases hsigned : ∃ entry, s.Signs io peer key role entry
  · obtain ⟨entry, hsigned⟩ := hsigned
    rw [exec_addPeerIo_signed hsigned, exec_bind, exec_ofResult]
    cases io.roster with
    | done => exact refreshPeers_cache_identity _
    | refused msg => rfl
    | torn more msg => rfl
    | unsynced msg => rfl
  · obtain ⟨e, he⟩ := exec_addPeerIo_unsigned (not_exists.1 hsigned)
    rw [he]

theorem enrolJoiner_identity (io : EnrolIo) (s : Store π) :
    (exec (enrolJoiner io identity vault vaultKey role key peer) s).2.identity = s.identity := by
  cases hf : s.founder with
  | none =>
    have huntouched : ∃ e, exec (enrolJoiner io identity vault vaultKey role key peer) s =
        (.error e, s) := enrolJoiner_untouched (.inl hf)
    obtain ⟨e, he⟩ := huntouched
    rw [he]
  | some founder =>
    have hadd := addPeerIo_identity io peer key role s
    rw [exec_enrolJoiner_founded hf, exec_bind]
    cases hexec : exec (addPeerIo io peer key role) s with
    | mk r t =>
      rw [hexec] at hadd
      cases r with
      | error e => exact hadd
      | ok _ =>
        have hkeylogs := backfillWrapsIo_sameButKeylogs io (vaultSubkeys π.crypto vaultKey).1
          (vaultSubkeys π.crypto vaultKey).2 t
        simp only [exec_bind]
        cases hback : exec (backfillWrapsIo io.keylog io.wraps (vaultSubkeys π.crypto vaultKey).1
            (vaultSubkeys π.crypto vaultKey).2) t with
        | mk r' t' =>
          rw [hback] at hkeylogs
          obtain ⟨_, rfl⟩ := hkeylogs
          cases r' with
          | error e => exact hadd
          | ok n => exact hadd

theorem enrolJoiner_cases (io : EnrolIo) (identity : Identity) (vault vaultKey : Bytes32)
    (role : Role) (key : Bytes32) (peer : UInt64) (s : Store π) :
    ((s.founder = none ∨ (∀ entry, ¬ s.Signs io peer key role entry) ∨
        ∃ msg, io.roster = .refused msg) ∧
      ∃ e, exec (enrolJoiner io identity vault vaultKey role key peer) s = (.error e, s)) ∨
    ∃ founder entry, s.founder = some founder ∧ s.Signs io peer key role entry ∧
      (∀ msg, io.roster ≠ .refused msg) ∧
      Grows s (exec (enrolJoiner io identity vault vaultKey role key peer) s).2
        (io.roster.written (s.ownRosterLine entry)) := by
  by_cases huntouched : s.founder = none ∨ (∀ entry, ¬ s.Signs io peer key role entry) ∨
      ∃ msg, io.roster = .refused msg
  · exact .inl ⟨huntouched, enrolJoiner_untouched huntouched⟩
  · simp only [not_or, not_forall, not_not, not_exists] at huntouched
    obtain ⟨hf, ⟨entry, hsigned⟩, hrefused⟩ := huntouched
    obtain ⟨founder, hf⟩ := Option.ne_none_iff_exists'.1 hf
    refine .inr ⟨founder, entry, hf, hsigned, hrefused, ?_⟩
    apply Grows.of_rosters (enrolJoiner_identity io s)
    rw [enrolJoiner_rosters hf, exec_addPeerIo_rosters hsigned hrefused]

theorem two_le_ownRosterLine (hjson : π.rosterJson.Lawful) (s : Store π) (entry : RosterEntry) :
    2 ≤ (s.ownRosterLine entry).length := by
  have hopens := (hjson.object (RosterLine.ofEntry π s.identity entry)).opens
  rw [ownRosterLine, List.length_append, List.length_singleton]
  cases hline : π.rosterJson.render (RosterLine.ofEntry π s.identity entry) with
  | nil =>
    rw [hline] at hopens
    cases hopens
  | cons b rest =>
    rw [List.length_cons]
    omega

end Enrol

end Store

end Roam
