import Roam.WrapAppends

namespace Roam
set_option autoImplicit true
open Library Library.Fallible

namespace Store
variable {π : Platform} {s s' : Store π}

section Items
variable {wraps : Nat → WrapSeed} {idKey epoch0Key : Bytes32} {kc : Keychain}

def backfillItem (s : Store π) (wraps : Nat → WrapSeed)
    (target : (Bytes32 × Bytes32 × UInt64) × Nat) :
    Option (Bytes32 × KeyBody) :=
  (s.memberKey target.1.2.2).map fun recipientPub =>
    (target.1.1, .wrap (.device target.1.2.2) (wrap π.crypto (wraps target.2) recipientPub
      target.1.2.1))

def backfillItems (s : Store π) (wraps : Nat → WrapSeed) (kc : Keychain) :
    List (Bytes32 × KeyBody) :=
  (kc.backfillTargets s.peers).zipIdx.filterMap (s.backfillItem wraps)

theorem foldlM_publishWrap (wraps : Nat → WrapSeed)
    (targets : List ((Bytes32 × Bytes32 × UInt64) × Nat)) (n : Nat) (t : Store π) :
    exec (targets.foldlM (s.publishWrap wraps) n) t =
      exec (appendAll (targets.filterMap (s.backfillItem wraps)) >>= fun _ =>
        pure (n + (targets.filterMap (s.backfillItem wraps)).length)) t := by
  induction targets generalizing n t with
  | nil => rfl
  | cons target targets ih =>
    rw [List.foldlM_cons]
    cases hmember : s.memberKey target.1.2.2 with
    | none =>
      have hitem : s.backfillItem wraps target = none := by
        rw [backfillItem, hmember, Option.map_none]
      rw [publishWrap, hmember, pure_bind, ih, List.filterMap_cons_none hitem]
    | some recipientPub =>
      have hitem : s.backfillItem wraps target = some (target.1.1, .wrap (.device target.1.2.2)
          (wrap π.crypto (wraps target.2) recipientPub target.1.2.1)) := by
        rw [backfillItem, hmember, Option.map_some]
      rw [publishWrap, hmember, bind_assoc, List.filterMap_cons_some hitem, appendAll_cons,
        bind_assoc, exec_bind, exec_bind]
      dsimp only
      cases exec (appendKeylog target.1.1 (.wrap (.device target.1.2.2)
          (wrap π.crypto (wraps target.2) recipientPub target.1.2.1))) t with
      | mk result t' =>
        cases result with
        | error err => rfl
        | ok u =>
          dsimp only
          rw [pure_bind, ih, List.length_cons, Nat.add_right_comm]
          rfl

theorem backfillWraps_ok_iff (hkc : s.keychain idKey epoch0Key = .ok kc) :
    exec (backfillWraps wraps idKey epoch0Key) s = (.ok n, s') ↔
      n = (s.backfillItems wraps kc).length ∧
        exec (appendAll (s.backfillItems wraps kc)) s = (.ok (), s') := by
  rw [exec_backfillWraps wraps hkc, foldlM_publishWrap, Nat.zero_add]
  constructor
  · intro h
    obtain ⟨_, s₁, happend, hpure⟩ := exec_bind_ok h
    cases hpure
    exact ⟨rfl, happend⟩
  · rintro ⟨rfl, happend⟩
    rw [exec_bind, backfillItems] at *
    rw [happend]
    rfl

theorem mem_backfillItems (h : item ∈ s.backfillItems wraps kc) :
    ∃ epoch key peer recipientPub seed, (epoch, key, peer) ∈ kc.backfillTargets s.peers ∧
      s.memberKey peer = some recipientPub ∧
      item = (epoch, .wrap (.device peer) (wrap π.crypto seed recipientPub key)) := by
  obtain ⟨⟨⟨epoch, key, peer⟩, i⟩, hmem, hitem⟩ := List.mem_filterMap.1 h
  obtain ⟨recipientPub, hmember, rfl⟩ := Option.map_eq_some_iff.1 hitem
  exact ⟨epoch, key, peer, recipientPub, wraps i, List.fst_mem_of_mem_zipIdx hmem, hmember, rfl⟩

theorem exists_backfillItem (wraps : Nat → WrapSeed)
    (h : (epoch, key, peer) ∈ kc.backfillTargets s.peers)
    (hmember : s.memberKey peer = some recipientPub) :
    ∃ seed, (epoch, .wrap (.device peer) (wrap π.crypto seed recipientPub key)) ∈
      s.backfillItems wraps kc := by
  obtain ⟨i, hi⟩ := List.mem_iff_getElem?.1 h
  refine ⟨wraps i, List.mem_filterMap.2 ⟨((epoch, key, peer), i),
    List.mk_mem_zipIdx_iff_getElem?.2 hi, ?_⟩⟩
  rw [backfillItem, hmember, Option.map_some]

theorem backfillItems_eq_nil_iff :
    s.backfillItems wraps kc = [] ↔ ∀ target ∈ kc.backfillTargets s.peers,
      s.memberKey target.2.2 = none := by
  rw [List.eq_nil_iff_forall_not_mem]
  constructor
  · intro h target htarget
    cases hmember : s.memberKey target.2.2 with
    | none => rfl
    | some recipientPub =>
      obtain ⟨seed, hitem⟩ := exists_backfillItem wraps htarget hmember
      exact absurd hitem (h _)
  · intro h item hitem
    obtain ⟨epoch, key, peer, recipientPub, seed, htarget, hmember, _⟩ := mem_backfillItems hitem
    rw [h _ htarget] at hmember
    cases hmember

theorem backfillItems_onlyWraps
    (h : List.Forall₂ (Signed s.peerId) (s.backfillItems wraps kc) news) : OnlyWraps news := by
  apply onlyWraps_of_signed h
  intro item hitem
  obtain ⟨_, _, _, _, _, _, _, rfl⟩ := mem_backfillItems hitem
  exact ⟨_, _, rfl⟩

end Items

def ActiveMember (s : Store π) (member : Identity) : Prop :=
  ∃ p ∈ s.peers, p.status = .active ∧ p.peerId = member.peerId π ∧
    p.verifyingKey = member.verifyingKey π

def keysOf (π : Platform) (member : Identity) (idKey epoch0Key : Bytes32)
    (entries : List KeyLogEntry) : Keychain :=
  Keychain.build π.crypto idKey epoch0Key (member.peerId π) (π.x25519Secret member.secret) entries

/-- Every active member holds the key of every epoch that the key chain holds, if the epochs and the
members are among those given. -/
def Reaches (s : Store π) (kc : Keychain) (idKey epoch0Key : Bytes32) (entries : List KeyLogEntry)
    (among : Bytes32 → UInt64 → Prop) : Prop :=
  ∀ member, s.ActiveMember member → ∀ epoch key, kc.epochKey epoch = some key →
    among epoch (member.peerId π) →
    (keysOf π member idKey epoch0Key entries).epochKey epoch = some key

def Recorded (kc : Keychain) (epoch : Bytes32) (peer : UInt64) : Prop :=
  ∃ node, kc.epochs[epoch]? = some node ∧ node.wrappedTo.contains peer = true

section Reach
variable {idKey epoch0Key : Bytes32} {wraps : Nat → WrapSeed}
  {own news others entries : List KeyLogEntry}
  {member : Identity}

theorem memberKey_activeMember (hπ : π.Lawful) (hnodup : (s.peers.map PeerRecord.peerId).Nodup)
    (h : s.ActiveMember member) :
    s.memberKey (member.peerId π) = some (π.toX25519 (member.verifyingKey π)) := by
  obtain ⟨p, hp, _, hid, hkey⟩ := h
  have hfind : (s.peers.find? fun q => q.peerId = member.peerId π) = some p := by
    cases hfound : s.peers.find? fun q => q.peerId = member.peerId π with
    | none => exact absurd (decide_eq_true hid) (List.find?_eq_none.1 hfound p hp)
    | some q =>
      have hdecide := List.find?_some hfound
      have hq : q.peerId = member.peerId π := of_decide_eq_true hdecide
      rw [List.inj_on_of_nodup_map hnodup (List.mem_of_find?_eq_some hfound) hp (hq.trans hid.symm)]
  rw [memberKey, hfind, Option.bind_some, hkey]
  exact if_pos (hπ.valid_publicKey member.secret)

theorem held_inv (he : epoch ≠ epoch0Id)
    (h : (keysOf π member idKey epoch0Key entries).epochKey epoch = some key) :
    ∃ rot, firstRotate entries epoch = some rot ∧ π.crypto.blake3 (rot.preimage key) = epoch ∧
      ∃ x ∈ entries, WrapsTo epoch (member.peerId π) x := by
  rw [keysOf, epochKey_eq he, Option.bind_eq_some_iff] at h
  obtain ⟨rot, hrot, hfind⟩ := h
  obtain ⟨x, hx, hdelivery⟩ := List.exists_of_findSome?_eq_some hfind
  exact ⟨rot, hrot, delivery_commits hdelivery, x, hx, wrapsTo_of_delivery hdelivery⟩

theorem recorded_iff (h : (keysOf π member idKey epoch0Key entries).epochKey epoch = some key)
    (peer : UInt64) : Recorded (keysOf π member idKey epoch0Key entries) epoch peer ↔
      ∃ x ∈ entries, WrapsTo epoch peer x := by
  obtain ⟨node, hnode, _⟩ := Option.bind_eq_some_iff.1 h
  rw [← mem_wrappedTo hnode peer]
  constructor
  · rintro ⟨node', hnode', hcontains⟩
    cases hnode.symm.trans hnode'
    exact hcontains
  · exact fun hcontains => ⟨node, hnode, hcontains⟩

theorem mem_backfillTargets_iff :
    (epoch, key, peer) ∈ (keysOf π member idKey epoch0Key entries).backfillTargets s.peers ↔
      epoch ≠ epoch0Id ∧ (keysOf π member idKey epoch0Key entries).epochKey epoch = some key ∧
        (∀ x ∈ entries, ¬ WrapsTo epoch peer x) ∧ ∃ p ∈ s.peers, p.status = .active ∧
          p.peerId = peer := by
  rw [mem_backfillTargets]
  apply and_congr_right
  intro _
  constructor
  · rintro ⟨node, hnode, hkey, p, hp, hactive, hlacks, rfl⟩
    refine ⟨?_, ?_, p, hp, hactive, rfl⟩
    · rw [Keychain.epochKey, hnode]
      exact hkey
    · intro x hx hwraps
      rw [(mem_wrappedTo hnode p.peerId).2 ⟨x, hx, hwraps⟩] at hlacks
      cases hlacks
  · rintro ⟨hheld, hnone, p, hp, hactive, rfl⟩
    obtain ⟨node, hnode, hkey⟩ := Option.bind_eq_some_iff.1 hheld
    refine ⟨node, hnode, hkey, p, hp, hactive, ?_, rfl⟩
    rw [Bool.eq_false_iff]
    intro hcontains
    obtain ⟨x, hx, hwraps⟩ := (mem_wrappedTo hnode p.peerId).1 hcontains
    exact hnone x hx hwraps

section Published
variable (hnews : List.Forall₂ (Signed s.peerId)
  (s.backfillItems wraps (keysOf π s.identity idKey epoch0Key (own ++ others))) news)
include hnews

theorem wrapsTo_news (hx : x ∈ news) (h : WrapsTo epoch peer x) : ∃ key recipientPub seed,
      (epoch, key, peer) ∈ (keysOf π s.identity idKey epoch0Key (own ++ others)).backfillTargets
        s.peers ∧ s.memberKey peer = some recipientPub ∧
        x.body = .wrap (.device peer) (wrap π.crypto seed recipientPub key) := by
  obtain ⟨item, hitem, hsigned⟩ := exists_right_of_forall₂ hnews.flip hx
  obtain ⟨epoch', key, peer', recipientPub, seed, htarget, hmember, rfl⟩ := mem_backfillItems hitem
  obtain ⟨hid, blob, hbody⟩ := h
  obtain rfl : epoch = epoch' := hid.symm.trans hsigned.epochId
  have hsame : KeyBody.wrap (.device peer') (wrap π.crypto seed recipientPub key) =
      .wrap (.device peer) blob :=
    hsigned.body.symm.trans hbody
  injection hsame with hrecipient _
  injection hrecipient with hpeer
  subst hpeer
  exact ⟨key, recipientPub, seed, htarget, hmember, hsigned.body⟩

theorem not_wrapsTo_news (hx : x ∈ own ++ others) (h : WrapsTo epoch peer x) :
    ∀ y ∈ news, ¬ WrapsTo epoch peer y := by
  intro y hy hwraps
  obtain ⟨_, _, _, htarget, _, _⟩ := wrapsTo_news hnews hy hwraps
  exact (mem_backfillTargets_iff.1 htarget).2.2.1 x hx h

theorem backfill_keeps_own :
    (keysOf π s.identity idKey epoch0Key (own ++ news ++ others)).epochKey epoch =
      (keysOf π s.identity idKey epoch0Key (own ++ others)).epochKey epoch := by
  by_cases he : epoch = epoch0Id
  · rw [he, keysOf, keysOf, epochKey_epoch0, epochKey_epoch0]
  · apply (backfillItems_onlyWraps hnews).epochKey_eq he
    intro y hy hwraps
    obtain ⟨key, _, _, htarget, _, _⟩ := wrapsTo_news hnews hy hwraps
    obtain ⟨_, hheld, hnone, _⟩ := mem_backfillTargets_iff.1 htarget
    obtain ⟨_, _, _, x, hx, hself⟩ := held_inv he hheld
    exact hnone x hx hself

variable (hπ : π.Lawful) (hnodup : (s.peers.map PeerRecord.peerId).Nodup)

include hπ hnodup in
/-- A member with a recorded wrap has after the back-fill the key that it had before; any other
member has the key of every epoch that the device holds. -/
theorem backfill_member_iff (hopens : ∀ secret seed key, unwrap π.crypto (π.x25519Secret secret)
      (wrap π.crypto seed (π.toX25519 (π.publicKey secret)) key) = some key)
    (hmember : s.ActiveMember member)
    (hheld : (keysOf π s.identity idKey epoch0Key (own ++ others)).epochKey epoch = some key) :
    (keysOf π member idKey epoch0Key (own ++ news ++ others)).epochKey epoch = some key ↔
      (Recorded (keysOf π s.identity idKey epoch0Key (own ++ others)) epoch (member.peerId π) →
        (keysOf π member idKey epoch0Key (own ++ others)).epochKey epoch = some key) := by
  have hwraps := backfillItems_onlyWraps hnews
  by_cases he : epoch = epoch0Id
  · subst he
    rw [keysOf, epochKey_epoch0] at hheld
    cases hheld
    exact ⟨fun _ _ => epochKey_epoch0, fun _ => epochKey_epoch0⟩
  rw [recorded_iff hheld]
  by_cases hrecorded : ∃ x ∈ own ++ others, WrapsTo epoch (member.peerId π) x
  · obtain ⟨x, hx, hto⟩ := hrecorded
    rw [keysOf, hwraps.epochKey_eq he (not_wrapsTo_news hnews hx hto)]
    exact ⟨fun h _ => h, fun h => h ⟨x, hx, hto⟩⟩
  · refine ⟨fun _ h => absurd h hrecorded, fun _ => ?_⟩
    obtain ⟨rot, hrot, hcommits, _⟩ := held_inv he hheld
    have hnone : ∀ x ∈ own ++ others, ¬ WrapsTo epoch (member.peerId π) x :=
      fun x hx hto => hrecorded ⟨x, hx, hto⟩
    have hkey := memberKey_activeMember hπ hnodup hmember
    -- every wrap of the epoch to the member that was published opens to the key
    have hdelivers (y : KeyLogEntry) (hy : y ∈ news) (hto : WrapsTo epoch (member.peerId π) y) :
        delivery π.crypto (member.peerId π) (π.x25519Secret member.secret) epoch rot y =
          some key := by
      obtain ⟨key', recipientPub, seed, htarget, hpub, hbody⟩ := wrapsTo_news hnews hy hto
      cases hheld.symm.trans (mem_backfillTargets_iff.1 htarget).2.1
      cases hkey.symm.trans hpub
      have hopen : Delivers π.crypto (member.peerId π) (π.x25519Secret member.secret) epoch key y :=
        ⟨hto.1, _, hbody, hopens member.secret seed key⟩
      rw [delivery, if_pos hto.1]
      exact hopen.deliveredKey hcommits
    obtain ⟨p, hp, hactive, hid, _⟩ := hmember
    have htarget := mem_backfillTargets_iff.2 ⟨he, hheld, hnone, p, hp, hactive, hid⟩
    obtain ⟨seed, hitem⟩ := exists_backfillItem wraps htarget hkey
    obtain ⟨x, hx, hsigned⟩ := exists_right_of_forall₂ hnews hitem
    have hto : WrapsTo epoch (member.peerId π) x := ⟨hsigned.epochId, _, hsigned.body⟩
    apply hwraps.epochKey_new he hrot (fun y hy =>
      delivery_eq_none (hnone y hy)) hx (hdelivers x hx hto)
    intro y hy key' hkey'
    exact Option.some.inj (hkey'.symm.trans (hdelivers y hy (wrapsTo_of_delivery hkey')))

theorem backfill_leaves_nothing (target : Bytes32 × Bytes32 × UInt64) (htarget : target ∈
      (keysOf π s.identity idKey epoch0Key (own ++ news ++ others)).backfillTargets s.peers) :
    s.memberKey target.2.2 = none := by
  obtain ⟨epoch, key, peer⟩ := target
  obtain ⟨he, hheld, hnone, hactive⟩ := mem_backfillTargets_iff.1 htarget
  rw [backfill_keeps_own hnews] at hheld
  cases hmember : s.memberKey peer with
  | none => rfl
  | some recipientPub =>
    have hold (x : KeyLogEntry) (hx : x ∈ own ++ others) : ¬ WrapsTo epoch peer x := by
      apply hnone
      rcases List.mem_append.1 hx with hx | hx
      · exact List.mem_append_left _ (List.mem_append_left _ hx)
      · exact List.mem_append_right _ hx
    have htarget := mem_backfillTargets_iff.2 ⟨he, hheld, hold, hactive⟩
    obtain ⟨seed, hitem⟩ := exists_backfillItem wraps htarget hmember
    obtain ⟨x, hx, hsigned⟩ := exists_right_of_forall₂ hnews hitem
    have hto : WrapsTo epoch peer x := ⟨hsigned.epochId, _, hsigned.body⟩
    exact absurd hto (hnone x (List.mem_append_left _ (List.mem_append_right _ hx)))

end Published

end Reach

/-- After a back-fill every active member that folds its log holds every key that the device holds,
and a second one publishes nothing: exactly if the own key log did not end with an unfinished line,
or there was nothing to publish, and whoever a wrap is recorded for could open it. -/
theorem backfill_reaches_iff (hπ : π.Lawful) (hjson : π.keyJson.Uncontinued)
    (hopens : ∀ secret seed key, unwrap π.crypto (π.x25519Secret secret)
      (wrap π.crypto seed (π.toX25519 (π.publicKey secret)) key) = some key)
    (hnodup : (s.peers.map PeerRecord.peerId).Nodup)
    (hblank : isBlank s.unfinished = true → s.unfinished = [])
    (hmerged : s.mergedKeylog = .ok entries) (hkc : s.keychain idKey epoch0Key = .ok kc)
    (hrun : exec (backfillWraps wraps idKey epoch0Key) s = (.ok n, s')) : ((∃ entries',
      s'.mergedKeylog = .ok entries' ∧ s.Reaches kc idKey epoch0Key entries' fun _ _ => True) ∧
        ∀ wraps', exec (backfillWraps wraps' idKey epoch0Key) s' = (.ok 0, s')) ↔
      (s.WholeKeylog ∨ ∀ target ∈ kc.backfillTargets s.peers, s.memberKey target.2.2 = none) ∧
        s.Reaches kc idKey epoch0Key entries (Recorded kc) := by
  obtain ⟨_, happend⟩ := (backfillWraps_ok_iff hkc).1 hrun
  have hsame := appendAll_samePeers happend
  obtain rfl : kc = keysOf π s.identity idKey epoch0Key entries :=
    Except.ok.inj (hkc.symm.trans (keychain_eq hmerged idKey epoch0Key))
  have hreadable := merged_of_appendAll hπ hjson hblank happend hmerged
  rw [backfillItems_eq_nil_iff] at hreadable
  by_cases hready : s.WholeKeylog ∨
      ∀ target ∈ (keysOf π s.identity idKey epoch0Key entries).backfillTargets s.peers,
        s.memberKey target.2.2 = none
  · rw [and_iff_right hready]
    obtain ⟨own, news, others, rfl, hmerged', hnews⟩ := merged_appended hπ happend hmerged
      (hready.imp_right backfillItems_eq_nil_iff.2)
    have hsecond (wraps' : Nat → WrapSeed) :
        exec (backfillWraps wraps' idKey epoch0Key) s' = (.ok 0, s') := by
      have hkc' : s'.keychain idKey epoch0Key =
          .ok (keysOf π s.identity idKey epoch0Key (own ++ news ++ others)) := by
        rw [keychain_eq hmerged' idKey epoch0Key, hsame.peerId, hsame.identity]
        rfl
      have hitems :
          s'.backfillItems wraps' (keysOf π s.identity idKey epoch0Key (own ++ news ++ others)) =
            [] := by
        rw [backfillItems_eq_nil_iff, hsame.peers]
        intro target htarget
        rw [memberKey, hsame.peers]
        exact backfill_leaves_nothing hnews target htarget
      rw [backfillWraps_ok_iff hkc', hitems]
      exact ⟨rfl, rfl⟩
    constructor
    · rintro ⟨⟨entries', hentries', hreaches⟩, _⟩
      cases hmerged'.symm.trans hentries'
      intro member hmember epoch key hheld hrecorded
      exact (backfill_member_iff hnews hπ hnodup hopens hmember hheld).1
        (hreaches member hmember epoch key hheld trivial) hrecorded
    · intro hreaches
      refine ⟨⟨_, hmerged', ?_⟩, hsecond⟩
      intro member hmember epoch key hheld _
      exact (backfill_member_iff hnews hπ hnodup hopens hmember hheld).2
        (hreaches member hmember epoch key hheld)
  · constructor
    · rintro ⟨⟨entries', hentries', _⟩, _⟩
      exact absurd (hreadable.1 ⟨entries', hentries'⟩) hready
    · rintro ⟨h, _⟩
      exact absurd h hready

section Sample

def boxHolder : Store boxPlatform :=
  (exec (appendAll (boxItems.take 1 ++ (boxItems.drop 2).take 1)) boxAdmin).2

def boxSpoiled : Store boxPlatform :=
  boxHolder.withKeylog (deviceId 1)
    (exec (appendKeylog boxEpoch (.wrap (.device (deviceId 3)) [])) (boxDevice 1)).2.exportOwnKeylog

/-- The admin takes the writer for served. -/
theorem backfill_passes_over : boxSpoiled.ActiveMember (plainIdentity 3) ∧
      (boxSpoiled.keychain default default).toOption.map (·.epochKey boxEpoch) =
        some (some (.replicate 9)) ∧
      (exec (backfillWraps (sampleSeed 6).wraps default default) boxSpoiled).1 = .ok 1 ∧
      (exec (backfillWraps (sampleSeed 6).wraps default default)
        boxSpoiled).2.mergedKeylog.toOption.map (fun entries =>
          (keysOf boxPlatform (plainIdentity 3) default default entries).epochKey boxEpoch) =
          some none := by
  have hlisted : ∃ p ∈ boxSpoiled.peers, p.status = .active ∧
      p.peerId = (plainIdentity 3).peerId boxPlatform ∧
        p.verifyingKey = (plainIdentity 3).verifyingKey boxPlatform := by
    decide +kernel
  exact ⟨hlisted, by decide +kernel, by decide +kernel, by decide +kernel⟩

theorem boxHolder_recorded (hkc : boxHolder.keychain default default = .ok kc)
    (hmember : boxHolder.ActiveMember member) (h : Recorded kc epoch (member.peerId boxPlatform)) :
    member = boxHolder.identity := by
  have hnodes : (boxHolder.keychain default default).toOption.map (fun kc =>
      kc.epochs.toList.all fun p => p.2.wrappedTo.toList.all (· = deviceId 2)) = some true := by
    decide +kernel
  have hpeers : ∀ p ∈ boxHolder.peers, p.peerId = deviceId 2 →
      p.verifyingKey = boxHolder.identity.secret := by
    decide +kernel
  rw [hkc] at hnodes
  have hall := Option.some.inj hnodes
  simp only [List.all_eq_true, decide_eq_true_eq] at hall
  obtain ⟨node, hnode, hcontains⟩ := h
  have hself : member.peerId boxPlatform = deviceId 2 :=
    hall _ (Std.TreeMap.mem_toList_iff_getElem?_eq_some.2 hnode) _
      (Std.TreeSet.mem_toList.2 (Std.TreeSet.contains_iff_mem.1 hcontains))
  obtain ⟨p, hp, _, hid, hkey⟩ := hmember
  have hsecret : member.secret = boxHolder.identity.secret :=
    hkey.symm.trans (hpeers p hp (hid.trans hself))
  generalize boxHolder.identity = holder at hsecret
  obtain ⟨secret⟩ := member
  obtain ⟨secret'⟩ := holder
  exact congrArg Identity.mk hsecret

theorem boxHolder_reaches :
    ∃ kc, boxHolder.keychain default default = .ok kc ∧ kc.epochKey boxEpoch = some (.replicate 9) ∧
      (∃ entries',
        (exec (backfillWraps (sampleSeed 6).wraps default default) boxHolder).2.mergedKeylog =
        .ok entries' ∧ boxHolder.Reaches kc default default entries' fun _ _ => True) ∧
      ∀ wraps', exec (backfillWraps wraps' default default)
          (exec (backfillWraps (sampleSeed 6).wraps default default) boxHolder).2 =
        (.ok 0, (exec (backfillWraps (sampleSeed 6).wraps default default) boxHolder).2) := by
  obtain ⟨entries, hmerged⟩ :=
    exists_ok_of_toOption (x := boxHolder.mergedKeylog) (by decide +kernel)
  have hkc := keychain_eq hmerged default default
  have hrun : exec (backfillWraps (sampleSeed 6).wraps default default) boxHolder =
      (.ok 2, (exec (backfillWraps (sampleSeed 6).wraps default default) boxHolder).2) := by
    have hfst : (exec (backfillWraps (sampleSeed 6).wraps default default) boxHolder).1 =
        .ok 2 := by decide +kernel
    rw [← hfst]
  have hwhole : boxHolder.WholeKeylog := .inr (by decide +kernel)
  have hkey : (boxHolder.keychain default default).toOption.map (·.epochKey boxEpoch) =
      some (some (.replicate 9)) := by
    decide +kernel
  rw [hkc] at hkey
  refine ⟨_, hkc, Option.some.inj hkey, ?_⟩
  refine (backfill_reaches_iff boxPlatform_lawful (plainJson_uncontinued keyLineCode)
    boxPlatform_sealsBoxes.opens (by decide +kernel) (by decide +kernel) hmerged hkc hrun).2
      ⟨.inl hwhole, ?_⟩
  intro member hmember epoch key hheld hrecorded
  rw [boxHolder_recorded hkc hmember hrecorded]
  exact hheld

end Sample

end Store

end Roam
