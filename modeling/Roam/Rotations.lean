import Roam.KeylogAppends
import Roam.EpochCommitment

namespace Roam
set_option autoImplicit true
open Library Library.Fallible

section Graph
variable {c : Crypto} {epoch0Key : Bytes32} {selfPeer : UInt64} {secret epoch : Bytes32}
  {own news others : List KeyLogEntry} {rot : Rotation}

structure FreshEpoch (entries : List KeyLogEntry) (epoch : Bytes32) : Prop where
  genesis : epoch ≠ epoch0Id
  unnamed : ∀ x ∈ entries, x.epochId ≠ epoch
  childless : ∀ x ∈ entries, ∀ rot, x.rotation? = some rot → epoch ∉ rot.parents

structure RotationEntries (epoch : Bytes32) (rot : Rotation) (news : List KeyLogEntry) : Prop where
  epochId : ∀ x ∈ news, x.epochId = epoch
  first : firstRotate news epoch = some rot
  only : ∀ x ∈ news, ∀ rot', x.rotation? = some rot' → rot' = rot

theorem firstRotate_append (as bs : List KeyLogEntry) (epoch : Bytes32) :
    firstRotate (as ++ bs) epoch = (firstRotate as epoch).or (firstRotate bs epoch) :=
  List.findSome?_append

theorem firstRotate_eq_none (h : ∀ x ∈ entries, x.epochId ≠ epoch) :
    firstRotate entries epoch = none := by
  rw [firstRotate, List.findSome?_eq_none_iff]
  intro x hx
  exact if_neg (h x hx)

structure GainsEpoch (entries entries' : List KeyLogEntry) (epoch : Bytes32) (rot : Rotation) :
    Prop where
  first : firstRotate entries' epoch = some rot
  rest : ∀ child ≠ epoch, firstRotate entries' child = firstRotate entries child

theorem gainsEpoch_of_rotated (hfresh : FreshEpoch (own ++ others) epoch)
    (hnews : RotationEntries epoch rot news) :
    GainsEpoch (own ++ others) (own ++ news ++ others) epoch rot where
  first := by
    have hnone : firstRotate own epoch = none :=
      firstRotate_eq_none fun x hx => hfresh.unnamed x (List.mem_append_left _ hx)
    rw [firstRotate_append, firstRotate_append, hnone, hnews.first]
    rfl
  rest child hne := by
    have hnone : firstRotate news child = none := by
      apply firstRotate_eq_none
      intro x hx heq
      exact hne (heq.symm.trans (hnews.epochId x hx))
    rw [firstRotate_append, firstRotate_append, firstRotate_append, hnone, Option.or_none]

theorem FreshEpoch.not_isParent (hfresh : FreshEpoch entries epoch) : ¬ IsParent entries epoch := by
  rintro ⟨child, rot, _, hrot, hmem⟩
  obtain ⟨x, hx, _, hrot⟩ := firstRotate_mem hrot
  exact hfresh.childless x hx rot hrot hmem

theorem FreshEpoch.not_announced (hfresh : FreshEpoch entries epoch) :
    ¬ Announced entries epoch := by
  intro h
  obtain ⟨_, x, hx, hid, _⟩ := announced_iff.1 h
  exact hfresh.unnamed x hx hid

section
variable {entries entries' : List KeyLogEntry}
  (hfresh : FreshEpoch entries epoch) (hgains : GainsEpoch entries entries' epoch rot)
include hfresh hgains

theorem GainsEpoch.announced_iff :
    Announced entries' child ↔ child = epoch ∨ Announced entries child := by
  by_cases hchild : child = epoch
  · subst hchild
    rw [Announced, hgains.first]
    exact ⟨fun _ => .inl rfl, fun _ => ⟨hfresh.genesis, rfl⟩⟩
  · rw [Announced, hgains.rest child hchild]
    exact (or_iff_right hchild).symm

theorem GainsEpoch.isParent_iff :
    IsParent entries' leaf ↔ leaf ∈ rot.parents ∨ IsParent entries leaf := by
  constructor
  · rintro ⟨child, rot', hchild, hrot, hmem⟩
    by_cases heq : child = epoch
    · rw [heq, hgains.first] at hrot
      cases hrot
      exact .inl hmem
    · rw [hgains.rest child heq] at hrot
      exact .inr ⟨child, rot', hchild, hrot, hmem⟩
  · rintro (hmem | ⟨child, rot', hchild, hrot, hmem⟩)
    · exact ⟨epoch, rot, hfresh.genesis, hgains.first, hmem⟩
    · have hne : child ≠ epoch := by
        rintro rfl
        obtain ⟨x, hx, hid, _⟩ := firstRotate_mem hrot
        exact hfresh.unnamed x hx hid
      rw [← hgains.rest child hne] at hrot
      exact ⟨child, rot', hchild, hrot, hmem⟩

theorem GainsEpoch.mem_leaves_iff (hself : epoch ∉ rot.parents) :
    leaf ∈ leaves (epochNodes c epoch0Key selfPeer secret entries') ↔
      leaf = epoch ∨ leaf ∈ leaves (epochNodes c epoch0Key selfPeer secret entries) ∧
        leaf ∉ rot.parents := by
  rw [mem_leaves, mem_leaves, hgains.announced_iff hfresh, hgains.isParent_iff hfresh, not_or]
  constructor
  · rintro ⟨hnode, hparent, hchildless⟩
    rcases hnode with h0 | heq | hannounced
    · exact .inr ⟨⟨.inl h0, hchildless⟩, hparent⟩
    · exact .inl heq
    · exact .inr ⟨⟨.inr hannounced, hchildless⟩, hparent⟩
  · rintro (rfl | ⟨⟨hnode, hchildless⟩, hparent⟩)
    · exact ⟨.inr (.inl rfl), hself, hfresh.not_isParent⟩
    · exact ⟨hnode.imp_right .inr, hparent, hchildless⟩

end

theorem FreshEpoch.not_mem_dagHeads (hfresh : FreshEpoch entries epoch) :
    epoch ∉ (Keychain.build c idKey epoch0Key selfPeer secret entries).dagHeads := by
  rw [Keychain.dagHeads]
  intro hmem
  split at hmem
  · exact hfresh.genesis (List.mem_singleton.1 hmem)
  · rcases (mem_leaves.1 hmem).1 with h0 | hannounced
    · exact hfresh.genesis h0
    · exact hfresh.not_announced hannounced

theorem mem_dagHeads_of_leaf {kc : Keychain} (h : leaf ∈ leaves kc.epochs) :
    leaf ∈ kc.dagHeads := by
  rw [Keychain.dagHeads, if_neg]
  · exact h
  · exact fun hempty => List.ne_nil_of_mem h (List.isEmpty_iff.1 hempty)

theorem leaves_nodup (epochs : Std.TreeMap Bytes32 EpochNode) : (leaves epochs).Nodup :=
  Std.TreeMap.nodup_keys.filter _

theorem leaves_rotated (hfresh : FreshEpoch (own ++ others) epoch)
    (hnews : RotationEntries epoch rot news) (hparents : rot.parents =
      (Keychain.build c idKey epoch0Key selfPeer secret (own ++ others)).dagHeads) :
    leaves (epochNodes c epoch0Key selfPeer secret (own ++ news ++ others)) = [epoch] := by
  apply List.perm_singleton.1
  apply (List.perm_ext_iff_of_nodup (leaves_nodup _) (List.nodup_singleton epoch)).2
  intro leaf
  have hself : epoch ∉ rot.parents := hparents ▸ hfresh.not_mem_dagHeads
  rw [(gainsEpoch_of_rotated hfresh hnews).mem_leaves_iff hfresh hself, List.mem_singleton,
    or_iff_left]
  rintro ⟨hleaf, hparent⟩
  rw [hparents] at hparent
  exact hparent (mem_dagHeads_of_leaf hleaf)

theorem epochKey_rotation (he : c.blake3 (rot.preimage key) = epoch) (hgenesis : epoch ≠ epoch0Id)
    (hinj : Set.InjOn c.blake3
      ((Keychain.build c idKey epoch0Key selfPeer secret entries).hashed ∪ {rot.preimage key}))
    (h : (Keychain.build c idKey epoch0Key selfPeer secret entries).epochKey epoch = some k) :
    firstRotate entries epoch = some rot ∧ k = key := by
  obtain ⟨node, hnode, hkey⟩ := Option.bind_eq_some_iff.1 h
  have hhash : c.blake3 (node.rotation.preimage k) = c.blake3 (rot.preimage key) :=
    (node_key_commits hgenesis hnode hkey).trans he.symm
  have htext : node.rotation.preimage k = rot.preimage key :=
    hinj (.inl ⟨epoch, hgenesis, node, k, hnode, hkey, rfl⟩) (.inr rfl) hhash
  obtain ⟨hrot, hk⟩ := Rotation.preimage_injective htext
  rw [← hrot]
  exact ⟨node_rotation hgenesis hnode, hk⟩

def Delivers (c : Crypto) (selfPeer : UInt64) (secret epoch key : Bytes32)
    (x : KeyLogEntry) : Prop :=
  x.epochId = epoch ∧ ∃ blob, x.body = .wrap (.device selfPeer) blob ∧
    unwrap c secret blob = some key

theorem Delivers.deliveredKey (h : Delivers c selfPeer secret epoch key x)
    (he : c.blake3 (rot.preimage key) = epoch) :
    deliveredKey c selfPeer secret epoch rot x = some key := by
  obtain ⟨_, blob, hbody, hopen⟩ := h
  simp only [Roam.deliveredKey, hbody, ↓reduceIte, hopen]
  rw [Option.filter_some, if_pos]
  exact decide_eq_true he

theorem deliveredKey_eq_some (h : deliveredKey c selfPeer secret epoch rot x = some key)
    (hx : x.epochId = epoch) : Delivers c selfPeer secret epoch key x := by
  obtain ⟨seq, author, epochId, body⟩ := x
  cases body with
  | rotate parentEpochs nonce => cases h
  | wrap recipient blob =>
    cases recipient with
    | paper => cases h
    | device p =>
      simp only [deliveredKey] at h
      split at h
      next hp =>
        rw [Option.filter_eq_some_iff] at h
        exact ⟨hx, blob, by rw [hp], h.1⟩
      next => cases h

theorem epochKey_rotation_iff (he : c.blake3 (rot.preimage key) = epoch)
    (hgenesis : epoch ≠ epoch0Id) (hinj : Set.InjOn c.blake3
      ((Keychain.build c idKey epoch0Key selfPeer secret entries).hashed ∪ {rot.preimage key})) :
    (Keychain.build c idKey epoch0Key selfPeer secret entries).epochKey epoch = some key ↔
      firstRotate entries epoch = some rot ∧ ∃ x ∈ entries,
        Delivers c selfPeer secret epoch key x := by
  constructor
  · intro h
    obtain ⟨hfirst, _⟩ := epochKey_rotation he hgenesis hinj h
    obtain ⟨_, _, x, hx, hid, hdelivered⟩ := epochKey_inv hgenesis h
    exact ⟨hfirst, x, hx, deliveredKey_eq_some hdelivered hid⟩
  · rintro ⟨hfirst, x, hx, hdelivers⟩
    obtain ⟨k, hk⟩ :
      ∃ k, (Keychain.build c idKey epoch0Key selfPeer secret entries).epochKey epoch = some k :=
      epochKey_isSome_of_delivered hgenesis hfirst hx hdelivers.1 (hdelivers.deliveredKey he)
    rw [← (epochKey_rotation he hgenesis hinj hk).2]
    exact hk

end Graph

/-- A sealed box opens under the secret of its recipient, and under no other. -/
structure Platform.SealsBoxes (π : Platform) : Prop where
  opens : ∀ secret seed key, unwrap π.crypto (π.x25519Secret secret)
    (wrap π.crypto seed (π.toX25519 (π.publicKey secret)) key) = some key
  only : ∀ secret seed pub key opened, unwrap π.crypto (π.x25519Secret secret)
    (wrap π.crypto seed pub key) = some opened → pub = π.toX25519 (π.publicKey secret)

namespace Store
variable {π : Platform} {s s' m : Store π}

def rotationOf (s : Store π) (seed : RotationSeed) (kc : Keychain) : Rotation :=
  ⟨kc.dagHeads, s.peerId, seed.nonce⟩

def wrapBodies (s : Store π) (seed : RotationSeed) (paperPublic : Option Bytes32) : List KeyBody :=
  (s.wrapTargets paperPublic).zipIdx.map fun target =>
    .wrap target.1.1 (wrap π.crypto (seed.wraps target.2) target.1.2 seed.key)

def rotationItems (s : Store π) (seed : RotationSeed) (kc : Keychain) (paperPublic : Option Bytes32)
    (epoch : Bytes32) : List (Bytes32 × KeyBody) :=
  (epoch, .rotate kc.dagHeads seed.nonce) :: (s.wrapBodies seed paperPublic).map fun body =>
    (epoch, body)

theorem exec_rotateEpoch (hkc : s.keychain idKey epoch0Key = .ok kc) :
    exec (rotateEpoch seed idKey epoch0Key paperPublic) s =
      exec (ofResult s.requireAdmin >>= fun _ => appendAll (s.rotationItems seed kc paperPublic
          (π.crypto.blake3 ((s.rotationOf seed kc).preimage seed.key))) >>= fun _ =>
            pure (π.crypto.blake3 ((s.rotationOf seed kc).preimage seed.key))) s := by
  have hitems (epoch : Bytes32) : appendAll (s.rotationItems seed kc paperPublic epoch) =
      (appendKeylog epoch (.rotate kc.dagHeads seed.nonce) >>= fun _ =>
        (s.wrapTargets paperPublic).zipIdx.forM fun target => appendKeylog epoch
          (.wrap target.1.1 (wrap π.crypto (seed.wraps target.2) target.1.2 seed.key)) : StoreM π
            Unit) := by
    rw [rotationItems, wrapBodies, List.map_map]
    exact congrArg (appendKeylog epoch (.rotate kc.dagHeads seed.nonce) >>= ·) (funext fun _ =>
      List.forM_map ..)
  rw [rotateEpoch, exec_bind, exec_get, hitems, bind_assoc]
  dsimp only
  rw [exec_bind, exec_ofResult, exec_bind, exec_ofResult]
  cases s.requireAdmin with
  | error err => rfl
  | ok u =>
    dsimp only
    rw [exec_bind, exec_ofResult, hkc]
    rfl

theorem rotateEpoch_ok_iff (hkc : s.keychain idKey epoch0Key = .ok kc) :
    exec (rotateEpoch seed idKey epoch0Key paperPublic) s = (.ok epoch, s') ↔
      s.requireAdmin = .ok () ∧ epoch = π.crypto.blake3 ((s.rotationOf seed kc).preimage seed.key) ∧
        exec (appendAll (s.rotationItems seed kc paperPublic epoch)) s = (.ok (), s') := by
  rw [exec_rotateEpoch hkc, exec_bind, exec_ofResult]
  cases s.requireAdmin with
  | error err => exact ⟨nofun, fun h => nomatch h.1⟩
  | ok u =>
    dsimp only
    constructor
    · intro h
      obtain ⟨_, s₁, happend, hpure⟩ := exec_bind_ok h
      cases hpure
      exact ⟨rfl, rfl, happend⟩
    · rintro ⟨_, rfl, happend⟩
      rw [exec_bind, happend]
      rfl

/-- The roster of the first device lists the second, active, under a key that the second opens boxes
for. -/
def ListsKeyOf (s m : Store π) : Prop :=
  ∃ p ∈ s.peers, p.status = .active ∧ π.validKey p.verifyingKey = true ∧ p.peerId = m.peerId ∧
    π.toX25519 p.verifyingKey = π.toX25519 m.selfKey

/-- An active member of the rotating device's roster, on whose device the key log with the rotation
is folded. -/
structure FoldsRotation (s s' m : Store π) : Prop where
  listed : ∃ p ∈ s.peers, p.status = .active ∧ π.validKey p.verifyingKey = true ∧
    p.peerId = m.peerId ∧
    p.verifyingKey = m.selfKey
  folds : m.Folds s.peerId s.selfKey
  received : s'.exportOwnKeylog <+: m.exportKeylog s.peerId
  reads : ∃ entries, m.mergedKeylog = .ok entries

theorem rotationItems_take (n : Nat) : (s.rotationItems seed kc paperPublic epoch).take (n + 1) =
      (epoch, .rotate kc.dagHeads seed.nonce) :: ((s.wrapTargets paperPublic).zipIdx.take n).map
        fun target =>
        (epoch, .wrap target.1.1 (wrap π.crypto (seed.wraps target.2) target.1.2 seed.key)) := by
  rw [rotationItems, wrapBodies, List.map_map, List.take_succ_cons, ← List.map_take]
  rfl

theorem rotationItems_length : (s.rotationItems seed kc paperPublic epoch).length =
      (s.wrapTargets paperPublic).length + 1 := by
  rw [rotationItems, wrapBodies, List.length_cons, List.length_map, List.length_map,
    List.length_zipIdx]

theorem rotationItems_take_all :
    (s.rotationItems seed kc paperPublic epoch).take ((s.wrapTargets paperPublic).length + 1) =
      s.rotationItems seed kc paperPublic epoch :=
  List.take_of_length_le rotationItems_length.le

theorem rotationEntries_of_signed
    (h : List.Forall₂ (Signed s.peerId) ((s.rotationItems seed kc paperPublic epoch).take
      (n + 1)) news) : RotationEntries epoch (s.rotationOf seed kc) news := by
  rw [rotationItems_take] at h
  have hid (x : KeyLogEntry) (hx : x ∈ news) : x.epochId = epoch := by
    obtain ⟨item, hitem, hsigned⟩ := exists_right_of_forall₂ h.flip hx
    rw [hsigned.epochId]
    rcases List.mem_cons.1 hitem with rfl | hitem
    · rfl
    · obtain ⟨_, _, rfl⟩ := List.mem_map.1 hitem
      rfl
  have hrotation (x : KeyLogEntry) (hsigned : Signed s.peerId (epoch,
      .rotate kc.dagHeads seed.nonce) x) :
      x.rotation? = some (s.rotationOf seed kc) := by
    rw [KeyLogEntry.rotation?, hsigned.body, hsigned.author]
    rfl
  refine ⟨hid, ?_, ?_⟩
  · cases h with
    | cons hfirst hrest => rw [firstRotate, List.findSome?_cons, if_pos hfirst.epochId,
        hrotation _ hfirst]
  · intro x hx rot' hrot
    obtain ⟨item, hitem, hsigned⟩ := exists_right_of_forall₂ h.flip hx
    rcases List.mem_cons.1 hitem with rfl | hitem
    · exact Option.some.inj (hrot.symm.trans (hrotation x hsigned))
    · obtain ⟨_, _, rfl⟩ := List.mem_map.1 hitem
      rw [KeyLogEntry.rotation?, hsigned.body] at hrot
      cases hrot

theorem delivers_news_iff
    (h : List.Forall₂ (Signed s.peerId) ((s.rotationItems seed kc paperPublic epoch).take
      (n + 1)) news) : (∃ x ∈ news, Delivers π.crypto peer secret epoch key x) ↔
      ∃ target ∈ (s.wrapTargets paperPublic).zipIdx.take n, target.1.1 = .device peer ∧
        unwrap π.crypto secret (wrap π.crypto (seed.wraps target.2) target.1.2 seed.key) =
          some key := by
  rw [rotationItems_take] at h
  constructor
  · rintro ⟨x, hx, _, blob, hbody, hopen⟩
    obtain ⟨item, hitem, hsigned⟩ := exists_right_of_forall₂ h.flip hx
    have hitembody : item.2 = .wrap (.device peer) blob := hsigned.body.symm.trans hbody
    rcases List.mem_cons.1 hitem with rfl | hitem
    · cases hitembody
    · obtain ⟨target, htarget, rfl⟩ := List.mem_map.1 hitem
      injection hitembody with hrecipient hblob
      refine ⟨target, htarget, hrecipient, ?_⟩
      rw [hblob]
      exact hopen
  · rintro ⟨target, htarget, hrecipient, hopen⟩
    obtain ⟨x, hx, hsigned⟩ := exists_right_of_forall₂ h
      (List.mem_cons_of_mem _ (List.mem_map.2 ⟨target, htarget, rfl⟩))
    refine ⟨x, hx, hsigned.epochId, _, ?_, hopen⟩
    rw [hsigned.body, hrecipient]

theorem mem_wrapTargets_device (hadmin : s.requireAdmin = .ok ()) :
    (Recipient.device peer, pub) ∈ s.wrapTargets paperPublic ↔
      ∃ p ∈ s.peers, p.status = .active ∧ π.validKey p.verifyingKey = true ∧ p.peerId = peer ∧
        π.toX25519 p.verifyingKey = pub := by
  have hlisted : (s.peers.any fun p => p.peerId = s.peerId) = true := by
    rw [requireAdmin] at hadmin
    split at hadmin
    next p hfind =>
      have hself := List.find?_some hfind
      rw [List.any_eq_true]
      exact ⟨p, List.mem_of_find?_eq_some hfind, hself⟩
    next => cases hadmin
  simp only [wrapTargets, hlisted, ↓reduceIte, List.append_nil, List.mem_append, List.mem_map,
    List.mem_filter, decide_eq_true_eq, Prod.mk.injEq, Recipient.device.injEq, reduceCtorEq,
      false_and,
    and_false, exists_false, or_false, and_assoc]

/-- Two strings that are hashed for the keys of a device, or for a rotation, have different hashes.
-/
def NoCollision (t : Store π) (idKey epoch0Key : Bytes32) (text : Bytes) : Prop :=
  ∀ kc, t.keychain idKey epoch0Key = .ok kc → Set.InjOn π.crypto.blake3 (kc.hashed ∪ {text})

def HoldsKey (t : Store π) (idKey epoch0Key epoch key : Bytes32) : Prop :=
  ∃ kc, t.keychain idKey epoch0Key = .ok kc ∧ kc.epochKey epoch = some key

/-- In the order in which the device folds the key logs, the first `rotate` of an epoch is this one.
-/
def AnnouncedFirst (t : Store π) (epoch : Bytes32) (rot : Rotation) : Prop :=
  ∃ entries, t.mergedKeylog = .ok entries ∧ firstRotate entries epoch = some rot

theorem keychain_eq_ok_iff : s.keychain idKey epoch0Key = .ok kc ↔
      ∃ entries, s.mergedKeylog = .ok entries ∧
        kc = Keychain.build π.crypto idKey epoch0Key s.peerId (π.x25519Secret s.identity.secret)
          entries := by
  rw [keychain, except_bind_eq_ok]
  apply exists_congr
  intro entries
  apply and_congr_right
  intro _
  constructor
  · intro h
    exact (Except.ok.inj h).symm
  · rintro rfl
    rfl

theorem holdsKey_iff {t : Store π} {rot : Rotation}
    (he : π.crypto.blake3 (rot.preimage key) = epoch)
    (hgenesis : epoch ≠ epoch0Id) (hinj : t.NoCollision idKey epoch0Key (rot.preimage key))
    (hmerged : t.mergedKeylog = .ok entries) :
    t.HoldsKey idKey epoch0Key epoch key ↔ firstRotate entries epoch = some rot ∧
      ∃ x ∈ entries, Delivers π.crypto t.peerId (π.x25519Secret t.identity.secret) epoch key x := by
  have hkc := keychain_eq hmerged idKey epoch0Key
  rw [← epochKey_rotation_iff he hgenesis (hinj _ hkc)]
  constructor
  · rintro ⟨kc, hkc', hkey⟩
    cases hkc.symm.trans hkc'
    exact hkey
  · exact fun hkey => ⟨_, hkc, hkey⟩

section Rotate
variable {seed : RotationSeed} {idKey epoch0Key epoch : Bytes32} {paperPublic : Option Bytes32}
  {kc : Keychain}
variable (hπ : π.Lawful) (hjson : π.keyJson.StandsAlone)

include hπ hjson in
theorem rotated_merged (hkc : s.keychain idKey epoch0Key = .ok kc)
    (happend : exec (appendAll (s.rotationItems seed kc paperPublic epoch)) s = (.ok (), s'))
    (hread : s'.ownKeylog = .ok own') :
    ∃ own news others, s.mergedKeylog = .ok (own ++ others) ∧ own' = own ++ news ∧
      s'.mergedKeylog = .ok (own ++ news ++ others) ∧
      List.Forall₂ (Signed s.peerId) (s.rotationItems seed kc paperPublic epoch) news := by
  obtain ⟨entries, hmerged, _⟩ := keychain_eq_ok_iff.1 hkc
  obtain ⟨own, others, hown, rfl, hrest⟩ := (appendAll_samePeers happend).merged hmerged
  obtain ⟨news, rfl, hnews⟩ := appendAll_reads hπ hjson happend hown hread
  exact ⟨own, news, others, hmerged, rfl, hrest _ hread, hnews⟩

include hπ in
theorem rotated_readable (h : s.wrapTargets paperPublic ≠ [])
    (happend : exec (appendAll (s.rotationItems seed kc paperPublic epoch)) s = (.ok (), s')) :
    ∃ own', s'.ownKeylog = .ok own' := by
  obtain ⟨target, targets, htargets⟩ := List.exists_cons_of_ne_nil h
  rw [rotationItems, wrapBodies, htargets] at happend
  exact ownKeylog_of_two_appends hπ happend

theorem rotated_head (hfresh : FreshEpoch (own ++ others) epoch)
    (hmerged : s.mergedKeylog = .ok (own ++ others)) (hkc : s.keychain idKey epoch0Key = .ok kc)
    (hmerged' : s'.mergedKeylog = .ok (own ++ news ++ others))
    (hnews : RotationEntries epoch (s.rotationOf seed kc) news)
    (hkc' : s'.keychain idKey epoch0Key = .ok kc')
    (hid : s'.identity = s.identity) : leaves kc'.epochs = [epoch] ∧ kc'.head = epoch := by
  obtain ⟨entries, hentries, rfl⟩ := keychain_eq_ok_iff.1 hkc
  cases hmerged.symm.trans hentries
  obtain ⟨entries', hentries', rfl⟩ := keychain_eq_ok_iff.1 hkc'
  cases hmerged'.symm.trans hentries'
  have hparents : (s.rotationOf seed (Keychain.build π.crypto idKey epoch0Key s'.peerId
      (π.x25519Secret s'.identity.secret) (own ++ others))).parents = _ := rfl
  have hpeer : s'.peerId = s.peerId := by rw [peerId, hid, peerId]
  rw [← hpeer, ← hid] at hnews
  have hleaves := leaves_rotated hfresh hnews hparents
  refine ⟨hleaves, ?_⟩
  change selectHead _ = epoch
  rw [selectHead, hleaves]
  rfl

theorem exists_zipIdx_take {l : List α} {n : Nat} : (∃ i, (a, i) ∈ l.zipIdx.take n) ↔
    a ∈ l.take n := by
  have hfst : (l.zipIdx.take n).map Prod.fst = l.take n := by
    rw [List.map_take, List.zipIdx_map_fst]
  rw [← hfst, List.mem_map]
  constructor
  · rintro ⟨i, hi⟩
    exact ⟨_, hi, rfl⟩
  · rintro ⟨⟨b, i⟩, hi, rfl⟩
    exact ⟨i, hi⟩

variable (hboxes : π.SealsBoxes)

include hboxes in
theorem mem_take_of_delivers
    (hnews : List.Forall₂ (Signed s.peerId) ((s.rotationItems seed kc paperPublic epoch).take
      (n + 1)) news) (hx : x ∈ news)
    (h : Delivers π.crypto m.peerId (π.x25519Secret m.identity.secret) epoch key x) :
    (.device m.peerId, π.toX25519 m.selfKey) ∈ (s.wrapTargets paperPublic).take n := by
  obtain ⟨⟨⟨recipient, pub⟩, i⟩, htarget, hrecipient, hopen⟩ :=
    (delivers_news_iff hnews).1 ⟨x, hx, h⟩
  have hpub : pub = π.toX25519 m.selfKey := hboxes.only _ _ _ _ _ hopen
  obtain rfl : recipient = .device m.peerId := hrecipient
  rw [← hpub]
  exact exists_zipIdx_take.1 ⟨i, htarget⟩

include hboxes in
theorem delivers_take_iff
    (hnews : List.Forall₂ (Signed s.peerId) ((s.rotationItems seed kc paperPublic epoch).take
      (n + 1)) news) :
    (∃ x ∈ news, Delivers π.crypto m.peerId (π.x25519Secret m.identity.secret) epoch seed.key x) ↔
      (.device m.peerId, π.toX25519 m.selfKey) ∈ (s.wrapTargets paperPublic).take n := by
  constructor
  · rintro ⟨x, hx, h⟩
    exact mem_take_of_delivers hboxes hnews hx h
  · intro hmem
    obtain ⟨i, hi⟩ := exists_zipIdx_take.2 hmem
    exact (delivers_news_iff hnews).2 ⟨_, hi, rfl, hboxes.opens _ _ _⟩

include hboxes in
theorem rotation_delivers_iff (hadmin : s.requireAdmin = .ok ())
    (hnews : List.Forall₂ (Signed s.peerId) (s.rotationItems seed kc paperPublic epoch) news) :
    (∃ x ∈ news, Delivers π.crypto m.peerId (π.x25519Secret m.identity.secret) epoch seed.key x) ↔
      s.ListsKeyOf m := by
  rw [← rotationItems_take_all] at hnews
  rw [delivers_take_iff hboxes hnews, List.take_length, mem_wrapTargets_device hadmin, ListsKeyOf]

theorem wrapTargets_ne_nil (hadmin : s.requireAdmin = .ok ()) (h : s.ListsKeyOf m) :
    s.wrapTargets paperPublic ≠ [] := by
  intro hnil
  have hmem : (Recipient.device m.peerId, π.toX25519 m.selfKey) ∈ s.wrapTargets paperPublic :=
    (mem_wrapTargets_device hadmin).2 h
  rw [hnil] at hmem
  cases hmem

theorem FoldsRotation.lists (h : FoldsRotation s s' m) : s.ListsKeyOf m := by
  obtain ⟨p, hp, hactive, hvalid, hid, hkey⟩ := h.listed
  exact ⟨p, hp, hactive, hvalid, hid, by rw [hkey]⟩

theorem FoldsRotation.prefix_readKeylog (hm : FoldsRotation s s' m) (hwhole : s'.WholeKeylog)
    (hid : s'.identity = s.identity) (hown' : s'.ownKeylog = .ok own')
    (hread : m.readKeylog s.peerId s.selfKey = .ok es) : own' <+: es := by
  obtain ⟨_, htext⟩ := ownKeylog_eq_ok_iff.1 hown'
  rw [readKeylog, readVerified_getD, readVerified_some_iff] at hread
  have hreader : keyReader π s'.peerId s'.selfKey = keyReader π s.peerId s.selfKey := by
    rw [peerId, selfKey, hid]
    rfl
  rw [hreader] at htext
  exact LineReader.readText_extend hwhole hm.received htext hread.2

section Claim
variable (hπ : π.Lawful) (hjson : π.keyJson.StandsAlone) (hboxes : π.SealsBoxes)
variable (hkc : s.keychain idKey epoch0Key = .ok kc)
  (hadmin : s.requireAdmin = .ok ())
  (he : epoch = π.crypto.blake3 ((s.rotationOf seed kc).preimage seed.key))
  (happend : exec (appendAll (s.rotationItems seed kc paperPublic epoch)) s = (.ok (), s'))
include hπ hjson hboxes hkc hadmin he happend

theorem member_holdsKey_iff (hgenesis : epoch ≠ epoch0Id) (hm : FoldsRotation s s' m)
    (hinj : m.NoCollision idKey epoch0Key ((s.rotationOf seed kc).preimage seed.key)) :
    m.HoldsKey idKey epoch0Key epoch seed.key ↔ m.AnnouncedFirst epoch (s.rotationOf seed kc) := by
  obtain ⟨own', hown'⟩ := rotated_readable hπ (wrapTargets_ne_nil hadmin hm.lists) happend
  obtain ⟨own, news, others, _, rfl, _, hnews⟩ := rotated_merged hπ hjson hkc happend hown'
  obtain ⟨entries, hentries⟩ := hm.reads
  obtain ⟨es, hes⟩ := readKeylog_of_merged hentries hm.folds
  have hwhole := wholeKeylog_of_appendAll (List.cons_ne_nil _ _) happend
  have hprefix := hm.prefix_readKeylog hwhole (appendAll_samePeers happend).identity hown' hes
  have hdelivers : ∃ x ∈ entries,
      Delivers π.crypto m.peerId (π.x25519Secret m.identity.secret) epoch seed.key x := by
    obtain ⟨x, hx, hdelivers⟩ := (rotation_delivers_iff hboxes hadmin hnews).2 hm.lists
    have hmem : x ∈ es := hprefix.subset (List.mem_append_right own hx)
    exact ⟨x, (mem_mergedKeylog hentries).2 ⟨_, _, hm.folds, es, hes, hmem⟩, hdelivers⟩
  rw [holdsKey_iff he.symm hgenesis hinj hentries, and_iff_left hdelivers, AnnouncedFirst, hentries]
  simp only [Except.ok.injEq, exists_eq_left']

theorem rotating_holdsKey_iff
    (hfresh : ∀ entries, s.mergedKeylog = .ok entries → FreshEpoch entries epoch)
    (hinj : s'.NoCollision idKey epoch0Key ((s.rotationOf seed kc).preimage seed.key)) :
    (∃ kc', s'.keychain idKey epoch0Key = .ok kc' ∧ leaves kc'.epochs = [epoch] ∧ kc'.head = epoch ∧
        kc'.epochKey epoch = some seed.key) ↔ s.ListsKeyOf s := by
  have hsame := appendAll_samePeers happend
  -- both directions go through the own log as it reads after the rotation
  have hread (own' : List KeyLogEntry) (hown' : s'.ownKeylog = .ok own') :
      (∃ kc', s'.keychain idKey epoch0Key = .ok kc' ∧ leaves kc'.epochs = [epoch] ∧
        kc'.head = epoch ∧
        kc'.epochKey epoch = some seed.key) ↔ s.ListsKeyOf s := by
    obtain ⟨own, news, others, hmerged, _, hmerged', hnews⟩ :=
      rotated_merged hπ hjson hkc happend hown'
    have hentries : RotationEntries epoch (s.rotationOf seed kc) news := by
      rw [← rotationItems_take_all] at hnews
      exact rotationEntries_of_signed hnews
    have hfresh := hfresh _ hmerged
    have hholds := holdsKey_iff he.symm hfresh.genesis hinj hmerged'
    have hfirst := (gainsEpoch_of_rotated hfresh hentries).first
    have hdelivers : (∃ x ∈ own ++ news ++ others,
        Delivers π.crypto s'.peerId (π.x25519Secret s'.identity.secret) epoch seed.key x) ↔
          ∃ x ∈ news,
            Delivers π.crypto s.peerId (π.x25519Secret s.identity.secret) epoch seed.key x := by
      rw [hsame.peerId, hsame.identity]
      constructor
      · rintro ⟨x, hx, hdelivers⟩
        refine ⟨x, ?_, hdelivers⟩
        rcases List.mem_append.1 hx with hx | hx
        · rcases List.mem_append.1 hx with hx | hx
          · exact absurd hdelivers.1 (hfresh.unnamed x (List.mem_append_left _ hx))
          · exact hx
        · exact absurd hdelivers.1 (hfresh.unnamed x (List.mem_append_right _ hx))
      · rintro ⟨x, hx, hdelivers⟩
        exact ⟨x, List.mem_append_left _ (List.mem_append_right _ hx), hdelivers⟩
    rw [hdelivers, and_iff_right hfirst, rotation_delivers_iff hboxes hadmin hnews] at hholds
    rw [← hholds]
    constructor
    · rintro ⟨kc', hkc', _, _, hkey⟩
      exact ⟨kc', hkc', hkey⟩
    · rintro ⟨kc', hkc', hkey⟩
      obtain ⟨hleaves, hhead⟩ :=
        rotated_head hfresh hmerged hkc hmerged' hentries hkc' hsame.identity
      exact ⟨kc', hkc', hleaves, hhead, hkey⟩
  constructor
  · rintro ⟨kc', hkc', hrest⟩
    obtain ⟨entries', hmerged', _⟩ := keychain_eq_ok_iff.1 hkc'
    obtain ⟨own', hown'⟩ := readKeylog_of_merged hmerged' .own
    exact (hread own' hown').1 ⟨kc', hkc', hrest⟩
  · intro hlists
    obtain ⟨own', hown'⟩ := rotated_readable hπ (wrapTargets_ne_nil hadmin hlists) happend
    exact (hread own' hown').2 hlists

end Claim

/-- After a rotation the rotating device has the new epoch as its only leaf and head and holds its
key, and every member that folds the rotation holds the key: exactly if the roster lists the
rotating device under its own key and no member folds another `rotate` of the epoch first. -/
theorem rotation_reaches_iff (hπ : π.Lawful) (hjson : π.keyJson.StandsAlone) (hboxes : π.SealsBoxes)
    (hkc : s.keychain idKey epoch0Key = .ok kc)
    (hrun : exec (rotateEpoch seed idKey epoch0Key paperPublic) s = (.ok epoch, s'))
    (hfresh : ∀ entries, s.mergedKeylog = .ok entries → FreshEpoch entries epoch)
    (members : List (Store π)) (hmembers : ∀ m ∈ members, FoldsRotation s s' m)
    (hinj : ∀ t ∈ s' :: members,
      t.NoCollision idKey epoch0Key ((s.rotationOf seed kc).preimage seed.key)) :
    ((∃ kc', s'.keychain idKey epoch0Key = .ok kc' ∧ leaves kc'.epochs = [epoch] ∧
      kc'.head = epoch ∧ kc'.epochKey epoch = some seed.key) ∧
        ∀ m ∈ members, m.HoldsKey idKey epoch0Key epoch seed.key) ↔
      s.ListsKeyOf s ∧ ∀ m ∈ members, m.AnnouncedFirst epoch (s.rotationOf seed kc) := by
  obtain ⟨hadmin, he, happend⟩ := (rotateEpoch_ok_iff hkc).1 hrun
  obtain ⟨entries, hmerged, _⟩ := keychain_eq_ok_iff.1 hkc
  have hgenesis := (hfresh entries hmerged).genesis
  rw [List.forall_mem_cons] at hinj
  apply and_congr
  · exact rotating_holdsKey_iff hπ hjson hboxes hkc hadmin he happend hfresh hinj.1
  · apply forall₂_congr
    intro m hm
    exact member_holdsKey_iff hπ hjson hboxes hkc hadmin he happend hgenesis (hmembers m hm)
      (hinj.2 m hm)

end Rotate

section Sample

/-- A box is named by its recipient, and an epoch by a byte of its nonce and 31 bytes of its key. -/
def boxCrypto : Crypto where
  blake3 bytes :=
    (Bytes32.ofBytes? ((bytes.drop (bytes.length - 64)).take 1 ++
      bytes.drop (bytes.length - 31))).getD default
  deriveKey _ bytes := (Bytes32.ofBytes? (bytes.drop (bytes.length - 32))).getD default
  x25519Public secret := secret
  diffieHellman _ pub := pub
  aeadSeal key _ pt := key.bytes ++ pt
  aeadOpen key _ ct := if ct.take 32 = key.bytes then some (ct.drop 32) else none

def runs : Bytes → List (Nat × UInt8)
  | [] => []
  | b :: bs => match runs bs with
    | [] => [(1, b)]
    | (n, c) :: rest => if b = c ∧ n < 255 then (n + 1, c) :: rest else (1, b) :: (n, c) :: rest

def runBytes : List Char → Bytes
  | n :: b :: cs => List.replicate n.toNat (UInt8.ofNat b.toNat) ++ runBytes cs
  | _ => []

def runChars (bytes : Bytes) : List Char :=
  (runs bytes).flatMap fun (n, b) => [Char.ofNat n, Char.ofNat b.toNat]

theorem runs_short (bytes : Bytes) : ∀ run ∈ runs bytes, run.1 < 256 := by
  induction bytes with
  | nil => exact nofun
  | cons b bs ih =>
    rw [runs]
    split
    next => simp
    next n c rest hruns =>
      rw [hruns, List.forall_mem_cons] at ih
      split
      next h => exact List.forall_mem_cons.2 ⟨by dsimp only; omega, ih.2⟩
      next => exact List.forall_mem_cons.2 ⟨Nat.one_lt_ofNat, List.forall_mem_cons.2 ih⟩

theorem flatMap_runs (bytes : Bytes) :
    (runs bytes).flatMap (fun run => List.replicate run.1 run.2) = bytes := by
  induction bytes with
  | nil => rfl
  | cons b bs ih =>
    rw [runs]
    split
    next hruns =>
      rw [hruns] at ih
      rw [← ih]
      rfl
    next n c rest hruns =>
      rw [hruns, List.flatMap_cons] at ih
      split
      next h => rw [List.flatMap_cons, List.replicate_succ, List.cons_append, ih, h.1]
      next =>
        rw [List.flatMap_cons, List.flatMap_cons, ih]
        rfl

theorem runBytes_runChars (bytes : Bytes) : runBytes (runChars bytes) = bytes := by
  have hread (l : List (Nat × UInt8)) (h : ∀ run ∈ l, run.1 < 256) :
      runBytes (l.flatMap fun (n, b) => [Char.ofNat n, Char.ofNat b.toNat]) =
        l.flatMap fun run => List.replicate run.1 run.2 := by
    induction l with
    | nil => rfl
    | cons run l ih =>
      rw [List.forall_mem_cons] at h
      rw [List.flatMap_cons, List.flatMap_cons, ← ih h.2, List.cons_append, List.cons_append,
        List.nil_append, runBytes, toNat_ofNat_of_lt h.1, toNat_ofNat_of_lt run.2.toNat_lt,
          UInt8.ofNat_toNat]
  exact (hread _ (runs_short bytes)).trans (flatMap_runs bytes)

def boxPlatform : Platform :=
  { openPlatform with
    crypto := boxCrypto
    b64Encode := fun bytes => String.ofList (runChars bytes)
    b64Decode := fun s => .ok (runBytes s.toList) }

theorem boxPlatform_lawful : boxPlatform.Lawful := by
  obtain ⟨roster, key, op, _, hsize, hverify, hvalid⟩ := openPlatform_framed.toLawful
  refine ⟨roster, key, op, ?_, hsize, hverify, hvalid⟩
  intro bytes
  simp only [boxPlatform, String.toList_ofList, runBytes_runChars]

theorem wrapSubkey_boxCrypto (shared ephPub pub : Bytes32) :
    wrapSubkey boxCrypto shared ephPub pub = pub := by
  have hdrop (init : Bytes) :
      (init ++ pub.bytes).drop ((init ++ pub.bytes).length - 32) = pub.bytes := by
    rw [List.length_append, pub.size, Nat.add_sub_cancel, List.drop_left]
  have hof : Bytes32.ofBytes? pub.bytes = some pub := dif_pos pub.size
  simp only [wrapSubkey, boxCrypto, hdrop, hof, Option.getD_some]

theorem unwrap_boxCrypto (seed : WrapSeed) (secret pub key : Bytes32) :
    unwrap boxCrypto secret (wrap boxCrypto seed pub key) = if pub = secret then some key
      else none := by
  have hsize : (seed.ephSecret.bytes ++ seed.nonce).length = 56 := by
    rw [List.length_append, seed.ephSecret.size, seed.size]
  have hblob : wrap boxCrypto seed pub key =
      seed.ephSecret.bytes ++ seed.nonce ++ (pub.bytes ++ key.bytes) := by
    rw [wrap, wrapSubkey_boxCrypto]
    rfl
  have hlong : ¬ (wrap boxCrypto seed pub key).length < 56 := by
    rw [hblob, List.length_append, hsize]
    omega
  have htake : (wrap boxCrypto seed pub key).take 32 = seed.ephSecret.bytes := by
    rw [hblob, List.append_assoc, ← seed.ephSecret.size, List.take_left]
  have hdrop : (wrap boxCrypto seed pub key).drop 56 = pub.bytes ++ key.bytes := by
    rw [hblob, ← hsize, List.drop_left]
  have hopen (nonce : Bytes) : boxCrypto.aeadOpen secret nonce (pub.bytes ++ key.bytes) =
      if pub = secret then some key.bytes else none := by
    simp only [boxCrypto, ← pub.size, List.take_left, List.drop_left,
      Bytes32.bytes_injective.eq_iff]
  have hof (b : Bytes32) : Bytes32.ofBytes? b.bytes = some b := dif_pos b.size
  rw [unwrap, if_neg hlong, htake, hdrop, hof]
  simp only [Option.bind_eq_bind, Option.bind_some, wrapSubkey_boxCrypto]
  rw [show boxCrypto.x25519Public secret = secret from rfl, hopen]
  split
  · rw [Option.bind_some, hof]
  · rfl

theorem boxPlatform_sealsBoxes : boxPlatform.SealsBoxes where
  opens secret seed key := (unwrap_boxCrypto seed secret secret key).trans (if_pos rfl)
  only secret seed pub key opened h := by
    change unwrap boxCrypto secret (wrap boxCrypto seed pub key) = some opened at h
    rw [unwrap_boxCrypto] at h
    split at h
    next heq => exact heq
    next => cases h

def hashesOnly (t : Store π) (idKey epoch0Key : Bytes32) (text : Bytes) : Bool :=
  match t.keychain idKey epoch0Key with
  | .error _ => true
  | .ok kc => kc.epochs.toList.all fun (epoch, node) =>
      epoch = epoch0Id ∨ node.key.all fun key => node.rotation.preimage key = text

theorem noCollision_of_hashesOnly (h : hashesOnly t idKey epoch0Key text = true) :
    t.NoCollision idKey epoch0Key text := by
  intro kc hkc
  have hone (a : Bytes) (ha : a ∈ kc.hashed ∪ {text}) : a = text := by
    rcases ha with ⟨epoch, hgenesis, node, key, hnode, hkey, rfl⟩ | rfl
    · simp only [hashesOnly, hkc, List.all_eq_true, decide_eq_true_eq] at h
      have hmem := Std.TreeMap.mem_toList_iff_getElem?_eq_some.2 hnode
      have htext := (h _ hmem).resolve_left hgenesis
      rw [hkey] at htext
      exact of_decide_eq_true htext
    · rfl
  intro a ha b hb _
  rw [hone a ha, hone b hb]

theorem not_holdsKey_of_none {t : Store π}
    (h : (t.keychain idKey epoch0Key).toOption.map (·.epochKey epoch) = some none) :
    ¬ t.HoldsKey idKey epoch0Key epoch key := by
  rintro ⟨kc, hkc, hkey⟩
  rw [hkc] at h
  cases (Option.some.inj h).symm.trans hkey

theorem announcedFirst_of_some {t : Store π}
    (h : t.mergedKeylog.toOption.map (firstRotate · epoch) = some (some rot)) :
    t.AnnouncedFirst epoch rot := by
  cases hmerged : t.mergedKeylog with
  | error err =>
    rw [hmerged] at h
    cases h
  | ok entries =>
    rw [hmerged] at h
    exact ⟨entries, hmerged, Option.some.inj h⟩

def boxPeers : List PeerRecord :=
  [⟨deviceId 1, .replicate 1, .active, .admin, none⟩, ⟨deviceId 2, .replicate 2, .active,
    .admin, none⟩, ⟨deviceId 3, .replicate 3, .active, .writer, none⟩]

def boxDevice (n : UInt8) : Store boxPlatform :=
  { Store.fresh (plainIdentity n) [] with peers := boxPeers }

example : ([declareFounder (ascending, ascending) .admin,
    addPeer (ascending, ascending) (deviceId 2) (.replicate 2) .admin,
    addPeer (ascending, ascending) (deviceId 3) (.replicate 3) .writer].foldl
      (fun s call => (exec call s).2) (Store.fresh (π := boxPlatform) (plainIdentity 1) [])).peers =
        boxPeers := by
  decide +kernel

def boxAdmin : Store boxPlatform := boxDevice 2

def boxEpoch : Bytes32 := .replicate 9

def boxItems : List (Bytes32 × KeyBody) :=
  (boxEpoch, .rotate [epoch0Id] (.replicate 9)) :: [1, 2, 3].map fun n =>
    (boxEpoch, .wrap (.device (deviceId n)) (List.replicate 56 9 ++ List.replicate 32 n ++
      List.replicate 32 9))

def boxRotated : Store boxPlatform := (exec (appendAll boxItems) boxAdmin).2

def boxKeychain : Keychain :=
  Keychain.build boxCrypto default default (deviceId 2) (.replicate 2) []

abbrev boxRotation : Rotation := boxAdmin.rotationOf (sampleSeed 9) boxKeychain

def boxMember (founder : Store boxPlatform) : Store boxPlatform :=
  [importKeylog (deviceId 2) (.replicate 2) boxRotated.exportOwnKeylog,
    importKeylog (deviceId 1) (.replicate 1) founder.exportOwnKeylog].foldl
      (fun s call => (exec call s).2) (boxDevice 3)

def boxRival : Store boxPlatform :=
  (exec (appendKeylog boxEpoch (.rotate [epoch0Id] (.replicate 4))) (boxDevice 1)).2

abbrev BoxFacts (founder : Store boxPlatform) : Prop :=
  (boxMember founder).mergedKeylog.toOption.isSome = true ∧
    (∃ p ∈ boxAdmin.peers, p.status = .active ∧ p.peerId = (boxMember founder).peerId ∧
      p.verifyingKey = (boxMember founder).selfKey) ∧
    (∃ p ∈ (boxMember founder).peers, p.status = .active ∧ p.role = .admin ∧
      p.peerId ≠ (boxMember founder).peerId ∧ p.peerId = boxAdmin.peerId ∧
        p.verifyingKey = boxAdmin.selfKey) ∧
    boxRotated.exportOwnKeylog <+: (boxMember founder).exportKeylog boxAdmin.peerId

theorem foldsRotation_of_facts {founder : Store boxPlatform} (h : BoxFacts founder) :
    FoldsRotation boxAdmin boxRotated (boxMember founder) := by
  obtain ⟨hreads, ⟨p, hp, hactive, hid, hkey⟩, ⟨q, hq, hq_active, hadmin, hne, hq_id, hq_key⟩,
    hreceived⟩ := h
  refine ⟨⟨p, hp, hactive, rfl, hid, hkey⟩, ?_, hreceived, exists_ok_of_toOption hreads⟩
  rw [← hq_id, ← hq_key]
  exact .admin q hq hq_active hadmin hne rfl

theorem boxAdmin_merged : boxAdmin.mergedKeylog = .ok [] := by
  have h : boxAdmin.mergedKeylog.toOption = some [] := by decide +kernel
  cases hmerged : boxAdmin.mergedKeylog with
  | error err =>
    rw [hmerged] at h
    cases h
  | ok entries =>
    rw [hmerged] at h
    cases h
    rfl

theorem boxAdmin_keychain : boxAdmin.keychain default default = .ok boxKeychain := by
  have hpeer : boxAdmin.peerId = deviceId 2 ∧ boxAdmin.identity.secret = .replicate 2 := by
    decide +kernel
  have hkc := keychain_eq boxAdmin_merged default default
  rw [hpeer.1, hpeer.2] at hkc
  exact hkc

theorem boxRotated_run : exec (rotateEpoch (sampleSeed 9) default default none) boxAdmin =
      (.ok boxEpoch, boxRotated) := by
  have hitems : boxAdmin.rotationItems (sampleSeed 9) boxKeychain none boxEpoch = boxItems := by
    decide +kernel
  have hok : (exec (appendAll boxItems) boxAdmin).1 = .ok () := by decide +kernel
  refine (rotateEpoch_ok_iff boxAdmin_keychain).2 ⟨by decide +kernel, by decide +kernel, ?_⟩
  rw [hitems, boxRotated, ← hok]

theorem boxEpoch_fresh (entries : List KeyLogEntry) (h : boxAdmin.mergedKeylog = .ok entries) :
    FreshEpoch entries boxEpoch := by
  cases boxAdmin_merged.symm.trans h
  exact ⟨by decide +kernel, nofun, nofun⟩

/-- A founder that announces the epoch of an admin's rotation under another nonce keeps the key from
a writer that folds both logs and was handed the key. -/
theorem rotation_preempted :
    exec (rotateEpoch (sampleSeed 9) default default none) boxAdmin = (.ok boxEpoch, boxRotated) ∧
      FoldsRotation boxAdmin boxRotated (boxMember boxRival) ∧
      (boxMember boxRival).NoCollision default default (boxRotation.preimage (sampleSeed 9).key) ∧
      ¬ (boxMember boxRival).HoldsKey default default boxEpoch (sampleSeed 9).key := by
  exact ⟨boxRotated_run, foldsRotation_of_facts (by decide +kernel),
    noCollision_of_hashesOnly (by decide +kernel), not_holdsKey_of_none (by decide +kernel)⟩

theorem boxRotated_reaches :
    (∃ kc', boxRotated.keychain default default = .ok kc' ∧ leaves kc'.epochs = [boxEpoch] ∧
        kc'.head = boxEpoch ∧ kc'.epochKey boxEpoch = some (sampleSeed 9).key) ∧
      ∀ m ∈ [boxMember (boxDevice 1)], m.HoldsKey default default boxEpoch (sampleSeed 9).key := by
  have hmembers : ∀ m ∈ [boxMember (boxDevice 1)], FoldsRotation boxAdmin boxRotated m :=
    List.forall_mem_singleton.2 (foldsRotation_of_facts (by decide +kernel))
  have hinj : ∀ t ∈ [boxRotated, boxMember (boxDevice 1)],
      t.NoCollision default default (boxRotation.preimage (sampleSeed 9).key) := by
    refine List.forall_mem_cons.2 ⟨?_, List.forall_mem_singleton.2 ?_⟩
    · exact noCollision_of_hashesOnly (by decide +kernel)
    · exact noCollision_of_hashesOnly (by decide +kernel)
  refine (rotation_reaches_iff boxPlatform_lawful (plainJson_standsAlone keyLineCode)
    boxPlatform_sealsBoxes
    boxAdmin_keychain boxRotated_run boxEpoch_fresh _ hmembers hinj).2 ⟨?_, ?_⟩
  · have hlists : ∃ p ∈ boxAdmin.peers, p.status = .active ∧ p.peerId = boxAdmin.peerId ∧
        p.verifyingKey = boxAdmin.selfKey := by
      decide +kernel
    obtain ⟨p, hp, hactive, hid, hkey⟩ := hlists
    exact ⟨p, hp, hactive, rfl, hid, by rw [hkey]⟩
  · refine List.forall_mem_singleton.2 ?_
    exact announcedFirst_of_some (by decide +kernel)

end Sample

end Store

end Roam
