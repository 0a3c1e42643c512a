import Roam.HeadSeals
import Roam.VaultCompaction

namespace Roam
set_option autoImplicit true
open Library Library.Fallible

namespace Store

section Keylog
variable {π : Platform} {s : Store π}

def ActiveAdmin (s : Store π) : Prop :=
  ∃ p ∈ s.peers, p.peerId = s.peerId ∧ p.status = .active ∧ p.role = .admin

theorem requireAdmin_error (h : ¬ s.ActiveAdmin) : ∃ e, s.requireAdmin = .error e := by
  rw [requireAdmin]
  cases hp : s.peers.find? fun p => p.peerId = s.peerId with
  | none => exact ⟨_, rfl⟩
  | some p =>
    have hself := List.find?_some hp
    rw [decide_eq_true_eq] at hself
    exact ⟨_, if_neg fun hadmin => h ⟨p, List.mem_of_find?_eq_some hp, hself, hadmin⟩⟩

theorem authorAsAdmin_refused (h : ¬ s.ActiveAdmin) (orders : RosterOrder × RosterOrder)
    (op : RosterOp) (peer : UInt64) (key : Bytes32) :
    (exec (authorAsAdmin orders op peer key) s).2 = s := by
  obtain ⟨e, he⟩ := requireAdmin_error h
  rw [exec_authorAsAdmin, he]

theorem rotateEpoch_refused (h : ¬ s.ActiveAdmin) (seed : RotationSeed) (idKey epoch0Key : Bytes32)
    (paperPublic : Option Bytes32) :
    (exec (rotateEpoch seed idKey epoch0Key paperPublic) s).2 = s := by
  obtain ⟨e, he⟩ := requireAdmin_error h
  rw [rotateEpoch, exec_bind, exec_get]
  dsimp only
  rw [exec_bind, exec_ofResult, he]

structure KeylogGrows (s s' : Store π) : Prop where
  identity : s'.identity = s.identity
  length : s.exportOwnKeylog.length ≤ s'.exportOwnKeylog.length

instance : IsPreorder (Store π) KeylogGrows where
  refl _ := ⟨rfl, le_rfl⟩
  trans _ _ _ h h' := ⟨h'.identity.trans h.identity, h.length.trans h'.length⟩

theorem exportOwnKeylog_withKeylog (s : Store π) (bytes : Bytes) :
    (s.withKeylog s.peerId bytes).exportOwnKeylog = bytes := by
  change (s.disk.keylogs.insert s.peerId bytes)[s.peerId]?.getD [] = bytes
  rw [Std.TreeMap.getElem?_insert_self]
  rfl

theorem appendKeylog_cases (epoch : Bytes32) (body : KeyBody) (s : Store π) :
    (∃ e, exec (appendKeylog epoch body) s = (.error e, s) ∧
        readVerified π (keyReader π s.peerId s.selfKey) s.disk.keylogs[s.peerId]? = .error e) ∨
      ∃ s', exec (appendKeylog epoch body) s = (.ok (), s') ∧ s'.identity = s.identity ∧
        s.exportOwnKeylog.length < s'.exportOwnKeylog.length := by
  rw [exec_appendKeylog]
  cases readVerified π (keyReader π s.peerId s.selfKey) s.disk.keylogs[s.peerId]? with
  | error e => exact .inl ⟨e, rfl, rfl⟩
  | ok entries =>
    refine .inr ⟨_, rfl, rfl, ?_⟩
    rw [exportOwnKeylog_withKeylog, appendLine, List.length_append, List.length_append,
      List.length_singleton]
    exact Nat.lt_add_of_pos_right (Nat.succ_pos _)

theorem appendKeylog_grows (epoch : Bytes32) (body : KeyBody) :
    Leaves KeylogGrows (appendKeylog epoch body : StoreM π Unit) := by
  refine appendKeylogIo_leaves (fun s more => ⟨rfl, ?_⟩) .done epoch body
  rw [exportOwnKeylog_withKeylog, List.length_append]
  exact Nat.le_add_right _ _

theorem appendKeylog_longer (hkc : s.keychain idKey epoch0Key = .ok kc) (epoch : Bytes32)
    (body : KeyBody) : s.exportOwnKeylog.length <
      (exec (appendKeylog epoch body) s).2.exportOwnKeylog.length := by
  rcases appendKeylog_cases epoch body s with ⟨e, _, herror⟩ | ⟨s', hs', _, hlt⟩
  · rw [keychain, mergedKeylog, herror] at hkc
    cases hkc
  · rw [hs']
    exact hlt

def publishWrap (s : Store π) (wraps : Nat → WrapSeed) (published : Nat)
    (target : (Bytes32 × Bytes32 × UInt64) × Nat) : StoreM π Nat :=
  match s.memberKey target.1.2.2 with
  | none => pure published
  | some recipientPub => do
    appendKeylog target.1.1
      (.wrap (.device target.1.2.2) (wrap π.crypto (wraps target.2) recipientPub target.1.2.1))
    pure (published + 1)

theorem publishWrap_grows (s : Store π) (wraps : Nat → WrapSeed) (published : Nat)
    (target : (Bytes32 × Bytes32 × UInt64) × Nat) :
    Leaves KeylogGrows (s.publishWrap wraps published target) := by
  rw [publishWrap]
  split
  · exact .pure published
  · exact (appendKeylog_grows _ _).bind fun _ => .pure (published + 1)

theorem exec_backfillWraps (wraps : Nat → WrapSeed) (hkc : s.keychain idKey epoch0Key = .ok kc) :
    exec (backfillWraps wraps idKey epoch0Key) s =
      exec ((kc.backfillTargets s.peers).zipIdx.foldlM (s.publishWrap wraps) 0) s := by
  rw [backfillWraps, backfillWrapsIo, exec_bind, exec_get]
  dsimp only
  rw [exec_bind, exec_ofResult, hkc]
  rfl

theorem foldlM_publishWrap_quiet (wraps : Nat → WrapSeed)
    {targets : List ((Bytes32 × Bytes32 × UInt64) × Nat)}
    (h : ∀ target ∈ targets, s.memberKey target.1.2.2 = none) (n : Nat) :
    exec (targets.foldlM (s.publishWrap wraps) n) s = (.ok n, s) := by
  induction targets with
  | nil => rfl
  | cons target targets ih =>
    rw [List.forall_mem_cons] at h
    rw [List.foldlM_cons, publishWrap, h.1, pure_bind]
    exact ih h.2

theorem foldlM_publishWrap_longer (wraps : Nat → WrapSeed)
    (hkc : s.keychain idKey epoch0Key = .ok kc)
    {targets : List ((Bytes32 × Bytes32 × UInt64) × Nat)}
    (h : ∃ target ∈ targets, (s.memberKey target.1.2.2).isSome) (n : Nat) :
    s.exportOwnKeylog.length <
      (exec (targets.foldlM (s.publishWrap wraps) n) s).2.exportOwnKeylog.length := by
  induction targets generalizing n with
  | nil =>
    obtain ⟨_, hmem, _⟩ := h
    cases hmem
  | cons target targets ih =>
    rw [List.foldlM_cons]
    cases hmember : s.memberKey target.1.2.2 with
    | none =>
      rw [publishWrap, hmember, pure_bind]
      apply ih
      obtain ⟨target', hmem, hsome⟩ := h
      rcases List.mem_cons.1 hmem with rfl | hmem
      · rw [hmember] at hsome
        cases hsome
      · exact ⟨target', hmem, hsome⟩
    | some recipientPub =>
      -- what comes after the first wrap does not shorten the log again
      have hrest : ∀ m, Leaves KeylogGrows (targets.foldlM (s.publishWrap wraps) m) :=
        fun m => Leaves.foldlM (publishWrap_grows s wraps)
      rw [publishWrap, hmember, bind_assoc]
      have hfirst := appendKeylog_longer hkc target.1.1 (.wrap (.device target.1.2.2)
        (wrap π.crypto (wraps target.2) recipientPub target.1.2.1))
      rw [exec_bind]
      cases hop : exec (appendKeylog target.1.1 (.wrap (.device target.1.2.2)
        (wrap π.crypto (wraps target.2) recipientPub target.1.2.1))) s with
      | mk r t =>
        rw [hop] at hfirst
        cases r with
        | error e => exact hfirst
        | ok u =>
          dsimp only
          rw [pure_bind]
          exact hfirst.trans_le ((hrest (n + 1)).holds t).length

end Keylog

section Signed
variable {π : Platform} {s : Store π}

structure SameSigned (s s' : Store π) : Prop where
  rosters : s'.disk.rosters = s.disk.rosters
  keylogs : s'.disk.keylogs = s.disk.keylogs

theorem SameSigned.refl (s : Store π) : SameSigned s s := ⟨rfl, rfl⟩

instance : IsPreorder (Store π) SameSigned where
  refl := .refl
  trans _ _ _ h h' := ⟨h'.rosters.trans h.rosters, h'.keylogs.trans h.keylogs⟩

theorem checkpoint_signed (io : CheckpointIo) (beforeTs : Int) :
    Leaves SameSigned (checkpoint io beforeTs : StoreM π _) := by
  refine Leaves.get.bind fun s => ?_
  refine (Leaves.ofResult (markerBefore π s.disk.history beforeTs)).bind fun target? => ?_
  cases target? with
  | none => exact .pure 0
  | some target =>
    refine (Leaves.ofResult (markers π s.disk.history)).bind fun all => ?_
    exact (referencedHashes_leaves (fun _ _ => ⟨rfl, rfl⟩) _).bind fun referenced =>
      (shallowAt_leaves target).bind fun shallow =>
        (saveSnapshot_leaves (fun _ _ => ⟨rfl, rfl⟩) io.snapshot shallow).bind fun _ =>
          (truncateLogs_leaves (fun _ _ _ => ⟨rfl, rfl⟩) io.truncate _).bind fun _ =>
            (reclaimBlobs_leaves (fun _ _ => ⟨rfl, rfl⟩) io.remove referenced).bind fun freed =>
              (rewriteHistory_leaves (fun _ _ => ⟨rfl, rfl⟩) io.history all target.tsMs).bind
                fun _ => .pure freed

end Signed

section Standing
variable {π : BackendPlatform} {s : Store π.toPlatform} {keys : Std.TreeMap UInt64 Bytes32}

/-- A snapshot object that the device signed, that opens and that the document takes. -/
structure OwnObject (s : Store π.toPlatform) (kc : Keychain) (framed : Bytes) : Prop where
  valid : π.validKey s.selfKey = true
  signed : ∃ manifestJson ct manifest, unframe framed = some (manifestJson, ct) ∧
    π.manifest manifestJson = some manifest ∧ manifest.author = s.peerId ∧
    manifest.verify π.toSyncPlatform s.selfKey = true ∧
      π.crypto.blake3 ct = manifest.snapshotCtHash ∧
    ∃ plaintext doc merged, openClassified π.crypto kc ct = some plaintext ∧
      π.importUpdate s.doc plaintext = .ok doc ∧ π.snapshot (π.commit doc) = .ok merged

/-- Nothing that an admin may sign is signed, and no snapshot by the device itself is adopted. -/
structure Powerless (s : Store π.toPlatform) : Prop where
  addPeer : ∀ orders peer key role, SameSigned s (exec (Store.addPeer orders peer key role) s).2
  setRole : ∀ orders peer key role, SameSigned s (exec (Store.setRole orders peer key role) s).2
  revokePeer : ∀ orders peer key, SameSigned s (exec (Store.revokePeer orders peer key) s).2
  rotateEpoch : ∀ seed idKey epoch0Key paperPublic,
    SameSigned s (exec (Store.rotateEpoch seed idKey epoch0Key paperPublic) s).2
  backfillWraps : ∀ wraps idKey epoch0Key,
    SameSigned s (exec (Store.backfillWraps wraps idKey epoch0Key) s).2
  snapshot : ∀ key beforeTs nonce files,
    exec (Pass.produceHeldSnapshot key beforeTs nonce files) s = (.ok (none, files), s)
  checkpoint : ∀ key io beforeTs nonce files,
    SameSigned s (exec (checkpointWithBootstrap key io beforeTs nonce files) s).2 ∧
      ∀ done files',
        (exec (checkpointWithBootstrap key io beforeTs nonce files) s).1 = .ok (done, files') →
          done.snapshot = none ∧ files' = files
  adopt : ∀ io kc id framed files subsumed files',
    (exec (verifyAndAdoptSnapshot io kc s.adminAuthorKeys id framed files) s).1 =
        .ok (.adopted id subsumed, files') →
      ∀ manifestJson ct manifest, unframe framed = some (manifestJson, ct) →
        π.manifest manifestJson = some manifest → manifest.author ≠ s.peerId

/-- The role of the device is not admin, and every epoch that it can open is wrapped to every active
member that a wrap can be made for. -/
structure Unprivileged (s : Store π.toPlatform) : Prop where
  role : s.selfRole ≠ some .admin
  wrapped : ∀ idKey epoch0Key kc, s.keychain idKey epoch0Key = .ok kc →
    ∀ (epoch : Bytes32) node, kc.epochs[epoch]? = some node → epoch ≠ epoch0Id → node.key.isSome →
      ∀ p ∈ s.peers, p.status = .active → (s.memberKey p.peerId).isSome →
        node.wrappedTo.contains p.peerId = true

theorem mem_backfillTargets {kc : Keychain} {roster : List PeerRecord} :
    (epoch, key, peer) ∈ kc.backfillTargets roster ↔ epoch ≠ epoch0Id ∧
      ∃ node, kc.epochs[epoch]? = some node ∧ node.key = some key ∧
        ∃ p ∈ roster, p.status = .active ∧ node.wrappedTo.contains p.peerId = false ∧
          p.peerId = peer := by
  rw [Keychain.backfillTargets, List.mem_flatMap]
  constructor
  · rintro ⟨⟨epoch', node⟩, hnode, hmem⟩
    rw [Std.TreeMap.mem_toList_iff_getElem?_eq_some] at hnode
    dsimp only at hmem
    split at hmem
    · cases hmem
    · rename_i hepoch
      split at hmem
      · cases hmem
      · rename_i key' hkey
        obtain ⟨p, hp, heq⟩ := List.mem_map.1 hmem
        cases heq
        simp only [List.mem_filter, Bool.not_eq_true', decide_eq_true_eq] at hp
        exact ⟨hepoch, node, hnode, hkey, p, hp.1, hp.2.1, hp.2.2, rfl⟩
  · rintro ⟨hepoch, node, hnode, hkey, p, hp, hactive, hlacks, rfl⟩
    refine ⟨(epoch, node), Std.TreeMap.mem_toList_iff_getElem?_eq_some.2 hnode, ?_⟩
    dsimp only
    rw [if_neg hepoch, hkey]
    refine List.mem_map.2 ⟨p, ?_, rfl⟩
    simp only [List.mem_filter, Bool.not_eq_true', decide_eq_true_eq]
    exact ⟨hp, hactive, hlacks⟩

theorem authorKeys_foldl (peers : List PeerRecord)
    (h : ∀ p ∈ peers, ¬ (p.peerId = self ∧ p.status = .active ∧ p.role = .admin))
    (hkeys : keys[self]? = none) : (peers.foldl (fun keys p =>
      if p.role = .admin ∧ p.status = .active ∧ π.validKey p.verifyingKey then
        keys.insert p.peerId p.verifyingKey else keys) keys)[self]? = none := by
  induction peers generalizing keys with
  | nil => exact hkeys
  | cons p peers ih =>
    rw [List.forall_mem_cons] at h
    rw [List.foldl_cons]
    apply ih h.2
    split
    · rename_i hadmin
      have hne : ¬ p.peerId = self := fun heq => h.1 ⟨heq, hadmin.2.1, hadmin.1⟩
      rw [get_insert, if_neg hne, hkeys]
    · exact hkeys

theorem adminAuthorKeys_self (hrole : s.selfRole ≠ some .admin) (hna : ¬ s.ActiveAdmin) :
    s.adminAuthorKeys[s.peerId]? = none := by
  rw [adminAuthorKeys, if_neg fun h => hrole h.1]
  apply authorKeys_foldl
  · exact fun p hp h => hna ⟨p, hp, h⟩
  · exact Std.TreeMap.getElem?_emptyc

theorem adminAuthorKeys_admin (hrole : s.selfRole = some .admin)
    (hvalid : π.validKey s.selfKey = true) : s.adminAuthorKeys[s.peerId]? = some s.selfKey := by
  rw [adminAuthorKeys, if_pos ⟨hrole, hvalid⟩]
  exact Std.TreeMap.getElem?_insert_self

theorem verifyAndAdopt_unknown {files : SyncFiles} {id : String}
    (hframe : unframe framed = some (manifestJson, ct))
    (hmanifest : π.manifest manifestJson = some manifest) (hkeys : keys[manifest.author]? = none) :
    exec (verifyAndAdoptSnapshot (π := π.toSyncPlatform) io kc keys id framed files) s =
      (.ok (.rejected "author not admin", files), s) := by
  have hopen : openSnapshot (π := π.toSyncPlatform) kc keys framed =
      .error (.rejected "author not admin") := by
    rw [openSnapshot, hframe]
    dsimp only
    rw [hmanifest]
    dsimp only
    rw [hkeys]
    rfl
  rw [verifyAndAdoptSnapshot, hopen]
  rfl

theorem OwnObject.adopted (h : s.OwnObject kc framed)
    (hkeys : keys[s.peerId]? = some s.selfKey) (id : String) :
    ∃ manifestJson ct manifest files', unframe framed = some (manifestJson, ct) ∧
      π.manifest manifestJson = some manifest ∧ manifest.author = s.peerId ∧
      (exec (verifyAndAdoptSnapshot (π := π.toSyncPlatform) .done kc keys id framed
        { parts := ∅, objects := ∅, held := none }) s).1 =
          .ok (.adopted id manifest.subsumedEntryIds, files') := by
  obtain ⟨manifestJson, ct, manifest, hframe, hmanifest, hauthor, hverify, hhash, plaintext, doc,
    merged, hopen, himport, hmerged⟩ := h.signed
  have hopened : openSnapshot (π := π.toSyncPlatform) kc keys framed =
      .ok (plaintext, manifest.subsumedEntryIds) := by
    rw [openSnapshot, hframe]
    dsimp only
    rw [hmanifest]
    dsimp only
    rw [hauthor, hkeys]
    dsimp only
    rw [hverify, hhash, hopen, if_neg (not_not.2 rfl)]
    rfl
  have hadopt : (exec (adoptSnapshot .done plaintext) s).1 = .ok () := by
    rw [adoptSnapshot, exec_bind, exec_get]
    dsimp only
    rw [exec_bind, exec_ofDoc, himport]
    dsimp only [Except.mapError]
    rw [exec_bind, exec_set]
    dsimp only
    rw [exec_bind, exec_ofDoc, hmerged]
    rfl
  refine ⟨manifestJson, ct, manifest, ?_⟩
  rw [verifyAndAdoptSnapshot, hopened]
  dsimp only
  rw [exec_bind]
  cases hop : exec (adoptSnapshot .done plaintext) s with
  | mk r s' =>
    rw [hop] at hadopt
    cases hadopt
    exact ⟨_, hframe, hmanifest, hauthor, rfl⟩

theorem produceHeldSnapshot_refused (hrole : s.selfRole ≠ some .admin) (key : VaultKey)
    (beforeTs : Int) (nonce : Bytes) (files : SyncFiles) :
    exec (Pass.produceHeldSnapshot key beforeTs nonce files) s = (.ok (none, files), s) := by
  rw [Pass.produceHeldSnapshot, exec_bind, exec_get]
  dsimp only
  rw [if_pos hrole]
  rfl

theorem Unprivileged.backfillWraps_quiet (h : s.Unprivileged) (wraps : Nat → WrapSeed)
    (idKey epoch0Key : Bytes32) : (exec (backfillWraps wraps idKey epoch0Key) s).2 = s := by
  cases hkc : s.keychain idKey epoch0Key with
  | error e =>
    rw [backfillWraps, backfillWrapsIo, exec_bind, exec_get]
    dsimp only
    rw [exec_bind, exec_ofResult, hkc]
  | ok kc =>
    have hquiet : ∀ target ∈ (kc.backfillTargets s.peers).zipIdx,
        s.memberKey target.1.2.2 = none := by
      intro ⟨⟨epoch, k, peer⟩, i⟩ hmem
      obtain ⟨hepoch, node, hnode, hkey, p, hp, hactive, hlacks, rfl⟩ :=
        mem_backfillTargets.1 (List.fst_mem_of_mem_zipIdx hmem)
      by_contra hmember
      have hwrapped := h.wrapped idKey epoch0Key kc hkc epoch node hnode hepoch
        (Option.isSome_iff_exists.2 ⟨k, hkey⟩) p hp hactive (Option.isSome_iff_ne_none.2 hmember)
      exact Bool.false_ne_true (hlacks.symm.trans hwrapped)
    rw [exec_backfillWraps wraps hkc, foldlM_publishWrap_quiet wraps hquiet]

theorem Unprivileged.powerless (h : s.Unprivileged) (hna : ¬ s.ActiveAdmin) : s.Powerless where
  addPeer orders peer key role := by
    rw [Store.addPeer, authorAsAdmin_refused hna]
    exact .refl s
  setRole orders peer key role := by
    rw [Store.setRole, authorAsAdmin_refused hna]
    exact .refl s
  revokePeer orders peer key := by
    rw [Store.revokePeer, authorAsAdmin_refused hna]
    exact .refl s
  rotateEpoch seed idKey epoch0Key paperPublic := by
    rw [rotateEpoch_refused hna]
    exact .refl s
  backfillWraps wraps idKey epoch0Key := by
    rw [h.backfillWraps_quiet]
    exact .refl s
  snapshot key beforeTs nonce files := produceHeldSnapshot_refused h.role key beforeTs nonce files
  checkpoint key io beforeTs nonce files := by
    have hcut := (checkpoint_signed io beforeTs).holds s
    rw [checkpointWithBootstrap, exec_bind, produceHeldSnapshot_refused h.role]
    dsimp only
    rw [exec_bind]
    cases hop : exec (Store.checkpoint io beforeTs) s with
    | mk r s' =>
      rw [hop] at hcut
      cases r with
      | error e => exact ⟨hcut, nofun⟩
      | ok freed =>
        refine ⟨hcut, fun done files' hok => ?_⟩
        cases hok
        exact ⟨rfl, rfl⟩
  adopt io kc id framed files subsumed files' hok manifestJson ct manifest hframe hmanifest := by
    intro hauthor
    have hkeys := adminAuthorKeys_self h.role hna
    rw [← hauthor] at hkeys
    rw [verifyAndAdopt_unknown hframe hmanifest hkeys] at hok
    cases hok

theorem Powerless.wrapped (h : s.Powerless) (hkc : s.keychain idKey epoch0Key = .ok kc)
    {epoch : Bytes32} (hnode : kc.epochs[epoch]? = some node) (hepoch : epoch ≠ epoch0Id)
    (hkey : node.key.isSome) (hp : p ∈ s.peers) (hactive : p.status = .active)
    (hmember : (s.memberKey p.peerId).isSome) : node.wrappedTo.contains p.peerId = true := by
  by_contra hlacks
  rw [Bool.not_eq_true] at hlacks
  obtain ⟨k, hk⟩ := Option.isSome_iff_exists.1 hkey
  have htarget : (epoch, k, p.peerId) ∈ kc.backfillTargets s.peers :=
    mem_backfillTargets.2 ⟨hepoch, node, hnode, hk, p, hp, hactive, hlacks, rfl⟩
  obtain ⟨i, hi⟩ := List.mem_iff_getElem?.1 htarget
  have hmem : ((epoch, k, p.peerId), i) ∈ (kc.backfillTargets s.peers).zipIdx :=
    List.mem_zipIdx_iff_getElem?.2 hi
  let wraps : Nat → WrapSeed := fun _ => ⟨epoch, List.replicate 24 0, List.length_replicate⟩
  have hgrows : Leaves KeylogGrows
      ((kc.backfillTargets s.peers).zipIdx.foldlM (s.publishWrap wraps) 0) :=
    Leaves.foldlM (publishWrap_grows s wraps)
  have hlonger := foldlM_publishWrap_longer wraps hkc ⟨_, hmem, hmember⟩ 0
  have hquiet := (h.backfillWraps wraps idKey epoch0Key).keylogs
  rw [exec_backfillWraps wraps hkc] at hquiet
  rw [exportOwnKeylog, exportOwnKeylog, exportKeylog, exportKeylog, hquiet, peerId, peerId,
    (hgrows.holds s).identity] at hlonger
  exact absurd hlonger (lt_irrefl _)

/-- A device that is not an active admin signs nothing for one exactly if its role says so too and
no member lacks a wrap. -/
theorem powerless_iff (hna : ¬ s.ActiveAdmin) : (s.Unprivileged → s.Powerless) ∧
      ((∃ kc framed, s.OwnObject kc framed) → (s.Powerless ↔ s.Unprivileged)) := by
  refine ⟨fun h => h.powerless hna, fun ⟨kc, framed, hown⟩ => ⟨fun h => ⟨?_, ?_⟩,
    fun h => h.powerless hna⟩⟩
  · intro hrole
    obtain ⟨manifestJson, ct, manifest, files', hframe, hmanifest, hauthor, hok⟩ :=
      hown.adopted (adminAuthorKeys_admin hrole hown.valid) ""
    exact h.adopt _ _ _ _ _ _ _ hok _ _ _ hframe hmanifest hauthor
  · intro idKey epoch0Key kc hkc epoch node hnode hepoch hkey p hp hactive hmember
    exact h.wrapped hkc hnode hepoch hkey hp hactive hmember

end Standing

end Store

def manifestCode :
    PrefixCode ((String × String) × (List String × List String) × UInt64 × String) :=
  .pair (.pair .string .string) (.pair (.pair (.list .string) (.list .string))
    (.pair .uint64 .string))

def heldCode : PrefixCode HeldSnapshot :=
  .via (.pair .string (.list .string)) {
    toFun held := (held.id, held.subsumed)
    invFun t := ⟨t.1, t.2⟩
    left_inv _ := rfl
    right_inv _ := rfl }

def renderSigned (m : SnapshotManifest) : Bytes :=
  (plainJson manifestCode).render
    ((plainEncode m.frontierDigest.bytes, plainEncode m.snapshotCtHash.bytes),
      (m.subsumedEntryIds, m.blobRefIds), m.author, m.sig)

def parseSigned (bytes : Bytes) : Option SnapshotManifest := do
  let ((digest, ctHash), (subsumed, refs), author, sig) ←
    ((plainJson manifestCode).parse bytes).toOption
  let frontierDigest ← Bytes32.ofBytes? (← (plainDecode digest).toOption)
  let snapshotCtHash ← Bytes32.ofBytes? (← (plainDecode ctHash).toOption)
  pure { frontierDigest, snapshotCtHash, author, sig
         subsumedEntryIds := subsumed
         blobRefIds := refs }

abbrev snapshotBackend : BackendPlatform :=
  { sampleBackend with
    manifest := parseSigned
    renderManifest := renderSigned
    heldJson := plainJson heldCode
    b64UrlDecode := fun s => (plainDecode s).toOption }

namespace Store

section Sample

def sampleAdmit (n : UInt8) (role : Role) : StoreCall samplePlatform :=
  .sync (.roster (ascending, ascending)
    (.addPeer ((plainIdentity n).peerId samplePlatform) (.replicate n) role))

def sampleFollow (founder : Store samplePlatform) : List (StoreCall samplePlatform) :=
  [.sync (.importBundle ascending founder.exportAllRosters),
    .sync (.roster (ascending, ascending) (.pinFounder founder.peerId))]

def promotedVault : Store samplePlatform :=
  runAll after (sampleVault 1) [sampleFound, sampleAdmit 2 .admin]

def revokedAdmin : Store samplePlatform :=
  runAll after (sampleVault 2) (sampleFollow promotedVault ++
    [.edit .done sampleEdit, .writeSnapshot .done .done 5] ++
    sampleFollow (promotedVault.after (.sync (.roster (ascending, ascending)
      (.revokePeer ((plainIdentity 2).peerId samplePlatform) (.replicate 2))))))

def rotatedVault : Store samplePlatform :=
  (exec (rotateEpoch (sampleSeed 5) (sampleKey.idKey snapshotBackend)
    (sampleKey.epoch0Key snapshotBackend) none)
      (runAll after (sampleVault 1) [sampleFound, sampleJoin])).2.after (sampleAdmit 3 .writer)

def epochWriter : Store samplePlatform :=
  runAll after (sampleVault 2) (sampleFollow rotatedVault ++
    [.sync (.importKeylog rotatedVault.peerId rotatedVault.selfKey rotatedVault.exportOwnKeylog)])

/-- A revoked admin signs a snapshot, and a writer signs a wrap for the third device. -/
theorem revoked_and_writer_sign :
    (¬ revokedAdmin.ActiveAdmin ∧ ¬ Powerless (π := snapshotBackend) revokedAdmin) ∧
      ¬ epochWriter.ActiveAdmin ∧ ¬ Powerless (π := snapshotBackend) epochWriter := by
  refine ⟨⟨?_, ?_⟩, ?_, ?_⟩
  · rw [ActiveAdmin]
    decide +kernel
  · intro h
    have hnone := congrArg Prod.fst (h.snapshot sampleKey 9 (List.replicate 24 7) noFiles)
    have hsome : (((exec (Pass.produceHeldSnapshot (π := snapshotBackend) sampleKey 9
        (List.replicate 24 7) noFiles) revokedAdmin).1.toOption).bind Prod.fst).isSome := by
      decide +kernel
    rw [hnone] at hsome
    cases hsome
  · rw [ActiveAdmin]
    decide +kernel
  · intro h
    refine absurd (congrArg (fun keylogs => keylogs[epochWriter.peerId]?.isSome)
      (h.backfillWraps (sampleSeed 6).wraps (sampleKey.idKey snapshotBackend)
        (sampleKey.epoch0Key snapshotBackend)).keylogs) ?_
    decide +kernel

def plainWriter : Store samplePlatform :=
  runAll after (sampleVault 2)
    (sampleFollow (runAll after (sampleVault 1) [sampleFound, sampleJoin]))

def writerPayload : Bytes :=
  (sampleKey.seal snapshotBackend (List.replicate 24 7) [8]).bytes samplePlatform.crypto

def writerManifest : SnapshotManifest :=
  Pass.signManifest snapshotBackend (plainIdentity 2) {
    frontierDigest := default
    snapshotCtHash := samplePlatform.crypto.blake3 writerPayload
    subsumedEntryIds := []
    blobRefIds := []
    author := 0
    sig := "" }

def plainChain : Keychain :=
  Keychain.build samplePlatform.crypto (sampleKey.idKey snapshotBackend)
    (sampleKey.epoch0Key snapshotBackend) ((plainIdentity 2).peerId samplePlatform) default []

theorem plainWriter_facts : plainWriter.identity.secret = .replicate 2 ∧
    (samplePlatform.importUpdate plainWriter.doc [8]).toOption.isSome = true := by
  decide +kernel

theorem plainWriter_identity : plainWriter.identity = plainIdentity 2 := by
  have hsecret := plainWriter_facts.1
  cases h : plainWriter.identity with
  | mk secret =>
    rw [h] at hsecret
    exact congrArg Identity.mk hsecret

theorem plainWriter_ownObject : OwnObject (π := snapshotBackend) plainWriter plainChain
      (Pass.frame (renderSigned writerManifest) writerPayload) where
  valid := by
    rw [selfKey, plainWriter_identity]
    decide +kernel
  signed := by
    obtain ⟨doc, hdoc⟩ := exists_ok_of_toOption plainWriter_facts.2
    refine ⟨renderSigned writerManifest, writerPayload, writerManifest, ?_, ?_, ?_, ?_, ?_,
      [8], doc, _, ?_, hdoc, rfl⟩
    · decide +kernel
    · decide +kernel
    · rw [peerId, plainWriter_identity]
      decide +kernel
    · rw [selfKey, plainWriter_identity]
      decide +kernel
    · decide +kernel
    · decide +kernel

theorem plainWriter_unprivileged : Unprivileged (π := snapshotBackend) plainWriter where
  role := by decide +kernel
  wrapped := by
    intro idKey epoch0Key kc hkc epoch node hnode hepoch
    have hempty : plainWriter.mergedKeylog.toOption = some [] := by decide +kernel
    rw [keychain] at hkc
    cases hlog : plainWriter.mergedKeylog with
    | error e =>
      rw [hlog] at hkc
      cases hkc
    | ok entries =>
      rw [hlog] at hempty hkc
      cases hempty
      cases hkc
      rw [Keychain.build, epochNodes, List.foldl_nil, List.foldl_nil, get_insert,
        if_neg hepoch.symm] at hnode
      cases hnode

theorem plainWriter_powerless :
    ¬ plainWriter.ActiveAdmin ∧ Powerless (π := snapshotBackend) plainWriter := by
  have hna : ¬ plainWriter.ActiveAdmin := by
    rw [ActiveAdmin]
    decide +kernel
  apply And.intro hna
  apply ((powerless_iff (π := snapshotBackend) hna).2 ?_).2
  · exact plainWriter_unprivileged
  · exact ⟨_, _, plainWriter_ownObject⟩

end Sample

end Store

end Roam
