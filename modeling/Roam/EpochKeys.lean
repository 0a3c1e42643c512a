import Roam.EpochAgreement

namespace Roam
set_option autoImplicit true
open Library Library.Fallible

/-- A key log is imported under the one key that its author is known by. -/
def SyncCall.Keyed (keyOf : UInt64 → Bytes32) : SyncCall → Prop
  | .importKeylog author key _ => key = keyOf author
  | _ => True

namespace Store
variable {π : Platform} {s s₀ s' : Store π} {keyOf : UInt64 → Bytes32}

def afterSync (calls : List SyncCall) (s : Store π) : Store π :=
  calls.foldl (fun s c => (exec c.run s).2) s

section Runs

/-- What a run does to the key logs: the own log stays, the others grow and stay verified. -/
structure KeylogsGrow (keyOf : UInt64 → Bytes32) (s₀ s : Store π) : Prop where
  identity : s.identity = s₀.identity
  own : s.disk.keylogs[s₀.peerId]? = s₀.disk.keylogs[s₀.peerId]?
  grows : ∀ (a : UInt64) (bytes : Bytes), s₀.disk.keylogs[a]? = some bytes →
    ∃ bytes', s.disk.keylogs[a]? = some bytes' ∧ bytes <+: bytes'
  verified : ∀ (a : UInt64) (bytes : Bytes), a ≠ s₀.peerId → s.disk.keylogs[a]? = some bytes →
    ∃ es, verifyBytes π (keyReader π a (keyOf a)) bytes = .ok es

theorem KeylogsGrow.peerId (h : KeylogsGrow keyOf s₀ s) : s.peerId = s₀.peerId := by
  rw [Store.peerId, Store.peerId, h.identity]

theorem KeylogsGrow.selfKey (h : KeylogsGrow keyOf s₀ s) : s.selfKey = s₀.selfKey := by
  rw [Store.selfKey, Store.selfKey, h.identity]

theorem KeylogsGrow.keep (h : KeylogsGrow keyOf s₀ s) (hk : s'.content = s.content) :
    KeylogsGrow keyOf s₀ s' := by
  have hid : s'.identity = s.identity := content_congr Store.identity (fun _ => rfl) hk
  have hlogs : s'.disk.keylogs = s.disk.keylogs :=
    content_congr (fun s => s.disk.keylogs) (fun _ => rfl) hk
  exact {
    identity := hid.trans h.identity
    own := hlogs ▸ h.own
    grows := hlogs ▸ h.grows
    verified := hlogs ▸ h.verified }

theorem KeylogsGrow.withKeylog (h : KeylogsGrow keyOf s₀ s) (ha : author ≠ s.peerId)
    (he : ∀ existing, s.disk.keylogs[author]? = some existing → existing <+: bytes)
    (hv : verifyBytes π (keyReader π author (keyOf author)) bytes = .ok es) :
    KeylogsGrow keyOf s₀ (s.withKeylog author bytes) := by
  have hget (a : UInt64) : (s.withKeylog author bytes).disk.keylogs[a]? =
      if author = a then some bytes else s.disk.keylogs[a]? := by
    simp only [Store.withKeylog, get_insert]
  exact {
    identity := h.identity
    own := by
      rw [hget, if_neg (h.peerId ▸ ha)]
      exact h.own
    grows := by
      intro a old ho
      obtain ⟨stored, hs, hp⟩ := h.grows a old ho
      rw [hget]
      split
      next heq =>
        subst heq
        exact ⟨bytes, rfl, hp.trans (he stored hs)⟩
      next => exact ⟨stored, hs, hp⟩
    verified := by
      intro a stored hne hs
      rw [hget] at hs
      split at hs
      next heq =>
        cases hs
        subst heq
        exact ⟨es, hv⟩
      next => exact h.verified a stored hne hs }

theorem KeylogsGrow.step (h : KeylogsGrow keyOf s₀ s) {c : SyncCall} (hc : c.Keyed keyOf) :
    KeylogsGrow keyOf s₀ (exec c.run s).2 := by
  cases c with
  | roster orders c => exact h.keep (rosterCall_rostered orders c s).content
  | importRoster order author key bytes =>
    exact h.keep (importRoster_rostered order author key bytes s).content
  | importBundle order logs => exact h.keep (importRosterBundle_rostered order logs s).content
  | importKeylog author key bytes =>
    rw [SyncCall.run, exec_importKeylog]
    split
    next => exact h
    next ha =>
      split
      next => exact h
      next hext =>
        split
        next => exact h
        next es hv =>
          have hkey : key = keyOf author := hc
          rw [hkey] at hv
          exact h.withKeylog ha (checkExtends_ok_iff.1 hext) hv

theorem KeylogsGrow.afterSync (h : KeylogsGrow keyOf s₀ s) (hc : ∀ c ∈ calls, c.Keyed keyOf) :
    KeylogsGrow keyOf s₀ (afterSync calls s) := by
  induction calls generalizing s with
  | nil => exact h
  | cons c calls ih =>
    exact ih (h.step (hc c List.mem_cons_self)) fun c hm => hc c (List.mem_cons_of_mem _ hm)

end Runs

section Kept

def CleanKeylogs (keyOf : UInt64 → Bytes32) (s : Store π) : Prop :=
  ∀ (a : UInt64) (bytes : Bytes), a ≠ s.peerId → s.disk.keylogs[a]? = some bytes →
    Terminated 10 bytes ∧ ∃ es, verifyBytes π (keyReader π a (keyOf a)) bytes = .ok es

def FoldsAuthor (s : Store π) (author : UInt64) : Prop :=
  author = s.peerId ∨
    ∃ p ∈ s.peers, p.peerId = author ∧ p.status = .active ∧ p.role = .admin

def KeyedPeers (keyOf : UInt64 → Bytes32) (s : Store π) : Prop :=
  ∀ p ∈ s.peers, p.verifyingKey = keyOf p.peerId

theorem CleanKeylogs.grow (h : s.CleanKeylogs keyOf) : KeylogsGrow keyOf s s where
  identity := rfl
  own := rfl
  grows := fun _ bytes hb => ⟨bytes, hb, List.prefix_rfl⟩
  verified := fun a bytes ha hb => (h a bytes ha hb).2

variable (hg : KeylogsGrow keyOf s s') (hm : s.mergedKeylog = .ok entries)
include hg hm

theorem KeylogsGrow.merged (hk' : s'.KeyedPeers keyOf) :
    ∃ entries', s'.mergedKeylog = .ok entries' := by
  apply mergedKeylog_ok
  intro a key hf
  cases hf with
  | own =>
    rw [mergedKeylog_eq, except_bind_eq_ok] at hm
    obtain ⟨own, hown, _⟩ := hm
    rw [readKeylog, hg.peerId, hg.selfKey, hg.own]
    exact ⟨own, hown⟩
  | admin p hp hs hr hne hv =>
    rw [hg.peerId] at hne
    rw [readKeylog, hk' p hp]
    cases hget : s'.disk.keylogs[p.peerId]? with
    | none => exact ⟨[], rfl⟩
    | some bytes =>
      obtain ⟨es, hes⟩ := hg.verified _ bytes hne hget
      exact ⟨es, readVerified_of_verifyBytes hes⟩

theorem KeylogsGrow.mem_merged (hclean : s.CleanKeylogs keyOf) (hk : s.KeyedPeers keyOf)
    (hk' : s'.KeyedPeers keyOf) (hm' : s'.mergedKeylog = .ok entries') (hx : x ∈ entries)
    (hf' : s'.FoldsAuthor x.author) : x ∈ entries' := by
  rw [mem_mergedKeylog hm']
  obtain ⟨a, key, hf, es, hes, hx⟩ := (mem_mergedKeylog hm).1 hx
  rw [readKeylog_author hes hx] at hf'
  cases hf with
  | own =>
    refine ⟨_, _, .own, es, ?_, hx⟩
    rw [readKeylog, hg.peerId, hg.selfKey, hg.own]
    exact hes
  | admin p hp hs hr hne hv =>
    cases hf' with
    | inl hself => exact absurd (hself.trans hg.peerId) hne
    | inr hadmin =>
      obtain ⟨q, hq, hid, hqs, hqr⟩ := hadmin
      have hkey : q.verifyingKey = p.verifyingKey := by rw [hk' q hq, hid, ← hk p hp]
      have hqne : q.peerId ≠ s'.peerId := by
        rw [hid, hg.peerId]
        exact hne
      refine ⟨_, _, .admin q hq hqs hqr hqne (hkey ▸ hv), ?_⟩
      rw [hid, hkey]
      cases hget : s.disk.keylogs[p.peerId]? with
      | none =>
        rw [readKeylog, hget] at hes
        cases hes
        cases hx
      | some bytes =>
        obtain ⟨ht, es₀, hv₀⟩ := hclean _ bytes hne hget
        obtain ⟨bytes', hget', hpre⟩ := hg.grows _ bytes hget
        obtain ⟨es', hv'⟩ := hg.verified _ bytes' hne hget'
        rw [← hk p hp] at hv₀ hv'
        rw [readKeylog, hget, readVerified_of_verifyBytes hv₀] at hes
        cases hes
        have hext : es <+: es' := by
          rw [verifyBytes] at hv₀ hv'
          split at hv₀
          next =>
            split at hv'
            next => exact LineReader.readText_extend ht hpre hv₀ hv'
            next => cases hv'
          next => cases hv₀
        refine ⟨es', ?_, hext.subset hx⟩
        rw [readKeylog, hget']
        exact readVerified_of_verifyBytes hv'

end Kept

section Retained

/-- An epoch that a run leaves alone: whoever wrote about it is still folded, and no `rotate` of
the epoch says anything else than the one that announced it before. -/
structure Undisturbed (s' : Store π) (entries entries' : List KeyLogEntry) (epoch : Bytes32) :
    Prop where
  folded : ∀ x ∈ entries, x.epochId = epoch → s'.FoldsAuthor x.author
  agreed : ∀ x ∈ entries', x.epochId = epoch → ∀ rot, x.rotation? = some rot →
    firstRotate entries epoch = some rot

theorem Undisturbed.firstRotate (hu : Undisturbed s' entries entries' epoch)
    (hkept : ∀ x ∈ entries, s'.FoldsAuthor x.author → x ∈ entries')
    (h : firstRotate entries epoch = some rot) : firstRotate entries' epoch = some rot := by
  obtain ⟨x, hx, hid, hr⟩ := firstRotate_mem h
  have hx' := hkept x hx (hu.folded x hx hid)
  obtain ⟨rot', h'⟩ := firstRotate_isSome hx' hid hr
  obtain ⟨y, hy, hid', hr'⟩ := firstRotate_mem h'
  rw [h', ← h, hu.agreed y hy hid' rot' hr']

/-- Over every run of roster calls and imports an undisturbed epoch keeps its key, and the head
does not fall back to epoch 0 while an undisturbed rotation descends from it and no epoch descends
from itself. -/
theorem epochKey_after_sync (hcommit : CommitsToKey π.crypto) (hclean : s.CleanKeylogs keyOf)
    (hk : s.KeyedPeers keyOf) (hm : s.mergedKeylog = .ok entries)
    (hkc : s.keychain idKey epoch0Key = .ok kc) (hc : ∀ c ∈ calls, c.Keyed keyOf)
    (hs' : s' = afterSync calls s) (hk' : s'.KeyedPeers keyOf) :
    ∃ entries' kc', s'.mergedKeylog = .ok entries' ∧ s'.keychain idKey epoch0Key = .ok kc' ∧
      (∀ epoch k, Undisturbed s' entries entries' epoch → kc.epochKey epoch = some k →
        kc'.epochKey epoch = some k) ∧
      (∀ child rot, child ≠ epoch0Id → firstRotate entries child = some rot →
        epoch0Id ∈ rot.parents → Undisturbed s' entries entries' child → NoCycle entries' →
          kc'.head ≠ epoch0Id) := by
  have hg : KeylogsGrow keyOf s s' := hs' ▸ hclean.grow.afterSync hc
  obtain ⟨entries', hm'⟩ := hg.merged hm hk'
  have hkept : ∀ x ∈ entries, s'.FoldsAuthor x.author → x ∈ entries' :=
    fun x hx => hg.mem_merged hm hclean hk hk' hm' hx
  rw [keychain_eq hm] at hkc
  cases hkc
  refine ⟨entries', _, hm', keychain_eq hm' .., ?_, ?_⟩
  · intro epoch k hu hkey
    rw [hg.peerId, hg.identity]
    by_cases he : epoch = epoch0Id
    · rw [he, epochKey_epoch0] at hkey
      rw [he, epochKey_epoch0]
      exact hkey
    · obtain ⟨rot, hr, x, hx, hid, hd⟩ := epochKey_inv he hkey
      exact epochKey_of_delivered hcommit he (hu.firstRotate hkept hr)
        (hkept x hx (hu.folded x hx hid)) hid hd
  · intro child rot hne hr hroot hu hacyclic
    have hr' := hu.firstRotate hkept hr
    apply selectHead_ne_epoch0_iff.2
    exact ⟨⟨child, rot, hne, hr', hroot⟩,
      hacyclic.exists_leaf ⟨hne, Option.isSome_iff_exists.2 ⟨rot, hr'⟩⟩⟩

end Retained

section Sample
open Network

theorem plainCrypto_commits : CommitsToKey plainCrypto := by
  have hid (parents : List Bytes32) (mintedBy : UInt64) (nonce k : Bytes32) :
      computeEpochId plainCrypto parents mintedBy nonce k = k := by
    simp only [computeEpochId, plainCrypto, List.length_append, k.size, Nat.add_sub_cancel]
    rw [← List.length_append, ← List.length_append, List.drop_left, Bytes32.ofBytes?,
      dif_pos k.size, Option.getD_some]
  intro parents mintedBy nonce k k' h
  rwa [hid, hid] at h

def rotatedStore : Store openPlatform :=
  (exec (importKeylog (pairId true) (pairKey (pairId true)) rotationLog)
    ((run promoteMoves).stores false)).2

def rotatedEntries : List KeyLogEntry := rotatedStore.mergedKeylog.toOption.getD []

def growCalls : List SyncCall :=
  [.roster ascendingOrders (.addPeer (derivedPeerId (.replicate 3)) (.replicate 3) .reader)]

theorem rotatedStore_facts : rotatedStore.mergedKeylog = .ok rotatedEntries ∧
      (afterSync growCalls rotatedStore).mergedKeylog = .ok rotatedEntries ∧
      (∀ p ∈ rotatedStore.peers, p.verifyingKey = pairKey p.peerId) ∧
      (∀ p ∈ (afterSync growCalls rotatedStore).peers, p.verifyingKey = pairKey p.peerId) ∧
      (∀ p ∈ rotatedStore.disk.keylogs.toList, p.2.getLast? = some 10 ∧
        (verifyBytes openPlatform (keyReader openPlatform p.1 (pairKey p.1))
          p.2).toOption.isSome = true) ∧
      (∀ x ∈ rotatedEntries, x.author = (afterSync growCalls rotatedStore).peerId ∨
        ∃ p ∈ (afterSync growCalls rotatedStore).peers,
          p.peerId = x.author ∧ p.status = .active ∧ p.role = .admin) ∧
      (∀ x ∈ rotatedEntries, x.rotation? = none ∨
        x.rotation? = firstRotate rotatedEntries (.replicate 9)) ∧
      (Keychain.build openPlatform.crypto default default rotatedStore.peerId
        (openPlatform.x25519Secret rotatedStore.identity.secret) rotatedEntries).epochKey
          (.replicate 9) = some (.replicate 9) := by
  decide +kernel

theorem epochKey_after_sync_grown :
    ∃ kc', (afterSync growCalls rotatedStore).keychain default default = .ok kc' ∧
      kc'.epochKey (.replicate 9) = some (.replicate 9) := by
  obtain ⟨hm, hm', hk, hk', hlogs, hfolded, hrotate, hheld⟩ := rotatedStore_facts
  have hclean : rotatedStore.CleanKeylogs pairKey := by
    intro a bytes _ hb
    obtain ⟨ht, hv⟩ := hlogs (a, bytes) (Std.TreeMap.mem_toList_iff_getElem?_eq_some.2 hb)
    exact ⟨.inr ht, exists_ok_of_toOption hv⟩
  have hkeyed : ∀ c ∈ growCalls, c.Keyed pairKey := by
    intro c hc
    cases List.mem_singleton.1 hc
    trivial
  obtain ⟨entries', kc', hentries, hkc', hkey, _⟩ :=
    epochKey_after_sync plainCrypto_commits hclean hk hm (keychain_eq hm default default) hkeyed
      rfl hk'
  have heq : entries' = rotatedEntries := Except.ok.inj (hentries.symm.trans hm')
  rw [heq] at hkey
  refine ⟨kc', hkc', hkey _ _ ⟨fun x hx _ => hfolded x hx, ?_⟩ hheld⟩
  intro x hx _ rot hr
  cases hrotate x hx with
  | inl hnone => cases hnone.symm.trans hr
  | inr hsame => exact hsame.symm.trans hr

/-- The founder demotes the device that rotated the epoch: the key is gone, and the founder
writes under epoch 0 again. -/
theorem epochKey_lost_after_setRole : Reachable pairKey pairIds [] (run promoteMoves) ∧
      (exec (importKeylog (pairId true) (pairKey (pairId true)) rotationLog)
        ((run promoteMoves).stores false)).1 = .ok () ∧
      (rotatedStore.keychain default default).toOption.map
        (fun kc => (kc.epochKey (.replicate 9), kc.head)) =
          some (some (.replicate 9), .replicate 9) ∧
      (exec (setRole ascendingOrders (pairId true) (pairKey (pairId true)) .writer)
        rotatedStore).1 = .ok () ∧
      ((exec (setRole ascendingOrders (pairId true) (pairKey (pairId true)) .writer)
          rotatedStore).2.keychain default default).toOption.map
        (fun kc => (kc.epochKey (.replicate 9), kc.head)) = some (none, epoch0Id) := by
  refine ⟨run_reachable promoteMoves_keyed, ?_⟩
  decide +kernel

end Sample

end Store

end Roam
