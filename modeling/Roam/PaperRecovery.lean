import Roam.EpochKeys
import Roam.TrustLogs
import Roam.Backfill

namespace Roam
set_option autoImplicit true
open Library Library.Fallible

theorem keyMatchesEpoch_iff {c : Crypto} :
    (Keychain.build c idKey epoch0Key peer secret entries).keyMatchesEpoch c epoch key = true ↔
      epoch ≠ epoch0Id ∧ ∃ rot, firstRotate entries epoch = some rot ∧
        c.blake3 (rot.preimage key) = epoch := by
  rw [Keychain.keyMatchesEpoch]
  split
  next h0 => exact ⟨nofun, fun h => absurd h0 h.1⟩
  next hne =>
    have hnode : (Keychain.build c idKey epoch0Key peer secret entries).epochs[epoch]? =
        (epochNodes c epoch0Key peer secret entries)[epoch]? := rfl
    rw [and_iff_right hne, hnode]
    cases hget : (epochNodes c epoch0Key peer secret entries)[epoch]? with
    | none =>
      refine ⟨nofun, ?_⟩
      rintro ⟨rot, hrot, _⟩
      rw [epochNodes_getElem?, announcedNode, if_neg hne, hrot] at hget
      cases hget
    | some node =>
      rw [node_rotation hne hget]
      simp only [Option.some.injEq, exists_eq_left']
      exact decide_eq_true_iff

namespace Store
variable {π : Platform} {s s' : Store π}

def paperKey (π : Platform) (kc : Keychain) (paperSecret : Bytes32) (entry : KeyLogEntry) :
    Option Bytes32 :=
  match entry.body with
  | .wrap .paper blob =>
      (unwrap π.crypto paperSecret blob).filter (kc.keyMatchesEpoch π.crypto entry.epochId)
  | _ => none

theorem paperKey_eq_some : paperKey π kc paperSecret entry = some key ↔
      kc.keyMatchesEpoch π.crypto entry.epochId key = true ∧
        ∃ blob, entry.body = .wrap .paper blob ∧ unwrap π.crypto paperSecret blob = some key := by
  rw [paperKey]
  split
  next blob hbody =>
    rw [Option.filter_eq_some_iff, and_comm]
    apply and_congr_right
    intro _
    constructor
    · exact fun h => ⟨blob, hbody, h⟩
    · rintro ⟨blob', hbody', h⟩
      cases hbody.symm.trans hbody'
      exact h
  next hother =>
    refine ⟨nofun, ?_⟩
    rintro ⟨_, blob, hbody, _⟩
    exact absurd hbody (hother blob)

/-- An epoch that the key chain does not hold, and the key that the paper secret opens a wrap of it
to: the log announces the epoch, and its id commits to the key. -/
structure Recovers (π : Platform) (kc : Keychain) (paperSecret : Bytes32)
    (entries : List KeyLogEntry)
    (epoch key : Bytes32) : Prop where
  unheld : kc.epochKey epoch = none
  committed : kc.keyMatchesEpoch π.crypto epoch key = true
  opened : ∃ entry ∈ entries, entry.epochId = epoch ∧
    ∃ blob, entry.body = .wrap .paper blob ∧ unwrap π.crypto paperSecret blob = some key

theorem Recovers.mono (h : Recovers π kc paperSecret entries epoch key)
    (hsub : entries ⊆ entries') : Recovers π kc paperSecret entries' epoch key := by
  obtain ⟨entry, hentry, hopened⟩ := h.opened
  exact ⟨h.unheld, h.committed, entry, hsub hentry, hopened⟩

section Items
variable {kc : Keychain} {wraps : Nat → WrapSeed} {paperSecret : Bytes32}
  {entries : List KeyLogEntry}
  {acc : Nat × List Bytes32}

def recoverItems (s : Store π) (kc : Keychain) (wraps : Nat → WrapSeed) (paperSecret : Bytes32) :
    Nat × List Bytes32 → List KeyLogEntry → List (Bytes32 × KeyBody)
  | _, [] => []
  | acc, entry :: entries =>
    if entry.epochId ∈ acc.2 ∨ (kc.epochKey entry.epochId).isSome then
      s.recoverItems kc wraps paperSecret acc entries
    else
      match paperKey π kc paperSecret entry with
      | none => s.recoverItems kc wraps paperSecret acc entries
      | some key =>
        (entry.epochId, .wrap (.device s.peerId) (wrap π.crypto (wraps acc.1) (π.toX25519 s.selfKey)
          key)) ::
          s.recoverItems kc wraps paperSecret (acc.1 + 1, entry.epochId :: acc.2) entries

theorem recoverEntry_eq (acc : Nat × List Bytes32) (entry : KeyLogEntry) :
    s.recoverEntry kc wraps paperSecret acc entry =
      if entry.epochId ∈ acc.2 ∨ (kc.epochKey entry.epochId).isSome then pure acc
      else
        match paperKey π kc paperSecret entry with
        | none => pure acc
        | some key =>
          appendKeylog entry.epochId (.wrap (.device s.peerId)
            (wrap π.crypto (wraps acc.1) (π.toX25519 s.selfKey) key)) >>= fun _ =>
          pure (acc.1 + 1, entry.epochId :: acc.2) := by
  obtain ⟨seq, author, epochId, body⟩ := entry
  rw [recoverEntry]
  split
  next => rfl
  next =>
    cases body with
    | rotate parentEpochs nonce => rfl
    | wrap recipient blob =>
      cases recipient with
      | device peer => rfl
      | paper =>
        rw [paperKey]
        dsimp only
        cases unwrap π.crypto paperSecret blob with
        | none => rfl
        | some key =>
          dsimp only
          rw [Option.filter_some]
          split
          next => rfl
          next => rfl

theorem foldlM_recoverEntry (entries : List KeyLogEntry) (acc : Nat × List Bytes32) (t : Store π) :
    ∃ done, exec (entries.foldlM (s.recoverEntry kc wraps paperSecret) acc) t =
      exec (appendAll (s.recoverItems kc wraps paperSecret acc entries) >>= fun _ =>
        pure (acc.1 + (s.recoverItems kc wraps paperSecret acc entries).length, done)) t := by
  induction entries generalizing acc t with
  | nil => exact ⟨acc.2, rfl⟩
  | cons entry entries ih =>
    rw [List.foldlM_cons, recoverEntry_eq, recoverItems]
    split
    next =>
      rw [pure_bind]
      exact ih acc t
    next =>
      cases paperKey π kc paperSecret entry with
      | none =>
        dsimp only
        rw [pure_bind]
        exact ih acc t
      | some key =>
        dsimp only
        rw [bind_assoc, exec_bind]
        cases happend : exec (appendKeylog entry.epochId (.wrap (.device s.peerId)
            (wrap π.crypto (wraps acc.1) (π.toX25519 s.selfKey) key))) t with
        | mk result t' =>
          cases result with
          | error err =>
            refine ⟨[], ?_⟩
            rw [appendAll_cons, bind_assoc, exec_bind, happend]
          | ok _ =>
            dsimp only
            rw [pure_bind]
            obtain ⟨done, hrest⟩ := ih (acc.1 + 1, entry.epochId :: acc.2) t'
            refine ⟨done, hrest.trans ?_⟩
            rw [appendAll_cons, bind_assoc, exec_bind (s := t), happend, List.length_cons,
              Nat.add_right_comm]
            rfl

theorem recoverWithPaper_ok_iff (hkc : s.keychain idKey epoch0Key = .ok kc)
    (hmerged : s.mergedKeylog = .ok entries) :
    exec (recoverWithPaper wraps paperSecret idKey epoch0Key) s = (.ok n, s') ↔
      n = (s.recoverItems kc wraps paperSecret (0, []) entries).length ∧
        exec (appendAll (s.recoverItems kc wraps paperSecret (0, []) entries)) s =
          (.ok (), s') := by
  obtain ⟨done, hfold⟩ :
      ∃ done, exec (entries.foldlM (s.recoverEntry kc wraps paperSecret) (0, [])) s = _ :=
        foldlM_recoverEntry entries _ s
  rw [recoverWithPaper, exec_bind, exec_get]
  dsimp only
  rw [exec_bind, exec_ofResult, hkc]
  dsimp only
  rw [exec_bind, exec_ofResult, hmerged]
  dsimp only
  rw [exec_bind, hfold, exec_bind, Nat.zero_add]
  cases exec (appendAll (s.recoverItems kc wraps paperSecret (0, []) entries)) s with
  | mk result t =>
    cases result with
    | error err => exact iff_of_false (by rintro ⟨⟩) (by rintro ⟨_, ⟨⟩⟩)
    | ok u =>
      constructor
      · intro h
        cases h
        exact ⟨rfl, rfl⟩
      · rintro ⟨rfl, h⟩
        cases h
        rfl

theorem recoverItems_nodup (acc : Nat × List Bytes32) :
    ((s.recoverItems kc wraps paperSecret acc entries).map Prod.fst).Nodup ∧
    ∀ item ∈ s.recoverItems kc wraps paperSecret acc entries, item.1 ∉ acc.2 := by
  induction entries generalizing acc with
  | nil => exact ⟨.nil, nofun⟩
  | cons entry entries ih =>
    rw [recoverItems]
    split
    next => exact ih acc
    next hnew =>
      cases paperKey π kc paperSecret entry with
      | none => exact ih acc
      | some key =>
        obtain ⟨hnodup, hnotin⟩ := ih (acc.1 + 1, entry.epochId :: acc.2)
        constructor
        · rw [List.map_cons, List.nodup_cons]
          refine ⟨?_, hnodup⟩
          intro hmem
          obtain ⟨item, hitem, hid⟩ := List.mem_map.1 hmem
          apply hnotin item hitem
          rw [hid]
          exact List.mem_cons_self
        · intro item hitem
          rcases List.mem_cons.1 hitem with rfl | hitem
          · exact fun h => hnew (.inl h)
          · exact fun h => hnotin item hitem (List.mem_cons_of_mem _ h)

theorem mem_recoverItems (h : item ∈ s.recoverItems kc wraps paperSecret acc entries) :
    ∃ key seed, Recovers π kc paperSecret entries item.1 key ∧
      item.2 = .wrap (.device s.peerId) (wrap π.crypto seed (π.toX25519 s.selfKey) key) := by
  induction entries generalizing acc with
  | nil => cases h
  | cons entry entries ih =>
    have htail (acc) (h : item ∈ s.recoverItems kc wraps paperSecret acc entries) :
        ∃ key seed, Recovers π kc paperSecret (entry :: entries) item.1 key ∧
          item.2 = .wrap (.device s.peerId) (wrap π.crypto seed (π.toX25519 s.selfKey) key) := by
      obtain ⟨key, seed, hrecovers, hbody⟩ := ih h
      exact ⟨key, seed, hrecovers.mono (List.subset_cons_self _ _), hbody⟩
    rw [recoverItems] at h
    split at h
    next => exact htail _ h
    next hnew =>
      cases hkey : paperKey π kc paperSecret entry with
      | none =>
        rw [hkey] at h
        exact htail _ h
      | some key =>
        rw [hkey] at h
        rcases List.mem_cons.1 h with rfl | h
        · obtain ⟨hmatches, hopened⟩ := paperKey_eq_some.1 hkey
          have hunheld : kc.epochKey entry.epochId = none :=
            Option.not_isSome_iff_eq_none.1 fun hheld => hnew (.inr hheld)
          exact ⟨key, _, ⟨hunheld, hmatches, entry, List.mem_cons_self, rfl, hopened⟩, rfl⟩
        · exact htail _ h

theorem exists_recoverItem (s : Store π) (wraps : Nat → WrapSeed) (acc : Nat × List Bytes32)
    (h : Recovers π kc paperSecret entries epoch key) (hnew : epoch ∉ acc.2) :
    ∃ item ∈ s.recoverItems kc wraps paperSecret acc entries, item.1 = epoch := by
  obtain ⟨hunheld, hmatches, entry, hentry, hid, hopened⟩ := h
  induction entries generalizing acc with
  | nil => cases hentry
  | cons x entries ih =>
    rw [recoverItems]
    rcases List.mem_cons.1 hentry with rfl | hentry
    · subst hid
      rw [if_neg (by rw [hunheld]; simp [hnew]), paperKey_eq_some.2 ⟨hmatches, hopened⟩]
      exact ⟨_, List.mem_cons_self, rfl⟩
    · split
      next => exact ih acc hnew hentry
      next =>
        cases paperKey π kc paperSecret x with
        | none => exact ih acc hnew hentry
        | some key' =>
          by_cases hx : x.epochId = epoch
          · exact ⟨_, List.mem_cons_self, hx⟩
          · have hnew' : epoch ∉ x.epochId :: acc.2 := by
              rw [List.mem_cons]
              rintro (rfl | hdone)
              · exact hx rfl
              · exact hnew hdone
            obtain ⟨item, hitem, hid'⟩ := ih (acc.1 + 1, x.epochId :: acc.2) hnew' hentry
            exact ⟨item, List.mem_cons_of_mem _ hitem, hid'⟩

theorem recoverItems_length : (s.recoverItems kc wraps paperSecret (0, []) entries).length =
      Set.ncard {epoch | ∃ key, Recovers π kc paperSecret entries epoch key} := by
  have hset : {epoch | ∃ key, Recovers π kc paperSecret entries epoch key} =
      {epoch | epoch ∈ ((s.recoverItems kc wraps paperSecret (0, []) entries).map
        Prod.fst).toFinset} := by
    ext epoch
    simp only [Set.mem_ofPred_eq, List.mem_toFinset, List.mem_map]
    constructor
    · rintro ⟨key, h⟩
      exact exists_recoverItem s wraps (0, []) h List.not_mem_nil
    · rintro ⟨item, hitem, rfl⟩
      obtain ⟨key, _, hrecovers, _⟩ := mem_recoverItems hitem
      exact ⟨key, hrecovers⟩
  rw [hset, Finset.setOfPred_mem, Set.ncard_coe_finset,
    List.toFinset_card_of_nodup (recoverItems_nodup _).1, List.length_map]

theorem recoverItems_eq_nil_iff : s.recoverItems kc wraps paperSecret (0, []) entries = [] ↔
      ∀ epoch key, ¬ Recovers π kc paperSecret entries epoch key := by
  rw [List.eq_nil_iff_forall_not_mem]
  constructor
  · intro h epoch key hrecovers
    obtain ⟨item, hitem, _⟩ := exists_recoverItem s wraps (0, []) hrecovers List.not_mem_nil
    exact h item hitem
  · intro h item hitem
    obtain ⟨key, _, hrecovers, _⟩ := mem_recoverItems hitem
    exact h _ key hrecovers

theorem recoverItems_onlyWraps
    (h : List.Forall₂ (Signed s.peerId) (s.recoverItems kc wraps paperSecret acc entries) news) :
    OnlyWraps news := by
  apply onlyWraps_of_signed h
  intro item hitem
  obtain ⟨_, _, _, hbody⟩ := mem_recoverItems hitem
  exact ⟨_, _, hbody⟩

end Items

section Keys
variable {idKey epoch0Key paperSecret : Bytes32} {wraps : Nat → WrapSeed}
  {own news others : List KeyLogEntry}

theorem Recovers.ne_epoch0
    (h : Recovers π (keysOf π s.identity idKey epoch0Key entries) paperSecret entries' epoch key) :
    epoch ≠ epoch0Id :=
  (keyMatchesEpoch_iff.1 h.committed).1

theorem Recovers.unique (hcommit : CommitsToKey π.crypto)
    (h : Recovers π (keysOf π s.identity idKey epoch0Key entries) paperSecret entries' epoch key)
    (h' : Recovers π (keysOf π s.identity idKey epoch0Key entries) paperSecret entries' epoch
      key') : key' = key := by
  obtain ⟨_, rot, hrot, hkey⟩ := keyMatchesEpoch_iff.1 h.committed
  obtain ⟨_, rot', hrot', hkey'⟩ := keyMatchesEpoch_iff.1 h'.committed
  cases hrot.symm.trans hrot'
  exact hcommit _ _ _ _ _ (hkey'.trans hkey.symm)

section Recovered
variable (hnews : List.Forall₂ (Signed s.peerId)
  (s.recoverItems (keysOf π s.identity idKey epoch0Key (own ++ others)) wraps paperSecret (0,
    []) (own ++ others)) news)
include hnews

theorem recovers_of_mem_news (hx : x ∈ news) : ∃ key seed,
      Recovers π (keysOf π s.identity idKey epoch0Key (own ++ others)) paperSecret (own ++ others)
        x.epochId key ∧
      x.body = .wrap (.device s.peerId) (wrap π.crypto seed (π.toX25519 s.selfKey) key) := by
  obtain ⟨item, hitem, hsigned⟩ := exists_right_of_forall₂ hnews.flip hx
  obtain ⟨key, seed, hrecovers, hbody⟩ := mem_recoverItems hitem
  rw [hsigned.epochId, hsigned.body]
  exact ⟨key, seed, hrecovers, hbody⟩

theorem epochKey_recovered (hcommit : CommitsToKey π.crypto)
    (hopens : ∀ secret seed key, unwrap π.crypto (π.x25519Secret secret)
      (wrap π.crypto seed (π.toX25519 (π.publicKey secret)) key) = some key) (epoch key : Bytes32) :
    (keysOf π s.identity idKey epoch0Key (own ++ news ++ others)).epochKey epoch = some key ↔
      (keysOf π s.identity idKey epoch0Key (own ++ others)).epochKey epoch = some key ∨
        Recovers π (keysOf π s.identity idKey epoch0Key (own ++ others)) paperSecret (own ++
          others) epoch key := by
  have hwraps := recoverItems_onlyWraps hnews
  by_cases he : epoch = epoch0Id
  · subst he
    rw [keysOf, keysOf, epochKey_epoch0, epochKey_epoch0, or_iff_left]
    exact fun h => h.ne_epoch0 rfl
  by_cases hrecover :
      ∃ key, Recovers π (keysOf π s.identity idKey epoch0Key (own ++ others)) paperSecret
      (own ++ others) epoch key
  · obtain ⟨key₀, hrecovers⟩ := hrecover
    obtain ⟨item, hitem, hid⟩ := exists_recoverItem s wraps (0, []) hrecovers List.not_mem_nil
    obtain ⟨x, hx, hsigned⟩ := exists_right_of_forall₂ hnews hitem
    obtain ⟨_, rot, hrot, hcommits⟩ := keyMatchesEpoch_iff.1 hrecovers.committed
    -- every entry of the recovery about the epoch delivers the one key
    have hdelivers (y : KeyLogEntry) (hy : y ∈ news) (hy_id : y.epochId = epoch) :
        delivery π.crypto (s.identity.peerId π) (π.x25519Secret s.identity.secret) epoch rot y =
          some key₀ := by
      obtain ⟨key', seed, hrecovers', hbody⟩ := recovers_of_mem_news hnews hy
      rw [hy_id] at hrecovers'
      obtain rfl : key' = key₀ := hrecovers.unique hcommit hrecovers'
      have hopen :
          Delivers π.crypto (s.identity.peerId π) (π.x25519Secret s.identity.secret) epoch key' y :=
        ⟨hy_id, _, hbody, hopens s.identity.secret seed key'⟩
      rw [delivery, if_pos hy_id]
      exact hopen.deliveredKey hcommits
    have hnone (y : KeyLogEntry) (hy : y ∈ own ++ others) :
        delivery π.crypto (s.identity.peerId π) (π.x25519Secret s.identity.secret) epoch rot y =
          none := by
      have hunheld := hrecovers.unheld
      rw [keysOf, epochKey_eq he, hrot, Option.bind_some, List.findSome?_eq_none_iff] at hunheld
      exact hunheld y hy
    have hnew :
        (keysOf π s.identity idKey epoch0Key (own ++ news ++ others)).epochKey epoch =
          some key₀ := by
      apply hwraps.epochKey_new he hrot hnone hx (hdelivers x hx (hsigned.epochId.trans hid))
      intro y hy key' hkey'
      exact Option.some.inj (hkey'.symm.trans (hdelivers y hy (wrapsTo_of_delivery hkey').1))
    rw [hnew, hrecovers.unheld, Option.some.injEq]
    constructor
    · rintro rfl
      exact .inr hrecovers
    · rintro (h | h)
      · cases h
      · exact h.unique hcommit hrecovers
  · have hothers (x : KeyLogEntry) (hx : x ∈ news) : ¬ WrapsTo epoch (s.identity.peerId π) x := by
      rintro ⟨hid, _⟩
      obtain ⟨key', _, hrecovers, _⟩ := recovers_of_mem_news hnews hx
      rw [hid] at hrecovers
      exact hrecover ⟨key', hrecovers⟩
    rw [keysOf, hwraps.epochKey_eq he hothers]
    exact (or_iff_left fun h => hrecover ⟨key, h⟩).symm

theorem nothing_left (hcommit : CommitsToKey π.crypto)
    (hopens : ∀ secret seed key, unwrap π.crypto (π.x25519Secret secret)
      (wrap π.crypto seed (π.toX25519 (π.publicKey secret)) key) = some key) (epoch key : Bytes32) :
    ¬ Recovers π (keysOf π s.identity idKey epoch0Key (own ++ news ++ others)) paperSecret (own ++
      news ++ others) epoch key := by
  intro h
  have hkeys := epochKey_recovered hnews hcommit hopens epoch
  -- the entry is not one of the recovery, which wraps to the device
  have hold : Recovers π (keysOf π s.identity idKey epoch0Key (own ++ others)) paperSecret (own ++
      others) epoch key := by
    refine ⟨?_, ?_, ?_⟩
    · cases hheld : (keysOf π s.identity idKey epoch0Key (own ++ others)).epochKey epoch with
      | none => rfl
      | some k =>
        have hstill := (hkeys k).2 (.inl hheld)
        rw [h.unheld] at hstill
        cases hstill
    · have hcommitted := h.committed
      rw [keysOf, keyMatchesEpoch_iff, (recoverItems_onlyWraps hnews).firstRotate] at hcommitted
      exact keyMatchesEpoch_iff.2 hcommitted
    · obtain ⟨entry, hentry, hid, blob, hbody, hopened⟩ := h.opened
      refine ⟨entry, ?_, hid, blob, hbody, hopened⟩
      simp only [List.mem_append] at hentry ⊢
      rcases hentry with (hown | hnew) | hother
      · exact .inl hown
      · obtain ⟨_, _, _, hdevice⟩ := recovers_of_mem_news hnews hnew
        cases hbody.symm.trans hdevice
      · exact .inr hother
  have hheld := (hkeys key).2 (.inr hold)
  rw [h.unheld] at hheld
  cases hheld

end Recovered

end Keys

/-- A recovery that gets through leaves the keys that the device held and those of the epochs that
the paper secret opens, says how many these are, and leaves nothing to a second one: exactly if the
own key log did not end with an unfinished line, or there was nothing to recover. -/
theorem paper_recovery_iff (hπ : π.Lawful) (hjson : π.keyJson.Uncontinued)
    (hcommit : CommitsToKey π.crypto)
    (hopens : ∀ secret seed key, unwrap π.crypto (π.x25519Secret secret)
      (wrap π.crypto seed (π.toX25519 (π.publicKey secret)) key) = some key)
    (hblank : isBlank s.unfinished = true → s.unfinished = [])
    (hmerged : s.mergedKeylog = .ok entries) (hkc : s.keychain idKey epoch0Key = .ok kc)
    (hrun : exec (recoverWithPaper wraps paperSecret idKey epoch0Key) s = (.ok n, s')) :
    ((∃ kc', s'.keychain idKey epoch0Key = .ok kc' ∧ ∀ epoch key, kc'.epochKey epoch = some key ↔
          kc.epochKey epoch = some key ∨ Recovers π kc paperSecret entries epoch key) ∧
        n = Set.ncard {epoch | ∃ key, Recovers π kc paperSecret entries epoch key} ∧
        ∀ wraps', exec (recoverWithPaper wraps' paperSecret idKey epoch0Key) s' = (.ok 0, s')) ↔
      s.WholeKeylog ∨ ∀ epoch key, ¬ Recovers π kc paperSecret entries epoch key := by
  obtain ⟨rfl, happend⟩ := (recoverWithPaper_ok_iff hkc hmerged).1 hrun
  have hsame := appendAll_samePeers happend
  obtain rfl : kc = keysOf π s.identity idKey epoch0Key entries :=
    Except.ok.inj (hkc.symm.trans (keychain_eq hmerged idKey epoch0Key))
  constructor
  · rintro ⟨⟨kc', hkc', _⟩, _⟩
    obtain ⟨entries', hmerged', _⟩ := keychain_eq_ok_iff.1 hkc'
    exact ((merged_of_appendAll hπ hjson hblank happend hmerged).1 ⟨entries', hmerged'⟩).imp_right
      recoverItems_eq_nil_iff.1
  · intro hready
    obtain ⟨own, news, others, rfl, hmerged', hnews⟩ := merged_appended hπ happend hmerged
      (hready.imp_right recoverItems_eq_nil_iff.2)
    have hkc' :
        s'.keychain idKey epoch0Key =
          .ok (keysOf π s.identity idKey epoch0Key (own ++ news ++ others)) := by
      rw [keychain_eq hmerged' idKey epoch0Key, hsame.peerId, hsame.identity]
      rfl
    refine ⟨⟨_, hkc', epochKey_recovered hnews hcommit hopens⟩, recoverItems_length, ?_⟩
    intro wraps'
    have hitems :
        s'.recoverItems (keysOf π s.identity idKey epoch0Key (own ++ news ++ others)) wraps'
          paperSecret
        (0, []) (own ++ news ++ others) = [] :=
      recoverItems_eq_nil_iff.2 (nothing_left hnews hcommit hopens)
    rw [recoverWithPaper_ok_iff hkc' hmerged', hitems]
    exact ⟨rfl, rfl⟩

section Sample

def paperPlatform : Platform :=
  { boxPlatform with crypto := { boxCrypto with blake3 := plainCrypto.blake3 } }

theorem paperPlatform_lawful : paperPlatform.Lawful := by
  obtain ⟨roster, key, op, hb64, hsize, hverify, hvalid⟩ := boxPlatform_lawful
  exact ⟨roster, key, op, hb64, hsize, hverify, hvalid⟩

theorem paperPlatform_commits : CommitsToKey paperPlatform.crypto := plainCrypto_commits

def paperDevice (n : UInt8) : Store paperPlatform :=
  { Store.fresh (plainIdentity n) [] with peers := boxPeers }

def paperAnnounced : Store paperPlatform :=
  (exec (appendAll [(boxEpoch, .rotate [epoch0Id] (.replicate 9)),
    (boxEpoch, .wrap .paper (List.replicate 56 9 ++ List.replicate 32 5 ++ List.replicate 32 9))])
      (paperDevice 1)).2

def paperAdmin : Store paperPlatform :=
  (paperDevice 2).withKeylog (deviceId 1) paperAnnounced.exportOwnKeylog

def paperTorn : Store paperPlatform := paperAdmin.withKeylog (deviceId 2) [0x7b]

/-- The recovery says that it took one epoch back, and the device can read no key at all. -/
theorem paper_recovery_breaks_torn :
    (paperTorn.keychain default default).toOption.map (·.epochKey boxEpoch) = some none ∧
      (exec (recoverWithPaper (sampleSeed 6).wraps (.replicate 5) default default) paperTorn).1 =
        .ok 1 ∧ ((exec (recoverWithPaper (sampleSeed 6).wraps (.replicate 5) default default)
        paperTorn).2.keychain default default).toOption.isNone = true := by
  exact ⟨by decide +kernel, by decide +kernel, by decide +kernel⟩

theorem paperAdmin_recovers : ∃ kc entries n, paperAdmin.keychain default default = .ok kc ∧
      paperAdmin.mergedKeylog = .ok entries ∧ n = 1 ∧
      (∃ kc', (exec (recoverWithPaper (sampleSeed 6).wraps (.replicate 5) default default)
        paperAdmin).2.keychain
          default default = .ok kc' ∧ ∀ epoch key, kc'.epochKey epoch = some key ↔
            kc.epochKey epoch = some key ∨
              Recovers paperPlatform kc (.replicate 5) entries epoch key) ∧
      n = Set.ncard {epoch | ∃ key, Recovers paperPlatform kc (.replicate 5) entries epoch key} ∧
      ∀ wraps', exec (recoverWithPaper wraps' (.replicate 5) default default)
          (exec (recoverWithPaper (sampleSeed 6).wraps (.replicate 5) default default)
            paperAdmin).2 =
        (.ok 0, (exec (recoverWithPaper (sampleSeed 6).wraps (.replicate 5) default default)
          paperAdmin).2) := by
  obtain ⟨entries, hmerged⟩ :=
    exists_ok_of_toOption (x := paperAdmin.mergedKeylog) (by decide +kernel)
  have hkc := keychain_eq hmerged default default
  have hrun :
      exec (recoverWithPaper (sampleSeed 6).wraps (.replicate 5) default default) paperAdmin =
      (.ok 1, (exec (recoverWithPaper (sampleSeed 6).wraps (.replicate 5) default default)
        paperAdmin).2) := by
    have hfst :
        (exec (recoverWithPaper (sampleSeed 6).wraps (.replicate 5) default default) paperAdmin).1 =
          .ok 1 := by
      decide +kernel
    rw [← hfst]
  have hwhole : paperAdmin.WholeKeylog := .inl (by decide +kernel)
  exact ⟨_, entries, 1, hkc, hmerged, rfl,
    (paper_recovery_iff paperPlatform_lawful (plainJson_uncontinued keyLineCode)
      paperPlatform_commits
      boxPlatform_sealsBoxes.opens (by decide +kernel) hmerged hkc hrun).2 (.inl hwhole)⟩

end Sample

end Store

end Roam
