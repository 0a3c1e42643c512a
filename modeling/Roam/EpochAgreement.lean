import Roam.KeylogFold
import Roam.Network

namespace Roam
set_option autoImplicit true
open Library Library.Fallible

namespace Store
variable {π : Platform} {s s₁ s₂ : Store π} {keyOf : UInt64 → Bytes32}

def Announces (s : Store π) (author : UInt64) (key epoch : Bytes32) : Prop :=
  ∃ es, s.readKeylog author key = .ok es ∧ Announced es epoch

theorem announced_merged (h : s.mergedKeylog = .ok entries) :
    Announced entries epoch ↔ ∃ a key, s.Folds a key ∧ s.Announces a key epoch := by
  rw [announced_iff]
  constructor
  · intro ha
    obtain ⟨hne, e, he, hrot⟩ := ha
    obtain ⟨a, key, hf, es, hes, hx⟩ := (mem_mergedKeylog h).1 he
    exact ⟨a, key, hf, es, hes, announced_iff.2 ⟨hne, e, hx, hrot⟩⟩
  · intro ha
    obtain ⟨a, key, hf, es, hes, ha⟩ := ha
    obtain ⟨hne, e, hx, hrot⟩ := announced_iff.1 ha
    exact ⟨hne, e, (mem_mergedKeylog h).2 ⟨a, key, hf, es, hes, hx⟩, hrot⟩

/-- A device whose roster is up to date with its disk, that knows each peer by one key and whose
founder's log vouches for itself. -/
structure Member (keyOf : UInt64 → Bytes32) (s : Store π) : Prop where
  keyed : s.KeyedBy keyOf
  vouched : s.FounderVouched
  refreshed : s.Refreshed

theorem Member.folds_key (h : s.Member keyOf) (hf : s.Folds a key) : key = keyOf a := by
  cases hf with
  | own => exact h.keyed.self
  | admin p hp hs hr hne hv => exact peers_key h.keyed h.refreshed hp

theorem Member.withKeylog (h : s.Member keyOf) (author : UInt64) (bytes : Bytes) :
    (s.withKeylog author bytes).Member keyOf where
  keyed := ⟨h.keyed.self, h.keyed.logs, h.keyed.founder⟩
  vouched := h.vouched
  refreshed := h.refreshed

structure SameVault (keyOf : UInt64 → Bytes32) (s₁ s₂ : Store π) : Prop where
  left : s₁.Member keyOf
  right : s₂.Member keyOf
  founder : s₂.founder = s₁.founder
  rosters : ∀ a : UInt64, s₂.disk.rosters[a]? = s₁.disk.rosters[a]?
  keylogs : ∀ a : UInt64, s₂.disk.keylogs[a]? = s₁.disk.keylogs[a]?
  verified : ∀ (a : UInt64) (bytes : Bytes), s₁.disk.keylogs[a]? = some bytes →
    ∃ es, verifyBytes π (keyReader π a (keyOf a)) bytes = .ok es

theorem SameVault.symm (h : SameVault keyOf s₁ s₂) : SameVault keyOf s₂ s₁ where
  left := h.right
  right := h.left
  founder := h.founder.symm
  rosters a := (h.rosters a).symm
  keylogs a := (h.keylogs a).symm
  verified := by
    intro a bytes hb
    rw [h.keylogs] at hb
    exact h.verified a bytes hb

theorem SameVault.announces (h : SameVault keyOf s₁ s₂) :
    s₂.Announces a key epoch ↔ s₁.Announces a key epoch := by
  rw [Announces, Announces, readKeylog, readKeylog, h.keylogs]

theorem SameVault.merged (h : SameVault keyOf s₁ s₂) :
    ∃ entries, s₁.mergedKeylog = .ok entries := by
  apply mergedKeylog_ok
  intro a key hf
  rw [h.left.folds_key hf, readKeylog]
  cases hget : s₁.disk.keylogs[a]? with
  | none => exact ⟨[], rfl⟩
  | some bytes =>
    obtain ⟨es, hes⟩ := h.verified a bytes hget
    exact ⟨es, readVerified_of_verifyBytes hes⟩

theorem SameVault.folds (h : SameVault keyOf s₁ s₂) (hf : s₁.Folds a key) (ha : a ≠ s₁.peerId) :
    s₂.Folds a key := by
  have hkey := h.left.folds_key hf
  cases hf with
  | own => exact absurd rfl ha
  | admin p hp hs hr hne hv =>
    have hmem : p.membership ∈ s₂.peers.map PeerRecord.membership := by
      rw [membership_eq h.left.keyed h.right.keyed h.left.vouched h.right.vouched
        h.left.refreshed h.right.refreshed h.founder h.rosters]
      exact List.mem_map_of_mem hp
    obtain ⟨q, hq, heq⟩ := List.mem_map.1 hmem
    obtain ⟨hid, hqk, hqs, hqr⟩ : q.peerId = p.peerId ∧ q.verifyingKey = p.verifyingKey ∧
        q.status = p.status ∧ q.role = p.role := by
      simpa only [PeerRecord.membership, Prod.mk.injEq] using heq
    by_cases hself : p.peerId = s₂.peerId
    · rw [hkey, hself, ← h.right.keyed.self]
      exact .own
    · rw [← hid, ← hqk]
      exact .admin q hq (hqs.trans hs) (hqr.trans hr) (hid ▸ hself) (hqk ▸ hv)

/-- Every epoch that the device's own log announces is also announced in a log that the other
device folds. -/
def OwnShared (s s' : Store π) : Prop :=
  ∀ epoch, s.Announces s.peerId s.selfKey epoch →
    ∃ a key, s'.Folds a key ∧ s'.Announces a key epoch

theorem SameVault.announced (h : SameVault keyOf s₁ s₂) (ho : OwnShared s₁ s₂)
    (h₁ : s₁.mergedKeylog = .ok entries₁) (h₂ : s₂.mergedKeylog = .ok entries₂)
    (ha : Announced entries₁ epoch) : Announced entries₂ epoch := by
  rw [announced_merged h₂]
  obtain ⟨a, key, hf, ha⟩ := (announced_merged h₁).1 ha
  by_cases hself : a = s₁.peerId
  · subst hself
    rw [h.left.folds_key hf, ← h.left.keyed.self] at ha
    exact ho epoch ha
  · exact ⟨a, key, h.folds hf hself, h.announces.2 ha⟩

theorem ownShared_of_announced (h₁ : s₁.mergedKeylog = .ok entries₁)
    (h₂ : s₂.mergedKeylog = .ok entries₂)
    (ha : ∀ epoch, Announced entries₁ epoch → Announced entries₂ epoch) : OwnShared s₁ s₂ := by
  intro epoch ho
  rw [← announced_merged h₂]
  exact ha epoch ((announced_merged h₁).2 ⟨_, _, .own, ho⟩)

section Sample
open Network

def promoteMoves : List Move :=
  [.call false (.declareFounder .admin),
    .call false (.addPeer (pairId true) (pairKey (pairId true)) .admin), .send false,
    .receive true, .call true (.pinFounder (pairId false))]

def demoteMoves : List Move :=
  promoteMoves ++
    [.call false (.setRole (pairId true) (pairKey (pairId true)) .writer), .send false,
      .receive true]

theorem promoteMoves_keyed : ∀ m ∈ promoteMoves, Move.Keyed m := by
  simp only [promoteMoves, List.forall_mem_cons, Move.Keyed, RosterCall.Keyed, List.not_mem_nil,
    false_imp_iff, implies_true, and_self]

theorem demoteMoves_keyed : ∀ m ∈ demoteMoves, Move.Keyed m := by
  simp only [demoteMoves, List.forall_mem_append]
  exact ⟨promoteMoves_keyed, by simp [Move.Keyed, RosterCall.Keyed]⟩

def sampleSeed (n : UInt8) : RotationSeed where
  nonce := .replicate n
  key := .replicate n
  wraps _ := ⟨.replicate n, List.replicate 24 n, List.length_replicate⟩

def rotationLog : Bytes :=
  (exec (rotateEpoch (sampleSeed 9) default default none)
    ((run promoteMoves).stores true)).2.exportKeylog (pairId true)

def sharedStore (moves : List Move) (b : Bool) : Store openPlatform :=
  ((run moves).stores b).withKeylog (pairId true) rotationLog

theorem exists_ok_of_toOption {x : Except ε α} (h : x.toOption.isSome = true) : ∃ a, x = .ok a := by
  cases x with
  | error e => cases h
  | ok a => exact ⟨a, rfl⟩

abbrev SharedFacts (moves : List Move) : Prop :=
  ((run moves).stores false).founder = some (pairId false) ∧
    ((run moves).stores true).founder = some (pairId false) ∧
    ((run moves).stores true).seeds.toOption.map (·.contains (pairId false)) = some true ∧
    ((run moves).stores true).disk.rosters.toList =
      ((run moves).stores false).disk.rosters.toList ∧
    (sharedStore moves true).disk.keylogs.toList =
      (sharedStore moves false).disk.keylogs.toList ∧
    ∀ p ∈ (sharedStore moves false).disk.keylogs.toList,
      (verifyBytes openPlatform (keyReader openPlatform p.1 (pairKey p.1)) p.2).toOption.isSome

theorem sharedStore_sameVault (hm : ∀ m ∈ moves, Move.Keyed m) (h : SharedFacts moves) :
    SameVault pairKey (sharedStore moves false) (sharedStore moves true) := by
  obtain ⟨hf, hf', hseed, hr, hk, hv⟩ := h
  have hπ : openPlatform.Lawful := plainPlatform_lawful fun _ _ => rfl
  have hready := (run_reachable hm).ready hπ pairKey_pairId
  obtain ⟨signed, hexplained⟩ := (run_reachable hm).explained hπ pairKey_pairId
  have hself : ((run moves).stores false).FounderVouched :=
    founderVouched_self (hf.trans (congrArg some (hexplained.holds false).peerId.symm))
  have hother : ((run moves).stores true).FounderVouched := by
    intro fid hfid
    cases hf'.symm.trans hfid
    cases hs : ((run moves).stores true).seeds with
    | error e =>
      rw [hs] at hseed
      cases hseed
    | ok t =>
      rw [hs] at hseed
      exact ⟨t, rfl, Std.TreeMap.contains_iff_mem.1 (Option.some.inj hseed)⟩
  have hget (m m' : Std.TreeMap UInt64 Bytes) (h : m.toList = m'.toList) (a : UInt64) :
      m[a]? = m'[a]? := by
    apply Option.ext
    intro bytes
    rw [← Std.TreeMap.mem_toList_iff_getElem?_eq_some,
      ← Std.TreeMap.mem_toList_iff_getElem?_eq_some, h]
  exact {
    left := Member.withKeylog ⟨(hready false).keyed, hself, (hready false).refreshed⟩ _ _
    right := Member.withKeylog ⟨(hready true).keyed, hother, (hready true).refreshed⟩ _ _
    founder := hf'.trans hf.symm
    rosters := hget _ _ hr
    keylogs := hget _ _ hk
    verified := by
      intro a bytes hb
      exact exists_ok_of_toOption
        (hv (a, bytes) (Std.TreeMap.mem_toList_iff_getElem?_eq_some.2 hb)) }

end Sample

end Store

end Roam
