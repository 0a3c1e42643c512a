import Roam.SharedRoster
import Roam.Network

namespace Roam
set_option autoImplicit true
open Library Library.Fallible

namespace Store
variable {π : Platform} {s s₀ s₁ s' : Store π} {keyOf : UInt64 → Bytes32}

section Outcome

theorem requireAdmin_iff (hk : s.KeyedBy keyOf) (hs : s.Refreshed)
    (h : s.collect order = .ok entries) : s.requireAdmin = .ok () ↔
      HasRole entries s.founder s.peerId .admin ∧ ¬ IsRevoked entries s.founder s.peerId := by
  obtain ⟨order', entries', hc, hp⟩ := hs
  have hsame : AdminEntry entries' s.founder = AdminEntry entries s.founder :=
    adminEntry_congr (collect_congr hk hc h)
  rw [requireAdmin, hp, ← hasRole_of_adminEntry hsame, ← isRevoked_of_adminEntry hsame]
  cases hfind : (mergeRoster entries' s.founder).find? fun p => p.peerId = s.peerId with
  | none =>
    have hnone : ¬ HasRole entries' s.founder s.peerId .admin := by
      intro hr
      have hsome := find?_mergeRoster.2 hr
      rw [hfind] at hsome
      cases hsome
    simp only [reduceCtorEq, hnone, false_and]
  | some rec =>
    have hid : rec.peerId = s.peerId := by
      simpa only [decide_eq_true_eq] using List.find?_some hfind
    obtain ⟨_, hst, hr⟩ := mergeRoster_record (List.mem_of_find?_eq_some hfind)
    rw [hid] at hst hr
    have hrole : rec.role = .admin ↔ HasRole entries' s.founder s.peerId .admin :=
      ⟨fun h => h ▸ hr, fun h => hr.unique h⟩
    have hactive : rec.status = .active ↔ ¬ IsRevoked entries' s.founder s.peerId := by
      rw [← hst]
      cases rec.status with
      | active => simp only [reduceCtorEq, not_false_eq_true]
      | revoked => simp only [reduceCtorEq, not_true_eq_false]
    rw [← hrole, ← hactive, and_comm]
    simp only
    split
    next h => simp only [h, and_self]
    next h => simp only [reduceCtorEq, h]

theorem requireAdmin_cases (s : Store π) :
    s.requireAdmin = .ok () ∨ s.requireAdmin = .error (.peer "device is not an active admin") := by
  rw [requireAdmin]
  split
  next =>
    split
    next => exact .inl rfl
    next => exact .inr rfl
  next => exact .inr rfl

theorem authorRoster_fst (hπ : π.Lawful) (hk : s.KeyedBy keyOf) (ho : s.OwnLog)
    (h : s.collect order = .ok entries) (orders : RosterOrder × RosterOrder) (op : RosterOp)
    (subject : UInt64) (key : Bytes32) :
    (exec (authorRoster orders op subject key) s).1 = .ok () := by
  obtain ⟨t, ht⟩ := seeds_of_collect h
  obtain ⟨seen, hseen⟩ := collect_of_seeds ht orders.1
  have hl : ∃ lamport, s.nextRoleLamport orders.1 subject = .ok lamport :=
    ⟨_, except_bind_eq_ok.2 ⟨seen, hseen, rfl⟩⟩
  obtain ⟨lamport, hl⟩ := hl
  obtain ⟨entry, file, hs⟩ := signOwn_isOk ho lamport op subject key
  have hseeds := (appends_of_signOwn hπ hk ho hs).seeds
  obtain ⟨entries', hc⟩ := collect_of_seeds (hseeds.trans ht) orders.2
  rw [exec_authorRoster, hl]
  simp only [hs, exec_refreshPeers, hc]

theorem setRole_fst (hπ : π.Lawful) (hs : s.Ready keyOf) (hadm : s.requireAdmin = .ok ())
    (h : s.collect order = .ok entries) (hbind : peer = derivedPeerId key)
    (orders : RosterOrder × RosterOrder) (role : Role) :
    (exec (setRole orders peer key role) s).1 = .ok () := by
  rw [setRole, exec_authorAsAdmin, hadm, checkPeerIdBinding, if_neg (not_not.2 hbind)]
  exact authorRoster_fst hπ hs.keyed hs.own h orders _ peer key

end Outcome

section Influence

/-- Two stores of one device whose disks agree on the logs of everyone that was ever an admin. -/
structure SameDevice (s₀ : Store π) (entries₀ : List RosterEntry) (s₁ : Store π) : Prop
    extends SameAdminLogs s₀ entries₀ s₁ where
  identity : s₁.identity = s₀.identity

variable (hd : SameDevice s₀ entries₀ s₁)
include hd

theorem SameDevice.peerId : s₁.peerId = s₀.peerId := by
  rw [Store.peerId, Store.peerId, hd.identity]

theorem SameDevice.selfKey : s₁.selfKey = s₀.selfKey := by
  rw [Store.selfKey, Store.selfKey, hd.identity]

theorem SameDevice.seeds : s₁.seeds = s₀.seeds := by
  simp only [Store.seeds, trustSeeds, hd.peerId, hd.selfKey, hd.founder]
  cases hf : s₀.founder with
  | none => rfl
  | some fid => simp only [hd.files fid (.base hf)]

theorem SameDevice.founderVouched (hf : s₀.FounderVouched) : s₁.FounderVouched := by
  rw [FounderVouched, hd.seeds, hd.founder]
  exact hf

theorem SameDevice.ready (hs : s₀.Ready keyOf) (hadm : s₀.requireAdmin = .ok ())
    (hc : s₀.collect order = .ok entries₀) (hk₁ : s₁.KeyedBy keyOf) (hr₁ : s₁.Refreshed) :
    s₁.Ready keyOf where
  keyed := hk₁
  own := by
    have hme := everAdmin_of_requireAdmin hs.keyed hs.refreshed hc hadm
    rw [OwnLog, hd.peerId, hd.selfKey, hd.files _ hme]
    exact hs.own
  refreshed := hr₁

theorem SameDevice.requireAdmin_eq (hk₀ : s₀.KeyedBy keyOf) (hk₁ : s₁.KeyedBy keyOf)
    (hf : s₀.FounderVouched) (hc₀ : s₀.collect order₀ = .ok entries₀)
    (hc₁ : s₁.collect order₁ = .ok entries₁) (hr₀ : s₀.Refreshed) (hr₁ : s₁.Refreshed) :
    s₁.requireAdmin = s₀.requireAdmin := by
  have hsame := hd.adminEntry_eq hk₀ hk₁ hf (hd.founderVouched hf) hc₀ hc₁
  have hiff : s₁.requireAdmin = .ok () ↔ s₀.requireAdmin = .ok () := by
    rw [requireAdmin_iff hk₁ hr₁ hc₁, requireAdmin_iff hk₀ hr₀ hc₀, hd.founder, hd.peerId,
      hasRole_of_adminEntry hsame, isRevoked_of_adminEntry hsame]
  rcases requireAdmin_cases s₁ with h₁ | h₁ <;> rcases requireAdmin_cases s₀ with h₀ | h₀
  · rw [h₁, h₀]
  · rw [h₀, h₁] at hiff
    cases hiff.1 rfl
  · rw [h₀, h₁] at hiff
    cases hiff.2 rfl
  · rw [h₁, h₀]

end Influence

section Imports

structure RosterImport where
  order : RosterOrder
  author : UInt64
  key : Bytes32
  bytes : Bytes

def afterImports (imports : List RosterImport) (s : Store π) : Store π :=
  imports.foldl (fun s i => (exec (importRoster i.order i.author i.key i.bytes) s).2) s

theorem SameDevice.importRoster (hd : SameDevice s₀ entries₀ s) (hr : s.Refreshed)
    (hc₀ : s₀.collect order₀ = .ok entries₀) (ha : ¬ EverAdmin entries₀ s₀.founder author) :
    SameDevice s₀ entries₀ (exec (importRoster order author key bytes) s).2 ∧
      (exec (importRoster order author key bytes) s).2.Refreshed := by
  rw [exec_importRoster]
  split
  next => exact ⟨hd, hr⟩
  next =>
    split
    next => exact ⟨hd, hr⟩
    next =>
      split
      next => exact ⟨hd, hr⟩
      next =>
        have hd' : SameDevice s₀ entries₀ (s.withRoster author bytes) := {
          identity := hd.identity
          founder := hd.founder
          files := by
            intro a hadm
            have hne : a ≠ author := fun h => ha (h ▸ hadm)
            rw [rosters_withRoster_ne hne]
            exact hd.files a hadm }
        obtain ⟨t, ht⟩ := seeds_of_collect hc₀
        obtain ⟨entries, hc⟩ := collect_of_seeds (hd'.seeds.trans ht) order
        rw [exec_refreshPeers, hc]
        exact ⟨⟨⟨hd'.founder, hd'.files⟩, hd'.identity⟩, order, entries, hc, rfl⟩

theorem sameDevice_afterImports (hr : s₀.Refreshed) (hc₀ : s₀.collect order₀ = .ok entries₀)
    (ha : ∀ i ∈ imports, ¬ EverAdmin entries₀ s₀.founder (RosterImport.author i)) :
    SameDevice s₀ entries₀ (afterImports imports s₀) ∧ (afterImports imports s₀).Refreshed := by
  have hfold (s : Store π) (hd : SameDevice s₀ entries₀ s) (hr : s.Refreshed) :
      SameDevice s₀ entries₀ (afterImports imports s) ∧ (afterImports imports s).Refreshed := by
    induction imports generalizing s with
    | nil => exact ⟨hd, hr⟩
    | cons i imports ih =>
      obtain ⟨hd', hr'⟩ := hd.importRoster hr hc₀ (ha i List.mem_cons_self)
      exact ih (fun i hi => ha i (List.mem_cons_of_mem _ hi)) _ hd' hr'
  exact hfold s₀ ⟨.refl s₀ entries₀, rfl⟩ hr

end Imports

section Sample
open Network

def renameMoves : List Move := joinMoves ++ [.call true (.setDeviceName "laptop"), .send true]

theorem renameMoves_keyed : ∀ m ∈ renameMoves, Move.Keyed m := by
  simp only [renameMoves, List.forall_mem_append]
  exact ⟨joinMoves_keyed, by simp [Move.Keyed, RosterCall.Keyed]⟩

def renameImport : RosterImport where
  order := .ascending _ _
  author := pairId true
  key := pairKey (pairId true)
  bytes := ((run renameMoves).stores true).exportOwnRoster

def renamedStore : Store openPlatform := afterImports [renameImport] founderStore

def renamedEntries : List RosterEntry :=
  (renamedStore.collect (.ascending _ _)).toOption.getD []

theorem renamedStore_ready : renamedStore.Ready pairKey := by
  have hsent : (renameImport.author, renameImport.bytes) ∈ (run renameMoves).sent := by
    decide +kernel
  have hreach := (run_reachable renameMoves_keyed).step
    (.importRoster _ false renameImport.order renameImport.author renameImport.key _ hsent)
  have hready := hreach.ready (plainPlatform_lawful fun _ _ => rfl) pairKey_pairId false
  have hother (net : Network openPlatform Bool) (c : RosterCall) :
      ([.call true c, .send true].foldl Move.apply net).stores false = net.stores false := by
    simp only [List.foldl_cons, List.foldl_nil, Move.apply, Network.setStore, ne_eq,
      Bool.false_eq_true, not_false_eq_true, Function.update_of_ne]
  have hstore : (run renameMoves).stores false = founderStore := by
    rw [run, renameMoves, List.foldl_append, hother]
    rfl
  simp only [Network.setStore, Function.update_self, hstore] at hready
  exact hready

end Sample

end Store

end Roam
