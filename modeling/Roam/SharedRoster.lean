import Roam.RoleDecision

namespace Roam
set_option autoImplicit true
open Library

namespace Store
variable {π : Platform} {s s₀ s₁ : Store π} {keyOf : UInt64 → Bytes32}

/-- Two stores, of one device or of two, whose disks agree on the logs of everyone that was ever
an admin. -/
structure SameAdminLogs (s₀ : Store π) (entries₀ : List RosterEntry) (s₁ : Store π) : Prop where
  founder : s₁.founder = s₀.founder
  files : ∀ a, EverAdmin entries₀ s₀.founder a → s₁.disk.rosters[a]? = s₀.disk.rosters[a]?

/-- The founder is the device itself, or its log vouches for its own key. -/
def FounderVouched (s : Store π) : Prop :=
  ∀ fid, s.founder = some fid → ∃ t, s.seeds = .ok t ∧ fid ∈ t

theorem founderVouched_self (h : s.founder = some s.peerId) : s.FounderVouched := by
  intro fid hf
  obtain rfl : s.peerId = fid := Option.some.inj (h.symm.trans hf)
  have hseeds : s.seeds = .ok ((∅ : Std.TreeMap UInt64 Bytes32).insert s.peerId s.selfKey) := by
    simp only [seeds, trustSeeds, hf, Std.TreeMap.contains_insert_self, ↓reduceIte]
  exact ⟨_, hseeds, Std.TreeMap.mem_insert_self⟩

theorem SameAdminLogs.refl (s : Store π) (entries : List RosterEntry) : SameAdminLogs s entries s :=
  ⟨rfl, fun _ _ => rfl⟩

variable (hd : SameAdminLogs s₀ entries₀ s₁)
include hd

theorem SameAdminLogs.read (h : EverAdmin entries₀ s₀.founder a) :
    readRoster π s₁.disk a key = readRoster π s₀.disk a key := by
  rw [readRoster, readRoster, hd.files a h]

theorem SameAdminLogs.trusted (hk : s₀.KeyedBy keyOf) (hf₁ : s₁.FounderVouched)
    (hc : s₀.collect order = .ok entries₀) (h : EverAdmin entries₀ s₀.founder a) :
    s₁.Trusted keyOf a := by
  induction h with
  | base ha => exact .base (hf₁ _ (hd.founder.trans ha))
  | step hb hab ih =>
    obtain ⟨x, hx, _, rfl, rfl⟩ := hab
    obtain ⟨b, _, hr⟩ := (mem_collect hk hc).1 hx.1
    rw [readRoster_addedBy hr] at hb ih
    refine .step ih ⟨x, ?_, x.subjectKey, ?_⟩
    · change x ∈ readRoster π s₁.disk b (keyOf b)
      rw [hd.read hb]
      exact hr
    · simp only [rosterWalk, learnSubject, hx.2, ↓reduceIte]

variable (hk₀ : s₀.KeyedBy keyOf) (hk₁ : s₁.KeyedBy keyOf)
variable (hf₀ : s₀.FounderVouched) (hf₁ : s₁.FounderVouched)
variable (hc₀ : s₀.collect order₀ = .ok entries₀) (hc₁ : s₁.collect order₁ = .ok entries₁)
include hk₀ hk₁ hf₀ hf₁ hc₀ hc₁

theorem SameAdminLogs.mem_iff (h : EverAdmin entries₀ s₀.founder x.addedBy) :
    x ∈ entries₁ ↔ x ∈ entries₀ := by
  rw [mem_collect hk₁ hc₁, mem_collect hk₀ hc₀]
  constructor
  · intro hx
    obtain ⟨a, _, hr⟩ := hx
    have ha : EverAdmin entries₀ s₀.founder a := readRoster_addedBy hr ▸ h
    rw [hd.read ha] at hr
    exact ⟨a, (SameAdminLogs.refl s₀ entries₀).trusted hk₀ hf₀ hc₀ ha, hr⟩
  · intro hx
    obtain ⟨a, _, hr⟩ := hx
    have ha : EverAdmin entries₀ s₀.founder a := readRoster_addedBy hr ▸ h
    rw [← hd.read ha] at hr
    exact ⟨a, hd.trusted hk₀ hf₁ hc₀ ha, hr⟩

theorem SameAdminLogs.everAdmin_iff :
    EverAdmin entries₁ s₀.founder a ↔ EverAdmin entries₀ s₀.founder a := by
  constructor
  · intro h
    induction h with
    | base ha => exact .base ha
    | step _ hab ih =>
      obtain ⟨x, hx, hg, rfl, rfl⟩ := hab
      have hmem := (hd.mem_iff hk₀ hk₁ hf₀ hf₁ hc₀ hc₁ ih).1 hx.1
      exact .step ih ⟨x, ⟨hmem, hx.2⟩, hg, rfl, rfl⟩
  · intro h
    induction h with
    | base ha => exact .base ha
    | step hb hab ih =>
      obtain ⟨x, hx, hg, rfl, rfl⟩ := hab
      have hmem := (hd.mem_iff hk₀ hk₁ hf₀ hf₁ hc₀ hc₁ hb).2 hx.1
      exact .step ih ⟨x, ⟨hmem, hx.2⟩, hg, rfl, rfl⟩

theorem SameAdminLogs.adminEntry_eq :
    AdminEntry entries₁ s₀.founder = AdminEntry entries₀ s₀.founder := by
  funext p x
  apply propext
  simp only [AdminEntry, ValidIn, hd.everAdmin_iff hk₀ hk₁ hf₀ hf₁ hc₀ hc₁]
  constructor
  · intro h
    exact ⟨⟨(hd.mem_iff hk₀ hk₁ hf₀ hf₁ hc₀ hc₁ h.2.1).1 h.1.1, h.1.2⟩, h.2⟩
  · intro h
    exact ⟨⟨(hd.mem_iff hk₀ hk₁ hf₀ hf₁ hc₀ hc₁ h.2.1).2 h.1.1, h.1.2⟩, h.2⟩

theorem SameAdminLogs.roleOf_eq (hr₀ : s₀.Refreshed) (hr₁ : s₁.Refreshed) (peer : UInt64) :
    s₁.roleOf peer = s₀.roleOf peer := by
  apply Option.ext
  intro r
  rw [roleOf_iff hk₁ hr₁ hc₁, roleOf_iff hk₀ hr₀ hc₀, hd.founder,
    hasRole_of_adminEntry (hd.adminEntry_eq hk₀ hk₁ hf₀ hf₁ hc₀ hc₁)]

omit hd hk₀ hk₁ hf₀ hf₁ hc₀ hc₁

theorem membership_eq (hk₀ : s₀.KeyedBy keyOf) (hk₁ : s₁.KeyedBy keyOf)
    (hf₀ : s₀.FounderVouched) (hf₁ : s₁.FounderVouched) (hr₀ : s₀.Refreshed) (hr₁ : s₁.Refreshed)
    (hfounder : s₁.founder = s₀.founder)
    (hfiles : ∀ a : UInt64, s₁.disk.rosters[a]? = s₀.disk.rosters[a]?) :
    s₁.peers.map PeerRecord.membership = s₀.peers.map PeerRecord.membership := by
  obtain ⟨order₀, entries₀, hc₀, hp₀⟩ := hr₀
  obtain ⟨order₁, entries₁, hc₁, hp₁⟩ := hr₁
  have hd : SameAdminLogs s₀ entries₀ s₁ := ⟨hfounder, fun a _ => hfiles a⟩
  rw [hp₁, hp₀, hfounder]
  exact membership_of_adminEntry (hd.adminEntry_eq hk₀ hk₁ hf₀ hf₁ hc₀ hc₁)

theorem peers_key (hk : s.KeyedBy keyOf) (hr : s.Refreshed) (hp : p ∈ s.peers) :
    p.verifyingKey = keyOf p.peerId := by
  obtain ⟨order, entries, hc, hpeers⟩ := hr
  rw [hpeers] at hp
  obtain ⟨⟨e, he, hkey⟩, _⟩ := (mergeRoster_record hp).1
  obtain ⟨a, _, hread⟩ := (mem_collect hk hc).1 he.1.1
  have hlearn : learnSubject e = some (e.subjectPeer, e.subjectKey) := if_pos he.1.2.symm
  rw [← hkey, hk.logs a e hread _ _ hlearn, he.2.2]

end Store

end Roam
