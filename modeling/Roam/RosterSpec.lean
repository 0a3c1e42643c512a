import Roam.RosterPasses

namespace Roam
set_option autoImplicit true
open Library

section Spec
variable (entries : List RosterEntry) (founder : Option UInt64)

def ValidIn (e : RosterEntry) : Prop :=
  e ∈ entries ∧ e.subjectPeer = derivedPeerId e.subjectKey

/-- The least set that holds the founder and, with the author of a valid admin grant, also the
subject of the grant. -/
def EverAdmin : UInt64 → Prop :=
  Reach (fun a => founder = some a) fun a s =>
    ∃ e, ValidIn entries e ∧ e.op.grantsAdmin = true ∧ e.addedBy = a ∧ e.subjectPeer = s

def AdminEntry (s : UInt64) (e : RosterEntry) : Prop :=
  ValidIn entries e ∧ EverAdmin entries founder e.addedBy ∧ e.subjectPeer = s

def AdminGrant (s : UInt64) (e : RosterEntry) (r : Role) : Prop :=
  AdminEntry entries founder s e ∧ e.op.grant? = some r

def GrantedAt (s l : UInt64) : Prop :=
  ∃ e r, AdminGrant entries founder s e r ∧ e.lamport = l

def Decision (s : UInt64) (e : RosterEntry) (r : Role) : Prop :=
  AdminGrant entries founder s e r ∧ InRun (GrantedAt entries founder s) e.lamport

def stamp (e : RosterEntry) : UInt64 ×ₗ UInt64 := toLex (e.lamport, e.addedBy)

def HasKey (s : UInt64) (k : Bytes32) : Prop :=
  IsLeast {k | ∃ e, AdminEntry entries founder s e ∧ e.subjectKey = k} k

def IsRevoked (s : UInt64) : Prop :=
  ∃ e, AdminEntry entries founder s e ∧ e.op = .revoke

/-- The least role among the decisions with the greatest stamp. -/
def HasRole (s : UInt64) (r : Role) : Prop :=
  ∃ w, IsGreatest {w | ∃ e r, Decision entries founder s e r ∧ stamp e = w} w ∧
    IsLeast {r | ∃ e, Decision entries founder s e r ∧ stamp e = w} r

/-- The role that the fold gives to a peer for which exactly these grants count. -/
def NewestRole (G : RosterEntry → Role → Prop) (r : Role) : Prop :=
  let D e r := G e r ∧ InRun (fun l => ∃ e r, G e r ∧ e.lamport = l) e.lamport
  ∃ w, IsGreatest {w | ∃ e r, D e r ∧ stamp e = w} w ∧ IsLeast {r | ∃ e, D e r ∧ stamp e = w} r

theorem hasRole_eq_newest (s : UInt64) :
    HasRole entries founder s = NewestRole (AdminGrant entries founder s) :=
  rfl

end Spec

def admittedEntries (entries : List RosterEntry) (founder : Option UInt64) : List RosterEntry :=
  (validEntries entries).filter fun e => e.addedBy ∈ everAdmin (validEntries entries) founder

theorem foldRoster_eq (entries : List RosterEntry) (founder : Option UInt64) :
    foldRoster entries founder = (admittedEntries entries founder).foldl
        (foldEntry (ceilings (admittedEntries entries founder))) ⟨∅, ∅, ∅⟩ :=
  rfl

theorem mem_everAdmin_valid :
    a ∈ everAdmin (validEntries entries) founder ↔ EverAdmin entries founder a := by
  simp only [mem_everAdmin, mem_validEntries]
  rfl

theorem mem_admittedEntries :
    e ∈ admittedEntries entries founder ↔ AdminEntry entries founder e.subjectPeer e := by
  rw [admittedEntries, List.mem_filter, decide_eq_true_eq, mem_everAdmin_valid, mem_validEntries]
  simp only [AdminEntry, ValidIn, and_true]

theorem mem_admitted_subject :
    (e ∈ admittedEntries entries founder ∧ e.subjectPeer = s) ↔ AdminEntry entries founder s e := by
  rw [mem_admittedEntries]
  simp only [AdminEntry, and_true, and_assoc]

theorem grantedAt_iff : l ∈ valuesAt grantItem s (admittedEntries entries founder) ↔
      GrantedAt entries founder s l := by
  rw [mem_grantItems]
  constructor
  · rintro ⟨e, he, hg, hs, hl⟩
    obtain ⟨r, hr⟩ := Option.isSome_iff_exists.1 hg
    exact ⟨e, r, ⟨mem_admitted_subject.1 ⟨he, hs⟩, hr⟩, hl⟩
  · rintro ⟨e, r, ⟨he, hr⟩, hl⟩
    obtain ⟨he, hs⟩ := mem_admitted_subject.2 he
    exact ⟨e, he, Option.isSome_iff_exists.2 ⟨r, hr⟩, hs, hl⟩

theorem mem_candidates :
    (l, a, r) ∈ valuesAt (roleItem (ceilings (admittedEntries entries founder))) s
        (admittedEntries entries founder) ↔
      ∃ e, Decision entries founder s e r ∧ e.lamport = l ∧ e.addedBy = a := by
  have hrun (e : RosterEntry) (hg : AdminGrant entries founder s e r) :
      e.lamport ≤ (ceilings (admittedEntries entries founder)).getD s 0 ↔
        InRun (GrantedAt entries founder s) e.lamport := by
    rw [le_ceiling_iff (grantedAt_iff.2 ⟨e, r, hg, rfl⟩)]
    exact InRun.congr fun _ => grantedAt_iff
  rw [mem_roleItems]
  constructor
  · rintro ⟨e, he, hr, hle, hs, hl, ha⟩
    have hg : AdminGrant entries founder s e r := ⟨mem_admitted_subject.1 ⟨he, hs⟩, hr⟩
    exact ⟨e, ⟨hg, (hrun e hg).1 hle⟩, hl, ha⟩
  · rintro ⟨e, ⟨hg, hin⟩, hl, ha⟩
    obtain ⟨he, hs⟩ := mem_admitted_subject.2 hg.1
    exact ⟨e, he, hg.2, (hrun e hg).2 hin, hs, hl, ha⟩

theorem least_grant_inRun (h : GrantedAt entries founder s l) :
    ∃ m, InRun (GrantedAt entries founder s) m := by
  obtain ⟨m, hm, hmin⟩ := WellFounded.has_min
    (wellFounded_lt (α := UInt64)) {l | GrantedAt entries founder s l} ⟨l, h⟩
  refine ⟨m, hm, ?_⟩
  rintro k ⟨f, hf, hfk⟩ hkm
  have hfm : f = m := le_antisymm (hfk.trans hkm) (not_lt.1 (hmin f hf))
  have hkf : k = f := le_antisymm (hkm.trans hfm.ge) hfk
  rw [hkf]
  exact hf

theorem roles_isSome : (foldRoster entries founder).roles[s]?.isSome ↔
      ∃ e r, AdminGrant entries founder s e r := by
  rw [foldRoster_eq, foldl_roles, newestRole_selects.foldl_isSome]
  constructor
  · rintro ⟨⟨l, a, r⟩, h⟩
    obtain ⟨e, hd, _⟩ := mem_candidates.1 h
    exact ⟨e, r, hd.1⟩
  · rintro ⟨e, r, hg⟩
    obtain ⟨m, hm⟩ := least_grant_inRun ⟨e, r, hg, rfl⟩
    obtain ⟨e', r', hg', hl⟩ := hm.1
    exact ⟨(m, e'.addedBy, r'), mem_candidates.2 ⟨e', ⟨hg', hl ▸ hm⟩, hl, rfl⟩⟩

theorem roles_hasRole (h : (foldRoster entries founder).roles[s]? = some w) :
    HasRole entries founder s w.2.2 := by
  obtain ⟨l, a, r⟩ := w
  rw [foldRoster_eq, foldl_roles] at h
  obtain ⟨hmem, hall⟩ := newestRole_selects.foldl_eq_some h
  obtain ⟨e, hd, rfl, rfl⟩ := mem_candidates.1 hmem
  have hbest (e' : RosterEntry) (r' : Role) (hd' : Decision entries founder s e' r') :
      NotNewer (e'.lamport, e'.addedBy, r') (e.lamport, e.addedBy, r) :=
    hall _ (mem_candidates.2 ⟨e', hd', rfl, rfl⟩)
  refine ⟨stamp e, ⟨⟨e, r, hd, rfl⟩, ?_⟩, ⟨e, hd, rfl⟩, ?_⟩
  · rintro _ ⟨e', r', hd', rfl⟩
    rcases hbest e' r' hd' with hlt | ⟨heq, _⟩
    · exact hlt.le
    · exact (congrArg toLex heq).le
  · rintro r' ⟨e', hd', hst⟩
    rcases hbest e' r' hd' with hlt | ⟨_, hle⟩
    · exact absurd hst hlt.ne
    · exact hle

theorem keys_hasKey (h : AdminEntry entries founder s e) :
    HasKey entries founder s (foldRoster entries founder).keys[s]! := by
  have hmem := mem_admitted_subject.2 h
  rw [Std.TreeMap.getElem!_eq_get!_getElem?, foldRoster_eq, foldl_keys]
  rcases leastKey_selects.foldl_none (valuesAt keyItem s (admittedEntries entries founder)) with
    ⟨hnil, _⟩ | ⟨k, hk, hin, hall⟩
  · have hkey := mem_keyItems.2 ⟨e, hmem.1, hmem.2, rfl⟩
    rw [hnil] at hkey
    cases hkey
  · rw [hk]
    obtain ⟨e', he', hs', hk'⟩ := mem_keyItems.1 hin
    refine ⟨⟨e', mem_admitted_subject.1 ⟨he', hs'⟩, hk'⟩, ?_⟩
    rintro _ ⟨e'', he'', rfl⟩
    have hm := mem_admitted_subject.2 he''
    exact hall _ (mem_keyItems.2 ⟨e'', hm.1, hm.2, rfl⟩)

theorem mem_revoked : s ∈ (foldRoster entries founder).revoked ↔ IsRevoked entries founder s := by
  rw [foldRoster_eq, mem_foldl_revoked]
  simp only [Finset.notMem_empty, false_or, IsRevoked]
  constructor
  · rintro ⟨e, he, hr, hs⟩
    exact ⟨e, mem_admitted_subject.1 ⟨he, hs⟩, hr⟩
  · rintro ⟨e, he, hr⟩
    have hm := mem_admitted_subject.2 he
    exact ⟨e, hm.1, hr, hm.2⟩

theorem mem_mergeRoster_peer : (∃ rec ∈ mergeRoster entries founder, rec.peerId = s) ↔
      ∃ e r, AdminGrant entries founder s e r := by
  rw [← roles_isSome, Option.isSome_iff_exists]
  constructor
  · rintro ⟨rec, hrec, rfl⟩
    obtain ⟨s, w, hw, rfl⟩ := mem_mergeRoster.1 hrec
    exact ⟨w, hw⟩
  · rintro ⟨w, hw⟩
    exact ⟨_, mem_mergeRoster.2 ⟨s, w, hw, rfl⟩, rfl⟩

theorem mergeRoster_record (h : rec ∈ mergeRoster entries founder) :
    HasKey entries founder rec.peerId rec.verifyingKey ∧
      (rec.status = .revoked ↔ IsRevoked entries founder rec.peerId) ∧
      HasRole entries founder rec.peerId rec.role := by
  obtain ⟨e, r, hg⟩ := mem_mergeRoster_peer.1 ⟨rec, h, rfl⟩
  obtain ⟨s, w, hw, rfl⟩ := mem_mergeRoster.1 h
  refine ⟨keys_hasKey hg.1, ?_, roles_hasRole hw⟩
  rw [← mem_revoked]
  simp only [rosterRecord, ite_eq_left_iff, reduceCtorEq, imp_false, not_not]

/-- The fold meets its declarative specification for every entry list and founder: one record,
in ascending order, for each subject of an admin grant, with the key, status and role of the
specification. -/
theorem mergeRoster_spec (entries : List RosterEntry) (founder : Option UInt64) :
    ((mergeRoster entries founder).map PeerRecord.peerId).Pairwise (· < ·) ∧
      (∀ s, (∃ rec ∈ mergeRoster entries founder, rec.peerId = s) ↔
        ∃ e r, AdminGrant entries founder s e r) ∧ ∀ rec ∈ mergeRoster entries founder,
        HasKey entries founder rec.peerId rec.verifyingKey ∧
          (rec.status = .revoked ↔ IsRevoked entries founder rec.peerId) ∧
          HasRole entries founder rec.peerId rec.role :=
  ⟨mergeRoster_ascending entries founder, fun _ => mem_mergeRoster_peer,
    fun _ => mergeRoster_record⟩

section SameSet
variable {l₁ l₂ : List RosterEntry}

theorem validIn_mono (h : l₁ ⊆ l₂) (he : ValidIn l₁ e) : ValidIn l₂ e := ⟨h he.1, he.2⟩

theorem everAdmin_mono (h : l₁ ⊆ l₂) (ha : EverAdmin l₁ founder a) : EverAdmin l₂ founder a := by
  apply Reach.mono ha
  · intro a ha
    exact ha
  · rintro a s ⟨e, he, hg⟩
    exact ⟨e, validIn_mono h he, hg⟩

theorem adminEntry_mono (h : l₁ ⊆ l₂) (he : AdminEntry l₁ founder s e) :
    AdminEntry l₂ founder s e :=
  ⟨validIn_mono h he.1, everAdmin_mono h he.2.1, he.2.2⟩

theorem adminGrant_mono (h : l₁ ⊆ l₂) (he : AdminGrant l₁ founder s e r) :
    AdminGrant l₂ founder s e r :=
  ⟨adminEntry_mono h he.1, he.2⟩

theorem adminEntry_congr (h : ∀ e, e ∈ l₁ ↔ e ∈ l₂) :
    AdminEntry l₁ founder = AdminEntry l₂ founder := by
  funext s e
  exact propext ⟨adminEntry_mono fun e => (h e).1, adminEntry_mono fun e => (h e).2⟩

theorem grantedAt_of_adminEntry (h : AdminEntry l₁ founder = AdminEntry l₂ founder) :
    GrantedAt l₁ founder = GrantedAt l₂ founder := by
  unfold GrantedAt AdminGrant
  rw [h]

theorem hasRole_of_adminEntry (h : AdminEntry l₁ founder = AdminEntry l₂ founder) :
    HasRole l₁ founder = HasRole l₂ founder := by
  unfold HasRole Decision GrantedAt AdminGrant
  rw [h]

theorem isRevoked_of_adminEntry (h : AdminEntry l₁ founder = AdminEntry l₂ founder) :
    IsRevoked l₁ founder = IsRevoked l₂ founder := by
  unfold IsRevoked
  rw [h]

theorem hasRole_congr (h : ∀ e, e ∈ l₁ ↔ e ∈ l₂) : HasRole l₁ founder = HasRole l₂ founder :=
  hasRole_of_adminEntry (adminEntry_congr h)

end SameSet

theorem HasKey.unique (h : HasKey entries founder s k) (h' : HasKey entries founder s k') :
    k = k' :=
  IsLeast.unique h h'

theorem HasRole.unique (h : HasRole entries founder s r) (h' : HasRole entries founder s r') :
    r = r' := by
  obtain ⟨w, hw, hr⟩ := h
  obtain ⟨w', hw', hr'⟩ := h'
  rw [hw.unique hw'] at hr
  exact hr.unique hr'

theorem PeerStatus.eq_of_revoked_iff {a b : PeerStatus} (h : a = .revoked ↔ b = .revoked) :
    a = b := by
  cases a with
  | active =>
    cases b with
    | active => rfl
    | revoked => cases h.2 rfl
  | revoked => exact (h.1 rfl).symm

def PeerRecord.membership (rec : PeerRecord) : UInt64 × Bytes32 × PeerStatus × Role :=
  (rec.peerId, rec.verifyingKey, rec.status, rec.role)

theorem mem_membership : (s, k, st, r) ∈ (mergeRoster entries founder).map PeerRecord.membership ↔
      (∃ e r, AdminGrant entries founder s e r) ∧ HasKey entries founder s k ∧
        (st = .revoked ↔ IsRevoked entries founder s) ∧ HasRole entries founder s r := by
  rw [List.mem_map]
  constructor
  · rintro ⟨rec, hrec, he⟩
    cases he
    exact ⟨mem_mergeRoster_peer.1 ⟨rec, hrec, rfl⟩, mergeRoster_record hrec⟩
  · rintro ⟨hg, hk, hst, hr⟩
    obtain ⟨rec, hrec, rfl⟩ := mem_mergeRoster_peer.2 hg
    obtain ⟨hk', hst', hr'⟩ := mergeRoster_record hrec
    refine ⟨rec, hrec, ?_⟩
    have hs := PeerStatus.eq_of_revoked_iff (hst'.trans hst.symm)
    rw [PeerRecord.membership, hk'.unique hk, hr'.unique hr, hs]

theorem ascending_ext {f : α → UInt64} {as bs : List α} (ha : (as.map f).Pairwise (· < ·))
    (hb : (bs.map f).Pairwise (· < ·)) (h : ∀ x, x ∈ as ↔ x ∈ bs) : as = bs := by
  rw [List.pairwise_map] at ha hb
  have hnd {l : List α} (hl : l.Pairwise fun a b => f a < f b) : l.Nodup := by
    apply List.Pairwise.imp ?_ hl
    rintro a b hlt rfl
    exact lt_irrefl _ hlt
  apply List.Perm.eq_of_pairwise ?_ ha hb ((List.perm_ext_iff_of_nodup (hnd ha) (hnd hb)).2 h)
  intro a b _ _ hab hba
  exact absurd hab hba.not_gt

theorem membership_of_adminEntry {l₁ l₂ : List RosterEntry}
    (h : AdminEntry l₁ founder = AdminEntry l₂ founder) :
    (mergeRoster l₁ founder).map PeerRecord.membership =
      (mergeRoster l₂ founder).map PeerRecord.membership := by
  have hasc (l : List RosterEntry) :
      (((mergeRoster l founder).map PeerRecord.membership).map Prod.fst).Pairwise (· < ·) := by
    rw [List.map_map]
    exact mergeRoster_ascending l founder
  apply ascending_ext (hasc l₁) (hasc l₂)
  rintro ⟨s, k, st, r⟩
  rw [mem_membership, mem_membership, hasRole_of_adminEntry h]
  simp only [HasKey, IsRevoked, AdminGrant, h]

/-- Membership is a function of the set of entries: lists with the same members, in any order
and with any repetition, give the same records up to the display name. -/
theorem mergeRoster_same_set {l₁ l₂ : List RosterEntry} (founder : Option UInt64)
    (h : ∀ e, e ∈ l₁ ↔ e ∈ l₂) : (mergeRoster l₁ founder).map PeerRecord.membership =
      (mergeRoster l₂ founder).map PeerRecord.membership :=
  membership_of_adminEntry (adminEntry_congr h)

def sampleEntry (seq lamport : UInt64) (op : RosterOp) (subject author : UInt8) : RosterEntry where
  seq := seq
  lamport := lamport
  op := op
  subjectPeer := derivedPeerId (.replicate subject)
  subjectKey := .replicate subject
  addedBy := derivedPeerId (.replicate author)

theorem mergeRoster_same_set_tie : (mergeRoster
        [sampleEntry 1 1 (.add .admin) 1 1, sampleEntry 2 2 (.setRole .admin) 2 1,
          sampleEntry 2 2 (.setRole .reader) 2 1]
        (some (derivedPeerId (.replicate 1)))).map PeerRecord.membership = (mergeRoster
        [sampleEntry 2 2 (.setRole .reader) 2 1, sampleEntry 2 2 (.setRole .admin) 2 1,
          sampleEntry 1 1 (.add .admin) 1 1, sampleEntry 2 2 (.setRole .admin) 2 1]
        (some (derivedPeerId (.replicate 1)))).map PeerRecord.membership := by
  apply mergeRoster_same_set
  intro e
  simp only [List.mem_cons, List.not_mem_nil, or_false]
  tauto

/-- Revocation is terminal, and no added entry removes a peer. -/
theorem mergeRoster_revoked_terminal {l₁ l₂ : List RosterEntry} (founder : Option UInt64)
    (h : l₁ ⊆ l₂) (p : UInt64) (hp : ∃ rec ∈ mergeRoster l₁ founder, rec.peerId = p) :
    (∃ rec ∈ mergeRoster l₂ founder, rec.peerId = p) ∧
      ((∃ rec ∈ mergeRoster l₁ founder, rec.peerId = p ∧ rec.status = .revoked) →
        ∀ rec ∈ mergeRoster l₂ founder, rec.peerId = p → rec.status = .revoked) := by
  obtain ⟨e, r, hg⟩ := mem_mergeRoster_peer.1 hp
  refine ⟨mem_mergeRoster_peer.2 ⟨e, r, adminGrant_mono h hg⟩, ?_⟩
  rintro ⟨rec, hrec, rfl, hst⟩ rec' hrec' hp'
  obtain ⟨e', he', hop⟩ := (mergeRoster_record hrec).2.1.1 hst
  apply (mergeRoster_record hrec').2.1.2
  rw [hp']
  exact ⟨e', adminEntry_mono h he', hop⟩

theorem mergeRoster_revoked_terminal_readd : ∃ rec ∈ mergeRoster
        [sampleEntry 1 1 (.add .writer) 3 1, sampleEntry 2 2 .revoke 3 1,
          sampleEntry 3 3 (.add .admin) 2 1, sampleEntry 1 3 (.add .writer) 3 2]
        (some (derivedPeerId (.replicate 1))),
      rec.peerId = derivedPeerId (.replicate 3) ∧ rec.status = .revoked := by
  have h := @mergeRoster_revoked_terminal
    [sampleEntry 1 1 (.add .writer) 3 1, sampleEntry 2 2 .revoke 3 1]
    [sampleEntry 1 1 (.add .writer) 3 1, sampleEntry 2 2 .revoke 3 1,
      sampleEntry 3 3 (.add .admin) 2 1, sampleEntry 1 3 (.add .writer) 3 2]
    (some (derivedPeerId (.replicate 1))) (List.sublist_append_left _ _).subset
    (derivedPeerId (.replicate 3)) (by decide +kernel)
  obtain ⟨rec, hrec, hp⟩ := h.1
  exact ⟨rec, hrec, hp, h.2 (by decide +kernel) rec hrec hp⟩

end Roam
