import Roam.RosterSpec

namespace Roam
set_option autoImplicit true
open Library

section
variable {founder : Option UInt64} {entries entries' : List RosterEntry} {e : RosterEntry}

structure Joins (founder : Option UInt64) (entries : List RosterEntry) (e : RosterEntry)
    (entries' : List RosterEntry) : Prop where
  old : entries ⊆ entries'
  new : e ∈ entries'
  author : EverAdmin entries founder e.addedBy
  valid : e.subjectPeer = derivedPeerId e.subjectKey

/-- No other grants about the subject count than before. -/
def Joins.Settled (founder : Option UInt64) (entries : List RosterEntry) (e : RosterEntry)
    (entries' : List RosterEntry) : Prop :=
  ∀ x r, AdminGrant entries' founder e.subjectPeer x r →
    AdminGrant entries founder e.subjectPeer x r ∨ x = e

theorem Joins.adminGrant_iff (h : Joins founder entries e entries')
    (hs : Joins.Settled founder entries e entries') :
    AdminGrant entries' founder e.subjectPeer x r ↔
      AdminGrant entries founder e.subjectPeer x r ∨ x = e ∧ e.op.grant? = some r := by
  constructor
  · intro hx
    cases hs x r hx with
    | inl hold => exact .inl hold
    | inr hxe =>
      subst hxe
      exact .inr ⟨rfl, hx.2⟩
  · intro hx
    cases hx with
    | inl hx => exact adminGrant_mono h.old hx
    | inr hx =>
      obtain ⟨rfl, hr⟩ := hx
      exact ⟨⟨⟨h.new, h.valid⟩, everAdmin_mono h.old h.author, rfl⟩, hr⟩

theorem Joins.grantedAt_iff (h : Joins founder entries e entries')
    (hs : Joins.Settled founder entries e entries') (hr : e.op.grant? = some r) :
    GrantedAt entries' founder e.subjectPeer l ↔
      GrantedAt entries founder e.subjectPeer l ∨ l = e.lamport := by
  constructor
  · intro hl
    obtain ⟨x, r', hx, rfl⟩ := hl
    cases (h.adminGrant_iff hs).1 hx with
    | inl hx => exact .inl ⟨x, r', hx, rfl⟩
    | inr hx => exact .inr (hx.1 ▸ rfl)
  · intro hl
    cases hl with
    | inl hl =>
      obtain ⟨x, r', hx, rfl⟩ := hl
      exact ⟨x, r', adminGrant_mono h.old hx, rfl⟩
    | inr hl => exact ⟨e, r, (h.adminGrant_iff hs).2 (.inr ⟨rfl, hr⟩), hl.symm⟩

section
variable (h : Joins founder entries e entries') (hs : Joins.Settled founder entries e entries')
variable (hr : e.op.grant? = some r)
variable (hlt : ∀ l, GrantedAt entries founder e.subjectPeer l → l < e.lamport)
include h hs hr hlt

theorem Joins.hasRole_of_gapFree
    (hg : GapFree (GrantedAt entries founder e.subjectPeer) e.lamport) :
    HasRole entries' founder e.subjectPeer r := by
  have hgrant := (h.adminGrant_iff hs).2 (.inr ⟨rfl, hr⟩)
  have hd : Decision entries' founder e.subjectPeer e r :=
    ⟨hgrant, (inRun_top_iff fun _ => h.grantedAt_iff hs hr).2 hg⟩
  have hother (x : RosterEntry) (r' : Role) (hx : Decision entries' founder e.subjectPeer x r') :
      stamp x < stamp e ∨ x = e ∧ r' = r := by
    cases (h.adminGrant_iff hs).1 hx.1 with
    | inl hold =>
      have hl := hlt x.lamport ⟨x, r', hold, rfl⟩
      exact .inl (Prod.Lex.toLex_lt_toLex.2 (.inl hl))
    | inr hnew => exact .inr ⟨hnew.1, Option.some.inj (hnew.2.symm.trans hr)⟩
  refine ⟨stamp e, ⟨⟨e, r, hd, rfl⟩, ?_⟩, ⟨e, hd, rfl⟩, ?_⟩
  · intro w hw
    obtain ⟨x, r', hx, rfl⟩ := hw
    cases hother x r' hx with
    | inl hlt => exact hlt.le
    | inr heq => exact heq.1 ▸ le_rfl
  · intro r' hr'
    obtain ⟨x, hx, hst⟩ := hr'
    cases hother x r' hx with
    | inl hlt => exact absurd hst hlt.ne
    | inr heq => exact heq.2.ge

theorem Joins.hasRole_of_gap (hg : ¬ GapFree (GrantedAt entries founder e.subjectPeer) e.lamport) :
    HasRole entries' founder e.subjectPeer = HasRole entries founder e.subjectPeer := by
  have hd : Decision entries' founder e.subjectPeer = Decision entries founder e.subjectPeer := by
    funext x r'
    apply propext
    constructor
    · intro hx
      cases (h.adminGrant_iff hs).1 hx.1 with
      | inl hold =>
        have hl := hlt x.lamport ⟨x, r', hold, rfl⟩
        exact ⟨hold, (inRun_below_iff (fun _ => h.grantedAt_iff hs hr) hl).1 hx.2⟩
      | inr hnew =>
        obtain ⟨rfl, _⟩ := hnew
        exact absurd ((inRun_top_iff fun _ => h.grantedAt_iff hs hr).1 hx.2) hg
    · intro hx
      have hl := hlt x.lamport ⟨x, r', hx.1, rfl⟩
      exact ⟨adminGrant_mono h.old hx.1,
        (inRun_below_iff (fun _ => h.grantedAt_iff hs hr) hl).2 hx.2⟩
  unfold HasRole
  rw [hd]

end

end

end Roam
