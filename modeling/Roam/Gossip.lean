import Roam.EngineSpec
import Roam.Library.Exchange

namespace Roam
set_option autoImplicit true
open Library

structure Packet where
  src : UInt64
  dst : UInt64
  frame : Frame
deriving DecidableEq

/-- Which engine takes a packet, and what it meets while it handles the frame. A packet that is
taken for an engine that it is not addressed to is lost. -/
structure Taking (n : Nat) where
  engine : Fin n
  order : RosterOrder
  io : Io
  elsewhere : String → Option Bytes

/-- Engines that only handle frames. A peer is always or never reachable from another one, both for
frames and to be dialed. -/
def gossip (π : SyncPlatform) (n : Nat) (reach : UInt64 → UInt64 → Bool) :
    Exchange (Fin n → Engine π) Packet (Taking n) where
  handle engines packet taking :=
    let e := engines taking.engine
    if packet.dst = e.peerId then
      let env : Env :=
        { order := taking.order, io := taking.io, dial := reach e.peerId,
          elsewhere := taking.elsewhere }
      let (e', acts) := e.handle env packet.src packet.frame
      (Function.update engines taking.engine e',
        (sends acts).map fun sent => { src := e.peerId, dst := sent.1, frame := sent.2 })
    else (engines, [])
  arrives packet := reach packet.src packet.dst

namespace Engine
variable {π : SyncPlatform}

def unmet (e : Engine π) : Nat := (Finset.univ.filter fun p : UInt64 => p ∉ e.connected).card

theorem unmet_le {e e' : Engine π} (h : ∀ p ∈ e.connected, p ∈ e'.connected) :
    e'.unmet ≤ e.unmet := by
  apply Finset.card_le_card
  intro p hp
  rw [Finset.mem_filter] at hp ⊢
  exact ⟨hp.1, fun hmem => hp.2 (h p hmem)⟩

theorem unmet_lt {e e' : Engine π} (h : ∀ p ∈ e.connected, p ∈ e'.connected)
    (hp : p ∈ e'.connected) (hnew : p ∉ e.connected) : e'.unmet < e.unmet := by
  apply Finset.card_lt_card
  refine ⟨?_, ?_⟩
  · intro q hq
    rw [Finset.mem_filter] at hq ⊢
    exact ⟨hq.1, fun hmem => hq.2 (h q hmem)⟩
  · intro hsub
    have hmem := hsub (Finset.mem_filter.2 ⟨Finset.mem_univ p, hnew⟩)
    exact (Finset.mem_filter.1 hmem).2 hp

end Engine

variable {π : SyncPlatform} {reach : UInt64 → UInt64 → Bool}

def meshUnmet (engines : Fin n → Engine π) : Nat := ∑ i, (engines i).unmet

theorem meshUnmet_update_le {engines : Fin n → Engine π} {e' : Engine π}
    (h : e'.unmet ≤ (engines i).unmet) :
    meshUnmet (Function.update engines i e') ≤ meshUnmet engines := by
  apply Finset.sum_le_sum
  intro j _
  by_cases hj : j = i
  · subst hj
    rwa [Function.update_self]
  · rw [Function.update_of_ne hj]

theorem meshUnmet_update_lt {engines : Fin n → Engine π} {e' : Engine π}
    (h : e'.unmet < (engines i).unmet) :
    meshUnmet (Function.update engines i e') < meshUnmet engines := by
  apply Finset.sum_lt_sum
  · intro j _
    by_cases hj : j = i
    · subst hj
      rw [Function.update_self]
      exact h.le
    · rw [Function.update_of_ne hj]
  · exact ⟨i, Finset.mem_univ i, by rwa [Function.update_self]⟩

theorem gossip_settles : (gossip π n reach).Settles meshUnmet fun packet => packet.frame.rank where
  budget_le engines packet taking := by
    dsimp only [gossip]
    split
    next => exact meshUnmet_update_le (Engine.unmet_le (Engine.handle_outcome _ _ _ _).progress.1)
    next => exact le_rfl
  progress engines packet taking := by
    dsimp only [gossip]
    split
    next =>
      obtain ⟨hkeeps, hnew | hrank⟩ :=
        (Engine.handle_outcome _ (engines taking.engine) packet.src packet.frame).progress
      · obtain ⟨p, hp, hnew⟩ := hnew
        exact .inl (meshUnmet_update_lt (Engine.unmet_lt hkeeps hp hnew))
      · right
        intro m hm
        obtain ⟨sent, hs, rfl⟩ := List.mem_map.1 hm
        exact hrank sent hs
    next => exact .inr fun m hm => absurd hm List.not_mem_nil

/-- Whatever engines meet, whatever is under way between them and in whatever order it is delivered,
from some moment on nothing is sent any more. -/
theorem gossip_quiesces (reach : UInt64 → UInt64 → Bool) (engines : Fin n → Engine π)
    (flight : Multiset Packet) (schedule : Nat → Packet × Taking n) : ∃ last, ∀ k, last ≤ k →
      (gossip π n reach).after ⟨engines, flight, []⟩ schedule k =
        (gossip π n reach).after ⟨engines, flight, []⟩ schedule last :=
  gossip_settles.quiesces _ schedule

end Roam
