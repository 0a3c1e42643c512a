import Roam.EngineSpec
import Roam.Library.Run
import Roam.PlainPlatform

namespace Roam
set_option autoImplicit true
open Library Library.Fallible

def Frame.carriesContent : Frame → Bool
  | .ops _ _ | .rosterOps _ _ | .keylogOps _ _ | .blobChunk _ _ _ _ | .snapshotHave _
  | .snapshotData _ => true
  | _ => false

inductive EngineOp
  | editText (io : Io) (id : String) (pos : Nat) (s : String)
  | flushLocal
  | addPeer (orders : RosterOrder × RosterOrder) (peer : UInt64) (key : Bytes32) (role : Role)
  | revokePeer (orders : RosterOrder × RosterOrder) (peer : UInt64) (key : Bytes32)
  | setRole (orders : RosterOrder × RosterOrder) (peer : UInt64) (key : Bytes32) (role : Role)
  | setDeviceName (orders : RosterOrder × RosterOrder) (name : String)
  | rotateEpoch (seed : Store.RotationSeed) (paperPublic : Option Bytes32)
  | backfillWraps (wraps : Nat → WrapSeed)
  | requestMissingBlobs
  | handle (env : Env) (peer : UInt64) (frame : Frame)

structure Release where
  roster : List PeerRecord
  peer : UInt64
  frame : Frame

def Release.Allowed (r : Release) : Prop :=
  r.frame.carriesContent = true → ∃ p ∈ r.roster, p.peerId = r.peer ∧ p.status = .active

instance (r : Release) : Decidable r.Allowed := inferInstanceAs (Decidable (_ → _))

namespace Engine
variable {π : SyncPlatform} {e : Engine π}

def run (e : Engine π) : EngineOp → Engine π × List Act
  | .editText io id pos s => (e.editText io id pos s).2
  | .flushLocal => e.flushLocal
  | .addPeer orders peer key role => (e.addPeer orders peer key role).2
  | .revokePeer orders peer key => (e.revokePeer orders peer key).2
  | .setRole orders peer key role => (e.setRole orders peer key role).2
  | .setDeviceName orders name => (e.setDeviceName orders name).2
  | .rotateEpoch seed paperPublic => (e.rotateEpoch seed paperPublic).2
  | .backfillWraps wraps => (e.backfillWraps wraps).2
  | .requestMissingBlobs => (e, e.requestMissingBlobs)
  | .handle env peer frame => e.handle env peer frame

def after (e : Engine π) (op : EngineOp) : Engine π := (e.run op).1

/-- The frames of an operation. Every operation changes the store before it sends the first one, so
the roster it leaves is the roster of that moment. -/
def releases (e : Engine π) (op : EngineOp) : List Release :=
  (sends (e.run op).2).map fun m => ⟨(e.after op).store.peers, m.1, m.2⟩

section Condition

def BehindActive (e : Engine π) : Prop :=
  ∀ peer offset, e.sentOffsets[peer]? = some offset → offset < e.store.exportOwnLog.length →
    e.isActive peer = true

def ConnectedActive (e : Engine π) : Prop := ∀ peer ∈ e.connected, e.isActive peer = true

def AfterStore (e : Engine π) (op : StoreM π.toPlatform α) (P : Engine π → α → Prop) : Prop :=
  ∀ a store, exec op e.store = (.ok a, store) → P { e with store } a

/-- The peers that an operation pushes to without asking the roster are active: those that lack some
of the own log at a flush, and the connected ones at a broadcast. -/
def Gated (e : Engine π) : EngineOp → Prop
  | .editText io id pos s =>
    e.AfterStore (Store.editText io id pos s) fun e _ => e.BehindActive
  | .flushLocal => e.BehindActive
  | .addPeer orders peer key role =>
    e.AfterStore (Store.addPeer orders peer key role) fun e _ => e.ConnectedActive
  | .revokePeer orders peer key =>
    e.AfterStore (Store.revokePeer orders peer key) fun e _ => (e.forget peer).ConnectedActive
  | .setRole orders peer key role =>
    e.AfterStore (Store.setRole orders peer key role) fun e _ => e.ConnectedActive
  | .setDeviceName orders name =>
    e.AfterStore (Store.setDeviceName orders name) fun e _ => e.ConnectedActive
  | .rotateEpoch seed paperPublic =>
    e.AfterStore (Store.rotateEpoch seed e.subkeys.1 e.subkeys.2 paperPublic) fun e _ =>
      e.ConnectedActive
  | .backfillWraps wraps =>
    e.AfterStore (Store.backfillWraps wraps e.subkeys.1 e.subkeys.2) fun e published =>
      0 < published → e.ConnectedActive
  | .requestMissingBlobs | .handle _ _ _ => True

end Condition

def SendsGated (r : Engine π × List Act) : Prop :=
  ∀ m ∈ sends r.2, m.2.carriesContent = true → r.1.isActive m.1 = true

theorem releases_allowed_iff : (∀ r ∈ e.releases op, r.Allowed) ↔ SendsGated (e.run op) := by
  simp only [releases, List.forall_mem_map, Release.Allowed, SendsGated, isActive_iff, after]

theorem afterStore_congr {op : StoreM π.toPlatform α} {P Q : Engine π → α → Prop}
    (h : ∀ e a, P e a ↔ Q e a) : e.AfterStore op P ↔ e.AfterStore op Q :=
  forall_congr' fun a => forall_congr' fun _ => forall_congr' fun _ => h _ a

theorem withStore_gated_iff {next : Engine π → α → Engine π × List Act} :
    SendsGated (e.withStore op next).2 ↔ e.AfterStore op fun e a => SendsGated (next e a) := by
  rw [withStore, AfterStore]
  constructor
  · intro h a store hexec
    rw [hexec] at h
    exact h
  · intro h
    split
    next a store hexec => exact h a store hexec
    next => exact fun m hm => absurd hm List.not_mem_nil

theorem flushLocal_gated_iff : SendsGated e.flushLocal ↔ e.BehindActive := by
  constructor
  · intro h peer offset ho hlt
    exact h (peer, _) (mem_sends_flushLocal.2 ⟨offset, ho, hlt, rfl⟩) rfl
  · intro h m hm _
    obtain ⟨offset, ho, hlt, _⟩ := mem_sends_flushLocal.1 hm
    exact h m.1 offset ho hlt

theorem broadcast_gated_iff (hf : frame.carriesContent = true)
    (hs : sends acts = sends (e.broadcast frame)) : SendsGated (e, acts) ↔ e.ConnectedActive := by
  rw [SendsGated, hs]
  constructor
  · intro h peer hp
    exact h (peer, frame) (mem_sends_broadcast.2 ⟨hp, rfl⟩) hf
  · intro h m hm _
    exact h m.1 (mem_sends_broadcast.1 hm).1

theorem requestMissingBlobs_gated (e : Engine π) : SendsGated (e, e.requestMissingBlobs) := by
  intro m hm hcontent
  rw [requestMissingBlobs, sends, List.mem_filterMap] at hm
  obtain ⟨act, hact, hm⟩ := hm
  obtain ⟨_, _, hact⟩ := List.mem_flatMap.1 hact
  obtain ⟨_, _, rfl⟩ := List.mem_map.1 hact
  cases hm
  cases hcontent

theorem run_gated_iff (e : Engine π) (op : EngineOp) : SendsGated (e.run op) ↔ e.Gated op := by
  cases op with
  | editText io id pos s =>
    exact withStore_gated_iff.trans (afterStore_congr fun e _ => flushLocal_gated_iff)
  | flushLocal => exact flushLocal_gated_iff
  | addPeer orders peer key role =>
    exact withStore_gated_iff.trans (afterStore_congr fun e _ => broadcast_gated_iff rfl rfl)
  | revokePeer orders peer key =>
    exact withStore_gated_iff.trans (afterStore_congr fun e _ => broadcast_gated_iff rfl rfl)
  | setRole orders peer key role =>
    exact withStore_gated_iff.trans (afterStore_congr fun e _ => broadcast_gated_iff rfl rfl)
  | setDeviceName orders name =>
    exact withStore_gated_iff.trans (afterStore_congr fun e _ => broadcast_gated_iff rfl rfl)
  | rotateEpoch seed paperPublic =>
    exact withStore_gated_iff.trans (afterStore_congr fun e _ => broadcast_gated_iff rfl rfl)
  | backfillWraps wraps =>
    rw [Gated]
    refine withStore_gated_iff.trans ?_
    apply afterStore_congr
    intro e published
    split
    next hp =>
      rw [forall_prop_of_true hp]
      exact broadcast_gated_iff rfl rfl
    next hp => exact iff_of_true (fun m hm => absurd hm List.not_mem_nil) fun h => absurd h hp
  | requestMissingBlobs => exact iff_of_true (requestMissingBlobs_gated e) trivial
  | handle env peer frame =>
    exact iff_of_true (fun m hm _ => (handle_outcome env e peer frame).active hm) trivial

/-- In a run, every frame with content goes to a peer that the roster lists as active, exactly if
every operation is gated. -/
theorem readGate_iff (e : Engine π) (ops : List EngineOp) :
    (∀ r ∈ outputs after releases e ops, r.Allowed) ↔ Along after Gated e ops :=
  forall_outputs_iff fun e op => releases_allowed_iff.trans (run_gated_iff e op)

end Engine

section Sample

abbrev openSync : SyncPlatform where
  toPlatform := openPlatform
  fileEntry _ := none
  manifest _ := none
  heldJson := { parse := fun _ => .error "no object", render := fun _ => [] }
  b64UrlDecode _ := none

def noFiles : SyncFiles where
  parts := ∅
  objects := ∅
  held := none

def deviceId (n : UInt8) : UInt64 := derivedPeerId (.replicate n)

def callsOn (identity : UInt8) (calls : List (StoreM openPlatform Unit)) : Store openPlatform :=
  calls.foldl (fun s call => (exec call s).2) (Store.fresh (plainIdentity identity) [])

def threeFounder : Store openPlatform :=
  callsOn 1 [Store.declareFounder (ascending, ascending) .admin,
    Store.addPeer (ascending, ascending) (deviceId 2) (.replicate 2) .admin,
    Store.addPeer (ascending, ascending) (deviceId 3) (.replicate 3) .writer]

def threeAdmin : Store openPlatform :=
  callsOn 2 [Store.importRosterBundle ascending threeFounder.exportAllRosters,
    Store.pinFounder ascending (deviceId 1),
    Store.revokePeer (ascending, ascending) (deviceId 3) (.replicate 3)]

def threeEngine : Engine openSync :=
  .new (plainIdentity 1) (.replicate 9) (.replicate 8) threeFounder noFiles

def sampleEnv : Env where
  order := ascending
  io := .done
  dial _ := false
  elsewhere _ := none

def revokedRun : List EngineOp :=
  [.handle sampleEnv (deviceId 3) (.hello (.replicate 9)),
    .handle sampleEnv (deviceId 2) (.rosterOps (deviceId 2) threeAdmin.exportOwnRoster),
    .editText .done "text" 0 "x"]

/-- The founder pushes its edit to the writer that another admin has revoked. -/
theorem pushes_to_revoked :
    ∃ r ∈ outputs Engine.after Engine.releases threeEngine revokedRun, ¬ r.Allowed := by
  decide +kernel

end Sample

end Roam
