import Roam.Engine

namespace Roam
set_option autoImplicit true
open Library

def sends (acts : List Act) : List (UInt64 × Frame) :=
  acts.filterMap fun
    | .send peer frame => some (peer, frame)
    | _ => none

@[simp] theorem sends_nil : sends [] = [] := rfl

@[simp] theorem sends_append (acts more : List Act) :
    sends (acts ++ more) = sends acts ++ sends more :=
  List.filterMap_append

@[simp] theorem sends_send (peer : UInt64) (frame : Frame) (acts : List Act) :
    sends (.send peer frame :: acts) = (peer, frame) :: sends acts := rfl

@[simp] theorem sends_dial (peer : UInt64) (acts : List Act) :
    sends (.dial peer :: acts) = sends acts := rfl

@[simp] theorem sends_addRoute (peer : UInt64) (key : Bytes32) (acts : List Act) :
    sends (.addRoute peer key :: acts) = sends acts := rfl

@[simp] theorem sends_removeRoute (peer : UInt64) (acts : List Act) :
    sends (.removeRoute peer :: acts) = sends acts := rfl

@[simp] theorem sends_localFlush (acts : List Act) : sends (.localFlush :: acts) = sends acts := rfl

@[simp] theorem sends_changed (acts : List Act) : sends (.changed :: acts) = sends acts := rfl

theorem sends_map (l : List α) (peer : α → UInt64) (frame : α → Frame) :
    sends (l.map fun a => .send (peer a) (frame a)) = l.map fun a => (peer a, frame a) := by
  induction l with
  | nil => rfl
  | cons a l ih => rw [List.map_cons, List.map_cons, sends_send, ih]

def Frame.rank : Frame → Nat
  | .have _ => 3
  | .snapshotHave _ => 2
  | .rosterHave _ | .keylogHave _ | .blobWant _ | .snapshotWant _ => 1
  | _ => 0

namespace Engine
variable {π : SyncPlatform} {e : Engine π}

@[simp] theorem sends_sendAll (peer : UInt64) (frames : List Frame) :
    sends (sendAll peer frames) = frames.map fun frame => (peer, frame) :=
  sends_map frames (fun _ => peer) id

@[simp] theorem sends_notifyIf (b : Bool) : sends (notifyIf b) = [] := by cases b <;> rfl

theorem sends_broadcast (e : Engine π) (frame : Frame) :
    sends (e.broadcast frame) = e.connected.toList.map fun peer => (peer, frame) :=
  sends_map e.connected.toList id fun _ => frame

theorem mem_sends_broadcast :
    (peer, frame') ∈ sends (e.broadcast frame) ↔ peer ∈ e.connected ∧ frame' = frame := by
  rw [sends_broadcast, List.mem_map]
  simp only [Std.TreeSet.mem_toList, Prod.mk.injEq]
  constructor
  · rintro ⟨p, hp, rfl, rfl⟩
    exact ⟨hp, rfl⟩
  · rintro ⟨hp, rfl⟩
    exact ⟨peer, hp, rfl, rfl⟩

theorem mem_pushes : (peer, jsonl) ∈ e.pushes ↔
      ∃ offset, e.sentOffsets[peer]? = some offset ∧ offset < e.store.exportOwnLog.length ∧
        jsonl = e.store.exportOwnLog.drop offset := by
  have hempty (offset : Nat) : (unsent e.store.exportOwnLog offset).isEmpty = true ↔
      e.store.exportOwnLog.length ≤ offset := by
    rw [unsent, List.isEmpty_iff, List.drop_eq_nil_iff]
    omega
  simp only [pushes, List.mem_filterMap]
  constructor
  · rintro ⟨⟨p, offset⟩, hp, h⟩
    split at h
    next => cases h
    next hne =>
      cases h
      rw [hempty, not_le] at hne
      refine ⟨offset, Std.TreeMap.mem_toList_iff_getElem?_eq_some.1 hp, hne, ?_⟩
      rw [unsent, min_eq_left hne.le]
  · rintro ⟨offset, hp, hlt, rfl⟩
    refine ⟨(peer, offset), Std.TreeMap.mem_toList_iff_getElem?_eq_some.2 hp, ?_⟩
    rw [if_neg (mt (hempty offset).1 hlt.not_ge), unsent, min_eq_left hlt.le]

theorem mem_sends_flushLocal : (peer, frame) ∈ sends e.flushLocal.2 ↔
      ∃ offset, e.sentOffsets[peer]? = some offset ∧ offset < e.store.exportOwnLog.length ∧
        frame = .ops e.peerId (e.store.exportOwnLog.drop offset) := by
  rw [flushLocal, sends_append, sends_map, sends_localFlush, sends_nil, List.append_nil,
    List.mem_map]
  constructor
  · rintro ⟨⟨p, jsonl⟩, hp, h⟩
    cases h
    obtain ⟨offset, ho, hlt, rfl⟩ := mem_pushes.1 hp
    exact ⟨offset, ho, hlt, rfl⟩
  · rintro ⟨offset, ho, hlt, rfl⟩
    exact ⟨(peer, _), mem_pushes.2 ⟨offset, ho, hlt, rfl⟩, rfl⟩

section Connect
variable {dial : UInt64 → Bool} {e : Engine π}

theorem connect_store (peer : UInt64) : (e.connect dial peer).1.store = e.store := by
  rw [connect]
  split <;> rfl

theorem mem_connect_connected {p : UInt64} :
    p ∈ (e.connect dial peer).1.connected ↔ p ∈ e.connected ∨ p = peer ∧ dial peer = true := by
  rw [connect]
  split
  next h =>
    simp only [sendBundle, Std.TreeSet.mem_insert, compare_eq_iff_eq, h, and_true]
    rw [or_comm, eq_comm]
  next h => exact (or_iff_left fun hp => h hp.2).symm

theorem sends_connect (h : (p, frame) ∈ sends (e.connect dial peer).2) :
    p = peer ∧ dial peer = true := by
  rw [connect] at h
  split at h
  next hd =>
    simp only [sendBundle, sends_dial, sends_sendAll, List.mem_map, Prod.mk.injEq] at h
    obtain ⟨_, _, rfl, _⟩ := h
    exact ⟨rfl, hd⟩
  next => cases h

theorem connectAll_store (peers : List (UInt64 × Bytes32)) :
    (e.connectAll dial peers).1.store = e.store := by
  induction peers generalizing e with
  | nil => rfl
  | cons p peers ih => exact ih.trans (connect_store p.1)

theorem mem_connectAll_connected {p : UInt64} {peers : List (UInt64 × Bytes32)} :
    p ∈ (e.connectAll dial peers).1.connected ↔
      p ∈ e.connected ∨ p ∈ peers.map Prod.fst ∧ dial p = true := by
  induction peers generalizing e with
  | nil => exact ⟨.inl, fun h => h.elim id fun h => absurd h.1 List.not_mem_nil⟩
  | cons q peers ih =>
    rw [connectAll]
    simp only [ih, mem_connect_connected, List.map_cons, List.mem_cons, or_and_right, or_assoc]
    refine or_congr Iff.rfl (or_congr ?_ Iff.rfl)
    exact and_congr_right fun h => by rw [h]

theorem sends_connectAll {peers : List (UInt64 × Bytes32)}
    (h : (p, frame) ∈ sends (e.connectAll dial peers).2) :
    p ∈ peers.map Prod.fst ∧ dial p = true := by
  induction peers generalizing e with
  | nil => cases h
  | cons q peers ih =>
    simp only [connectAll, List.cons_append, sends_addRoute, sends_append, List.mem_append] at h
    cases h with
    | inl h =>
      obtain ⟨rfl, hd⟩ := sends_connect h
      exact ⟨List.mem_cons_self, hd⟩
    | inr h =>
      obtain ⟨hp, hd⟩ := ih h
      exact ⟨List.mem_cons_of_mem _ hp, hd⟩

end Connect

theorem isActive_iff :
    e.isActive peer = true ↔ ∃ p ∈ e.store.peers, p.peerId = peer ∧ p.status = .active := by
  simp only [isActive, List.any_eq_true, decide_eq_true_eq]

theorem isActive_congr {e e' : Engine π} (h : e'.store = e.store) (peer : UInt64) :
    e'.isActive peer = e.isActive peer := by
  rw [isActive, isActive, h]

theorem mem_newPeers (h : p ∈ e.newPeers.map Prod.fst) : e.isActive p = true ∧ p ∉ e.connected := by
  simp only [newPeers, activePeers, List.map_map, List.mem_map, List.mem_filter, decide_eq_true_eq,
    Bool.not_eq_true', Function.comp_apply] at h
  obtain ⟨record, ⟨⟨hmem, hactive, _⟩, hnew⟩, rfl⟩ := h
  refine ⟨isActive_iff.2 ⟨record, hmem, rfl, hactive⟩, ?_⟩
  rw [← Std.TreeSet.contains_iff_mem, hnew]
  exact Bool.false_ne_true

/-- What handling a frame can do: stay quiet, answer an active peer with frames of lower rank, greet
an active peer for the first time, or introduce itself to the peers that a roster brought. -/
inductive Handled (dial : UInt64 → Bool) (e : Engine π) (peer : UInt64) (frame : Frame) :
    Engine π → List (UInt64 × Frame) → Prop
  | quiet (e' : Engine π) (hc : e'.connected = e.connected) : Handled dial e peer frame e' []
  | replied (e' : Engine π) (frames : List Frame) (hactive : e.isActive peer = true)
      (hs : e'.store = e.store) (hc : e'.connected = e.connected)
      (hrank : ∀ f ∈ frames, f.rank < frame.rank) :
      Handled dial e peer frame e' (frames.map fun f => (peer, f))
  | greeted (e₁ : Engine π) (hc : e₁.connected = e.connected) (hactive : e₁.isActive peer = true)
      (hnew : peer ∉ e₁.connected) :
      Handled dial e peer frame (e₁.sendBundle peer).1 (sends (e₁.sendBundle peer).2)
  | introduced (e₁ : Engine π) (hc : e₁.connected = e.connected) :
      Handled dial e peer frame (e₁.connectAll dial e₁.newPeers).1
        (sends (e₁.connectAll dial e₁.newPeers).2)

theorem rank_logFrames (h : f ∈ e.logFrames) : f.rank = 0 := by
  simp only [logFrames, List.mem_cons, List.mem_map] at h
  obtain rfl | ⟨_, _, rfl⟩ := h <;> rfl

theorem rank_keylogFrames (h : f ∈ e.keylogFrames) : f.rank = 0 := by
  simp only [keylogFrames, List.mem_cons, List.mem_map] at h
  obtain rfl | ⟨_, _, rfl⟩ := h <;> rfl

theorem rank_snapshotOffer {incoming : π.Version} (h : f ∈ e.snapshotOffer incoming) :
    f.rank = 2 := by
  rw [snapshotOffer, List.mem_ite_nil_left] at h
  rw [List.mem_singleton.1 h.2]
  rfl

theorem rank_serveChunks {hash : String} (h : f ∈ serveChunks hash blob fuel offset) :
    f.rank = 0 := by
  induction fuel generalizing offset with
  | zero => cases h
  | succ fuel ih =>
    simp only [serveChunks] at h
    split at h
    next =>
      split at h
      next => cases h
      next =>
        cases h with
        | head => rfl
        | tail _ h => exact ih h
    next => cases h

theorem rank_blobFrames {hash : String} (h : f ∈ blobFrames hash blob) : f.rank = 0 := by
  rw [blobFrames] at h
  split at h
  next => rw [List.mem_singleton.1 h]; rfl
  next => exact rank_serveChunks h

theorem rank_answer {env : Env} {frame : Frame} (h : f ∈ e.answer env frame) :
    f.rank < frame.rank := by
  cases frame with
  | «have» docVersion =>
    simp only [answer] at h
    split at h
    next =>
      cases List.mem_append.1 h with
      | inl h => rw [rank_logFrames h]; exact Nat.zero_lt_succ 2
      | inr h => rw [rank_snapshotOffer h]; exact Nat.lt_succ_self 2
    next => cases h
  | rosterHave authors => rw [List.mem_singleton.1 h]; exact Nat.zero_lt_one
  | keylogHave authors => rw [rank_keylogFrames h]; exact Nat.zero_lt_one
  | blobWant hash =>
    simp only [answer] at h
    split at h
    next => rw [rank_blobFrames h]; exact Nat.zero_lt_one
    next => cases h
  | snapshotHave ids =>
    simp only [answer, List.mem_map] at h
    obtain ⟨_, _, rfl⟩ := h
    exact Nat.one_lt_two
  | snapshotWant id =>
    simp only [answer] at h
    split at h
    next => rw [List.mem_singleton.1 h]; exact Nat.zero_lt_one
    next => cases h
  | hello | ops | rosterOps | ping | blobData | keylogOps | snapshotData | blobChunk => cases h

section Quiet
variable {e : Engine π}

theorem handleOps_quiet (env : Env) (author : UInt64) (jsonl : Bytes) :
    (e.handleOps env author jsonl).1.connected = e.connected ∧
      sends (e.handleOps env author jsonl).2 = [] := by
  rw [handleOps]
  split
  next => exact ⟨rfl, rfl⟩
  next =>
    split
    next => exact ⟨rfl, rfl⟩
    next =>
      split
      next => exact ⟨rfl, sends_notifyIf _⟩
      next => exact ⟨rfl, rfl⟩

theorem handleKeylogOps_connected (author : UInt64) (jsonl : Bytes) :
    (e.handleKeylogOps author jsonl).connected = e.connected := by
  rw [handleKeylogOps]
  split
  next => rfl
  next => split <;> rfl

theorem handleBlobData_quiet (hash : String) (bytes : Bytes) :
    (e.handleBlobData hash bytes).1.connected = e.connected ∧
      sends (e.handleBlobData hash bytes).2 = [] := by
  rw [handleBlobData]
  split
  next => exact ⟨rfl, rfl⟩
  next => split <;> exact ⟨rfl, rfl⟩

theorem completeBlob_quiet (hash : String) :
    (e.completeBlob hash).1.connected = e.connected ∧ sends (e.completeBlob hash).2 = [] := by
  simp only [completeBlob]
  split
  next => exact ⟨rfl, rfl⟩
  next => exact ⟨rfl, sends_notifyIf _⟩

theorem handleBlobChunk_quiet (hash : String) (offset totalLen : Nat) (bytes : Bytes) :
    (e.handleBlobChunk hash offset totalLen bytes).1.connected = e.connected ∧
      sends (e.handleBlobChunk hash offset totalLen bytes).2 = [] := by
  rw [handleBlobChunk]
  split
  next => exact ⟨rfl, rfl⟩
  next =>
    split
    next => exact ⟨rfl, rfl⟩
    next =>
      split
      next => exact ⟨rfl, rfl⟩
      next =>
        split
        next => exact ⟨rfl, rfl⟩
        next files _ =>
          dsimp only
          split
          next => exact ⟨rfl, rfl⟩
          next => exact completeBlob_quiet hash

theorem handleSnapshotData_quiet (env : Env) (framed : Bytes) :
    (e.handleSnapshotData env framed).1.connected = e.connected ∧
      sends (e.handleSnapshotData env framed).2 = [] := by
  rw [handleSnapshotData]
  split
  next => exact ⟨rfl, rfl⟩
  next =>
    dsimp only
    split
    next => exact ⟨rfl, sends_notifyIf _⟩
    next => exact ⟨rfl, rfl⟩

theorem acknowledge_same (peer : UInt64) (docVersion : Bytes) (incoming : π.Version) :
    (e.acknowledge peer docVersion incoming).store = e.store ∧
      (e.acknowledge peer docVersion incoming).connected = e.connected := by
  rw [acknowledge]
  split <;> exact ⟨rfl, rfl⟩

end Quiet

theorem Handled.of_quiet {dial : UInt64 → Bool} {r : Engine π × List Act}
    (h : r.1.connected = e.connected ∧ sends r.2 = []) :
    Handled dial e peer frame r.1 (sends r.2) := by
  rw [h.2]
  exact .quiet r.1 h.1

theorem reply_outcome (env : Env) (e : Engine π) (peer : UInt64) (frame : Frame) :
    Handled env.dial e peer frame (e.reply env peer frame).1
      (sends (e.reply env peer frame).2) := by
  rw [reply]
  split
  next hactive =>
    rw [sends_sendAll]
    exact .replied e _ hactive rfl rfl fun f hf => rank_answer hf
  next => exact .quiet e rfl

theorem handleHello_outcome (dial : UInt64 → Bool) (e : Engine π) (peer : UInt64)
    (vault : Bytes32) : Handled dial e peer (.hello vault) (e.handleHello peer vault).1
      (sends (e.handleHello peer vault).2) := by
  rw [handleHello]
  split
  next => exact .quiet e rfl
  next =>
    split
    next => exact .quiet e rfl
    next hactive =>
      dsimp only
      split
      next => exact .quiet _ rfl
      next hnew =>
        rw [Bool.not_eq_true', Bool.not_eq_false] at hactive
        rw [Std.TreeSet.contains_iff_mem] at hnew
        exact .greeted { e with sentOffsets := e.sentOffsets.insertIfNew peer 0 } rfl hactive hnew

theorem handleHave_outcome (env : Env) (e : Engine π) (peer : UInt64) (docVersion : Bytes) :
    Handled env.dial e peer (.have docVersion) (e.handleHave env peer docVersion).1
      (sends (e.handleHave env peer docVersion).2) := by
  rw [handleHave]
  split
  next => exact .quiet e rfl
  next =>
    split
    next hactive =>
      rw [sends_sendAll]
      obtain ⟨hs, hc⟩ := e.acknowledge_same peer docVersion _
      exact .replied _ _ hactive hs hc fun f hf => rank_answer hf
    next => exact .quiet e rfl

theorem handleRosterOps_outcome (env : Env) (e : Engine π) (peer author : UInt64) (jsonl : Bytes) :
    Handled env.dial e peer (.rosterOps author jsonl) (e.handleRosterOps env author jsonl).1
      (sends (e.handleRosterOps env author jsonl).2) := by
  rw [handleRosterOps]
  split
  next => exact .quiet e rfl
  next =>
    split
    next => exact .quiet e rfl
    next =>
      split
      next => exact .introduced _ rfl
      next => exact .quiet _ rfl

theorem handle_outcome (env : Env) (e : Engine π) (peer : UInt64) (frame : Frame) :
    Handled env.dial e peer frame (e.handle env peer frame).1
      (sends (e.handle env peer frame).2) := by
  cases frame with
  | hello vault => exact handleHello_outcome env.dial e peer vault
  | «have» docVersion => exact handleHave_outcome env e peer docVersion
  | ops author jsonl => exact .of_quiet (handleOps_quiet env author jsonl)
  | rosterOps author jsonl => exact handleRosterOps_outcome env e peer author jsonl
  | keylogOps author jsonl => exact .quiet _ (handleKeylogOps_connected author jsonl)
  | rosterHave authors => exact reply_outcome env e peer _
  | keylogHave authors => exact reply_outcome env e peer _
  | blobWant hash => exact reply_outcome env e peer _
  | snapshotHave ids => exact reply_outcome env e peer _
  | snapshotWant id => exact reply_outcome env e peer _
  | blobData hash bytes => exact .of_quiet (handleBlobData_quiet hash bytes)
  | blobChunk hash offset totalLen bytes =>
    exact .of_quiet (handleBlobChunk_quiet hash offset totalLen bytes)
  | snapshotData framed =>
    rw [handle]
    split
    next => exact .of_quiet (handleSnapshotData_quiet env framed)
    next => exact .quiet e rfl
  | ping => exact .quiet e rfl

theorem Handled.active {dial : UInt64 → Bool} {e e' : Engine π}
    (h : Handled dial e peer frame e' sent) (hm : (p, f) ∈ sent) : e'.isActive p = true := by
  cases h with
  | quiet _ hc => cases hm
  | replied _ frames hactive hs hc hrank =>
    obtain ⟨_, _, hp⟩ := List.mem_map.1 hm
    rw [← (Prod.mk.inj hp).1, isActive_congr hs]
    exact hactive
  | greeted e₁ hc hactive hnew =>
    rw [sendBundle, sends_sendAll] at hm
    obtain ⟨_, _, hp⟩ := List.mem_map.1 hm
    rw [← (Prod.mk.inj hp).1]
    exact hactive
  | introduced e₁ hc =>
    rw [isActive_congr (connectAll_store _)]
    exact (mem_newPeers (sends_connectAll hm).1).1

theorem Handled.progress {dial : UInt64 → Bool} {e e' : Engine π}
    (h : Handled dial e peer frame e' sent) : (∀ p ∈ e.connected, p ∈ e'.connected) ∧
      ((∃ p ∈ e'.connected, p ∉ e.connected) ∨ ∀ m ∈ sent, m.2.rank < frame.rank) := by
  cases h with
  | quiet _ hc =>
    rw [hc]
    exact ⟨fun _ hp => hp, .inr fun _ hm => absurd hm List.not_mem_nil⟩
  | replied _ frames hactive hs hc hrank =>
    rw [hc]
    refine ⟨fun _ hp => hp, .inr ?_⟩
    intro m hm
    obtain ⟨f, hf, rfl⟩ := List.mem_map.1 hm
    exact hrank f hf
  | greeted e₁ hc hactive hnew =>
    rw [← hc]
    refine ⟨fun p hp => Std.TreeSet.mem_insert.2 (.inr hp), .inl ⟨peer, ?_, hnew⟩⟩
    exact Std.TreeSet.mem_insert_self
  | introduced e₁ hc =>
    rw [← hc]
    refine ⟨fun p hp => mem_connectAll_connected.2 (.inl hp), ?_⟩
    -- a frame is sent only to a peer that was dialed, and that peer was not connected
    cases hsent : sends (e₁.connectAll dial e₁.newPeers).2 with
    | nil => exact .inr fun _ hm => absurd hm List.not_mem_nil
    | cons m sent =>
      have hm : (m.1, m.2) ∈ sends (e₁.connectAll dial e₁.newPeers).2 := by
        rw [hsent]
        exact List.mem_cons_self
      obtain ⟨hp, hd⟩ := sends_connectAll hm
      exact .inl ⟨m.1, mem_connectAll_connected.2 (.inr ⟨hp, hd⟩), (mem_newPeers hp).2⟩

end Engine

end Roam
