import Roam.EngineSpec
import Roam.CompactedLogs
import Roam.Library.LineCursor

namespace Roam
set_option autoImplicit true
open Library Library.Fallible

structure Push where
  log : Bytes
  peer : UInt64
  frame : Frame

def StartsAtLine (log jsonl : Bytes) : Prop :=
  jsonl <:+ log ∧ Terminated 10 (log.take (log.length - jsonl.length))

instance (log jsonl : Bytes) : Decidable (StartsAtLine log jsonl) :=
  inferInstanceAs (Decidable (_ ∧ _))

def Push.lines (author : UInt64) (push : Push) : List Bytes :=
  match push.frame with
  | .ops a jsonl => if a = author ∧ StartsAtLine push.log jsonl then textLines jsonl else []
  | _ => []

def Sent (author : UInt64) (trace : List Push) (peer : UInt64) (line : Bytes) : Prop :=
  ∃ push ∈ trace, push.peer = peer ∧ line ∈ push.lines author

instance (author : UInt64) (trace : List Push) (peer : UInt64) (line : Bytes) :
    Decidable (Sent author trace peer line) :=
  inferInstanceAs (Decidable (∃ push ∈ trace, _))

theorem Sent.mono (h : Sent author trace peer line) (hs : trace ⊆ trace') :
    Sent author trace' peer line := by
  obtain ⟨push, hm, hp⟩ := h
  exact ⟨push, hs hm, hp⟩

/-- What happens to the own log of an engine and to its peers. An edit may also come through the
shared store, past the engine. -/
inductive PushOp (π : SyncPlatform)
  | edit (io : Io) (e : DocEdit π.Frontier)
  | editText (io : Io) (id : String) (pos : Nat) (s : String)
  | flushLocal
  | connect (dial : UInt64 → Bool) (peer : UInt64)
  | writeSnapshot (io ioMarker : Io) (now : Int)
  | checkpoint (io : CheckpointIo) (beforeTs : Int)

namespace Engine
variable {π : SyncPlatform}

def pushOp (e : Engine π) : PushOp π → Engine π × List Act
  | .edit io edit => ({ e with store := (exec (Store.editDoc io edit) e.store).2 }, [])
  | .editText io id pos s => (e.editText io id pos s).2
  | .flushLocal => e.flushLocal
  | .connect dial peer => e.connect dial peer
  | .writeSnapshot io ioMarker now =>
    ({ e with store := (exec (Store.writeSnapshot io ioMarker now) e.store).2 }, [])
  | .checkpoint io beforeTs =>
    ({ e with store := (exec (Store.checkpoint io beforeTs) e.store).2 }, [])

abbrev Recorded (π : SyncPlatform) := Engine π × List Push

def record (log : Bytes) (acts : List Act) : List Push :=
  (sends acts).map fun m => ⟨log, m.1, m.2⟩

def recorded (r : Recorded π) (op : PushOp π) : Recorded π :=
  let (e, acts) := r.1.pushOp op
  (e, r.2 ++ record e.store.exportOwnLog acts)

def Flushes (e : Engine π) : PushOp π → Prop
  | .flushLocal => True
  | .editText io id pos s => (e.editText io id pos s).1 = .ok ()
  | _ => False

def AllSent (r : Recorded π) : Prop :=
  ∀ track ∈ r.1.sentOffsets.toList, ∀ line ∈ textLines r.1.store.exportOwnLog,
    Sent r.1.peerId r.2 track.1 line

instance (r : Recorded π) : Decidable (AllSent r) :=
  inferInstanceAs (Decidable (∀ track ∈ r.1.sentOffsets.toList, _))

section Condition

def NewOps (s : Store π.toPlatform) (edit : DocEdit π.Frontier) : Prop :=
  ∃ doc, π.edit s.doc edit = .ok doc ∧ π.version (π.commit doc) ≠ s.persisted

def Appendable (e : Engine π) : Prop :=
  ∀ track ∈ e.sentOffsets.toList, track.2 < e.store.exportOwnLog.length ∨
    track.2 = e.store.exportOwnLog.length ∧ Terminated 10 e.store.exportOwnLog

def CutsOwnLog (s : Store π.toPlatform) (beforeTs : Int) : Prop :=
  ∃ target n, markerBefore π.toPlatform s.disk.history beforeTs = .ok (some target) ∧
    (s.peerId, n) ∈ target.logLens ∧
    joinLines 10 ((logLines (some s.exportOwnLog)).drop n) ≠ s.exportOwnLog

/-- Everything was sent, and the log is one of whole lines that are written again as they are. -/
def Cuttable (e : Engine π) : Prop :=
  ∀ track ∈ e.sentOffsets.toList, e.store.exportOwnLog.length ≤ track.2 ∧
    Terminated 10 e.store.exportOwnLog ∧ Clean (some e.store.exportOwnLog)

instance (e : Engine π) : Decidable e.Appendable :=
  inferInstanceAs (Decidable (∀ track ∈ e.sentOffsets.toList, _))

instance (e : Engine π) : Decidable e.Cuttable :=
  have (file : Option Bytes) : Decidable (Clean file) :=
    inferInstanceAs (Decidable (∀ line ∈ logLines file, _))
  inferInstanceAs (Decidable (∀ track ∈ e.sentOffsets.toList, _))

/-- The log grows only where the offsets are up to date, and is cut only when all of it was sent. -/
def KeepsOffsets (e : Engine π) : PushOp π → Prop
  | .edit _ edit => NewOps e.store edit → e.Appendable
  | .editText _ id pos s => NewOps e.store (.insertText id pos s) → e.Appendable
  | .checkpoint _ beforeTs => CutsOwnLog e.store beforeTs → e.Cuttable
  | .flushLocal | .connect _ _ | .writeSnapshot _ _ _ => True

end Condition

end Engine

namespace Store
variable {π : Platform} {s s' : Store π}

theorem exportOwnLog_congr (hi : s'.identity = s.identity) (ho : s'.disk.ops = s.disk.ops) :
    s'.exportOwnLog = s.exportOwnLog := by
  rw [exportOwnLog, exportOwnLog, exportPeerLog, exportPeerLog, peerId, peerId, hi, ho]

theorem ownLog_appended (io : Io) (update : Bytes) :
    ∃ more, (s.appended io update).exportOwnLog = s.exportOwnLog ++ more := by
  have hid : (s.appended io update).peerId = s.peerId :=
    congrArg (Identity.peerId π) (putOps_sameDoc s _ _).identity
  rw [exportOwnLog, hid, appended, exportPeerLog_putOps, if_pos rfl, exportOwnLog]
  cases io with
  | refused msg =>
    refine ⟨[], ?_⟩
    simp only [Io.append, Option.or_self, exportPeerLog, List.append_nil]
  | done => exact ⟨_, rfl⟩
  | torn more msg => exact ⟨_, rfl⟩
  | unsynced msg => exact ⟨_, rfl⟩

theorem Edited.ownLog {edit : DocEdit π.Frontier} (h : Edited io edit s r s') :
    ∃ more, s'.exportOwnLog = s.exportOwnLog ++ more := by
  cases h with
  | refused msg h => exact ⟨[], (List.append_nil _).symm⟩
  | unexported doc msg h hd => exact ⟨[], (List.append_nil _).symm⟩
  | nothing doc h hv => exact ⟨[], (List.append_nil _).symm⟩
  | failed doc delta err h hd hio => exact ownLog_appended (s := s.withDoc doc) io delta
  | logged doc delta h hd hio => exact ownLog_appended (s := s.withDoc doc) .done delta

theorem editDoc_ownLog (io : Io) (edit : DocEdit π.Frontier) (s : Store π) :
    (exec (editDoc io edit) s).2.exportOwnLog = s.exportOwnLog ∨
      (∃ doc, π.edit s.doc edit = .ok doc ∧ π.version (π.commit doc) ≠ s.persisted) ∧
        ∃ more, (exec (editDoc io edit) s).2.exportOwnLog = s.exportOwnLog ++ more := by
  by_cases hnew : ∃ doc, π.edit s.doc edit = .ok doc ∧ π.version (π.commit doc) ≠ s.persisted
  · exact .inr ⟨hnew, (editDoc_outcome io edit s).ownLog⟩
  · left
    simp only [editDoc, persistNewOps, exec_bind, exec_get, exec_ofDoc, exec_set, exec_modify,
      exec_exportAndAppend]
    cases he : π.edit s.doc edit with
    | error msg => rfl
    | ok doc =>
      have hv : π.version (π.commit doc) = s.persisted := by
        by_contra hv
        exact hnew ⟨doc, he, hv⟩
      simp only [Except.mapError, newDelta, hv, ne_eq, not_true_eq_false, ↓reduceIte]
      rfl

section Cut

theorem ownLog_dropped (peer : UInt64) (n : Nat) :
    (s.withOps peer (joinLines 10 ((logLines s.disk.ops[peer]?).drop n))).exportOwnLog =
      if peer = s.peerId then joinLines 10 ((logLines (some s.exportOwnLog)).drop n)
      else s.exportOwnLog := by
  have h := exportPeerLog_putOps s peer s.peerId
    (some (joinLines 10 ((logLines s.disk.ops[peer]?).drop n)))
  refine h.trans ?_
  split
  next hp =>
    rw [hp, exportOwnLog, exportPeerLog, logLines_getD]
    rfl
  next => rfl

theorem rewritten_drop (hc : Clean (some log)) (n : Nat) :
    Rewritten log (joinLines 10 ((logLines (some log)).drop n)) := by
  refine ⟨_, ?_, ?_, rfl⟩
  · refine (List.drop_sublist n _).trans ?_
    rw [logLines]
    split
    next => exact List.filter_sublist
    next => exact List.nil_sublist _
  · intro line hl
    have hm := List.mem_of_mem_drop hl
    exact ⟨(mem_logLines hm).1, hc line hm⟩

theorem clean_rewritten (h : Rewritten log log') : Clean (some log') := by
  obtain ⟨lines, _, hl, rfl⟩ := h
  intro line hm
  rw [logLines] at hm
  split at hm
  next =>
    rw [textLines_rewritten hl] at hm
    exact (hl line (List.mem_of_mem_filter hm)).2
  next => cases hm

theorem Truncated.ownLog (h : Truncated peer n s r s') : s'.exportOwnLog = s.exportOwnLog ∨
      peer = s.peerId ∧
        s'.exportOwnLog = joinLines 10 ((logLines (some s.exportOwnLog)).drop n) := by
  cases h with
  | failed err => exact .inl rfl
  | missing h => exact .inl rfl
  | dropped bytes h =>
    rw [ownLog_dropped]
    split
    next hp => exact .inr ⟨hp, rfl⟩
    next => exact .inl rfl

theorem TruncatedAll.ownLog (h : TruncatedAll logs s r s') : s'.exportOwnLog = s.exportOwnLog ∨
      (∃ n, (s.peerId, n) ∈ logs ∧
        joinLines 10 ((logLines (some s.exportOwnLog)).drop n) ≠ s.exportOwnLog) ∧
      (Clean (some s.exportOwnLog) → Rewritten s.exportOwnLog s'.exportOwnLog) := by
  -- one truncation, if it makes a difference
  have hone {log : UInt64 × Nat} {s t : Store π} {r : Except StorageError Unit}
      (h : Truncated log.1 log.2 s r t) : t.exportOwnLog = s.exportOwnLog ∨
        (log.1 = s.peerId ∧
          joinLines 10 ((logLines (some s.exportOwnLog)).drop log.2) ≠ s.exportOwnLog) ∧
        (Clean (some s.exportOwnLog) → Rewritten s.exportOwnLog t.exportOwnLog) := by
    cases h.ownLog with
    | inl h => exact .inl h
    | inr h =>
      by_cases hsame : joinLines 10 ((logLines (some s.exportOwnLog)).drop log.2) = s.exportOwnLog
      · exact .inl (h.2.trans hsame)
      · exact .inr ⟨⟨h.1, hsame⟩, fun hc => h.2 ▸ rewritten_drop hc log.2⟩
  induction h with
  | nil s => exact .inl rfl
  | failed h =>
    refine (hone h).imp_right fun hcut => ⟨?_, hcut.2⟩
    exact ⟨_, hcut.1.1 ▸ List.mem_cons_self, hcut.1.2⟩
  | @cons log _ _ s t _ h _ hrest =>
    have hid : t.peerId = s.peerId := congrArg (Identity.peerId π) h.identity.1
    cases hone h with
    | inl hsame =>
      rw [hsame, hid] at hrest
      refine hrest.imp_right fun h => ⟨?_, h.2⟩
      obtain ⟨n, hm, hne⟩ := h.1
      exact ⟨n, List.mem_cons_of_mem log hm, hne⟩
    | inr hcut =>
      obtain ⟨⟨hp, hne⟩, hfirst⟩ := hcut
      refine .inr ⟨⟨log.2, hp ▸ List.mem_cons_self, hne⟩, ?_⟩
      intro hc
      cases hrest with
      | inl hsame => exact hsame.symm ▸ hfirst hc
      | inr h => exact (hfirst hc).trans (h.2 (clean_rewritten (hfirst hc)))

theorem checkpoint_ownLog (io : CheckpointIo) (beforeTs : Int) (s : Store π) :
    (exec (checkpoint io beforeTs) s).2.exportOwnLog = s.exportOwnLog ∨
      (∃ target n, markerBefore π s.disk.history beforeTs = .ok (some target) ∧
        (s.peerId, n) ∈ target.logLens ∧
        joinLines 10 ((logLines (some s.exportOwnLog)).drop n) ≠ s.exportOwnLog) ∧
      (Clean (some s.exportOwnLog) →
        Rewritten s.exportOwnLog (exec (checkpoint io beforeTs) s).2.exportOwnLog) := by
  cases checkpoint_outcome io beforeTs s with
  | kept _ _ hs _ => exact .inl (exportOwnLog_congr hs.identity hs.ops)
  | truncated target t _ _ hsel ht hs _ =>
    have hown := exportOwnLog_congr ht.identity ht.ops
    have hid : t.peerId = s.peerId := congrArg (Identity.peerId π) ht.identity
    have hcut := (truncateLogs_outcome io.truncate target.logLens t).ownLog
    rw [exportOwnLog_congr hs.identity hs.ops]
    rw [hown, hid] at hcut
    refine hcut.imp_right fun h => ⟨?_, h.2⟩
    obtain ⟨n, hm, hne⟩ := h.1
    exact ⟨target, n, hsel, hm, hne⟩

end Cut

end Store

theorem startsAtLine_drop (ht : Terminated 10 (log.take n)) (hn : n < log.length) :
    StartsAtLine log (log.drop n) := by
  refine ⟨List.drop_suffix n log, ?_⟩
  rwa [List.length_drop, Nat.sub_sub_self hn.le]

theorem startsAtLine_self (log : Bytes) : StartsAtLine log log := by
  refine ⟨List.suffix_rfl, ?_⟩
  rw [Nat.sub_self]
  exact .inl rfl

namespace Engine
variable {π : SyncPlatform} {r : Recorded π}

def Tracked (r : Recorded π) : Prop :=
  ∀ track ∈ r.1.sentOffsets.toList,
    Covered r.1.store.exportOwnLog track.2 (Sent r.1.peerId r.2 track.1)

theorem sent_of_ops (hm : (peer, Frame.ops author jsonl) ∈ sends acts)
    (hs : StartsAtLine log jsonl) (trace : List Push) (hl : line ∈ textLines jsonl) :
    Sent author (trace ++ record log acts) peer line := by
  refine ⟨⟨log, peer, .ops author jsonl⟩, ?_, rfl, ?_⟩
  · exact List.mem_append_right trace (List.mem_map.2 ⟨_, hm, rfl⟩)
  · change line ∈ if author = author ∧ StartsAtLine log jsonl then textLines jsonl else []
    rwa [if_pos ⟨rfl, hs⟩]

theorem Tracked.store (h : Tracked r) {store : Store π.toPlatform}
    (hc : ∀ track ∈ r.1.sentOffsets.toList,
      Covered r.1.store.exportOwnLog track.2 (Sent r.1.peerId r.2 track.1) →
        Covered store.exportOwnLog track.2 (Sent r.1.peerId r.2 track.1)) :
    Tracked ({ r.1 with store }, r.2) := fun track ht => hc track ht (h track ht)

theorem Tracked.edit (h : Tracked r) (io : Io) (edit : DocEdit π.Frontier)
    (hk : NewOps r.1.store edit → r.1.Appendable) :
    Tracked ({ r.1 with store := (exec (Store.editDoc io edit) r.1.store).2 }, r.2) := by
  apply h.store
  intro track ht hc
  cases Store.editDoc_ownLog io edit r.1.store with
  | inl hsame => rwa [hsame]
  | inr hnew =>
    obtain ⟨hnew, more, hmore⟩ := hnew
    rw [hmore]
    exact hc.append (hk hnew track ht) more

theorem Tracked.writeSnapshot (h : Tracked r) (io ioMarker : Io) (now : Int) :
    Tracked ({ r.1 with
      store := (exec (Store.writeSnapshot io ioMarker now) r.1.store).2 }, r.2) := by
  apply h.store
  intro track _ hc
  have hown : (exec (Store.writeSnapshot io ioMarker now) r.1.store).2.exportOwnLog =
      r.1.store.exportOwnLog :=
    Store.exportOwnLog_congr (Store.after_identity r.1.store (.writeSnapshot io ioMarker now))
      (Store.writeSnapshot_ops io ioMarker now r.1.store)
  rwa [hown]

theorem Tracked.checkpoint (h : Tracked r) (io : CheckpointIo) (beforeTs : Int)
    (hk : CutsOwnLog r.1.store beforeTs → r.1.Cuttable) :
    Tracked ({ r.1 with
      store := (exec (Store.checkpoint io beforeTs) r.1.store).2 }, r.2) := by
  apply h.store
  intro track ht hc
  cases Store.checkpoint_ownLog io beforeTs r.1.store with
  | inl hsame => rwa [hsame]
  | inr hcut =>
    obtain ⟨hlen, hterm, hclean⟩ := hk hcut.1 track ht
    exact hc.rewrite (hcut.2 hclean) hterm hlen

theorem Tracked.flushLocal (h : Tracked r) {track : UInt64 × Nat}
    (ht : track ∈ r.1.flushLocal.1.sentOffsets.toList) : track.2 = r.1.store.exportOwnLog.length ∧
      Covered r.1.store.exportOwnLog track.2
        (Sent r.1.peerId (r.2 ++ record r.1.store.exportOwnLog r.1.flushLocal.2) track.1) := by
  rw [Engine.flushLocal, Std.TreeMap.mem_toList_iff_getElem?_eq_some, Std.TreeMap.getElem?_map,
    Option.map_eq_some_iff] at ht
  obtain ⟨offset, ho, hlen⟩ := ht
  rw [← hlen]
  refine ⟨rfl, ?_⟩
  have hc := h (track.1, offset) (Std.TreeMap.mem_toList_iff_getElem?_eq_some.2 ho)
  apply hc.advance
  · exact fun line hs => hs.mono (List.subset_append_left _ _)
  · intro hterm hlt line hl
    exact sent_of_ops (mem_sends_flushLocal.2 ⟨offset, ho, hlt, rfl⟩)
      (startsAtLine_drop hterm hlt) r.2 hl

theorem mem_bundle_ops (e : Engine π) : Frame.ops e.peerId e.store.exportOwnLog ∈ e.bundle := by
  simp only [bundle, logFrames, List.mem_append, List.mem_cons, true_or, or_true]

theorem Tracked.connect (h : Tracked r) (dial : UInt64 → Bool) (peer : UInt64) :
    Tracked (recorded r (.connect dial peer)) := by
  by_cases hd : dial peer = true
  · simp only [recorded, pushOp, Engine.connect, hd, ↓reduceIte]
    intro track ht
    rw [Std.TreeMap.mem_toList_iff_getElem?_eq_some] at ht
    simp only [sendBundle, get_insert] at ht
    split at ht
    next hp =>
      -- the bundle holds the whole log
      rw [← Option.some.inj ht, ← hp]
      apply Covered.whole
      intro line hl
      apply sent_of_ops _ (startsAtLine_self _) r.2 hl
      rw [sends_dial, sendBundle, sends_sendAll]
      exact List.mem_map_of_mem r.1.mem_bundle_ops
    next =>
      have hc := h track (Std.TreeMap.mem_toList_iff_getElem?_eq_some.2 ht)
      exact hc.mono fun line hs => hs.mono (List.subset_append_left _ _)
  · simp only [recorded, pushOp, Engine.connect, hd, Bool.false_eq_true, ↓reduceIte]
    intro track ht
    exact (h track ht).mono fun line hs => hs.mono (List.subset_append_left _ _)

theorem editText_ok {id : String} {e : Engine π} {store : Store π.toPlatform}
    (h : exec (Store.editDoc io (.insertText id pos s)) e.store = (.ok u, store)) :
    e.editText io id pos s = (.ok u, Engine.flushLocal { e with store }) := by
  rw [Engine.editText, withStore, Store.editText, h]

theorem editText_error {id : String} {e : Engine π} {store : Store π.toPlatform}
    (h : exec (Store.editDoc io (.insertText id pos s)) e.store = (.error err, store)) :
    e.editText io id pos s = (.error err, { e with store }, []) := by
  rw [Engine.editText, withStore, Store.editText, h]

theorem tracked_step (h : Tracked r) (hk : r.1.KeepsOffsets op) :
    Tracked (recorded r op) ∧ (r.1.Flushes op → AllSent (recorded r op)) := by
  have hflush {r : Recorded π} (h : Tracked r) :
      Tracked (recorded r .flushLocal) ∧ AllSent (recorded r .flushLocal) := by
    refine ⟨fun track ht => (h.flushLocal ht).2, ?_⟩
    intro track ht line hl
    obtain ⟨hlen, hc⟩ := h.flushLocal ht
    rw [hlen] at hc
    exact hc.lines line (by rwa [List.take_length])
  cases op with
  | edit io edit =>
    refine ⟨?_, nofun⟩
    simp only [recorded, pushOp, record, sends_nil, List.map_nil, List.append_nil]
    exact h.edit io edit hk
  | editText io id pos s =>
    have hedit := h.edit io (.insertText id pos s) hk
    cases hexec : exec (Store.editDoc io (.insertText id pos s)) r.1.store with
    | mk res store =>
      rw [hexec] at hedit
      cases res with
      | error err =>
        rw [Flushes, recorded, pushOp, editText_error hexec]
        simp only [record, sends_nil, List.map_nil, List.append_nil]
        exact ⟨hedit, nofun⟩
      | ok u =>
        rw [recorded, pushOp, editText_ok hexec]
        obtain ⟨htracked, hsent⟩ := hflush hedit
        exact ⟨htracked, fun _ => hsent⟩
  | flushLocal => exact ⟨(hflush h).1, fun _ => (hflush h).2⟩
  | connect dial peer => exact ⟨h.connect dial peer, nofun⟩
  | writeSnapshot io ioMarker now =>
    refine ⟨?_, nofun⟩
    simp only [recorded, pushOp, record, sends_nil, List.map_nil, List.append_nil]
    exact h.writeSnapshot io ioMarker now
  | checkpoint io beforeTs =>
    refine ⟨?_, nofun⟩
    simp only [recorded, pushOp, record, sends_nil, List.map_nil, List.append_nil]
    exact h.checkpoint io beforeTs hk

/-- In a run of an engine that was just started, in which the log grows only where the offsets are
up to date and is cut only when all of it was sent, every flush leaves every line of the own log
sent to every tracked peer. -/
theorem livePush_complete (identity : Identity) (vault vaultKey : Bytes32)
    (store : Store π.toPlatform) (files : SyncFiles) (ops : List (PushOp π)) (op : PushOp π)
    (hk : Along recorded (fun r op => r.1.KeepsOffsets op)
      (.new identity vault vaultKey store files, []) (ops ++ [op]))
    (hf : (runAll recorded (.new identity vault vaultKey store files, []) ops).1.Flushes op) :
    AllSent (runAll recorded (.new identity vault vaultKey store files, []) (ops ++ [op])) := by
  have hstart : Tracked ((.new identity vault vaultKey store files, []) : Recorded π) := by
    intro track ht
    rw [Std.TreeMap.mem_toList_iff_getElem?_eq_some] at ht
    cases ht
  obtain ⟨hops, hop⟩ := along_append.1 hk
  have htracked : Tracked (runAll recorded (.new identity vault vaultKey store files, []) ops) :=
    hops.invariant (fun r op h hk => (tracked_step h hk).1) hstart
  rw [runAll_append]
  exact (tracked_step htracked hop.1).2 hf

end Engine

section Sample
open Store

abbrev sampleSync : SyncPlatform where
  toPlatform := samplePlatform
  fileEntry _ := none
  manifest _ := none
  heldJson := { parse := fun _ => .error "no object", render := fun _ => [] }
  b64UrlDecode _ := none

def sampleEngine : Engine sampleSync :=
  .new (plainIdentity 1) (.replicate 9) (.replicate 8) sampleMarked
    { parts := ∅, objects := ∅, held := none }

def samplePushed : Engine.Recorded sampleSync :=
  Engine.recorded (sampleEngine, []) (.connect (fun _ => true) 7)

def sampleFlushed : Engine.Recorded sampleSync :=
  Engine.recorded (Engine.recorded samplePushed (.checkpoint sampleIo 9)) .flushLocal

theorem sampleFlushed_facts : samplePushed.1.Cuttable ∧ sampleFlushed.1.Appendable := by
  decide +kernel

def flushedCut : List (PushOp sampleSync) :=
  [.connect (fun _ => true) 7, .checkpoint sampleIo 9, .flushLocal, .edit .done sampleEdit]

theorem livePush_complete_cut :
    Engine.AllSent (runAll Engine.recorded (sampleEngine, []) (flushedCut ++ [.flushLocal])) := by
  obtain ⟨hcut, happend⟩ := sampleFlushed_facts
  rw [sampleFlushed, samplePushed] at happend
  rw [samplePushed] at hcut
  rw [flushedCut]
  apply Engine.livePush_complete
  · simp only [List.cons_append, List.nil_append, Along, Engine.KeepsOffsets, true_and, and_true]
    exact ⟨fun _ => hcut, fun _ => happend⟩
  · trivial

/-- Without the flush after the cut the offset of the peer stands past the end of the log, and the
line of the next edit is not sent. -/
theorem livePush_loses_line : ∃ ops : List (PushOp sampleSync),
      ¬ Engine.AllSent (runAll Engine.recorded (sampleEngine, []) (ops ++ [.flushLocal])) := by
  refine ⟨[.connect (fun _ => true) 7, .checkpoint sampleIo 9, .edit .done sampleEdit], ?_⟩
  decide +kernel

end Sample

end Roam
