import Roam.StoreDoc
import Roam.StoreSpec

namespace Roam
set_option autoImplicit true
open Library Library.Fallible

namespace Store
variable {π : Platform} {s s' : Store π}

section Content

/-- All of a store but the roster: what the roster logs, the founder pin and the peers folded from
them have no part in. -/
def content (s : Store π) : Store π :=
  { s with peers := [], founder := none, disk.founder := none, disk.rosters := ∅ }

theorem content_congr (f : Store π → β) (hf : ∀ s, f s.content = f s)
    (h : s'.content = s.content) : f s' = f s := by
  rw [← hf s', h, hf]

/-- What a call on the roster does: nothing, or it pins the founder and fails, or it writes roster
logs or the pin and folds the roster again. -/
inductive Rostered (s : Store π) : Except StorageError Unit → Store π → Prop
  | unchanged (r : Except StorageError Unit) : Rostered s r s
  | pinned (err : StorageError) (peer : UInt64) : Rostered s (.error err) (s.withFounder peer)
  | refreshed (t : Store π) (order : RosterOrder) (hc : t.content = s.content)
      (hf : s.founder = s.disk.founder → t.founder = t.disk.founder) :
      Rostered s (exec (refreshPeers order) t).1 (exec (refreshPeers order) t).2

theorem authorRoster_rostered (orders : RosterOrder × RosterOrder) (op : RosterOp)
    (subject : UInt64) (key : Bytes32) (s : Store π) :
    Rostered s (exec (authorRoster orders op subject key) s).1
      (exec (authorRoster orders op subject key) s).2 := by
  rw [exec_authorRoster]
  split
  next => exact .unchanged _
  next =>
    split
    next => exact .unchanged _
    next file _ => exact .refreshed (s.withRoster s.peerId file) orders.2 rfl id

theorem authorAsAdmin_rostered (orders : RosterOrder × RosterOrder) (op : RosterOp)
    (peer : UInt64) (key : Bytes32) (s : Store π) :
    Rostered s (exec (authorAsAdmin orders op peer key) s).1
      (exec (authorAsAdmin orders op peer key) s).2 := by
  rw [exec_authorAsAdmin]
  split
  next => exact .unchanged _
  next =>
    split
    next => exact .unchanged _
    next => exact authorRoster_rostered orders op peer key s

theorem importRoster_rostered (order : RosterOrder) (author : UInt64) (key : Bytes32)
    (bytes : Bytes) (s : Store π) :
    Rostered s (exec (importRoster order author key bytes) s).1
      (exec (importRoster order author key bytes) s).2 := by
  rw [exec_importRoster]
  split
  next => exact .unchanged _
  next =>
    split
    next => exact .unchanged _
    next =>
      split
      next => exact .unchanged _
      next => exact .refreshed (s.withRoster author bytes) order rfl id

theorem importRosterBundle_rostered (order : RosterOrder) (logs : List (UInt64 × Bytes))
    (s : Store π) : Rostered s (exec (importRosterBundle order logs) s).1
      (exec (importRosterBundle order logs) s).2 := by
  rw [exec_importRosterBundle]
  exact .refreshed (s.withBundle logs) order rfl id

theorem Rostered.content (h : Rostered s r s') : s'.content = s.content := by
  cases h with
  | unchanged r => rfl
  | pinned err peer => rfl
  | refreshed t order hc hf =>
    rw [← hc, exec_refreshPeers]
    split
    next => rfl
    next => rfl

end Content

section Outcomes

@[simp] theorem exec_ofDoc (x : Except String α) :
    exec (ofDoc x) s = (x.mapError StorageError.crdt, s) := rfl

def appended (s : Store π) (io : Io) (update : Bytes) : Store π :=
  s.putOps s.peerId (io.append s.disk.ops[s.peerId]?
    (π.opJson.render (EntryLine.ofUpdate π s.peerId s.identity update) ++ [10]))

def withDoc (s : Store π) (doc : π.Doc) : Store π := { s with doc := π.commit doc }

def caughtUp (s : Store π) : Store π := { s with persisted := π.version s.doc }

theorem putOps_doc (peer : UInt64) (file : Option Bytes) : (s.putOps peer file).doc = s.doc := by
  cases file with
  | none => rfl
  | some bytes => rfl

theorem exec_exportAndAppend :
    exec (exportAndAppend io) s =
      match s.newDelta with
      | .error err => (.error err, s)
      | .ok none => (.ok (), s)
      | .ok (some delta) =>
        match io.result with
        | .error err => (.error err, s.appended io delta)
        | .ok () => (.ok (), (s.appended io delta).caughtUp) := by
  simp only [exportAndAppend, exec_bind, exec_get, exec_ofResult]
  cases s.newDelta with
  | error err => rfl
  | ok delta? =>
    cases delta? with
    | none => rfl
    | some delta =>
      simp only [appendOwn, exec_bind, exec_get, exec_set, exec_ofResult]
      cases hio : io.result with
      | error err => rfl
      | ok u =>
        simp only [exec_modify, caughtUp, appended, putOps_doc]

inductive Edited (io : Io) (edit : DocEdit π.Frontier) (s : Store π) :
    Except StorageError Unit → Store π → Prop
  | refused (msg : String) (h : π.edit s.doc edit = .error msg) :
      Edited io edit s (.error (.crdt msg)) s
  | unexported (doc : π.Doc) (msg : String) (h : π.edit s.doc edit = .ok doc)
      (hd : π.exportFrom (π.commit doc) s.persisted = .error msg) :
      Edited io edit s (.error (.crdt msg)) (s.withDoc doc)
  | nothing (doc : π.Doc) (h : π.edit s.doc edit = .ok doc)
      (hv : π.version (π.commit doc) = s.persisted) : Edited io edit s (.ok ()) (s.withDoc doc)
  | failed (doc : π.Doc) (delta : Bytes) (err : StorageError) (h : π.edit s.doc edit = .ok doc)
      (hd : π.exportFrom (π.commit doc) s.persisted = .ok delta) (hio : io.result = .error err) :
      Edited io edit s (.error err) ((s.withDoc doc).appended io delta)
  | logged (doc : π.Doc) (delta : Bytes) (h : π.edit s.doc edit = .ok doc)
      (hd : π.exportFrom (π.commit doc) s.persisted = .ok delta) (hio : io = .done) :
      Edited io edit s (.ok ()) ((s.withDoc doc).appended .done delta).caughtUp

theorem editDoc_outcome (io : Io) (edit : DocEdit π.Frontier) (s : Store π) :
    Edited io edit s (exec (editDoc io edit) s).1 (exec (editDoc io edit) s).2 := by
  simp only [editDoc, persistNewOps, exec_bind, exec_get, exec_ofDoc, exec_set, exec_modify]
  cases he : π.edit s.doc edit with
  | error msg => exact .refused msg he
  | ok doc =>
    have hexec := @exec_exportAndAppend π (s.withDoc doc) io
    simp only [Except.mapError]
    rw [withDoc] at hexec
    rw [hexec]
    simp only [newDelta]
    by_cases hv : π.version (π.commit doc) = s.persisted
    · simp only [hv, ne_eq, not_true_eq_false, ↓reduceIte]
      exact .nothing doc he hv
    · simp only [hv, ne_eq, not_false_eq_true, ↓reduceIte]
      cases hd : π.exportFrom (π.commit doc) s.persisted with
      | error msg => exact .unexported doc msg he hd
      | ok delta =>
        simp only [Except.mapError, Except.map]
        cases hio : io.result with
        | error err => exact .failed doc delta err he hd hio
        | ok u =>
          obtain rfl := Io.result_ok_iff.1 hio
          exact .logged doc delta he hd rfl

structure Admitted (s : Store π) (peer : UInt64) (key : Bytes32) (bytes : Bytes)
    (entries : List Entry) : Prop where
  writer : s.checkWriter peer = .ok ()
  other : peer ≠ s.peerId
  grows : checkShrinks peer s.disk.ops[peer]? bytes = .ok ()
  verified : verifyBytes π (opReader π peer key) bytes = .ok entries
  probed : probeAuthored π s.peerId peer entries = .ok ()

theorem exec_admitLog (peer : UInt64) (key : Bytes32) (bytes : Bytes) (s : Store π) :
    (∃ err, exec (admitLog peer key bytes) s = (.error err, s)) ∨
      ∃ entries, exec (admitLog peer key bytes) s = (.ok entries, s) ∧
        s.Admitted peer key bytes entries := by
  simp only [admitLog, exec_bind, exec_get, exec_ofResult]
  cases hw : s.checkWriter peer with
  | error err => exact .inl ⟨err, rfl⟩
  | ok u =>
    by_cases hp : peer = s.peerId
    · simp only [hp, ↓reduceIte, exec_bind, exec_throw]
      exact .inl ⟨_, rfl⟩
    · simp only [hp, ↓reduceIte, exec_bind, exec_ofResult]
      cases hc : checkShrinks peer s.disk.ops[peer]? bytes with
      | error err => exact .inl ⟨err, rfl⟩
      | ok u =>
        simp only []
        cases hv : verifyBytes π (opReader π peer key) bytes with
        | error err => exact .inl ⟨err, rfl⟩
        | ok entries =>
          simp only []
          cases ha : probeAuthored π s.peerId peer entries with
          | error err => exact .inl ⟨err, rfl⟩
          | ok u => exact .inr ⟨entries, rfl, hw, hp, hc, hv, ha⟩

theorem Admitted.exec_importPeer (h : s.Admitted peer key bytes entries) :
    exec (importPeer peer key bytes) s = exec (mergeEntries entries) (s.withOps peer bytes) := by
  simp only [importPeer, importPeerIo, admitLog, writeOps, exec_bind, exec_get, exec_ofResult,
    h.writer, if_neg h.other, h.grows, h.verified, h.probed, exec_pure, exec_modify]
  rfl

inductive Stops (π : Platform) : π.Doc → List Entry → List Entry → π.Doc → Prop
  | here (doc : π.Doc) (e : Entry) (rest : List Entry) (msg : String)
      (h : π.importUpdate doc e.update = .error msg) : Stops π doc (e :: rest) [] doc
  | later (doc doc' stop : π.Doc) (e : Entry) (rest merged : List Entry)
      (h : π.importUpdate doc e.update = .ok doc') (hs : Stops π doc' rest merged stop) :
      Stops π doc (e :: rest) (e :: merged) stop

theorem Stops.subset {doc doc' : π.Doc} (h : Stops π doc entries merged doc') :
    ∀ e ∈ merged, e ∈ entries := by
  induction h with
  | here doc e rest msg hi => exact List.forall_mem_nil _
  | later doc mid stop e rest merged hi hs ih =>
    exact List.forall_mem_cons.2
      ⟨List.mem_cons_self, fun e he => List.mem_cons_of_mem _ (ih e he)⟩

theorem exec_importEntries (entries : List Entry) (s : Store π) :
    (∃ doc, replayEntries π s.doc entries = .ok doc ∧
        exec (importEntries entries) s = (.ok (), { s with doc })) ∨
      ∃ merged doc msg, Stops π s.doc entries merged doc ∧
        exec (importEntries entries) s = (.error (.crdt msg), { s with doc }) := by
  induction entries generalizing s with
  | nil => exact .inl ⟨s.doc, rfl, rfl⟩
  | cons e entries ih =>
    have hreplay : replayEntries π s.doc (e :: entries) =
        (π.importUpdate s.doc e.update).mapError StorageError.crdt >>= fun doc =>
          replayEntries π doc entries := rfl
    rw [importEntries_cons, hreplay]
    cases hi : π.importUpdate s.doc e.update with
    | error msg => exact .inr ⟨[], s.doc, msg, .here _ e entries msg hi, rfl⟩
    | ok doc =>
      cases ih { s with doc } with
      | inl h => exact .inl h
      | inr h =>
        obtain ⟨merged, stop, msg, hs, hex⟩ := h
        exact .inr ⟨e :: merged, stop, msg, .later _ doc stop e entries merged hi hs, hex⟩

inductive Imported (io : Io) (peer : UInt64) (key : Bytes32) (bytes : Bytes) (s : Store π) :
    Except StorageError Unit → Store π → Prop
  | refused (err : StorageError) : Imported io peer key bytes s (.error err) s
  | unwritten (entries : List Entry) (err : StorageError) (ha : s.Admitted peer key bytes entries)
      (hio : io ≠ .done) :
      Imported io peer key bytes s (.error err)
        (s.putOps peer (io.replace s.disk.ops[peer]? bytes))
  | stopped (entries merged : List Entry) (doc : π.Doc) (err : StorageError)
      (ha : s.Admitted peer key bytes entries) (hio : io = .done)
      (hs : Stops π s.doc entries merged doc) :
      Imported io peer key bytes s (.error err) { s.withOps peer bytes with doc }
  | merged (entries : List Entry) (doc : π.Doc) (ha : s.Admitted peer key bytes entries)
      (hio : io = .done) (hr : replayEntries π s.doc entries = .ok doc) :
      Imported io peer key bytes s (.ok ()) ((s.withOps peer bytes).withDoc doc).caughtUp

theorem importPeerIo_outcome (io : Io) (peer : UInt64) (key : Bytes32) (bytes : Bytes)
    (s : Store π) :
    Imported io peer key bytes s (exec (importPeerIo io peer key bytes) s).1
      (exec (importPeerIo io peer key bytes) s).2 := by
  simp only [importPeerIo, exec_bind]
  cases exec_admitLog peer key bytes s with
  | inl h =>
    obtain ⟨err, h⟩ := h
    rw [h]
    exact .refused err
  | inr h =>
    obtain ⟨entries, h, ha⟩ := h
    simp only [h, writeOps, exec_bind, exec_modify, exec_ofResult]
    cases hio : io.result with
    | error err =>
      refine .unwritten entries err ha ?_
      intro hdone
      rw [hdone] at hio
      cases hio
    | ok u =>
      obtain rfl := Io.result_ok_iff.1 hio
      simp only [mergeEntries, exec_bind]
      cases exec_importEntries entries (s.putOps peer (Io.done.replace s.disk.ops[peer]?
        bytes)) with
      | inl h =>
        obtain ⟨doc, hr, h⟩ := h
        rw [h]
        exact .merged entries doc ha rfl hr
      | inr h =>
        obtain ⟨merged, doc, msg, hs, h⟩ := h
        rw [h]
        exact .stopped entries merged doc _ ha rfl hs

def Saves (π : Platform) (io : Io) (doc : π.Doc) : Prop :=
  io = .done ∧ ∃ merged, π.snapshot (π.commit doc) = .ok merged

inductive Adopted (io : Io) (bytes : Bytes) (s : Store π) :
    Except StorageError Unit → Store π → Prop
  | refused (msg : String) (h : π.importUpdate s.doc bytes = .error msg) :
      Adopted io bytes s (.error (.crdt msg)) s
  | unsaved (doc : π.Doc) (err : StorageError) (h : π.importUpdate s.doc bytes = .ok doc)
      (hu : ¬ Saves π io doc) :
      Adopted io bytes s (.error err) (s.withDoc doc)
  | adopted (doc : π.Doc) (merged : Bytes) (h : π.importUpdate s.doc bytes = .ok doc)
      (hm : π.snapshot (π.commit doc) = .ok merged) (hio : io = .done) :
      Adopted io bytes s (.ok ())
        { (s.withDoc doc).caughtUp with disk.snapshot := some merged }

theorem adoptSnapshot_outcome (io : Io) (bytes : Bytes) (s : Store π) :
    Adopted io bytes s (exec (adoptSnapshot io bytes) s).1 (exec (adoptSnapshot io bytes) s).2 := by
  simp only [adoptSnapshot, exec_bind, exec_get, exec_ofDoc, exec_set]
  cases hi : π.importUpdate s.doc bytes with
  | error msg => exact .refused msg hi
  | ok doc =>
    simp only [Except.mapError]
    cases hm : π.snapshot (π.commit doc) with
    | error msg =>
      refine .unsaved doc _ hi ?_
      intro hsaves
      obtain ⟨_, merged, hm'⟩ := hsaves
      rw [hm] at hm'
      cases hm'
    | ok merged =>
      simp only [saveSnapshot, exec_bind, exec_ofResult, exec_modify]
      cases hio : io.result with
      | error err =>
        refine .unsaved doc err hi ?_
        intro hsaves
        rw [hsaves.1] at hio
        cases hio
      | ok u => exact .adopted doc merged hi hm (Io.result_ok_iff.1 hio)

theorem applyPeerOpsIo_outcome (io : Io) (author : UInt64) (key : Bytes32) (appended : Bytes)
    (s : Store π) :
    ∃ r, Imported io author key (mergeLog (s.exportPeerLog author) appended) s r
      (exec (applyPeerOpsIo io author key appended) s).2 := by
  simp only [applyPeerOpsIo, exec_bind, exec_get]
  split
  next => exact ⟨_, .refused (.io "")⟩
  next => exact ⟨_, importPeerIo_outcome io author key _ s⟩

theorem writeSnapshot_outcome {P : Store π → Prop} (io ioMarker : Io) (now : Int) (h : P s)
    (hw : ∀ bytes history, π.snapshot s.doc = .ok bytes →
      P { s with disk.snapshot := some bytes, disk.history := history }) :
    P (exec (writeSnapshot io ioMarker now) s).2 := by
  simp only [writeSnapshot, exec_bind, exec_get, exec_ofDoc]
  cases hs : π.snapshot s.doc with
  | error msg => exact h
  | ok bytes =>
    simp only [Except.mapError, saveSnapshot, exec_bind, exec_ofResult, exec_modify]
    cases io.result with
    | error err => exact h
    | ok u =>
      simp only [appendMarker, exec_bind, exec_modify, exec_ofResult]
      exact hw bytes _ hs

theorem replayEntries_append (doc : π.Doc) (entries entries' : List Entry) :
    replayEntries π doc (entries ++ entries') =
      replayEntries π doc entries >>= fun doc => replayEntries π doc entries' :=
  List.foldlM_append

theorem replayPeers_iff {disk : Disk} {peers : List PeerRecord} {doc doc' : π.Doc} :
    peers.foldlM (replayPeer disk self) doc = .ok doc' ↔
      ∃ logs, List.Forall₂ (fun p es => readPeerLog π disk self p = .ok es) peers logs ∧
        replayEntries π doc logs.flatten = .ok doc' := by
  induction peers generalizing doc with
  | nil =>
    simp only [List.foldlM_nil, List.forall₂_nil_left_iff, exists_eq_left, List.flatten_nil]
    rfl
  | cons p peers ih =>
    simp only [List.foldlM_cons, except_bind_eq_ok, ih, replayPeer, List.forall₂_cons_left_iff]
    constructor
    · intro h
      obtain ⟨mid, ⟨es, hes, hr⟩, logs, hlogs, hr'⟩ := h
      refine ⟨es :: logs, ⟨es, logs, hes, hlogs, rfl⟩, ?_⟩
      rw [List.flatten_cons, replayEntries_append, except_bind_eq_ok]
      exact ⟨mid, hr, hr'⟩
    · intro h
      obtain ⟨_, ⟨es, logs, hes, hlogs, rfl⟩, hr⟩ := h
      rw [List.flatten_cons, replayEntries_append, except_bind_eq_ok] at hr
      obtain ⟨mid, hr, hr'⟩ := hr
      exact ⟨mid, ⟨es, hes, hr⟩, logs, hlogs, hr'⟩

structure Opened (order : RosterOrder) (disk : Disk) (identity : Identity)
    (entries : List RosterEntry) (base : π.Doc) (own : List Entry) (logs : List (List Entry))
    (doc : π.Doc) (s : Store π) : Prop where
  collected : collectRosterEntries π order disk (identity.peerId π) (identity.verifyingKey π)
    disk.founder = .ok entries
  base_eq : baseDoc π (identity.peerId π) disk.snapshot = .ok base
  own_eq : readVerified π (opReader π (identity.peerId π) (identity.verifyingKey π))
    disk.ops[identity.peerId π]? = .ok own
  logs_eq : List.Forall₂ (fun p es => readPeerLog π disk (identity.peerId π) p = .ok es)
    (mergeRoster entries disk.founder) logs
  replayed : replayEntries π base (own ++ logs.flatten) = .ok doc
  store : s = { identity, disk, peers := mergeRoster entries disk.founder, founder := disk.founder,
                doc := π.commit doc, persisted := π.version (π.commit doc) }

theorem openVault_iff {disk : Disk} {device : Identity} : openVault order disk device = .ok s ↔
      ∃ entries base own logs doc, Opened order disk device entries base own logs doc s := by
  simp only [openVault, except_bind_eq_ok, replayPeers_iff]
  constructor
  · intro h
    obtain ⟨entries, hc, base, hb, own, ho, mid, hr, doc, ⟨logs, hl, hr'⟩, hs⟩ := h
    refine ⟨entries, base, own, logs, doc, hc, hb, ho, hl, ?_, (Except.ok.inj hs).symm⟩
    rw [replayEntries_append, except_bind_eq_ok]
    exact ⟨mid, hr, hr'⟩
  · intro h
    obtain ⟨entries, base, own, logs, doc, h⟩ := h
    have hr := h.replayed
    rw [replayEntries_append, except_bind_eq_ok] at hr
    obtain ⟨mid, hr, hr'⟩ := hr
    exact ⟨entries, h.collected, base, h.base_eq, own, h.own_eq, mid, hr, doc,
      ⟨logs, h.logs_eq, hr'⟩, congrArg Except.ok h.store.symm⟩

end Outcomes

end Store

end Roam
