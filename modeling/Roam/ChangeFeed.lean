import Roam.HistoryQueries

namespace Roam
set_option autoImplicit true
open Library Library.Fallible

structure MapChange where
  container : String
  key : String
  value : Option String
deriving DecidableEq

abbrev MapContents := String → String → Option String

def MapContents.apply (m : MapContents) (change : MapChange) : MapContents :=
  Function.update m change.container
    (Function.update (m change.container) change.key change.value)

/-- The changes list exactly the keys whose values differ, with the new value. -/
def IsDelta (old new : MapContents) (changes : List MapChange) : Prop :=
  ∀ c k v, ⟨c, k, v⟩ ∈ changes ↔ old c k ≠ new c k ∧ v = new c k

theorem foldl_apply {old new : MapContents} {changes : List MapChange}
    (hnew : ∀ change ∈ changes, change.value = new change.container change.key)
    (hkey : old c k = new c k ∨ ∃ change ∈ changes, change.container = c ∧ change.key = k) :
    changes.foldl MapContents.apply old c k = new c k := by
  induction changes generalizing old with
  | nil => exact hkey.resolve_right nofun
  | cons change changes ih =>
    apply ih fun change hchange => hnew change (List.mem_cons_of_mem _ hchange)
    have hvalue := hnew change List.mem_cons_self
    by_cases hhere : change.container = c ∧ change.key = k
    · obtain ⟨rfl, rfl⟩ := hhere
      rw [MapContents.apply, Function.update_self, Function.update_self]
      exact .inl hvalue
    · have hsame : MapContents.apply old change c k = old c k := by
        rw [MapContents.apply, Function.update_apply]
        split
        next heq =>
          rw [Function.update_apply, if_neg fun hk => hhere ⟨heq.symm, hk.symm⟩, heq]
        next => rfl
      rw [hsame]
      refine hkey.imp_right ?_
      rintro ⟨other, hother, hplace⟩
      rcases List.mem_cons.1 hother with rfl | hother
      · exact absurd hplace hhere
      · exact ⟨other, hother, hplace⟩

theorem IsDelta.foldl_apply {old new : MapContents} {changes : List MapChange}
    (h : IsDelta old new changes) : changes.foldl MapContents.apply old = new := by
  funext c k
  apply Roam.foldl_apply
  · exact fun change hchange => ((h _ _ _).1 hchange).2
  · by_cases hsame : old c k = new c k
    · exact .inl hsame
    · exact .inr ⟨⟨c, k, new c k⟩, (h c k _).2 ⟨hsame, rfl⟩, rfl, rfl⟩

namespace Feed
open Store

section
variable {π : Platform}

def contents (doc : π.Doc) : MapContents :=
  fun container key => (π.entries doc container).lookup key

def Attached (doc : π.Doc) : Prop := π.checkoutLatest doc = doc

def ShowsLatest (doc : π.Doc) : Prop := contents doc = contents (π.checkoutLatest doc)

/-- What a sync pass does to the document: it merges updates, or shows it at one marker and goes
back. A call that is refused changes nothing. -/
inductive DocCall
  | importUpdate (bytes : Bytes)
  | importAuthoredBy (author : UInt64) (bytes : Bytes)
  | commit
  | lookBack (marker : String)

def DocCall.run (doc : π.Doc) : DocCall → π.Doc
  | importUpdate bytes => (π.importUpdate doc bytes).toOption.getD doc
  | importAuthoredBy author bytes => (π.importAuthoredBy doc author bytes).toOption.getD doc
  | commit => π.commit doc
  | lookBack marker =>
    match shownAt doc marker with
    | .ok past => π.checkoutLatest past
    | .error _ => doc

/-- The commands of a session. `aside` stands for all that have no part in the document, and a sync
pass may do anything to the rest of the store. -/
inductive Command (π : Platform)
  | aside (op : StoreM π Unit) (h : Leaves ShowsSame op)
  | setEntry (io : Io) (container key value : String)
  | removeEntry (io : Io) (container key : String)
  | editText (io : Io) (textId : String) (pos : Nat) (text : String)
  | compactDryRun (beforeMs : Int)
  | compact (io : CheckpointIo) (beforeMs : Int)
  | sync (calls : List DocCall) (rest : Store π → Store π) (result : Except StorageError Unit)

def Command.run : Command π → StoreM π Unit
  | aside op _ => op
  | setEntry io container key value => Store.setEntry io container key value
  | removeEntry io container key => Store.removeEntry io container key
  | editText io textId pos text => Store.editText io textId pos text
  | compactDryRun beforeMs => discard (Store.checkpointDryRun beforeMs)
  | compact io beforeMs => discard (Vault.compact io beforeMs)
  | sync calls rest result => do
    modify fun s => { rest s with doc := calls.foldl DocCall.run s.doc }
    ofResult result

inductive Request (π : Platform)
  | malformed (msg : String)
  | unrecognized (msg : String)
  | command (c : Command π)

inductive RequestError
  | malformed (msg : String)
  | unrecognized (msg : String)
  | storage (e : StorageError)

structure Reply where
  result : Except RequestError Unit
  changes : List MapChange

variable (mapDelta : π.Doc → π.Frontier → π.Frontier → Except String (List MapChange))

/-- `Session::handle`. The changes are told whether the command succeeds or not. -/
def handle (s : Store π) : Request π → Reply × Store π
  | .malformed msg => (⟨.error (.malformed msg), []⟩, s)
  | .unrecognized msg => (⟨.error (.unrecognized msg), []⟩, s)
  | .command c =>
    let before := π.oplogFrontier s.doc
    let (r, s') := exec c.run s
    let changes := (mapDelta s'.doc before (π.oplogFrontier s'.doc)).toOption.getD []
    (⟨r.mapError .storage, changes⟩, s')

def step (s : Store π) (r : Request π) : Store π := (handle mapDelta s r).2

def changes (s : Store π) (r : Request π) : List MapChange := (handle mapDelta s r).1.changes

def DiffExact (s : Store π) : Request π → Prop
  | .command c =>
    let s' := (exec c.run s).2
    ∃ changes, mapDelta s'.doc (π.oplogFrontier s.doc) (π.oplogFrontier s'.doc) = .ok changes ∧
      IsDelta (contents (π.checkoutLatest s.doc)) (contents (π.checkoutLatest s'.doc)) changes
  | _ => True

/-- The walk over the markers gets to its end, or the last one that it shows has the maps of the
latest version. -/
def SafeWalk (doc : π.Doc) (frontiers : List String) : Prop :=
  frontiers.all (shows doc) = true ∨
    ∀ f ∈ (frontiers.takeWhile (shows doc)).getLast?, ∀ past, shownAt doc f = .ok past →
      contents past = contents (π.checkoutLatest doc)

def Reattaches : π.Doc → List DocCall → Prop
  | _, [] => False
  | doc, call :: calls =>
    (∃ marker, call = .lookBack marker ∧ shows doc marker = true) ∨ Reattaches (call.run doc) calls

/-- A compaction is safe if its walk is; a sync pass if the document is attached before it, or
attached again by it, or if its updates change no map. -/
def Safe (s : Store π) : Request π → Prop
  | .command (.compactDryRun beforeMs) =>
    SafeWalk s.doc ((HistoryQuery.checkpointDryRun beforeMs).walk s)
  | .command (.compact io beforeMs) => SafeWalk s.doc ((HistoryQuery.checkpoint io beforeMs).walk s)
  | .command (.sync calls _ _) => Attached s.doc ∨ Reattaches s.doc calls ∨
    contents (π.checkoutLatest (calls.foldl DocCall.run s.doc)) = contents (π.checkoutLatest s.doc)
  | _ => True

def StaysDetached (doc doc' : π.Doc) : Prop :=
  ¬ Attached doc → ¬ Attached doc' ∧ contents doc' = contents doc

/-- What the library does with a document: at its latest version it stays there, and one that is
shown in the past takes no edits and does not show what it imports. -/
structure Attaching (π : Platform) : Prop where
  edit : ∀ (doc : π.Doc) e doc', ShowsLatest doc → π.edit doc e = .ok doc' →
    ShowsLatest (π.commit doc')
  importUpdate : ∀ (doc : π.Doc) bytes doc', Attached doc → π.importUpdate doc bytes = .ok doc' →
    Attached doc'
  importAuthoredBy : ∀ (doc : π.Doc) author bytes doc', Attached doc →
    π.importAuthoredBy doc author bytes = .ok doc' → Attached doc'
  commit : ∀ doc : π.Doc, Attached doc → Attached (π.commit doc)
  importUpdate_detached : ∀ (doc : π.Doc) bytes doc', π.importUpdate doc bytes = .ok doc' →
    StaysDetached doc doc'
  importAuthoredBy_detached : ∀ (doc : π.Doc) author bytes doc',
    π.importAuthoredBy doc author bytes = .ok doc' → StaysDetached doc doc'
  commit_detached : ∀ doc : π.Doc, StaysDetached doc (π.commit doc)

end

namespace Command
variable {π : Platform}

def read (result : Except StorageError Unit) : Command π :=
  .aside (ofResult result) (.ofResult result)

theorem authorAsAdmin_showsSame (orders : RosterOrder × RosterOrder) (op : RosterOp) (peer : UInt64)
    (key : Bytes32) : Leaves ShowsSame (authorAsAdmin orders op peer key : StoreM π Unit) :=
  ⟨fun s =>
    content_congr Store.doc (fun _ => rfl) (authorAsAdmin_rostered orders op peer key s).content⟩

def addPeer (orders : RosterOrder × RosterOrder) (peer : UInt64) (key : Bytes32) : Command π :=
  .aside (Store.addPeer orders peer key .admin) (authorAsAdmin_showsSame orders (.add .admin)
    peer key)

def revokePeer (orders : RosterOrder × RosterOrder) (peer : UInt64) (key : Bytes32) : Command π :=
  .aside (Store.revokePeer orders peer key) (authorAsAdmin_showsSame orders .revoke peer key)

theorem discard_showsSame {op : StoreM π α} (h : Leaves ShowsSame op) :
    Leaves ShowsSame (discard op) := by
  refine ⟨fun s => ?_⟩
  rw [exec_discard]
  exact h.holds s

def rotateEpoch (seed : RotationSeed) (idKey epoch0Key : Bytes32) : Command π :=
  .aside (discard (Store.rotateEpoch seed idKey epoch0Key none))
    (discard_showsSame (rotateEpoch_leaves (fun _ _ => rfl) seed idKey epoch0Key none))

def putBlob (bytes : Bytes) : Command π := .aside (discard (Vault.putBlob bytes)) ⟨fun _ => rfl⟩

def removeBlob (io : Io) (hash : String) : Command π :=
  .aside (Store.removeBlob io hash) (Leaves.bind (.ofResult _) fun _ => .modify fun _ => rfl)

theorem writeSnapshot_showsSame (io ioMarker : Io) (now : Int) :
    Leaves ShowsSame (Store.writeSnapshot io ioMarker now : StoreM π Unit) := by
  refine Leaves.get.bind fun s => (Leaves.ofResult _).bind fun bytes => ?_
  refine (saveSnapshot_leaves (fun _ _ => rfl) io bytes).bind fun _ => ?_
  exact Leaves.bind (.modify fun _ => rfl) fun _ => .ofResult _

def writeSnapshot (io ioMarker : Io) (now : Int) : Command π :=
  .aside (Store.writeSnapshot io ioMarker now) (writeSnapshot_showsSame io ioMarker now)

end Command

section Steps
variable {π : Platform} {s s' : Store π} {doc : π.Doc}
  {mapDelta : π.Doc → π.Frontier → π.Frontier → Except String (List MapChange)}

theorem Attached.showsLatest (h : Attached doc) : ShowsLatest doc := congrArg contents h.symm

theorem latest_walked (v : Timeline π) {shown : π.Doc} {frontiers : List String}
    (h : π.checkoutLatest shown = π.checkoutLatest doc) :
    π.checkoutLatest (walked doc shown frontiers) = π.checkoutLatest doc := by
  induction frontiers generalizing shown with
  | nil => exact h
  | cons f frontiers ih =>
    apply ih
    dsimp only
    cases hshown : shownAt doc f with
    | error e => exact h
    | ok past => exact (shownAt_sameHistory v hshown).latest

theorem showsLatest_leftBy (v : Timeline π) (hs : ShowsLatest s.doc) (h : LeftBy s s' frontiers) :
    ShowsLatest s'.doc ↔ SafeWalk s.doc frontiers := by
  rcases h with ⟨hdoc, rfl⟩ | hdoc
  · rw [hdoc]
    exact iff_of_true hs (.inl rfl)
  · rw [hdoc, afterWalk, SafeWalk]
    split
    next hall => exact iff_of_true (congrArg contents (v.latest_latest s.doc).symm) (.inl hall)
    next hstops =>
      rw [ShowsLatest, latest_walked v rfl, or_iff_right hstops]
      by_cases hnone : frontiers.takeWhile (shows s.doc) = []
      · rw [hnone]
        refine iff_of_true hs ?_
        rintro f ⟨⟩
      · obtain ⟨f, past, hlast, hshown, hwalked⟩ := exists_walked s.doc hnone
        rw [hwalked, hlast]
        constructor
        · intro h g hg past' hpast
          cases hg
          cases hshown.symm.trans hpast
          exact h
        · exact fun h => h f rfl past hshown

theorem DocCall.attached (v : Timeline π) (lib : Attaching π) (h : Attached doc) (call : DocCall) :
    Attached (call.run doc) := by
  cases call with
  | importUpdate bytes =>
    rw [DocCall.run]
    cases himport : π.importUpdate doc bytes with
    | error e => exact h
    | ok doc' => exact lib.importUpdate doc bytes doc' h himport
  | importAuthoredBy author bytes =>
    rw [DocCall.run]
    cases himport : π.importAuthoredBy doc author bytes with
    | error e => exact h
    | ok doc' => exact lib.importAuthoredBy doc author bytes doc' h himport
  | commit => exact lib.commit doc h
  | lookBack marker =>
    rw [DocCall.run]
    split
    next past _ => exact v.latest_latest past
    next => exact h

theorem attached_foldl (v : Timeline π) (lib : Attaching π) (calls : List DocCall)
    (h : Attached doc) : Attached (calls.foldl DocCall.run doc) := by
  induction calls generalizing doc with
  | nil => exact h
  | cons call calls ih => exact ih (DocCall.attached v lib h call)

theorem DocCall.staysDetached (lib : Attaching π) {call : DocCall}
    (h : ¬ ∃ marker, call = .lookBack marker ∧ shows doc marker = true) :
    StaysDetached doc (call.run doc) := by
  have hsame : StaysDetached doc doc := fun hd => ⟨hd, rfl⟩
  cases call with
  | importUpdate bytes =>
    rw [DocCall.run]
    cases himport : π.importUpdate doc bytes with
    | error e => exact hsame
    | ok doc' => exact lib.importUpdate_detached doc bytes doc' himport
  | importAuthoredBy author bytes =>
    rw [DocCall.run]
    cases himport : π.importAuthoredBy doc author bytes with
    | error e => exact hsame
    | ok doc' => exact lib.importAuthoredBy_detached doc author bytes doc' himport
  | commit => exact lib.commit_detached doc
  | lookBack marker =>
    rw [DocCall.run]
    split
    next hshown => exact absurd ⟨marker, rfl, by rw [shows, hshown]; rfl⟩ h
    next => exact hsame

theorem detached_foldl (v : Timeline π) (lib : Attaching π) (calls : List DocCall)
    (h : ¬ Attached doc) : Reattaches doc calls ∧ Attached (calls.foldl DocCall.run doc) ∨
      ¬ Reattaches doc calls ∧ contents (calls.foldl DocCall.run doc) = contents doc := by
  induction calls generalizing doc with
  | nil => exact .inr ⟨id, rfl⟩
  | cons call calls ih =>
    rw [Reattaches, List.foldl_cons]
    by_cases hlook : ∃ marker, call = .lookBack marker ∧ shows doc marker = true
    · refine .inl ⟨.inl hlook, attached_foldl v lib calls ?_⟩
      obtain ⟨marker, rfl, hshows⟩ := hlook
      rw [shows] at hshows
      rw [DocCall.run]
      split
      next past _ => exact v.latest_latest past
      next hfails =>
        rw [hfails] at hshows
        cases hshows
    · obtain ⟨hdetached, hcontents⟩ := DocCall.staysDetached lib hlook h
      rw [or_iff_right hlook, ← hcontents]
      exact ih hdetached

theorem showsLatest_editDoc (lib : Attaching π) (hs : ShowsLatest s.doc) (io : Io)
    (e : DocEdit π.Frontier) : ShowsLatest (exec (editDoc io e) s).2.doc := by
  have hedited := editDoc_outcome io e s
  generalize exec (editDoc io e) s = out at hedited ⊢
  obtain ⟨r, s'⟩ := out
  cases hedited with
  | refused msg h => exact hs
  | unexported doc msg h hd => exact lib.edit s.doc e doc hs h
  | nothing doc h hv => exact lib.edit s.doc e doc hs h
  | failed doc delta err h hd hio =>
    exact (putOps_doc _ _).symm ▸ lib.edit s.doc e doc hs h
  | logged doc delta h hd hio =>
    exact (putOps_doc _ _).symm ▸ lib.edit s.doc e doc hs h

theorem showsLatest_step (v : Timeline π) (lib : Attaching π) (hs : ShowsLatest s.doc)
    (r : Request π) : ShowsLatest (step mapDelta s r).doc ↔ Safe s r := by
  cases r with
  | malformed msg => exact iff_of_true hs trivial
  | unrecognized msg => exact iff_of_true hs trivial
  | command c =>
    cases c with
    | aside op h =>
      have hsame : (step mapDelta s (.command (.aside op h))).doc = s.doc := h.holds s
      rw [hsame]
      exact iff_of_true hs trivial
    | setEntry io container key value => exact iff_of_true (showsLatest_editDoc lib hs io _) trivial
    | removeEntry io container key => exact iff_of_true (showsLatest_editDoc lib hs io _) trivial
    | editText io textId pos text => exact iff_of_true (showsLatest_editDoc lib hs io _) trivial
    | compactDryRun beforeMs =>
      apply showsLatest_leftBy v hs
      rw [LeftBy, step, handle, Command.run, exec_discard]
      exact checkpointDryRun_leftBy v beforeMs
    | compact io beforeMs =>
      apply showsLatest_leftBy v hs
      rw [LeftBy, step, handle, Command.run, exec_discard]
      exact checkpoint_leftBy v io beforeMs
    | sync calls rest result =>
      by_cases hattached : Attached s.doc
      · exact iff_of_true (attached_foldl v lib calls hattached).showsLatest (.inl hattached)
      rw [Safe, or_iff_right hattached]
      rcases detached_foldl v lib calls hattached with ⟨hback, hlatest⟩ | ⟨hnot, hshown⟩
      · exact iff_of_true hlatest.showsLatest (.inl hback)
      · have hdoc : (step mapDelta s (.command (.sync calls rest result))).doc =
            calls.foldl DocCall.run s.doc := rfl
        rw [or_iff_right hnot, hdoc, ShowsLatest, hshown, hs]
        exact eq_comm

theorem showsLatest_run (v : Timeline π) (lib : Attaching π) (hs : ShowsLatest s.doc)
    (requests : List (Request π)) :
    (∀ done, done <+: requests → ShowsLatest (runAll (step mapDelta) s done).doc) ↔
      Along (step mapDelta) Safe s requests := by
  induction requests generalizing s with
  | nil =>
    refine iff_of_true (fun done hdone => ?_) trivial
    rw [List.prefix_nil.1 hdone]
    exact hs
  | cons r requests ih =>
    rw [Along, ← showsLatest_step v lib hs r]
    constructor
    · intro h
      have hstep := h [r] (List.prefix_append [r] requests)
      exact ⟨hstep, (ih hstep).1 fun done hdone => h (r :: done) (List.cons_prefix_cons.2 ⟨rfl,
        hdone⟩)⟩
    · rintro ⟨hstep, hrest⟩ done hdone
      cases done with
      | nil => exact hs
      | cons r' done =>
        obtain ⟨rfl, hprefix⟩ := List.cons_prefix_cons.1 hdone
        exact (ih hstep).2 hrest done hprefix

theorem DiffExact.apply (h : DiffExact mapDelta s r) :
    (changes mapDelta s r).foldl MapContents.apply (contents (π.checkoutLatest s.doc)) =
      contents (π.checkoutLatest (step mapDelta s r).doc) := by
  cases r with
  | malformed msg => rfl
  | unrecognized msg => rfl
  | command c =>
    obtain ⟨changes, hdelta, hexact⟩ := h
    rw [Feed.changes, handle]
    dsimp only
    rw [hdelta]
    exact hexact.foldl_apply

theorem apply_feed (requests : List (Request π))
    (h : Along (step mapDelta) (DiffExact mapDelta) s requests) :
    (outputs (step mapDelta) (changes mapDelta) s requests).foldl MapContents.apply
        (contents (π.checkoutLatest s.doc)) =
      contents (π.checkoutLatest (runAll (step mapDelta) s requests).doc) := by
  induction requests generalizing s with
  | nil => rfl
  | cons r requests ih =>
    rw [outputs, List.foldl_append, h.1.apply]
    exact ih h.2

/-- After every request of a run the changes told so far lead to the maps that the document shows if
and only if no compaction stops at a marker with other maps, and no sync pass changes the maps
behind a document left there without attaching it again. -/
theorem feed_complete_iff (v : Timeline π) (lib : Attaching π) (hs : ShowsLatest s.doc)
    (requests : List (Request π)) (hdiff : Along (step mapDelta) (DiffExact mapDelta) s requests) :
    (∀ done, done <+: requests →
      (outputs (step mapDelta) (changes mapDelta) s done).foldl MapContents.apply (contents s.doc) =
        contents (runAll (step mapDelta) s done).doc) ↔ Along (step mapDelta) Safe s requests := by
  rw [← showsLatest_run v lib hs requests]
  refine forall₂_congr fun done hdone => ?_
  obtain ⟨rest, rfl⟩ := hdone
  rw [hs, apply_feed done (along_append.1 hdiff).1]
  exact eq_comm

end Steps

section Sample

def ledgerDelta (doc : Ledger) (old new : Nat) : Except String (List MapChange) :=
  .ok (((doc.writes.take new).drop old).map fun write => ⟨write.1, write.2.1, some write.2.2⟩)

theorem ledger_attaching : Attaching ledgerPlatform where
  edit doc e doc' _ h := by
    cases e with
    | setEntry mapId key value =>
      cases h
      apply Attached.showsLatest
      exact congrArg (Ledger.mk _ · _) List.length_append
    | insertText | deleteText | removeEntry | revertContainer => cases h
  importUpdate _ _ _ _ h := nomatch h
  importAuthoredBy _ _ _ _ _ h := nomatch h
  commit _ h := h
  importUpdate_detached _ _ _ h := nomatch h
  importAuthoredBy_detached _ _ _ _ h := nomatch h
  commit_detached _ h := ⟨h, rfl⟩

def compactRequest : Request ledgerPlatform := .command (.compact sampleIo 1)

/-- The compaction stops at the first marker: the caller is told of no change and still has the
entry, which the document does not show any more. -/
theorem feed_misses_compaction :
    (outputs (step ledgerDelta) (changes ledgerDelta) (ledgerAt 7) [compactRequest]).foldl
        MapContents.apply (contents (ledgerAt 7).doc) "notes" "a" = some "b" ∧
      contents (runAll (step ledgerDelta) (ledgerAt 7) [compactRequest]).doc "notes" "a" = none :=
  ⟨by decide +kernel, by decide +kernel⟩

theorem feed_complete_compacted :
    ShowsLatest (ledgerAt 1).doc ∧ ∀ done, done <+: [.malformed "", compactRequest] →
      (outputs (step ledgerDelta) (changes ledgerDelta) (ledgerAt 1) done).foldl MapContents.apply
          (contents (ledgerAt 1).doc) =
        contents (runAll (step ledgerDelta) (ledgerAt 1) done).doc := by
  have hwalk :
      ((HistoryQuery.checkpoint sampleIo 1).walk (ledgerAt 1)).all (shows (ledgerAt 1).doc) =
        true := by
    decide +kernel
  have hdoc : (exec (Command.compact sampleIo 1).run (ledgerAt 1)).2.doc = (ledgerAt 1).doc := by
    have hleft := checkpoint_leftBy (s := ledgerAt 1) ledgerTimeline sampleIo 1
    rw [Command.run, exec_discard, Vault.compact]
    exact (hleft.doc_iff ledgerTimeline ledger_detaching rfl).2 (.inl hwalk)
  have hdiff : DiffExact ledgerDelta (ledgerAt 1) compactRequest := by
    dsimp only [compactRequest, DiffExact]
    rw [hdoc]
    exact ⟨[], rfl, fun c k v => ⟨nofun, fun h => absurd rfl h.1⟩⟩
  have hshows : ShowsLatest (ledgerAt 1).doc := Attached.showsLatest rfl
  exact ⟨hshows, (feed_complete_iff ledgerTimeline ledger_attaching hshows
    [.malformed "", compactRequest] ⟨trivial, hdiff, trivial⟩).2 ⟨trivial, .inl hwalk, trivial⟩⟩

end Sample

end Feed

end Roam
