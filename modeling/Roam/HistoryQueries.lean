import Roam.CurrentBlobs

namespace Roam
set_option autoImplicit true
open Library Library.Fallible

namespace Store
variable {π : Platform} {s s' : Store π} {doc doc' : π.Doc}

/-- `historical_entry`: a value of a map at the newest marker that is not later than a time. -/
def historicalEntry (mapId key : String) (beforeTs : Int) : StoreM π (Option String) := do
  let s ← get
  match ← ofResult (markerBefore π s.disk.history beforeTs) with
  | none => pure none
  | some marker =>
    let frontier ← ofResult (decodeFrontier π marker.frontier)
    match π.checkout s.doc frontier with
    | .error _ =>
      -- the document goes back to the latest version also when it cannot be shown at the marker
      set { s with doc := π.checkoutLatest s.doc }
      pure none
    | .ok doc =>
      set { s with doc := π.checkoutLatest doc }
      pure ((π.entries doc mapId).lookup key)

section Walk

def shows (doc : π.Doc) (frontier : String) : Bool := (shownAt doc frontier).isOk

def walked (doc : π.Doc) (shown : π.Doc) (frontiers : List String) : π.Doc :=
  frontiers.foldl (fun shown f => (shownAt doc f).toOption.getD shown) shown

theorem shows_sameHistory (h : SameHistory doc doc') : shows doc' = shows doc := by
  funext f
  rw [shows, shows, h.shownAt]

theorem walked_sameHistory (h : SameHistory doc doc') (shown : π.Doc) :
    walked doc' shown = walked doc shown := by
  funext frontiers
  rw [walked, walked, funext h.shownAt]

theorem walked_concat (hf : shownAt doc f = .ok past) (shown : π.Doc) (init : List String) :
    walked doc shown (init ++ [f]) = past := by
  rw [walked, List.foldl_append, List.foldl_cons, hf]
  rfl

theorem exists_walked {frontiers : List String} (shown : π.Doc)
    (hne : frontiers.takeWhile (shows doc) ≠ []) :
    ∃ f past, (frontiers.takeWhile (shows doc)).getLast? = some f ∧ shownAt doc f = .ok past ∧
      walked doc shown (frontiers.takeWhile (shows doc)) = past := by
  obtain ⟨init, f, hlast⟩ := (List.eq_nil_or_concat' _).resolve_left hne
  have hshows : shows doc f = true := by
    apply List.mem_takeWhile_imp (l := frontiers)
    rw [hlast]
    exact List.mem_append_right init List.mem_cons_self
  rw [shows] at hshows
  cases hf : shownAt doc f with
  | error e =>
    rw [hf] at hshows
    cases hshows
  | ok past =>
    rw [hlast]
    exact ⟨f, past, List.getLast?_concat, hf, walked_concat hf shown init⟩

theorem exec_walk (v : Timeline π) (frontiers : List String) (s : Store π) :
    (exec (frontiers.mapM checkoutHashes) s).1.isOk = frontiers.all (shows s.doc) ∧
      (exec (frontiers.mapM checkoutHashes) s).2 =
        { s with doc := walked s.doc s.doc (frontiers.takeWhile (shows s.doc)) } := by
  induction frontiers generalizing s with
  | nil => exact ⟨rfl, rfl⟩
  | cons f frontiers ih =>
    rw [List.mapM_cons, exec_bind, exec_checkoutHashes, List.all_cons, List.takeWhile_cons, shows]
    cases hshown : shownAt s.doc f with
    | error e => exact ⟨rfl, rfl⟩
    | ok doc =>
      have hsame := shownAt_sameHistory v hshown
      have hrest := ih { s with doc }
      dsimp only at hrest ⊢
      rw [shows_sameHistory hsame, walked_sameHistory hsame] at hrest
      have hwalked : walked s.doc s.doc (f :: frontiers.takeWhile (shows s.doc)) =
          walked s.doc doc (frontiers.takeWhile (shows s.doc)) := by
        rw [walked, List.foldl_cons, hshown]
        rfl
      rw [exec_bind]
      cases hrun : exec (frontiers.mapM checkoutHashes) { s with doc } with
      | mk r t =>
        rw [hrun] at hrest
        obtain ⟨hok, hstate⟩ := hrest
        cases r with
        | error e => exact ⟨hok, hstate.trans (by rw [← hwalked]; rfl)⟩
        | ok hashes => exact ⟨hok, hstate.trans (by rw [← hwalked]; rfl)⟩

def afterWalk (doc : π.Doc) (frontiers : List String) : π.Doc :=
  if frontiers.all (shows doc) then π.checkoutLatest doc
  else walked doc doc (frontiers.takeWhile (shows doc))

end Walk

/-- The walk over the frontiers gets to its end, or stops before it showed any of them. -/
def GetsBack (doc : π.Doc) (frontiers : List String) : Prop :=
  frontiers.all (shows doc) = true ∨ ∃ f ∈ frontiers.head?, shows doc f = false

/-- `Document::checkout` detaches the document, also at its latest version, until
`checkout_latest` attaches it again. -/
def Detaching (π : Platform) : Prop :=
  ∀ (doc : π.Doc) f doc', π.checkout doc f = .ok doc' → π.checkoutLatest doc' ≠ doc'

def ShowsSame (s s' : Store π) : Prop := s'.doc = s.doc

instance : IsPreorder (Store π) ShowsSame where
  refl _ := rfl
  trans _ _ _ h h' := h'.trans h

def LeftBy (s s' : Store π) (frontiers : List String) : Prop :=
  s'.doc = s.doc ∧ frontiers = [] ∨ s'.doc = afterWalk s.doc frontiers

theorem references_then_doc (v : Timeline π) {rest : List String → StoreM π α}
    (hrest : ∀ refs, Leaves ShowsSame (rest refs)) (frontiers : List String) :
    (exec (referencedHashes frontiers >>= rest) s).2.doc = afterWalk s.doc frontiers := by
  obtain ⟨hok, hstate⟩ := exec_walk v frontiers s
  rw [afterWalk, ← hok, referencedHashes, bind_assoc, exec_bind]
  cases hrun : exec (frontiers.mapM checkoutHashes) s with
  | mk r t =>
    rw [hrun] at hstate
    cases r with
    | error e =>
      obtain rfl : t = _ := hstate
      rfl
    | ok past =>
      obtain ⟨⟨doc, rfl, hsame⟩, _⟩ := mapM_checkoutHashes v hrun
      exact ((hrest _).holds _).trans hsame.latest

theorem GetsBack.afterWalk (h : GetsBack doc frontiers) (hlatest : π.checkoutLatest doc = doc) :
    afterWalk doc frontiers = doc := by
  rw [Store.afterWalk]
  split
  next => exact hlatest
  next hstops =>
    obtain ⟨f, hf, hfails⟩ := h.resolve_left hstops
    cases frontiers with
    | nil => cases hf
    | cons g frontiers =>
      cases hf
      rw [List.takeWhile_cons, hfails]
      rfl

theorem afterWalk_eq_iff (v : Timeline π) (hdetach : Detaching π)
    (hlatest : π.checkoutLatest doc = doc) {frontiers : List String} :
    afterWalk doc frontiers = doc ↔ GetsBack doc frontiers := by
  refine ⟨?_, fun h => h.afterWalk hlatest⟩
  rw [afterWalk]
  split
  next hall => exact fun _ => .inl hall
  next =>
    intro hback
    by_cases hnone : frontiers.takeWhile (shows doc) = []
    · right
      cases frontiers with
      | nil => exact absurd rfl ‹_›
      | cons f frontiers =>
        rw [List.takeWhile_cons] at hnone
        cases hf : shows doc f with
        | false => exact ⟨f, rfl, hf⟩
        | true =>
          rw [hf] at hnone
          cases hnone
    · obtain ⟨f, past, _, hshown, hwalked⟩ := exists_walked doc hnone
      obtain ⟨g, hcheckout⟩ := shownAt_ok hshown
      refine absurd ?_ (hdetach doc g past hcheckout)
      rw [v.latest_checkout doc g past hcheckout, hlatest, ← hwalked, hback]

theorem LeftBy.doc_iff (h : LeftBy s s' frontiers) (v : Timeline π) (hdetach : Detaching π)
    (hlatest : π.checkoutLatest s.doc = s.doc) : s'.doc = s.doc ↔ GetsBack s.doc frontiers := by
  rcases h with ⟨hdoc, rfl⟩ | hdoc
  · exact iff_of_true hdoc (.inl rfl)
  · rw [hdoc]
    exact afterWalk_eq_iff v hdetach hlatest

theorem references_one (v : Timeline π) (hlatest : π.checkoutLatest s.doc = s.doc)
    {rest : List String → StoreM π α} (hrest : ∀ refs, Leaves ShowsSame (rest refs))
    (frontier : String) : (exec (referencedHashes [frontier] >>= rest) s).2.doc = s.doc := by
  rw [references_then_doc v hrest]
  apply GetsBack.afterWalk _ hlatest
  cases hshows : shows s.doc frontier with
  | true => exact .inl (List.all_eq_true.2 fun f hf => List.mem_singleton.1 hf ▸ hshows)
  | false => exact .inr ⟨frontier, rfl, hshows⟩

end Store

inductive HistoryQuery
  | checkpoint (io : CheckpointIo) (beforeTs : Int)
  | checkpointDryRun (beforeTs : Int)
  | buildBackendSnapshot (beforeTs : Int)
  | historicalEntry (mapId key : String) (beforeTs : Int)

namespace HistoryQuery
variable {π : Platform} {s : Store π}

def run : HistoryQuery → StoreM π Unit
  | checkpoint io beforeTs => discard (Store.checkpoint io beforeTs)
  | checkpointDryRun beforeTs => discard (Store.checkpointDryRun beforeTs)
  | buildBackendSnapshot beforeTs => discard (Store.buildBackendSnapshot beforeTs)
  | historicalEntry mapId key beforeTs => discard (Store.historicalEntry mapId key beforeTs)

/-- The frontiers that a checkpoint shows the document at: of all markers that are not older than
the one that it goes back to. -/
def walk (s : Store π) : HistoryQuery → List String
  | checkpoint _ beforeTs | checkpointDryRun beforeTs =>
    match markerBefore π s.disk.history beforeTs, markers π s.disk.history with
    | .ok (some target), .ok all => Store.retainedFrontiers all target
    | _, _ => []
  | _ => []

end HistoryQuery

namespace Store
variable {π : Platform} {s : Store π}

theorem exec_discard (op : StoreM π α) (s : Store π) : (exec (discard op) s).2 = (exec op s).2 := by
  change (exec (op >>= fun _ => pure ()) s).2 = _
  rw [exec_bind]
  cases exec op s with
  | mk r t =>
    cases r with
    | error e => rfl
    | ok a => rfl

theorem checkpoint_leftBy (v : Timeline π) (io : CheckpointIo) (beforeTs : Int) :
    LeftBy s (exec (checkpoint io beforeTs) s).2 ((HistoryQuery.checkpoint io beforeTs).walk
      s) := by
  have hrest (target : Marker) (all : List Marker) (referenced : List String) :
      Leaves ShowsSame (do
        let shallow ← shallowAt target
        saveSnapshot io.snapshot shallow
        truncateLogs io.truncate (planFromMarker target).dropLines
        let freed ← reclaimBlobs io.remove referenced
        rewriteHistory io.history all target.tsMs
        pure freed : StoreM π Nat) := by
    refine (shallowAt_leaves target).bind fun shallow => ?_
    refine (saveSnapshot_leaves (fun _ _ => rfl) _ _).bind fun _ => ?_
    refine (truncateLogs_leaves (fun _ _ _ => rfl) _ _).bind fun _ => ?_
    refine (reclaimBlobs_leaves (fun _ _ => rfl) _ _).bind fun freed => ?_
    exact (rewriteHistory_leaves (fun _ _ => rfl) _ _ _).bind fun _ => .pure freed
  simp only [checkpoint, exec_bind, exec_get, exec_ofResult, HistoryQuery.walk]
  cases markerBefore π s.disk.history beforeTs with
  | error e => exact .inl ⟨rfl, rfl⟩
  | ok target? =>
    cases target? with
    | none => exact .inl ⟨rfl, rfl⟩
    | some target =>
      simp only [@exec_bind _ _ _ _ s (ofResult (markers π s.disk.history)), exec_ofResult]
      cases markers π s.disk.history with
      | error e => exact .inl ⟨rfl, rfl⟩
      | ok all =>
          exact .inr (references_then_doc v (hrest target all) (retainedFrontiers all target))

theorem checkpointDryRun_leftBy (v : Timeline π) (beforeTs : Int) :
    LeftBy s (exec (checkpointDryRun beforeTs) s).2 ((HistoryQuery.checkpointDryRun beforeTs).walk
      s) := by
  simp only [checkpointDryRun, exec_bind, exec_get, exec_ofResult, HistoryQuery.walk]
  cases markerBefore π s.disk.history beforeTs with
  | error e => exact .inl ⟨rfl, rfl⟩
  | ok target? =>
    cases target? with
    | none => exact .inl ⟨rfl, rfl⟩
    | some target =>
      simp only [@exec_bind _ _ _ _ s (ofResult (markers π s.disk.history)), exec_ofResult]
      cases markers π s.disk.history with
      | error e => exact .inl ⟨rfl, rfl⟩
      | ok all =>
        refine .inr (references_then_doc v ?_ _)
        exact fun refs => ⟨fun t => rfl⟩

section Queries
variable (v : Timeline π) (hlatest : π.checkoutLatest s.doc = s.doc)
include v hlatest

theorem buildBackendSnapshot_doc (beforeTs : Int) :
    (exec (buildBackendSnapshot beforeTs) s).2.doc = s.doc := by
  simp only [buildBackendSnapshot, exec_bind, exec_get, exec_ofResult]
  cases markerBefore π s.disk.history beforeTs with
  | error e => rfl
  | ok target? =>
    cases target? with
    | none => rfl
    | some target =>
      dsimp only
      rw [exec_bind, exec_ofResult]
      cases (π.b64Decode target.frontier).mapError StorageError.base64 with
      | error e => rfl
      | ok frontier =>
        have hstays := exec_shallowAt target s
        dsimp only
        rw [exec_bind]
        cases hshallow : exec (shallowAt target) s with
        | mk r t =>
          rw [hshallow] at hstays
          obtain rfl : t = s := hstays
          cases r with
          | error e => rfl
          | ok bytes =>
            dsimp only
            rw [exec_bind, exec_get]
            apply references_one v hlatest
            exact fun refs => ⟨fun t => rfl⟩

theorem historicalEntry_doc (mapId key : String) (beforeTs : Int) :
    (exec (historicalEntry mapId key beforeTs) s).2.doc = s.doc := by
  simp only [historicalEntry, exec_bind, exec_get, exec_ofResult]
  cases markerBefore π s.disk.history beforeTs with
  | error e => rfl
  | ok marker? =>
    cases marker? with
    | none => rfl
    | some marker =>
      simp only [exec_bind, exec_ofResult]
      cases decodeFrontier π marker.frontier with
      | error e => rfl
      | ok frontier =>
        dsimp only
        cases hcheckout : π.checkout s.doc frontier with
        | error e => exact hlatest
        | ok doc => exact (v.latest_checkout _ _ _ hcheckout).trans hlatest

/-- A call that looks into the past leaves the document attached at its latest version, whether it
errs or not, exactly if it is no checkpoint, or the markers that the checkpoint keeps can all be
shown, or the first of them cannot. -/
theorem history_query_iff (hdetach : Detaching π) (q : HistoryQuery) :
    (exec q.run s).2.doc = π.checkoutLatest s.doc ↔ GetsBack s.doc (q.walk s) := by
  rw [hlatest]
  cases q with
  | checkpoint io beforeTs =>
    rw [HistoryQuery.run, exec_discard]
    exact (checkpoint_leftBy v io beforeTs).doc_iff v hdetach hlatest
  | checkpointDryRun beforeTs =>
    rw [HistoryQuery.run, exec_discard]
    exact (checkpointDryRun_leftBy v beforeTs).doc_iff v hdetach hlatest
  | buildBackendSnapshot beforeTs =>
    rw [HistoryQuery.run, exec_discard]
    exact iff_of_true (buildBackendSnapshot_doc v hlatest beforeTs) (.inl rfl)
  | historicalEntry mapId key beforeTs =>
    rw [HistoryQuery.run, exec_discard]
    exact iff_of_true (historicalEntry_doc v hlatest mapId key beforeTs) (.inl rfl)

end Queries

section Sample

def ledgerAt (second : Nat) : Store ledgerPlatform :=
  let first : Marker := ⟨1, ledgerPlatform.b64Encode (ledgerPlatform.frontierBytes (0 : Nat)), []⟩
  let next : Marker := ⟨2, ledgerPlatform.b64Encode (ledgerPlatform.frontierBytes second), []⟩
  { Store.fresh (plainIdentity 1) (Ledger.mk [("notes", "a", "b")] 1 false) with
    disk.history := some (joinLines 10 ([first, next].map ledgerPlatform.markerJson.render)) }

/-- The second marker is of a version that the document does not have: the checkpoint errs, and what
is read after it is the state of the first marker. -/
theorem checkpoint_stays_in_past :
    ledgerPlatform.checkoutLatest (ledgerAt 7).doc = (ledgerAt 7).doc ∧
      (exec (checkpoint sampleIo 1) (ledgerAt 7)).1.isOk = false ∧
      ledgerPlatform.entries (ledgerAt 7).doc "notes" = [("a", "b")] ∧
      ledgerPlatform.entries (exec (checkpoint sampleIo 1) (ledgerAt 7)).2.doc "notes" = [] := by
  exact ⟨rfl, by decide +kernel, by decide +kernel, by decide +kernel⟩

theorem ledger_detaching : Detaching ledgerPlatform := by
  intro doc f doc' h
  rw [Ledger.checkout_ok h]
  exact fun heq => nomatch congrArg Ledger.detached heq

theorem checkpoint_comes_back : (exec (HistoryQuery.checkpoint sampleIo 1).run (ledgerAt 1)).2.doc =
      ledgerPlatform.checkoutLatest (ledgerAt 1).doc := by
  have hshown :
      ((HistoryQuery.checkpoint sampleIo 1).walk (ledgerAt 1)).all (shows (ledgerAt 1).doc) =
        true := by
    decide +kernel
  exact (history_query_iff ledgerTimeline rfl ledger_detaching (.checkpoint sampleIo 1)).2
    (.inl hshown)

end Sample

end Store

end Roam
