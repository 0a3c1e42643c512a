import Roam.StrandedPeers

namespace Roam
set_option autoImplicit true
open Library Library.Fallible

/-- A document that can be shown at the points of its history: what is shown does not change the
history. -/
structure Timeline (π : Platform) where
  text : π.Doc → String → String
  checkout_again : ∀ doc f doc', π.checkout doc f = .ok doc' →
    ∀ g, π.checkout doc' g = π.checkout doc g
  latest_checkout : ∀ doc f doc', π.checkout doc f = .ok doc' →
    π.checkoutLatest doc' = π.checkoutLatest doc
  latest_latest : ∀ doc, π.checkoutLatest (π.checkoutLatest doc) = π.checkoutLatest doc

namespace Store

section Walk
variable {π : Platform} {s s' : Store π} {doc doc' : π.Doc} {hash : String}

def shownAt (doc : π.Doc) (at_ : String) : Except StorageError π.Doc :=
  match decodeFrontier π at_ with
  | .ok f => (π.checkout doc f).mapError .crdt
  | .error e => .error e

theorem shownAt_ok {at_ : String} (h : shownAt doc at_ = .ok doc') :
    ∃ f, π.checkout doc f = .ok doc' := by
  rw [shownAt] at h
  split at h
  · exact ⟨_, mapError_eq_ok.1 h⟩
  · cases h

theorem exec_checkoutHashes (at_ : String) (s : Store π) :
    exec (checkoutHashes at_) s =
      match shownAt s.doc at_ with
      | .error e => (.error e, s)
      | .ok doc => (.ok (shownHashes doc), { s with doc }) := by
  rw [checkoutHashes, exec_bind, exec_ofResult, shownAt]
  cases decodeFrontier π at_ with
  | error e => rfl
  | ok f =>
    dsimp only
    rw [exec_bind, exec_get]
    dsimp only
    rw [exec_bind, exec_ofDoc]
    cases π.checkout s.doc f with
    | error msg => rfl
    | ok doc => rfl

structure SameHistory (doc doc' : π.Doc) : Prop where
  checkout : ∀ f, π.checkout doc' f = π.checkout doc f
  latest : π.checkoutLatest doc' = π.checkoutLatest doc

theorem shownAt_sameHistory (v : Timeline π) {at_ : String} (h : shownAt doc at_ = .ok doc') :
    SameHistory doc doc' := by
  obtain ⟨f, hdoc⟩ := shownAt_ok h
  exact ⟨v.checkout_again doc f doc' hdoc, v.latest_checkout doc f doc' hdoc⟩

theorem SameHistory.shownAt (h : SameHistory doc doc') (at_ : String) :
    Store.shownAt doc' at_ = Store.shownAt doc at_ := by
  rw [Store.shownAt, Store.shownAt, funext h.checkout]

def NamedAt (doc : π.Doc) (frontiers : List String) (hash : String) : Prop :=
  ∃ f ∈ frontiers, ∃ past, Store.shownAt doc f = .ok past ∧ hash ∈ shownHashes past

theorem SameHistory.namedAt (h : SameHistory doc doc') :
    NamedAt doc' frontiers hash ↔ NamedAt doc frontiers hash := by
  simp only [NamedAt, h.shownAt]

theorem mapM_checkoutHashes (v : Timeline π)
    (h : exec (frontiers.mapM checkoutHashes) s = (.ok past, s')) :
    (∃ doc, s' = { s with doc } ∧ SameHistory s.doc doc) ∧
      ∀ hash, hash ∈ past.flatten ↔ NamedAt s.doc frontiers hash := by
  induction frontiers generalizing s past with
  | nil =>
    cases h
    refine ⟨⟨_, rfl, fun _ => rfl, rfl⟩, fun hash => ⟨nofun, ?_⟩⟩
    rintro ⟨f, hf, _⟩
    cases hf
  | cons f frontiers ih =>
    rw [List.mapM_cons] at h
    obtain ⟨hashes, t, hone, h⟩ := exec_bind_ok h
    obtain ⟨rest, t', hrest, h⟩ := exec_bind_ok h
    cases h
    rw [exec_checkoutHashes] at hone
    cases hshown : shownAt s.doc f with
    | error e =>
      rw [hshown] at hone
      cases hone
    | ok doc =>
      rw [hshown] at hone
      cases hone
      have hsame := shownAt_sameHistory v hshown
      obtain ⟨⟨doc', hs', hsame'⟩, hmem⟩ := ih hrest
      refine ⟨⟨doc', hs', ?_, hsame'.latest.trans hsame.latest⟩, ?_⟩
      · exact fun g => (hsame'.checkout g).trans (hsame.checkout g)
      intro hash
      rw [List.flatten_cons, List.mem_append, hmem hash, hsame.namedAt]
      constructor
      · rintro (hnow | ⟨g, hg, hnamed⟩)
        · exact ⟨f, List.mem_cons_self, doc, hshown, hnow⟩
        · exact ⟨g, List.mem_cons_of_mem f hg, hnamed⟩
      · rintro ⟨g, hg, past, hpast, hnamed⟩
        rcases List.mem_cons.1 hg with rfl | hg
        · cases hshown.symm.trans hpast
          exact .inl hnamed
        · exact .inr ⟨g, hg, past, hpast, hnamed⟩

theorem referencedHashes_ok (v : Timeline π)
    (h : exec (referencedHashes retained) s = (.ok refs, s')) :
    s' = { s with doc := π.checkoutLatest s.doc } ∧ ∀ hash, hash ∈ refs ↔
        NamedAt s.doc retained hash ∨ hash ∈ shownHashes (π.checkoutLatest s.doc) := by
  obtain ⟨past, t, hwalk, h⟩ := exec_bind_ok h
  obtain ⟨⟨doc, rfl, hsame⟩, hmem⟩ := mapM_checkoutHashes v hwalk
  cases h
  dsimp only
  rw [hsame.latest]
  refine ⟨rfl, fun hash => ?_⟩
  rw [List.mem_append, hmem hash]

end Walk

section Reclaim
variable {π : Platform} {s s' : Store π}

structure SameBlobs (s s' : Store π) : Prop where
  doc : s'.doc = s.doc
  blobs : s'.disk.blobs = s.disk.blobs

instance : IsPreorder (Store π) SameBlobs where
  refl _ := ⟨rfl, rfl⟩
  trans _ _ _ h h' := ⟨h'.doc.trans h.doc, h'.blobs.trans h.blobs⟩

theorem exec_removeBlob_ok {hash : String} (h : exec (removeBlob io hash) s = (.ok u, s')) :
    s' = { s with disk.blobs := s.disk.blobs.erase hash } := by
  obtain ⟨_, t, hio, h⟩ := exec_bind_ok h
  rw [exec_ofResult] at hio
  obtain rfl : s = t := congrArg Prod.snd hio
  cases h
  rfl

theorem foldlM_reclaim {io : String → Io} {blobs : List (String × Bytes)} {referenced : List String}
    (h : exec (blobs.foldlM (fun freed blob =>
      if blob.1 ∈ referenced then pure freed
      else do
        removeBlob (io blob.1) blob.1
        pure (freed + blob.2.length)) freed) s = (.ok freed', s')) :
    s'.doc = s.doc ∧ ∀ hash : String, s'.disk.blobs[hash]? =
      if hash ∈ blobs.map Prod.fst ∧ hash ∉ referenced then none else s.disk.blobs[hash]? := by
  induction blobs generalizing s freed with
  | nil =>
    cases h
    refine ⟨rfl, fun hash => (if_neg ?_).symm⟩
    exact fun hmem => List.not_mem_nil hmem.1
  | cons blob blobs ih =>
    rw [List.foldlM_cons] at h
    obtain ⟨n, t, hone, hrest⟩ := exec_bind_ok h
    obtain ⟨hdoc, hblobs⟩ := ih hrest
    split at hone
    next hkept =>
      cases hone
      refine ⟨hdoc, fun hash => (hblobs hash).trans ?_⟩
      simp only [List.map_cons, List.mem_cons]
      congr 1
      grind
    next hgone =>
      obtain ⟨u, t', hremove, hone⟩ := exec_bind_ok hone
      cases hone
      have ht := exec_removeBlob_ok hremove
      subst ht
      refine ⟨hdoc, fun hash => (hblobs hash).trans ?_⟩
      simp only [List.map_cons, List.mem_cons, get_erase]
      grind

theorem reclaimBlobs_ok (h : exec (reclaimBlobs io referenced) s = (.ok freed, s')) :
    s'.doc = s.doc ∧ ∀ hash : String, s'.disk.blobs[hash]? =
      if hash ∈ referenced then s.disk.blobs[hash]? else none := by
  rw [reclaimBlobs, exec_bind, exec_get] at h
  obtain ⟨hdoc, hblobs⟩ := foldlM_reclaim h
  refine ⟨hdoc, fun hash => (hblobs hash).trans ?_⟩
  by_cases href : hash ∈ referenced
  · rw [if_pos href, if_neg fun h => h.2 href]
  · rw [if_neg href]
    by_cases hmem : hash ∈ s.disk.blobs
    · have hlist : hash ∈ s.disk.blobs.toList.map Prod.fst := by
        rw [Std.TreeMap.map_fst_toList_eq_keys]
        exact Std.TreeMap.mem_keys.2 hmem
      exact if_pos ⟨hlist, href⟩
    · rw [Std.TreeMap.getElem?_eq_none hmem, ite_self]

def Retained (s : Store π) (all : List Marker) (target : Marker) (hash : String) : Prop :=
  hash ∈ shownHashes (π.checkoutLatest s.doc) ∨ NamedAt s.doc (retainedFrontiers all target) hash

inductive Reclaimed (beforeTs : Int) (s s' : Store π) : Prop
  | kept (hsel : markerBefore π s.disk.history beforeTs = .ok none) (hs : s' = s)
  | cut (target : Marker) (all : List Marker)
      (hsel : markerBefore π s.disk.history beforeTs = .ok (some target))
      (hall : markers π s.disk.history = .ok all)
      (hdoc : s'.doc = π.checkoutLatest s.doc)
      (hkept : ∀ hash : String, s.Retained all target hash →
        s'.disk.blobs[hash]? = s.disk.blobs[hash]?)
      (hgone : ∀ hash : String, ¬ s.Retained all target hash → s'.disk.blobs[hash]? = none)

theorem checkpoint_reclaimed (v : Timeline π)
    (h : exec (checkpoint io beforeTs) s = (.ok freed, s')) : Reclaimed beforeTs s s' := by
  rw [checkpoint, exec_bind, exec_get] at h
  obtain ⟨target?, t, hsel, h⟩ := exec_bind_ok h
  rw [exec_ofResult] at hsel
  obtain rfl : s = t := congrArg Prod.snd hsel
  have hsel := congrArg Prod.fst hsel
  dsimp only at hsel
  cases target? with
  | none =>
    cases h
    exact .kept hsel rfl
  | some target =>
    obtain ⟨all, t, hall, h⟩ := exec_bind_ok h
    rw [exec_ofResult] at hall
    obtain rfl : s = t := congrArg Prod.snd hall
    obtain ⟨refs, t, hrefs, h⟩ := exec_bind_ok h
    obtain ⟨rfl, hmem⟩ := referencedHashes_ok v hrefs
    obtain ⟨shallow, t₁, hshallow, h⟩ := exec_bind_ok h
    obtain ⟨_, t₂, hsave, h⟩ := exec_bind_ok h
    obtain ⟨_, t₃, htruncate, h⟩ := exec_bind_ok h
    obtain ⟨n, t₄, hreclaim, h⟩ := exec_bind_ok h
    obtain ⟨_, t₅, hhistory, h⟩ := exec_bind_ok h
    cases h
    have hbefore : SameBlobs { s with doc := π.checkoutLatest s.doc } t₃ :=
      trans_of SameBlobs ((shallowAt_leaves target).of_exec hshallow)
        (trans_of SameBlobs
          ((saveSnapshot_leaves (fun _ _ => ⟨rfl, rfl⟩) io.snapshot shallow).of_exec hsave)
          ((truncateLogs_leaves (fun _ _ _ => ⟨rfl, rfl⟩) io.truncate _).of_exec htruncate))
    have hafter : SameBlobs t₄ s' :=
      (rewriteHistory_leaves (fun _ _ => ⟨rfl, rfl⟩) io.history all target.tsMs).of_exec hhistory
    obtain ⟨hdoc, hblobs⟩ := reclaimBlobs_ok hreclaim
    refine .cut target all hsel (congrArg Prod.fst hall) ?_ ?_ ?_
    · rw [hafter.doc, hdoc, hbefore.doc]
    · intro hash hretained
      rw [hafter.blobs, hblobs, if_pos ((hmem hash).2 hretained.symm), hbefore.blobs]
    · intro hash hretained
      rw [hafter.blobs, hblobs, if_neg]
      exact fun href => hretained ((hmem hash).1 href).symm

end Reclaim

section Current
variable {π : Platform} {s s' : Store π}

def Mentioned (s : Store π) (hash : String) : Prop :=
  ∃ mapId, ∃ entry ∈ π.entries (π.checkoutLatest s.doc) mapId, hash.toList <:+: entry.2.toList

/-- The current values, what is shown if that is the latest version, and the blobs that a current
value names are the same. -/
structure CurrentKept (v : Timeline π) (s s' : Store π) : Prop where
  entries : ∀ mapId,
    π.entries (π.checkoutLatest s'.doc) mapId = π.entries (π.checkoutLatest s.doc) mapId
  text : ∀ id, v.text (π.checkoutLatest s'.doc) id = v.text (π.checkoutLatest s.doc) id
  shown : π.checkoutLatest s.doc = s.doc →
    π.entries s'.doc = π.entries s.doc ∧ v.text s'.doc = v.text s.doc
  blobs : ∀ hash ∈ s.disk.blobs, s.Mentioned hash →
    s'.disk.blobs[hash]? = s.disk.blobs[hash]?

/-- The blobs that current values name are kept exactly if the file set names them too. -/
theorem currentKept_iff (v : Timeline π) (h : exec (checkpoint io beforeTs) s = (.ok freed, s')) :
    CurrentKept v s s' ↔ ∀ target all, markerBefore π s.disk.history beforeTs = .ok (some target) →
        markers π s.disk.history = .ok all →
          ∀ hash ∈ s.disk.blobs, s.Mentioned hash → s.Retained all target hash := by
  cases checkpoint_reclaimed v h with
  | kept hsel hs =>
    subst hs
    constructor
    · intro _ target all hsel'
      cases hsel.symm.trans hsel'
    · intro _
      exact ⟨fun _ => rfl, fun _ => rfl, fun _ => ⟨rfl, rfl⟩, fun _ _ _ => rfl⟩
  | cut target all hsel hall hdoc hkept hgone =>
    constructor
    · intro hcurrent target' all' hsel' hall' hash hmem hmention
      cases hsel.symm.trans hsel'
      cases hall.symm.trans hall'
      by_contra hretained
      have hsome := Std.TreeMap.mem_iff_isSome_getElem?.1 hmem
      rw [← hcurrent.blobs hash hmem hmention, hgone hash hretained] at hsome
      cases hsome
    · intro hcovered
      have hlatest : π.checkoutLatest s'.doc = π.checkoutLatest s.doc := by
        rw [hdoc, v.latest_latest]
      refine ⟨fun _ => by rw [hlatest], fun _ => by rw [hlatest], fun hshown => ?_, ?_⟩
      · rw [hdoc, hshown]
        exact ⟨rfl, rfl⟩
      · intro hash hmem hmention
        exact hkept hash (hcovered target all hsel hall hash hmem hmention)

end Current

section Sample

structure Ledger where
  writes : List (String × String × String)
  shown : Nat
  detached : Bool

def Ledger.checkout (doc : Ledger) (f : Nat) : Except String Ledger :=
  if f ≤ doc.writes.length then .ok { doc with shown := f, detached := true }
  else .error "unknown frontier"

theorem Ledger.checkout_ok {doc doc' : Ledger} (h : doc.checkout f = .ok doc') :
    doc' = { doc with shown := f, detached := true } := by
  rw [checkout] at h
  split at h
  · exact (Except.ok.inj h).symm
  · cases h

def ledgerDocs : DocLib where
  Doc := Ledger
  Version := Nat
  Frontier := Nat
  versionEq := inferInstance
  versionBytes v := List.replicate v 0
  versionOf bytes := .ok bytes.length
  includes v w := w ≤ v
  frontierBytes f := List.replicate f 0
  frontierOf bytes := .ok bytes.length
  newDoc _ := .ok ⟨[], 0, false⟩
  fromSnapshot _ _ := .error "no snapshot"
  edit doc
    | .setEntry mapId key value =>
      .ok ⟨doc.writes ++ [(mapId, key, value)], doc.writes.length + 1, false⟩
    | _ => .error "not a map"
  importUpdate _ _ := .error "no update"
  importAuthoredBy _ _ _ := .error "no update"
  commit doc := doc
  version doc := doc.writes.length
  exportFrom doc v := .ok (List.replicate (doc.writes.length - v) 0)
  snapshot doc := .ok (List.replicate doc.writes.length 0)
  oplogFrontier doc := doc.writes.length
  shallowSnapshot doc f := .ok (List.replicate (doc.writes.length - f) 0)
  checkout := Ledger.checkout
  checkoutLatest doc := { doc with shown := doc.writes.length, detached := false }
  entries doc mapId :=
    let writes := (doc.writes.take doc.shown).filter fun write => write.1 = mapId
    (writes.foldl (fun entries write => entries.insert write.2.1 write.2.2)
      (∅ : Std.TreeMap String String)).toList

abbrev ledgerPlatform : Platform := { openPlatform with toDocLib := ledgerDocs }

def ledgerTimeline : Timeline ledgerPlatform where
  text _ _ := ""
  checkout_again doc f doc' h g := by
    rw [Ledger.checkout_ok h]
    rfl
  latest_checkout doc f doc' h := by
    rw [Ledger.checkout_ok h]
    rfl
  latest_latest _ := rfl

def blobIn (mapId : String) : Store ledgerPlatform :=
  (exec (do
    let hash ← Vault.putBlob [1]
    setEntry .done mapId "cover" hash
    writeSnapshot .done .done 5) (Store.fresh (plainIdentity 1) (Ledger.mk [] 0 false))).2

/-- A map of its own that an embedder keeps the hash in does not save the blob. -/
theorem compact_reclaims_mentioned : (exec (Vault.compact sampleIo 9) (blobIn "albums")).1 = .ok 1 ∧
      ¬ CurrentKept ledgerTimeline (blobIn "albums")
        (exec (Vault.compact sampleIo 9) (blobIn "albums")).2 := by
  refine ⟨by decide +kernel, ?_⟩
  intro h
  have hblob : ∃ hash ∈ (blobIn "albums").disk.blobs.keys,
      (∃ entry ∈ ledgerPlatform.entries (ledgerPlatform.checkoutLatest (blobIn "albums").doc)
        "albums", hash.toList <:+: entry.2.toList) ∧
      (exec (Vault.compact sampleIo 9) (blobIn "albums")).2.disk.blobs[hash]? ≠
        (blobIn "albums").disk.blobs[hash]? := by
    decide +kernel
  obtain ⟨hash, hkey, hentry, hgone⟩ := hblob
  exact hgone (h.blobs hash (Std.TreeMap.mem_keys.1 hkey) ⟨"albums", hentry⟩)

theorem compact_keeps_files : CurrentKept ledgerTimeline (blobIn filesetMapId)
      (exec (Vault.compact sampleIo 9) (blobIn filesetMapId)).2 := by
  have hok : (exec (Vault.compact sampleIo 9) (blobIn filesetMapId)).1 = .ok 0 := by decide +kernel
  apply (currentKept_iff ledgerTimeline (exec_of_fst hok)).2
  intro target all hsel hall hash hmem hmention
  apply Or.inl
  have hkeys : ∀ hash ∈ (blobIn filesetMapId).disk.blobs.keys,
      hash ∈ shownHashes (ledgerPlatform.checkoutLatest (blobIn filesetMapId).doc) := by
    decide +kernel
  exact hkeys hash (Std.TreeMap.mem_keys.2 hmem)

end Sample

end Store

end Roam
