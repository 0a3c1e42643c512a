import Roam.TornKeylog

namespace Roam
set_option autoImplicit true
open Library Library.Fallible

section Keys
variable {c : Crypto} {idKey epoch0Key : Bytes32} {peer : UInt64} {secret epoch : Bytes32}
  {own news others entries : List KeyLogEntry}

def delivery (c : Crypto) (peer : UInt64) (secret epoch : Bytes32) (rot : Rotation)
    (x : KeyLogEntry) :
    Option Bytes32 :=
  if x.epochId = epoch then deliveredKey c peer secret epoch rot x else none

theorem foldl_attachTo_key (es : List KeyLogEntry) (node : EpochNode) :
    (es.foldl (attachTo c peer secret) node).key =
      node.key.or (es.findSome? fun x => deliveredKey c peer secret x.epochId node.rotation x) := by
  induction es generalizing node with
  | nil => exact (Option.or_none).symm
  | cons x es ih =>
    rw [List.foldl_cons, ih, attachTo_key, attachTo_rotation, Option.or_assoc, List.findSome?_cons]
    congr 1
    cases deliveredKey c peer secret x.epochId node.rotation x with
    | none => rfl
    | some k => rfl

theorem findSome?_wraps (rot : Rotation) : (valuesAt wrapItem epoch entries).findSome? (fun x =>
      deliveredKey c peer secret x.epochId rot x) =
      entries.findSome? (delivery c peer secret epoch rot) := by
  rw [valuesAt]
  induction entries with
  | nil => rfl
  | cons x entries ih =>
    obtain ⟨seq, author, epochId, body⟩ := x
    rw [List.filterMap_cons, List.findSome?_cons, ← ih, delivery]
    cases body with
    | rotate parentEpochs nonce => simp only [wrapItem, Option.bind_none, deliveredKey, ite_self]
    | wrap recipient blob =>
      by_cases hid : epochId = epoch
      · subst hid
        simp only [wrapItem, Option.bind_some, ↓reduceIte, List.findSome?_cons]
      · simp only [wrapItem, Option.bind_some, hid, ↓reduceIte]

theorem epochKey_eq (he : epoch ≠ epoch0Id) :
    (Keychain.build c idKey epoch0Key peer secret entries).epochKey epoch =
      (firstRotate entries epoch).bind fun rot =>
        entries.findSome? (delivery c peer secret epoch rot) := by
  rw [Keychain.epochKey]
  change (epochNodes c epoch0Key peer secret entries)[epoch]?.bind EpochNode.key = _
  rw [epochNodes_getElem?, announcedNode, if_neg he, Option.map_map]
  cases firstRotate entries epoch with
  | none => rfl
  | some rot =>
    rw [Option.map_some, Option.bind_some, Option.bind_some, Function.comp_apply,
      foldl_attachTo_key]
    exact findSome?_wraps rot

theorem delivery_commits (h : delivery c peer secret epoch rot x = some k) :
    c.blake3 (rot.preimage k) = epoch := by
  rw [delivery] at h
  split at h
  · exact (deliveredKey_commits h).2
  · cases h

def WrapsTo (epoch : Bytes32) (peer : UInt64) (x : KeyLogEntry) : Prop :=
  x.epochId = epoch ∧ ∃ blob, x.body = .wrap (.device peer) blob

theorem wrapsTo_of_delivery (h : delivery c peer secret epoch rot x = some k) :
    WrapsTo epoch peer x := by
  rw [delivery] at h
  split at h
  next hid =>
    obtain ⟨_, blob, hbody, _⟩ := deliveredKey_eq_some h hid
    exact ⟨hid, blob, hbody⟩
  next => cases h

theorem delivery_eq_none (h : ¬ WrapsTo epoch peer x) :
    delivery c peer secret epoch rot x = none := by
  cases hk : delivery c peer secret epoch rot x with
  | none => rfl
  | some k => exact absurd (wrapsTo_of_delivery hk) h

theorem findSome?_eq_of_unique {f : α → Option β} {l : List α} (hx : x ∈ l) (hfx : f x = some b)
    (h : ∀ y ∈ l, ∀ b', f y = some b' → b' = b) : l.findSome? f = some b := by
  cases hfind : l.findSome? f with
  | none =>
    rw [List.findSome?_eq_none_iff.1 hfind x hx] at hfx
    cases hfx
  | some b' =>
    obtain ⟨y, hy, hfy⟩ := List.exists_of_findSome?_eq_some hfind
    rw [h y hy b' hfy]

theorem mem_wrappedTo (h : (epochNodes c epoch0Key peer secret entries)[epoch]? = some node)
    (p : UInt64) : node.wrappedTo.contains p = true ↔ ∃ x ∈ entries, WrapsTo epoch p x := by
  have hstep (node : EpochNode) (x : KeyLogEntry) : p ∈ (attachTo c peer secret node x).wrappedTo ↔
      p ∈ node.wrappedTo ∨ ∃ blob, x.body = .wrap (.device p) blob := by
    obtain ⟨seq, author, epochId, body⟩ := x
    cases body with
    | rotate parentEpochs nonce => simp [attachTo]
    | wrap recipient blob =>
      cases recipient with
      | paper => simp [attachTo, EpochNode.attachWrap]
      | device q =>
        have hto :
            (attachTo c peer secret node ⟨seq, author, epochId, .wrap (.device q) blob⟩).wrappedTo =
            node.wrappedTo.insert q := by
          simp only [attachTo, EpochNode.attachWrap]
          split
          · split
            · split <;> rfl
            · rfl
          · rfl
        rw [hto, Std.TreeSet.mem_insert, Std.LawfulEqOrd.compare_eq_iff_eq, or_comm]
        simp
  have hfold (es : List KeyLogEntry) (node : EpochNode) :
      p ∈ (es.foldl (attachTo c peer secret) node).wrappedTo ↔
        p ∈ node.wrappedTo ∨ ∃ x ∈ es, ∃ blob, x.body = .wrap (.device p) blob := by
    induction es generalizing node with
    | nil => simp
    | cons x es ih =>
      rw [List.foldl_cons, ih, hstep, or_assoc]
      simp only [List.mem_cons, exists_eq_or_imp]
  rw [epochNodes_getElem?, Option.map_eq_some_iff] at h
  obtain ⟨node₀, h₀, rfl⟩ := h
  have hempty : node₀.wrappedTo = ∅ := by
    rw [announcedNode] at h₀
    split at h₀
    · cases h₀
      rfl
    · obtain ⟨rot, _, rfl⟩ := Option.map_eq_some_iff.1 h₀
      rfl
  rw [Std.TreeSet.contains_iff_mem, hfold, hempty]
  simp only [Std.TreeSet.not_mem_emptyc, false_or, mem_wrapItems]
  constructor
  · rintro ⟨x, ⟨hx, hid, _⟩, hblob⟩
    exact ⟨x, hx, hid, hblob⟩
  · rintro ⟨x, hx, hid, blob, hbody⟩
    refine ⟨x, ⟨hx, hid, ?_⟩, blob, hbody⟩
    rw [KeyLogEntry.rotation?, hbody]

structure OnlyWraps (news : List KeyLogEntry) : Prop where
  rotation : ∀ x ∈ news, x.rotation? = none

section
variable (hnews : OnlyWraps news)
include hnews

theorem OnlyWraps.firstRotate :
    Roam.firstRotate (own ++ news ++ others) epoch = Roam.firstRotate (own ++ others) epoch := by
  have hnone : Roam.firstRotate news epoch = none := by
    rw [Roam.firstRotate, List.findSome?_eq_none_iff]
    intro x hx
    rw [hnews.rotation x hx, ite_self]
  rw [firstRotate_append, firstRotate_append, firstRotate_append, hnone, Option.or_none]

theorem OnlyWraps.epochKey_eq (he : epoch ≠ epoch0Id)
    (hothers : ∀ x ∈ news, ¬ WrapsTo epoch peer x) :
    (Keychain.build c idKey epoch0Key peer secret (own ++ news ++ others)).epochKey epoch =
      (Keychain.build c idKey epoch0Key peer secret (own ++ others)).epochKey epoch := by
  rw [Roam.epochKey_eq he, Roam.epochKey_eq he, hnews.firstRotate]
  congr 1
  funext rot
  have hnone : news.findSome? (delivery c peer secret epoch rot) = none := by
    rw [List.findSome?_eq_none_iff]
    exact fun x hx => delivery_eq_none (hothers x hx)
  rw [List.findSome?_append, List.findSome?_append, List.findSome?_append, hnone, Option.or_none]

theorem OnlyWraps.epochKey_new (he : epoch ≠ epoch0Id)
    (hrot : Roam.firstRotate (own ++ others) epoch = some rot)
    (hnone : ∀ x ∈ own ++ others, delivery c peer secret epoch rot x = none) (hx : x ∈ news)
    (hdelivery : delivery c peer secret epoch rot x = some k)
    (hunique : ∀ y ∈ news, ∀ k', delivery c peer secret epoch rot y = some k' → k' = k) :
    (Keychain.build c idKey epoch0Key peer secret (own ++ news ++ others)).epochKey epoch =
      some k := by
  have hold := List.findSome?_eq_none_iff.2 hnone
  rw [List.findSome?_append, Option.or_eq_none_iff] at hold
  rw [Roam.epochKey_eq he, hnews.firstRotate, hrot, Option.bind_some, List.findSome?_append,
    List.findSome?_append, hold.1, hold.2, findSome?_eq_of_unique hx hdelivery hunique]
  rfl

end

end Keys

namespace Store
variable {π : Platform} {s s' : Store π}

theorem onlyWraps_of_signed (h : List.Forall₂ (Signed device) items news)
    (hitems : ∀ item ∈ items, ∃ recipient blob, item.2 = .wrap recipient blob) :
    OnlyWraps news := by
  constructor
  intro x hx
  obtain ⟨item, hitem, hsigned⟩ := exists_right_of_forall₂ h.flip hx
  obtain ⟨recipient, blob, hbody⟩ := hitems item hitem
  rw [KeyLogEntry.rotation?, hsigned.body, hbody]

section Torn
variable (hπ : π.Lawful) (hjson : π.keyJson.Uncontinued)
  (hblank : isBlank s.unfinished = true → s.unfinished = [])
include hπ hjson hblank

theorem whole_of_appendAll (happend : exec (appendAll items) s = (.ok (), s')) (hne : items ≠ [])
    (hread : s'.ownKeylog = .ok own') : s.WholeKeylog := by
  by_contra htorn
  cases items with
  | nil => exact hne rfl
  | cons item items =>
    obtain ⟨s₁, hfirst, hrest⟩ := appendAll_cons_iff.1 happend
    obtain ⟨own, hown, rfl⟩ := appendKeylog_ok_iff.1 hfirst
    have hbroken := not_reads_of_line hπ hjson htorn hblank own item.1 item.2
    have hsame := appendAll_unreadable hbroken items
    rw [hrest] at hsame
    cases hsame
    exact hbroken own' hread

theorem merged_of_appendAll (happend : exec (appendAll items) s = (.ok (), s'))
    (hmerged : s.mergedKeylog = .ok entries) :
    (∃ entries', s'.mergedKeylog = .ok entries') ↔ s.WholeKeylog ∨ items = [] := by
  constructor
  · rintro ⟨entries', hmerged'⟩
    obtain ⟨own', hown'⟩ := readKeylog_of_merged hmerged' .own
    by_cases hne : items = []
    · exact .inr hne
    · exact .inl (whole_of_appendAll hπ hjson hblank happend hne hown')
  · rintro (hwhole | rfl)
    · obtain ⟨own, others, hown, rfl, hrest⟩ := (appendAll_samePeers happend).merged hmerged
      obtain ⟨t, news, hrun, _, hown', _⟩ := appendAll_whole hπ hwhole hown
      cases happend.symm.trans hrun
      exact ⟨_, hrest _ hown'⟩
    · cases happend
      exact ⟨entries, hmerged⟩

end Torn

theorem merged_appended (hπ : π.Lawful) (happend : exec (appendAll items) s = (.ok (), s'))
    (hmerged : s.mergedKeylog = .ok entries) (h : s.WholeKeylog ∨ items = []) :
    ∃ own news others, entries = own ++ others ∧ s'.mergedKeylog = .ok (own ++ news ++ others) ∧
      List.Forall₂ (Signed s.peerId) items news := by
  obtain ⟨own, others, hown, rfl, hrest⟩ := (appendAll_samePeers happend).merged hmerged
  rcases h with hwhole | rfl
  · obtain ⟨t, news, hrun, _, hown', hnews⟩ := appendAll_whole hπ hwhole hown
    cases happend.symm.trans hrun
    exact ⟨own, news, others, rfl, hrest _ hown', hnews⟩
  · cases happend
    exact ⟨own, [], others, rfl, by rw [hmerged, List.append_nil], .nil⟩

end Store

end Roam
