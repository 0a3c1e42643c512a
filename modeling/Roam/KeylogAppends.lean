import Roam.AdminStanding

namespace Roam
set_option autoImplicit true
open Library Library.Fallible

namespace Store
variable {π : Platform} {s s' : Store π}

def appendAll (items : List (Bytes32 × KeyBody)) : StoreM π Unit :=
  items.forM fun item => appendKeylog item.1 item.2

def ownKeylog (s : Store π) : Except StorageError (List KeyLogEntry) :=
  s.readKeylog s.peerId s.selfKey

structure SamePeers (s s' : Store π) : Prop where
  identity : s'.identity = s.identity
  peers : s'.peers = s.peers
  keylogs :
    ∀ author : UInt64, author ≠ s.peerId → s'.disk.keylogs[author]? = s.disk.keylogs[author]?

theorem SamePeers.peerId (h : SamePeers s s') : s'.peerId = s.peerId := by
  rw [Store.peerId, h.identity, Store.peerId]

instance : IsPreorder (Store π) SamePeers where
  refl _ := ⟨rfl, rfl, fun _ _ => rfl⟩
  trans a b c h h' := by
    refine ⟨h'.identity.trans h.identity, h'.peers.trans h.peers, fun author hne => ?_⟩
    rw [h'.keylogs author (h.peerId ▸ hne), h.keylogs author hne]

theorem withKeylog_samePeers (s : Store π) (bytes : Bytes) :
    SamePeers s (s.withKeylog s.peerId bytes) := by
  refine ⟨rfl, rfl, fun author hne => ?_⟩
  exact get_insert.trans (if_neg hne.symm)

theorem appendKeylog_samePeers (epoch : Bytes32) (body : KeyBody) :
    Leaves SamePeers (appendKeylog epoch body : StoreM π Unit) :=
  appendKeylogIo_leaves (fun s _ => withKeylog_samePeers s _) .done epoch body

theorem appendAll_leaves (items : List (Bytes32 × KeyBody)) :
    Leaves SamePeers (appendAll items : StoreM π Unit) :=
  Leaves.forM fun item => appendKeylog_samePeers item.1 item.2

theorem appendAll_samePeers (h : exec (appendAll items) s = (.ok (), s')) : SamePeers s s' := by
  exact (appendAll_leaves items).of_exec h

theorem appendAll_cons (item : Bytes32 × KeyBody) (items : List (Bytes32 × KeyBody)) :
    (appendAll (item :: items) : StoreM π Unit) = appendKeylog item.1 item.2 >>= fun _ =>
      appendAll items := rfl

theorem appendAll_cons_iff : exec (appendAll (item :: items)) s = (.ok (), s') ↔
      ∃ s₁, exec (appendKeylog item.1 item.2) s = (.ok (), s₁) ∧
        exec (appendAll items) s₁ = (.ok (), s') := by
  rw [appendAll_cons]
  constructor
  · intro h
    obtain ⟨_, s₁, hfirst, hrest⟩ := exec_bind_ok h
    exact ⟨s₁, hfirst, hrest⟩
  · rintro ⟨s₁, hfirst, hrest⟩
    rw [exec_bind, hfirst]
    exact hrest

theorem foldAppend_eq_ok_iff {f : α → Except ε (List β)} {acc out : List β} :
    foldAppend f l acc = .ok out ↔ ∃ rest, foldAppend f l [] = .ok rest ∧ out = acc ++ rest := by
  induction l generalizing acc out with
  | nil =>
    constructor
    · intro h
      cases h
      exact ⟨[], rfl, (List.append_nil _).symm⟩
    · rintro ⟨rest, hrest, rfl⟩
      cases hrest
      exact congrArg Except.ok (List.append_nil _).symm
  | cons a l ih =>
    rw [foldAppend_cons, foldAppend_cons]
    cases f a with
    | error err => exact iff_of_false (by rintro ⟨⟩) (by rintro ⟨_, ⟨⟩, _⟩)
    | ok bs =>
      change foldAppend f l (acc ++ bs) = .ok out ↔ ∃ rest, foldAppend f l ([] ++ bs) = .ok rest ∧ _
      rw [ih]
      constructor
      · rintro ⟨rest, hrest, rfl⟩
        exact ⟨bs ++ rest, ih.2 ⟨rest, hrest, rfl⟩, List.append_assoc acc bs rest⟩
      · rintro ⟨_, hfold, rfl⟩
        obtain ⟨rest, hrest, rfl⟩ := ih.1 hfold
        exact ⟨rest, hrest, (List.append_assoc acc bs rest).symm⟩

theorem foldAppend_reads {f : α → Except ε (List β)} {acc out : List β}
    (h : foldAppend f l acc = .ok out) (ha : a ∈ l) : ∃ bs, f a = .ok bs := by
  induction l generalizing acc with
  | nil => cases ha
  | cons first l ih =>
    rw [foldAppend_cons, except_bind_eq_ok] at h
    obtain ⟨bs, hfirst, hrest⟩ := h
    rcases List.mem_cons.1 ha with rfl | ha
    · exact ⟨bs, hfirst⟩
    · exact ih hrest ha

theorem readKeylog_of_merged (h : s.mergedKeylog = .ok entries) (hf : s.Folds author key) :
    ∃ es, s.readKeylog author key = .ok es := by
  rw [mergedKeylog_eq, except_bind_eq_ok] at h
  obtain ⟨own, hown, hfold⟩ := h
  cases hf with
  | own => exact ⟨own, hown⟩
  | admin p hp hs hr hne hv =>
    obtain ⟨es, hes⟩ := foldAppend_reads hfold hp
    have hskip : ¬ (p.status ≠ .active ∨ p.role ≠ .admin ∨ p.peerId = s.peerId) := by
      simp only [hs, hr, hne, ne_eq, not_true_eq_false, or_self, not_false_eq_true]
    rw [Store.peerKeylog, if_neg hskip, if_pos hv] at hes
    exact ⟨es, hes⟩

theorem SamePeers.peerKeylog (h : SamePeers s s') (p : PeerRecord) :
    s'.peerKeylog p = s.peerKeylog p := by
  rw [Store.peerKeylog, Store.peerKeylog, h.peerId]
  split
  next => rfl
  next hskip =>
    rw [not_or, not_or] at hskip
    rw [readKeylog, readKeylog, h.keylogs p.peerId hskip.2.2]

theorem SamePeers.merged (h : SamePeers s s') (hmerged : s.mergedKeylog = .ok entries) :
    ∃ own others, s.ownKeylog = .ok own ∧ entries = own ++ others ∧
      ∀ own', s'.ownKeylog = .ok own' → s'.mergedKeylog = .ok (own' ++ others) := by
  rw [mergedKeylog_eq, except_bind_eq_ok] at hmerged
  obtain ⟨own, hown, hfold⟩ := hmerged
  obtain ⟨others, hothers, rfl⟩ := foldAppend_eq_ok_iff.1 hfold
  refine ⟨own, others, hown, rfl, fun own' hown' => ?_⟩
  have hsame : s'.peerKeylog = s.peerKeylog := funext h.peerKeylog
  rw [mergedKeylog_eq, except_bind_eq_ok, hsame, h.peers]
  exact ⟨own', hown', foldAppend_eq_ok_iff.2 ⟨others, hothers, rfl⟩⟩

structure Signed (device : UInt64) (item : Bytes32 × KeyBody) (entry : KeyLogEntry) : Prop where
  author : entry.author = device
  epochId : entry.epochId = item.1
  body : entry.body = item.2

def WholeKeylog (s : Store π) : Prop := Terminated 10 s.exportOwnKeylog

theorem readVerified_getD {r : LineReader Line E StorageError} (file : Option Bytes) :
    readVerified π r file = readVerified π r (some (file.getD [])) := by
  cases file with
  | none => rfl
  | some bytes => rfl

theorem readVerified_some_iff {r : LineReader Line E StorageError} :
    readVerified π r (some bytes) = .ok entries ↔
      validUtf8 bytes = true ∧ r.readText bytes = .ok entries := by
  rw [readVerified]
  cases validUtf8 bytes with
  | true => exact (and_iff_right rfl).symm
  | false => exact iff_of_false (by rintro ⟨⟩) (by rintro ⟨⟨⟩, _⟩)

theorem ownKeylog_eq_ok_iff : s.ownKeylog = .ok own ↔ validUtf8 s.exportOwnKeylog = true ∧
      (keyReader π s.peerId s.selfKey).readText s.exportOwnKeylog = .ok own := by
  rw [ownKeylog, readKeylog, readVerified_getD, readVerified_some_iff]
  rfl

def nextEntry (s : Store π) (own : List KeyLogEntry) (epoch : Bytes32) (body : KeyBody) :
    KeyLogEntry where
  seq := (own.getLast?.map KeyLogEntry.seq).getD 0 + 1
  author := s.peerId
  epochId := epoch
  body := body

theorem appendKeylog_ok_iff : exec (appendKeylog epoch body) s = (.ok (), s') ↔
      ∃ own, s.ownKeylog = .ok own ∧ s' = s.withKeylog s.peerId
        (s.exportOwnKeylog ++ (s.keyLine own epoch body ++ [10])) := by
  rw [exec_appendKeylog, ownKeylog, readKeylog]
  cases readVerified π (keyReader π s.peerId s.selfKey) s.disk.keylogs[s.peerId]? with
  | error e => exact iff_of_false (by rintro ⟨⟩) (by rintro ⟨_, ⟨⟩, _⟩)
  | ok own =>
    constructor
    · intro h
      exact ⟨own, rfl, (Prod.mk.inj h).2.symm⟩
    · rintro ⟨own', hown, rfl⟩
      cases hown
      rfl

theorem appendKeylog_peerId (h : exec (appendKeylog epoch body) s = (.ok (), s')) :
    s'.peerId = s.peerId :=
  ((appendKeylog_samePeers epoch body).of_exec h).peerId

theorem wholeKeylog_of_append (h : exec (appendKeylog epoch body) s = (.ok (), s')) :
    s'.WholeKeylog := by
  obtain ⟨own, _, rfl⟩ := appendKeylog_ok_iff.1 h
  rw [WholeKeylog, exportOwnKeylog_withKeylog, ← List.append_assoc]
  exact .inr List.getLast?_concat

theorem wholeKeylog_of_appendAll (hne : items ≠ []) (h : exec (appendAll items) s = (.ok (), s')) :
    s'.WholeKeylog := by
  induction items generalizing s with
  | nil => exact absurd rfl hne
  | cons item items ih =>
    obtain ⟨s₁, happend, hrest⟩ := appendAll_cons_iff.1 h
    cases items with
    | nil =>
      cases hrest
      exact wholeKeylog_of_append happend
    | cons next items => exact ih (List.cons_ne_nil next items) hrest

theorem ownKeylog_of_appendAll (h : exec (appendAll items) s = (.ok (), s'))
    (hown' : s'.ownKeylog = .ok own') : ∃ own, s.ownKeylog = .ok own := by
  cases items with
  | nil =>
    cases h
    exact ⟨own', hown'⟩
  | cons item items =>
    obtain ⟨s₁, happend, _⟩ := appendAll_cons_iff.1 h
    obtain ⟨own, hown, _⟩ := appendKeylog_ok_iff.1 happend
    exact ⟨own, hown⟩

section Append
variable (hπ : π.Lawful)
include hπ

theorem keyLine_object (s : Store π) (own : List KeyLogEntry) (epoch : Bytes32) (body : KeyBody) :
    ObjectLine (s.keyLine own epoch body) := hπ.key.object _

theorem keyLine_reads (s : Store π) (own : List KeyLogEntry) (epoch : Bytes32) (body : KeyBody) :
    (keyReader π s.peerId s.selfKey).Reads (s.keyLine own epoch body) (s.nextEntry own epoch
      body) :=
  ⟨_, malformed_eq_ok.2 (hπ.key.parse_render _), KeyLine.check_ofEntry hπ s.identity rfl⟩

theorem appendKeylog_whole (epoch : Bytes32) (body : KeyBody) (hwhole : s.WholeKeylog)
    (hown : s.ownKeylog = .ok own) :
    ∃ s', exec (appendKeylog epoch body) s = (.ok (), s') ∧ s'.WholeKeylog ∧
      s'.ownKeylog = .ok (own ++ [s.nextEntry own epoch body]) := by
  obtain ⟨hvalid, hread⟩ := ownKeylog_eq_ok_iff.1 hown
  have hline := keyLine_object hπ s own epoch body
  have hexport :=
    exportOwnKeylog_withKeylog s (s.exportOwnKeylog ++ (s.keyLine own epoch body ++ [10]))
  refine ⟨_, appendKeylog_ok_iff.2 ⟨own, hown, rfl⟩, ?_, ownKeylog_eq_ok_iff.2 ?_⟩
  · rw [WholeKeylog, hexport, ← List.append_assoc]
    exact .inr List.getLast?_concat
  · rw [hexport]
    refine ⟨?_,
      LineReader.readText_append_ok hline (keyLine_reads hπ s own epoch body) hwhole hread⟩
    rw [validUtf8_append hvalid, validUtf8_append hline.utf8]
    rfl

theorem appendAll_whole {items : List (Bytes32 × KeyBody)} (hwhole : s.WholeKeylog)
    (hown : s.ownKeylog = .ok own) :
    ∃ s' news, exec (appendAll items) s = (.ok (), s') ∧ s'.WholeKeylog ∧
      s'.ownKeylog = .ok (own ++ news) ∧ List.Forall₂ (Signed s.peerId) items news := by
  induction items generalizing s own with
  | nil => exact ⟨s, [], rfl, hwhole, by rw [hown, List.append_nil], .nil⟩
  | cons item items ih =>
    obtain ⟨s₁, happend, hwhole₁, hown₁⟩ := appendKeylog_whole hπ item.1 item.2 hwhole hown
    obtain ⟨s₂, news, hrest, hwhole₂, hown₂, hnews⟩ := ih hwhole₁ hown₁
    rw [appendKeylog_peerId happend] at hnews
    rw [List.append_assoc] at hown₂
    exact ⟨s₂, _, appendAll_cons_iff.2 ⟨s₁, happend, hrest⟩, hwhole₂, hown₂,
      .cons ⟨rfl, rfl, rfl⟩ hnews⟩

theorem ownKeylog_of_two_appends
    (h : exec (appendAll (first :: second :: items)) s = (.ok (), s')) :
    ∃ own', s'.ownKeylog = .ok own' := by
  obtain ⟨s₁, hfirst, hrest⟩ := appendAll_cons_iff.1 h
  obtain ⟨s₂, hsecond, _⟩ := appendAll_cons_iff.1 hrest
  obtain ⟨own₁, hown₁, _⟩ := appendKeylog_ok_iff.1 hsecond
  have hwhole := wholeKeylog_of_append hfirst
  obtain ⟨s'', news, hrun, _, hown', _⟩ := appendAll_whole hπ hwhole hown₁
  rw [hrest] at hrun
  cases hrun
  exact ⟨_, hown'⟩

variable (hjson : π.keyJson.StandsAlone)
include hjson

theorem keyLine_standsAlone (s : Store π) (own : List KeyLogEntry) (epoch : Bytes32)
    (body : KeyBody) :
    (keyReader π s.peerId s.selfKey).StandsAlone (s.keyLine own epoch body) (s.nextEntry own epoch
      body) := by
  intro text
  rcases hjson (KeyLine.ofEntry π s.identity (s.nextEntry own epoch body)) text with ⟨msg,
    herr⟩ | ⟨hblank, hok⟩
  · left
    exact ⟨_, congrArg malformed herr⟩
  · right
    exact ⟨hblank, _, malformed_eq_ok.2 hok, KeyLine.check_ofEntry hπ s.identity rfl⟩

theorem appendKeylog_reads (h : exec (appendKeylog epoch body) s = (.ok (), s'))
    (hown : s.ownKeylog = .ok own) (hown' : s'.ownKeylog = .ok own') :
    own' = own ++ [s.nextEntry own epoch body] := by
  obtain ⟨_, hown₁, rfl⟩ := appendKeylog_ok_iff.1 h
  cases hown.symm.trans hown₁
  obtain ⟨_, hread⟩ := ownKeylog_eq_ok_iff.1 hown
  obtain ⟨_, hread'⟩ := ownKeylog_eq_ok_iff.1 hown'
  have hexport :=
    exportOwnKeylog_withKeylog s (s.exportOwnKeylog ++ (s.keyLine own epoch body ++ [10]))
  change (keyReader π s.peerId s.selfKey).readText (s.withKeylog s.peerId _).exportOwnKeylog =
    _ at hread'
  rw [hexport] at hread'
  exact LineReader.readText_appended (keyLine_object hπ s own epoch body)
    (keyLine_standsAlone hπ hjson s own epoch body) hread hread'

theorem appendAll_reads {items : List (Bytes32 × KeyBody)}
    (h : exec (appendAll items) s = (.ok (), s'))
    (hown : s.ownKeylog = .ok own) (hown' : s'.ownKeylog = .ok own') :
    ∃ news, own' = own ++ news ∧ List.Forall₂ (Signed s.peerId) items news := by
  induction items generalizing s own with
  | nil =>
    cases h
    cases hown.symm.trans hown'
    exact ⟨[], (List.append_nil _).symm, .nil⟩
  | cons item items ih =>
    obtain ⟨s₁, happend, hrest⟩ := appendAll_cons_iff.1 h
    obtain ⟨own₁, hown₁⟩ := ownKeylog_of_appendAll hrest hown'
    obtain ⟨news, rfl, hnews⟩ := ih hrest hown₁
    rw [appendKeylog_peerId happend] at hnews
    rw [appendKeylog_reads hπ hjson happend hown hown₁, List.append_assoc]
    exact ⟨_, rfl, .cons ⟨rfl, rfl, rfl⟩ hnews⟩

end Append

end Store

end Roam
