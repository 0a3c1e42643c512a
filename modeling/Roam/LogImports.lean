import Roam.RoleDecision
import Roam.PlainPlatform
import Roam.SignedBytes
import Roam.StoreDocSpec

namespace Roam
set_option autoImplicit true
open Library Library.Fallible

/-- The log that an author has really written: whole lines, and no other entry verifies, however a
line spells it. -/
structure GenuineLog (r : LineReader Line E StorageError) where
  lines : List Bytes
  entries : List E
  whole : WholeLog r lines entries
  complete : ∀ line e, r.Reads line e → e ∈ entries

def GenuineLog.bytes {r : LineReader Line E StorageError} (g : GenuineLog r) : Bytes :=
  joinLines 10 g.lines

/-- The logs of the three kinds that an author has really written. What stands before an op line
makes it unreadable or changes nothing. -/
structure Genuine (π : Platform) (author : UInt64) (key : Bytes32) where
  roster : GenuineLog (rosterReader π author key)
  keylog : GenuineLog (keyReader π author key)
  ops : GenuineLog (opReader π author key)
  alone : ∀ line ∈ ops.lines, ∀ t e e', (opReader π author key).Reads line e →
    (opReader π author key).Reads (t ++ line) e' → e' = e

inductive LogCall
  | roster (order : RosterOrder) (bytes : Bytes)
  | keylog (bytes : Bytes)
  | ops (bytes : Bytes)
  | bundle (order : RosterOrder) (logs : List (UInt64 × Bytes))

def LogCall.run {π : Platform} (author : UInt64) (key : Bytes32) : LogCall → StoreM π Unit
  | .roster order bytes => Store.importRoster order author key bytes
  | .keylog bytes => Store.importKeylog author key bytes
  | .ops bytes => Store.applyPeerOps author key bytes
  | .bundle order logs => Store.importRosterBundle order logs

def afterCalls {π : Platform} (author : UInt64) (key : Bytes32) (calls : List LogCall)
    (s : Store π) : Store π :=
  calls.foldl (fun s c => (exec (c.run author key) s).2) s

section
variable {π : Platform} {author : UInt64} {key : Bytes32}

/-- A call that cannot freeze a log of the author. A roster or key log that verifies is a byte
prefix of the genuine one, and so is every roster log of the author in a bundle; a chunk of ops
ends where a line ends. A bundle leaves the log of the founder valid UTF-8. -/
def LogCall.Harmless (g : Genuine π author key) (founder : Option UInt64) : LogCall → Prop
  | .roster _ bytes => ∀ es, verifyBytes π (rosterReader π author key) bytes = .ok es →
      bytes <+: g.roster.bytes
  | .keylog bytes => ∀ es, verifyBytes π (keyReader π author key) bytes = .ok es →
      bytes <+: g.keylog.bytes
  | .ops bytes => Terminated 10 bytes
  | .bundle _ logs => ∀ log ∈ logs, (log.1 = author → log.2 <+: g.roster.bytes) ∧
      (founder = some log.1 → log.1 ≠ author → validUtf8 log.2 = true)

structure Behind (g : Genuine π author key) (s : Store π) : Prop where
  roster : ∀ bytes, s.disk.rosters[author]? = some bytes → bytes <+: g.roster.bytes
  keylog : ∀ bytes, s.disk.keylogs[author]? = some bytes → bytes <+: g.keylog.bytes
  opsEnd : Terminated 10 (s.exportPeerLog author)
  opsRead : ∃ es, verifyBytes π (opReader π author key) (s.exportPeerLog author) = .ok es
  founder : ∀ fid bytes, s.founder = some fid → fid ≠ author → fid ≠ s.peerId →
    s.disk.rosters[fid]? = some bytes → validUtf8 bytes = true

end

namespace Store
variable {π : Platform} {s s' : Store π}

section Frame

theorem importEntries_sameFiles (entries : List Entry) (s : Store π) :
    SameFiles s (exec (importEntries entries) s).2 := by
  induction entries generalizing s with
  | nil => exact ⟨rfl, rfl, rfl⟩
  | cons e entries ih =>
    rw [importEntries_cons]
    cases π.importUpdate s.doc e.update with
    | error msg => exact ⟨rfl, rfl, rfl⟩
    | ok doc =>
      have h := ih { s with doc }
      exact ⟨h.identity, h.founder, h.disk⟩

theorem mergeEntries_sameFiles (entries : List Entry) (s : Store π) :
    SameFiles s (exec (mergeEntries entries) s).2 := by
  have h := importEntries_sameFiles entries s
  simp only [mergeEntries, exec_bind]
  cases hres : exec (importEntries entries) s with
  | mk r s' =>
    rw [hres] at h
    cases r with
    | error e => exact h
    | ok u => exact ⟨h.identity, h.founder, h.disk⟩

end Frame

theorem peekSelfKey_ok (h : ∀ bytes, file = some bytes → validUtf8 bytes = true) :
    ∃ key?, RosterLog.peekSelfKey π author file = .ok key? := by
  cases file with
  | none => exact ⟨_, rfl⟩
  | some bytes =>
    rw [RosterLog.peekSelfKey]
    simp only [h bytes rfl, ↓reduceIte]
    exact ⟨_, rfl⟩

section Merge
variable {stored appended : Bytes}

theorem overlap_suffix (stored appended : Bytes) :
    appended.take (overlap stored appended) <:+ stored := by
  simp only [overlap]
  cases hfind : (((List.range (min stored.length appended.length)).map (· + 1)).reverse.find?
      fun k => (appended.take k).isSuffixOf stored) with
  | none => exact List.nil_suffix
  | some k =>
    have hk := List.find?_some hfind
    exact List.isSuffixOf_iff_suffix.1 hk

theorem mergeLog_terminated (hs : Terminated 10 stored) (ha : Terminated 10 appended) :
    Terminated 10 (mergeLog stored appended) := by
  rw [mergeLog]
  split
  next => exact ha
  next =>
    split
    next => exact hs
    next => exact hs.append_suffix ha (List.drop_suffix _ _)

theorem length_le_mergeLog : stored.length ≤ (mergeLog stored appended).length := by
  rw [mergeLog]
  split
  next h => exact (List.isPrefixOf_iff_prefix.1 h).length_le
  next =>
    split
    next => exact Nat.le_refl _
    next =>
      rw [List.length_append]
      exact Nat.le_add_right _ _

end Merge

end Store

section Steps
variable {π : Platform} {author : UInt64} {key : Bytes32} {g : Genuine π author key}
variable {s s' : Store π}

theorem Behind.of_sameFiles (h : Behind g s) (hs : Store.SameFiles s s') : Behind g s' where
  roster := hs.disk ▸ h.roster
  keylog := hs.disk ▸ h.keylog
  opsEnd := by
    rw [Store.exportPeerLog, hs.disk]
    exact h.opsEnd
  opsRead := by
    rw [Store.exportPeerLog, hs.disk]
    exact h.opsRead
  founder := by
    rw [hs.founder, hs.disk, Store.peerId, hs.identity]
    exact h.founder

theorem Behind.withRoster (h : Behind g s) (hb : bytes <+: g.roster.bytes) :
    Behind g (s.withRoster author bytes) where
  roster := by
    intro b hget
    simp only [Store.withRoster, Std.TreeMap.getElem?_insert_self, Option.some.injEq] at hget
    exact hget ▸ hb
  keylog := h.keylog
  opsEnd := h.opsEnd
  opsRead := h.opsRead
  founder := by
    intro fid b hf hne hself hget
    rw [Store.rosters_withRoster_ne hne] at hget
    exact h.founder fid b hf hne hself hget

theorem Behind.withKeylog (h : Behind g s) (hb : bytes <+: g.keylog.bytes) :
    Behind g (s.withKeylog author bytes) where
  roster := h.roster
  keylog := by
    intro b hget
    simp only [Store.withKeylog, Std.TreeMap.getElem?_insert_self, Option.some.injEq] at hget
    exact hget ▸ hb
  opsEnd := h.opsEnd
  opsRead := h.opsRead
  founder := h.founder

theorem Behind.withOps (h : Behind g s) (ht : Terminated 10 bytes)
    (hv : verifyBytes π (opReader π author key) bytes = .ok es) :
    Behind g (s.withOps author bytes) := by
  have hexport : (s.withOps author bytes).exportPeerLog author = bytes := by
    simp only [Store.exportPeerLog, Store.withOps, Std.TreeMap.getElem?_insert_self,
      Option.getD_some]
  exact {
    roster := h.roster
    keylog := h.keylog
    opsEnd := hexport.symm ▸ ht
    opsRead := ⟨es, hexport.symm ▸ hv⟩
    founder := h.founder }

theorem Behind.withBundle (h : Behind g s) (hc : (LogCall.bundle order logs).Harmless g s.founder) :
    Behind g (s.withBundle logs) where
  roster := by
    intro b hget
    cases Store.bundleLog_getElem? hget with
    | inl hget => exact h.roster b hget
    | inr hlog => exact (hc _ hlog.2).1 rfl
  keylog := h.keylog
  opsEnd := h.opsEnd
  opsRead := h.opsRead
  founder := by
    intro fid b hf hne hself hget
    cases Store.bundleLog_getElem? hget with
    | inl hget => exact h.founder fid b hf hne hself hget
    | inr hlog => exact (hc _ hlog.2).2 hf hne

inductive LogCall.Outcome (author : UInt64) (key : Bytes32) (s s' : Store π) : LogCall → Prop
  | refused (c : LogCall) (h : Store.SameFiles s s') : Outcome author key s s' c
  | roster (order : RosterOrder) (bytes : Bytes) (es : List RosterEntry)
      (hv : verifyBytes π (rosterReader π author key) bytes = .ok es)
      (h : Store.SameFiles (s.withRoster author bytes) s') :
      Outcome author key s s' (.roster order bytes)
  | keylog (bytes : Bytes) (es : List KeyLogEntry)
      (hv : verifyBytes π (keyReader π author key) bytes = .ok es)
      (h : Store.SameFiles (s.withKeylog author bytes) s') :
      Outcome author key s s' (.keylog bytes)
  | ops (bytes : Bytes) (es : List Entry)
      (hv : verifyBytes π (opReader π author key)
        (Store.mergeLog (s.exportPeerLog author) bytes) = .ok es)
      (h : Store.SameFiles
        (s.withOps author (Store.mergeLog (s.exportPeerLog author) bytes)) s') :
      Outcome author key s s' (.ops bytes)
  | bundle (order : RosterOrder) (logs : List (UInt64 × Bytes))
      (h : Store.SameFiles (s.withBundle logs) s') : Outcome author key s s' (.bundle order logs)

theorem LogCall.outcome (author : UInt64) (key : Bytes32) (c : LogCall) (s : Store π) :
    c.Outcome author key s (exec (c.run author key) s).2 := by
  have hsame : Store.SameFiles s s := ⟨rfl, rfl, rfl⟩
  cases c with
  | roster order bytes =>
    rw [run, Store.exec_importRoster]
    split
    next => exact .refused _ hsame
    next =>
      split
      next => exact .refused _ hsame
      next =>
        split
        next => exact .refused _ hsame
        next es hv => exact .roster order bytes es hv (Store.refreshPeers_sameFiles _ _)
  | keylog bytes =>
    rw [run, Store.exec_importKeylog]
    split
    next => exact .refused _ hsame
    next =>
      split
      next => exact .refused _ hsame
      next =>
        split
        next => exact .refused _ hsame
        next es hv => exact .keylog bytes es hv ⟨rfl, rfl, rfl⟩
  | bundle order logs =>
    rw [run, Store.exec_importRosterBundle]
    exact .bundle order logs (Store.refreshPeers_sameFiles _ _)
  | ops bytes =>
    obtain ⟨r, ho⟩ := Store.applyPeerOpsIo_outcome .done author key bytes s
    rw [run, Store.applyPeerOps]
    generalize (exec (Store.applyPeerOpsIo .done author key bytes) s).2 = s' at ho ⊢
    cases ho with
    | refused err => exact .refused _ hsame
    | unwritten es err ha hio => exact absurd rfl hio
    | stopped es merged doc err ha hio hs => exact .ops bytes es ha.verified ⟨rfl, rfl, rfl⟩
    | merged es doc ha hio hr => exact .ops bytes es ha.verified ⟨rfl, rfl, rfl⟩

theorem LogCall.Outcome.device {c : LogCall} (h : c.Outcome author key s s') :
    s'.founder = s.founder ∧ s'.identity = s.identity := by
  cases h with
  | refused c h => exact ⟨h.founder, h.identity⟩
  | roster order bytes es hv h => exact ⟨h.founder, h.identity⟩
  | keylog bytes es hv h => exact ⟨h.founder, h.identity⟩
  | ops bytes es hv h => exact ⟨h.founder, h.identity⟩
  | bundle order logs h => exact ⟨h.founder, h.identity⟩

theorem Behind.step {c : LogCall} (h : Behind g s) (hc : c.Harmless g s.founder)
    (ho : c.Outcome author key s s') : Behind g s' := by
  cases ho with
  | refused c hs => exact h.of_sameFiles hs
  | roster order bytes es hv hs => exact (h.withRoster (hc es hv)).of_sameFiles hs
  | keylog bytes es hv hs => exact (h.withKeylog (hc es hv)).of_sameFiles hs
  | ops bytes es hv hs =>
    exact (h.withOps (Store.mergeLog_terminated h.opsEnd hc) hv).of_sameFiles hs
  | bundle order logs hs => exact (h.withBundle hc).of_sameFiles hs

theorem Behind.afterCalls (h : Behind g s) (hc : ∀ c ∈ calls, c.Harmless g s.founder) :
    Behind g (afterCalls author key calls s) ∧
      (Roam.afterCalls author key calls s).identity = s.identity := by
  induction calls generalizing s with
  | nil => exact ⟨h, rfl⟩
  | cons c calls ih =>
    have ho := LogCall.outcome author key c s
    have hstep := h.step (hc c List.mem_cons_self) ho
    obtain ⟨hb, hid⟩ := ih hstep (by
      intro c' hc'
      rw [ho.device.1]
      exact hc c' (List.mem_cons_of_mem c hc'))
    exact ⟨hb, hid.trans ho.device.2⟩

end Steps

section Merged
variable {r : LineReader Line E StorageError} {g : GenuineLog r} {stored : Bytes}
variable {lines : List Bytes}

theorem GenuineLog.single (hl : line ∈ g.lines) : 10 ∉ line := (g.whole.object line hl).single

theorem verifyBytes_joinLines (hl : ∀ line ∈ lines, 10 ∉ line) :
    verifyBytes π r (joinLines 10 lines) = .ok es ↔
      validUtf8 (joinLines 10 lines) = true ∧ List.Forall₂ r.Reads (keptLines lines) es := by
  rw [verifyBytes]
  split
  next h => rw [LineReader.readText_eq_ok_iff hl, and_iff_right h]
  next h => simp only [reduceCtorEq, h, Bool.false_eq_true, false_and]

theorem GenuineLog.mem_iff (hr : List.Forall₂ r.Reads lines es)
    (hall : ∀ line ∈ g.lines, ∀ e, r.Reads line e → e ∈ es) : e ∈ es ↔ e ∈ g.entries := by
  constructor
  · intro he
    obtain ⟨line, _, hline⟩ := LineReader.exists_line hr he
    exact g.complete line e hline
  · intro he
    obtain ⟨line, hl, hline⟩ := LineReader.exists_line g.whole.reads he
    exact hall line hl e hline

theorem mem_of_mem_kept (hr : List.Forall₂ r.Reads lines es) (hl : line ∈ lines)
    (h : r.Reads line e) : e ∈ es := by
  obtain ⟨e', he', hline⟩ := LineReader.exists_entry hr hl
  exact h.unique hline ▸ he'

theorem GenuineLog.mem_of_suffix
    (halone : ∀ line ∈ g.lines, ∀ t e e', r.Reads line e → r.Reads (t ++ line) e' → e' = e)
    (hl : ∀ line ∈ lines, 10 ∉ line) (hr : List.Forall₂ r.Reads (keptLines lines) es)
    (hls : ls ⊆ g.lines) (h : joinLines 10 ls <:+ joinLines 10 lines) (hm : line ∈ ls)
    (he : r.Reads line e) : e ∈ es := by
  cases ls with
  | nil => cases hm
  | cons m ms =>
    obtain ⟨front, h⟩ := h
    obtain ⟨init, t, hlines⟩ := joinLines_suffix hl (fun l h => g.single (hls h)) h.symm
    have hobj (l : Bytes) (hl : l ∈ m :: ms) : ObjectLine l := g.whole.object l (hls hl)
    cases hm with
    | head =>
      -- the stored log may have something before the first line of the overlap
      have hkept : t ++ line ∈ keptLines lines := by
        apply (hobj line List.mem_cons_self).mem_kept
        rw [hlines]
        exact List.mem_append_right init List.mem_cons_self
      obtain ⟨e', he', hread⟩ := LineReader.exists_entry hr hkept
      exact halone line (hls List.mem_cons_self) t e e' he hread ▸ he'
    | tail _ hm =>
      refine mem_of_mem_kept hr ((hobj line (List.mem_cons_of_mem m hm)).mem_kept (t := []) ?_) he
      rw [hlines]
      exact List.mem_append_right init (List.mem_cons_of_mem _ hm)

theorem GenuineLog.mergeLog
    (halone : ∀ line ∈ g.lines, ∀ t e e', r.Reads line e → r.Reads (t ++ line) e' → e' = e)
    (ht : Terminated 10 stored) (hv : verifyBytes π r stored = .ok es) :
    ∃ es', verifyBytes π r (Store.mergeLog stored g.bytes) = .ok es' ∧
      ∀ e, e ∈ es' ↔ e ∈ g.entries := by
  obtain ⟨lines, hl, rfl⟩ := ht.exists_lines
  obtain ⟨hutf, hr⟩ := (verifyBytes_joinLines hl).1 hv
  rw [Store.mergeLog]
  split
  next => exact ⟨g.entries, g.whole.verifyBytes, fun _ => Iff.rfl⟩
  next =>
    split
    next h =>
      have hp := prefix_of_joinLines_prefix (fun l h => g.single h) hl
        (List.isPrefixOf_iff_prefix.1 h)
      refine ⟨es, hv, fun e => g.mem_iff hr ?_⟩
      intro line hm e he
      exact mem_of_mem_kept hr
        ((g.whole.object line hm).mem_kept (t := []) (hp.subset hm)) he
    next =>
      have hsuf := Store.overlap_suffix (joinLines 10 lines) g.bytes
      have hend := Terminated.append_suffix (.inl rfl) ht hsuf
      obtain ⟨ls, ls', hg, htake, hdrop⟩ := joinLines_split (fun l h => g.single h) hend
        (List.take_append_drop _ g.bytes).symm
      rw [List.nil_append] at htake
      rw [htake] at hsuf
      have hobj : ∀ line ∈ ls', ObjectLine line := fun l h =>
        g.whole.object l (hg ▸ List.mem_append_right ls h)
      have hread := g.whole.reads
      rw [hg] at hread
      have hread' := List.forall₂_drop_append _ _ _ (List.Forall₂.flip hread)
      have hall : List.Forall₂ r.Reads (keptLines (lines ++ ls'))
          (es ++ g.entries.drop ls.length) := by
        rw [keptLines_append, ObjectLine.keptLines hobj]
        exact List.rel_append hr (List.Forall₂.flip hread')
      have hsingle : ∀ line ∈ lines ++ ls', 10 ∉ line := by
        intro line hm
        exact (List.mem_append.1 hm).elim (hl line) fun h => (hobj line h).single
      rw [hdrop, ← joinLines_append]
      refine ⟨_, (verifyBytes_joinLines hsingle).2 ⟨?_, hall⟩, fun e => g.mem_iff hall ?_⟩
      · have hutf' := @validUtf8_joinLines ls' [] fun line h => (hobj line h).utf8
        rw [List.append_nil] at hutf'
        rw [joinLines_append, validUtf8_append hutf, hutf']
        rfl
      · intro line hm e he
        rw [hg, List.mem_append] at hm
        cases hm with
        | inl hm =>
          exact List.mem_append_left _ (g.mem_of_suffix halone hl hr
            (fun l h => hg ▸ List.mem_append_left ls' h) hsuf hm he)
        | inr hm =>
          exact List.mem_append_right _ (mem_of_mem_kept (List.Forall₂.flip hread') hm he)

end Merged

structure Importable (π : Platform) (device author : UInt64) (entries : List Entry) : Prop where
  probe : ∀ e ∈ entries, ∃ doc doc', π.newDoc device = .ok doc ∧
    π.importAuthoredBy doc author e.update = .ok doc'
  merge : ∀ e ∈ entries, ∀ doc, ∃ doc', π.importUpdate doc e.update = .ok doc'

section Import
variable {π : Platform} {author : UInt64} {key : Bytes32} {g : Genuine π author key}
variable {s s' : Store π}

theorem Importable.probeAuthored (h : Importable π device author entries) :
    Store.probeAuthored π device author entries = .ok () := by
  induction entries with
  | nil => rfl
  | cons e entries ih =>
    obtain ⟨doc, doc', hnew, himp⟩ := h.probe e List.mem_cons_self
    have hprobe : Store.probeEntry π device author e = .ok () := by
      simp only [Store.probeEntry, hnew, Except.mapError, bind, Except.bind, himp]
      rfl
    have hcons : Store.probeAuthored π device author (e :: entries) =
        (Store.probeEntry π device author e >>= fun _ =>
          Store.probeAuthored π device author entries) := rfl
    rw [hcons, hprobe]
    exact ih ⟨fun e he => h.probe e (List.mem_cons_of_mem _ he),
      fun e he => h.merge e (List.mem_cons_of_mem _ he)⟩

theorem importEntries_fst
    (h : ∀ e ∈ entries, ∀ doc, ∃ doc', π.importUpdate doc (Entry.update e) = .ok doc') :
    (exec (Store.importEntries entries) s).1 = .ok () := by
  induction entries generalizing s with
  | nil => rfl
  | cons e entries ih =>
    obtain ⟨doc', hdoc⟩ := h e List.mem_cons_self s.doc
    rw [Store.importEntries_cons, hdoc]
    exact ih fun e he => h e (List.mem_cons_of_mem _ he)

theorem Importable.mergeEntries (h : Importable π device author entries) :
    (exec (Store.mergeEntries entries) s).1 = .ok () := by
  rw [Store.mergeEntries, exec_bind, exec_of_fst (importEntries_fst h.merge)]
  rfl

theorem Behind.importRoster (h : Behind g s) (ha : author ≠ s.peerId) (order : RosterOrder) :
    (exec (Store.importRoster order author key g.roster.bytes) s).1 = .ok () ∧
      readVerified π (rosterReader π author key)
        (exec (Store.importRoster order author key g.roster.bytes) s).2.disk.rosters[author]? =
          .ok g.roster.entries := by
  have hfile :
      (s.withRoster author g.roster.bytes).disk.rosters[author]? = some g.roster.bytes := by
    simp only [Store.withRoster, Std.TreeMap.getElem?_insert_self]
  have hpeek (fid : UInt64) (hf : s.founder = some fid) (hself : fid ≠ s.peerId) :
      ∃ key?, RosterLog.peekSelfKey π fid
        (s.withRoster author g.roster.bytes).disk.rosters[fid]? = .ok key? := by
    apply Store.peekSelfKey_ok
    intro bytes hget
    by_cases hfid : fid = author
    · rw [hfid, hfile, Option.some.injEq] at hget
      exact hget ▸ g.roster.whole.utf8
    · rw [Store.rosters_withRoster_ne hfid] at hget
      exact h.founder fid bytes hf hfid hself hget
  obtain ⟨t, ht⟩ := @Store.seeds_ok _ (s.withRoster author g.roster.bytes) hpeek
  obtain ⟨entries, hc⟩ := Store.collect_of_seeds ht order
  have hv : verifyBytes π (rosterReader π author key) g.roster.bytes = .ok g.roster.entries :=
    g.roster.whole.verifyBytes
  rw [Store.exec_importRoster, if_neg ha, Store.checkExtends_ok_iff.2 h.roster]
  simp only [hv, Store.exec_refreshPeers, hc, true_and]
  exact g.roster.whole.readVerified (congrArg (Option.getD · []) hfile)

theorem Behind.importKeylog (h : Behind g s) (ha : author ≠ s.peerId) :
    (exec (Store.importKeylog author key g.keylog.bytes) s).1 = .ok () ∧
      readVerified π (keyReader π author key)
        (exec (Store.importKeylog author key g.keylog.bytes) s).2.disk.keylogs[author]? =
          .ok g.keylog.entries := by
  have hfile :
      (s.withKeylog author g.keylog.bytes).disk.keylogs[author]? = some g.keylog.bytes := by
    simp only [Store.withKeylog, Std.TreeMap.getElem?_insert_self]
  have hv : verifyBytes π (keyReader π author key) g.keylog.bytes = .ok g.keylog.entries :=
    g.keylog.whole.verifyBytes
  rw [Store.exec_importKeylog, if_neg ha, Store.checkExtends_ok_iff.2 h.keylog]
  simp only [hv, true_and]
  exact g.keylog.whole.readVerified (congrArg (Option.getD · []) hfile)

theorem Behind.applyPeerOps (h : Behind g s) (ha : author ≠ s.peerId)
    (hw : s.checkWriter author = .ok ()) (hi : Importable π s.peerId author g.ops.entries) :
    (exec (Store.applyPeerOps author key g.ops.bytes) s).1 = .ok () ∧
      ∃ es, readVerified π (opReader π author key)
          (exec (Store.applyPeerOps author key g.ops.bytes) s).2.disk.ops[author]? = .ok es ∧
        ∀ e, e ∈ es ↔ e ∈ g.ops.entries := by
  obtain ⟨es, hv⟩ := h.opsRead
  obtain ⟨es', hv', hmem⟩ := g.ops.mergeLog g.alone h.opsEnd hv
  have hi' : Importable π s.peerId author es' :=
    ⟨fun e he => hi.probe e ((hmem e).1 he), fun e he => hi.merge e ((hmem e).1 he)⟩
  have hgrow : Store.checkShrinks author s.disk.ops[author]?
      (Store.mergeLog (s.exportPeerLog author) g.ops.bytes) = .ok () := by
    have hlen : (s.exportPeerLog author).length ≤ _ := @Store.length_le_mergeLog _ g.ops.bytes
    rw [Store.exportPeerLog] at hlen ⊢
    cases hfile : s.disk.ops[author]? with
    | none => rfl
    | some existing =>
      rw [hfile] at hlen
      exact if_neg (not_lt.2 hlen)
  have hexec : exec (Store.applyPeerOps author key g.ops.bytes) s =
      exec (Store.mergeEntries es')
        (s.withOps author (Store.mergeLog (s.exportPeerLog author) g.ops.bytes)) := by
    have hadmitted : s.Admitted author key (Store.mergeLog (s.exportPeerLog author) g.ops.bytes)
        es' := ⟨hw, ha, hgrow, hv', hi'.probeAuthored⟩
    simp only [Store.applyPeerOps, Store.applyPeerOpsIo, exec_bind, exec_get, if_neg ha]
    exact hadmitted.exec_importPeer
  have hfile := (Store.mergeEntries_sameFiles es'
    (s.withOps author (Store.mergeLog (s.exportPeerLog author) g.ops.bytes))).disk
  rw [hexec, hfile]
  refine ⟨hi'.mergeEntries, es', ?_, hmem⟩
  simp only [Store.withOps, Std.TreeMap.getElem?_insert_self]
  exact readVerified_of_verifyBytes hv'

/-- After any run of harmless calls, the whole genuine log of each kind imports, and reads back as
the genuine entries. -/
theorem genuine_import_after_calls (g : Genuine π author key) (hs : Behind g s)
    (ha : author ≠ s.peerId) (hc : ∀ c ∈ calls, c.Harmless g s.founder)
    (hs' : s' = afterCalls author key calls s) (order : RosterOrder) :
    ((exec (Store.importRoster order author key g.roster.bytes) s').1 = .ok () ∧
        readVerified π (rosterReader π author key) (exec (Store.importRoster order author key
            g.roster.bytes) s').2.disk.rosters[author]? = .ok g.roster.entries) ∧
      ((exec (Store.importKeylog author key g.keylog.bytes) s').1 = .ok () ∧
        readVerified π (keyReader π author key)
          (exec (Store.importKeylog author key g.keylog.bytes) s').2.disk.keylogs[author]? =
            .ok g.keylog.entries) ∧
      (s'.checkWriter author = .ok () → Importable π s.peerId author g.ops.entries →
        (exec (Store.applyPeerOps author key g.ops.bytes) s').1 = .ok () ∧
          ∃ es, readVerified π (opReader π author key)
              (exec (Store.applyPeerOps author key g.ops.bytes) s').2.disk.ops[author]? = .ok es ∧
            ∀ e, e ∈ es ↔ e ∈ g.ops.entries) := by
  obtain ⟨hb, hid⟩ := hs.afterCalls hc
  rw [← hs'] at hb hid
  have hpeer : s'.peerId = s.peerId := by rw [Store.peerId, Store.peerId, hid]
  rw [← hpeer] at ha
  refine ⟨hb.importRoster ha order, hb.importKeylog ha, ?_⟩
  intro hw hi
  rw [← hpeer] at hi
  exact hb.applyPeerOps ha hw hi

end Import

section Sample

def firstEntry : RosterEntry where
  seq := 1
  lamport := 1
  op := .add .admin
  subjectPeer := derivedPeerId (.replicate 1)
  subjectKey := .replicate 1
  addedBy := derivedPeerId (.replicate 1)

def firstRotation : KeyLogEntry where
  seq := 1
  author := derivedPeerId (.replicate 1)
  epochId := .replicate 9
  body := .rotate [epoch0Id] (.replicate 9)

def firstSigned : List Signed :=
  [.rosterEntry firstEntry, .keyLogEntry firstRotation, .oplogUpdate [1], .oplogUpdate [2]]

def firstPlatform : Platform := plainPlatform fun _ msg => msg ∈ firstSigned.map Signed.bytes

theorem signed_of_verify {a : Signed} (h : firstPlatform.verify key a.bytes sig = true) :
    ∃ b ∈ firstSigned, a.kind = b.kind ∧ a.bytes = b.bytes := by
  simp only [firstPlatform, plainPlatform, Bool.and_eq_true, decide_eq_true_eq] at h
  obtain ⟨b, hb, hbytes⟩ := List.mem_map.1 h.1
  exact ⟨b, hb, Signed.kind_eq_of_bytes hbytes.symm, hbytes.symm⟩

abbrev firstKey : Bytes32 := .replicate 1

theorem rosterReads_first (h : (rosterReader firstPlatform author firstKey).Reads line e) :
    e ∈ [firstEntry] := by
  obtain ⟨parsed, _, hc⟩ := h
  obtain ⟨_, _, _, sig, _, hv⟩ := RosterLine.check_inv hc
  obtain ⟨b, hb, hkind, hbytes⟩ := signed_of_verify (a := .rosterEntry e) hv
  simp only [firstSigned, List.mem_cons, List.not_mem_nil, or_false] at hb
  rcases hb with rfl | rfl | rfl | rfl
  · exact List.mem_singleton.2 (RosterEntry.eq_of_canonicalBytes hbytes)
  all_goals cases hkind

theorem keyReads_first (h : (keyReader firstPlatform author firstKey).Reads line e) :
    e ∈ [firstRotation] := by
  obtain ⟨parsed, _, hc⟩ := h
  obtain ⟨_, sig, hv⟩ := KeyLine.check_inv hc
  obtain ⟨b, hb, hkind, hbytes⟩ := signed_of_verify (a := .keyLogEntry e) hv
  simp only [firstSigned, List.mem_cons, List.not_mem_nil, or_false] at hb
  rcases hb with rfl | rfl | rfl | rfl
  · cases hkind
  · exact List.mem_singleton.2 (KeyLogEntry.eq_of_canonicalBytes hbytes)
  all_goals cases hkind

theorem opReads_first (h : (opReader firstPlatform author firstKey).Reads line e) :
    e ∈ ([⟨author, [1]⟩, ⟨author, [2]⟩] : List Entry) := by
  obtain ⟨parsed, _, hc⟩ := h
  obtain ⟨hauthor, sig, hv⟩ := EntryLine.check_inv hc
  obtain ⟨b, hb, hkind, hbytes⟩ := signed_of_verify (a := .oplogUpdate e.update) hv
  simp only [firstSigned, List.mem_cons, List.not_mem_nil, or_false] at hb
  rcases hb with rfl | rfl | rfl | rfl
  · cases hkind
  · cases hkind
  all_goals
    have hupdate := List.append_cancel_left hbytes
    cases e
    cases hauthor
    cases hupdate
    simp

def firstOp (n : UInt8) : Bytes :=
  firstPlatform.opJson.render
    (EntryLine.ofUpdate firstPlatform (derivedPeerId firstKey) (plainIdentity 1) [n])

theorem reads_render {json : Json Line} (hjson : json.Lawful) {r : LineReader Line E StorageError}
    (hparse : ∀ bytes, r.parse bytes = malformed (json.parse bytes)) (hcheck : r.check l = .ok e) :
    r.Reads (json.render l) e :=
  ⟨l, (hparse _).trans (malformed_eq_ok.2 (hjson.parse_render l)), hcheck⟩

def firstGenuine : Genuine firstPlatform (derivedPeerId firstKey) firstKey where
  roster := {
    lines := [firstPlatform.rosterJson.render
      (RosterLine.ofEntry firstPlatform (plainIdentity 1) firstEntry)]
    entries := [firstEntry]
    whole := {
      object := List.forall_mem_singleton.2 ((plainJson_lawful rosterLineCode).object _)
      reads := .cons (reads_render (plainJson_lawful rosterLineCode) (fun _ => rfl)
        (by decide +kernel)) .nil }
    complete := fun _ _ => rosterReads_first }
  keylog := {
    lines := [firstPlatform.keyJson.render
      (KeyLine.ofEntry firstPlatform (plainIdentity 1) firstRotation)]
    entries := [firstRotation]
    whole := {
      object := List.forall_mem_singleton.2 ((plainJson_lawful keyLineCode).object _)
      reads := .cons (reads_render (plainJson_lawful keyLineCode) (fun _ => rfl)
        (by decide +kernel)) .nil }
    complete := fun _ _ => keyReads_first }
  ops := {
    lines := [firstOp 1, firstOp 2]
    entries := [⟨derivedPeerId firstKey, [1]⟩, ⟨derivedPeerId firstKey, [2]⟩]
    whole := {
      object := by
        rw [List.forall_mem_cons, List.forall_mem_singleton]
        exact ⟨(plainJson_lawful entryLineCode).object _, (plainJson_lawful entryLineCode).object _⟩
      reads :=
        .cons (reads_render (plainJson_lawful entryLineCode) (fun _ => rfl) (by decide +kernel))
          (.cons (reads_render (plainJson_lawful entryLineCode) (fun _ => rfl) (by decide +kernel))
            .nil) }
    complete := fun _ _ => opReads_first }
  alone := by
    intro line hl t e e' he he'
    obtain ⟨l, rfl⟩ : ∃ l, line = firstPlatform.opJson.render l := by
      rcases List.mem_cons.1 hl with rfl | hl
      · exact ⟨_, rfl⟩
      · exact ⟨_, List.mem_singleton.1 hl⟩
    obtain ⟨parsed, hparse, hcheck⟩ := he
    obtain ⟨parsed', hparse', hcheck'⟩ := he'
    have hl := (plainJson_lawful entryLineCode).parse_render l
    obtain rfl : l = parsed := Except.ok.inj (hl.symm.trans (malformed_eq_ok.1 hparse))
    rcases plainJson_standsAlone entryLineCode l t with ⟨msg, hbad⟩ | ⟨_, hok⟩
    · cases hbad.symm.trans (malformed_eq_ok.1 hparse')
    · obtain rfl : l = parsed' := Except.ok.inj (hok.symm.trans (malformed_eq_ok.1 hparse'))
      exact Except.ok.inj (hcheck'.symm.trans hcheck)

def otherStore : Store firstPlatform := Store.fresh (plainIdentity 2) []

def memberStore : Store firstPlatform := otherStore.withFounder (derivedPeerId firstKey)

theorem memberStore_behind : Behind firstGenuine memberStore where
  roster := by
    intro bytes h
    cases h
  keylog := by
    intro bytes h
    cases h
  opsEnd := .inl rfl
  opsRead := ⟨[], rfl⟩
  founder := by
    intro fid bytes _ _ _ h
    cases h

def memberCalls : List LogCall :=
  [.bundle ascending [(derivedPeerId firstKey, firstGenuine.roster.bytes.take 10)],
    .roster ascending firstGenuine.roster.bytes, .keylog (firstGenuine.keylog.bytes.take 7),
    .ops (joinLines 10 [firstOp 2]), .ops (joinLines 10 [firstOp 1])]

theorem memberCalls_harmless : ∀ c ∈ memberCalls, c.Harmless firstGenuine memberStore.founder := by
  intro c hc
  simp only [memberCalls, List.mem_cons, List.not_mem_nil, or_false] at hc
  rcases hc with rfl | rfl | rfl | rfl | rfl
  · intro log hl
    cases List.mem_singleton.1 hl
    exact ⟨fun _ => List.take_prefix _ _, fun _ h => absurd rfl h⟩
  · intro es _
    exact List.prefix_rfl
  · intro es _
    exact List.take_prefix _ _
  · exact terminated_joinLines _
  · exact terminated_joinLines _

def memberAfter : Store firstPlatform :=
  afterCalls (derivedPeerId firstKey) firstKey memberCalls memberStore

theorem genuine_import_after_calls_member :
    memberAfter.exportPeerLog (derivedPeerId firstKey) = joinLines 10 [firstOp 2, firstOp 1] ∧
      (exec (Store.importRoster ascending (derivedPeerId firstKey) firstKey
        firstGenuine.roster.bytes) memberAfter).1 = .ok () ∧
      (exec (Store.importKeylog (derivedPeerId firstKey) firstKey
        firstGenuine.keylog.bytes) memberAfter).1 = .ok () ∧
      (exec (Store.applyPeerOps (derivedPeerId firstKey) firstKey
        firstGenuine.ops.bytes) memberAfter).1 = .ok () := by
  have hne : derivedPeerId firstKey ≠ memberStore.peerId := by decide +kernel
  have hw : memberAfter.checkWriter (derivedPeerId firstKey) = .ok () := by decide +kernel
  have hafter : memberAfter = afterCalls _ _ memberCalls memberStore := rfl
  obtain ⟨hr, hk, ho⟩ := genuine_import_after_calls firstGenuine memberStore_behind hne
    memberCalls_harmless hafter ascending
  refine ⟨by decide +kernel, hr.1, hk.1, (ho hw ⟨?_, ?_⟩).1⟩
  · intro e _
    exact ⟨_, _, rfl, rfl⟩
  · intro e _ doc
    exact ⟨_, rfl⟩

/-- A single byte without a newline is taken for a torn log of the author and stored; its genuine
log does not extend it and is refused for good. -/
theorem importRoster_after_torn_garbage :
    (exec (Store.importRoster ascending (derivedPeerId firstKey) firstKey
        [0x78]) otherStore).1 = .ok () ∧
      (exec (Store.importRoster ascending (derivedPeerId firstKey) firstKey
        firstGenuine.roster.bytes) otherStore).1 = .ok () ∧
      (exec (Store.importRoster ascending (derivedPeerId firstKey) firstKey
        firstGenuine.roster.bytes) (afterCalls (derivedPeerId firstKey) firstKey
          [.roster ascending [0x78]] otherStore)).1 ≠ .ok () := by
  refine ⟨?_, ?_, ?_⟩ <;> decide +kernel

end Sample

end Roam
