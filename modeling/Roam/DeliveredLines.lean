import Roam.LogImports
import Roam.CheckpointSpec
import Roam.OwnLog

namespace Roam
set_option autoImplicit true
open Library Library.Fallible

namespace Store

section Merge

/-- A chunk goes well with the stored lines: it is a first part of them; or the stored ones among
its lines are its first ones and the stored log ends with them, and if there are none of them, then
the last stored line does not end with the first line of the chunk. -/
def Fits (stored chunk : List Bytes) : Prop :=
  chunk <+: stored ∨ ∃ known new, chunk = known ++ new ∧ known ⊆ stored ∧
    (∀ line ∈ new, line ∉ stored) ∧
    joinLines 10 known <:+ joinLines 10 stored ∧
    (known = [] → ∀ first ∈ new.head?, ∀ last ∈ stored.getLast?, ¬ first <:+ last)

theorem le_overlap {stored appended : Bytes} (hk : k ≤ appended.length)
    (h : appended.take k <:+ stored) : k ≤ overlap stored appended := by
  cases k with
  | zero => exact Nat.zero_le _
  | succ k =>
    have hlen := h.length_le
    rw [List.length_take, Nat.min_eq_left hk] at hlen
    have hmem : k + 1 ∈ ((List.range (min stored.length appended.length)).map (· + 1)).reverse := by
      rw [List.mem_reverse, List.mem_map]
      exact ⟨k, List.mem_range.2 (Nat.lt_min.2 ⟨hlen, hk⟩), rfl⟩
    have hsorted : (((List.range (min stored.length appended.length)).map (· + 1)).reverse).Pairwise
        (· > ·) := by
      rw [List.pairwise_reverse, List.pairwise_map]
      exact List.pairwise_lt_range.imp fun h => Nat.succ_lt_succ h
    rw [overlap]
    cases hfind : (((List.range (min stored.length appended.length)).map (· + 1)).reverse.find?
        fun k => (appended.take k).isSuffixOf stored) with
    | none =>
      have hnone := List.find?_eq_none.1 hfind (k + 1) hmem
      exact absurd (List.isSuffixOf_iff_suffix.2 h) hnone
    | some m =>
      obtain ⟨_, before, after, hsplit, hbefore⟩ := List.find?_eq_some_iff_append.1 hfind
      rw [hsplit] at hmem hsorted
      rcases List.mem_append.1 hmem with hmem | hmem
      · have hfails := hbefore _ hmem
        rw [List.isSuffixOf_iff_suffix.2 h] at hfails
        cases hfails
      · rcases List.mem_cons.1 hmem with heq | hmem
        · exact heq.le
        · exact ((List.pairwise_cons.1 (List.pairwise_append.1 hsorted).2.1).1 _ hmem).le

theorem overlap_le (stored appended : Bytes) : overlap stored appended ≤ appended.length := by
  rw [overlap]
  cases hfind : (((List.range (min stored.length appended.length)).map (· + 1)).reverse.find?
      fun k => (appended.take k).isSuffixOf stored) with
  | none => exact Nat.zero_le _
  | some k =>
    have hmem := List.mem_of_find?_eq_some hfind
    rw [List.mem_reverse, List.mem_map] at hmem
    obtain ⟨i, hi, rfl⟩ := hmem
    exact (Nat.lt_min.1 (List.mem_range.1 hi)).2

variable {stored chunk : List Bytes}

theorem overlap_lines (stored : List Bytes) (hc : ∀ line ∈ chunk, 10 ∉ line) :
    ∃ known new, chunk = known ++ new ∧ joinLines 10 known <:+ joinLines 10 stored ∧
      (joinLines 10 chunk).drop (overlap (joinLines 10 stored) (joinLines 10 chunk)) =
        joinLines 10 new ∧
      (joinLines 10 known).length = overlap (joinLines 10 stored) (joinLines 10 chunk) := by
  have hsuf := overlap_suffix (joinLines 10 stored) (joinLines 10 chunk)
  have hend : Terminated 10 ((joinLines 10 chunk).take
      (overlap (joinLines 10 stored) (joinLines 10 chunk))) := by
    have happ := Terminated.append_suffix (.inl rfl) (terminated_joinLines stored) hsuf
    rwa [List.nil_append] at happ
  obtain ⟨known, new, hchunk, htake, hdrop⟩ :=
    joinLines_split hc hend (List.take_append_drop _ _).symm
  refine ⟨known, new, hchunk, ?_, hdrop, ?_⟩
  · rw [← htake]
    exact hsuf
  · rw [← htake, List.length_take, Nat.min_eq_left (overlap_le _ _)]

theorem prefix_of_length_le (h : known <+: chunk) (h' : known' <+: chunk)
    (hle : (joinLines 10 known').length ≤ (joinLines 10 known).length) : known' <+: known := by
  rcases List.prefix_or_prefix_of_prefix h h' with hpre | hpre
  · obtain ⟨rest, rfl⟩ := hpre
    rw [joinLines_append, List.length_append] at hle
    cases rest with
    | nil => rw [List.append_nil]
    | cons line rest =>
      rw [joinLines_cons, List.length_append, List.length_cons] at hle
      omega
  · exact hpre

theorem joinLines_getLast (hlast : stored.getLast? = some last) (h : first <:+ last) :
    joinLines 10 [first] <:+ joinLines 10 stored := by
  obtain ⟨init, rfl⟩ := List.getLast?_eq_some_iff.1 hlast
  obtain ⟨front, rfl⟩ := h
  refine ⟨joinLines 10 init ++ front, ?_⟩
  rw [joinLines_append, joinLines_cons, joinLines_cons]
  simp only [List.append_assoc]

theorem fits_iff (hs : ∀ line ∈ stored, 10 ∉ line) (hc : ∀ line ∈ known ++ new, 10 ∉ line)
    (hsn : stored.Nodup) (hcn : (known ++ new).Nodup) (hnot : ¬ known ++ new <+: stored)
    (hsuf : joinLines 10 known <:+ joinLines 10 stored)
    (hmax : ∀ ls, ls <+: known ++ new → joinLines 10 ls <:+ joinLines 10 stored → ls <+: known) :
    ((stored ++ new).Nodup ∧ known ++ new ⊆ stored ++ new) ↔ Fits stored (known ++ new) := by
  rw [List.nodup_append] at hcn
  apply Iff.intro
  · rintro ⟨hnodup, hsub⟩
    rw [List.nodup_append] at hnodup
    refine .inr ⟨known, new, rfl, fun line hline => ?_, fun line hnew hold => ?_, hsuf, ?_⟩
    · rcases List.mem_append.1 (hsub (List.mem_append_left _ hline)) with hold | hnew
      · exact hold
      · exact absurd rfl (hcn.2.2 line hline line hnew)
    · exact hnodup.2.2 line hold line hnew rfl
    · rintro rfl first hfirst last hlast hends
      obtain ⟨rest, rfl⟩ := List.head?_eq_some_iff.1 hfirst
      have hpre := hmax [first] ⟨rest, rfl⟩ (joinLines_getLast hlast hends)
      cases List.prefix_nil.1 hpre
  · rintro (hpre | ⟨known', new', heq, hold, hnew, hsuf', hfirst⟩)
    · exact absurd hpre hnot
    · have hsame : known' = known := by
        obtain ⟨rest, rfl⟩ := hmax known' ⟨new', heq.symm⟩ hsuf'
        cases rest with
        | nil => rw [List.append_nil]
        | cons line rest =>
          -- a line that is not stored would be in the overlap
          rw [List.append_assoc] at heq
          obtain rfl := List.append_cancel_left heq
          have hlines (l : Bytes) (hl : l ∈ known' ++ line :: rest) : 10 ∉ l :=
            hc l (List.mem_append_left _ hl)
          obtain ⟨front, hfront⟩ := hsuf
          cases known' with
          | nil =>
            obtain ⟨init, t, rfl⟩ := joinLines_suffix hs hlines hfront.symm
            cases rest with
            | nil => exact absurd ⟨t, rfl⟩ (hfirst rfl line rfl (t ++ line) List.getLast?_concat)
            | cons line' rest =>
              refine absurd ?_ (hnew line' (List.mem_cons_of_mem _ List.mem_cons_self))
              exact List.mem_append_right _ (List.mem_cons_of_mem _ List.mem_cons_self)
          | cons m ms =>
            obtain ⟨init, t, rfl⟩ := joinLines_suffix hs hlines hfront.symm
            refine absurd ?_ (hnew line List.mem_cons_self)
            exact List.mem_append_right _ (List.mem_cons_of_mem _ (List.mem_append_right _
              List.mem_cons_self))
      obtain rfl := hsame
      obtain rfl := List.append_cancel_left heq
      rw [List.nodup_append]
      refine ⟨⟨hsn, hcn.2.1, fun line hline line' hline' hsame => ?_⟩, fun line hline => ?_⟩
      · exact hnew line' hline' (hsame ▸ hline)
      · rw [List.mem_append] at hline ⊢
        exact hline.imp_left fun h => hold h

theorem mergeLog_lines (hs : ∀ line ∈ stored, 10 ∉ line) (hc : ∀ line ∈ chunk, 10 ∉ line)
    (hsn : stored.Nodup) (hcn : chunk.Nodup) :
    ∃ merged, mergeLog (joinLines 10 stored) (joinLines 10 chunk) = joinLines 10 merged ∧
      stored ⊆ merged ∧ merged ⊆ stored ++ chunk ∧ ((merged.Nodup ∧ chunk ⊆ merged) ↔
        Fits stored chunk) := by
  rw [mergeLog]
  split
  next hpre =>
    obtain ⟨rest, rfl⟩ := prefix_of_joinLines_prefix hs hc (List.isPrefixOf_iff_prefix.1 hpre)
    refine ⟨_, rfl, List.subset_append_left _ _, List.subset_append_right _ _, ?_⟩
    refine iff_of_true ⟨hcn, List.Subset.refl _⟩ (.inr ⟨stored, rest, rfl, List.Subset.refl _, ?_,
      ?_, ?_⟩)
    · intro line hline hold
      exact (List.nodup_append.1 hcn).2.2 line hold line hline rfl
    · exact List.suffix_rfl
    · rintro rfl first _ last hlast
      cases hlast
  next =>
    split
    next hpre =>
      have hpre := prefix_of_joinLines_prefix hc hs (List.isPrefixOf_iff_prefix.1 hpre)
      refine ⟨stored, rfl, List.Subset.refl _, List.subset_append_left _ _, ?_⟩
      exact iff_of_true ⟨hsn, hpre.subset⟩ (.inl hpre)
    next hnot =>
      obtain ⟨known, new, rfl, hsuf, hdrop, hlen⟩ := overlap_lines stored hc
      refine ⟨stored ++ new, ?_, List.subset_append_left _ _, ?_, ?_⟩
      · rw [hdrop, joinLines_append]
      · intro line hline
        rw [List.mem_append] at hline ⊢
        exact hline.imp_right fun h => List.mem_append_right _ h
      · refine fits_iff hs hc hsn hcn (fun hpre => hnot ?_) hsuf fun ls hpre hend => ?_
        · obtain ⟨rest, rfl⟩ := hpre
          rw [List.isPrefixOf_iff_prefix, joinLines_append (known ++ new)]
          exact List.prefix_append _ _
        · refine prefix_of_length_le (List.prefix_append _ _) hpre ?_
          obtain ⟨rest, hrest⟩ := hpre
          rw [hlen]
          apply le_overlap
          · rw [← hrest, joinLines_append, List.length_append]
            exact Nat.le_add_right _ _
          · rw [← hrest, joinLines_append, List.take_left]
            exact hend

end Merge

section Runs

def writes : Io → Bool
  | .refused _ => false
  | _ => true

variable {π : Platform} {author : UInt64} {log : List Bytes}

def accepts (s : Store π) (io : Io) (author : UInt64) (key : Bytes32) (bytes : Bytes) : Bool :=
  author ≠ s.peerId && writes io &&
    (exec (admitLog author key (mergeLog (s.exportPeerLog author) bytes)) s).1.isOk

/-- What happens to the copy of a log: a run of its lines arrives, a checkpoint drops lines, or
something else that does not concern it. -/
inductive LogEvent (π : Platform) (author : UInt64) (log : List Bytes)
  | apply (io : Io) (key : Bytes32) (chunk : List Bytes) (part : chunk <:+: log)
      (whole : ∀ more msg, io ≠ .torn more msg)
  | checkpoint (io : Io) (n : Nat)
  | other (f : Store π → Store π) (leaves : ∀ s,
      (f s).exportPeerLog author = s.exportPeerLog author)

/-- A store, and the lines of an author that it accepted since the last checkpoint. -/
structure Receiver (π : Platform) where
  store : Store π
  delivered : List Bytes

def Receiver.step (r : Receiver π) : LogEvent π author log → Receiver π
  | .apply io key chunk _ _ =>
    { store := (exec (applyPeerOpsIo io author key (joinLines 10 chunk)) r.store).2
      delivered :=
        if r.store.accepts io author key (joinLines 10 chunk) then r.delivered ++ chunk
          else r.delivered }
  | .checkpoint io n =>
    { store := (exec (truncateLeadingLines io author n) r.store).2
      delivered :=
        if (exec (truncateLeadingLines io author n) r.store).1.isOk then [] else r.delivered }
  | .other f _ => { r with store := f r.store }

/-- The stored copy is made of whole lines of the log, none of them twice, and has every line that
was accepted since the last checkpoint. -/
structure Receiver.Keeps (author : UInt64) (log : List Bytes) (r : Receiver π)
    (stored : List Bytes) :
    Prop where
  file : r.store.exportPeerLog author = joinLines 10 stored
  lines : stored ⊆ log
  once : stored.Nodup
  delivered : r.delivered ⊆ stored

def storedLines (s : Store π) (author : UInt64) : List Bytes :=
  ((s.exportPeerLog author).splitOn 10).dropLast

/-- A chunk that is accepted fits the stored lines. What a checkpoint keeps are lines of the log
still, once each: it strips carriage returns. -/
def Receiver.Allows (r : Receiver π) : LogEvent π author log → Prop
  | .apply io key chunk _ _ =>
    r.store.accepts io author key (joinLines 10 chunk) = true →
      Fits (r.store.storedLines author) chunk
  | .checkpoint io n =>
    (exec (truncateLeadingLines io author n) r.store).1.isOk = true →
      ((logLines r.store.disk.ops[author]?).drop n).Nodup ∧
        (logLines r.store.disk.ops[author]?).drop n ⊆ log
  | .other _ _ => True

theorem storedLines_eq {s : Store π} (hl : ∀ line ∈ stored, 10 ∉ line)
    (h : s.exportPeerLog author = joinLines 10 stored) : s.storedLines author = stored := by
  have hsplit := splitOn_joinLines hl (@List.not_mem_nil UInt8 10)
  rw [List.append_nil] at hsplit
  rw [storedLines, h, hsplit, List.dropLast_concat]

theorem exportPeerLog_apply {io : Io} (author : UInt64) (hwhole : ∀ more msg, io ≠ .torn more msg)
    (s : Store π)
    (key : Bytes32) (bytes : Bytes) :
    ((exec (applyPeerOpsIo io author key bytes) s).2).exportPeerLog author =
      if s.accepts io author key bytes then mergeLog (s.exportPeerLog author) bytes
      else s.exportPeerLog author := by
  rw [applyPeerOpsIo, exec_bind, exec_get]
  dsimp only
  by_cases hself : author = s.peerId
  · have hnot : s.accepts io author key bytes = false := by
      rw [accepts, decide_eq_false (not_not.2 hself), Bool.false_and, Bool.false_and]
    rw [if_pos hself, hnot, if_neg Bool.false_ne_true]
    rfl
  · rw [if_neg hself, importPeerIo, exec_bind]
    rcases exec_admitLog author key (mergeLog (s.exportPeerLog author) bytes) s with
      ⟨err, hletin⟩ | ⟨entries, hletin, _⟩
    · have hnot : s.accepts io author key bytes = false := by
        rw [accepts, hletin]
        exact Bool.and_false _
      rw [hletin, hnot, if_neg Bool.false_ne_true]
    · have haccepts : s.accepts io author key bytes = writes io := by
        rw [accepts, hletin, decide_eq_true hself, Bool.true_and]
        exact Bool.and_true _
      rw [hletin, haccepts]
      dsimp only
      rw [exec_bind, writeOps, exec_bind, exec_modify]
      dsimp only
      rw [exec_ofResult]
      cases io with
      | done =>
        have hfiles := mergeEntries_sameFiles entries
          (s.putOps author (Io.done.replace s.disk.ops[author]? (mergeLog (s.exportPeerLog author)
            bytes)))
        refine (congrArg (fun d : Disk => d.ops[author]?.getD []) hfiles.disk).trans ?_
        exact (exportPeerLog_putOps s author author _).trans (if_pos rfl)
      | refused msg =>
        refine (exportPeerLog_putOps s author author _).trans ((if_pos rfl).trans ?_)
        rw [Io.replace, Option.or_self]
        rfl
      | torn more msg => exact absurd rfl (hwhole more msg)
      | unsynced msg => exact (exportPeerLog_putOps s author author _).trans (if_pos rfl)

variable {r : Receiver π}

theorem Receiver.Keeps.apply_iff (hlog : log.Nodup) (hlines : ∀ line ∈ log, 10 ∉ line)
    (h : r.Keeps author log stored) {io : Io} (key : Bytes32) {chunk : List Bytes}
    (hpart : chunk <:+: log) (hwhole : ∀ more msg, io ≠ .torn more msg) : (∃ stored,
      (r.step (.apply io key chunk hpart hwhole : LogEvent π author log)).Keeps author log stored) ↔
      r.Allows (.apply io key chunk hpart hwhole : LogEvent π author log) := by
  have hfile := exportPeerLog_apply author hwhole r.store key (joinLines 10 chunk)
  have hs (line : Bytes) (hline : line ∈ stored) : 10 ∉ line := hlines line (h.lines hline)
  have hc (line : Bytes) (hline : line ∈ chunk) : 10 ∉ line := hlines line (hpart.subset hline)
  rw [step, Allows, storedLines_eq hs h.file]
  cases haccepts : r.store.accepts io author key (joinLines 10 chunk) with
  | false =>
    rw [haccepts, if_neg Bool.false_ne_true] at hfile
    rw [if_neg Bool.false_ne_true]
    exact iff_of_true ⟨stored, hfile.trans h.file, h.lines, h.once, h.delivered⟩ nofun
  | true =>
    rw [haccepts, if_pos rfl, h.file] at hfile
    rw [if_pos rfl, forall_prop_of_true rfl]
    obtain ⟨merged, hmerged, hold, hsub, hfits⟩ :=
      mergeLog_lines hs hc h.once (hpart.sublist.nodup hlog)
    rw [hmerged] at hfile
    have hall : merged ⊆ log := by
      intro line hline
      rcases List.mem_append.1 (hsub hline) with hline | hline
      · exact h.lines hline
      · exact hpart.subset hline
    rw [← hfits]
    apply Iff.intro
    · rintro ⟨stored', h'⟩
      obtain rfl := joinLines_injective (fun line hline => hlines line (hall hline))
        (fun line hline => hlines line (h'.lines hline)) (hfile.symm.trans h'.file)
      exact ⟨h'.once, fun line hline => h'.delivered (List.mem_append_right _ hline)⟩
    · rintro ⟨honce, hchunk⟩
      refine ⟨merged, hfile, hall, honce, fun line hline => ?_⟩
      rcases List.mem_append.1 hline with hline | hline
      · exact hold (h.delivered hline)
      · exact hchunk hline

theorem Receiver.Keeps.checkpoint_iff (hlines : ∀ line ∈ log, 10 ∉ line)
    (h : r.Keeps author log stored) (io : Io) (n : Nat) :
    (∃ stored, (r.step (.checkpoint io n : LogEvent π author log)).Keeps author log stored) ↔
      r.Allows (.checkpoint io n : LogEvent π author log) := by
  have houtcome := truncateLeadingLines_outcome io author n r.store
  rw [step, Allows]
  generalize exec (truncateLeadingLines io author n) r.store = out at houtcome ⊢
  obtain ⟨result, s'⟩ := out
  cases houtcome with
  | failed err => exact iff_of_true ⟨stored, h.file, h.lines, h.once, h.delivered⟩ nofun
  | missing hnone =>
    refine iff_of_true ⟨stored, h.file, h.lines, h.once, List.nil_subset _⟩ fun _ => ?_
    rw [hnone, logLines, List.drop_nil]
    exact ⟨List.nodup_nil, List.nil_subset _⟩
  | dropped bytes hsome =>
    generalize hkept : (logLines r.store.disk.ops[author]?).drop n = kept
    have hfile :
        (r.store.withOps author (joinLines 10 kept)).exportPeerLog author = joinLines 10 kept := by
      rw [exportPeerLog, withOps, Std.TreeMap.getElem?_insert_self]
      rfl
    have hc (line : Bytes) (hline : line ∈ kept) : 10 ∉ line := by
      rw [← hkept] at hline
      exact (mem_logLines (List.drop_subset n _ hline)).1
    apply Iff.intro
    · rintro ⟨stored', h'⟩
      obtain rfl := joinLines_injective hc (fun line hline => hlines line (h'.lines hline))
        (hfile.symm.trans h'.file)
      exact fun _ => ⟨h'.once, h'.lines⟩
    · intro hallows
      obtain ⟨honce, hall⟩ := hallows rfl
      exact ⟨kept, hfile, hall, honce, List.nil_subset _⟩

/-- After every event of a run the stored copy has each line that was accepted since the last
checkpoint once, and no other line twice, exactly if every chunk fits the lines stored before it and
every checkpoint keeps lines of the log. -/
theorem keeps_lines_iff (hlog : log.Nodup) (hlines : ∀ line ∈ log, 10 ∉ line) {s : Store π}
    (hempty : s.exportPeerLog author = []) (events : List (LogEvent π author log)) :
    Along Receiver.step (fun r e => ∃ stored, (r.step e).Keeps author log stored) ⟨s, []⟩ events ↔
      Along Receiver.step Receiver.Allows ⟨s, []⟩ events := by
  have hstart : ∃ stored, (⟨s, []⟩ : Receiver π).Keeps author log stored :=
    ⟨[], hempty, List.nil_subset _, List.nodup_nil, List.nil_subset _⟩
  have hiff (r : Receiver π) (e : LogEvent π author log) (h : ∃ stored, r.Keeps author log stored) :
      (∃ stored, (r.step e).Keeps author log stored) ↔ r.Allows e := by
    obtain ⟨stored, h⟩ := h
    cases e with
    | apply io key chunk part whole => exact h.apply_iff hlog hlines key part whole
    | checkpoint io n => exact h.checkpoint_iff hlines io n
    | other f leaves =>
      refine iff_of_true ⟨stored, ?_, h.lines, h.once, h.delivered⟩ trivial
      exact (leaves r.store).trans h.file
  exact along_iff hiff (fun _ _ _ h => h) hstart

end Runs

section Sample

def joinedVault : Store samplePlatform := runAll after (sampleVault 1) [sampleFound, sampleJoin]

def writerLine (op : UInt8) : Bytes :=
  samplePlatform.opJson.render (EntryLine.ofUpdate samplePlatform sampleWriter
    (plainIdentity 2) [op])

def writerLog : List Bytes := [writerLine 8, writerLine 9]

def receive (chunk : List Bytes) (part : chunk <:+: writerLog) :
    LogEvent samplePlatform sampleWriter writerLog :=
  .apply .done (.replicate 2) chunk part nofun

def checkpointed : Receiver samplePlatform :=
  runAll Receiver.step ⟨joinedVault, []⟩ [receive writerLog List.infix_rfl, .checkpoint .done 1]

/-- When the whole log is sent once more, its second line is stored twice. -/
theorem resent_log_doubles_line :
    (exec (applyPeerOpsIo .done sampleWriter (.replicate 2) (joinLines 10 writerLog))
      checkpointed.store).1 = .ok () ∧
      (checkpointed.step (receive writerLog List.infix_rfl)).store.exportPeerLog sampleWriter =
        joinLines 10 [writerLine 9, writerLine 8, writerLine 9] := by
  refine ⟨?_, ?_⟩ <;> decide +kernel

def growingLog : List (LogEvent samplePlatform sampleWriter writerLog) :=
  [receive [writerLine 8] ⟨[], [writerLine 9], rfl⟩, receive writerLog List.infix_rfl]

theorem growingLog_keeps_lines :
    Along Receiver.step (fun r e => ∃ stored, (r.step e).Keeps sampleWriter writerLog stored)
      ⟨joinedVault, []⟩ growingLog := by
  have hempty : joinedVault.exportPeerLog sampleWriter = [] := by decide +kernel
  have hsecond : (Receiver.step ⟨joinedVault, []⟩ (receive [writerLine 8] ⟨[], [writerLine 9],
      rfl⟩)).store.storedLines
      sampleWriter = [writerLine 8] := by decide +kernel
  apply (keeps_lines_iff (by decide +kernel) (by decide +kernel) hempty growingLog).2
  refine ⟨fun _ => ?_, fun _ => ?_, trivial⟩
  · rw [storedLines_eq (List.forall_mem_nil _) hempty]
    exact .inr ⟨[], [writerLine 8], rfl, List.nil_subset _, fun _ _ => List.not_mem_nil,
      List.nil_suffix, fun _ _ _ _ hlast => nomatch hlast⟩
  · rw [hsecond]
    refine .inr ⟨[writerLine 8], [writerLine 9], rfl, List.Subset.refl _, ?_,
      List.suffix_rfl, nofun⟩
    decide +kernel

end Sample

end Store

end Roam
