import Roam.PlainPlatform

namespace Roam
set_option autoImplicit true
open Library

/-- A signed log as its author keeps it: how a line is checked, and how a request is appended. -/
structure SignedLog where
  Line : Type
  Entry : Type
  Request : Type
  json : Json Line
  check : Line → Except StorageError Entry
  append : Option Bytes → Request → Except StorageError (Entry × Bytes)

def SignedLog.reader (log : SignedLog) : LineReader log.Line log.Entry StorageError where
  parse line := malformed (log.json.parse line)
  check := log.check

def SignedLog.appendAll (log : SignedLog) (file : Option Bytes) :
    List log.Request → Except StorageError (List log.Entry × Option Bytes)
  | [] => .ok ([], file)
  | request :: requests => do
    let (entry, file) ← log.append file request
    let (entries, file) ← log.appendAll (some file) requests
    pure (entry :: entries, file)

inductive LogKind
  | op
  | roster
  | key
deriving DecidableEq

structure RosterRequest where
  lamport : UInt64
  op : RosterOp
  subjectPeer : UInt64
  subjectKey : Bytes32

section
variable (π : Platform) (id : Identity)

def LogKind.log : LogKind → SignedLog
  | .op => {
      Line := EntryLine
      Entry := Entry
      Request := Bytes
      json := π.opJson
      check := EntryLine.check π (id.peerId π) (id.verifyingKey π)
      append := fun file update =>
        .ok ({ peerId := id.peerId π, update }, OpLog.append π (id.peerId π) file id update) }
  | .roster => {
      Line := RosterLine
      Entry := RosterEntry
      Request := RosterRequest
      json := π.rosterJson
      check := RosterLine.check π (id.peerId π) (id.verifyingKey π)
      append := fun file r =>
        RosterLog.append π (id.peerId π) file id r.lamport r.op r.subjectPeer r.subjectKey }
  | .key => {
      Line := KeyLine
      Entry := KeyLogEntry
      Request := Bytes32 × KeyBody
      json := π.keyJson
      check := KeyLine.check π (id.peerId π) (id.verifyingKey π)
      append := fun file r => KeyLog.append π (id.peerId π) file id r.1 r.2 }

end

/-- A log that was cut to its first `k` bytes and then continued is read as the entries whose
lines the cut left whole and the entries appended since. -/
def SignedLog.Survives (π : Platform) (log : SignedLog) (entries : List log.Entry)
    (file : Option Bytes) (k : Nat) (after : List log.Request) : Prop :=
  ∃ appended file', log.appendAll (file.map (·.take k)) after = .ok (appended, file') ∧
    readVerified π log.reader file' =
      .ok (entries.take (wholeLines (textLines (file.getD [])) k) ++ appended)

/-- What the three logs have in common: whatever can be read can be appended to, and an append
adds one line that reads as its entry. -/
structure SignedLog.Lawful (π : Platform) (log : SignedLog) : Prop where
  framed : log.json.Framed
  appends : ∀ file request entries, readVerified π log.reader file = .ok entries →
    ∃ written, log.append file request = .ok written
  appended : ∀ file request entry file', log.append file request = .ok (entry, file') →
    ∃ line, file' = appendLine file (log.json.render line) ∧ log.check line = .ok entry

section
variable {π : Platform}

theorem LogKind.log_lawful (hπ : π.Framed) (id : Identity) (kind : LogKind) :
    (kind.log π id).Lawful π := by
  cases kind with
  | op =>
    refine ⟨hπ.opFramed, ?_, ?_⟩
    · intro file update entries _
      exact ⟨_, rfl⟩
    · intro file update entry file' h
      cases h
      exact ⟨_, rfl, EntryLine.check_ofUpdate hπ.toLawful id update⟩
  | roster =>
    refine ⟨hπ.rosterFramed, ?_, ?_⟩
    · intro file r entries h
      have hread : readVerified π (rosterReader π (id.peerId π) (id.verifyingKey π)) file =
          .ok entries := h
      simp only [LogKind.log, RosterLog.append, ne_eq, not_true_eq_false, ↓reduceIte, hread, bind,
        Except.bind]
      exact ⟨_, rfl⟩
    · intro file r entry file' h
      simp only [LogKind.log, RosterLog.append, ne_eq, not_true_eq_false, ↓reduceIte,
        except_bind_eq_ok] at h
      obtain ⟨_, _, h⟩ := h
      cases h
      exact ⟨_, rfl, RosterLine.check_ofEntry hπ.toLawful id rfl⟩
  | key =>
    refine ⟨hπ.keyFramed, ?_, ?_⟩
    · intro file r entries h
      have hread : readVerified π (keyReader π (id.peerId π) (id.verifyingKey π)) file =
          .ok entries := h
      simp only [LogKind.log, KeyLog.append, ne_eq, not_true_eq_false, ↓reduceIte, hread, bind,
        Except.bind]
      exact ⟨_, rfl⟩
    · intro file r entry file' h
      simp only [LogKind.log, KeyLog.append, ne_eq, not_true_eq_false, ↓reduceIte,
        except_bind_eq_ok] at h
      obtain ⟨_, _, h⟩ := h
      cases h
      exact ⟨_, rfl, KeyLine.check_ofEntry hπ.toLawful id rfl⟩

end

namespace SignedLog
variable {π : Platform} {log : SignedLog}

def Written (log : SignedLog) (lines : List Bytes) (entries : List log.Entry) : Prop :=
  List.Forall₂ (fun text entry => ∃ line, text = log.json.render line ∧ log.check line = .ok entry)
    lines entries

theorem Written.rendered (h : log.Written lines entries) (ht : text ∈ lines) :
    ∃ line, text = log.json.render line := by
  induction h with
  | nil => cases ht
  | cons hl _ ih =>
    cases ht with
    | head =>
      obtain ⟨line, hr, _⟩ := hl
      exact ⟨line, hr⟩
    | tail _ ht => exact ih ht

theorem Written.append (h : log.Written lines entries) (h' : log.Written lines' entries') :
    log.Written (lines ++ lines') (entries ++ entries') :=
  List.rel_append h h'

section
variable (hlog : log.Lawful π)
include hlog

theorem reads_render (hc : log.check line = .ok entry) :
    log.reader.Reads (log.json.render line) entry :=
  ⟨line, malformed_eq_ok.2 (hlog.framed.parse_render line), hc⟩

theorem Written.whole (h : log.Written lines entries) : WholeLog log.reader lines entries := by
  refine ⟨?_, h.imp ?_⟩
  · intro text ht
    obtain ⟨line, rfl⟩ := h.rendered ht
    exact hlog.framed.object line
  · intro text entry h
    obtain ⟨line, rfl, hc⟩ := h
    exact reads_render hlog hc

theorem appendAll_inv (h : log.appendAll file requests = .ok (entries, file')) :
    ∃ lines, log.Written lines entries ∧ file'.getD [] = file.getD [] ++ joinLines 10 lines ∧
      (requests = [] ∧ file' = file ∨ requests ≠ [] ∧ lines ≠ []) := by
  induction requests generalizing file entries with
  | nil =>
    cases h
    exact ⟨[], .nil, (List.append_nil _).symm, .inl ⟨rfl, rfl⟩⟩
  | cons request requests ih =>
    simp only [appendAll, except_bind_eq_ok] at h
    obtain ⟨⟨entry, file₁⟩, happ, ⟨entries', file₂⟩, hrest, h⟩ := h
    cases h
    obtain ⟨line, rfl, hc⟩ := hlog.appended _ _ _ _ happ
    obtain ⟨lines, hw, hfile, _⟩ := ih hrest
    refine ⟨log.json.render line :: lines, .cons ⟨line, rfl, hc⟩ hw, ?_,
      .inr ⟨List.cons_ne_nil _ _, List.cons_ne_nil _ _⟩⟩
    rw [hfile, Option.getD_some, appendLine, joinLines_cons]
    simp only [List.append_assoc, List.singleton_append]

theorem appendAll_ok (h : log.Written lines entries) (hf : file.getD [] = joinLines 10 lines)
    (requests : List log.Request) : ∃ written, log.appendAll file requests = .ok written := by
  induction requests generalizing file lines entries with
  | nil => exact ⟨_, rfl⟩
  | cons request requests ih =>
    have hread : readVerified π log.reader file = .ok entries := (h.whole hlog).readVerified hf
    obtain ⟨⟨entry, file'⟩, happ⟩ := hlog.appends file request entries hread
    obtain ⟨line, rfl, hc⟩ := hlog.appended _ _ _ _ happ
    have hnext : log.Written (lines ++ [log.json.render line]) (entries ++ [entry]) :=
      h.append (.cons ⟨line, rfl, hc⟩ .nil)
    have hfile : (some (appendLine file (log.json.render line))).getD [] =
        joinLines 10 (lines ++ [log.json.render line]) := by
      rw [Option.getD_some, appendLine, hf, joinLines_append, joinLines_cons]
      rfl
    obtain ⟨written, hrest⟩ := ih hnext hfile
    refine ⟨(entry :: written.1, written.2), ?_⟩
    simp only [appendAll, happ, hrest, bind, Except.bind]
    rfl

theorem survives_clean (h : log.Written init entries) (hf : file.getD [] = joinLines 10 init)
    (requests : List log.Request) :
    ∃ appended file', log.appendAll file requests = .ok (appended, file') ∧
      readVerified π log.reader file' = .ok (entries ++ appended) := by
  obtain ⟨⟨appended, file'⟩, happ⟩ := appendAll_ok hlog h hf requests
  obtain ⟨lines, hw, hfile, _⟩ := appendAll_inv hlog happ
  refine ⟨appended, file', happ, ((h.append hw).whole hlog).readVerified ?_⟩
  rw [hfile, hf, joinLines_append]

theorem not_ok_of_joined (h : log.Written init es) (hp : torn <+: log.json.render line)
    (hne : torn ≠ []) (hf : file.getD [] = joinLines 10 init ++ torn)
    (happ : log.appendAll file (request :: requests) = .ok (appended, file')) :
    readVerified π log.reader file' ≠ .ok entries := by
  obtain ⟨lines, hw, hfile, hlines⟩ := appendAll_inv hlog happ
  cases lines with
  | nil =>
    cases hlines with
    | inl hnil => cases hnil.1
    | inr hcons => exact absurd rfl hcons.2
  | cons text lines =>
    obtain ⟨line', rfl⟩ := hw.rendered List.mem_cons_self
    have hobj := hlog.framed.object line'
    have htorn : 10 ∉ torn := fun hm => (hlog.framed.object line).single (hp.mem hm)
    have hsingle : ∀ text ∈ init ++ (torn ++ log.json.render line') :: lines, 10 ∉ text := by
      intro text ht
      cases List.mem_append.1 ht with
      | inl ht => exact ((h.whole hlog).object text ht).single
      | inr ht =>
        cases ht with
        | head =>
          intro hm
          cases List.mem_append.1 hm with
          | inl hm => exact htorn hm
          | inr hm => exact hobj.single hm
        | tail _ ht => exact ((hw.whole hlog).object text (List.mem_cons_of_mem _ ht)).single
    have hbytes :
        file'.getD [] = joinLines 10 (init ++ (torn ++ log.json.render line') :: lines) := by
      rw [hfile, hf, joinLines_cons, joinLines_append, joinLines_cons]
      simp only [List.append_assoc]
    intro hread
    cases file' with
    | none =>
      rw [Option.getD_none, joinLines_append, joinLines_cons] at hbytes
      simp only [List.nil_eq, List.append_eq_nil_iff, reduceCtorEq, and_false] at hbytes
    | some bytes =>
      rw [Option.getD_some] at hbytes
      rw [readVerified] at hread
      split at hread
      · rw [hbytes, LineReader.readText_eq_ok_iff hsingle] at hread
        have hkept : torn ++ log.json.render line' ∈
            keptLines (init ++ (torn ++ log.json.render line') :: lines) :=
          hobj.mem_kept (List.mem_append_right init List.mem_cons_self)
        obtain ⟨_, _, parsed, hparse, _⟩ := LineReader.exists_entry hread hkept
        obtain ⟨msg, herr⟩ := hlog.framed.joined line line' torn hp hne
        rw [malformed_eq_ok.1 hparse] at herr
        cases herr
      · cases hread

theorem readVerified_torn (h : log.Written init es) (hc : log.check line = .ok entry)
    (hp : torn <+: log.json.render line) (hne : torn ≠ []) :
    readVerified π log.reader (some (joinLines 10 init ++ torn)) =
      if validUtf8 torn then .ok (es ++ if torn.length = (log.json.render line).length then [entry]
        else []) else .error (.io (π.utf8Error (joinLines 10 init ++ torn))) := by
  have hinit := h.whole hlog
  have hobj := hlog.framed.object line
  have hsingle : 10 ∉ torn := fun hm => hobj.single (hp.mem hm)
  have hblank : isBlank torn = false := by
    cases torn with
    | nil => exact absurd rfl hne
    | cons b torn =>
      have hb : some b = some 0x7B := by
        obtain ⟨rest, hr⟩ := hp
        rw [← hobj.opens, ← hr]
        rfl
      rw [Option.some.inj hb]
      exact isBlank_brace torn
  have hlast : log.reader.readLines true [torn] =
      .ok (if torn.length = (log.json.render line).length then [entry] else []) := by
    by_cases heq : torn.length = (log.json.render line).length
    · rw [if_pos heq, hp.eq_of_length heq]
      exact LineReader.readLines_of_reads (.cons (reads_render hlog hc) .nil)
    · obtain ⟨msg, hparse⟩ := hlog.framed.torn line torn hp fun he => heq (congrArg List.length he)
      rw [if_neg heq, LineReader.readLines]
      simp only [reader, hparse, malformed, Except.mapError]
      rfl
  have hempty : torn.isEmpty = false := List.isEmpty_eq_false_iff.2 hne
  have htext : log.reader.readText (joinLines 10 init ++ torn) =
      .ok (es ++ if torn.length = (log.json.render line).length then [entry] else []) := by
    rw [LineReader.readText_joinLines (fun text ht => (hinit.object text ht).single) hsingle,
      ObjectLine.keptLines hinit.object, LineReader.readLines_append hinit.reads, if_neg hne,
      List.filter_singleton, hblank, hempty]
    simp only [Bool.not_false, cond_true, hlast, Except.map]
  rw [readVerified, validUtf8_joinLines fun text ht => (hinit.object text ht).utf8, htext]

end

theorem Written.textLines (hlog : log.Lawful π) (h : log.Written lines entries) :
    textLines (joinLines 10 lines) = lines := by
  have hobj := (h.whole hlog).object
  have hlines := textLines_joinLines (fun text ht => (hobj text ht).single)
    (@List.not_mem_nil UInt8 10)
  rw [if_pos rfl, List.append_nil, List.append_nil] at hlines
  rw [hlines, List.map_congr_left fun text ht => (hobj text ht).stripCr, List.map_id']

theorem Written.not_nil_mem (hlog : log.Lawful π) (h : log.Written lines entries) : [] ∉ lines := by
  intro hm
  have hopens := ((h.whole hlog).object [] hm).opens
  cases hopens

theorem Written.split (h : log.Written (init ++ rest) entries) :
    ∃ es es', entries = es ++ es' ∧ es.length = init.length ∧ log.Written init es ∧
      log.Written rest es' := by
  have hlen := List.Forall₂.length_eq h
  rw [List.length_append] at hlen
  refine ⟨entries.take init.length, entries.drop init.length, (List.take_append_drop _ _).symm,
    List.length_take_of_le (by omega), ?_, ?_⟩
  · exact List.Forall₂.flip (List.forall₂_take_append entries init rest (List.Forall₂.flip h))
  · exact List.Forall₂.flip (List.forall₂_drop_append entries init rest (List.Forall₂.flip h))

end SignedLog

theorem not_terminated_torn (ht : 10 ∉ torn) (hne : torn ≠ []) :
    ¬ Terminated (10 : UInt8) (joinLines 10 init ++ torn) := by
  intro h
  obtain ⟨front, b, rfl⟩ := (List.eq_nil_or_concat' torn).resolve_left hne
  cases h with
  | inl h => simp only [List.append_eq_nil_iff, List.cons_ne_nil, and_false] at h
  | inr h =>
    rw [← List.append_assoc, List.getLast?_concat] at h
    exact ht (Option.some.inj h ▸ List.mem_append_right front List.mem_cons_self)

/-- A log survives a crash and what its author appends afterwards exactly when the crash cut it
between two lines, or when nothing is appended and the cut did not split a character. -/
theorem LogKind.survives_iff {π : Platform} (hπ : π.Framed) (id : Identity) (kind : LogKind)
    (before after : List (kind.log π id).Request) (entries : List (kind.log π id).Entry)
    (file : Option Bytes) (h : (kind.log π id).appendAll none before = .ok (entries, file))
    (k : Nat) : (kind.log π id).Survives π entries file k after ↔
      Terminated 10 ((file.getD []).take k) ∨
        after = [] ∧ validUtf8 ((file.getD []).take k) = true := by
  have hlog := kind.log_lawful hπ id
  obtain ⟨lines, hw, hfile, _⟩ := SignedLog.appendAll_inv hlog h
  rw [Option.getD_none, List.nil_append] at hfile
  have hcut : (file.map (·.take k)).getD [] = (file.getD []).take k := by
    cases file with
    | none => exact List.take_nil.symm
    | some bytes => rfl
  rw [SignedLog.Survives, hfile, hw.textLines hlog]
  rw [hfile] at hcut
  cases joinLines_take (hw.not_nil_mem hlog) k with
  | inl hclean =>
    obtain ⟨init, rest, rfl, htake, hn⟩ := hclean
    obtain ⟨es, es', rfl, hlen, hinit, _⟩ := hw.split
    rw [htake] at hcut ⊢
    rw [hn, ← hlen, List.take_left]
    simp only [terminated_joinLines, true_or, iff_true]
    exact SignedLog.survives_clean hlog hinit hcut after
  | inr htorn =>
    obtain ⟨init, text, rest, torn, rfl, hne, hp, htake, hn⟩ := htorn
    obtain ⟨es, es', rfl, hlen, hinit, hrest⟩ := hw.split
    obtain ⟨entry, es', ⟨line, rfl, hc⟩, _, rfl⟩ := List.forall₂_cons_left_iff.1 hrest
    have hsingle : 10 ∉ torn := fun hm => (hlog.framed.object line).single (hp.mem hm)
    have hutf : validUtf8 (joinLines 10 init ++ torn) = validUtf8 torn :=
      validUtf8_joinLines fun text ht => ((hinit.whole hlog).object text ht).utf8
    rw [htake] at hcut ⊢
    rw [hn, hutf]
    simp only [not_terminated_torn hsingle hne, false_or]
    cases after with
    | cons request requests =>
      simp only [reduceCtorEq, false_and, iff_false]
      intro hs
      obtain ⟨appended, file', happ, hread⟩ := hs
      exact SignedLog.not_ok_of_joined hlog hinit hp hne hcut happ hread
    | nil =>
      have hread := SignedLog.readVerified_torn hlog hinit hc hp hne
      have hsome : file.map (·.take k) = some (joinLines 10 init ++ torn) := by
        cases hmap : file.map (·.take k) with
        | none =>
          rw [hmap] at hcut
          exact absurd (List.append_eq_nil_iff.1 hcut.symm).2 hne
        | some bytes =>
          rw [hmap] at hcut
          exact congrArg some hcut
      have htaken : (es ++ entry :: es').take (init.length +
          if torn.length = ((kind.log π id).json.render line).length then 1 else 0) =
          es ++ if torn.length = ((kind.log π id).json.render line).length then [entry]
            else [] := by
        rw [← hlen, List.take_length_add_append]
        split
        · rfl
        · rfl
      rw [htaken, hsome]
      constructor
      · intro hs
        obtain ⟨appended, file', happ, hok⟩ := hs
        cases happ
        refine ⟨rfl, ?_⟩
        rw [hread] at hok
        split at hok
        next hv => exact hv
        next => cases hok
      · intro hs
        refine ⟨[], some (joinLines 10 init ++ torn), rfl, ?_⟩
        rw [hread, if_pos hs.2, List.append_nil]

theorem LogKind.survives_between_lines :
    ∃ entries file, (LogKind.op.log openPlatform (plainIdentity 1)).appendAll none [[1], [2]] =
        .ok (entries, file) ∧
      (LogKind.op.log openPlatform (plainIdentity 1)).Survives openPlatform entries file
        (OpLog.append openPlatform ((plainIdentity 1).peerId openPlatform) none
          (plainIdentity 1) [1]).length [[3]] := by
  refine ⟨_, _, rfl, ?_⟩
  refine (LogKind.survives_iff openPlatform_framed (plainIdentity 1) .op [[1], [2]] [[3]] _ _ rfl
    _).2 (.inl (.inr ?_))
  decide +kernel

/-- An update that was torn after five bytes makes the next one unreadable. -/
theorem LogKind.not_survives_torn :
    ∃ entries file, (LogKind.op.log openPlatform (plainIdentity 1)).appendAll none [[1]] =
        .ok (entries, file) ∧
      ¬ (LogKind.op.log openPlatform (plainIdentity 1)).Survives openPlatform entries file 5
        [[2]] := by
  refine ⟨_, _, rfl, ?_⟩
  intro hs
  obtain ⟨appended, file', happ, hread⟩ := hs
  have hlog := LogKind.op.log_lawful openPlatform_framed (plainIdentity 1)
  let line := EntryLine.ofUpdate openPlatform ((plainIdentity 1).peerId openPlatform)
    (plainIdentity 1) [1]
  have hp : (openPlatform.opJson.render line).take 5 <+: openPlatform.opJson.render line :=
    List.take_prefix 5 _
  refine SignedLog.not_ok_of_joined hlog .nil hp ?_ ?_ happ hread
  · decide +kernel
  · decide +kernel

end Roam
