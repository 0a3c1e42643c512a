import Roam.AdminStanding
import Roam.TornLogs

namespace Roam
set_option autoImplicit true
open Library

section Records
variable {json : Json α} {P : α → Prop}

def Json.file (json : Json α) (records : List α) : Bytes := joinLines 10 (records.map json.render)

theorem Json.file_append (json : Json α) (rs rs' : List α) :
    json.file (rs ++ rs') = json.file rs ++ json.file rs' := by
  rw [file, List.map_append, joinLines_append]
  rfl

theorem Json.file_singleton (json : Json α) (r : α) : json.file [r] = json.render r ++ [10] :=
  List.append_nil _

theorem Json.Framed.any (h : json.Framed) : json.FramedOn fun _ => True := h.on _

def recordLines (bytes : Bytes) : List Bytes := (textLines bytes).filter fun line => !isBlank line

section Files
variable (hjson : json.FramedOn P) {rs : List α} (hrs : ∀ r ∈ rs, P r)
include hjson hrs

theorem objectLines : ∀ line ∈ rs.map json.render, ObjectLine line := by
  intro line hline
  obtain ⟨r, hr, rfl⟩ := List.mem_map.1 hline
  exact hjson.object r (hrs r hr)

theorem recordLines_file (ht : 10 ∉ tail) :
    recordLines (json.file rs ++ tail) = rs.map json.render ++ if isBlank tail then []
      else [tail] :=
  ObjectLine.textLines_filter (objectLines hjson hrs) ht

theorem validUtf8_file (tail : Bytes) : validUtf8 (json.file rs ++ tail) = validUtf8 tail :=
  validUtf8_joinLines fun line hline => (objectLines hjson hrs line hline).utf8

theorem file_take (k : Nat) :
    (∃ init rest, rs = init ++ rest ∧ (json.file rs).take k = json.file init ∧
        wholeLines (rs.map json.render) k = init.length) ∨
      ∃ init r rest torn, rs = init ++ r :: rest ∧ torn ≠ [] ∧ torn <+: json.render r ∧
        (json.file rs).take k = json.file init ++ torn ∧
        wholeLines (rs.map json.render) k = init.length + if torn.length =
          (json.render r).length then 1 else 0 := by
  have hnil : [] ∉ rs.map json.render := by
    intro hm
    have hopens := (objectLines hjson hrs [] hm).opens
    cases hopens
  rcases @joinLines_take _ 10 _ hnil k with
    ⟨lines, rest, hlines, htake, hn⟩ | ⟨lines, line, rest, torn, hlines, hne, hp, htake, hn⟩
  · obtain ⟨init, rest, rfl, rfl, _⟩ := List.map_eq_append_iff.1 hlines
    exact .inl ⟨init, rest, rfl, htake, by rw [hn, List.length_map]⟩
  · obtain ⟨init, tail, rfl, rfl, htail⟩ := List.map_eq_append_iff.1 hlines
    obtain ⟨r, rest, rfl, rfl, _⟩ := List.map_eq_cons_iff.1 htail
    exact .inr ⟨init, r, rest, torn, rfl, hne, hp, htake, by rw [hn, List.length_map]⟩

end Files

section Torn
variable (hjson : json.FramedOn P) {torn : Bytes} {r : α} (hr : P r) (hp : torn <+: json.render r)
include hjson hr hp

theorem torn_single : 10 ∉ torn := fun hm => (hjson.object r hr).single (hp.mem hm)

variable (hne : torn ≠ [])
include hne

theorem torn_opens : torn.head? = some 0x7B := by
  obtain ⟨b, torn, rfl⟩ := List.exists_cons_of_ne_nil hne
  obtain ⟨rest, hrest⟩ := hp
  have hopens := (hjson.object r hr).opens
  rw [← hrest] at hopens
  exact hopens

theorem torn_not_blank : isBlank torn = false := by
  have hopens := torn_opens hjson hr hp hne
  cases torn with
  | nil => cases hopens
  | cons b torn =>
    rw [Option.some.inj hopens]
    exact isBlank_brace torn

theorem not_terminated_file (init : List α) : ¬ Terminated 10 (json.file init ++ torn) :=
  not_terminated_torn (torn_single hjson hr hp) hne

theorem recordLines_joined {a : α} {as init : List α} (has : ∀ r ∈ init ++ a :: as, P r)
    (hvalid : validUtf8 (json.file init ++ torn ++ json.file (a :: as)) = true) :
    ∃ line msg, json.parse line = .error msg ∧ isBlank line = false ∧
      recordLines (json.file init ++ torn ++ json.file (a :: as)) = init.map json.render ++
        line :: as.map json.render := by
  rw [List.forall_mem_append, List.forall_mem_cons] at has
  obtain ⟨hinit, ha, has⟩ := has
  obtain ⟨msg, hbad⟩ := hjson.joined r a torn hr ha hp hne
  have hbytes : json.file init ++ torn ++ json.file (a :: as) =
      joinLines 10 (init.map json.render ++ (torn ++ json.render a) :: as.map json.render) := by
    rw [joinLines_append, joinLines_cons, Json.file, Json.file, List.map_cons, joinLines_cons]
    simp only [List.append_assoc]
  rw [hbytes, ← List.append_nil (joinLines 10 _)] at hvalid
  have hobject : ObjectLine (torn ++ json.render a) := by
    refine ⟨?_, ?_, ?_, ?_⟩
    · rw [List.mem_append, not_or]
      exact ⟨torn_single hjson hr hp, (hjson.object a ha).single⟩
    · rw [List.head?_append, torn_opens hjson hr hp hne]
      rfl
    · rw [List.getLast?_append, (hjson.object a ha).closes]
      rfl
    · exact (validUtf8_lines hvalid).1 _ (List.mem_append_right _ List.mem_cons_self)
  have hobjects : ∀ line ∈ init.map json.render ++ (torn ++ json.render a) :: as.map json.render,
      ObjectLine line := by
    intro line hline
    rcases List.mem_append.1 hline with hline | hline
    · exact objectLines hjson hinit line hline
    · rcases List.mem_cons.1 hline with rfl | hline
      · exact hobject
      · exact objectLines hjson has line hline
  refine ⟨_, msg, hbad, hobject.not_blank, ?_⟩
  rw [hbytes, ← List.append_nil (joinLines 10 _), recordLines,
    ObjectLine.textLines_filter hobjects List.not_mem_nil]
  exact List.append_nil _

end Torn

end Records

section History
variable {π : Platform}

/-- `HistoryIndex::append` -/
def appendMarker (π : Platform) (history : Option Bytes) (marker : Marker) : Option Bytes :=
  some (appendLine history (π.markerJson.render marker))

/-- The markers are read as those of the lines that a cut left whole and those appended since. -/
def MarkersSurvive (π : Platform) (before after : List Marker) (k : Nat) : Prop :=
  markers π (after.foldl (appendMarker π) ((before.foldl (appendMarker π) none).map (·.take k))) =
    .ok (before.take (wholeLines (before.map π.markerJson.render) k) ++ after)

theorem foldl_appendMarker (ms : List Marker) (history : Option Bytes) :
    (ms.foldl (appendMarker π) history).getD [] = history.getD [] ++ π.markerJson.file ms := by
  induction ms generalizing history with
  | nil => exact (List.append_nil _).symm
  | cons m ms ih =>
    rw [List.foldl_cons, ih, appendMarker, Option.getD_some, appendLine, Json.file, Json.file,
      List.map_cons, joinLines_cons]
    simp only [List.append_assoc, List.cons_append, List.nil_append]

theorem parseMarkers_filter (lines : List Bytes) :
    parseMarkers π (lines.filter fun line => !isBlank line) = parseMarkers π lines := by
  induction lines with
  | nil => rfl
  | cons line lines ih =>
    rw [List.filter_cons]
    cases hblank : isBlank line with
    | true =>
      rw [parseMarkers, if_pos hblank]
      exact ih
    | false =>
      rw [Bool.not_false, if_pos rfl, parseMarkers, parseMarkers, hblank, ih]

theorem markers_eq (history : Option Bytes) : markers π history =
      if validUtf8 (history.getD []) then .ok (parseMarkers π (recordLines (history.getD [])))
      else .error (.io (π.utf8Error (history.getD []))) := by
  cases history with
  | none => rfl
  | some bytes =>
    rw [recordLines, parseMarkers_filter]
    rfl

theorem parseMarkers_bad (h : π.markerJson.parse line = .error msg)
    (hblank : isBlank line = false) : parseMarkers π (line :: lines) = [] := by
  rw [parseMarkers, hblank, h]
  rfl

section Fitting
variable (hjson : π.markerJson.FramedOn Marker.Fits)
include hjson

theorem parseMarkers_rendered (hms : ∀ m ∈ ms, m.Fits) (lines : List Bytes) :
    parseMarkers π (ms.map π.markerJson.render ++ lines) = ms ++ parseMarkers π lines := by
  induction ms with
  | nil => rfl
  | cons m ms ih =>
    obtain ⟨hm, hms⟩ := List.forall_mem_cons.1 hms
    rw [List.map_cons, List.cons_append, parseMarkers, (hjson.object m hm).not_blank,
      hjson.parse_render m hm, ih hms]
    rfl

theorem markers_file (hms : ∀ m ∈ ms, m.Fits) (h : history.getD [] = π.markerJson.file ms) :
    markers π history = .ok ms := by
  have hvalid := validUtf8_file hjson hms []
  have hlines : recordLines (π.markerJson.file ms ++ []) = _ :=
    recordLines_file hjson hms List.not_mem_nil
  rw [List.append_nil] at hvalid hlines
  rw [markers_eq, h, hvalid, hlines, parseMarkers_rendered hjson hms]
  exact congrArg Except.ok (List.append_nil ms)

theorem markers_torn (hinit : ∀ m ∈ init, m.Fits) (hm : m.Fits)
    (hp : torn <+: π.markerJson.render m) (hne : torn ≠ [])
    (h : history.getD [] = π.markerJson.file init ++ torn) : markers π history =
      if validUtf8 torn then .ok (init ++ if torn.length = (π.markerJson.render m).length then [m]
        else []) else .error (.io (π.utf8Error (π.markerJson.file init ++ torn))) := by
  have hlast : parseMarkers π [torn] = if torn.length = (π.markerJson.render m).length then [m]
      else [] := by
    split
    next hlen =>
      rw [hp.eq_of_length hlen, parseMarkers, (hjson.object m hm).not_blank,
        hjson.parse_render m hm]
      rfl
    next hlen =>
      obtain ⟨msg, hbad⟩ := hjson.torn m torn hm hp fun heq => hlen (congrArg List.length heq)
      exact parseMarkers_bad hbad (torn_not_blank hjson hm hp hne)
  rw [markers_eq, h, validUtf8_file hjson hinit,
    recordLines_file hjson hinit (torn_single hjson hm hp), torn_not_blank hjson hm hp hne,
      if_neg Bool.false_ne_true, parseMarkers_rendered hjson hinit, hlast]

end Fitting

theorem take_getD (file : Option Bytes) (k : Nat) :
    (file.map (·.take k)).getD [] = (file.getD []).take k := by
  cases file with
  | none => exact List.take_nil.symm
  | some bytes => rfl

theorem markersSurvive_iff (hjson : π.markerJson.FramedOn Marker.Fits) {before after : List Marker}
    (hfits : ∀ m ∈ before ++ after, m.Fits) (k : Nat) : MarkersSurvive π before after k ↔
      Terminated 10 ((π.markerJson.file before).take k) ∨
        after = [] ∧ validUtf8 ((π.markerJson.file before).take k) = true := by
  have hfile := foldl_appendMarker (π := π) before none
  rw [Option.getD_none, List.nil_append] at hfile
  have hafter :=
    foldl_appendMarker (π := π) after ((before.foldl (appendMarker π) none).map (·.take k))
  rw [take_getD, hfile] at hafter
  rw [MarkersSurvive]
  obtain ⟨hbefore, hnew⟩ := List.forall_mem_append.1 hfits
  rcases file_take hjson hbefore k with
    ⟨init, rest, rfl, htake, hn⟩ | ⟨init, m, rest, torn, rfl, hne, hp, htake, hn⟩
  · have hinit := (List.forall_mem_append.1 hbefore).1
    rw [htake, ← Json.file_append] at hafter
    rw [markers_file hjson (List.forall_mem_append.2 ⟨hinit, hnew⟩) hafter, hn, List.take_left,
      htake]
    exact iff_of_true rfl (.inl (terminated_joinLines _))
  · rw [List.forall_mem_append, List.forall_mem_cons] at hbefore
    obtain ⟨hinit, hm, _⟩ := hbefore
    rw [htake, or_iff_right (not_terminated_file hjson hm hp hne init), validUtf8_file hjson hinit,
      hn]
    rw [htake] at hafter
    cases after with
    | nil =>
      have hnil : π.markerJson.file [] = [] := rfl
      rw [hnil, List.append_nil] at hafter
      have htaken : (init ++ m :: rest).take (init.length +
          if torn.length = (π.markerJson.render m).length then 1 else 0) =
          init ++ if torn.length = (π.markerJson.render m).length then [m] else [] := by
        rw [List.take_length_add_append]
        split
        · rfl
        · rfl
      rw [markers_torn hjson hinit hm hp hne hafter, htaken, List.append_nil, and_iff_right rfl]
      split
      next hvalid => exact iff_of_true rfl hvalid
      next hvalid => exact iff_of_false nofun hvalid
    | cons a as =>
      refine iff_of_false ?_ (fun h => nomatch h.1)
      rw [markers_eq, hafter]
      split
      next hvalid =>
        obtain ⟨line, msg, hbad, hblank, hlines⟩ := recordLines_joined hjson hm hp hne
          (List.forall_mem_append.2 ⟨hinit, hnew⟩) hvalid
        rw [hlines, parseMarkers_rendered hjson hinit, parseMarkers_bad hbad hblank,
          List.append_nil]
        intro h
        have hlen := congrArg List.length (Except.ok.inj h)
        rw [List.take_length_add_append, List.length_append, List.length_append,
          List.length_cons] at hlen
        omega
      next => exact nofun

end History

namespace SyncFiles
variable {π : SyncPlatform} {files files' : SyncFiles} {held : List HeldSnapshot}

def recordAll (π : SyncPlatform) (files : SyncFiles) (records : List HeldSnapshot) :
    Except StorageError SyncFiles :=
  records.foldlM (fun files record => files.recordHeldSnapshot π record.id record.subsumed) files

def cut (files : SyncFiles) (k : Nat) : SyncFiles :=
  { files with held := files.held.map (·.take k) }

def Known (held : List HeldSnapshot) (record : HeldSnapshot) : Prop := ∃ h ∈ held, h.id = record.id

instance (held : List HeldSnapshot) (record : HeldSnapshot) : Decidable (Known held record) :=
  inferInstanceAs (Decidable (∃ h ∈ held, h.id = record.id))

def newRecords (held : List HeldSnapshot) : List HeldSnapshot → List HeldSnapshot
  | [] => []
  | record :: records =>
    if Known held record then newRecords held records
    else record :: newRecords (held ++ [record]) records

/-- The records are read as those of the lines that a cut left whole and those appended since. -/
def HeldSurvive (π : SyncPlatform) (before after : List HeldSnapshot) (k : Nat) : Prop :=
  let all := newRecords [] before
  let kept := all.take (wholeLines (all.map π.heldJson.render) k)
  ∃ files files', recordAll π ⟨∅, ∅, none⟩ before = .ok files ∧
    recordAll π (files.cut k) after = .ok files' ∧
    files'.heldSnapshots π = .ok (kept ++ newRecords kept after)

theorem heldSnapshots_eq (files : SyncFiles) : files.heldSnapshots π =
      if validUtf8 (files.held.getD []) then
        (recordLines (files.held.getD [])).mapM fun line => (π.heldJson.parse line).mapError .json
      else .error (.io (π.utf8Error (files.held.getD []))) := by
  rw [heldSnapshots]
  cases files.held with
  | none => rfl
  | some bytes => rfl

theorem recordHeldSnapshot_eq (h : files.heldSnapshots π = .ok held) (record : HeldSnapshot) :
    files.recordHeldSnapshot π record.id record.subsumed = .ok (if Known held record then files
        else { files with held := some (appendLine files.held (π.heldJson.render record)) }) := by
  have hany : (held.any fun h => h.id = record.id) = decide (Known held record) := by
    rw [Bool.eq_iff_iff, List.any_eq_true, decide_eq_true_iff]
    simp only [decide_eq_true_eq]
    rfl
  rw [recordHeldSnapshot, h]
  simp only [bind, Except.bind, hany, decide_eq_true_eq]
  split
  · rfl
  · rfl

theorem recordAll_known (h : files.heldSnapshots π = .ok held)
    (hall : ∀ record ∈ records, Known held record) :
    recordAll π files records = .ok files ∧ newRecords held records = [] := by
  induction records with
  | nil => exact ⟨rfl, rfl⟩
  | cons record records ih =>
    have hknown := hall record List.mem_cons_self
    rw [recordAll, List.foldlM_cons, recordHeldSnapshot_eq h, if_pos hknown, newRecords,
      if_pos hknown]
    exact ih fun x hx => hall x (List.mem_cons_of_mem record hx)

theorem recordAll_unreadable (h : files.heldSnapshots π = .error e)
    (hrun : recordAll π files records = .ok files') : files' = files := by
  cases records with
  | nil =>
    cases hrun
    rfl
  | cons record records =>
    rw [recordAll, List.foldlM_cons, recordHeldSnapshot, h] at hrun
    cases hrun

section Framed
variable (hjson : π.heldJson.Framed)
include hjson

theorem mapM_rendered (records : List HeldSnapshot) (lines : List Bytes) :
    (records.map π.heldJson.render ++ lines).mapM (fun line =>
      (π.heldJson.parse line).mapError StorageError.json) =
      (lines.mapM fun line => (π.heldJson.parse line).mapError StorageError.json).map (records ++
        ·) := by
  induction records with
  | nil =>
    rw [List.map_nil, List.nil_append]
    cases lines.mapM fun line => (π.heldJson.parse line).mapError StorageError.json with
    | error e => rfl
    | ok rs => rfl
  | cons record records ih =>
    rw [List.map_cons, List.cons_append, List.mapM_cons, hjson.parse_render, ih]
    cases lines.mapM fun line => (π.heldJson.parse line).mapError StorageError.json with
    | error e => rfl
    | ok rs => rfl

theorem heldSnapshots_file (h : files.held.getD [] = π.heldJson.file held ++ tail)
    (ht : 10 ∉ tail) : files.heldSnapshots π = if validUtf8 tail then
        ((if isBlank tail then [] else [tail]).mapM fun line =>
          (π.heldJson.parse line).mapError StorageError.json).map (held ++ ·)
      else .error (.io (π.utf8Error (π.heldJson.file held ++ tail))) := by
  have hany : ∀ record ∈ held, True := fun _ _ => trivial
  rw [heldSnapshots_eq, h, validUtf8_file hjson.any hany,
    recordLines_file hjson.any hany ht, mapM_rendered hjson]

theorem heldSnapshots_whole (h : files.held.getD [] = π.heldJson.file held) :
    files.heldSnapshots π = .ok held := by
  rw [← List.append_nil (π.heldJson.file held)] at h
  rw [heldSnapshots_file hjson h List.not_mem_nil]
  exact congrArg Except.ok (List.append_nil held)

theorem recordAll_whole (h : files.held.getD [] = π.heldJson.file held)
    (records : List HeldSnapshot) : ∃ files', recordAll π files records = .ok files' ∧
      files'.held.getD [] = π.heldJson.file (held ++ newRecords held records) := by
  induction records generalizing files held with
  | nil => exact ⟨files, rfl, by rw [h, newRecords, List.append_nil]⟩
  | cons record records ih =>
    rw [recordAll, List.foldlM_cons, recordHeldSnapshot_eq (heldSnapshots_whole hjson h),
      newRecords]
    by_cases hknown : Known held record
    · rw [if_pos hknown, if_pos hknown]
      exact ih h
    · rw [if_neg hknown, if_neg hknown]
      have hnext :
          ({ files with held := some (appendLine files.held (π.heldJson.render record)) } :
            SyncFiles).held.getD
          [] = π.heldJson.file (held ++ [record]) := by
        rw [Option.getD_some, appendLine, h, Json.file_append, Json.file_singleton]
      obtain ⟨files', hrun, hfile⟩ := ih hnext
      refine ⟨files', hrun, ?_⟩
      rw [hfile, List.append_assoc]
      rfl

section Torn
variable {init : List HeldSnapshot} {r : HeldSnapshot} {torn : Bytes}
  (hp : torn <+: π.heldJson.render r) (hne : torn ≠ [])
include hp hne

theorem heldSnapshots_torn (h : files.held.getD [] = π.heldJson.file init ++ torn)
    (hread : files.heldSnapshots π = .ok held) :
    torn = π.heldJson.render r ∧ held = init ++ [r] := by
  rw [heldSnapshots_file hjson h (torn_single hjson.any trivial hp),
    torn_not_blank hjson.any trivial hp hne, if_neg Bool.false_ne_true,
    List.mapM_cons] at hread
  split at hread
  next =>
    by_cases heq : torn = π.heldJson.render r
    · refine ⟨heq, ?_⟩
      rw [heq, hjson.parse_render] at hread
      exact (Except.ok.inj hread).symm
    · obtain ⟨msg, hbad⟩ := hjson.torn r torn hp heq
      rw [hbad] at hread
      cases hread
  next => cases hread

theorem recordAll_torn (h : files.held.getD [] = π.heldJson.file init ++ torn)
    (hrun : recordAll π files records = .ok files') (hread : files'.heldSnapshots π = .ok held) :
    torn = π.heldJson.render r ∧ files' = files ∧ ∀ record ∈ records,
      Known (init ++ [r]) record := by
  cases hnow : files.heldSnapshots π with
  | error e =>
    obtain rfl := recordAll_unreadable hnow hrun
    cases hnow.symm.trans hread
  | ok now =>
    obtain ⟨heq, rfl⟩ := heldSnapshots_torn hjson hp hne h hnow
    refine ⟨heq, ?_⟩
    induction records with
    | nil =>
      cases hrun
      exact ⟨rfl, nofun⟩
    | cons record records ih =>
      rw [recordAll, List.foldlM_cons, recordHeldSnapshot_eq hnow] at hrun
      by_cases hknown : Known (init ++ [r]) record
      · rw [if_pos hknown] at hrun
        obtain ⟨hsame, hall⟩ := ih hrun
        exact ⟨hsame, List.forall_mem_cons.2 ⟨hknown, hall⟩⟩
      · rw [if_neg hknown] at hrun
        -- the record stands on one line with the torn one, so that nothing is read any more
        cases hafter :
          ({ files with held := some (appendLine files.held (π.heldJson.render record)) } :
            SyncFiles).heldSnapshots π with
        | error e =>
          obtain rfl := recordAll_unreadable hafter hrun
          cases hafter.symm.trans hread
        | ok after =>
          have hbytes : appendLine files.held (π.heldJson.render record) =
              π.heldJson.file init ++ torn ++ π.heldJson.file [record] := by
            rw [appendLine, h, Json.file_singleton]
          rw [heldSnapshots_eq, Option.getD_some, hbytes] at hafter
          split at hafter
          next hvalid =>
            obtain ⟨line, msg, hbad, _, hlines⟩ :=
              recordLines_joined hjson.any trivial hp hne (fun _ _ => trivial) hvalid
            rw [hlines, mapM_rendered hjson, List.mapM_cons, hbad] at hafter
            cases hafter
          next => cases hafter

end Torn

theorem file_newline_iff {init rest : List HeldSnapshot} {r : HeldSnapshot}
    (hp : torn <+: π.heldJson.render r) :
    π.heldJson.file init ++ torn ++ [10] <+: π.heldJson.file (init ++ r :: rest) ↔
      torn = π.heldJson.render r := by
  rw [Json.file_append, List.append_assoc, List.prefix_append_right_inj, Json.file, List.map_cons,
    joinLines_cons]
  constructor
  · intro h
    exact ( append_sep_prefix (torn_single hjson.any trivial hp) (hjson.object r).single h).1
  · rintro rfl
    exact ⟨joinLines 10 (rest.map π.heldJson.render), by rw [List.append_assoc]; rfl⟩

theorem heldSnapshots_unended
    (h : files.held.getD [] = π.heldJson.file init ++ π.heldJson.render r) :
    files.heldSnapshots π = .ok (init ++ [r]) := by
  have hobject := hjson.object r
  rw [heldSnapshots_file hjson h hobject.single, hobject.utf8, hobject.not_blank,
    if_neg Bool.false_ne_true, List.mapM_cons, hjson.parse_render]
  rfl

theorem heldSurvive_iff (before after : List HeldSnapshot) (k : Nat) :
    HeldSurvive π before after k ↔ Terminated 10 ((π.heldJson.file (newRecords [] before)).take k) ∨
        (π.heldJson.file (newRecords [] before)).take k ++
          [10] <+: π.heldJson.file (newRecords [] before) ∧
          ∀ record ∈ after, Known ((newRecords [] before).take
            (wholeLines ((newRecords [] before).map π.heldJson.render) k)) record := by
  have hnone : (⟨∅, ∅, none⟩ : SyncFiles).held.getD [] = π.heldJson.file [] := rfl
  obtain ⟨files, hrun, hfile⟩ := recordAll_whole hjson hnone before
  have hcut : (files.cut k).held.getD [] = (π.heldJson.file (newRecords [] before)).take k := by
    rw [cut, take_getD, hfile, List.nil_append]
  rw [HeldSurvive]
  generalize newRecords [] before = all at hcut ⊢
  have hany : ∀ record ∈ all, True := fun _ _ => trivial
  rcases file_take hjson.any hany k with
    ⟨init, rest, rfl, htake, hn⟩ | ⟨init, r, rest, torn, rfl, hne, hp, htake, hn⟩
  · rw [htake] at hcut
    rw [hn, List.take_left, htake]
    obtain ⟨files', hafter, hread⟩ := recordAll_whole hjson hcut after
    exact iff_of_true ⟨files, files', hrun, hafter,
      heldSnapshots_whole hjson hread⟩ (.inl (terminated_joinLines _))
  · rw [htake] at hcut
    rw [htake, or_iff_right (not_terminated_file hjson.any trivial hp hne init),
      file_newline_iff hjson hp, hn]
    have hkept (heq : torn = π.heldJson.render r) : (init ++ r :: rest).take (init.length +
        if torn.length = (π.heldJson.render r).length then 1 else 0) = init ++ [r] := by
      rw [heq, if_pos rfl, List.take_length_add_append]
      rfl
    constructor
    · rintro ⟨files₀, files', hrun₀, hafter, hread⟩
      cases hrun.symm.trans hrun₀
      obtain ⟨heq, _, hall⟩ := recordAll_torn hjson hp hne hcut hafter hread
      rw [hkept heq]
      exact ⟨heq, hall⟩
    · rintro ⟨heq, hall⟩
      rw [hkept heq] at hall ⊢
      rw [heq] at hcut
      have hread := heldSnapshots_unended hjson hcut
      obtain ⟨hafter, hnew⟩ := recordAll_known hread hall
      exact ⟨files, files.cut k, hrun, hafter, by rw [hread, hnew, List.append_nil]⟩

/-- The markers and the held snapshots survive a cut of their files and what is appended afterwards
exactly if the cut was between two lines; or, of the markers, if nothing is appended and no
character was split; or, of the held snapshots, if only a line break was lost and nothing new is
recorded. -/
theorem sidecars_survive_iff (hmarker : π.markerJson.FramedOn Marker.Fits)
    {before after : List Marker} (hfits : ∀ m ∈ before ++ after, m.Fits)
    (recorded records : List HeldSnapshot) (k : Nat) : (MarkersSurvive π.toPlatform before after k ↔
        Terminated 10 ((π.markerJson.file before).take k) ∨
          after = [] ∧ validUtf8 ((π.markerJson.file before).take k) = true) ∧
      (HeldSurvive π recorded records k ↔
        Terminated 10 ((π.heldJson.file (newRecords [] recorded)).take k) ∨
          (π.heldJson.file (newRecords [] recorded)).take k ++
            [10] <+: π.heldJson.file (newRecords [] recorded) ∧
            ∀ record ∈ records, Known ((newRecords [] recorded).take
              (wholeLines ((newRecords [] recorded).map π.heldJson.render) k)) record) :=
  ⟨markersSurvive_iff hmarker hfits k, heldSurvive_iff hjson recorded records k⟩

end Framed

section Sample

/-- A marker and a held snapshot whose lines were torn after five bytes: the next marker is lost,
and no snapshot is read any more. -/
theorem sidecars_torn : ¬ MarkersSurvive snapshotBackend.toPlatform [⟨1, "", []⟩] [⟨2, "", []⟩] 5 ∧
      ¬ HeldSurvive snapshotBackend.toSyncPlatform [⟨"a", []⟩] [] 5 := by
  have hframed := plainJson_framed heldCode
  constructor
  · intro h
    rw [MarkersSurvive] at h
    have hread :
        (markers snapshotBackend.toPlatform ([⟨2, "",
          []⟩].foldl (appendMarker snapshotBackend.toPlatform)
        (([⟨1, "", []⟩].foldl (appendMarker snapshotBackend.toPlatform) none).map
          (·.take 5)))).toOption.map
          List.length = some 0 := by
      decide +kernel
    rw [h] at hread
    exact absurd hread (by decide +kernel)
  · rw [heldSurvive_iff (π := snapshotBackend.toSyncPlatform) hframed]
    decide +kernel

def sampleMarkers : List Marker := [⟨1, "", [(4, 1)]⟩, ⟨2, "", [(4, 2), (7, 1)]⟩]

theorem sampleMarkers_fit : ∀ m ∈ sampleMarkers, m.Fits := by
  intro m hm
  simp only [sampleMarkers, List.mem_cons, List.not_mem_nil, or_false] at hm
  rcases hm with rfl | rfl
  · exact ⟨by decide, by decide, by decide⟩
  · exact ⟨by decide, by decide, by decide⟩

theorem sidecars_survive_between_lines :
    MarkersSurvive snapshotBackend.toPlatform (sampleMarkers.take 1) (sampleMarkers.drop 1) 100 ∧
      HeldSurvive snapshotBackend.toSyncPlatform [⟨"a", []⟩] [⟨"b", []⟩] 100 := by
  have hfits : ∀ m ∈ sampleMarkers.take 1 ++ sampleMarkers.drop 1, m.Fits := sampleMarkers_fit
  obtain ⟨hmarkers, hheld⟩ :=
    sidecars_survive_iff (π := snapshotBackend.toSyncPlatform) (plainJson_framed heldCode)
      ((plainJson_framed markerCode).on _) hfits [⟨"a", []⟩] [⟨"b", []⟩] 100
  have hcut (m : Bytes) (h : m.length ≤ 100) (ht : Terminated 10 m) :
      Terminated 10 (m.take 100) := by
    rwa [List.take_of_length_le h]
  exact ⟨hmarkers.2 (.inl (hcut _ (by decide +kernel) (terminated_joinLines _))),
    hheld.2 (.inl (hcut _ (by decide +kernel) (terminated_joinLines _)))⟩

end Sample

end SyncFiles

end Roam
