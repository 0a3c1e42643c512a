import Roam.Library.Text

namespace Library
set_option autoImplicit true

theorem except_bind_eq_ok {x : Except ε α} {f : α → Except ε β} :
    (x >>= f) = .ok b ↔ ∃ a, x = .ok a ∧ f a = .ok b := by
  cases x with
  | error e =>
    constructor
    · intro h
      cases h
    · intro h
      obtain ⟨a, ha, _⟩ := h
      cases ha
  | ok a =>
    constructor
    · intro h
      exact ⟨a, rfl, h⟩
    · intro h
      obtain ⟨a', ha, hf⟩ := h
      cases ha
      exact hf

theorem mapError_eq_ok {x : Except ε α} {f : ε → ε'} : x.mapError f = .ok a ↔ x = .ok a := by
  cases x with
  | error e => simp only [Except.mapError, reduceCtorEq]
  | ok b => simp only [Except.mapError, Except.ok.injEq]

/-- How a log of text lines is read: the parser of a line and the check of what it parsed. -/
structure LineReader (Line Entry ε : Type) where
  parse : List UInt8 → Except ε Line
  check : Line → Except ε Entry

section
variable {Line Entry ε : Type} (r : LineReader Line Entry ε)

/-- Read the lines in order and stop at the first error. A last line that does not parse is
dropped when the text was cut inside it. -/
def LineReader.readLines (torn : Bool) : List (List UInt8) → Except ε (List Entry)
  | [] => .ok []
  | line :: rest =>
    match r.parse line with
    | .error e => if rest.isEmpty && torn then .ok [] else .error e
    | .ok parsed => do
      let entry ← r.check parsed
      let entries ← LineReader.readLines torn rest
      pure (entry :: entries)

def LineReader.readText (text : List UInt8) : Except ε (List Entry) :=
  r.readLines (!text.isEmpty && text.getLast? != some 10)
    ((textLines text).filter fun line => !isBlank line)

def LineReader.Reads (line : List UInt8) (entry : Entry) : Prop :=
  ∃ parsed, r.parse line = .ok parsed ∧ r.check parsed = .ok entry

end

section
variable {Line Entry ε : Type} {r : LineReader Line Entry ε}

theorem LineReader.readLines_cons (h : r.Reads line entry) :
    r.readLines torn (line :: lines) = (r.readLines torn lines).map (entry :: ·) := by
  obtain ⟨parsed, hp, hc⟩ := h
  simp only [readLines, hp, hc]
  cases r.readLines torn lines with
  | error e => rfl
  | ok entries => rfl

theorem LineReader.readLines_append (h : List.Forall₂ r.Reads lines entries) :
    r.readLines torn (lines ++ rest) = (r.readLines torn rest).map (entries ++ ·) := by
  induction h with
  | nil =>
    cases h : r.readLines torn rest with
    | error e => simp only [List.nil_append, h, Except.map]
    | ok es => simp only [List.nil_append, h, Except.map]
  | cons hr _ ih =>
    rw [List.cons_append, readLines_cons hr, ih]
    cases r.readLines torn rest with
    | error e => rfl
    | ok es => rfl

theorem LineReader.readLines_of_reads (h : List.Forall₂ r.Reads lines entries) :
    r.readLines torn lines = .ok entries := by
  have happ : r.readLines torn (lines ++ []) = (r.readLines torn []).map (entries ++ ·) :=
    readLines_append h
  simpa only [List.append_nil, readLines, Except.map] using happ

theorem LineReader.readLines_inv (h : r.readLines torn lines = .ok entries) :
    List.Forall₂ r.Reads lines entries ∨
      torn = true ∧ ∃ init last, lines = init ++ [last] ∧ List.Forall₂ r.Reads init entries := by
  induction lines generalizing entries with
  | nil =>
    cases h
    exact .inl .nil
  | cons line lines ih =>
    rw [readLines] at h
    cases hp : r.parse line with
    | error e =>
      rw [hp] at h
      cases lines with
      | nil =>
        cases torn with
        | false => cases h
        | true =>
          cases h
          exact .inr ⟨rfl, [], line, rfl, .nil⟩
      | cons line' lines' => cases h
    | ok parsed =>
      simp only [hp, except_bind_eq_ok] at h
      obtain ⟨entry, hc, rest, hl, h⟩ := h
      cases h
      have hr : r.Reads line entry := ⟨parsed, hp, hc⟩
      cases ih hl with
      | inl hall => exact .inl (.cons hr hall)
      | inr htorn =>
        obtain ⟨ht, init, last, rfl, hinit⟩ := htorn
        exact .inr ⟨ht, line :: init, last, rfl, .cons hr hinit⟩

theorem LineReader.Reads.unique (h : r.Reads line e) (h' : r.Reads line e') : e = e' := by
  obtain ⟨parsed, hp, hc⟩ := h
  obtain ⟨parsed', hp', hc'⟩ := h'
  obtain rfl : parsed = parsed' := Except.ok.inj (hp.symm.trans hp')
  exact Except.ok.inj (hc.symm.trans hc')

theorem exists_right_of_forall₂ {R : α → β → Prop} (h : List.Forall₂ R as bs) (ha : a ∈ as) :
    ∃ b ∈ bs, R a b := by
  induction h with
  | nil => cases ha
  | cons hr _ ih =>
    cases ha with
    | head => exact ⟨_, List.mem_cons_self, hr⟩
    | tail _ ha =>
      obtain ⟨b, hb, hr⟩ := ih ha
      exact ⟨b, List.mem_cons_of_mem _ hb, hr⟩

theorem LineReader.exists_line (h : List.Forall₂ r.Reads lines entries) (he : e ∈ entries) :
    ∃ line ∈ lines, r.Reads line e :=
  exists_right_of_forall₂ h.flip he

theorem LineReader.exists_entry (h : List.Forall₂ r.Reads lines entries) (hl : line ∈ lines) :
    ∃ e ∈ entries, r.Reads line e :=
  exists_right_of_forall₂ h hl

theorem LineReader.exists_entry_of_parse (h : r.readLines torn lines = .ok entries)
    (hl : line ∈ lines) (hp : r.parse line = .ok parsed) : ∃ e ∈ entries, r.Reads line e := by
  induction lines generalizing entries with
  | nil => cases hl
  | cons first lines ih =>
    rw [LineReader.readLines] at h
    cases hfirst : r.parse first with
    | error err =>
      rw [hfirst] at h
      cases hl with
      | head =>
        rw [hp] at hfirst
        cases hfirst
      | tail _ hl =>
        cases lines with
        | nil => cases hl
        | cons second lines => cases h
    | ok parsed' =>
      simp only [hfirst, except_bind_eq_ok] at h
      obtain ⟨entry, hc, rest, hrest, h⟩ := h
      cases h
      cases hl with
      | head => exact ⟨entry, List.mem_cons_self, parsed', hfirst, hc⟩
      | tail _ hl =>
        obtain ⟨e, he, hr⟩ := ih hrest hl
        exact ⟨e, List.mem_cons_of_mem _ he, hr⟩

theorem LineReader.readLines_mem (h : r.readLines torn lines = .ok entries) (he : e ∈ entries) :
    ∃ line ∈ lines, r.Reads line e := by
  cases readLines_inv h with
  | inl hall => exact exists_line hall he
  | inr htorn =>
    obtain ⟨_, init, last, rfl, hall⟩ := htorn
    obtain ⟨line, hl, hr⟩ := exists_line hall he
    exact ⟨line, List.mem_append_left _ hl, hr⟩

theorem LineReader.readLines_length (h : r.readLines torn lines = .ok entries) :
    entries.length ≤ lines.length := by
  cases readLines_inv h with
  | inl hall => exact hall.length_eq.ge
  | inr htorn =>
    obtain ⟨_, init, last, rfl, hall⟩ := htorn
    rw [← hall.length_eq, List.length_append]
    exact Nat.le_add_right _ _

theorem textLines_length (text : List UInt8) :
    (textLines text).length ≤ (text.splitOn 10).length := by
  obtain ⟨lines, tail, rfl, hl, ht⟩ := exists_joinLines 10 text
  rw [textLines_joinLines hl ht, splitOn_joinLines hl ht, List.length_append, List.length_append,
    List.length_map]
  split
  · exact Nat.add_le_add_left (Nat.zero_le _) _
  · exact Nat.le_refl _

theorem LineReader.readText_length (h : r.readText text = .ok entries) :
    entries.length ≤ (text.splitOn 10).length :=
  (readLines_length h).trans ((List.length_filter_le _ _).trans (textLines_length text))

/-- The lines of a text that are read: without carriage return, and not blank. -/
def keptLines (lines : List (List UInt8)) : List (List UInt8) :=
  (lines.map stripCr).filter fun line => !isBlank line

theorem keptLines_append (ls ls' : List (List UInt8)) :
    keptLines (ls ++ ls') = keptLines ls ++ keptLines ls' := by
  rw [keptLines, List.map_append, List.filter_append]
  rfl

structure ObjectLine (line : List UInt8) : Prop where
  single : 10 ∉ line
  opens : line.head? = some 0x7B
  closes : line.getLast? = some 0x7D
  utf8 : validUtf8 line = true

theorem ObjectLine.stripCr (h : ObjectLine line) : stripCr line = line := by
  rw [Library.stripCr, h.closes]
  rfl

theorem ObjectLine.not_blank (h : ObjectLine line) : isBlank line = false := by
  have ho := h.opens
  cases line with
  | nil => cases ho
  | cons b rest =>
    cases ho
    exact isBlank_brace rest

theorem ObjectLine.brace_mem (h : ObjectLine line) (hp : part <+: line) (hne : part ≠ []) :
    0x7B ∈ part := by
  cases part with
  | nil => exact absurd rfl hne
  | cons b part =>
    obtain ⟨rest, hrest⟩ := hp
    have hopens : some b = some 0x7B := by
      rw [← h.opens, ← hrest]
      rfl
    rw [Option.some.inj hopens]
    exact List.mem_cons_self

theorem ObjectLine.mem_kept (h : ObjectLine line) (hm : t ++ line ∈ lines) :
    t ++ line ∈ keptLines lines := by
  obtain ⟨init, rfl⟩ : ∃ init, line = init ++ [0x7D] := List.getLast?_eq_some_iff.1 h.closes
  have hstrip : Library.stripCr (t ++ (init ++ [0x7D])) = t ++ (init ++ [0x7D]) := by
    rw [Library.stripCr, ← List.append_assoc, List.getLast?_concat]
    rfl
  have hblank : isBlank (t ++ (init ++ [0x7D])) = false := by
    rw [← Bool.not_eq_true]
    intro hb
    exact isBlank_not_mem (by decide) (by decide) hb (List.mem_append_right _ (List.mem_append_right
      _ List.mem_cons_self))
  rw [keptLines, List.mem_filter, hblank]
  exact ⟨hstrip ▸ List.mem_map_of_mem hm, rfl⟩

theorem ObjectLine.keptLines (hl : ∀ line ∈ lines, ObjectLine line) : keptLines lines = lines := by
  have hstrip : lines.map Library.stripCr = lines := by
    rw [List.map_congr_left fun line h => (hl line h).stripCr, List.map_id']
  rw [Library.keptLines, hstrip, List.filter_eq_self]
  intro line h
  rw [(hl line h).not_blank]
  rfl

theorem ObjectLine.textLines_filter (hl : ∀ line ∈ lines, ObjectLine line) (ht : 10 ∉ tail) :
    (textLines (joinLines 10 lines ++ tail)).filter (fun line => !isBlank line) =
      lines ++ if isBlank tail then [] else [tail] := by
  have hkeep : (lines.map Library.stripCr).filter (fun line => !isBlank line) = lines :=
    ObjectLine.keptLines hl
  rw [textLines_joinLines (fun line h => (hl line h).single) ht, List.filter_append, hkeep]
  congr 1
  cases tail with
  | nil => rfl
  | cons b tail =>
    rw [if_neg (List.cons_ne_nil b tail), List.filter_singleton]
    cases isBlank (b :: tail) with
    | false => rfl
    | true => rfl

theorem joinLines_torn {lines : List (List UInt8)} {tail : List UInt8} (ht : 10 ∉ tail) :
    (!(joinLines 10 lines ++ tail).isEmpty &&
        (joinLines 10 lines ++ tail).getLast? != some 10) = !tail.isEmpty := by
  rcases List.eq_nil_or_concat' tail with rfl | ⟨init, b, rfl⟩
  · rcases List.eq_nil_or_concat' lines with rfl | ⟨ls, line, rfl⟩
    · rfl
    · simp [joinLines]
  · have hb : (some b != some (10 : UInt8)) = true := by
      rw [bne_iff_ne]
      intro h
      exact ht (Option.some.inj h ▸ List.mem_append_right init List.mem_cons_self)
    have hne (l : List UInt8) : (l ++ [b]).isEmpty = false :=
      List.isEmpty_eq_false_iff.2 (List.append_ne_nil_of_right_ne_nil l (List.cons_ne_nil b []))
    rw [← List.append_assoc, List.getLast?_concat, hb, hne, hne]
    rfl

/-- How a text is read: its kept whole lines in order, then its tail unless that is blank. -/
theorem LineReader.readText_joinLines (hl : ∀ line ∈ lines, 10 ∉ line) (ht : 10 ∉ tail) :
    r.readText (joinLines 10 lines ++ tail) = r.readLines (!tail.isEmpty)
        (keptLines lines ++ (if tail = [] then [] else [tail]).filter fun line =>
          !isBlank line) := by
  rw [readText, joinLines_torn ht, textLines_joinLines hl ht, List.filter_append]
  rfl

theorem LineReader.readText_eq_ok_iff (hl : ∀ line ∈ lines, 10 ∉ line) :
    r.readText (joinLines 10 lines) = .ok entries ↔
      List.Forall₂ r.Reads (keptLines lines) entries := by
  have hread := r.readText_joinLines hl (@List.not_mem_nil UInt8 10)
  rw [if_pos rfl, List.filter_nil, List.append_nil, List.append_nil] at hread
  rw [hread]
  constructor
  · intro h
    cases readLines_inv h with
    | inl h => exact h
    | inr h => cases h.1
  · exact readLines_of_reads

theorem LineReader.readText_extend (ht : Terminated 10 text) (hp : text <+: text')
    (h : r.readText text = .ok entries) (h' : r.readText text' = .ok entries') :
    entries <+: entries' := by
  obtain ⟨lines, hl, rfl⟩ := ht.exists_lines
  obtain ⟨rest, rfl⟩ := hp
  obtain ⟨lines', tail, rfl, hl', htail⟩ := exists_joinLines 10 rest
  have hall : ∀ line ∈ lines ++ lines', 10 ∉ line := List.forall_mem_append.2 ⟨hl, hl'⟩
  rw [readText_eq_ok_iff hl] at h
  rw [← List.append_assoc, ← joinLines_append, readText_joinLines hall htail, keptLines_append,
    List.append_assoc, readLines_append h] at h'
  cases hrest : r.readLines (!tail.isEmpty) (keptLines lines' ++
      (if tail = [] then [] else [tail]).filter fun line => !isBlank line) with
  | error e =>
    rw [hrest] at h'
    cases h'
  | ok more =>
    rw [hrest] at h'
    cases h'
    exact List.prefix_append entries more

theorem LineReader.readText_of_reads (hl : ∀ line ∈ lines, ObjectLine line)
    (h : List.Forall₂ r.Reads lines entries) : r.readText (joinLines 10 lines) = .ok entries := by
  rw [readText_eq_ok_iff fun line h => (hl line h).single, ObjectLine.keptLines hl]
  exact h

end

section Appending
variable {Line Entry ε : Type} {r : LineReader Line Entry ε}

theorem ObjectLine.keptLines_append (h : ObjectLine line) (text : List UInt8) :
    Library.keptLines [text ++ line] = [text ++ line] := by
  have hmem := h.mem_kept (List.mem_singleton_self (text ++ line))
  rw [Library.keptLines, List.map_singleton, List.filter_singleton] at hmem ⊢
  cases hblank : !isBlank (Library.stripCr (text ++ line)) with
  | true =>
    rw [hblank] at hmem
    exact congrArg (fun l => [l]) (List.mem_singleton.1 hmem).symm
  | false =>
    rw [hblank] at hmem
    cases hmem

/-- A line that does not read together with a text before it, unless that text is blank. -/
def LineReader.StandsAlone (r : LineReader Line Entry ε) (line : List UInt8)
    (entry : Entry) : Prop :=
  ∀ text, (∃ err, r.parse (text ++ line) = .error err) ∨
    isBlank text = true ∧ r.Reads (text ++ line) entry

theorem joinLines_concat (lines : List (List UInt8)) (tail line : List UInt8) :
    joinLines 10 lines ++ tail ++ (line ++ [10]) = joinLines 10 (lines ++ [tail ++ line]) := by
  rw [joinLines_append, joinLines_cons, List.append_assoc, List.append_assoc]
  rfl

theorem ObjectLine.single_append (h : ObjectLine line) (hl : ∀ l ∈ lines, 10 ∉ l) (ht : 10 ∉ tail) :
    ∀ l ∈ lines ++ [tail ++ line], 10 ∉ l := by
  intro l hmem
  rcases List.mem_append.1 hmem with hmem | hmem
  · exact hl l hmem
  · rw [List.mem_singleton.1 hmem]
    exact fun h10 => (List.mem_append.1 h10).elim ht h.single

/-- If a text reads before and after a line was appended to it, it has gained the entry of that
line: what the text ended with is blank. -/
theorem LineReader.readText_appended (ho : ObjectLine line) (ha : r.StandsAlone line entry)
    (h : r.readText text = .ok entries) (h' : r.readText (text ++ (line ++ [10])) = .ok entries') :
    entries' = entries ++ [entry] := by
  obtain ⟨lines, tail, rfl, hl, ht⟩ := exists_joinLines 10 text
  rw [joinLines_concat, readText_eq_ok_iff (ho.single_append hl ht), Library.keptLines_append,
    ho.keptLines_append] at h'
  have hinit := (List.forall₂_take_append entries' _ _ h'.flip).flip
  have hlast := (List.forall₂_drop_append entries' _ _ h'.flip).flip
  rw [← List.take_append_drop (Library.keptLines lines).length entries']
  generalize entries'.drop (Library.keptLines lines).length = last at hlast ⊢
  cases hlast with
  | cons hread hnil =>
    cases hnil
    rcases ha tail with ⟨err, herr⟩ | ⟨hblank, halone⟩
    · obtain ⟨parsed, hparse, _⟩ := hread
      rw [herr] at hparse
      cases hparse
    · have hrest : (if tail = [] then [] else [tail]).filter (fun line => !isBlank line) = [] := by
        split
        · rfl
        · rw [List.filter_singleton, hblank]
          rfl
      rw [readText_joinLines hl ht, hrest, List.append_nil, readLines_of_reads hinit] at h
      rw [Except.ok.inj h, LineReader.Reads.unique hread halone]

theorem LineReader.readText_append_ok (ho : ObjectLine line) (hr : r.Reads line entry)
    (ht : Terminated 10 text) (h : r.readText text = .ok entries) :
    r.readText (text ++ (line ++ [10])) = .ok (entries ++ [entry]) := by
  obtain ⟨lines, hl, rfl⟩ := ht.exists_lines
  have hcat := joinLines_concat lines [] line
  rw [List.append_nil, List.nil_append] at hcat
  have hkept := ho.keptLines_append []
  rw [List.nil_append] at hkept
  have hall : ∀ l ∈ lines ++ [line], 10 ∉ l := by
    rw [List.forall_mem_append, List.forall_mem_singleton]
    exact ⟨hl, ho.single⟩
  rw [readText_eq_ok_iff hl] at h
  rw [hcat, readText_eq_ok_iff hall, Library.keptLines_append, hkept]
  exact List.rel_append h (.cons hr .nil)

end Appending
end Library
