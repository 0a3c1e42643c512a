import Mathlib

namespace Library
set_option autoImplicit true

section Lines
variable {α : Type} {sep : α}

def joinLines (sep : α) (lines : List (List α)) : List α := lines.flatMap (· ++ [sep])

theorem joinLines_cons (line : List α) (lines : List (List α)) :
    joinLines sep (line :: lines) = line ++ sep :: joinLines sep lines := by
  simp only [joinLines, List.flatMap_cons, List.append_assoc, List.singleton_append]

theorem joinLines_append (ls ls' : List (List α)) :
    joinLines sep (ls ++ ls') = joinLines sep ls ++ joinLines sep ls' :=
  List.flatMap_append

theorem splitOn_joinLines [DecidableEq α] {lines : List (List α)} (hl : ∀ line ∈ lines, sep ∉ line)
    (ht : sep ∉ tail) : (joinLines sep lines ++ tail).splitOn sep = lines ++ [tail] := by
  induction lines with
  | nil => exact List.splitOn_eq_singleton ht
  | cons line lines ih =>
    rw [joinLines_cons, List.append_assoc, List.cons_append,
      List.splitOn_append_cons_self_of_not_mem (hl line List.mem_cons_self),
      ih fun l h => hl l (List.mem_cons_of_mem line h), List.cons_append]

theorem joinLines_inj [DecidableEq α] {lines lines' : List (List α)}
    (hl : ∀ line ∈ lines, sep ∉ line)
    (hl' : ∀ line ∈ lines', sep ∉ line) (h : joinLines sep lines = joinLines sep lines') :
    lines = lines' := by
  have hsplit := splitOn_joinLines hl (@List.not_mem_nil α sep)
  have hsplit' := splitOn_joinLines hl' (@List.not_mem_nil α sep)
  rw [h, hsplit'] at hsplit
  exact (List.append_cancel_right hsplit).symm

theorem exists_joinLines (sep : α) (text : List α) :
    ∃ lines tail, text = joinLines sep lines ++ tail ∧ (∀ line ∈ lines, sep ∉ line) ∧
      sep ∉ tail := by
  induction text with
  | nil => exact ⟨[], [], rfl, fun _ h => absurd h List.not_mem_nil, List.not_mem_nil⟩
  | cons a text ih =>
    obtain ⟨lines, tail, rfl, hl, ht⟩ := ih
    by_cases ha : sep = a
    · refine ⟨[] :: lines, tail, by rw [joinLines_cons, ha]; rfl, ?_, ht⟩
      intro line h
      cases h with
      | head => exact List.not_mem_nil
      | tail _ h => exact hl line h
    · cases lines with
      | nil =>
        refine ⟨[], a :: tail, rfl, fun _ h => absurd h List.not_mem_nil, ?_⟩
        intro h
        cases h with
        | head => exact ha rfl
        | tail _ h => exact ht h
      | cons line lines =>
        refine ⟨(a :: line) :: lines, tail, by simp only [joinLines_cons, List.cons_append], ?_, ht⟩
        intro l h
        cases h with
        | head =>
          intro h
          cases h with
          | head => exact ha rfl
          | tail _ h => exact hl line List.mem_cons_self h
        | tail _ h => exact hl l (List.mem_cons_of_mem line h)

theorem append_sep_prefix {line line' rest rest' : List α} (hl : sep ∉ line) (hl' : sep ∉ line')
    (h : line ++ sep :: rest <+: line' ++ sep :: rest') : line = line' ∧ rest <+: rest' := by
  induction line generalizing line' with
  | nil =>
    cases line' with
    | nil => exact ⟨rfl, (List.cons_prefix_cons.1 h).2⟩
    | cons b line' =>
      rw [(List.cons_prefix_cons.1 h).1] at hl'
      exact absurd List.mem_cons_self hl'
  | cons a line ih =>
    cases line' with
    | nil =>
      rw [(List.cons_prefix_cons.1 h).1] at hl
      exact absurd List.mem_cons_self hl
    | cons b line' =>
      obtain ⟨hab, h⟩ := List.cons_prefix_cons.1 h
      obtain ⟨he, hr⟩ := ih (fun h => hl (List.mem_cons_of_mem a h))
        (fun h => hl' (List.mem_cons_of_mem b h)) h
      exact ⟨by rw [hab, he], hr⟩

theorem prefix_of_joinLines_prefix {lines lines' : List (List α)}
    (hl : ∀ line ∈ lines, sep ∉ line) (hl' : ∀ line ∈ lines', sep ∉ line)
    (h : joinLines sep lines <+: joinLines sep lines') : lines <+: lines' := by
  induction lines generalizing lines' with
  | nil => exact List.nil_prefix
  | cons line lines ih =>
    cases lines' with
    | nil =>
      rw [joinLines_cons] at h
      have h := List.prefix_nil.1 h
      simp only [List.append_eq_nil_iff, reduceCtorEq, and_false] at h
    | cons line' lines' =>
      rw [joinLines_cons, joinLines_cons] at h
      obtain ⟨rfl, hr⟩ := append_sep_prefix (hl line List.mem_cons_self)
        (hl' line' List.mem_cons_self) h
      exact List.cons_prefix_cons.2 ⟨rfl, ih (fun l h => hl l (List.mem_cons_of_mem line h))
        (fun l h => hl' l (List.mem_cons_of_mem line h)) hr⟩

theorem joinLines_injective {lines lines' : List (List α)} (hl : ∀ line ∈ lines, sep ∉ line)
    (hl' : ∀ line ∈ lines', sep ∉ line) (h : joinLines sep lines = joinLines sep lines') :
    lines = lines' := by
  have hp := prefix_of_joinLines_prefix hl hl' (h ▸ List.prefix_rfl)
  have hp' := prefix_of_joinLines_prefix hl' hl (h ▸ List.prefix_rfl)
  exact hp.eq_of_length (hp.length_le.antisymm hp'.length_le)

def Terminated (sep : α) (text : List α) : Prop := text = [] ∨ text.getLast? = some sep

theorem terminated_joinLines (lines : List (List α)) : Terminated sep (joinLines sep lines) := by
  cases List.eq_nil_or_concat' lines with
  | inl h =>
    subst h
    exact .inl rfl
  | inr h =>
    obtain ⟨init, line, rfl⟩ := h
    refine .inr ?_
    rw [joinLines_append, joinLines_cons, ← List.append_assoc]
    exact List.getLast?_concat ..

theorem Terminated.exists_lines (h : Terminated sep text) :
    ∃ lines, (∀ line ∈ lines, sep ∉ line) ∧ text = joinLines sep lines := by
  obtain ⟨lines, tail, rfl, hl, ht⟩ := exists_joinLines sep text
  cases List.eq_nil_or_concat' tail with
  | inl htail =>
    subst htail
    exact ⟨lines, hl, List.append_nil _⟩
  | inr htail =>
    obtain ⟨init, b, rfl⟩ := htail
    cases h with
    | inl h => simp only [List.append_eq_nil_iff, List.cons_ne_nil, and_false] at h
    | inr h =>
      rw [← List.append_assoc, List.getLast?_concat, Option.some.injEq] at h
      exact absurd (List.mem_append_right init (List.mem_singleton.2 h.symm)) ht

theorem Terminated.append_suffix (ha : Terminated sep as) (hb : Terminated sep bs)
    (hd : ds <:+ bs) : Terminated sep (as ++ ds) := by
  cases List.eq_nil_or_concat' ds with
  | inl h =>
    rw [h, List.append_nil]
    exact ha
  | inr h =>
    obtain ⟨init, d, rfl⟩ := h
    obtain ⟨front, rfl⟩ := hd
    refine .inr ?_
    rw [← List.append_assoc, List.getLast?_concat]
    cases hb with
    | inl hb => simp only [List.append_eq_nil_iff, List.cons_ne_nil, and_false] at hb
    | inr hb => rwa [← List.append_assoc, List.getLast?_concat] at hb

theorem joinLines_split {lines : List (List α)} (hl : ∀ line ∈ lines, sep ∉ line)
    (ha : Terminated sep as) (h : joinLines sep lines = as ++ bs) :
    ∃ ls ls', lines = ls ++ ls' ∧ as = joinLines sep ls ∧ bs = joinLines sep ls' := by
  obtain ⟨ls, hls, rfl⟩ := ha.exists_lines
  obtain ⟨ls', rfl⟩ := prefix_of_joinLines_prefix hls hl ⟨bs, h.symm⟩
  rw [joinLines_append] at h
  exact ⟨ls, ls', rfl, rfl, (List.append_cancel_left h).symm⟩

theorem joinLines_suffix {lines : List (List α)} (hl : ∀ line ∈ lines, sep ∉ line)
    (hm : ∀ line ∈ m :: ms, sep ∉ line)
    (h : joinLines sep lines = front ++ joinLines sep (m :: ms)) :
    ∃ init t, lines = init ++ (t ++ m) :: ms := by
  obtain ⟨init, t, rfl, hinit, ht⟩ := exists_joinLines sep front
  refine ⟨init, t, joinLines_injective hl ?_ ?_⟩
  · intro line hline
    cases List.mem_append.1 hline with
    | inl hline => exact hinit line hline
    | inr hline =>
      cases hline with
      | head =>
        intro hmem
        cases List.mem_append.1 hmem with
        | inl hmem => exact ht hmem
        | inr hmem => exact hm m List.mem_cons_self hmem
      | tail _ hline => exact hm line (List.mem_cons_of_mem m hline)
  · rw [h, joinLines_append, joinLines_cons, joinLines_cons, List.append_assoc, List.append_assoc]

/-- How many of the lines lie whole within the first `k` places of their text, whether or not
the terminator of the last one does. -/
def wholeLines : List (List α) → Nat → Nat
  | [], _ => 0
  | line :: lines, k => if line.length ≤ k then wholeLines lines (k - (line.length + 1)) + 1 else 0

theorem wholeLines_zero {lines : List (List α)} (h : [] ∉ lines) : wholeLines lines 0 = 0 := by
  cases lines with
  | nil => rfl
  | cons line lines =>
    cases line with
    | nil => exact absurd List.mem_cons_self h
    | cons a line => rfl

theorem joinLines_take {lines : List (List α)} (h : [] ∉ lines) (k : Nat) :
    (∃ init rest, lines = init ++ rest ∧ (joinLines sep lines).take k = joinLines sep init ∧
        wholeLines lines k = init.length) ∨
      ∃ init line rest torn, lines = init ++ line :: rest ∧ torn ≠ [] ∧ torn <+: line ∧
        (joinLines sep lines).take k = joinLines sep init ++ torn ∧
        wholeLines lines k = init.length + if torn.length = line.length then 1 else 0 := by
  induction lines generalizing k with
  | nil => exact .inl ⟨[], [], rfl, List.take_nil, rfl⟩
  | cons line lines ih =>
    have hrest : [] ∉ lines := fun hm => h (List.mem_cons_of_mem line hm)
    rw [joinLines_cons]
    by_cases hk : k ≤ line.length
    · rw [List.take_append_of_le_length hk]
      by_cases hzero : k = 0
      · rw [hzero]
        exact .inl ⟨[], line :: lines, rfl, rfl, wholeLines_zero h⟩
      · have hlen : (line.take k).length = k := List.length_take_of_le hk
        refine .inr ⟨[], line, lines, line.take k, rfl, ?_, List.take_prefix k line, rfl, ?_⟩
        · intro hnil
          rw [hnil] at hlen
          exact hzero hlen.symm
        · rw [wholeLines, hlen]
          by_cases heq : k = line.length
          · have hsub : k - (line.length + 1) = 0 := by omega
            rw [if_pos heq.ge, if_pos heq, hsub, wholeLines_zero hrest]
            rfl
          · rw [if_neg (by omega), if_neg heq]
            rfl
    · obtain ⟨j, rfl⟩ : ∃ j, k = line.length + (j + 1) := ⟨k - line.length - 1, by omega⟩
      have htake : (line ++ sep :: joinLines sep lines).take (line.length + (j + 1)) =
          line ++ sep :: (joinLines sep lines).take j := by
        rw [List.take_length_add_append, List.take_succ_cons]
      have hwhole :
          wholeLines (line :: lines) (line.length + (j + 1)) = wholeLines lines j + 1 := by
        rw [wholeLines, if_pos (Nat.le_add_right _ _)]
        congr 2
        omega
      rw [htake, hwhole]
      cases ih hrest j with
      | inl hclean =>
        obtain ⟨init, rest, rfl, hcut, hn⟩ := hclean
        exact .inl ⟨line :: init, rest, rfl, by rw [hcut, joinLines_cons], by rw [hn]; rfl⟩
      | inr htorn =>
        obtain ⟨init, next, rest, torn, rfl, hne, hp, hcut, hn⟩ := htorn
        refine .inr ⟨line :: init, next, rest, torn, rfl, hne, hp, ?_, ?_⟩
        · rw [hcut, joinLines_cons, List.append_assoc, List.cons_append]
        · rw [hn, List.length_cons]
          omega

end Lines

section Utf8

/-- A reader of UTF-8 between bytes: how many continuation bytes it expects, and the range of
the next one. -/
structure Utf8State where
  owed : Nat
  low : UInt8
  high : UInt8
deriving DecidableEq

def Utf8State.start : Utf8State := ⟨0, 0x80, 0xBF⟩

def utf8Lead (b : UInt8) : Option Utf8State :=
  if b < 0x80 then some .start
  else if 0xC2 ≤ b ∧ b ≤ 0xDF then some ⟨1, 0x80, 0xBF⟩
  else if b = 0xE0 then some ⟨2, 0xA0, 0xBF⟩
  else if b = 0xED then some ⟨2, 0x80, 0x9F⟩
  else if 0xE1 ≤ b ∧ b ≤ 0xEF then some ⟨2, 0x80, 0xBF⟩
  else if b = 0xF0 then some ⟨3, 0x90, 0xBF⟩
  else if 0xF1 ≤ b ∧ b ≤ 0xF3 then some ⟨3, 0x80, 0xBF⟩
  else if b = 0xF4 then some ⟨3, 0x80, 0x8F⟩
  else none

def utf8Step (q : Utf8State) (b : UInt8) : Option Utf8State :=
  if q.owed = 0 then utf8Lead b
  else if q.low ≤ b ∧ b ≤ q.high then some ⟨q.owed - 1, 0x80, 0xBF⟩
  else none

/-- `std::str::from_utf8` succeeds. -/
def validUtf8 (bytes : List UInt8) : Bool := bytes.foldlM utf8Step .start == some .start

theorem validUtf8_iff : validUtf8 bytes = true ↔ bytes.foldlM utf8Step .start = some .start :=
  beq_iff_eq

theorem validUtf8_append (ha : validUtf8 as = true) : validUtf8 (as ++ bs) = validUtf8 bs := by
  rw [validUtf8_iff] at ha
  rw [validUtf8, validUtf8, List.foldlM_append, ha]
  rfl

theorem validUtf8_joinLines (h : ∀ line ∈ lines, validUtf8 line = true) :
    validUtf8 (joinLines 10 lines ++ tail) = validUtf8 tail := by
  induction lines with
  | nil => rfl
  | cons line lines ih =>
    rw [joinLines_cons, List.append_assoc, validUtf8_append (h line List.mem_cons_self)]
    exact ih fun l hl => h l (List.mem_cons_of_mem line hl)

theorem validUtf8_ascii (h : ∀ b ∈ bytes, b < 0x80) : validUtf8 bytes = true := by
  rw [validUtf8_iff]
  induction bytes with
  | nil => rfl
  | cons b bytes ih =>
    have hb : utf8Step .start b = some .start := by
      simp only [utf8Step, Utf8State.start, ↓reduceIte, utf8Lead, h b List.mem_cons_self]
    rw [List.foldlM_cons, hb]
    exact ih fun b hb => h b (List.mem_cons_of_mem _ hb)

def Utf8State.Good (q : Utf8State) : Prop := 0x80 ≤ q.low ∧ (q.owed = 0 → q = .start)

theorem Utf8State.Good.start : Utf8State.start.Good := ⟨by decide, fun _ => rfl⟩

theorem Utf8State.Good.lead (h : utf8Lead b = some q) : q.Good := by
  have hmore {n : Nat} {low high : UInt8} (hlow : 0x80 ≤ low) : Good ⟨n + 1, low, high⟩ :=
    ⟨hlow, nofun⟩
  rw [utf8Lead] at h
  split_ifs at h
  all_goals cases h
  · exact .start
  all_goals exact hmore (by decide)

theorem Utf8State.Good.step (h : utf8Step q b = some q') : q'.Good := by
  rw [utf8Step] at h
  split_ifs at h with howed hrange
  · exact .lead h
  · cases h
    exact ⟨UInt8.le_refl _, congrArg (Utf8State.mk · 0x80 0xBF)⟩

theorem Utf8State.Good.foldlM {q q' : Utf8State} {bytes : List UInt8} (hq : q.Good)
    (h : bytes.foldlM utf8Step q = some q') : q'.Good := by
  induction bytes generalizing q with
  | nil =>
    cases h
    exact hq
  | cons b bytes ih =>
    obtain ⟨mid, hstep, hrest⟩ := Option.bind_eq_some_iff.1 h
    exact ih (.step hstep) hrest

theorem validUtf8_split (hb : b < 0x80) (h : validUtf8 (as ++ b :: bs) = true) :
    validUtf8 as = true ∧ validUtf8 bs = true := by
  rw [validUtf8_iff, List.foldlM_append] at h
  obtain ⟨q, has, h⟩ := Option.bind_eq_some_iff.1 h
  obtain ⟨q', hstep, hbs⟩ := Option.bind_eq_some_iff.1 h
  have hgood : q.Good := Utf8State.Good.start.foldlM has
  have howed : q.owed = 0 := by
    by_contra hne
    rw [utf8Step, if_neg hne] at hstep
    split at hstep
    next hrange => exact absurd (UInt8.le_trans hgood.1 hrange.1) (UInt8.not_le.2 hb)
    next => cases hstep
  rw [hgood.2 howed] at has hstep
  have hlead : utf8Step .start b = some .start := by
    simp only [utf8Step, Utf8State.start, ↓reduceIte, utf8Lead, hb]
  cases hlead ▸ hstep
  exact ⟨validUtf8_iff.2 has, validUtf8_iff.2 hbs⟩

theorem validUtf8_lines {lines : List (List UInt8)}
    (h : validUtf8 (joinLines 10 lines ++ tail) = true) :
    (∀ line ∈ lines, validUtf8 line = true) ∧ validUtf8 tail = true := by
  induction lines with
  | nil => exact ⟨List.forall_mem_nil _, h⟩
  | cons line lines ih =>
    rw [joinLines_cons, List.append_assoc, List.cons_append] at h
    obtain ⟨hline, hrest⟩ := validUtf8_split (by decide) h
    exact ⟨List.forall_mem_cons.2 ⟨hline, (ih hrest).1⟩, (ih hrest).2⟩

/-- The three-byte characters that `char::is_whitespace` accepts. -/
def isWideSpace (a b c : UInt8) : Bool :=
  a = 0xE1 && b = 0x9A && c = 0x80 ||
    a = 0xE2 && b = 0x80 && (0x80 ≤ c && c ≤ 0x8A || c = 0xA8 || c = 0xA9 || c = 0xAF) ||
    a = 0xE2 && b = 0x81 && c = 0x9F || a = 0xE3 && b = 0x80 && c = 0x80

/-- `str::trim` leaves nothing of a valid text. -/
def isBlank : List UInt8 → Bool
  | [] => true
  | a :: rest =>
    if 9 ≤ a ∧ a ≤ 13 ∨ a = 32 then isBlank rest
    else
      match rest with
      | [] => false
      | b :: rest =>
        if a = 0xC2 ∧ (b = 0x85 ∨ b = 0xA0) then isBlank rest
        else
          match rest with
          | [] => false
          | c :: rest => if isWideSpace a b c then isBlank rest else false

theorem isBlank_brace (rest : List UInt8) : isBlank (0x7B :: rest) = false := by
  cases rest with
  | nil => rfl
  | cons b rest =>
    cases rest with
    | nil => rfl
    | cons c rest => rfl

theorem isWideSpace_high (h : isWideSpace a b c = true) : 0x80 ≤ a ∧ 0x80 ≤ b ∧ 0x80 ≤ c := by
  simp only [isWideSpace, Bool.or_eq_true, Bool.and_eq_true, decide_eq_true_eq] at h
  rcases h with ((⟨⟨rfl, rfl⟩, rfl⟩ | ⟨⟨rfl, rfl⟩, hc⟩) | ⟨⟨rfl, rfl⟩, rfl⟩) | ⟨⟨rfl, rfl⟩, rfl⟩
  · decide
  · refine ⟨by decide, by decide, ?_⟩
    rcases hc with ((⟨hlow, _⟩ | rfl) | rfl) | rfl
    · exact hlow
    all_goals decide
  · decide
  · decide

theorem isBlank_not_mem (hlow : 0x20 < x) (hhigh : x < 0x80) (h : isBlank line = true) :
    x ∉ line := by
  have hne {y : UInt8} (hy : 0x80 ≤ y) : x ≠ y := by
    rintro rfl
    exact absurd hy (UInt8.not_le.2 hhigh)
  fun_induction isBlank line with
  | case1 => exact List.not_mem_nil
  | case2 a rest ha ih =>
    intro hm
    cases hm with
    | head =>
      rcases ha with ⟨_, ha⟩ | rfl
      · exact absurd (UInt8.lt_of_lt_of_le hlow ha) (by decide)
      · exact absurd hlow (by decide)
    | tail _ hm => exact ih h hm
  | case3 => cases h
  | case4 a ha b rest hab ih =>
    have hb : 0x80 ≤ b := by
      rcases hab.2 with rfl | rfl
      · decide
      · decide
    have ha : 0x80 ≤ a := by
      rw [hab.1]
      decide
    simp only [List.mem_cons, hne ha, hne hb, ih h, or_self, not_false_eq_true]
  | case5 => cases h
  | case6 a ha b hab c rest hw ih =>
    obtain ⟨hwa, hwb, hwc⟩ := isWideSpace_high hw
    simp only [List.mem_cons, hne hwa, hne hwb, hne hwc, ih h, or_self, not_false_eq_true]
  | case7 => cases h

def stripCr (line : List UInt8) : List UInt8 :=
  if line.getLast? = some 13 then line.dropLast else line

theorem mem_of_mem_stripCr (h : b ∈ stripCr line) : b ∈ line := by
  rw [stripCr] at h
  split at h
  next => exact List.mem_of_mem_dropLast h
  next => exact h

theorem validUtf8_stripCr (h : validUtf8 line = true) : validUtf8 (stripCr line) = true := by
  rw [stripCr]
  split
  next hlast =>
    obtain ⟨init, rfl⟩ := List.getLast?_eq_some_iff.1 hlast
    rw [List.dropLast_concat]
    exact (validUtf8_split (by decide) h).1
  next => exact h

theorem isBlank_concat_cr (h : isBlank line = true) : isBlank (line ++ [13]) = true := by
  fun_induction isBlank line with
  | case1 => rfl
  | case2 a rest ha ih =>
    rw [List.cons_append, isBlank.eq_def]
    dsimp only
    rw [if_pos ha]
    exact ih h
  | case3 => cases h
  | case4 a ha b rest hab ih =>
    rw [List.cons_append, List.cons_append, isBlank.eq_def]
    dsimp only
    rw [if_neg ha, if_pos hab]
    exact ih h
  | case5 => cases h
  | case6 a ha b hab c rest hw ih =>
    rw [List.cons_append, List.cons_append, List.cons_append, isBlank.eq_def]
    dsimp only
    rw [if_neg ha, if_neg hab, if_pos hw]
    exact ih h
  | case7 => cases h

theorem isBlank_stripCr (h : isBlank line = false) : isBlank (stripCr line) = false := by
  rw [stripCr]
  split
  next hlast =>
    obtain ⟨init, rfl⟩ := List.getLast?_eq_some_iff.1 hlast
    rw [List.dropLast_concat]
    by_contra hblank
    rw [isBlank_concat_cr (Bool.eq_true_of_not_eq_false hblank)] at h
    cases h
  next => exact h

/-- `str::lines`: a line loses its terminator and a carriage return before it. -/
def textLines (text : List UInt8) : List (List UInt8) :=
  let pieces := text.splitOn 10
  pieces.dropLast.map stripCr ++ (pieces.getLast?.filter fun tail => !tail.isEmpty).toList

theorem textLines_joinLines (hl : ∀ line ∈ lines, 10 ∉ line) (ht : 10 ∉ tail) :
    textLines (joinLines 10 lines ++ tail) =
      lines.map stripCr ++ if tail = [] then [] else [tail] := by
  rw [textLines, splitOn_joinLines hl ht, List.dropLast_concat, List.getLast?_concat]
  cases tail with
  | nil => rfl
  | cons b tail => rfl

end Utf8

end Library
