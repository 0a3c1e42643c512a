import Roam.Library.Text

namespace Library
set_option autoImplicit true

instance [DecidableEq α] (sep : α) (text : List α) : Decidable (Terminated sep text) :=
  inferInstanceAs (Decidable (_ ∨ _))

theorem textLines_append (ha : Terminated 10 as) :
    textLines (as ++ bs) = textLines as ++ textLines bs := by
  obtain ⟨lines, hl, rfl⟩ := ha.exists_lines
  obtain ⟨more, tail, rfl, hm, ht⟩ := exists_joinLines 10 bs
  have hall : ∀ line ∈ lines ++ more, 10 ∉ line :=
    List.forall_mem_append.2 ⟨hl, hm⟩
  have hnil := @textLines_joinLines lines [] hl List.not_mem_nil
  rw [List.append_nil, if_pos rfl, List.append_nil] at hnil
  rw [← List.append_assoc, ← joinLines_append, textLines_joinLines hall ht,
    textLines_joinLines hm ht, hnil, List.map_append, List.append_assoc]

/-- A text that was written again from some of its lines. None of them ends in a carriage return,
which would be lost. -/
def Rewritten (log log' : List UInt8) : Prop :=
  ∃ lines, lines.Sublist (textLines log) ∧ (∀ line ∈ lines, 10 ∉ line ∧ stripCr line = line) ∧
    log' = joinLines 10 lines

theorem textLines_rewritten (hl : ∀ line ∈ lines, 10 ∉ line ∧ stripCr line = line) :
    textLines (joinLines 10 lines) = lines := by
  have hread := @textLines_joinLines lines [] (fun line h => (hl line h).1) List.not_mem_nil
  rw [List.append_nil, if_pos rfl, List.append_nil] at hread
  rw [hread, List.map_congr_left fun line h => (hl line h).2, List.map_id']

theorem Rewritten.textLines (h : Rewritten log log') :
    (textLines log').Sublist (textLines log) := by
  obtain ⟨lines, hs, hl, rfl⟩ := h
  rwa [textLines_rewritten hl]

theorem Rewritten.trans (h : Rewritten log log') (h' : Rewritten log' log'') :
    Rewritten log log'' := by
  obtain ⟨lines, hs, hl, rfl⟩ := h'
  exact ⟨lines, hs.trans h.textLines, hl, rfl⟩

theorem length_joinLines (lines : List (List α)) :
    (joinLines sep lines).length = (lines.map fun line => line.length + 1).sum := by
  induction lines with
  | nil => rfl
  | cons line lines ih =>
    rw [joinLines_cons, List.length_append, List.length_cons, ih, List.map_cons, List.sum_cons]
    omega

theorem length_stripCr_le (line : List UInt8) : (stripCr line).length ≤ line.length := by
  rw [stripCr]
  split
  next => rw [List.length_dropLast]; exact Nat.sub_le _ _
  next => exact le_rfl

theorem Rewritten.length_le (h : Rewritten log log') (ht : Terminated 10 log) :
    log'.length ≤ log.length := by
  obtain ⟨lines, hs, _, rfl⟩ := h
  obtain ⟨whole, hw, rfl⟩ := ht.exists_lines
  have hread := @textLines_joinLines whole [] hw List.not_mem_nil
  rw [List.append_nil, if_pos rfl, List.append_nil] at hread
  rw [hread] at hs
  rw [length_joinLines, length_joinLines]
  calc (lines.map fun line => line.length + 1).sum
      ≤ ((whole.map stripCr).map fun line => line.length + 1).sum :=
        (hs.map _).sum_le_sum fun _ _ => Nat.zero_le _
    _ ≤ (whole.map fun line => line.length + 1).sum := by
        rw [List.map_map]
        exact List.sum_le_sum fun line _ => Nat.succ_le_succ (length_stripCr_le line)

/-- A cursor into a log that was handed on up to it: it lies between two lines or at the end, and
every line before it was sent. -/
structure Covered (log : List UInt8) (cursor : Nat) (sent : List UInt8 → Prop) : Prop where
  boundary : Terminated 10 (log.take cursor) ∨ log.length ≤ cursor
  lines : ∀ line ∈ textLines (log.take cursor), sent line

theorem Covered.mono {sent sent' : List UInt8 → Prop} (h : Covered log cursor sent)
    (hs : ∀ line, sent line → sent' line) : Covered log cursor sent' :=
  ⟨h.boundary, fun line hl => hs line (h.lines line hl)⟩

variable {sent : List UInt8 → Prop}

theorem Covered.whole (h : ∀ line ∈ textLines log, sent line) : Covered log log.length sent := by
  refine ⟨.inr le_rfl, ?_⟩
  rwa [List.take_length]

theorem Covered.advance {sent sent' : List UInt8 → Prop} (h : Covered log cursor sent)
    (hs : ∀ line, sent line → sent' line)
    (hrest : Terminated 10 (log.take cursor) → cursor < log.length →
      ∀ line ∈ textLines (log.drop cursor), sent' line) : Covered log log.length sent' := by
  apply Covered.whole
  intro line hl
  by_cases hlt : cursor < log.length
  · have ht := h.boundary.resolve_right hlt.not_ge
    rw [← List.take_append_drop cursor log, textLines_append ht, List.mem_append] at hl
    cases hl with
    | inl hl => exact hs line (h.lines line hl)
    | inr hl => exact hrest ht hlt line hl
  · rw [← List.take_of_length_le (not_lt.1 hlt)] at hl
    exact hs line (h.lines line hl)

theorem Covered.append (h : Covered log cursor sent)
    (hc : cursor < log.length ∨ cursor = log.length ∧ Terminated 10 log) (more : List UInt8) :
    Covered (log ++ more) cursor sent := by
  have hle : cursor ≤ log.length := hc.elim le_of_lt fun hc => hc.1.le
  have hterm : Terminated 10 (log.take cursor) := by
    cases hc with
    | inl hlt => exact h.boundary.resolve_right hlt.not_ge
    | inr hc => rw [hc.1, List.take_length]; exact hc.2
  have htake : (log ++ more).take cursor = log.take cursor := List.take_append_of_le_length hle
  refine ⟨.inl ?_, ?_⟩
  · rw [htake]
    exact hterm
  · rw [htake]
    exact h.lines

theorem Covered.rewrite (h : Covered log cursor sent)
    (hr : Rewritten log log') (ht : Terminated 10 log) (hc : log.length ≤ cursor) :
    Covered log' cursor sent := by
  have hle := (hr.length_le ht).trans hc
  refine ⟨.inr hle, ?_⟩
  rw [List.take_of_length_le hle]
  intro line hl
  apply h.lines line
  rw [List.take_of_length_le hc]
  exact hr.textLines.subset hl

end Library
