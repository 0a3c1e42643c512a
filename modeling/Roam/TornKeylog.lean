import Roam.Rotations

namespace Roam
set_option autoImplicit true
open Library Library.Fallible

/-- No part of an object completes a line that something stands on already. -/
def Json.Uncontinued (json : Json Line) : Prop :=
  ∀ line text part, isBlank text = false → part <+: json.render line → part ≠ [] →
    ∃ msg, json.parse (text ++ part) = .error msg

theorem plainJson_uncontinued (c : PrefixCode Line) : (plainJson c).Uncontinued := by
  intro line text part hblank hpart hne
  cases hparse : (plainJson c).parse (text ++ part) with
  | error msg => exact ⟨msg, rfl⟩
  | ok line' =>
    have hopens := ((plainJson_lawful c).object line).brace_mem hpart hne
    cases text with
    | nil => cases hblank
    | cons b text =>
      have htext := plainJson_parse_iff.1 hparse
      have hrest : text ++ part = c.encode line' ++ [0x7D] := (List.cons.inj htext).2
      have hmem : 0x7B ∈ c.encode line' ++ [0x7D] := hrest ▸ List.mem_append_right text hopens
      rcases List.mem_append.1 hmem with hm | hm
      · exact absurd hm (PrefixCode.brace_not_mem c line').1
      · exact absurd (List.mem_singleton.1 hm) (by decide)

namespace Store
variable {π : Platform} {s s' : Store π}

def unfinished (s : Store π) : Bytes := s.exportOwnKeylog.rtakeWhile (· ≠ 10)

def finished (s : Store π) : Bytes := s.exportOwnKeylog.rdropWhile (· ≠ 10)

theorem exists_finished (s : Store π) :
    ∃ lines, (∀ line ∈ lines, 10 ∉ line) ∧ s.finished = joinLines 10 lines ∧ 10 ∉ s.unfinished ∧
      s.exportOwnKeylog = joinLines 10 lines ++ s.unfinished := by
  have hterminated : Terminated 10 s.finished := by
    by_cases hnil : s.finished = []
    · exact .inl hnil
    · have hlast := List.rdropWhile_last_not (fun b => decide (b ≠ 10)) s.exportOwnKeylog hnil
      rw [decide_eq_true_eq, ne_eq, not_not] at hlast
      exact .inr ((List.getLast?_eq_getLast_of_ne_nil hnil).trans (congrArg some hlast))
  obtain ⟨lines, hl, hlines⟩ := hterminated.exists_lines
  refine ⟨lines, hl, hlines, ?_, ?_⟩
  · intro hmem
    have hne := List.mem_rtakeWhile_imp hmem
    exact absurd rfl (of_decide_eq_true hne)
  · rw [← hlines]
    exact List.rdropWhile_append_rtakeWhile.symm

theorem wholeKeylog_iff : s.WholeKeylog ↔ s.unfinished = [] := by
  rw [unfinished, List.rtakeWhile_eq_nil_iff, WholeKeylog, Terminated, or_iff_not_imp_left]
  constructor
  · intro h hne
    rw [List.getLast?_eq_getLast_of_ne_nil hne] at h
    rw [Option.some.inj (h hne)]
    decide
  · intro h hne
    have hlast := h hne
    rw [decide_eq_true_eq, ne_eq, not_not] at hlast
    rw [List.getLast?_eq_getLast_of_ne_nil hne, hlast]

theorem appendKeylog_unreadable (h : ∀ own, s.ownKeylog ≠ .ok own) (epoch : Bytes32)
    (body : KeyBody) : ∃ err, exec (appendKeylog epoch body) s = (.error err, s) := by
  rw [exec_appendKeylog]
  cases hread : readVerified π (keyReader π s.peerId s.selfKey) s.disk.keylogs[s.peerId]? with
  | error err => exact ⟨err, rfl⟩
  | ok own => exact absurd hread (h own)

theorem appendAll_unreadable (h : ∀ own, s.ownKeylog ≠ .ok own) (items : List (Bytes32 × KeyBody)) :
    (exec (appendAll items) s).2 = s := by
  cases items with
  | nil => rfl
  | cons item items =>
    obtain ⟨err, herr⟩ := appendKeylog_unreadable h item.1 item.2
    rw [appendAll_cons, exec_bind, herr]

section Torn
variable (hπ : π.Lawful) (hjson : π.keyJson.Uncontinued)
variable (htorn : ¬ s.WholeKeylog) (hblank : isBlank s.unfinished = true → s.unfinished = [])
include htorn hblank

theorem unfinished_not_blank : isBlank s.unfinished = false := by
  rw [Bool.eq_false_iff]
  intro h
  exact htorn (wholeKeylog_iff.2 (hblank h))

include hπ hjson in
theorem not_reads_of_line (own : List KeyLogEntry) (epoch : Bytes32) (body : KeyBody)
    (own' : List KeyLogEntry) :
    (s.withKeylog s.peerId (s.exportOwnKeylog ++ (s.keyLine own epoch body ++ [10]))).ownKeylog ≠
      .ok own' := by
  obtain ⟨lines, hl, _, ht, htext⟩ := s.exists_finished
  have hobject := keyLine_object hπ s own epoch body
  intro h
  have hread := (ownKeylog_eq_ok_iff.1 h).2
  rw [exportOwnKeylog_withKeylog, htext, joinLines_concat,
    LineReader.readText_eq_ok_iff (hobject.single_append hl ht), keptLines_append,
      hobject.keptLines_append] at hread
  obtain ⟨_, _, parsed, hparse, _⟩ := LineReader.exists_entry hread
    (List.mem_append_right _ (List.mem_singleton_self _))
  have hne : s.keyLine own epoch body ≠ [] := fun hnil => nomatch hnil ▸ hobject.opens
  obtain ⟨msg, herr⟩ := hjson _ s.unfinished (s.keyLine own epoch body)
    (unfinished_not_blank htorn hblank) List.prefix_rfl hne
  rw [malformed_eq_ok.1 hparse] at herr
  cases herr

end Torn

end Store

end Roam
