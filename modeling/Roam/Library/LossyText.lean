import Roam.Library.Text

set_option autoImplicit true

namespace Library

def replacement : List UInt8 := [0xEF, 0xBF, 0xBD]

/-- The bytes from a state on, with those of the character that is being read. A byte that cannot go
on with it is looked at again as a first one. -/
def lossyFrom (pending : List UInt8) (q : Utf8State) : List UInt8 → List UInt8
  | [] => if pending = [] then [] else replacement
  | b :: rest =>
    match utf8Step q b with
    | some q' =>
      if q' = .start then pending ++ b :: lossyFrom [] .start rest
      else lossyFrom (pending ++ [b]) q' rest
    | none =>
      (if pending = [] then [] else replacement) ++
        match utf8Lead b with
        | some q' =>
          if q' = .start then b :: lossyFrom [] .start rest else lossyFrom [b] q' rest
        | none => replacement ++ lossyFrom [] .start rest

/-- `String::from_utf8_lossy`: one replacement character for each longest start of a character that
does not go on. -/
def lossy (bytes : List UInt8) : List UInt8 := lossyFrom [] .start bytes

theorem lossyFrom_of_fold (hp : q = .start → pending = [])
    (h : bytes.foldlM utf8Step q = some .start) : lossyFrom pending q bytes = pending ++ bytes := by
  induction bytes generalizing pending q with
  | nil =>
    obtain rfl := Option.some.inj h
    rw [hp rfl, List.append_nil, lossyFrom, if_pos rfl]
  | cons b bytes ih =>
    rw [List.foldlM_cons] at h
    rw [lossyFrom]
    cases hstep : utf8Step q b with
    | none =>
      rw [hstep] at h
      cases h
    | some q' =>
      rw [hstep] at h
      dsimp only
      split
      next hq =>
        subst hq
        rw [ih (fun _ => rfl) h, List.nil_append]
      next hq => rw [ih (fun heq => absurd heq hq) h, List.append_assoc, List.singleton_append]

theorem lossy_of_valid (h : validUtf8 bytes = true) : lossy bytes = bytes :=
  lossyFrom_of_fold (fun _ => rfl) (validUtf8_iff.1 h)

theorem validUtf8_replacement (bytes : List UInt8) :
    validUtf8 (replacement ++ bytes) = validUtf8 bytes := validUtf8_append (by decide)

theorem validUtf8_lossyFrom (hp : pending.foldlM utf8Step .start = some q) (bytes : List UInt8) :
    validUtf8 (lossyFrom pending q bytes) = true := by
  induction bytes generalizing pending q with
  | nil =>
    rw [lossyFrom]
    split
    · decide
    · decide
  | cons b bytes ih =>
    have hstart : validUtf8 (lossyFrom [] .start bytes) = true := ih rfl
    rw [lossyFrom]
    split
    next q' hstep =>
      have hnext : (pending ++ [b]).foldlM utf8Step .start = some q' := by
        rw [List.foldlM_append, hp]
        exact (bind_pure (utf8Step q b)).trans hstep
      split
      next hq =>
        subst hq
        rw [← List.singleton_append, ← List.append_assoc, validUtf8_append (validUtf8_iff.2 hnext)]
        exact hstart
      next => exact ih hnext
    next hstep =>
      have hrest : validUtf8 (match utf8Lead b with
          | some q' => if q' = .start then b :: lossyFrom [] .start bytes
              else lossyFrom [b] q' bytes
          | none => replacement ++ lossyFrom [] .start bytes) = true := by
        split
        next q' hlead =>
          have hnext : [b].foldlM utf8Step .start = some q' := (bind_pure (utf8Lead b)).trans hlead
          split
          next hq =>
            subst hq
            rw [← List.singleton_append, validUtf8_append (validUtf8_iff.2 hnext)]
            exact hstart
          next => exact ih hnext
        next => rw [validUtf8_replacement, hstart]
      split
      · exact hrest
      · rw [validUtf8_replacement, hrest]

theorem validUtf8_lossy (bytes : List UInt8) : validUtf8 (lossy bytes) = true :=
  validUtf8_lossyFrom rfl bytes

theorem mem_lossyFrom (h : c ∈ lossyFrom pending q bytes) :
    c ∈ pending ∨ c ∈ bytes ∨ c ∈ replacement := by
  fun_induction lossyFrom pending q bytes with grind

theorem mem_lossy (h : c ∈ lossy bytes) : c ∈ bytes ∨ c ∈ replacement := by
  rcases mem_lossyFrom h with hnil | hmem
  · cases hnil
  · exact hmem

theorem replaced_lossyFrom (hp : pending = [] → q = .start)
    (h : bytes.foldlM utf8Step q ≠ some .start) : 0xBD ∈ lossyFrom pending q bytes := by
  fun_induction lossyFrom pending q bytes with
  | case1 q => exact absurd (congrArg some (hp rfl)) h
  | case2 pending q hne => decide
  | case3 pending q b rest hstep ih =>
    rw [List.foldlM_cons, hstep] at h
    exact List.mem_append_right _ (List.mem_cons_of_mem _ (ih (fun _ => rfl) h))
  | case4 pending q b rest q' hstep hq ih =>
    rw [List.foldlM_cons, hstep] at h
    exact ih (fun hnil =>
      absurd hnil (List.append_ne_nil_of_right_ne_nil _ (List.cons_ne_nil b []))) h
  | case5 pending q b rest hstep _ _ =>
    by_cases hnil : pending = []
    · rw [hp hnil] at hstep
      have hlead : utf8Lead b = none := hstep
      rw [hlead]
      exact List.mem_append_right _ (List.mem_append_left _ (by decide))
    · rw [if_neg hnil]
      exact List.mem_append_left _ (by decide)

theorem lossy_eq_of_not_mem (h : 0xBD ∉ lossy bytes) : lossy bytes = bytes := by
  apply lossyFrom_of_fold (fun _ => rfl)
  by_contra hfold
  exact h (replaced_lossyFrom (fun _ => rfl) hfold)

end Library
