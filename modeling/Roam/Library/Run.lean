import Mathlib.Data.List.Basic

namespace Library
set_option autoImplicit true

section
variable {σ ι β : Type} (step : σ → ι → σ)

def runAll (s : σ) (inputs : List ι) : σ := inputs.foldl step s

def Along (P : σ → ι → Prop) : σ → List ι → Prop
  | _, [] => True
  | s, i :: inputs => P s i ∧ Along P (step s i) inputs

instance Along.decidable {step : σ → ι → σ} {P : σ → ι → Prop} [∀ s i, Decidable (P s i)] :
    ∀ s inputs, Decidable (Along step P s inputs)
  | _, [] => .isTrue trivial
  | s, i :: inputs =>
    have : Decidable (Along step P (step s i) inputs) := Along.decidable (step s i) inputs
    inferInstanceAs (Decidable (P s i ∧ Along step P (step s i) inputs))

def outputs (out : σ → ι → List β) : σ → List ι → List β
  | _, [] => []
  | s, i :: inputs => out s i ++ outputs out (step s i) inputs

end

section
variable {σ ι β : Type} {step : σ → ι → σ} {P : σ → ι → Prop} {Inv : σ → Prop}
  {out : σ → ι → List β}

theorem runAll_append (s : σ) (before after : List ι) :
    runAll step s (before ++ after) = runAll step (runAll step s before) after :=
  List.foldl_append

theorem outputs_append (s : σ) (before after : List ι) : outputs step out s (before ++ after) =
      outputs step out s before ++ outputs step out (runAll step s before) after := by
  induction before generalizing s with
  | nil => rfl
  | cons i before ih =>
    rw [List.cons_append, outputs, outputs, ih, List.append_assoc]
    rfl

theorem runAll_invariant (hstep : ∀ s i, Inv s → Inv (step s i)) (hinv : Inv s) :
    Inv (runAll step s inputs) := by
  induction inputs generalizing s with
  | nil => exact hinv
  | cons i inputs ih => exact ih (hstep s i hinv)

theorem Along.invariant (hstep : ∀ s i, Inv s → P s i → Inv (step s i)) (hinv : Inv s)
    (h : Along step P s inputs) : Inv (runAll step s inputs) := by
  induction inputs generalizing s with
  | nil => exact hinv
  | cons i inputs ih => exact ih (hstep s i hinv h.1) h.2

theorem Along.outputs {Q : β → Prop} (hstep : ∀ s i, Inv s → P s i → Inv (step s i))
    (hout : ∀ s i, Inv s → P s i → ∀ b ∈ out s i, Q b) (hinv : Inv s)
    (h : Along step P s inputs) : ∀ b ∈ outputs step out s inputs, Q b := by
  induction inputs generalizing s with
  | nil =>
    intro b hb
    cases hb
  | cons i inputs ih =>
    intro b hb
    cases List.mem_append.1 hb with
    | inl hb => exact hout s i hinv h.1 b hb
    | inr hb => exact ih (hstep s i hinv h.1) h.2 b hb

/-- If what an input puts out is fine exactly when the input fits its state, a whole run puts out
only what is fine exactly when every input fits. -/
theorem forall_outputs_iff {Q : β → Prop} (h : ∀ s i, (∀ b ∈ out s i, Q b) ↔ P s i) :
    (∀ b ∈ outputs step out s inputs, Q b) ↔ Along step P s inputs := by
  induction inputs generalizing s with
  | nil => exact ⟨fun _ => trivial, fun _ b hb => absurd hb List.not_mem_nil⟩
  | cons i inputs ih => rw [outputs, List.forall_mem_append, h, ih, Along]

theorem along_append : Along step P s (before ++ after) ↔
      Along step P s before ∧ Along step P (runAll step s before) after := by
  induction before generalizing s with
  | nil => exact (and_iff_right trivial).symm
  | cons i before ih =>
    rw [List.cons_append, Along, Along, ih, and_assoc]
    rfl

/-- Two conditions on the inputs that are one while the invariant holds, which the first of them
keeps. -/
theorem along_iff {Q : σ → ι → Prop} (hiff : ∀ s i, Inv s → (P s i ↔ Q s i))
    (hstep : ∀ s i, Inv s → P s i → Inv (step s i)) (hinv : Inv s) :
    Along step P s inputs ↔ Along step Q s inputs := by
  induction inputs generalizing s with
  | nil => exact Iff.rfl
  | cons i inputs ih =>
    rw [Along, Along, ← hiff s i hinv]
    exact and_congr_right fun hfits => ih (hstep s i hinv hfits)

theorem along_of_forall {Q : ι → Prop} (h : ∀ i ∈ inputs, Q i) :
    Along step (fun _ i => Q i) s inputs := by
  induction inputs generalizing s with
  | nil => trivial
  | cons i inputs ih =>
    rw [List.forall_mem_cons] at h
    exact ⟨h.1, ih h.2⟩

theorem Along.and_of_forall {Q : ι → Prop} (h : Along step P s inputs) (hQ : ∀ i ∈ inputs, Q i) :
    Along step (fun s i => Q i ∧ P s i) s inputs := by
  induction inputs generalizing s with
  | nil => trivial
  | cons i inputs ih =>
    rw [List.forall_mem_cons] at hQ
    exact ⟨⟨hQ.1, h.1⟩, ih h.2 hQ.2⟩

theorem Along.simulation {τ : Type} {step' : τ → ι → τ} {R : σ → τ → Prop} {out' : τ → ι → List β}
    {t : τ} (hstep : ∀ s t i, R s t → P s i → out s i = out' t i ∧ R (step s i) (step' t i))
    (hrel : R s t) (h : Along step P s inputs) :
    Library.outputs step out s inputs = Library.outputs step' out' t inputs ∧
      R (runAll step s inputs) (runAll step' t inputs) := by
  induction inputs generalizing s t with
  | nil => exact ⟨rfl, hrel⟩
  | cons i inputs ih =>
    obtain ⟨hout, hrel'⟩ := hstep s t i hrel h.1
    obtain ⟨houts, hend⟩ := ih hrel' h.2
    rw [Library.outputs, Library.outputs, hout, houts]
    exact ⟨rfl, hend⟩

end

end Library
