import Mathlib.Order.Defs.Unbundled

namespace Library
set_option autoImplicit true

/-- A task of an asynchronous program, cut at its awaits and its lock acquisitions: what it does
between two of them it does alone. -/
inductive Task (σ α : Type) : Type 1
  | done (a : α)
  | act {β : Type} (run : σ → β × σ) (next : β → Task σ α)

namespace Task
variable {σ τ α β ε : Type}

protected def bind : Task σ α → (α → Task σ β) → Task σ β
  | .done a, f => f a
  | .act run next, f => .act run fun b => (next b).bind f

instance : Monad (Task σ) where
  pure := .done
  bind := Task.bind

def atomic (run : σ → α × σ) : Task σ α := .act run .done

def result? : Task σ α → Option α
  | .done a => some a
  | .act _ _ => none

def turn : Task σ α → σ → Task σ α × σ
  | .done a, s => (.done a, s)
  | .act run next, s => (next (run s).1, (run s).2)

/-- A task and its surroundings take turns: `none` is a turn of the task. -/
def interleave (env : σ → ε → σ) : Task σ α → σ → List (Option ε) → Task σ α × σ
  | t, s, [] => (t, s)
  | t, s, none :: turns => interleave env (t.turn s).1 (t.turn s).2 turns
  | t, s, some e :: turns => interleave env t (env s e) turns

/-- Amid steps of others that keep to `R`, every section of the task ends in `I`, and the task ends
in `Q` if it does. -/
def Keeps (R : σ → σ → Prop) (I : σ → Prop) : Task σ α → (α → σ → Prop) → σ → Prop
  | .done a, Q, s => Q a s
  | .act run next, Q, s =>
    ∀ s', R s s' → I (run s').2 ∧ Keeps R I (next (run s').1) Q (run s').2

section Keeps
variable {R : σ → σ → Prop} {I : σ → Prop} {Q : α → σ → Prop} {s s' : σ} {t : Task σ α}

theorem Keeps.mono {Q' : α → σ → Prop} (h : Keeps R I t Q s)
    (hQ : ∀ a s, Q a s → Q' a s) : Keeps R I t Q' s := by
  induction t generalizing s with
  | done a => exact hQ a s h
  | act run next ih =>
    intro s' hs
    obtain ⟨hI, hnext⟩ := h s' hs
    exact ⟨hI, ih _ hnext⟩

theorem keeps_bind {t : Task σ β} {f : β → Task σ α} :
    Keeps R I (t >>= f) Q s ↔ Keeps R I t (fun b s => Keeps R I (f b) Q s) s := by
  induction t generalizing s with
  | done b => exact Iff.rfl
  | act run next ih =>
    apply forall_congr'
    intro s'
    apply imp_congr_right
    intro _
    exact and_congr_right fun _ => ih _

theorem keeps_run_bind {x : ExceptT ε (Task σ) β} {f : β → ExceptT ε (Task σ) α}
    {Q : Except ε α → σ → Prop} :
    Keeps R I (x >>= f).run Q s ↔
      Keeps R I x.run (fun
        | .ok b, s => Keeps R I (f b).run Q s
        | .error e, s => Q (.error e) s) s := by
  apply keeps_bind.trans
  constructor
  · intro h
    apply h.mono
    intro r s hr
    cases r with
    | ok b => exact hr
    | error e => exact hr
  · intro h
    apply h.mono
    intro r s hr
    cases r with
    | ok b => exact hr
    | error e => exact hr

theorem Keeps.of_rely [IsTrans σ R] (hQ : ∀ a s s', R s s' → Q a s → Q a s')
    (h : Keeps R I t Q s) (hs : R s s') : Keeps R I t Q s' := by
  cases t with
  | done a => exact hQ a s s' hs h
  | act run next => exact fun s'' hs' => h s'' (trans_of R hs hs')

theorem Keeps.interleave [IsTrans σ R] {env : σ → ε → σ} {turns : List (Option ε)}
    (hrefl : ∀ s, R s s) (hQ : ∀ a s s', R s s' → Q a s → Q a s')
    (hI : ∀ s s', R s s' → I s → I s') (henv : ∀ s e, some e ∈ turns → R s (env s e))
    (h : Keeps R I t Q s) (hs : I s) :
    Keeps R I (t.interleave env s turns).1 Q (t.interleave env s turns).2 ∧
      I (t.interleave env s turns).2 := by
  induction turns generalizing t s with
  | nil => exact ⟨h, hs⟩
  | cons e turns ih =>
    have henv' : ∀ s e, some e ∈ turns → R s (env s e) :=
      fun s e he => henv s e (List.mem_cons_of_mem _ he)
    cases e with
    | some e =>
      have hR := henv s e List.mem_cons_self
      exact ih henv' (h.of_rely hQ hR) (hI s _ hR hs)
    | none =>
      cases t with
      | done a => exact ih henv' h hs
      | act run next =>
        obtain ⟨hI', hnext⟩ := h s (hrefl s)
        exact ih henv' hnext hI'

end Keeps

def Spares (view : σ → τ) : Task σ α → Prop
  | .done _ => True
  | .act run next => (∀ s, view (run s).2 = view s) ∧ ∀ b, Spares view (next b)

section Spares
variable {view : σ → τ}

theorem Spares.bind {t : Task σ α} {f : α → Task σ β} (h : Spares view t)
    (hf : ∀ a, Spares view (f a)) : Spares view (t >>= f) := by
  induction t with
  | done a => exact hf a
  | act run next ih => exact ⟨h.1, fun b => ih b (h.2 b)⟩

theorem Spares.atomic {run : σ → α × σ} (h : ∀ s, view (run s).2 = view s) :
    Spares view (atomic run) :=
  ⟨h, fun _ => trivial⟩

theorem Spares.comp {t : Task σ α} (f : τ → υ) (h : Spares view t) : Spares (f ∘ view) t := by
  induction t with
  | done a => trivial
  | act run next ih => exact ⟨fun s => congrArg f (h.1 s), fun b => ih b (h.2 b)⟩

theorem Spares.keeps {R : σ → σ → Prop} {I : σ → Prop} {P : τ → Prop} {t : Task σ α}
    (h : Spares view t) (hR : ∀ s s', R s s' → view s' = view s)
    (hI : ∀ s, P (view s) → I s) {s : σ} (hP : P (view s)) :
    Keeps R I t (fun _ s => P (view s)) s := by
  induction t generalizing s with
  | done a => exact hP
  | act run next ih =>
    intro s' hs
    have hrun : P (view (run s').2) := by
      rw [h.1, hR s s' hs]
      exact hP
    exact ⟨hI _ hrun, ih _ (h.2 _) hrun⟩

end Spares

/-- From a view with `P`, every section leaves one with `I`, and the task ends in `Q` if it does. -/
def Triple (view : σ → τ) (I P : τ → Prop) (t : ExceptT ε (Task σ) α) (Q : Except ε α → τ → Prop) :
    Prop :=
  ∀ s, P (view s) →
    t.run.Keeps (fun s s' => view s' = view s) (fun s => I (view s)) (fun r s => Q r (view s)) s

section Triple
variable {view : σ → τ} {I P P' : τ → Prop} {Q Q' : Except ε α → τ → Prop}
  {t : ExceptT ε (Task σ) α}

theorem Triple.consequence (h : Triple view I P t Q) (hP : ∀ v, P' v → P v)
    (hQ : ∀ r v, Q r v → Q' r v) : Triple view I P' t Q' :=
  fun s hs => (h s (hP _ hs)).mono fun r _ hr => hQ r _ hr

theorem triple_result {x : Except ε α} (h : ∀ v, P v → Q x v) :
    Triple view I P (ExceptT.mk (.done x) : ExceptT ε (Task σ) α) Q :=
  fun _ hs => h _ hs

theorem triple_atomic {f : σ → Except ε α × σ}
    (h : ∀ s, P (view s) → I (view (f s).2) ∧ Q (f s).1 (view (f s).2)) :
    Triple view I P (ExceptT.mk (.atomic f)) Q := by
  intro s hs s' hsame
  exact h s' (by rwa [hsame])

theorem Triple.bind {β : Type} {f : α → ExceptT ε (Task σ) β} {R : Except ε β → τ → Prop}
    (h : Triple view I P t Q) (hf : ∀ a, Triple view I (Q (.ok a)) (f a) R)
    (herror : ∀ e v, Q (.error e) v → R (.error e) v) : Triple view I P (t >>= f) R := by
  intro s hs
  apply keeps_run_bind.2
  apply (h s hs).mono
  intro r s' hr
  cases r with
  | ok a => exact hf a s' hr
  | error e => exact herror e _ hr

theorem Triple.attempt {R : Except ε (Except ε α) → τ → Prop} (h : Triple view I P t Q)
    (hR : ∀ r v, Q r v → R (.ok r) v) :
    Triple view I P (ExceptT.mk (t.run >>= fun r => .done (.ok r))) R := by
  intro s hs
  apply keeps_bind.2
  exact (h s hs).mono fun r s hr => hR r _ hr

theorem Keeps.and {R : σ → σ → Prop} {J J' : σ → Prop} {Q Q' : α → σ → Prop} {t : Task σ α} {s : σ}
    (h : Keeps R J t Q s) (h' : Keeps R J' t Q' s) : Keeps R J t (fun a s => Q a s ∧ Q' a s) s := by
  induction t generalizing s with
  | done a => exact ⟨h, h'⟩
  | act run next ih => exact fun s' hs => ⟨(h s' hs).1, ih _ (h s' hs).2 (h' s' hs).2⟩

theorem Triple.and {J : τ → Prop} (h : Triple view I P t Q) (h' : Triple view J P' t Q') :
    Triple view I (fun v => P v ∧ P' v) t (fun r v => Q r v ∧ Q' r v) :=
  fun s hs => (h s hs.1).and (h' s hs.2)

theorem Triple.interleave {κ : Type} {env : σ → κ → σ} {s : σ} (h : Triple view I P t Q)
    (henv : ∀ s e, view (env s e) = view s) (hP : P (view s)) (hI : I (view s))
    (turns : List (Option κ)) : I (view (t.run.interleave env s turns).2) ∧
      ∀ r, (t.run.interleave env s turns).1.result? = some r →
        Q r (view (t.run.interleave env s turns).2) := by
  have htrans : IsTrans σ fun s s' => view s' = view s := ⟨fun _ _ _ h h' => h'.trans h⟩
  have hQ (r : Except ε α) (s s' : σ) (hsame : view s' = view s) (hr : Q r (view s)) :
      Q r (view s') := by rwa [hsame]
  have hI' (s s' : σ) (hsame : view s' = view s) (hs : I (view s)) : I (view s') := by rwa [hsame]
  have hkeeps := Keeps.interleave (R := fun s s' => view s' = view s)
    (I := fun s => I (view s)) (Q := fun r s => Q r (view s)) (fun _ => rfl) hQ hI'
    (fun s e (_ : some e ∈ turns) => henv s e) (h s hP) hI
  refine ⟨hkeeps.2, fun r hr => ?_⟩
  have hend := hkeeps.1
  cases hdone : (t.run.interleave env s turns).1 with
  | done a =>
    rw [hdone] at hr hend
    cases hr
    exact hend
  | act run next =>
    rw [hdone] at hr
    cases hr

end Triple

end Task

end Library
