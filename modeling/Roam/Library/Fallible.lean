import Mathlib.Order.Defs.Unbundled
import Mathlib.Data.List.Nodup

namespace Library
set_option autoImplicit true

/-- An operation on a state that may fail, and that keeps the changes it made before it failed. -/
abbrev Fallible (ε σ : Type) := ExceptT ε (StateM σ)

namespace Fallible

def exec (op : Fallible ε σ α) (s : σ) : Except ε α × σ := op.run.run s

def ofResult (x : Except ε α) : Fallible ε σ α := ExceptT.mk (pure x)

def ofFun (f : σ → Except ε α × σ) : Fallible ε σ α := ExceptT.mk f

/-- Run an operation and give its result, whether it failed or not, to what follows. -/
def attempt (op : Fallible ε σ α) : Fallible ε σ (Except ε α) :=
  ofFun fun s => (.ok (exec op s).1, (exec op s).2)

section Exec
variable {s : σ} {f : α → Fallible ε σ β}

@[simp] theorem exec_bind {op : Fallible ε σ α} {f : α → Fallible ε σ β} :
    exec (op >>= f) s =
      match exec op s with
      | (.ok a, t) => exec (f a) t
      | (.error e, t) => (.error e, t) := by
  simp only [exec, ExceptT.run_bind, StateT.run_bind]
  cases op.run.run s with
  | mk r t =>
    cases r with
    | ok a => rfl
    | error e => rfl

@[simp] theorem exec_pure (a : α) : exec (pure a : Fallible ε σ α) s = (.ok a, s) := rfl

@[simp] theorem exec_get : exec (get : Fallible ε σ σ) s = (.ok s, s) := rfl

@[simp] theorem exec_set (t : σ) : exec (set t : Fallible ε σ PUnit) s = (.ok ⟨⟩, t) := rfl

@[simp] theorem exec_modify (f : σ → σ) :
    exec (modify f : Fallible ε σ PUnit) s = (.ok ⟨⟩, f s) := rfl

@[simp] theorem exec_throw (e : ε) : exec (throw e : Fallible ε σ α) s = (.error e, s) := rfl

@[simp] theorem exec_ofResult (x : Except ε α) : exec (ofResult x) s = (x, s) := rfl

@[simp] theorem exec_ofFun (f : σ → Except ε α × σ) : exec (ofFun f) s = f s := rfl

@[simp] theorem exec_attempt (op : Fallible ε σ α) :
    exec (attempt op) s = (.ok (exec op s).1, (exec op s).2) := rfl

theorem exec_bind_ok {op : Fallible ε σ α} (h : exec (op >>= f) s = (.ok b, s')) :
    ∃ a t, exec op s = (.ok a, t) ∧ exec (f a) t = (.ok b, s') := by
  rw [exec_bind] at h
  cases hop : exec op s with
  | mk r t =>
    rw [hop] at h
    cases r with
    | error e => cases h
    | ok a => exact ⟨a, t, rfl, h⟩

theorem exec_ofResult_ok {x : Except ε α} (h : exec (ofResult x) s = (.ok a, s')) :
    x = .ok a ∧ s' = s := by
  rw [exec_ofResult, Prod.mk.injEq] at h
  exact ⟨h.1, h.2.symm⟩

theorem exec_of_fst {op : Fallible ε σ α} (h : (exec op s).1 = .ok a) :
    exec op s = (.ok a, (exec op s).2) :=
  Prod.ext h rfl

theorem exec_get_bind (f : σ → Fallible ε σ α) : exec (get >>= f) s = exec (f s) s := rfl

theorem exec_ofResult_bind_ok {x : Except ε α} (h : exec (ofResult x >>= f) s = (.ok b, s')) :
    ∃ a, x = .ok a ∧ exec (f a) s = (.ok b, s') := by
  cases x with
  | error e => cases h
  | ok a => exact ⟨a, rfl, h⟩

theorem exec_ofResult_bind_cases {x : Except ε α} (h : exec (ofResult x >>= f) s = (r, s')) :
    (∃ e, x = .error e ∧ r = .error e ∧ s' = s) ∨ ∃ a, x = .ok a ∧ exec (f a) s = (r, s') := by
  cases x with
  | error e =>
    cases h
    exact .inl ⟨e, rfl, rfl, rfl⟩
  | ok a => exact .inr ⟨a, rfl, h⟩

theorem exec_attempt_bind (op : Fallible ε σ α) (f : Except ε α → Fallible ε σ β) :
    exec (attempt op >>= f) s = exec (f (exec op s).1) (exec op s).2 := rfl

theorem exec_bind_cases {op : Fallible ε σ α} (h : exec (op >>= f) s = (r, s')) :
    (∃ e, exec op s = (.error e, s') ∧ r = .error e) ∨
      ∃ a t, exec op s = (.ok a, t) ∧ exec (f a) t = (r, s') := by
  rw [exec_bind] at h
  cases hop : exec op s with
  | mk q t =>
    rw [hop] at h
    cases q with
    | error e =>
      cases h
      exact .inl ⟨e, rfl, rfl⟩
    | ok a => exact .inr ⟨a, t, rfl, h⟩

end Exec

section Frame

/-- Whatever state an operation starts from, the relation holds between it and the one left. -/
structure Leaves (R : σ → σ → Prop) (op : Fallible ε σ α) : Prop where
  holds : ∀ s, R s (exec op s).2

theorem Leaves.of_exec {R : σ → σ → Prop} {op : Fallible ε σ α} (h : Leaves R op)
    (he : exec op s = (r, s')) : R s s' := by
  have hs := h.holds s
  rwa [he] at hs

theorem Leaves.mono {R R' : σ → σ → Prop} {op : Fallible ε σ α} (h : Leaves R op)
    (hR : ∀ s s', R s s' → R' s s') : Leaves R' op := ⟨fun s => hR s _ (h.holds s)⟩

theorem Leaves.attempt {R : σ → σ → Prop} {op : Fallible ε σ α} (h : Leaves R op) :
    Leaves R (attempt op) := ⟨h.holds⟩

theorem Leaves.modify {R : σ → σ → Prop} {f : σ → σ} (h : ∀ s, R s (f s)) :
    Leaves R (modify f : Fallible ε σ PUnit) := ⟨h⟩

variable {R : σ → σ → Prop} [IsPreorder σ R] {f : α → Fallible ε σ β}

theorem Leaves.pure (a : α) : Leaves R (Pure.pure a : Fallible ε σ α) := ⟨fun s => refl_of R s⟩

theorem Leaves.throw (e : ε) : Leaves R (throw e : Fallible ε σ α) := ⟨fun s => refl_of R s⟩

theorem Leaves.ofResult (x : Except ε α) : Leaves R (ofResult x : Fallible ε σ α) :=
  ⟨fun s => refl_of R s⟩

theorem Leaves.get : Leaves R (get : Fallible ε σ σ) := ⟨fun s => refl_of R s⟩

theorem Leaves.bind {op : Fallible ε σ α} (h : Leaves R op)
    (hf : ∀ a, Leaves R (f a)) : Leaves R (op >>= f) := by
  refine ⟨fun s => ?_⟩
  cases he : exec (op >>= f) s with
  | mk r t =>
    rcases exec_bind_cases he with ⟨e, hop, _⟩ | ⟨a, mid, hop, hrest⟩
    · exact h.of_exec hop
    · exact trans_of R (h.of_exec hop) ((hf a).of_exec hrest)

theorem Leaves.ofResult_bind {x : Except ε α}
    (h : ∀ a, x = .ok a → Leaves R (f a)) : Leaves R (Fallible.ofResult x >>= f) := by
  cases x with
  | error e => exact .throw e
  | ok a => exact h a rfl

theorem Leaves.mapM {as : List α} (h : ∀ a ∈ as, Leaves R (f a)) : Leaves R (as.mapM f) := by
  induction as with
  | nil => exact .pure []
  | cons a as ih =>
    rw [List.forall_mem_cons] at h
    rw [List.mapM_cons]
    exact h.1.bind fun b => (ih h.2).bind fun bs => .pure (b :: bs)

theorem Leaves.forM {f : α → Fallible ε σ PUnit} {as : List α} (h : ∀ a, Leaves R (f a)) :
    Leaves R (as.forM f) := by
  induction as with
  | nil => exact .pure PUnit.unit
  | cons a as ih => exact (h a).bind fun _ => ih

theorem Leaves.foldlM {f : β → α → Fallible ε σ β} {as : List α} {b : β}
    (h : ∀ b a, Leaves R (f b a)) : Leaves R (as.foldlM f b) := by
  induction as generalizing b with
  | nil => exact .pure b
  | cons a as ih =>
    rw [List.foldlM_cons]
    exact (h b a).bind fun b => ih

end Frame

section Loops
variable {R : σ → σ → Prop} [IsPreorder σ R] {view : σ → γ} {f : α → Fallible ε σ β} {as : List α}
  {r : Except ε (List β)}

/-- What a loop did to a view of the state that only one of its rounds can change: nothing, or what
that round did to it, whatever came before and after. -/
inductive Visited (R : σ → σ → Prop) (view : σ → γ) (round : Fallible ε σ β) (s s' : σ) : Prop
  | missed (same : view s' = view s)
  | visited (before : σ) (r : Except ε β) (after : σ) (start : R s before)
      (same : view before = view s) (ran : exec round before = (r, after)) (stop : R after s')
      (end_eq : view s' = view after)

/-- Each round of a loop finds what it needs: it does so at the start, and no other round takes it
away. -/
structure Awaits (as : List α) (f : α → Fallible ε σ β) (Pre : α → σ → Prop) (s : σ) : Prop where
  start : ∀ a ∈ as, Pre a s
  keep : ∀ a ∈ as, ∀ b ∈ as, b ≠ a → ∀ s, Pre a s → Pre b s → Pre b (exec (f a) s).2

theorem Awaits.rest {Pre : α → σ → Prop} (h : Awaits (a :: as) f Pre s) (hnodup : a ∉ as) :
    Awaits as f Pre (exec (f a) s).2 where
  start b hb := by
    have hne : b ≠ a := by
      rintro rfl
      exact hnodup hb
    exact h.keep a List.mem_cons_self b (List.mem_cons_of_mem a hb) hne s
      (h.start a List.mem_cons_self) (h.start b (List.mem_cons_of_mem a hb))
  keep b hb c hc := h.keep b (List.mem_cons_of_mem a hb) c (List.mem_cons_of_mem a hc)

theorem awaits_true (as : List α) (f : α → Fallible ε σ β) (s : σ) :
    Awaits as f (fun _ _ => True) s :=
  ⟨fun _ _ => trivial, fun _ _ _ _ _ _ _ _ => trivial⟩

theorem view_mapM (view : σ → γ) {Pre : α → σ → Prop} (hnodup : as.Nodup) (hpre : Awaits as f Pre s)
    (hview : ∀ a ∈ as, ∀ s, Pre a s → view (exec (f a) s).2 = view s)
    (h : exec (as.mapM f) s = (r, s')) : view s' = view s := by
  induction as generalizing s r with
  | nil =>
    cases h
    rfl
  | cons a as ih =>
    rw [List.forall_mem_cons] at hview
    rw [List.nodup_cons] at hnodup
    have hfirst := hview.1 s (hpre.start a List.mem_cons_self)
    have hrest := hpre.rest hnodup.1
    rw [List.mapM_cons] at h
    rcases exec_bind_cases h with ⟨e, hop, -⟩ | ⟨b, t, hop, hmore⟩
    · rw [hop] at hfirst
      exact hfirst
    · rw [hop] at hfirst hrest
      rcases exec_bind_cases hmore with ⟨e, hloop, -⟩ | ⟨bs, t', hloop, hpure⟩
      · exact (ih hnodup.2 hrest hview.2 hloop).trans hfirst
      · cases hpure
        exact (ih hnodup.2 hrest hview.2 hloop).trans hfirst

theorem mapM_visit (view : σ → γ) (a₀ : α) {Pre : α → σ → Prop} (hR : ∀ a ∈ as, Leaves R (f a))
    (hnodup : as.Nodup) (hpre : Awaits as f Pre s)
    (hview : ∀ a ∈ as, a ≠ a₀ → ∀ s, Pre a s → view (exec (f a) s).2 = view s)
    (h : exec (as.mapM f) s = (r, s')) : (a₀ ∉ as → view s' = view s) ∧ Visited R view (f a₀) s s' ∧
      ∀ bs, r = .ok bs → a₀ ∈ as → ∃ before b after, R s before ∧ view before = view s ∧
        exec (f a₀) before = (.ok b, after) ∧ R after s' ∧ view s' = view after := by
  induction as generalizing s r with
  | nil =>
    cases h
    exact ⟨fun _ => rfl, .missed rfl, fun _ _ hmem => absurd hmem List.not_mem_nil⟩
  | cons a as ih =>
    rw [List.forall_mem_cons] at hR hview
    rw [List.nodup_cons] at hnodup
    have hfirst := hpre.start a List.mem_cons_self
    have hpre' := hpre.rest hnodup.1
    rw [List.mapM_cons] at h
    have hrest {b : β} {t : σ} (h : exec (as.mapM f >>= fun bs => pure (b :: bs)) t = (r, s')) :
        ∃ q, exec (as.mapM f) t = (q, s') ∧ ∀ bs, r = .ok bs → ∃ bs', q = .ok bs' := by
      rcases exec_bind_cases h with ⟨e, hop, hr⟩ | ⟨bs', t', hop, hpure⟩
      · refine ⟨.error e, hop, ?_⟩
        intro bs hbs
        rw [hr] at hbs
        cases hbs
      · cases hpure
        exact ⟨.ok bs', hop, fun _ _ => ⟨bs', rfl⟩⟩
    rcases exec_bind_cases h with ⟨e, hop, hr⟩ | ⟨b, t, hop, hmore⟩
    · -- the round of the first item fails
      subst hr
      by_cases ha : a = a₀
      · subst ha
        exact ⟨fun hn => absurd List.mem_cons_self hn,
          .visited s (.error e) s' (refl_of R s) rfl hop (refl_of R s') rfl, nofun⟩
      · have hsame := hview.1 ha s hfirst
        rw [hop] at hsame
        exact ⟨fun _ => hsame, .missed hsame, nofun⟩
    · obtain ⟨q, hloop, hok⟩ := hrest hmore
      have hran := hR.1.of_exec hop
      rw [hop] at hpre'
      by_cases ha : a = a₀
      · subst ha
        have hsame := view_mapM view hnodup.2 hpre'
          (fun a' ha' => hview.2 a' ha' (fun heq => hnodup.1 (heq ▸ ha'))) hloop
        have hstop := (Leaves.mapM hR.2).of_exec hloop
        refine ⟨fun hn => absurd List.mem_cons_self hn,
          .visited s (.ok b) t (refl_of R s) rfl hop hstop hsame, ?_⟩
        intro bs _ _
        exact ⟨s, b, t, refl_of R s, rfl, hop, hstop, hsame⟩
      · have hstart := hview.1 ha s hfirst
        rw [hop] at hstart
        obtain ⟨hout, hvisit, hall⟩ := ih hR.2 hnodup.2 hpre' hview.2 hloop
        refine ⟨?_, ?_, ?_⟩
        · intro hn
          exact (hout fun hmem => hn (List.mem_cons_of_mem a hmem)).trans hstart
        · cases hvisit with
          | missed same => exact .missed (same.trans hstart)
          | visited before r after start same ran stop end_eq =>
            exact .visited before r after (trans_of R hran start) (same.trans hstart) ran
              stop end_eq
        · intro bs hbs hmem
          obtain ⟨bs', rfl⟩ := hok bs hbs
          obtain ⟨before, b', after, start, same, ran, stop, end_eq⟩ := hall bs' rfl
            ((List.mem_cons.1 hmem).resolve_left fun heq => ha heq.symm)
          exact ⟨before, b', after, trans_of R hran start, same.trans hstart, ran, stop, end_eq⟩

end Loops

end Fallible

end Library
