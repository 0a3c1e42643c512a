import Roam.Base
import Roam.Library.Run
import Mathlib.Logic.Function.Basic

namespace Roam
set_option autoImplicit true
open Library

/-- The directory of an object: the file under its name, the files under the temporary names of the
calls, and what the files hold. Two names may lead to one file. -/
structure Dir where
  made : Bool
  path : Option Nat
  tmp : Nat → Option Nat
  bytes : Nat → Bytes
  fresh : Nat

namespace Dir

def empty : Dir := ⟨false, none, fun _ => none, fun _ => [], 0⟩

def openTmp (d : Dir) (call : Nat) : Dir :=
  match d.tmp call with
  | some n => { d with bytes := Function.update d.bytes n [] }
  | none =>
    { d with
      tmp := Function.update d.tmp call (some d.fresh)
      bytes := Function.update d.bytes d.fresh []
      fresh := d.fresh + 1 }

def writeTmp (d : Dir) (call : Nat) (chunk : Bytes) : Dir :=
  match d.tmp call with
  | some n => { d with bytes := Function.update d.bytes n (d.bytes n ++ chunk) }
  | none => d

/-- `File.ln`, which refuses a name that is taken. -/
def link (d : Dir) (call : Nat) : Option Dir :=
  match d.path, d.tmp call with
  | none, some n => some { d with path := some n }
  | _, _ => none

def rmTmp (d : Dir) (call : Nat) : Dir := { d with tmp := Function.update d.tmp call none }

/-- `File.rename!`, which takes the place of what has the name. -/
def rename (d : Dir) (call : Nat) : Dir :=
  match d.tmp call with
  | some n => { d with path := some n, tmp := Function.update d.tmp call none }
  | none => d

/-- The files are older than the next one, and every temporary name has its own. -/
structure Valid (d : Dir) : Prop where
  path : ∀ n, d.path = some n → n < d.fresh
  tmp : ∀ i n, d.tmp i = some n → n < d.fresh
  apart : ∀ i j n, d.tmp i = some n → d.tmp j = some n → i = j

end Dir

inductive PutKind
  | object
  | slot

inductive PutResult
  | created
  | alreadyThere
  | tooManySessions
deriving DecidableEq

inductive PutPc
  | mkdir
  | check
  | countSessions
  | openTmp
  | writeTmp (rest : Bytes)
  | publish
  | rmLinked
  | rmRefused
  | checkAgain
  | reopenTmp
  | rewriteTmp (rest : Bytes)
  | rename
  | done (result : PutResult)
deriving DecidableEq

def maxSessions : Nat := 64

/-- Whose turn it is, how many bytes a write takes at once, and how many sessions are counted. -/
structure PutStep where
  call : Nat
  chunk : Nat
  sessions : Nat

def PutKind.start : PutKind → PutPc
  | .object => .mkdir
  | .slot => .check

def PutKind.advance (k : PutKind) (e : PutStep) (bytes : Bytes) (d : Dir) : PutPc → Dir × PutPc
  | .mkdir =>
    ({ d with made := true }, match k with | .object => .check | .slot => .openTmp)
  | .check =>
    (d, if d.path.isSome then .done .alreadyThere
      else match k with | .object => .openTmp | .slot => .countSessions)
  | .countSessions =>
    (d, if !d.made && decide (maxSessions ≤ e.sessions) then .done .tooManySessions else .mkdir)
  | .openTmp => (d.openTmp e.call, .writeTmp bytes)
  | .writeTmp rest =>
    if rest = [] then (d, .publish)
    else (d.writeTmp e.call (rest.take (e.chunk + 1)), .writeTmp (rest.drop (e.chunk + 1)))
  | .publish =>
    match k with
    | .object => (d.rename e.call, .done .created)
    | .slot =>
      match d.link e.call with
      | some d => (d, .rmLinked)
      | none => (d, .rmRefused)
  | .rmLinked => (d.rmTmp e.call, .done .created)
  | .rmRefused => (d.rmTmp e.call, .checkAgain)
  | .checkAgain => (d, if d.path.isSome then .done .alreadyThere else .reopenTmp)
  -- `slow_path_write`
  | .reopenTmp => (d.openTmp e.call, .rewriteTmp bytes)
  | .rewriteTmp rest =>
    if rest = [] then (d, .rename)
    else (d.writeTmp e.call (rest.take (e.chunk + 1)), .rewriteTmp (rest.drop (e.chunk + 1)))
  | .rename => (d.rename e.call, .done .created)
  | .done result => (d, .done result)

structure Puts where
  dir : Dir
  pcs : Nat → PutPc

namespace Puts
variable {k : PutKind} {calls : List Bytes} {s s' : Puts} {d d' : Dir} {i j n : Nat} {b : Bytes}
  {pc pc' : PutPc}
  {steps : List PutStep}

def start (k : PutKind) : Puts := ⟨.empty, fun _ => k.start⟩

def step (k : PutKind) (calls : List Bytes) (s : Puts) (e : PutStep) : Puts :=
  match calls[e.call]? with
  | some bytes =>
    let (dir, pc) := k.advance e bytes s.dir (s.pcs e.call)
    ⟨dir, Function.update s.pcs e.call pc⟩
  | none => s

/-- `get`: the file is opened in one state and read in another. -/
def get (opened read : Puts) : Option Bytes := opened.dir.path.map read.dir.bytes

def Fits (d : Dir) (i : Nat) (b : Bytes) : PutPc → Prop
  | .mkdir | .check | .countSessions | .openTmp => d.tmp i = none
  | .writeTmp rest => ∃ n, d.tmp i = some n ∧ d.path ≠ some n ∧ d.bytes n ++ rest = b
  | .publish => ∃ n, d.tmp i = some n ∧ d.path ≠ some n ∧ d.bytes n = b
  | .rmLinked | .done .created => ∃ n, d.path = some n ∧ d.bytes n = b
  | .rmRefused | .checkAgain | .done .alreadyThere => d.path ≠ none
  | .done .tooManySessions => True
  | .reopenTmp | .rewriteTmp _ | .rename => False

def Won (pc : PutPc) : Prop := pc = .rmLinked ∨ pc = .done .created

structure Inv (calls : List Bytes) (s : Puts) : Prop where
  valid : s.dir.Valid
  fits : ∀ i b, calls[i]? = some b → Fits s.dir i b (s.pcs i)
  idle : ∀ i, calls[i]? = none → ¬ Won (s.pcs i)
  one : ∀ i j, Won (s.pcs i) → Won (s.pcs j) → i = j
  won : s.dir.path ≠ none → ∃ i, Won (s.pcs i)

/-- What a step of a call leaves to the others: their temporary files, and the object with its bytes
if there is one. -/
structure Frame (i : Nat) (d d' : Dir) : Prop where
  tmp : ∀ j, j ≠ i → d'.tmp j = d.tmp j
  path : d'.path = d.path ∨ d.path = none ∧ d'.path = d.tmp i
  bytes : ∀ n, n < d.fresh → (d.tmp i = some n → d.path = some n) → d'.bytes n = d.bytes n

theorem Frame.path_some (h : Frame i d d') (hp : d.path = some n) : d'.path = some n := by
  rcases h.path with heq | ⟨hnone, _⟩
  · rw [heq, hp]
  · rw [hp] at hnone
    cases hnone

theorem Frame.fits (h : Frame i d d') (hd : d.Valid) (hj : j ≠ i) (hfits : Fits d j b pc) :
    Fits d' j b pc := by
  have htmp := h.tmp j hj
  have hmine (n : Nat) (hn : d.tmp j = some n) (hpath : d.path ≠ some n) :
      d'.path ≠ some n ∧ d'.bytes n = d.bytes n := by
    have hne : d.tmp i ≠ some n := fun hi => hj (hd.apart j i n hn hi)
    refine ⟨?_, h.bytes n (hd.tmp j n hn) fun hi => absurd hi hne⟩
    rcases h.path with heq | ⟨_, heq⟩
    · rwa [heq]
    · rwa [heq]
  have hwon (hpath : ∃ n, d.path = some n ∧ d.bytes n = b) :
      ∃ n, d'.path = some n ∧ d'.bytes n = b := by
    obtain ⟨n, hn, hb⟩ := hpath
    exact ⟨n, h.path_some hn, (h.bytes n (hd.path n hn) fun _ => hn).trans hb⟩
  have hthere (hpath : d.path ≠ none) : d'.path ≠ none := by
    obtain ⟨n, hn⟩ := Option.ne_none_iff_exists'.1 hpath
    rw [h.path_some hn]
    exact Option.some_ne_none n
  cases pc with
  | mkdir | check | countSessions | openTmp => exact htmp.trans hfits
  | writeTmp rest =>
    obtain ⟨n, hn, hpath, hb⟩ := hfits
    obtain ⟨hpath', hb'⟩ := hmine n hn hpath
    exact ⟨n, htmp.trans hn, hpath', by rw [hb', hb]⟩
  | publish =>
    obtain ⟨n, hn, hpath, hb⟩ := hfits
    obtain ⟨hpath', hb'⟩ := hmine n hn hpath
    exact ⟨n, htmp.trans hn, hpath', by rw [hb', hb]⟩
  | rmLinked => exact hwon hfits
  | rmRefused | checkAgain => exact hthere hfits
  | reopenTmp | rewriteTmp rest | rename => exact hfits
  | done result =>
    cases result with
    | created => exact hwon hfits
    | alreadyThere => exact hthere hfits
    | tooManySessions => trivial

structure Advanced (i : Nat) (b : Bytes) (d : Dir) (pc : PutPc) (d' : Dir) (pc' : PutPc) :
    Prop where
  frame : Frame i d d'
  fits : Fits d' i b pc'
  valid : d'.Valid
  won : Won pc → Won pc'
  wins : Won pc' → Won pc ∨ d.path = none
  path : d.path = none → d'.path ≠ none → Won pc'

theorem Advanced.same (made : Bool) (hd : d.Valid) (hfits : Fits d i b pc')
    (hwon : Won pc ↔ Won pc') : Advanced i b d pc { d with made } pc' where
  frame := ⟨fun _ _ => rfl, .inl rfl, fun _ _ _ => rfl⟩
  fits := hfits
  valid := ⟨hd.path, hd.tmp, hd.apart⟩
  won := hwon.1
  wins h := .inl (hwon.2 h)
  path hnone hsome := absurd hnone hsome

theorem Advanced.openTmp (hd : d.Valid) (hnone : d.tmp i = none) :
    Advanced i b d .openTmp (d.openTmp i) (.writeTmp b) := by
  obtain ⟨hpath, htmp, hapart⟩ := hd
  rw [Dir.openTmp, hnone]
  refine ⟨⟨?_, .inl rfl, ?_⟩, ⟨d.fresh, ?_⟩, ⟨?_, ?_, ?_⟩, nofun, nofun, absurd⟩
  all_goals grind [Function.update_apply]

theorem Advanced.writeTmp {rest : Bytes} (hd : d.Valid) (h : Fits d i b (.writeTmp rest))
    (k : Nat) :
    Advanced i b d (.writeTmp rest) (d.writeTmp i (rest.take k)) (.writeTmp (rest.drop k)) := by
  obtain ⟨hpath, htmp, hapart⟩ := hd
  obtain ⟨n, hn, hne, hb⟩ := h
  rw [Dir.writeTmp, hn]
  refine ⟨⟨fun _ _ => rfl, .inl rfl, ?_⟩, ⟨n, hn, hne, ?_⟩, ⟨hpath, htmp, hapart⟩, nofun,
    nofun, absurd⟩
  · grind [Function.update_apply]
  · dsimp only
    rw [Function.update_self, List.append_assoc, List.take_append_drop, hb]

theorem Advanced.publish (hd : d.Valid) (h : Fits d i b .publish) (hfree : d.path = none) :
    ∃ n, d.tmp i = some n ∧ Advanced i b d .publish { d with path := some n } .rmLinked ∧
      Advanced i b d .publish { d with path := some n, tmp := Function.update d.tmp i none }
        (.done .created) := by
  obtain ⟨hpath, htmp, hapart⟩ := hd
  obtain ⟨n, hn, hne, hb⟩ := h
  refine ⟨n, hn, ⟨⟨?_, .inr ?_, ?_⟩, ⟨n, ?_⟩, ⟨?_, ?_, ?_⟩, ?_, ?_, ?_⟩,
    ⟨?_, .inr ?_, ?_⟩, ⟨n, ?_⟩, ⟨?_, ?_, ?_⟩, ?_, ?_, ?_⟩
  all_goals grind [Function.update_apply, Won]

theorem Advanced.rmTmp (hd : d.Valid) (hfits : Fits (d.rmTmp i) i b pc') (hwon : Won pc ↔ Won pc') :
    Advanced i b d pc (d.rmTmp i) pc' := by
  obtain ⟨hpath, htmp, hapart⟩ := hd
  refine ⟨⟨?_, .inl rfl, fun _ _ _ => rfl⟩, hfits, ⟨hpath, ?_, ?_⟩, hwon.1,
    fun h => .inl (hwon.2 h), absurd⟩
  all_goals
    dsimp only [Dir.rmTmp]
    grind [Function.update_apply]

theorem advanced {e : PutStep} (hd : d.Valid) (h : Fits d e.call b pc)
    (hfree : k = .object → pc = .publish → d.path = none) :
    Advanced e.call b d pc (k.advance e b d pc).1 (k.advance e b d pc).2 := by
  cases pc with
  | mkdir =>
    cases k with
    | object => exact .same true hd h ⟨nofun, nofun⟩
    | slot => exact .same true hd h ⟨nofun, nofun⟩
  | check =>
    dsimp only [PutKind.advance]
    split
    next hthere => exact .same d.made hd (Option.isSome_iff_ne_none.1 hthere) ⟨nofun, nofun⟩
    next =>
      cases k with
      | object => exact .same d.made hd h ⟨nofun, nofun⟩
      | slot => exact .same d.made hd h ⟨nofun, nofun⟩
  | countSessions =>
    rw [PutKind.advance]
    split
    next => exact .same d.made hd trivial ⟨nofun, nofun⟩
    next => exact .same d.made hd h ⟨nofun, nofun⟩
  | openTmp => exact .openTmp hd h
  | writeTmp rest =>
    rw [PutKind.advance]
    split
    next hnil =>
      obtain ⟨n, hn, hne, hb⟩ := h
      rw [hnil, List.append_nil] at hb
      exact .same d.made hd ⟨n, hn, hne, hb⟩ ⟨nofun, nofun⟩
    next => exact .writeTmp hd h _
  | publish =>
    cases hpath : d.path with
    | none =>
      obtain ⟨n, hn, hlinked, hrenamed⟩ := Advanced.publish hd h hpath
      cases k with
      | object =>
        rw [PutKind.advance, Dir.rename, hn]
        exact hrenamed
      | slot =>
        rw [PutKind.advance, Dir.link, hpath, hn]
        exact hlinked
    | some n =>
      cases k with
      | object => rw [hfree rfl rfl] at hpath; cases hpath
      | slot =>
        rw [PutKind.advance, Dir.link, hpath]
        exact .same d.made hd (by rw [Fits, hpath]; exact Option.some_ne_none n) ⟨nofun, nofun⟩
  | rmLinked => exact .rmTmp hd h (iff_of_true (.inl rfl) (.inr rfl))
  | rmRefused => exact .rmTmp hd h ⟨nofun, nofun⟩
  | checkAgain =>
    rw [PutKind.advance, if_pos (Option.isSome_iff_ne_none.2 h)]
    exact .same d.made hd h ⟨nofun, nofun⟩
  | reopenTmp | rewriteTmp rest | rename => exact h.elim
  | done result => exact .same d.made hd h Iff.rfl

def Free (k : PutKind) (calls : List Bytes) (s : Puts) (e : PutStep) : Prop :=
  k = .object → e.call < calls.length → s.pcs e.call = .publish → s.dir.path = none

def Later (s s' : Puts) : Prop :=
  ∀ n, s.dir.path = some n → s'.dir.path = some n ∧ s'.dir.bytes n = s.dir.bytes n

theorem Inv.init (k : PutKind) (calls : List Bytes) : Inv calls (start k) := by
  have hlost (i : Nat) : ¬ Won ((start k).pcs i) := by
    cases k with
    | object => exact nofun
    | slot => exact nofun
  refine ⟨⟨nofun, nofun, nofun⟩, ?_, fun i _ => hlost i, fun i _ h => absurd h (hlost i),
    absurd rfl⟩
  intro i b _
  cases k with
  | object => exact rfl
  | slot => exact rfl

theorem Inv.path_of_won (h : Inv calls s) (hwon : Won (s.pcs i)) :
    i < calls.length ∧ ∃ n, s.dir.path = some n ∧ calls[i]? = some (s.dir.bytes n) := by
  cases hb : calls[i]? with
  | none => exact absurd hwon (h.idle i hb)
  | some b =>
    have hfits := h.fits i b hb
    have hpath : ∃ n, s.dir.path = some n ∧ s.dir.bytes n = b := by
      rcases hwon with heq | heq
      · rwa [heq] at hfits
      · rwa [heq] at hfits
    obtain ⟨n, hn, rfl⟩ := hpath
    exact ⟨(List.getElem?_eq_some_iff.1 hb).1, n, hn, rfl⟩

theorem Inv.step {e : PutStep} (h : Inv calls s) (hfree : Free k calls s e) :
    Inv calls (step k calls s e) ∧ Later s (step k calls s e) := by
  rw [Puts.step]
  cases hb : calls[e.call]? with
  | none => exact ⟨h, fun _ hn => ⟨hn, rfl⟩⟩
  | some b =>
    have hlt := (List.getElem?_eq_some_iff.1 hb).1
    have hadv := advanced (k := k) h.valid (h.fits e.call b hb) fun hk => hfree hk hlt
    have hself : ∀ pc, Function.update s.pcs e.call pc e.call = pc :=
      fun _ => Function.update_self _ _ _
    have hother : ∀ pc j, j ≠ e.call → Function.update s.pcs e.call pc j = s.pcs j :=
      fun _ _ hj => Function.update_of_ne hj _ _
    -- who wins wins alone: before there was no object
    have hwins (j : Nat) (hj : j ≠ e.call) (hwon : Won (s.pcs j)) :
        ¬ Won (k.advance e b s.dir (s.pcs e.call)).2 := by
      intro hwon'
      rcases hadv.wins hwon' with hold | hnone
      · exact hj (h.one j e.call hwon hold)
      · obtain ⟨_, n, hn, _⟩ := h.path_of_won hwon
        rw [hnone] at hn
        cases hn
    refine ⟨⟨hadv.valid, ?_, ?_, ?_, ?_⟩, ?_⟩
    · intro j b' hj
      by_cases heq : j = e.call
      · subst heq
        rw [hb] at hj
        cases hj
        dsimp only
        rw [hself]
        exact hadv.fits
      · dsimp only
        rw [hother _ j heq]
        exact hadv.frame.fits h.valid heq (h.fits j b' hj)
    · intro j hj
      have heq : j ≠ e.call := by
        rintro rfl
        rw [hb] at hj
        cases hj
      dsimp only
      rw [hother _ j heq]
      exact h.idle j hj
    · intro j j' hwon hwon'
      dsimp only at hwon hwon'
      have := h.one j j'
      grind
    · intro hpath
      by_cases hnone : s.dir.path = none
      · refine ⟨e.call, ?_⟩
        dsimp only
        rw [hself]
        exact hadv.path hnone hpath
      · obtain ⟨j, hj⟩ := h.won hnone
        refine ⟨j, ?_⟩
        by_cases heq : j = e.call
        · subst heq
          dsimp only
          rw [hself]
          exact hadv.won hj
        · dsimp only
          rwa [hother _ j heq]
    · intro n hn
      exact ⟨hadv.frame.path_some hn, hadv.frame.bytes n (h.valid.path n hn) fun _ => hn⟩

def after (k : PutKind) (calls : List Bytes) (steps : List PutStep) (m : Nat) : Puts :=
  runAll (step k calls) (start k) (steps.take m)

theorem later_run (h : Inv calls s) (hfree : Along (Puts.step k calls) (Free k calls) s steps) :
    Inv calls (runAll (Puts.step k calls) s steps) ∧
      Later s (runAll (Puts.step k calls) s steps) := by
  induction steps generalizing s with
  | nil => exact ⟨h, fun _ hn => ⟨hn, rfl⟩⟩
  | cons e steps ih =>
    obtain ⟨hnext, hlater⟩ := h.step hfree.1
    obtain ⟨hend, hlater'⟩ := ih hnext hfree.2
    refine ⟨hend, fun n hn => ?_⟩
    obtain ⟨hpath, hbytes⟩ := hlater n hn
    obtain ⟨hpath', hbytes'⟩ := hlater' n hpath
    exact ⟨hpath', hbytes'.trans hbytes⟩

theorem later_after (hle : m ≤ m') (hfree : Along (step k calls) (Free k calls) (start k) steps) :
    Inv calls (after k calls steps m) ∧ Later (after k calls steps m) (after k calls steps m') := by
  have hsplit : steps.take m' = steps.take m ++ (steps.drop m).take (m' - m) := by
    rw [← List.take_add, Nat.add_sub_cancel' hle]
  have hfree' := hfree
  rw [← List.take_append_drop m' steps, hsplit, along_append, along_append] at hfree'
  obtain ⟨hinv, _⟩ := later_run (.init k calls) hfree'.1.1
  rw [after, after, hsplit, runAll_append]
  exact ⟨hinv, (later_run hinv hfree'.1.2).2⟩

def result (s : Puts) (i : Nat) : Option PutResult :=
  match s.pcs i with
  | .done r => some r
  | _ => none

theorem result_eq_some : s.result i = some r ↔ s.pcs i = .done r := by
  rw [result]
  split
  next h => rw [h, Option.some.injEq, PutPc.done.injEq]
  next h => exact iff_of_false nofun fun hr => h r hr

def Immutable (after : Nat → Puts) : Prop :=
  ∀ m₁ m₂ m₃ m₄ b, m₁ ≤ m₂ → m₂ ≤ m₃ → m₃ ≤ m₄ → get (after m₁) (after m₂) = some b →
    get (after m₃) (after m₄) = some b

theorem immutable (hfree : Along (step k calls) (Free k calls) (start k) steps) :
    Immutable (after k calls steps) := by
  intro m₁ m₂ m₃ m₄ b h₁₂ h₂₃ h₃₄ hget
  obtain ⟨n, hn, hb⟩ := Option.map_eq_some_iff.1 hget
  obtain ⟨hn₂, _⟩ := (later_after h₁₂ hfree).2 n hn
  obtain ⟨hn₃, hb₃⟩ := (later_after h₂₃ hfree).2 n hn₂
  obtain ⟨_, hb₄⟩ := (later_after h₃₄ hfree).2 n hn₃
  rw [get, hn₃, Option.map_some, hb₄, hb₃, hb]

theorem Inv.result (h : Inv calls s) (hi : i < calls.length) (hr : s.result i = some r) :
    r = .created ∧ Won (s.pcs i) ∨ r = .alreadyThere ∧ s.dir.path ≠ none ∧ ¬ Won (s.pcs i) ∨
      r = .tooManySessions := by
  rw [result_eq_some] at hr
  have hfits := h.fits i _ (List.getElem?_eq_getElem hi)
  rw [hr] at hfits ⊢
  cases r with
  | created => exact .inl ⟨rfl, .inr rfl⟩
  | alreadyThere => exact .inr (.inl ⟨rfl, hfits, nofun⟩)
  | tooManySessions => exact .inr (.inr rfl)

theorem free_slot (calls : List Bytes) (s : Puts) (steps : List PutStep) :
    Along (step .slot calls) (Free .slot calls) s steps := by
  induction steps generalizing s with
  | nil => trivial
  | cons e steps ih => exact ⟨nofun, ih _⟩

/-- However the steps of the calls follow each other, one call creates the slot and the others that
return find it there; what is read is the whole bytes of that one call, and stays. -/
theorem slot_write_once {calls : List Bytes} (hcalls : calls ≠ []) (steps : List PutStep) :
    (∃ w < calls.length,
      (∀ i < calls.length, ∀ r, (runAll (step .slot calls) (start .slot) steps).result i = some r →
        r ≠ .tooManySessions → r = if i = w then .created else .alreadyThere) ∧
      ∀ m₁ m₂, m₁ ≤ m₂ → get (after .slot calls steps m₁) (after .slot calls steps m₂) = none ∨
        get (after .slot calls steps m₁) (after .slot calls steps m₂) = calls[w]?) ∧
    Immutable (after .slot calls steps) := by
  have hfree := free_slot calls (start .slot) steps
  refine ⟨?_, immutable hfree⟩
  obtain ⟨hinv, _⟩ := later_run (.init .slot calls) hfree
  have hend (m : Nat) :
      Later (after .slot calls steps m) (runAll (step .slot calls) (start .slot) steps) := by
    rcases Nat.le_total m steps.length with hle | hle
    · have hlater := (later_after hle hfree).2
      rwa [after, after, List.take_length] at hlater
    · rw [after, List.take_of_length_le hle]
      exact fun n hn => ⟨hn, rfl⟩
  cases hpath : (runAll (step .slot calls) (start .slot) steps).dir.path with
  | none =>
    refine ⟨0, List.length_pos_of_ne_nil hcalls, ?_, ?_⟩
    · intro i hi r hr hcap
      rcases hinv.result hi hr with ⟨_, hwon⟩ | ⟨_, hthere, _⟩ | rfl
      · obtain ⟨_, n, hn, _⟩ := hinv.path_of_won hwon
        rw [hpath] at hn
        cases hn
      · exact absurd hpath hthere
      · exact absurd rfl hcap
    · intro m₁ m₂ _
      refine .inl (Option.map_eq_none_iff.2 ?_)
      cases hn : (after .slot calls steps m₁).dir.path with
      | none => rfl
      | some n =>
        rw [(hend m₁ n hn).1] at hpath
        cases hpath
  | some n =>
    obtain ⟨w, hw⟩ := hinv.won (by rw [hpath]; exact Option.some_ne_none n)
    obtain ⟨hlt, n', hn', hb⟩ := hinv.path_of_won hw
    rw [hpath] at hn'
    cases hn'
    refine ⟨w, hlt, ?_, ?_⟩
    · intro i hi r hr hcap
      rcases hinv.result hi hr with ⟨rfl, hwon⟩ | ⟨rfl, _, hlost⟩ | rfl
      · rw [if_pos (hinv.one i w hwon hw)]
      · rw [if_neg]
        rintro rfl
        exact hlost hw
      · exact absurd rfl hcap
    · intro m₁ m₂ hle
      cases hn : (after .slot calls steps m₁).dir.path with
      | none => exact .inl (Option.map_eq_none_iff.2 hn)
      | some n' =>
        obtain ⟨hsame, hbytes⟩ := hend m₁ n' hn
        rw [hpath] at hsame
        cases hsame
        have hn₂ := ((later_after hle hfree).2 n hn).1
        refine .inr ?_
        rw [get, hn, Option.map_some, hb, (hend m₂ n hn₂).2]

def raceCalls : List Bytes := [[1], [2]]

/-- Two writers pass the first check; the second link is refused. -/
def raceSteps : List PutStep :=
  [0, 1, 0, 1, 0, 1, 0, 1, 0, 1, 0, 1, 1, 0, 1, 0, 0].map fun call => ⟨call, 9, 0⟩

theorem slot_write_once_race :
    (runAll (step .slot raceCalls) (start .slot) raceSteps).result 0 = some .alreadyThere ∧
    (runAll (step .slot raceCalls) (start .slot) raceSteps).result 1 = some .created ∧
    (∃ w < raceCalls.length, (∀ i < raceCalls.length, ∀ r,
        (runAll (step .slot raceCalls) (start .slot) raceSteps).result i = some r →
        r ≠ .tooManySessions → r = if i = w then .created else .alreadyThere) ∧ ∀ m₁ m₂, m₁ ≤ m₂ →
        get (after .slot raceCalls raceSteps m₁) (after .slot raceCalls raceSteps m₂) = none ∨
        get (after .slot raceCalls raceSteps m₁) (after .slot raceCalls raceSteps m₂) =
          raceCalls[w]?) ∧ Immutable (after .slot raceCalls raceSteps) :=
  ⟨by decide +kernel, by decide +kernel, slot_write_once (by decide) raceSteps⟩

section Objects
variable {e : PutStep}

theorem advance_path (e : PutStep) (b : Bytes) (d : Dir) (pc : PutPc) :
    (PutKind.object.advance e b d pc).1.path = d.path ∨
      (PutKind.object.advance e b d pc).2 = .done .created := by
  have hopen : (d.openTmp e.call).path = d.path := by
    rw [Dir.openTmp]
    split <;> rfl
  have hwrite (chunk : Bytes) : (d.writeTmp e.call chunk).path = d.path := by
    rw [Dir.writeTmp]
    split <;> rfl
  cases pc with
  | publish | rename | rmLinked => exact .inr rfl
  | openTmp | reopenTmp => exact .inl hopen
  | writeTmp rest | rewriteTmp rest =>
    rw [PutKind.advance]
    split
    next => exact .inl rfl
    next => exact .inl (hwrite _)
  | _ => exact .inl rfl

theorem pcs_step (s : Puts) (hi : s.pcs i = .done r) : (step k calls s e).pcs i = .done r := by
  rw [step]
  cases calls[e.call]? with
  | none => exact hi
  | some b =>
    dsimp only
    by_cases heq : i = e.call
    · subst heq
      rw [Function.update_self, hi]
      rfl
    · rw [Function.update_of_ne heq, hi]

theorem pcs_run (s : Puts) (steps : List PutStep) (hi : s.pcs i = .done r) :
    (runAll (step k calls) s steps).pcs i = .done r := by
  induction steps generalizing s with
  | nil => exact hi
  | cons e steps ih => exact ih _ (pcs_step s hi)

def Owned (calls : List Bytes) (s : Puts) : Prop :=
  s.dir.path ≠ none → ∃ i < calls.length, s.pcs i = .done .created

theorem Owned.step (h : Owned calls s) : Owned calls (step .object calls s e) := by
  intro hpath
  cases hb : calls[e.call]? with
  | none =>
    rw [Puts.step, hb] at hpath ⊢
    exact h hpath
  | some b =>
    by_cases hold : s.dir.path = none
    · refine ⟨e.call, (List.getElem?_eq_some_iff.1 hb).1, ?_⟩
      rw [Puts.step, hb] at hpath ⊢
      refine (Function.update_self _ _ _).trans ((advance_path e b s.dir _).resolve_left
        fun hsame => ?_)
      exact hpath (hsame.trans hold)
    · obtain ⟨i, hi, hcreated⟩ := h hold
      exact ⟨i, hi, pcs_step s hcreated⟩

def OneCreated (calls : List Bytes) (s : Puts) : Prop :=
  ∀ i < calls.length, ∀ j < calls.length, s.result i = some .created →
    s.result j = some .created → i = j

theorem free_of_oneCreated {steps : List PutStep} (h : Owned calls s)
    (hone : OneCreated calls (runAll (step .object calls) s steps)) :
    Along (step .object calls) (Free .object calls) s steps := by
  induction steps generalizing s with
  | nil => trivial
  | cons e steps ih =>
    refine ⟨?_, ih h.step hone⟩
    intro _ hlt hpublish
    by_contra hpath
    obtain ⟨i, hi, hcreated⟩ := h hpath
    have hnext : (step .object calls s e).pcs e.call = .done .created := by
      rw [step, List.getElem?_eq_getElem hlt]
      refine (Function.update_self _ _ _).trans ?_
      rw [hpublish]
      rfl
    have heq := hone i hi e.call hlt (result_eq_some.2 (pcs_run s (e :: steps) hcreated))
      (result_eq_some.2 (pcs_run _ steps hnext))
    rw [heq, hpublish] at hcreated
    cases hcreated

/-- At most one put creates the object and what is read stays if and only if no put renames its file
onto an object that is there. -/
theorem object_immutable_iff (calls : List Bytes) (steps : List PutStep) :
    (OneCreated calls (runAll (step .object calls) (start .object) steps) ∧
      Immutable (after .object calls steps)) ↔ Along (step .object calls)
      (fun s e => e.call < calls.length → s.pcs e.call = .publish → s.dir.path = none)
      (start .object) steps := by
  have hiff : Along (step .object calls) (Free .object calls) (start .object) steps ↔
      Along (step .object calls)
        (fun s e => e.call < calls.length → s.pcs e.call = .publish → s.dir.path = none)
        (start .object) steps :=
    along_iff (fun _ _ (_ : True) => forall_prop_of_true rfl) (fun _ _ _ _ => trivial) trivial
  rw [← hiff]
  constructor
  · rintro ⟨hone, _⟩
    exact free_of_oneCreated (absurd rfl) hone
  · intro hfree
    obtain ⟨hinv, _⟩ := later_run (.init .object calls) hfree
    refine ⟨?_, immutable hfree⟩
    intro i _ j _ hi hj
    exact hinv.one i j (.inr (result_eq_some.1 hi)) (.inr (result_eq_some.1 hj))

def objectRace : List PutStep :=
  [0, 0, 1, 1, 0, 0, 0, 0, 1, 1, 1, 1].map fun call => ⟨call, 9, 0⟩

theorem object_replaced :
    (runAll (step .object raceCalls) (start .object) objectRace).result 0 = some .created ∧
    (runAll (step .object raceCalls) (start .object) objectRace).result 1 = some .created ∧
    get (after .object raceCalls objectRace 8) (after .object raceCalls objectRace 8) = some [1] ∧
    get (after .object raceCalls objectRace 12) (after .object raceCalls objectRace 12) =
      some [2] := by
  decide +kernel

end Objects

end Puts

end Roam
