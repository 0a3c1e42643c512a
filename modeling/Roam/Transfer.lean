import Roam.Engine
import Roam.Library.Chunks
import Roam.Library.Run

namespace Roam
set_option autoImplicit true
open Library

structure Arrival where
  env : Env
  peer : UInt64
  hash : String
  offset : Nat
  totalLen : Nat
  bytes : Bytes

def Arrival.frame (a : Arrival) : Frame := .blobChunk a.hash a.offset a.totalLen a.bytes

structure Transfer where
  stored : Option Bytes
  part : Option Bytes
  entry : Option IncomingBlob

theorem blobChunkSize_pos : 0 < blobChunkSize := by decide

section Offsets

theorem offsetIsAdmissible_iff : chunkOffsetIsAdmissible offset totalLen = true ↔
      blobChunkSize ∣ offset ∧ (offset < totalLen ∨ offset = 0 ∧ totalLen = 0) := by
  rw [chunkOffsetIsAdmissible]
  split
  next hz =>
    rw [decide_eq_true_eq]
    constructor
    · rintro rfl
      exact ⟨Nat.dvd_zero _, .inr ⟨rfl, hz⟩⟩
    · rintro ⟨_, hlt | ⟨h, _⟩⟩
      · omega
      · exact h
  next hz =>
    rw [Bool.and_eq_true, decide_eq_true_eq, decide_eq_true_eq, Nat.dvd_iff_mod_eq_zero]
    omega

theorem chunkIsAdmissible_iff : chunkIsAdmissible offset totalLen len = true ↔
      chunkOffsetIsAdmissible offset totalLen = true ∧ len = expectedChunkLen offset totalLen := by
  rw [chunkIsAdmissible, Bool.and_eq_true, decide_eq_true_eq]

theorem chunk_end_le (h : chunkIsAdmissible offset totalLen len = true) :
    offset + len ≤ totalLen := by
  obtain ⟨ho, hlen⟩ := chunkIsAdmissible_iff.1 h
  have hoffset := (offsetIsAdmissible_iff.1 ho).2
  rw [expectedChunkLen] at hlen
  omega

def Complete (totalLen : Nat) (marked : Nat → Bool) : Prop :=
  ∀ offset, chunkOffsetIsAdmissible offset totalLen = true → marked offset = true

theorem chunkOffsetIsAdmissible_zero (totalLen : Nat) :
    chunkOffsetIsAdmissible 0 totalLen = true := by
  rw [offsetIsAdmissible_iff]
  exact ⟨Nat.dvd_zero _, by omega⟩

theorem complete_iff_count (ho : chunkOffsetIsAdmissible offset totalLen = true)
    (hmarked : marked offset = true) :
    Complete totalLen marked ↔ totalLen ≤ (covered blobChunkSize totalLen marked).card := by
  rw [le_card_covered_iff]
  constructor
  · intro h o hlt hdvd
    exact h o (offsetIsAdmissible_iff.2 ⟨hdvd, .inl hlt⟩)
  · intro h o hadm
    obtain ⟨hdvd, hlt | ⟨rfl, hz⟩⟩ := offsetIsAdmissible_iff.1 hadm
    · exact h o hlt hdvd
    · obtain ⟨_, hlt | ⟨rfl, _⟩⟩ := offsetIsAdmissible_iff.1 ho
      · omega
      · exact hmarked

theorem Complete.mono (h : Complete totalLen marked)
    (hle : ∀ o, marked o = true → marked' o = true) :
    Complete totalLen marked' := fun o ho => hle o (h o ho)

end Offsets

namespace Transfer
variable {good : Bytes → Bool} {t : Transfer} {n : Nat} {b : Bytes} {a : Arrival}

def marks (t : Transfer) : Nat → Bool := fun offset => t.entry.any fun e => e.seen.contains offset

def receive (good : Bytes → Bool) (t : Transfer) (a : Arrival) : Transfer :=
  if a.totalLen > maxIncomingBlobBytes then t
  else if !chunkIsAdmissible a.offset a.totalLen a.bytes.length then t
  else if t.stored.isSome then t
  else
    let part := t.part.getD (List.replicate a.totalLen 0)
    if part.length = a.totalLen then
      let part := overwrite part a.offset a.bytes
      let entry := Engine.countChunk (t.entry.getD ⟨a.totalLen, 0, ∅⟩) a.offset a.totalLen
        a.bytes.length
      if entry.received < entry.totalLen then { t with part := some part, entry := some entry }
      else ⟨if good part then some part else none, none, none⟩
    else t

structure Takes (t : Transfer) (a : Arrival) : Prop where
  stored : t.stored = none
  size : a.totalLen ≤ maxIncomingBlobBytes
  admissible : chunkIsAdmissible a.offset a.totalLen a.bytes.length = true
  length : (t.part.getD (List.replicate a.totalLen 0)).length = a.totalLen

theorem receive_refused (h : ¬ t.Takes a) : t.receive good a = t := by
  rw [receive]
  split
  next => rfl
  next hmax =>
    split
    next => rfl
    next hadm =>
      split
      next => rfl
      next hstored =>
        dsimp only
        rw [if_neg]
        intro hlen
        rw [Bool.not_eq_true, Bool.not_eq_false'] at hadm
        rw [Bool.not_eq_true, Option.isSome_eq_false_iff, Option.isNone_iff_eq_none] at hstored
        exact h ⟨hstored, not_lt.1 hmax, hadm, hlen⟩

theorem receive_stored (h : t.stored.isSome = true) : t.receive good a = t := by
  apply receive_refused
  intro htakes
  rw [htakes.stored] at h
  cases h

structure Tallied (n : Nat) (marked : Nat → Bool) (entry : IncomingBlob) : Prop where
  totalLen : entry.totalLen = n
  seen : ∀ offset, entry.seen.contains offset = marked offset
  received : entry.received = (covered blobChunkSize n marked).card

/-- The part file has a given length, and the count agrees with it and has not reached it. -/
structure Counted (n : Nat) (t : Transfer) : Prop where
  part : ∀ part, t.part = some part → part.length = n
  entry : ∀ entry, t.entry = some entry →
    t.part.isSome = true ∧ Tallied n t.marks entry ∧ entry.received < n

theorem Tallied.count {entry : IncomingBlob} (h : Tallied n marked entry)
    (ho : chunkOffsetIsAdmissible offset n = true) : Tallied n (mark marked offset)
      (Engine.countChunk entry offset n (expectedChunkLen offset n)) := by
  rw [Engine.countChunk]
  split
  next hnew =>
    rw [Bool.not_eq_true', h.seen] at hnew
    refine ⟨h.totalLen, ?_, ?_⟩
    · intro o
      rw [Bool.eq_iff_iff, Std.TreeSet.contains_iff_mem, Std.TreeSet.mem_insert, compare_eq_iff_eq,
        mark_iff, ← h.seen, Std.TreeSet.contains_iff_mem, eq_comm]
    · rw [card_covered_mark blobChunkSize_pos (offsetIsAdmissible_iff.1 ho).1 hnew.2, ← h.received]
      rfl
  next hold =>
    have hmarked : mark marked offset = marked := by
      funext o
      rw [mark]
      by_cases hoo : o = offset
      · rw [hoo, beq_self_eq_true, Bool.true_or, ← h.seen]
        rw [Bool.not_eq_true', not_and, Bool.not_eq_false] at hold
        exact (hold h.totalLen).symm
      · rw [beq_false_of_ne hoo, Bool.false_or]
    rw [hmarked]
    exact h

theorem Counted.tallied (h : Counted n t) : Tallied n t.marks (t.entry.getD ⟨n, 0, ∅⟩) := by
  cases he : t.entry with
  | none =>
    have hmarks : t.marks = fun _ => false := by
      funext offset
      rw [marks, he, Option.any_none]
    rw [hmarks]
    refine ⟨rfl, ?_, ?_⟩
    · intro offset
      exact Std.TreeSet.contains_emptyc
    · rw [covered_none, Finset.card_empty]
      rfl
  | some entry => exact (h.entry entry he).2.1

def written (t : Transfer) (a : Arrival) : Bytes :=
  overwrite (t.part.getD (List.replicate a.totalLen 0)) a.offset a.bytes

inductive Received (good : Bytes → Bool) (t : Transfer) (a : Arrival) : Transfer → Prop
  | counted (entry : IncomingBlob) (htally : Tallied a.totalLen (mark t.marks a.offset) entry)
      (hlt : entry.received < a.totalLen) :
      Received good t a ⟨none, some (t.written a), some entry⟩
  | finished (hall : Complete a.totalLen (mark t.marks a.offset))
      (hgood : good (t.written a) = true) : Received good t a ⟨some (t.written a), none, none⟩
  | discarded (hall : Complete a.totalLen (mark t.marks a.offset))
      (hbad : good (t.written a) = false) : Received good t a ⟨none, none, none⟩

theorem Counted.length_part (h : Counted n t) : (t.part.getD (List.replicate n 0)).length = n := by
  cases hp : t.part with
  | none => exact List.length_replicate
  | some part => exact h.part part hp

theorem receive_outcome (h : Counted a.totalLen t) (htakes : t.Takes a) :
    Received good t a (t.receive good a) := by
  obtain ⟨ho, hlen⟩ := chunkIsAdmissible_iff.1 htakes.admissible
  have htally := h.tallied.count ho
  rw [← hlen] at htally
  have hcount :=
    complete_iff_count ho (mark_iff.2 (.inl rfl) : mark t.marks a.offset a.offset = true)
  rw [receive, if_neg htakes.size.not_gt, htakes.admissible, if_neg (by decide), htakes.stored,
    if_neg (by decide), if_pos htakes.length]
  dsimp only
  split
  next hlt =>
    rw [htally.totalLen] at hlt
    exact .counted _ htally hlt
  next hge =>
    have hall : Complete a.totalLen (mark t.marks a.offset) := by
      rw [hcount, ← htally.received]
      rw [htally.totalLen] at hge
      exact not_lt.1 hge
    split
    next hgood => exact .finished hall hgood
    next hbad => exact .discarded hall (Bool.not_eq_true _ ▸ hbad)

theorem Counted.length_written (h : Counted a.totalLen t)
    (hadm : chunkIsAdmissible a.offset a.totalLen a.bytes.length = true) :
    (t.written a).length = a.totalLen := by
  apply (length_overwrite ?_).trans h.length_part
  rw [h.length_part]
  exact chunk_end_le hadm

theorem marks_some {stored part : Option Bytes} {entry : IncomingBlob}
    (h : Tallied n marked entry) : marks ⟨stored, part, some entry⟩ = marked := funext h.seen

theorem Counted.empty (hpart : t.part = none) (hentry : t.entry = none) : Counted n t where
  part part h := by cases hpart.symm.trans h
  entry entry h := by cases hentry.symm.trans h

theorem Counted.received (h : Counted a.totalLen t)
    (hadm : chunkIsAdmissible a.offset a.totalLen a.bytes.length = true)
    (hr : Received good t a t') : Counted a.totalLen t' := by
  cases hr with
  | counted entry htally hlt =>
    refine ⟨?_, ?_⟩
    · rintro part ⟨⟩
      exact h.length_written hadm
    · rintro entry ⟨⟩
      rw [marks_some htally]
      exact ⟨rfl, htally, hlt⟩
  | finished hall hgood => exact .empty rfl rfl
  | discarded hall hbad => exact .empty rfl rfl

theorem Counted.entry_none (h : Counted n t) (hp : t.part = none) : t.entry = none := by
  rw [Option.eq_none_iff_forall_ne_some]
  intro entry he
  have hsome := (h.entry entry he).1
  rw [hp] at hsome
  cases hsome

theorem Counted.not_complete (h : Counted n t) : ¬ Complete n t.marks := by
  intro hall
  cases he : t.entry with
  | none =>
    have hzero := hall 0 (chunkOffsetIsAdmissible_zero n)
    rw [marks, he] at hzero
    cases hzero
  | some entry =>
    obtain ⟨_, htally, hlt⟩ := h.entry entry he
    have hcard : n ≤ (covered blobChunkSize n t.marks).card :=
      le_card_covered_iff.2 fun o ho hdvd => hall o (offsetIsAdmissible_iff.2 ⟨hdvd, .inl ho⟩)
    rw [← htally.received] at hcard
    exact hlt.not_ge hcard

section Honest

structure IsChunk (b : Bytes) (a : Arrival) : Prop where
  totalLen : a.totalLen = b.length
  offset : chunkOffsetIsAdmissible a.offset b.length = true
  bytes : a.bytes = chunkAt blobChunkSize b a.offset

variable {a : Arrival}

theorem IsChunk.admissible (h : IsChunk b a) :
    chunkIsAdmissible a.offset a.totalLen a.bytes.length = true := by
  rw [chunkIsAdmissible_iff, h.totalLen, h.bytes, length_chunkAt]
  exact ⟨h.offset, rfl⟩

theorem IsChunk.takes (h : IsChunk b a) (hcounted : Counted b.length t)
    (hstored : t.stored = none) (hmax : b.length ≤ maxIncomingBlobBytes) : t.Takes a where
  stored := hstored
  size := h.totalLen.trans_le hmax
  admissible := h.admissible
  length := by
    rw [h.totalLen]
    exact hcounted.length_part

structure Honest (b : Bytes) (marked : Nat → Bool) (t : Transfer) : Prop where
  counted : Counted b.length t
  stored : t.stored = none
  marks : t.marks = marked
  agrees : ∀ part, t.part = some part → AgreesOn blobChunkSize marked part b

def Progress (b : Bytes) (marked : Nat → Bool) (t : Transfer) : Prop :=
  Complete b.length marked ∧ t.stored = some b ∨ Honest b marked t

theorem agreesOn_none {file : Bytes} (h : file.length = b.length) :
    AgreesOn blobChunkSize (fun _ => false) file b :=
  ⟨h, fun _ _ hf => absurd hf Bool.false_ne_true⟩

theorem marks_none (h : t.entry = none) : t.marks = fun _ => false := by
  funext offset
  rw [marks, h, Option.any_none]

theorem Honest.empty (hstored : t.stored = none) (hpart : t.part = none) (hentry : t.entry = none) :
    Honest b (fun _ => false) t where
  counted := .empty hpart hentry
  stored := hstored
  marks := marks_none hentry
  agrees part h := by cases hpart.symm.trans h

theorem Honest.agrees_part (h : Honest b marked t) :
    AgreesOn blobChunkSize marked (t.part.getD (List.replicate b.length 0)) b := by
  cases hp : t.part with
  | some part => exact h.agrees part hp
  | none =>
    -- without a part file nothing has been counted
    rw [← h.marks, marks_none (h.counted.entry_none hp)]
    exact agreesOn_none List.length_replicate

theorem Honest.agrees_written (h : Honest b marked t) (ha : IsChunk b a) :
    AgreesOn blobChunkSize (mark marked a.offset) (t.written a) b := by
  obtain ⟨hdvd, hle⟩ := offsetIsAdmissible_iff.1 ha.offset
  rw [written, ha.totalLen, ha.bytes]
  exact h.agrees_part.write blobChunkSize_pos hdvd (by omega)

theorem eq_of_complete (h : AgreesOn blobChunkSize marked file b)
    (hall : Complete b.length marked) : file = b :=
  AgreesOn.eq h fun o ho hdvd => hall o (offsetIsAdmissible_iff.2 ⟨hdvd, .inl ho⟩)

theorem Honest.receive (h : Honest b marked t) (ha : IsChunk b a)
    (hmax : b.length ≤ maxIncomingBlobBytes) (hgood : good b = true) :
    Progress b (mark marked a.offset) (t.receive good a) := by
  have hcounted : Counted a.totalLen t := ha.totalLen ▸ h.counted
  have hr : Received good t a (t.receive good a) :=
    receive_outcome hcounted (ha.takes h.counted h.stored hmax)
  have hagrees := h.agrees_written ha
  have hnext := hcounted.received ha.admissible hr
  generalize t.receive good a = t' at hr hnext
  rw [← h.marks, ha.totalLen] at *
  cases hr with
  | counted entry htally hlt =>
    refine .inr ⟨hnext, rfl, marks_some htally, ?_⟩
    rintro part ⟨⟩
    exact hagrees
  | finished hall hg =>
    rw [eq_of_complete hagrees (ha.totalLen ▸ hall)]
    exact .inl ⟨ha.totalLen ▸ hall, rfl⟩
  | discarded hall hbad =>
    rw [eq_of_complete hagrees (ha.totalLen ▸ hall), hgood] at hbad
    cases hbad

theorem Progress.receive (h : Progress b marked t) (ha : IsChunk b a)
    (hmax : b.length ≤ maxIncomingBlobBytes) (hgood : good b = true) :
    Progress b (mark marked a.offset) (t.receive good a) := by
  rcases h with ⟨hall, hstored⟩ | h
  · rw [receive_stored (by rw [hstored]; rfl)]
    exact .inl ⟨hall.mono fun o ho => mark_iff.2 (.inr ho), hstored⟩
  · exact h.receive ha hmax hgood

theorem Progress.stored_iff (h : Progress b marked t) :
    t.stored.isSome = true ↔ Complete b.length marked := by
  rcases h with ⟨hall, hstored⟩ | h
  · rw [hstored]
    exact iff_of_true rfl hall
  · rw [h.stored]
    exact iff_of_false Bool.false_ne_true (h.marks ▸ h.counted.not_complete)

theorem Progress.stored_eq (h : Progress b marked t) (hb : t.stored = some bytes) : bytes = b := by
  rcases h with ⟨hall, hstored⟩ | h
  · exact Option.some.inj (hb.symm.trans hstored)
  · cases h.stored.symm.trans hb

theorem run_chunks {P : (Nat → Bool) → Transfer → Prop}
    (hstep : ∀ marked t a, P marked t → IsChunk b a → P (mark marked a.offset) (t.receive good a))
    (h : P marked t) (ha : ∀ a ∈ arrivals, IsChunk b a) :
    P (markAll marked (arrivals.map Arrival.offset)) (runAll (receive good) t arrivals) := by
  induction arrivals generalizing t marked with
  | nil => exact h
  | cons a arrivals ih =>
    have hnext := hstep marked t a h (ha a List.mem_cons_self)
    exact ih hnext fun a' ha' => ha a' (List.mem_cons_of_mem a ha')

theorem Progress.run (h : Progress b marked t) (ha : ∀ a ∈ arrivals, IsChunk b a)
    (hmax : b.length ≤ maxIncomingBlobBytes) (hgood : good b = true) :
    Progress b (markAll marked (arrivals.map Arrival.offset))
      (runAll (Transfer.receive good) t arrivals) :=
  run_chunks (fun _ _ _ h ha => h.receive ha hmax hgood) h ha

end Honest

section Hostile

/-- Chunks of a blob arrive at a transfer that may hold other bytes: the offsets that have arrived
are counted, unless the transfer has started anew from chunks of the blob, or has ended. -/
def Recovers (b : Bytes) (marked : Nat → Bool) (t : Transfer) : Prop :=
  t.stored = none ∧ Counted b.length t ∧ (∀ o, marked o = true → t.marks o = true) ∨
    (∃ marked', Honest b marked' t) ∨ t.stored.isSome = true

theorem recovers_of_progress (h : Progress b marked' t) : Recovers b marked t := by
  rcases h with ⟨_, hstored⟩ | h
  · exact .inr (.inr (by rw [hstored]; rfl))
  · exact .inr (.inl ⟨_, h⟩)

variable {a : Arrival}

theorem Recovers.receive (h : Recovers b marked t) (ha : IsChunk b a)
    (hmax : b.length ≤ maxIncomingBlobBytes) (hgood : good b = true) :
    Recovers b (mark marked a.offset) (t.receive good a) := by
  rcases h with ⟨hstored, hcounted, hmarks⟩ | ⟨marked', h⟩ | h
  · have htakes := ha.takes hcounted hstored hmax
    rw [← ha.totalLen] at hcounted
    have hr : Received good t a (t.receive good a) := receive_outcome hcounted htakes
    have hnext := hcounted.received ha.admissible hr
    generalize t.receive good a = t' at hr hnext
    cases hr with
    | counted entry htally hlt =>
      rw [ha.totalLen] at hnext
      refine .inl ⟨rfl, hnext, ?_⟩
      intro o ho
      rw [marks_some htally, mark_iff]
      exact (mark_iff.1 ho).imp_right (hmarks o)
    | finished hall hg => exact .inr (.inr rfl)
    | discarded hall hbad => exact .inr (.inl ⟨_, .empty rfl rfl rfl⟩)
  · exact recovers_of_progress (h.receive ha hmax hgood)
  · rw [receive_stored h]
    exact .inr (.inr h)

def IsStream (b : Bytes) (arrivals : List Arrival) : Prop :=
  (∀ a ∈ arrivals, IsChunk b a) ∧
    Complete b.length (markAll (fun _ => false) (arrivals.map Arrival.offset))

theorem IsStream.complete (h : IsStream b arrivals) :
    Complete b.length (markAll marked (arrivals.map Arrival.offset)) := by
  apply h.2.mono
  intro o ho
  rw [markAll_iff] at ho ⊢
  exact ho.imp_right fun hf => absurd hf Bool.false_ne_true

theorem runAll_stored (h : t.stored.isSome = true) : runAll (receive good) t arrivals = t := by
  induction arrivals with
  | nil => rfl
  | cons a arrivals ih =>
    rw [runAll, List.foldl_cons, receive_stored h]
    exact ih

theorem stored_of_streams (hcounted : Counted b.length t) (hstored : t.stored = none)
    (hmax : b.length ≤ maxIncomingBlobBytes) (hgood : good b = true)
    (hfirst : IsStream b first) (hsecond : IsStream b second) :
    (runAll (receive good) t (first ++ second)).stored.isSome = true := by
  rw [runAll_append]
  have hrecovers : Recovers b (fun _ => false) t :=
    .inl ⟨hstored, hcounted, fun _ hf => absurd hf Bool.false_ne_true⟩
  have hafter := run_chunks (fun _ _ _ h ha => h.receive ha hmax hgood) hrecovers hfirst.1
  rcases hafter with ⟨_, hcounted', hmarks⟩ | ⟨marked', h⟩ | h
  · exact absurd (hfirst.2.mono hmarks) hcounted'.not_complete
  · have hrun : Progress b marked' _ := .inr h
    exact (hrun.run hsecond.1 hmax hgood).stored_iff.2 hsecond.complete
  · rw [runAll_stored h]
    exact h

theorem receive_shut_out (ha : IsChunk b a) (h : ¬ (b.length ≤ maxIncomingBlobBytes ∧ ∀ part,
      t.part = some part → part.length = b.length)) : t.receive good a = t := by
  apply receive_refused
  intro htakes
  obtain ⟨_, hsize, _, hlen⟩ := htakes
  rw [ha.totalLen] at hsize hlen
  apply h
  refine ⟨hsize, ?_⟩
  intro part hp
  rwa [hp] at hlen

theorem runAll_shut_out (ha : ∀ a ∈ arrivals, IsChunk b a)
    (h : ¬ (b.length ≤ maxIncomingBlobBytes ∧ ∀ part,
      t.part = some part → part.length = b.length)) : runAll (receive good) t arrivals = t := by
  induction arrivals with
  | nil => rfl
  | cons a arrivals ih =>
    rw [runAll, List.foldl_cons, receive_shut_out (ha a List.mem_cons_self) h]
    exact ih fun a' ha' => ha a' (List.mem_cons_of_mem a ha')

def Sound (t : Transfer) : Prop := ∃ n, Counted n t

theorem Sound.congr (h : Sound t) (hpart : t'.part = t.part) (hentry : t'.entry = t.entry) :
    Sound t' := by
  have hmarks : t'.marks = t.marks := by
    funext offset
    rw [marks, marks, hentry]
  obtain ⟨n, h⟩ := h
  refine ⟨n, ?_, ?_⟩
  · rw [hpart]
    exact h.part
  · rw [hpart, hentry, hmarks]
    exact h.entry

theorem Sound.of_entry (h : t.entry = none) : Sound t := by
  refine ⟨(t.part.getD []).length, ?_, ?_⟩
  · intro part hp
    rw [hp, Option.getD_some]
  · intro entry he
    cases h.symm.trans he

theorem Sound.counted (h : Sound t) (hpart : ∀ part, t.part = some part → part.length = n) :
    Counted n t := by
  obtain ⟨m, h⟩ := h
  cases hp : t.part with
  | some part =>
    have hm : m = n := (h.part part hp).symm.trans (hpart part hp)
    exact hm ▸ h
  | none =>
    exact .empty hp (h.entry_none hp)

theorem Sound.receive (h : Sound t) : Sound (t.receive good a) := by
  by_cases htakes : t.Takes a
  · have hcounted : Counted a.totalLen t := by
      apply h.counted
      intro part hp
      have hlen := htakes.length
      rwa [hp] at hlen
    exact ⟨_, hcounted.received htakes.admissible (receive_outcome hcounted htakes)⟩
  · rwa [receive_refused htakes]

/-- Two whole streams of a blob store it, exactly if no part file of another length is in the way.
-/
theorem streams_stored_iff (h : Sound t) (hgood : good b = true) (hfirst : IsStream b first)
    (hsecond : IsStream b second) :
    (runAll (Transfer.receive good) t (first ++ second)).stored.isSome = true ↔
      t.stored.isSome = true ∨ b.length ≤ maxIncomingBlobBytes ∧
        ∀ part, t.part = some part → part.length = b.length := by
  by_cases hstored : t.stored.isSome = true
  · rw [runAll_stored hstored]
    exact iff_of_true hstored (.inl hstored)
  · rw [or_iff_right hstored]
    rw [Bool.not_eq_true, Option.isSome_eq_false_iff, Option.isNone_iff_eq_none] at hstored
    by_cases hfits : b.length ≤ maxIncomingBlobBytes ∧
        ∀ part, t.part = some part → part.length = b.length
    · apply iff_of_true _ hfits
      exact stored_of_streams (h.counted hfits.2) hstored hfits.1 hgood hfirst hsecond
    · have hall : ∀ a ∈ first ++ second, IsChunk b a :=
        List.forall_mem_append.2 ⟨hfirst.1, hsecond.1⟩
      rw [runAll_shut_out hall hfits, hstored]
      exact iff_of_false Bool.false_ne_true hfits

end Hostile

end Transfer

end Roam
