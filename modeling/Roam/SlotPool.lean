import Roam.Vfs
import Roam.Library.Run
import Roam.Library.TreeFold

namespace Roam
set_option autoImplicit true
open Library

section Header

theorem Header.length_encode {h : Header} (hle : h.name.length ≤ maxName) :
    h.encode.length = headerLen := by
  have hmagic : magic.length = 8 := rfl
  simp only [encode, List.length_append, hmagic, List.length_cons, List.length_nil,
    List.length_replicate]
  rw [maxName] at hle ⊢
  have : headerLen = 1024 := rfl
  omega

theorem Header.decode_eq_some :
    decode bytes = some h ↔
      11 + h.name.length ≤ bytes.length ∧ bytes.take 8 = magic ∧
        (bytes.getD 9 0).toNat + 256 * (bytes.getD 10 0).toNat = h.name.length ∧
        (bytes.drop 11).take h.name.length = h.name ∧ validUtf8 h.name = true ∧
        decide (bytes.getD 8 0 &&& 1 ≠ 0) = h.ownerOnly := by
  rw [decode]
  constructor
  · intro hd
    split at hd
    next => cases hd
    next hstart =>
      rw [not_or, not_lt, not_not] at hstart
      dsimp only at hd
      split at hd
      next hfits =>
        split at hd
        next hutf8 =>
          cases hd
          have hlen : ((bytes.drop 11).take
              ((bytes.getD 9 0).toNat + 256 * (bytes.getD 10 0).toNat)).length =
              (bytes.getD 9 0).toNat + 256 * (bytes.getD 10 0).toNat := by
            rw [List.length_take, List.length_drop]
            omega
          rw [hlen]
          exact ⟨hfits, hstart.2, rfl, rfl, hutf8, rfl⟩
        next => cases hd
      next => cases hd
  · rintro ⟨hlen, hmagic, hsize, hname, hutf8, hflag⟩
    dsimp only
    have hstart : ¬ (bytes.length < 11 ∨ bytes.take 8 ≠ magic) := by
      rw [not_or, not_lt, not_not]
      exact ⟨by omega, hmagic⟩
    rw [if_neg hstart, hsize, if_pos hlen, hname, if_pos hutf8, hflag]

theorem Header.decode_append (hd : decode bytes = some h) (more : Bytes) :
    decode (bytes ++ more) = some h := by
  rw [decode_eq_some] at hd ⊢
  obtain ⟨hlen, hmagic, hsize, hname, hutf8, hflag⟩ := hd
  have hget (i : Nat) (hi : i < 11) : (bytes ++ more).getD i 0 = bytes.getD i 0 :=
    List.getD_append _ _ _ _ (by omega)
  rw [hget 8 (by omega), hget 9 (by omega), hget 10 (by omega), List.length_append,
    List.take_append_of_le_length (by omega), List.drop_append_of_le_length (by omega),
    List.take_append_of_le_length (by rw [List.length_drop]; omega)]
  exact ⟨by omega, hmagic, hsize, hname, hutf8, hflag⟩

theorem Header.decode_encode {h : Header} (hutf8 : validUtf8 h.name = true)
    (hle : h.name.length ≤ maxName) : decode h.encode = some h := by
  rw [decode_eq_some, length_encode hle]
  obtain ⟨name, ownerOnly⟩ := h
  have hmax : maxName = 1013 := rfl
  have hmagic : magic = [82, 79, 65, 77, 83, 65, 72, 49] := by decide
  dsimp only at hle hutf8 ⊢
  have hlow : (UInt8.ofNat (name.length % 256)).toNat = name.length % 256 :=
    UInt8.toNat_ofNat_of_lt' (show _ < 256 by omega)
  have hhigh : (UInt8.ofNat (name.length / 256)).toNat = name.length / 256 :=
    UInt8.toNat_ofNat_of_lt' (show _ < 256 by omega)
  refine ⟨?_, ?_, ?_, ?_, hutf8, ?_⟩
  · rw [headerLen]
    omega
  · rw [encode, hmagic]
    rfl
  · rw [encode, hmagic]
    simp only [List.cons_append, List.nil_append, List.getD_cons_succ, List.getD_cons_zero, hlow,
      hhigh]
    omega
  · rw [encode, hmagic]
    simp only [List.cons_append, List.nil_append, List.drop_succ_cons, List.drop_zero,
      List.take_left]
  · rw [encode, hmagic]
    simp only [List.cons_append, List.nil_append, List.getD_cons_succ, List.getD_cons_zero]
    have hflag : ∀ b : Bool, decide ((if b then (1 : UInt8) else 0) &&& 1 ≠ 0) = b := by decide
    exact hflag ownerOnly

end Header

def slotKey (slot : Bytes) : Option (List Bytes) :=
  (Header.decode (readAt slot 0 headerLen)).bind fun h =>
    if h.name = [] then none else some (components h.name)

namespace SlotPool
variable {p p' : SlotPool}

def data (slot : Bytes) : Bytes := slot.drop headerLen

def contents (p : SlotPool) (key : List Bytes) : Option Bytes :=
  p.names[key]?.map fun index => data (p.slot index)

structure Indexed (p : SlotPool) : Prop where
  names : ∀ key index, p.names[key]? = some index ↔
    ∃ slot, p.slots[index]? = some slot ∧ slotKey slot = some key
  free : ∀ index ∈ p.free, ∃ slot, p.slots[index]? = some slot ∧ slotKey slot = none
  nodup : p.free.Nodup

section Adopt

theorem adoptSlots_cons (slot : Bytes) (slots : List Bytes) (index : Nat)
    (names : Std.TreeMap (List Bytes) Nat) (free : List Nat) :
    (∃ err key, slotKey slot = some key ∧ names.contains key = true ∧
      adoptSlots (slot :: slots) index names free = .error err) ∨
    (∃ key, slotKey slot = some key ∧ names.contains key = false ∧
      adoptSlots (slot :: slots) index names free =
        adoptSlots slots (index + 1) (names.insert key index) free) ∨ (slotKey slot = none ∧
      adoptSlots (slot :: slots) index names free =
        adoptSlots slots (index + 1) names (free ++ [index])) := by
  rw [adoptSlots, slotKey]
  cases Header.decode (readAt slot 0 headerLen) with
  | none => exact .inr (.inr ⟨rfl, rfl⟩)
  | some h =>
    by_cases hname : h.name = []
    · exact .inr (.inr ⟨if_pos hname, if_pos hname⟩)
    · dsimp only [Option.bind_some]
      rw [if_neg hname, if_neg hname]
      cases hc : names.contains (components h.name) with
      | true => exact .inl ⟨_, _, rfl, hc, if_pos rfl⟩
      | false => exact .inr (.inl ⟨_, rfl, hc, if_neg Bool.false_ne_true⟩)

structure IndexedUpTo (all : List Bytes) (n : Nat) (keys : Std.TreeMap (List Bytes) Nat)
    (vacant : List Nat) : Prop where
  names : ∀ key index, keys[key]? = some index ↔
    index < n ∧ ∃ slot, all[index]? = some slot ∧ slotKey slot = some key
  free : ∀ index ∈ vacant, index < n ∧ ∃ slot, all[index]? = some slot ∧ slotKey slot = none
  nodup : vacant.Nodup

def Clash (slots : List Bytes) : Prop :=
  ∃ (i j : Nat) (slot slot' : Bytes) (key : List Bytes), i < j ∧ slots[i]? = some slot ∧
    slots[j]? = some slot' ∧ slotKey slot = some key ∧ slotKey slot' = some key

variable {keys : Std.TreeMap (List Bytes) Nat} {vacant : List Nat} {all : List Bytes}

theorem IndexedUpTo.insert {s : Bytes} {key : List Bytes} (h : IndexedUpTo all n keys vacant)
    (hslot : all[n]? = some s) (hkey : slotKey s = some key) (hnew : keys.contains key = false) :
    IndexedUpTo all (n + 1) (keys.insert key n) vacant where
  names key' index := by
    have hlast : index = n → (∃ s', all[index]? = some s' ∧ slotKey s' = some key') →
        key' = key := by
      rintro rfl ⟨s', hs', hkey'⟩
      rw [hslot, Option.some.injEq] at hs'
      rw [← hs', hkey, Option.some.injEq] at hkey'
      exact hkey'.symm
    by_cases hk : key' = key
    · subst hk
      rw [Std.TreeMap.getElem?_insert_self, Option.some.injEq]
      constructor
      · rintro rfl
        exact ⟨Nat.lt_succ_self n, s, hslot, hkey⟩
      · rintro ⟨hlt, hs'⟩
        rcases Nat.lt_succ_iff_lt_or_eq.1 hlt with hlt | heq
        · have hold := (h.names key' index).2 ⟨hlt, hs'⟩
          rw [Std.TreeMap.contains_eq_isSome_getElem?, hold] at hnew
          cases hnew
        · exact heq.symm
    · rw [get_insert, if_neg (Ne.symm hk), h.names]
      constructor
      · rintro ⟨hlt, hs'⟩
        exact ⟨Nat.lt_succ_of_lt hlt, hs'⟩
      · rintro ⟨hlt, hs'⟩
        rcases Nat.lt_succ_iff_lt_or_eq.1 hlt with hlt | heq
        · exact ⟨hlt, hs'⟩
        · exact absurd (hlast heq hs') hk
  free index hi := by
    obtain ⟨hlt, hslot⟩ := h.free index hi
    exact ⟨Nat.lt_succ_of_lt hlt, hslot⟩
  nodup := h.nodup

theorem IndexedUpTo.push {s : Bytes} (h : IndexedUpTo all n keys vacant) (hslot : all[n]? = some s)
    (hkey : slotKey s = none) : IndexedUpTo all (n + 1) keys (vacant ++ [n]) where
  names key' index := by
    rw [h.names]
    constructor
    · rintro ⟨hlt, hs'⟩
      exact ⟨Nat.lt_succ_of_lt hlt, hs'⟩
    · rintro ⟨hlt, s', hs', hkey'⟩
      rcases Nat.lt_succ_iff_lt_or_eq.1 hlt with hlt | rfl
      · exact ⟨hlt, s', hs', hkey'⟩
      · rw [hslot, Option.some.injEq] at hs'
        rw [← hs', hkey] at hkey'
        cases hkey'
  free index hi := by
    rw [List.mem_append, List.mem_singleton] at hi
    rcases hi with hi | rfl
    · obtain ⟨hlt, hslot⟩ := h.free index hi
      exact ⟨Nat.lt_succ_of_lt hlt, hslot⟩
    · exact ⟨Nat.lt_succ_self index, s, hslot, hkey⟩
  nodup := by
    apply List.Nodup.append h.nodup (List.nodup_singleton n)
    rw [List.disjoint_singleton]
    intro hn
    exact (h.free n hn).1.false

theorem adoptSlots_indexed {slots : List Bytes} (hslots : all.drop n = slots) (hn : n ≤ all.length)
    (h : IndexedUpTo all n keys vacant) :
    (∃ keys' vacant', adoptSlots slots n keys vacant = .ok (keys', vacant') ∧
      IndexedUpTo all all.length keys' vacant') ∨
    ((∃ err, adoptSlots slots n keys vacant = .error err) ∧ Clash all) := by
  induction slots generalizing n keys vacant with
  | nil =>
    have hend : n = all.length := hn.antisymm (List.drop_eq_nil_iff.1 hslots)
    subst hend
    exact .inl ⟨keys, vacant, rfl, h⟩
  | cons s slots ih =>
    have hlt : n < all.length := by
      rw [← not_le, ← List.drop_eq_nil_iff, hslots]
      exact List.cons_ne_nil s slots
    rw [List.drop_eq_getElem_cons hlt, List.cons.injEq] at hslots
    have hslot : all[n]? = some s := (List.getElem?_eq_getElem hlt).trans (congrArg some hslots.1)
    rcases adoptSlots_cons s slots n keys vacant with
      ⟨err, key, hkey, hc, herr⟩ | ⟨key, hkey, hc, hrest⟩ | ⟨hkey, hrest⟩
    · -- the index has a slot of that name already
      rw [Std.TreeMap.contains_eq_isSome_getElem?, Option.isSome_iff_exists] at hc
      obtain ⟨i, hi⟩ := hc
      obtain ⟨hlt', s', hs', hkey'⟩ := (h.names key i).1 hi
      exact .inr ⟨⟨err, herr⟩, i, n, s', s, key, hlt', hs', hslot, hkey', hkey⟩
    · rw [hrest]
      exact ih hslots.2 hlt (h.insert hslot hkey hc)
    · rw [hrest]
      exact ih hslots.2 hlt (h.push hslot hkey)

theorem adopt_cases (slots : List Bytes) :
    (∃ p, adopt slots = .ok p ∧ p.slots = slots ∧ p.Indexed) ∨
      ((∃ err, adopt slots = .error err) ∧ Clash slots) := by
  have hstart : IndexedUpTo slots 0 ∅ [] := by
    refine ⟨?_, ?_, List.nodup_nil⟩
    · intro key index
      rw [Std.TreeMap.getElem?_emptyc]
      exact iff_of_false (by simp only [reduceCtorEq, not_false_eq_true]) fun h =>
        absurd h.1 (Nat.not_lt_zero _)
    · intro index hi
      cases hi
  rw [adopt]
  rcases adoptSlots_indexed (List.drop_zero) (Nat.zero_le _) hstart with
    ⟨keys, vacant, hok, h⟩ | ⟨⟨err, herr⟩, hclash⟩
  · rw [hok]
    refine .inl ⟨_, rfl, rfl, ?_, ?_, h.nodup⟩
    · intro key index
      rw [h.names]
      constructor
      · exact And.right
      · rintro ⟨s, hs, hkey⟩
        exact ⟨(List.getElem?_eq_some_iff.1 hs).1, s, hs, hkey⟩
    · intro index hi
      exact (h.free index hi).2
  · rw [herr]
    exact .inr ⟨⟨err, rfl⟩, hclash⟩

theorem indexed_of_adopt {slots : List Bytes} (hadopt : adopt slots = .ok p) : p.Indexed := by
  rcases adopt_cases slots with ⟨p', hok, _, h⟩ | ⟨⟨err, herr⟩, _⟩
  · rw [hadopt, Except.ok.injEq] at hok
    rw [hok]
    exact h
  · rw [hadopt] at herr
    cases herr

theorem Indexed.readopt (h : p.Indexed) :
    ∃ p', adopt p.slots = .ok p' ∧ p'.contents = p.contents := by
  rcases adopt_cases p.slots with ⟨p', hok, hslots, h'⟩ | ⟨_, i, j, s, s', key, hlt, hi, hj,
    hk, hk'⟩
  · refine ⟨p', hok, ?_⟩
    funext key
    have hnames : p'.names[key]? = p.names[key]? := by
      apply Option.ext
      intro index
      rw [h'.names, h.names, hslots]
    rw [contents, contents, hnames]
    simp only [slot, hslots]
  · have hsame := ((h.names key i).2 ⟨s, hi, hk⟩).symm.trans ((h.names key j).2 ⟨s', hj, hk'⟩)
    exact absurd (Option.some.inj hsame) hlt.ne

end Adopt

section Rekey
variable {key key' : List Bytes} {index : Nat} {s : Bytes} {h : Header}

theorem readAt_zero (slot : Bytes) (n : Nat) : readAt slot 0 n = slot.take n := by
  rw [readAt, List.drop_zero]

theorem slotKey_grow {s s' : Bytes} (hkey : slotKey s = some key)
    (hgrow : s'.take headerLen = s.take headerLen ++ more) : slotKey s' = some key := by
  rw [slotKey, readAt_zero] at hkey ⊢
  obtain ⟨h, hd, hname⟩ := Option.bind_eq_some_iff.1 hkey
  rw [hgrow, Header.decode_append hd]
  exact hname

theorem slotKey_header (hutf8 : validUtf8 h.name = true)
    (hle : h.name.length ≤ maxName) (hs : s.take headerLen = h.encode) :
    slotKey s = if h.name = [] then none else some (components h.name) := by
  rw [slotKey, readAt_zero, hs, Header.decode_encode hutf8 hle]
  rfl

theorem writeHeader_ok (hle : h.name.length ≤ maxName) (slot : Bytes) :
    writeHeader slot h = .ok (writeAt 0 slot 0 h.encode) := if_neg hle.not_gt

theorem take_header (hle : h.name.length ≤ maxName) (slot : Bytes) :
    (writeAt 0 slot 0 h.encode).take headerLen = h.encode := by
  rw [← Header.length_encode hle, take_writeAt_zero]

theorem data_header (hle : h.name.length ≤ maxName) (slot : Bytes) :
    data (writeAt 0 slot 0 h.encode) = data slot := by
  rw [data, data, ← Header.length_encode hle, drop_writeAt_zero]

theorem take_cleared (hle : h.name.length ≤ maxName) {slot : Bytes} :
    (resize 0 (writeAt 0 slot 0 h.encode) headerLen).take headerLen = h.encode := by
  rw [resize, take_header hle, List.take_left' (Header.length_encode hle)]

theorem data_cleared (slot : Bytes) : data (resize 0 slot headerLen) = [] :=
  List.drop_eq_nil_iff.2 (length_resize headerLen).le

theorem slot_eq (h : p.slots[index]? = some s) : p.slot index = s := by
  rw [slot, List.getD_eq_getElem?_getD, h, Option.getD_some]

structure Rekeyed (p p' : SlotPool) (index : Nat) (s : Bytes) : Prop where
  slots : p'.slots = p.slots.set index s
  names : ∀ key, p'.names[key]? =
    if slotKey s = some key then some index
    else if p.names[key]? = some index then none else p.names[key]?
  free : ∀ i ∈ p'.free, i ∈ p.free ∧ i ≠ index ∨ i = index ∧ slotKey s = none
  nodup : p'.free.Nodup

theorem Rekeyed.indexed (h : p.Indexed) (hr : Rekeyed p p' index s)
    (hindex : index < p.slots.length)
    (hown : ∀ key, slotKey s = some key → ∀ i, p.names[key]? = some i → i = index) :
    p'.Indexed where
  names key i := by
    rw [hr.names, hr.slots]
    by_cases hi : i = index
    · subst hi
      rw [List.getElem?_set_self hindex]
      split
      next hkey => exact iff_of_true rfl ⟨s, rfl, hkey⟩
      next hkey =>
        apply iff_of_false
        · split
          next => exact Option.some_ne_none i ∘ Eq.symm
          next hne => exact hne
        · rintro ⟨_, ⟨⟩, hkey'⟩
          exact hkey hkey'
    · rw [List.getElem?_set_ne (Ne.symm hi), ← h.names]
      split
      next hkey =>
        apply iff_of_false
        · rw [Option.some.injEq]
          exact Ne.symm hi
        · intro hold
          exact hi (hown key hkey i hold)
      next hkey =>
        split
        next hold =>
          apply iff_of_false (Option.some_ne_none i ∘ Eq.symm)
          rw [hold, Option.some.injEq]
          exact Ne.symm hi
        next => exact Iff.rfl
  free i hi := by
    rw [hr.slots]
    rcases hr.free i hi with ⟨hfree, hne⟩ | ⟨rfl, hkey⟩
    · rw [List.getElem?_set_ne (Ne.symm hne)]
      exact h.free i hfree
    · exact ⟨s, List.getElem?_set_self hindex, hkey⟩
  nodup := hr.nodup

theorem Rekeyed.contents (hr : Rekeyed p p' index s) (hindex : index < p.slots.length)
    (key : List Bytes) : p'.contents key = if slotKey s = some key then some (data s)
      else if p.names[key]? = some index then none else p.contents key := by
  rw [SlotPool.contents, hr.names]
  split
  next =>
    rw [Option.map_some, slot_eq (p := p') (s := s)]
    rw [hr.slots, List.getElem?_set_self hindex]
  next =>
    split
    next => rfl
    next hne =>
      rw [SlotPool.contents]
      apply Option.map_congr
      intro i hi
      have hslot : p'.slot i = p.slot i := by
        rw [slot, slot, hr.slots, List.getD_eq_getElem?_getD, List.getD_eq_getElem?_getD,
          List.getElem?_set_ne]
        rintro rfl
        exact hne hi
      rw [hslot]

theorem Indexed.index_lt (h : p.Indexed) (hi : p.names[key]? = some index) :
    index < p.slots.length := by
  obtain ⟨s, hs, _⟩ := (h.names key index).1 hi
  exact (List.getElem?_eq_some_iff.1 hs).1

theorem Indexed.slotKey_slot (h : p.Indexed) (hi : p.names[key]? = some index) :
    slotKey (p.slot index) = some key := by
  obtain ⟨s, hs, hkey⟩ := (h.names key index).1 hi
  rwa [slot_eq hs]

theorem Indexed.key_unique (h : p.Indexed) (hi : p.names[key]? = some index)
    (hi' : p.names[key']? = some index) : key' = key :=
  Option.some.inj ((h.slotKey_slot hi').symm.trans (h.slotKey_slot hi))

theorem Indexed.not_free (h : p.Indexed) (hi : p.names[key]? = some index) : index ∉ p.free := by
  intro hfree
  obtain ⟨s, hs, hkey⟩ := h.free index hfree
  have hsome := h.slotKey_slot hi
  rw [slot_eq hs, hkey] at hsome
  cases hsome

theorem Indexed.setSlot (h : p.Indexed) (hi : p.names[key]? = some index)
    (hkey : slotKey s = some key) : (p.setSlot index s).Indexed ∧
      (p.setSlot index s).contents = Function.update p.contents key (some (data s)) := by
  have hr : Rekeyed p (p.setSlot index s) index s := by
    refine ⟨rfl, ?_, ?_, h.nodup⟩
    · intro key'
      change p.names[key']? = _
      by_cases hk : key' = key
      · rw [hk, if_pos hkey, hi]
      · rw [if_neg, if_neg]
        · exact fun hi' => hk (h.key_unique hi hi')
        · rw [hkey, Option.some.injEq]
          exact Ne.symm hk
    · intro i hfree
      refine .inl ⟨hfree, ?_⟩
      rintro rfl
      exact h.not_free hi hfree
  have hlt := h.index_lt hi
  refine ⟨hr.indexed h hlt ?_, ?_⟩
  · intro key' hkey' i hi'
    rw [hkey, Option.some.injEq] at hkey'
    rw [← hkey', hi, Option.some.injEq] at hi'
    exact hi'.symm
  · funext key'
    rw [hr.contents hlt]
    by_cases hk : key' = key
    · rw [hk, if_pos hkey, Function.update_self]
    · rw [Function.update_of_ne hk, if_neg, if_neg]
      · exact fun hi' => hk (h.key_unique hi hi')
      · rw [hkey, Option.some.injEq]
        exact Ne.symm hk

theorem Indexed.unnamed (h : p.Indexed) (hi : p.names[key]? = some index)
    (hkey : slotKey s = none) :
    let p' : SlotPool :=
      { slots := p.slots.set index s, names := p.names.erase key, free := p.free ++ [index] }
    p'.Indexed ∧ p'.contents = Function.update p.contents key none := by
  intro p'
  have hnot (key' : List Bytes) : slotKey s ≠ some key' := by
    rw [hkey]
    exact (Option.some_ne_none key').symm
  have hr : Rekeyed p p' index s := by
    refine ⟨rfl, ?_, ?_, ?_⟩
    · intro key'
      change (p.names.erase key)[key']? = _
      rw [if_neg (hnot key'), get_erase]
      by_cases hk : key' = key
      · rw [hk, if_pos rfl, if_pos hi]
      · rw [if_neg (Ne.symm hk), if_neg fun hi' => hk (h.key_unique hi hi')]
    · intro i hfree
      rcases List.mem_append.1 hfree with hold | hlast
      · refine .inl ⟨hold, ?_⟩
        rintro rfl
        exact h.not_free hi hold
      · exact .inr ⟨List.mem_singleton.1 hlast, hkey⟩
    · apply List.Nodup.append h.nodup (List.nodup_singleton index)
      rw [List.disjoint_singleton]
      exact h.not_free hi
  have hlt := h.index_lt hi
  refine ⟨hr.indexed h hlt fun key' hkey' => absurd hkey' (hnot key'), ?_⟩
  funext key'
  rw [hr.contents hlt, if_neg (hnot key')]
  by_cases hk : key' = key
  · rw [hk, if_pos hi, Function.update_self]
  · rw [Function.update_of_ne hk, if_neg fun hi' => hk (h.key_unique hi hi')]

theorem Indexed.recycle (h : p.Indexed) (hi : p.names[key]? = some index) :
    (p.recycle key index).Indexed ∧
      (p.recycle key index).contents = Function.update p.contents key none := by
  apply h.unnamed hi
  rw [slotKey_header rfl (Nat.zero_le _) (take_cleared (Nat.zero_le _))]
  exact if_pos rfl

theorem Indexed.claim (h : p.Indexed) (hfree : p.free.getLast? = some index)
    (hnone : p.names[components path]? = none) (hutf8 : validUtf8 path = true)
    (hle : path.length ≤ maxName) (hne : path ≠ []) :
    let p' : SlotPool :=
      { slots := p.slots.set index
          (resize 0 (writeAt 0 (p.slot index) 0 (Header.encode ⟨path, false⟩)) headerLen)
        names := p.names.insert (components path) index
        free := p.free.dropLast }
    p'.Indexed ∧ p'.contents = Function.update p.contents (components path) (some []) := by
  intro p'
  have hmem : index ∈ p.free := List.mem_of_getLast? hfree
  obtain ⟨s, hs, hunnamed⟩ := h.free index hmem
  have hlt := (List.getElem?_eq_some_iff.1 hs).1
  have hown (key : List Bytes) : p.names[key]? ≠ some index := fun hi => h.not_free hi hmem
  have hkey :
      slotKey (resize 0 (writeAt 0 (p.slot index) 0 (Header.encode ⟨path, false⟩)) headerLen) =
      some (components path) := by
    rw [slotKey_header hutf8 hle (take_cleared hle)]
    exact if_neg hne
  have hr : Rekeyed p p' index
      (resize 0 (writeAt 0 (p.slot index) 0 (Header.encode ⟨path, false⟩)) headerLen) := by
    refine ⟨rfl, ?_, ?_, ?_⟩
    · intro key'
      change (p.names.insert (components path) index)[key']? = _
      simp only [hkey, if_neg (hown key'), get_insert, Option.some.injEq]
    · intro i hi
      refine .inl ⟨(List.dropLast_sublist p.free).subset hi, ?_⟩
      rintro rfl
      obtain ⟨init, hinit⟩ := List.getLast?_eq_some_iff.1 hfree
      have hnodup := h.nodup
      change i ∈ p.free.dropLast at hi
      rw [hinit, List.dropLast_concat] at hi
      rw [hinit] at hnodup
      exact (List.nodup_append.1 hnodup).2.2 i hi i (List.mem_singleton.2 rfl) rfl
    · exact h.nodup.sublist (List.dropLast_sublist p.free)
  refine ⟨hr.indexed h hlt ?_, ?_⟩
  · intro key' hkey' i hi
    rw [hkey, Option.some.injEq] at hkey'
    rw [← hkey', hnone] at hi
    cases hi
  · funext key'
    rw [hr.contents hlt, hkey, data_cleared, if_neg (hown key')]
    by_cases hk : key' = components path
    · rw [hk, if_pos rfl, Function.update_self]
    · rw [Function.update_of_ne hk, if_neg]
      rw [Option.some.injEq]
      exact Ne.symm hk

theorem Indexed.renamed {target : Bytes} (h : p.Indexed)
    (hi : p.names[key]? = some index) (hnone : p.names[components target]? = none)
    (hkey : slotKey s = some (components target)) :
    let p' : SlotPool :=
      { p.setSlot index s with names := (p.names.erase key).insert (components target) index }
    p'.Indexed ∧
      p'.contents = Function.update (Function.update p.contents key none) (components target)
        (some (data s)) := by
  intro p'
  have hr : Rekeyed p p' index s := by
    refine ⟨rfl, ?_, ?_, h.nodup⟩
    · intro key'
      change ((p.names.erase key).insert (components target) index)[key']? = _
      simp only [hkey, get_insert, get_erase, Option.some.injEq]
      by_cases hk : key' = key
      · rw [hk, if_pos rfl, if_pos hi]
      · rw [if_neg (Ne.symm hk), if_neg fun hi' => hk (h.key_unique hi hi')]
    · intro i hfree
      refine .inl ⟨hfree, ?_⟩
      rintro rfl
      exact h.not_free hi hfree
  have hlt := h.index_lt hi
  refine ⟨hr.indexed h hlt ?_, ?_⟩
  · intro key' hkey' i hi'
    rw [hkey, Option.some.injEq] at hkey'
    rw [← hkey', hnone] at hi'
    cases hi'
  · funext key'
    rw [hr.contents hlt, hkey]
    by_cases hk : key' = components target
    · rw [hk, if_pos rfl, Function.update_self]
    · rw [Function.update_of_ne hk, if_neg (by rw [Option.some.injEq]; exact Ne.symm hk)]
      by_cases hk' : key' = key
      · rw [hk', if_pos hi, Function.update_self]
      · rw [Function.update_of_ne hk', if_neg fun hi' => hk' (h.key_unique hi hi')]

end Rekey

end SlotPool

section Calls

structure ValidPath (path : Bytes) : Prop where
  nonempty : path ≠ []
  utf8 : validUtf8 path = true
  length : path.length ≤ maxName

instance (path : Bytes) : Decidable (ValidPath path) :=
  decidable_of_iff (path ≠ [] ∧ validUtf8 path = true ∧ path.length ≤ maxName)
    ⟨fun ⟨h, h', h''⟩ => ⟨h, h', h''⟩, fun h => ⟨h.nonempty, h.utf8, h.length⟩⟩

namespace FsCall

def paths : FsCall → List Bytes
  | .read path | .readRange path _ _ | .write path _ | .append path _ | .appendSync path _
  | .createSized path _ | .writeRange path _ _ | .removeFile path | .fileLen path => [path]
  | .rename source target => [source, target]

def Valid (c : FsCall) : Prop :=
  (∀ path ∈ c.paths, ValidPath path) ∧
    ∀ source target, c = .rename source target → components source ≠ components target

instance (c : FsCall) : Decidable c.Valid :=
  match c with
  | .rename source target =>
    decidable_of_iff ((∀ path ∈ [source, target], ValidPath path) ∧
      components source ≠ components target) <| by
      refine and_congr_right fun _ => ⟨?_, fun h => h source target rfl⟩
      rintro h _ _ ⟨⟩
      exact h
  | .read path | .readRange path _ _ | .write path _ | .append path _ | .appendSync path _
  | .createSized path _ | .writeRange path _ _ | .removeFile path | .fileLen path =>
    decidable_of_iff (∀ p ∈ [path], ValidPath p) (and_iff_left fun _ _ h => nomatch h).symm

def creates : FsCall → Option Bytes
  | .write path _ | .append path _ | .appendSync path _ | .createSized path _ => some path
  | _ => none

end FsCall

def SlotPool.HasRoom (p : SlotPool) (c : FsCall) : Prop :=
  ∀ path, c.creates = some path → p.names[components path]? = none → p.free ≠ []

instance (p : SlotPool) (c : FsCall) : Decidable (p.HasRoom c) :=
  inferInstanceAs (Decidable (∀ path ∈ c.creates, p.names[components path]? = none → p.free ≠ []))

end Calls

structure Refines (p : SlotPool) (fs : MemFs) : Prop where
  indexed : p.Indexed
  files : ∀ key, fs.files[key]? = p.contents key

namespace Refines
variable {p p' : SlotPool} {fs : MemFs}
open SlotPool

theorem getElem?_insert {files : Std.TreeMap (List Bytes) Bytes} (h : ∀ key, files[key]? = c key)
    (key' : List Bytes) (bytes : Bytes) (key : List Bytes) :
    (files.insert key' bytes)[key]? = Function.update c key' (some bytes) key := by
  simp only [get_insert, Function.update_apply, h, @eq_comm _ key' key]

theorem getElem?_erase {files : Std.TreeMap (List Bytes) Bytes} (h : ∀ key, files[key]? = c key)
    (key' key : List Bytes) : (files.erase key')[key]? = Function.update c key' none key := by
  simp only [get_erase, Function.update_apply, h, @eq_comm _ key' key]

structure Lifts (f g : Bytes → Bytes) : Prop where
  data : ∀ slot, data (f slot) = g (data slot)
  header : ∀ slot, ∃ more, (f slot).take headerLen = slot.take headerLen ++ more

theorem claim_ok (h : p.Indexed) (hvalid : ValidPath path)
    (hroom : p.names[components path]? = none → p.free ≠ []) :
    ∃ index p', p.indexOrClaim path = (.ok index, p') ∧ p'.Indexed ∧
      p'.names[components path]? = some index ∧ p'.contents =
        Function.update p.contents (components path) (some ((p.contents (components path)).getD
          [])) := by
  rw [indexOrClaim]
  cases hname : p.names[components path]? with
  | some index =>
    refine ⟨index, p, rfl, h, hname, ?_⟩
    rw [eq_comm, Function.update_eq_self_iff, contents, hname]
    rfl
  | none =>
    obtain ⟨index, hfree⟩ := Option.isSome_iff_exists.1 (List.getLast?_isSome.2 (hroom hname))
    obtain ⟨hindexed, hcontents⟩ := h.claim hfree hname hvalid.utf8 hvalid.length hvalid.nonempty
    refine ⟨index, _, ?_, hindexed, Std.TreeMap.getElem?_insert_self, ?_⟩
    · dsimp only
      rw [hvalid.utf8, if_neg (by decide), hfree]
      dsimp only
      rw [writeHeader_ok hvalid.length]
    · rw [hcontents, contents, hname]
      rfl

theorem setSlot_lifts (h : p.Indexed) (hl : Lifts f g) (hi : p.names[key]? = some index) :
    (p.setSlot index (f (p.slot index))).Indexed ∧ (p.setSlot index (f (p.slot index))).contents =
        Function.update p.contents key (some (g ((p.contents key).getD []))) := by
  obtain ⟨more, hmore⟩ := hl.header (p.slot index)
  have hset := h.setSlot hi (slotKey_grow (h.slotKey_slot hi) hmore)
  rw [hl.data] at hset
  rw [contents, hi]
  exact hset

theorem update (h : Refines p fs) (hl : Lifts f g) (hvalid : ValidPath path)
    (hroom : p.names[components path]? = none → p.free ≠ []) :
    ∃ p', p.update path f = (.ok .done, p') ∧
      Refines p' (fs.put path (g (fs.files[components path]?.getD []))) ∧
      p'.names[components path]?.isSome = true := by
  obtain ⟨index, p₁, hclaim, hindexed, hi, hcontents⟩ := claim_ok h.indexed hvalid hroom
  obtain ⟨hindexed', hcontents'⟩ := setSlot_lifts hindexed hl hi
  refine ⟨p₁.setSlot index (f (p₁.slot index)), ?_, ⟨hindexed', ?_⟩, ?_⟩
  · rw [SlotPool.update, hclaim]
  · intro key
    rw [MemFs.put, getElem?_insert h.files, hcontents', hcontents, Function.update_self,
      Function.update_idem, Option.getD_some, h.files]
  · change p₁.names[components path]?.isSome = true
    rw [hi]
    rfl

theorem resize_header (slot : Bytes) :
    ∃ more, resize 0 (resize 0 slot headerLen) headerLen = slot.take headerLen ++ more := by
  rw [resize, List.take_of_length_le (length_resize headerLen).le]
  exact ⟨_, List.append_assoc _ _ _⟩

theorem lifts_append (bytes : Bytes) :
    Lifts (fun slot => writeAt 0 slot (max slot.length headerLen) bytes) (· ++ bytes) where
  data slot := by
    have hstart : max slot.length headerLen = headerLen + (SlotPool.data slot).length := by
      rw [SlotPool.data, List.length_drop]
      omega
    rw [hstart, SlotPool.data, drop_writeAt, ← SlotPool.data, writeAt_end]
  header slot := by
    have hstart : max slot.length headerLen = headerLen + (slot.length - headerLen) := by omega
    rw [hstart, take_writeAt]
    exact ⟨_, rfl⟩

theorem lifts_createSized (len : Nat) :
    Lifts (fun slot => resize 0 (resize 0 slot headerLen) (headerLen + len))
      fun _ => List.replicate len 0 where
  data slot := by
    rw [SlotPool.data, drop_resize, ← SlotPool.data, data_cleared, resize_nil]
  header slot := by
    rw [take_resize]
    exact resize_header slot

theorem lifts_writeRange (offset : Nat) (bytes : Bytes) :
    Lifts (fun slot => writeAt 0 slot (headerLen + offset) bytes) (writeAt 0 · offset bytes) where
  data _ := drop_writeAt headerLen offset
  header _ := ⟨_, take_writeAt headerLen offset⟩

theorem lifts_write (bytes : Bytes) :
    Lifts (fun slot => writeAt 0 (resize 0 slot headerLen) headerLen bytes) fun _ => bytes where
  data slot := by
    have hdata := (lifts_writeRange 0 bytes).data (resize 0 slot headerLen)
    rw [data_cleared, writeAt_nil] at hdata
    exact hdata
  header slot := by
    obtain ⟨more, hmore⟩ := resize_header slot
    exact ⟨more, (take_writeAt headerLen 0).trans hmore⟩

section Call

theorem file_eq (h : Refines p fs) (path : Bytes) :
    fs.file path = (p.indexOf path).map fun index => data (p.slot index) := by
  rw [MemFs.file, h.files, indexOf, contents]
  cases p.names[components path]? with
  | none => rfl
  | some index => rfl

theorem read_eq (h : Refines p fs) (path : Bytes) : p.read path = fs.file path := by
  have hwhole (slot : Bytes) : readAt slot headerLen (slot.length - headerLen) = data slot := by
    rw [readAt, data, List.take_of_length_le (List.length_drop).le]
  rw [file_eq h, SlotPool.read]
  simp only [lenOf, hwhole]

theorem readRange_eq (h : Refines p fs) (path : Bytes) (offset len : Nat) :
    p.readRange path offset len = (fs.file path).map fun b => MemFs.readRange b offset len := by
  have hrange (slot : Bytes) :
      readAt slot (headerLen + min offset (slot.length - headerLen))
        (min len (slot.length - headerLen - min offset (slot.length - headerLen))) =
      MemFs.readRange (data slot) offset len := by
    rw [readAt, MemFs.readRange, data, List.drop_drop, List.length_drop]
    congr 1
    omega
  rw [file_eq h, SlotPool.readRange]
  simp only [lenOf, hrange]
  cases p.indexOf path with
  | error err => rfl
  | ok index => rfl

theorem fileLen_eq (h : Refines p fs) (path : Bytes) :
    ((p.indexOf path).map fun index => FsReply.len (p.lenOf index)) =
      (fs.file path).map fun b => FsReply.len b.length := by
  rw [file_eq h]
  cases p.indexOf path with
  | error err => rfl
  | ok index => simp only [Except.map, data, List.length_drop, lenOf]

theorem lookup (h : Refines p fs) (path : Bytes) :
    (p.indexOf path = .error (.notFound path) ∧ fs.file path = .error (.notFound path) ∧
      fs.files[components path]? = none) ∨
    (∃ index, p.indexOf path = .ok index ∧ p.names[components path]? = some index ∧
      fs.file path = .ok (data (p.slot index)) ∧
      fs.files[components path]? = some (data (p.slot index))) := by
  have hfile := file_eq h path
  have hbytes := h.files (components path)
  rw [contents] at hbytes
  rw [indexOf] at hfile ⊢
  cases hname : p.names[components path]? with
  | none =>
    rw [hname] at hfile hbytes
    exact .inl ⟨rfl, hfile, hbytes⟩
  | some index =>
    rw [hname] at hfile hbytes
    exact .inr ⟨index, rfl, rfl, hfile, hbytes⟩

theorem writeRange (h : Refines p fs) (path : Bytes) (offset : Nat) (bytes : Bytes) :
    (p.writeRange path offset bytes).1 = (fs.call (.writeRange path offset bytes)).1 ∧
      Refines (p.writeRange path offset bytes).2 (fs.call (.writeRange path offset bytes)).2 := by
  rw [SlotPool.writeRange, MemFs.call]
  rcases lookup h path with ⟨hindex, hfile, _⟩ | ⟨index, hindex, hname, hfile, _⟩
  · rw [hindex, hfile]
    exact ⟨rfl, h⟩
  · obtain ⟨hindexed, hcontents⟩ := setSlot_lifts h.indexed (lifts_writeRange offset bytes) hname
    rw [hindex, hfile]
    refine ⟨rfl, hindexed, ?_⟩
    intro key
    dsimp only [MemFs.put]
    rw [hcontents, getElem?_insert h.files, contents, hname]
    rfl

theorem removeFile (h : Refines p fs) (path : Bytes) :
    (p.removeFile path).1 = (fs.call (.removeFile path)).1 ∧
      Refines (p.removeFile path).2 (fs.call (.removeFile path)).2 := by
  rw [SlotPool.removeFile, MemFs.call]
  rcases lookup h path with ⟨hindex, hfile, _⟩ | ⟨index, hindex, hname, hfile, _⟩
  · rw [hindex, hfile]
    exact ⟨rfl, h⟩
  · obtain ⟨hindexed, hcontents⟩ := h.indexed.recycle hname
    rw [hindex, hfile]
    refine ⟨rfl, hindexed, ?_⟩
    intro key
    rw [hcontents, getElem?_erase h.files]

theorem displaced (h : p.Indexed) (target : Bytes) :
    (p.displace target).Indexed ∧ (p.displace target).names[components target]? = none ∧
      (p.displace target).contents = Function.update p.contents (components target) none ∧
      ∀ key, key ≠ components target → (p.displace target).names[key]? = p.names[key]? := by
  rw [displace]
  cases hname : p.names[components target]? with
  | none =>
    refine ⟨h, hname, ?_, fun _ _ => rfl⟩
    rw [eq_comm, Function.update_eq_self_iff, contents, hname]
    rfl
  | some index =>
    obtain ⟨hindexed, hcontents⟩ := h.recycle hname
    refine ⟨hindexed, Std.TreeMap.getElem?_erase_self, hcontents, ?_⟩
    intro key hk
    dsimp only [recycle]
    rw [get_erase, if_neg (Ne.symm hk)]

theorem rename (h : Refines p fs) {source target : Bytes} (hvalid : ValidPath target)
    (hne : components source ≠ components target) :
    (p.rename source target).1 = (fs.call (.rename source target)).1 ∧
      Refines (p.rename source target).2 (fs.call (.rename source target)).2 := by
  rw [SlotPool.rename, MemFs.call, MemFs.rename]
  rcases lookup h source with ⟨hindex, _, hfile⟩ | ⟨index, hindex, hname, _, hfile⟩
  · rw [hindex, hfile]
    exact ⟨rfl, h⟩
  · obtain ⟨hindexed, hgone, hcontents, hnames⟩ := displaced h.indexed target
    have hname' := (hnames _ hne).trans hname
    have hdata : data ((p.displace target).slot index) = data (p.slot index) := by
      have hsame := congrFun hcontents (components source)
      rw [Function.update_of_ne hne, contents, hname', contents, hname] at hsame
      exact Option.some.inj hsame
    have hkey (owner : Bool) :
        slotKey (writeAt 0 ((p.displace target).slot index) 0 (Header.encode ⟨target, owner⟩)) =
          some (components target) := by
      rw [slotKey_header (h := ⟨target,
        owner⟩) hvalid.utf8 hvalid.length (take_header hvalid.length _)]
      exact if_neg hvalid.nonempty
    rw [hindex, hfile]
    dsimp only
    rw [hvalid.utf8, if_neg (by decide), writeHeader_ok hvalid.length]
    obtain ⟨hindexed', hcontents'⟩ := hindexed.renamed hname' hgone (hkey _)
    refine ⟨rfl, hindexed', ?_⟩
    intro key
    rw [hcontents', getElem?_insert (getElem?_erase h.files _), data_header hvalid.length, hdata,
      hcontents]
    by_cases hk : key = components target
    · rw [hk, Function.update_self, Function.update_self]
    · rw [Function.update_of_ne hk, Function.update_of_ne hk, Function.update_comm hne.symm,
        Function.update_of_ne hk]

theorem call (h : Refines p fs) {c : FsCall} (hvalid : c.Valid) (hroom : p.HasRoom c) :
    (p.call c).1 = (fs.call c).1 ∧ Refines (p.call c).2 (fs.call c).2 := by
  have hpath (path : Bytes) (hp : path ∈ c.paths) : ValidPath path := hvalid.1 path hp
  cases c with
  | read path => exact ⟨congrArg (Except.map FsReply.bytes) (read_eq h path), h⟩
  | readRange path offset len =>
    refine ⟨?_, h⟩
    rw [SlotPool.call, readRange_eq h, MemFs.call]
    cases fs.file path with
    | error err => rfl
    | ok bytes => rfl
  | fileLen path => exact ⟨fileLen_eq h path, h⟩
  | write path bytes =>
    obtain ⟨p', hcall, hrefines, _⟩ :=
      update h (lifts_write bytes) (hpath path (List.mem_singleton.2 rfl)) (hroom path rfl)
    rw [SlotPool.call, SlotPool.write, hcall]
    exact ⟨rfl, hrefines⟩
  | append path bytes =>
    obtain ⟨p', hcall, hrefines, _⟩ :=
      update h (lifts_append bytes) (hpath path (List.mem_singleton.2 rfl)) (hroom path rfl)
    rw [SlotPool.call, SlotPool.append, hcall]
    exact ⟨rfl, hrefines⟩
  | appendSync path bytes =>
    obtain ⟨p', hcall, hrefines, hsome⟩ :=
      update h (lifts_append bytes) (hpath path (List.mem_singleton.2 rfl)) (hroom path rfl)
    obtain ⟨index, hindex⟩ := Option.isSome_iff_exists.1 hsome
    rw [SlotPool.call, SlotPool.appendSync, SlotPool.append, hcall]
    dsimp only
    rw [indexOf, hindex]
    exact ⟨rfl, hrefines⟩
  | createSized path len =>
    obtain ⟨p', hcall, hrefines, _⟩ :=
      update h (lifts_createSized len) (hpath path (List.mem_singleton.2 rfl)) (hroom path rfl)
    rw [SlotPool.call, SlotPool.createSized, hcall]
    exact ⟨rfl, hrefines⟩
  | writeRange path offset bytes => exact writeRange h path offset bytes
  | rename source target =>
    exact rename h (hpath target (List.mem_cons_of_mem _ (List.mem_singleton.2 rfl)))
      (hvalid.2 source target rfl)
  | removeFile path => exact removeFile h path

end Call

end Refines

section Run

def MemFs.reply (fs : MemFs) (c : FsCall) : List (Except FsError FsReply) := [(fs.call c).1]

def MemFs.after (fs : MemFs) (c : FsCall) : MemFs := (fs.call c).2

def SlotPool.reply (p : SlotPool) (c : FsCall) : List (Except FsError FsReply) := [(p.call c).1]

def SlotPool.after (p : SlotPool) (c : FsCall) : SlotPool := (p.call c).2

def reuseCalls : List FsCall :=
  [.write [97] [1, 2, 3], .append [98] [9], .rename [97] [98], .createSized [97] 4,
    .writeRange [97] 3 [7, 7], .readRange [97] 2 5, .write [98] [5], .read [47, 98], .read [98],
    .removeFile [97], .fileLen [97], .appendSync [99] [8]]

end Run

end Roam
