import Roam.Keychain
import Roam.Library.TreeFold

namespace Roam
set_option autoImplicit true
open Library

structure Rotation where
  parents : List Bytes32
  mintedBy : UInt64
  nonce : Bytes32
deriving DecidableEq

def KeyLogEntry.rotation? (e : KeyLogEntry) : Option Rotation :=
  match e.body with
  | .rotate parentEpochs nonce => some ⟨parentEpochs, e.author, nonce⟩
  | .wrap _ _ => none

def firstRotate (entries : List KeyLogEntry) (epoch : Bytes32) : Option Rotation :=
  entries.findSome? fun e => if e.epochId = epoch then e.rotation? else none

theorem firstRotate_mem (h : firstRotate entries epoch = some rot) :
    ∃ e ∈ entries, e.epochId = epoch ∧ e.rotation? = some rot := by
  obtain ⟨e, he, hr⟩ := List.exists_of_findSome?_eq_some h
  rw [Option.ite_none_right_eq_some] at hr
  exact ⟨e, he, hr⟩

theorem firstRotate_isSome (he : e ∈ entries) (hid : e.epochId = epoch)
    (hr : e.rotation? = some rot) : ∃ rot', firstRotate entries epoch = some rot' := by
  rw [← Option.isSome_iff_exists, firstRotate, List.findSome?_isSome_iff]
  refine ⟨e, he, ?_⟩
  rw [if_pos hid, hr]
  rfl

def EpochNode.rotation (node : EpochNode) : Rotation :=
  ⟨node.parents, node.mintedBy, node.nonce⟩

def Rotation.node (rot : Rotation) : EpochNode := .announced rot.parents rot.mintedBy rot.nonce

section Announce

def rotateItem (e : KeyLogEntry) : Option (Bytes32 × Rotation) :=
  e.rotation?.map fun rot => (e.epochId, rot)

theorem announceEpoch_eq (h : rotateItem e = some (epoch, rot)) :
    announceEpoch epochs e = epochs.alter epoch fun node? => some (node?.getD rot.node) := by
  obtain ⟨seq, author, epochId, body⟩ := e
  cases body with
  | rotate parentEpochs nonce =>
    cases h
    rfl
  | wrap recipient blob => cases h

theorem announceEpoch_none (h : rotateItem e = none) : announceEpoch epochs e = epochs := by
  obtain ⟨seq, author, epochId, body⟩ := e
  cases body with
  | rotate parentEpochs nonce => cases h
  | wrap recipient blob => rfl

theorem head?_rotateItems :
    (valuesAt rotateItem epoch entries).head? = firstRotate entries epoch := by
  rw [valuesAt, List.head?_filterMap, firstRotate]
  congr 1
  funext e
  unfold rotateItem
  cases e.rotation? with
  | none => simp only [Option.map_none, Option.bind_none, ite_self]
  | some rot => rfl

theorem foldl_getD_some (rots : List Rotation) (node : EpochNode) :
    rots.foldl (fun node? rot => some (Option.getD node? rot.node)) (some node) = some node := by
  induction rots with
  | nil => rfl
  | cons rot rots ih => exact ih

theorem foldl_getD_none (rots : List Rotation) :
    rots.foldl (fun node? rot => some (Option.getD node? rot.node)) none =
      rots.head?.map Rotation.node := by
  cases rots with
  | nil => rfl
  | cons rot rots => exact foldl_getD_some rots rot.node

def announcedNode (epoch0Key : Bytes32) (entries : List KeyLogEntry) (epoch : Bytes32) :
    Option EpochNode :=
  if epoch = epoch0Id then some (.genesis epoch0Key)
    else (firstRotate entries epoch).map Rotation.node

theorem announce_getElem? : (entries.foldl announceEpoch
        ((∅ : Std.TreeMap Bytes32 EpochNode).insert epoch0Id (.genesis epoch0Key)))[epoch]? =
      announcedNode epoch0Key entries epoch := by
  rw [getElem?_foldl (fun epochs => epochs) (fun _ _ => announceEpoch_none)
    (fun _ _ _ _ => announceEpoch_eq)]
  simp only [get_insert, announcedNode]
  by_cases he : epoch = epoch0Id
  · simp only [he, ↓reduceIte, foldl_getD_some]
  · rw [if_neg (Ne.symm he), if_neg he, Std.TreeMap.getElem?_emptyc, foldl_getD_none,
      head?_rotateItems]

end Announce

section Attach
variable {c : Crypto} {selfPeer : UInt64} {secret : Bytes32}

/-- The key that a wrap delivers to this device, if it opens and is the one that the epoch's id
commits to. -/
def deliveredKey (c : Crypto) (selfPeer : UInt64) (secret epoch : Bytes32) (rot : Rotation)
    (e : KeyLogEntry) : Option Bytes32 :=
  match e.body with
  | .wrap (.device p) blob =>
    if p = selfPeer then
      (unwrap c secret blob).filter fun k =>
        computeEpochId c rot.parents rot.mintedBy rot.nonce k = epoch
    else none
  | _ => none

def attachTo (c : Crypto) (selfPeer : UInt64) (secret : Bytes32) (node : EpochNode)
    (e : KeyLogEntry) : EpochNode :=
  match e.body with
  | .rotate _ _ => node
  | .wrap recipient blob => node.attachWrap c selfPeer secret e.epochId recipient blob

theorem attachTo_rotation : (attachTo c selfPeer secret node e).rotation = node.rotation := by
  obtain ⟨seq, author, epochId, body⟩ := e
  cases body with
  | rotate parentEpochs nonce => rfl
  | wrap recipient blob =>
    cases recipient with
    | paper => rfl
    | device p =>
      simp only [attachTo, EpochNode.attachWrap]
      split
      · split
        · split <;> rfl
        · rfl
      · rfl

theorem attachTo_key : (attachTo c selfPeer secret node e).key =
      node.key.or (deliveredKey c selfPeer secret e.epochId node.rotation e) := by
  obtain ⟨seq, author, epochId, body⟩ := e
  cases body with
  | rotate parentEpochs nonce => simp only [attachTo, deliveredKey, Option.or_none]
  | wrap recipient blob =>
    cases recipient with
    | paper => simp only [attachTo, EpochNode.attachWrap, deliveredKey, Option.or_none]
    | device p =>
      simp only [attachTo, EpochNode.attachWrap, deliveredKey, EpochNode.rotation]
      by_cases hp : p = selfPeer
      · cases hk : node.key with
        | some k => simp
        | none =>
          cases hu : unwrap c secret blob with
          | none => simp [hp]
          | some k =>
            by_cases hc : computeEpochId c node.parents node.mintedBy node.nonce k = epochId
            · simp [hp, hc, Option.filter]
            · simp [hp, hc, Option.filter]
      · simp [hp]

def wrapItem (e : KeyLogEntry) : Option (Bytes32 × KeyLogEntry) :=
  match e.body with
  | .rotate _ _ => none
  | .wrap _ _ => some (e.epochId, e)

theorem attachEntry_eq (h : wrapItem e = some (epoch, e')) :
    attachEntry c selfPeer secret epochs e =
      epochs.alter epoch (Option.map fun node => attachTo c selfPeer secret node e') := by
  obtain ⟨seq, author, epochId, body⟩ := e
  cases body with
  | rotate parentEpochs nonce => cases h
  | wrap recipient blob =>
    cases h
    rfl

theorem attachEntry_none (h : wrapItem e = none) :
    attachEntry c selfPeer secret epochs e = epochs := by
  obtain ⟨seq, author, epochId, body⟩ := e
  cases body with
  | rotate parentEpochs nonce => rfl
  | wrap recipient blob => cases h

theorem foldl_map_attach (es : List KeyLogEntry) (node? : Option EpochNode) :
    es.foldl (fun node? e => node?.map fun node => attachTo c selfPeer secret node e) node? =
      node?.map fun node => es.foldl (attachTo c selfPeer secret) node := by
  induction es generalizing node? with
  | nil => exact (Option.map_id_apply).symm
  | cons e es ih =>
    rw [List.foldl_cons, ih, Option.map_map]
    rfl

theorem epochNodes_getElem? : (epochNodes c epoch0Key selfPeer secret entries)[epoch]? =
      (announcedNode epoch0Key entries epoch).map fun node =>
        (valuesAt wrapItem epoch entries).foldl (attachTo c selfPeer secret) node := by
  rw [epochNodes, getElem?_foldl (fun epochs => epochs) (fun _ _ => attachEntry_none)
    (fun _ _ _ _ => attachEntry_eq), announce_getElem?]
  exact foldl_map_attach _ _

theorem foldl_attachTo_rotation (es : List KeyLogEntry) (node : EpochNode) :
    (es.foldl (attachTo c selfPeer secret) node).rotation = node.rotation := by
  induction es generalizing node with
  | nil => rfl
  | cons e es ih => rw [List.foldl_cons, ih, attachTo_rotation]

theorem foldl_attachTo_parents (es : List KeyLogEntry) (node : EpochNode) :
    (es.foldl (attachTo c selfPeer secret) node).parents = node.parents :=
  congrArg Rotation.parents (foldl_attachTo_rotation es node)

theorem mem_wrapItems : e ∈ valuesAt wrapItem epoch entries ↔
      e ∈ entries ∧ e.epochId = epoch ∧ e.rotation? = none := by
  rw [mem_valuesAt]
  have hitem (x : KeyLogEntry) :
      wrapItem x = some (epoch, e) ↔ x = e ∧ e.epochId = epoch ∧ e.rotation? = none := by
    obtain ⟨seq, author, epochId, body⟩ := x
    cases body with
    | rotate parentEpochs nonce =>
      simp only [wrapItem, reduceCtorEq, false_iff, not_and]
      intro he _ hr
      subst he
      cases hr
    | wrap recipient blob =>
      simp only [wrapItem, Option.some.injEq, Prod.mk.injEq]
      constructor
      · intro h
        obtain ⟨h, rfl⟩ := h
        exact ⟨rfl, h, rfl⟩
      · intro h
        obtain ⟨rfl, h, _⟩ := h
        exact ⟨h, rfl⟩
  simp only [hitem]
  constructor
  · intro h
    obtain ⟨x, hx, rfl, h⟩ := h
    exact ⟨hx, h⟩
  · intro h
    exact ⟨e, h.1, rfl, h.2⟩

end Attach

section Keys
variable {c : Crypto} {selfPeer : UInt64} {secret : Bytes32}

theorem foldl_attachTo_key_inv {es : List KeyLogEntry} {node : EpochNode}
    (h : (es.foldl (attachTo c selfPeer secret) node).key = some k) : node.key = some k ∨
      ∃ e ∈ es, deliveredKey c selfPeer secret e.epochId node.rotation e = some k := by
  induction es generalizing node with
  | nil => exact .inl h
  | cons e es ih =>
    cases ih h with
    | inl hk =>
      rw [attachTo_key, Option.or_eq_some_iff] at hk
      cases hk with
      | inl hk => exact .inl hk
      | inr hk => exact .inr ⟨e, List.mem_cons_self, hk.2⟩
    | inr hk =>
      obtain ⟨e', he, hk⟩ := hk
      rw [attachTo_rotation] at hk
      exact .inr ⟨e', List.mem_cons_of_mem _ he, hk⟩

theorem foldl_attachTo_key_of_some {es : List KeyLogEntry} {node : EpochNode}
    (h : node.key = some k) : (es.foldl (attachTo c selfPeer secret) node).key = some k := by
  induction es generalizing node with
  | nil => exact h
  | cons e es ih =>
    apply ih
    rw [attachTo_key, h]
    rfl

theorem foldl_attachTo_key_isSome {es : List KeyLogEntry} {node : EpochNode} (he : e ∈ es)
    (h : deliveredKey c selfPeer secret e.epochId node.rotation e = some k) :
    ∃ k', (es.foldl (attachTo c selfPeer secret) node).key = some k' := by
  induction es generalizing node with
  | nil => cases he
  | cons e' es ih =>
    cases he with
    | head =>
      have hn : ∃ k', (attachTo c selfPeer secret node e).key = some k' := by
        rw [attachTo_key, h]
        cases node.key with
        | some k' => exact ⟨k', rfl⟩
        | none => exact ⟨k, rfl⟩
      obtain ⟨k', hn⟩ := hn
      rw [List.foldl_cons]
      exact ⟨k', foldl_attachTo_key_of_some hn⟩
    | tail _ he =>
      apply ih he
      rw [attachTo_rotation]
      exact h

theorem deliveredKey_commits (h : deliveredKey c selfPeer secret epoch rot e = some k) :
    e.rotation? = none ∧ computeEpochId c rot.parents rot.mintedBy rot.nonce k = epoch := by
  obtain ⟨seq, author, epochId, body⟩ := e
  cases body with
  | rotate parentEpochs nonce => cases h
  | wrap recipient blob =>
    cases recipient with
    | paper => cases h
    | device p =>
      simp only [deliveredKey] at h
      split at h
      · rw [Option.filter_eq_some_iff, decide_eq_true_eq] at h
        exact ⟨rfl, h.2⟩
      · cases h

/-- No two keys give one epoch id under the same rotation. -/
def CommitsToKey (c : Crypto) : Prop :=
  ∀ parents mintedBy nonce k k',
    computeEpochId c parents mintedBy nonce k = computeEpochId c parents mintedBy nonce k' → k = k'

theorem epochKey_epoch0 :
    (Keychain.build c idKey epoch0Key selfPeer secret entries).epochKey epoch0Id =
      some epoch0Key := by
  simp only [Keychain.epochKey, Keychain.build, epochNodes_getElem?, announcedNode, ↓reduceIte,
    Option.map_some, Option.bind_some]
  exact foldl_attachTo_key_of_some rfl

theorem epochKey_inv (he : epoch ≠ epoch0Id)
    (h : (Keychain.build c idKey epoch0Key selfPeer secret entries).epochKey epoch = some k) :
    ∃ rot, firstRotate entries epoch = some rot ∧
      ∃ e ∈ entries, e.epochId = epoch ∧ deliveredKey c selfPeer secret epoch rot e = some k := by
  simp only [Keychain.epochKey, Keychain.build, epochNodes_getElem?, announcedNode, if_neg he,
    Option.map_map, Option.bind_map, Option.bind_eq_some_iff] at h
  obtain ⟨rot, hr, hk⟩ := h
  cases foldl_attachTo_key_inv hk with
  | inl hk => cases hk
  | inr hk =>
    obtain ⟨e, hw, hd⟩ := hk
    obtain ⟨hm, rfl, _⟩ := mem_wrapItems.1 hw
    exact ⟨rot, hr, e, hm, rfl, hd⟩

theorem epochKey_isSome_of_delivered (he : epoch ≠ epoch0Id)
    (hr : firstRotate entries epoch = some rot) (hm : e ∈ entries) (heq : e.epochId = epoch)
    (h : deliveredKey c selfPeer secret epoch rot e = some k) :
    ∃ k', (Keychain.build c idKey epoch0Key selfPeer secret entries).epochKey epoch = some k' := by
  have hw : e ∈ valuesAt wrapItem epoch entries :=
    mem_wrapItems.2 ⟨hm, heq, (deliveredKey_commits h).1⟩
  have hsome : ∃ k', ((valuesAt wrapItem epoch entries).foldl (attachTo c selfPeer secret)
      rot.node).key = some k' := by
    apply foldl_attachTo_key_isSome hw
    rw [heq]
    exact h
  obtain ⟨k', hk'⟩ := hsome
  refine ⟨k', ?_⟩
  simp only [Keychain.epochKey, Keychain.build, epochNodes_getElem?, announcedNode, if_neg he, hr,
    Option.map_some, Option.bind_some]
  exact hk'

theorem epochKey_of_delivered (hc : CommitsToKey c) (he : epoch ≠ epoch0Id)
    (hr : firstRotate entries epoch = some rot) (hm : e ∈ entries) (heq : e.epochId = epoch)
    (h : deliveredKey c selfPeer secret epoch rot e = some k) :
    (Keychain.build c idKey epoch0Key selfPeer secret entries).epochKey epoch = some k := by
  obtain ⟨k', hbuild⟩ := epochKey_isSome_of_delivered he hr hm heq h
  obtain ⟨rot', hr', e', _, _, hd'⟩ := epochKey_inv he hbuild
  obtain rfl : rot = rot' := Option.some.inj (hr.symm.trans hr')
  have hkk : k' = k := hc rot.parents rot.mintedBy rot.nonce k' k
    ((deliveredKey_commits hd').2.trans (deliveredKey_commits h).2.symm)
  exact hkk ▸ hbuild

end Keys

section Head
variable {c : Crypto} {selfPeer : UInt64} {secret : Bytes32}

def IsParent (entries : List KeyLogEntry) (epoch : Bytes32) : Prop :=
  ∃ child rot, child ≠ epoch0Id ∧ firstRotate entries child = some rot ∧ epoch ∈ rot.parents

def Announced (entries : List KeyLogEntry) (epoch : Bytes32) : Prop :=
  epoch ≠ epoch0Id ∧ (firstRotate entries epoch).isSome

theorem announced_iff : Announced entries epoch ↔
      epoch ≠ epoch0Id ∧ ∃ e ∈ entries, e.epochId = epoch ∧ ∃ rot, e.rotation? = some rot := by
  rw [Announced, Option.isSome_iff_exists]
  apply and_congr_right
  intro _
  constructor
  · intro h
    obtain ⟨rot, hr⟩ := h
    obtain ⟨e, he, hid, hr⟩ := firstRotate_mem hr
    exact ⟨e, he, hid, rot, hr⟩
  · intro h
    obtain ⟨e, he, hid, rot, hr⟩ := h
    exact firstRotate_isSome he hid hr

theorem mem_parentIds {epochs : Std.TreeMap Bytes32 EpochNode} : epoch ∈ parentIds epochs ↔
      ∃ (child : Bytes32) (node : EpochNode), epochs[child]? = some node ∧
        epoch ∈ node.parents := by
  have hinner (ps : List Bytes32) (ids : Std.TreeSet Bytes32) :
      epoch ∈ ps.foldl (fun ids p => ids.insert p) ids ↔ epoch ∈ ids ∨ epoch ∈ ps := by
    induction ps generalizing ids with
    | nil => simp only [List.foldl_nil, List.not_mem_nil, or_false]
    | cons p ps ih =>
      simp only [List.foldl_cons, ih, Std.TreeSet.mem_insert, Std.LawfulEqOrd.compare_eq_iff_eq,
        List.mem_cons, eq_comm (a := p)]
      tauto
  have houter (nodes : List (Bytes32 × EpochNode)) (ids : Std.TreeSet Bytes32) :
      epoch ∈ nodes.foldl (fun ids p => p.2.parents.foldl (fun ids p => ids.insert p) ids) ids ↔
        epoch ∈ ids ∨ ∃ p ∈ nodes, epoch ∈ p.2.parents := by
    induction nodes generalizing ids with
    | nil => simp only [List.foldl_nil, List.not_mem_nil, false_and, exists_false, or_false]
    | cons p nodes ih =>
      rw [List.foldl_cons, ih, hinner]
      simp only [List.mem_cons, exists_eq_or_imp, or_assoc]
  rw [parentIds, houter]
  simp only [Std.TreeSet.not_mem_emptyc, false_or, Prod.exists,
    Std.TreeMap.mem_toList_iff_getElem?_eq_some]

theorem node_parents (h : (epochNodes c epoch0Key selfPeer secret entries)[child]? = some node) :
    node.parents = [] ∨ child ≠ epoch0Id ∧ ∃ rot, firstRotate entries child = some rot ∧
        rot.parents = node.parents := by
  rw [epochNodes_getElem?, Option.map_eq_some_iff] at h
  obtain ⟨node₀, h₀, rfl⟩ := h
  rw [foldl_attachTo_parents]
  by_cases hc : child = epoch0Id
  · rw [announcedNode, if_pos hc] at h₀
    cases h₀
    exact .inl rfl
  · rw [announcedNode, if_neg hc, Option.map_eq_some_iff] at h₀
    obtain ⟨rot, hr, rfl⟩ := h₀
    exact .inr ⟨hc, rot, hr, rfl⟩

theorem mem_parentIds_epochNodes :
    epoch ∈ parentIds (epochNodes c epoch0Key selfPeer secret entries) ↔
      IsParent entries epoch := by
  rw [mem_parentIds]
  constructor
  · intro h
    obtain ⟨child, node, hn, hp⟩ := h
    cases node_parents hn with
    | inl hnil =>
      rw [hnil] at hp
      cases hp
    | inr h =>
      obtain ⟨hc, rot, hr, hps⟩ := h
      exact ⟨child, rot, hc, hr, hps ▸ hp⟩
  · intro h
    obtain ⟨child, rot, hc, hr, hp⟩ := h
    have hnode : announcedNode epoch0Key entries child = some rot.node := by
      rw [announcedNode, if_neg hc, hr]
      rfl
    have hget : (epochNodes c epoch0Key selfPeer secret entries)[child]? =
        some ((valuesAt wrapItem child entries).foldl (attachTo c selfPeer secret) rot.node) := by
      rw [epochNodes_getElem?, hnode]
      rfl
    exact ⟨child, _, hget, (foldl_attachTo_parents _ rot.node).symm ▸ hp⟩

theorem mem_epochNodes : epoch ∈ epochNodes c epoch0Key selfPeer secret entries ↔
      epoch = epoch0Id ∨ Announced entries epoch := by
  rw [Std.TreeMap.mem_iff_isSome_getElem?, epochNodes_getElem?, Option.isSome_map, announcedNode,
    Announced]
  by_cases h : epoch = epoch0Id
  · simp only [h, ↓reduceIte, Option.isSome_some, true_or]
  · simp only [h, ↓reduceIte, Option.isSome_map, false_or, ne_eq, not_false_eq_true, true_and]

theorem mem_leaves : epoch ∈ leaves (epochNodes c epoch0Key selfPeer secret entries) ↔
      (epoch = epoch0Id ∨ Announced entries epoch) ∧ ¬ IsParent entries epoch := by
  rw [leaves, List.mem_filter, Std.TreeMap.mem_keys, mem_epochNodes, Bool.not_eq_true',
    ← Bool.not_eq_true, Std.TreeSet.contains_iff_mem, mem_parentIds_epochNodes]

theorem replicate_zero_le {bs : Bytes} (h : bs.length = n) : List.replicate n 0 ≤ bs := by
  apply not_lt.1
  intro hlt
  induction n generalizing bs with
  | zero => cases hlt
  | succ n ih =>
    cases hlt with
    | nil => cases h
    | rel hb => exact absurd hb (not_lt.2 UInt8.zero_le)
    | cons hlt => exact ih (Nat.succ.inj h) hlt

theorem epoch0Id_le (epoch : Bytes32) : epoch0Id ≤ epoch := replicate_zero_le epoch.size

theorem selectHead_eq_epoch0_iff {epochs : Std.TreeMap Bytes32 EpochNode} :
    selectHead epochs = epoch0Id ↔ leaves epochs = [] ∨ epoch0Id ∈ leaves epochs := by
  rw [selectHead]
  cases hm : (leaves epochs).min? with
  | none =>
    rw [List.min?_eq_none_iff] at hm
    simp only [Option.getD_none, hm, true_or]
  | some m =>
    rw [List.min?_eq_some_iff] at hm
    have hne : leaves epochs ≠ [] := List.ne_nil_of_mem hm.1
    simp only [Option.getD_some, hne, false_or]
    constructor
    · intro h
      exact h ▸ hm.1
    · intro h
      exact le_antisymm (hm.2 epoch0Id h) (epoch0Id_le m)

theorem selectHead_ne_epoch0_iff :
    selectHead (epochNodes c epoch0Key selfPeer secret entries) ≠ epoch0Id ↔
      IsParent entries epoch0Id ∧ ∃ epoch, Announced entries epoch ∧ ¬ IsParent entries epoch := by
  rw [ne_eq, selectHead_eq_epoch0_iff, not_or, mem_leaves, List.eq_nil_iff_forall_not_mem,
    not_forall_not]
  constructor
  · intro h
    obtain ⟨⟨epoch, hleaf⟩, hroot⟩ := h
    have hp : IsParent entries epoch0Id := by
      apply not_not.1
      intro hp
      exact hroot ⟨.inl rfl, hp⟩
    obtain ⟨hkind, hnp⟩ := mem_leaves.1 hleaf
    cases hkind with
    | inl he => exact absurd hp (he ▸ hnp)
    | inr ha => exact ⟨hp, epoch, ha, hnp⟩
  · intro h
    obtain ⟨hp, epoch, ha, hnp⟩ := h
    exact ⟨⟨epoch, mem_leaves.2 ⟨.inr ha, hnp⟩⟩, fun hroot => hroot.2 hp⟩

/-- The epoch that the first Rotates of the list make the write head, if it is not epoch 0. -/
structure HeadEpoch (l : List KeyLogEntry) (epoch : Bytes32) : Prop where
  announced : Announced l epoch
  leaf : ¬ IsParent l epoch
  root : IsParent l epoch0Id
  least : ∀ other, Announced l other → ¬ IsParent l other → epoch ≤ other

theorem headEpoch_iff : HeadEpoch entries epoch ↔ epoch ≠ epoch0Id ∧
      selectHead (epochNodes c epoch0Key selfPeer secret entries) = epoch := by
  constructor
  · intro h
    refine ⟨h.announced.1, ?_⟩
    have hmin : (leaves (epochNodes c epoch0Key selfPeer secret entries)).min? = some epoch := by
      refine List.min?_eq_some_iff.2 ⟨mem_leaves.2 ⟨.inr h.announced, h.leaf⟩, ?_⟩
      intro other hother
      obtain ⟨rfl | ha, hnp⟩ := mem_leaves.1 hother
      · exact absurd h.root hnp
      · exact h.least other ha hnp
    rw [selectHead, hmin, Option.getD_some]
  · rintro ⟨hne, rfl⟩
    obtain ⟨hroot, other, ha, hnp⟩ := selectHead_ne_epoch0_iff.1 hne
    have hother : other ∈ leaves (epochNodes c epoch0Key selfPeer secret entries) :=
      mem_leaves.2 ⟨.inr ha, hnp⟩
    rw [selectHead] at hne ⊢
    cases hmin : (leaves (epochNodes c epoch0Key selfPeer secret entries)).min? with
    | none => exact absurd (List.min?_eq_none_iff.1 hmin) (List.ne_nil_of_mem hother)
    | some m =>
      rw [hmin, Option.getD_some] at hne
      obtain ⟨hm, hleast⟩ := List.min?_eq_some_iff.1 hmin
      obtain ⟨hkind, hleaf⟩ := mem_leaves.1 hm
      exact ⟨hkind.resolve_left hne, hleaf, hroot,
        fun other ha hnp => hleast other (mem_leaves.2 ⟨.inr ha, hnp⟩)⟩

/-- In the second list, no first Rotate descends from the head of the first one, and some first
Rotate descends from epoch 0, if the head of the first list is not epoch 0. -/
def StaysLeaf (l₁ l₂ : List KeyLogEntry) : Prop :=
  ∀ epoch, HeadEpoch l₁ epoch → ¬ IsParent l₂ epoch ∧ IsParent l₂ epoch0Id

theorem StaysLeaf.head_le (h : StaysLeaf l₁ l₂) (ha : Announced l₂ epoch)
    (he : HeadEpoch l₁ epoch) : selectHead (epochNodes c epoch0Key selfPeer secret l₂) ≠ epoch0Id ∧
      selectHead (epochNodes c epoch0Key selfPeer secret l₂) ≤ epoch := by
  obtain ⟨hleaf, hroot⟩ := h epoch he
  have hne : selectHead (epochNodes c epoch0Key selfPeer secret l₂) ≠ epoch0Id :=
    selectHead_ne_epoch0_iff.2 ⟨hroot, epoch, ha, hleaf⟩
  exact ⟨hne, (headEpoch_iff.2 ⟨hne, rfl⟩).least epoch ha hleaf⟩

/-- Of lists that announce the same epochs, conflicting Rotates included, the heads are equal
exactly if the head of either stays a leaf in the other. -/
theorem selectHead_epochNodes_eq_iff (ha : ∀ epoch, Announced l₁ epoch ↔ Announced l₂ epoch) :
    selectHead (epochNodes c epoch0Key selfPeer secret l₁) =
      selectHead (epochNodes c epoch0Key selfPeer' secret' l₂) ↔
        StaysLeaf l₁ l₂ ∧ StaysLeaf l₂ l₁ := by
  constructor
  · intro heq
    constructor
    · intro epoch he
      obtain ⟨hne, hhead⟩ := headEpoch_iff.1 he
      have he' := headEpoch_iff.2 ⟨hne, heq.symm.trans hhead⟩
      exact ⟨he'.leaf, he'.root⟩
    · intro epoch he
      obtain ⟨hne, hhead⟩ := headEpoch_iff.1 he
      have he' := headEpoch_iff.2 ⟨hne, heq.trans hhead⟩
      exact ⟨he'.leaf, he'.root⟩
  · rintro ⟨h₁₂, h₂₁⟩
    by_cases h₁ : selectHead (epochNodes c epoch0Key selfPeer secret l₁) = epoch0Id
    · by_contra hne
      rw [h₁] at hne
      have he := headEpoch_iff.2 ⟨Ne.symm hne, rfl⟩
      exact (h₂₁.head_le ((ha _).2 he.announced) he).1 h₁
    · have he₁ := headEpoch_iff.2 ⟨h₁, rfl⟩
      obtain ⟨h₂, hle⟩ : selectHead (epochNodes c epoch0Key selfPeer' secret' l₂) ≠ epoch0Id ∧ _ :=
        h₁₂.head_le ((ha _).1 he₁.announced) he₁
      have he₂ := headEpoch_iff.2 ⟨h₂, rfl⟩
      exact le_antisymm (h₂₁.head_le ((ha _).2 he₂.announced) he₂).2 hle

/-- The write head leaves epoch 0 exactly when some announced rotation descends from epoch 0 and
some announced epoch is a leaf. -/
theorem build_head_ne_epoch0_iff (c : Crypto) (idKey epoch0Key : Bytes32) (selfPeer : UInt64)
    (secret : Bytes32) (entries : List KeyLogEntry) :
    (Keychain.build c idKey epoch0Key selfPeer secret entries).head ≠ epoch0Id ↔
      IsParent entries epoch0Id ∧ ∃ epoch, Announced entries epoch ∧ ¬ IsParent entries epoch :=
  selectHead_ne_epoch0_iff

/-- No epoch descends from itself: parents rank below their children. -/
def NoCycle (entries : List KeyLogEntry) : Prop :=
  ∃ rank : Bytes32 → Nat, ∀ child rot, firstRotate entries child = some rot →
    ∀ parent ∈ rot.parents, rank parent < rank child

theorem NoCycle.exists_leaf (h : NoCycle entries) (ha : Announced entries epoch) :
    ∃ leaf, Announced entries leaf ∧ ¬ IsParent entries leaf := by
  classical
  obtain ⟨rank, hrank⟩ := h
  let ids := (entries.map KeyLogEntry.epochId).toFinset.filter (Announced entries)
  have hids (id : Bytes32) (hid : Announced entries id) : id ∈ ids := by
    obtain ⟨_, e, he, heq, _⟩ := announced_iff.1 hid
    exact Finset.mem_filter.2 ⟨List.mem_toFinset.2 (heq ▸ List.mem_map_of_mem he), hid⟩
  obtain ⟨leaf, hleaf, hmax⟩ := Finset.exists_max_image ids rank ⟨epoch, hids epoch ha⟩
  refine ⟨leaf, (Finset.mem_filter.1 hleaf).2, ?_⟩
  intro hp
  obtain ⟨child, rot, hc, hr, hp⟩ := hp
  have hle := hmax child (hids child ⟨hc, Option.isSome_iff_exists.2 ⟨rot, hr⟩⟩)
  exact absurd (hrank child rot hr leaf hp) (Nat.not_lt.2 hle)

def rotateEntry (author epoch : UInt8) (parents : List UInt8) : KeyLogEntry where
  seq := 1
  author := derivedPeerId (.replicate author)
  epochId := .replicate epoch
  body := .rotate (parents.map .replicate) (.replicate 7)

/-- A cipher that leaves the key in the clear and a hash that keeps the last 32 bytes. -/
def plainCrypto : Crypto where
  blake3 bytes := (Bytes32.ofBytes? (bytes.drop (bytes.length - 32))).getD default
  deriveKey _ bytes := (Bytes32.ofBytes? (bytes.take 32)).getD default
  x25519Public secret := secret
  diffieHellman _ pub := pub
  aeadSeal _ _ pt := pt
  aeadOpen _ _ ct := some ct

/-- A rotation that lists itself and the tip as its parents leaves no leaf, and the head falls
back to epoch 0. -/
theorem build_head_self_parent :
    (Keychain.build plainCrypto default default 5 default [rotateEntry 1 1 [0]]).head ≠ epoch0Id ∧
      (Keychain.build plainCrypto default default 5 default
          [rotateEntry 1 1 [0], rotateEntry 2 2 [1, 2]]).head = epoch0Id := by
  decide +kernel

end Head

end Roam
