import Roam.EpochCommitment
import Roam.Library.Framing
import Roam.SyncFiles

namespace Roam
set_option autoImplicit true
open Library

def pairingProofDomain : Bytes := "roam-pairing-proof-v1".toUTF8.toList ++ [0]

/-- What a device puts its signature under. A pairing proof signs the secret of the token. -/
inductive Signed
  | rosterEntry (e : RosterEntry)
  | keyLogEntry (e : KeyLogEntry)
  | manifest (m : SnapshotManifest)
  | oplogUpdate (update : Bytes)
  | pairingProof (secret : Bytes32)

def Signed.bytes : Signed → Bytes
  | .rosterEntry e => e.canonicalBytes
  | .keyLogEntry e => e.canonicalBytes
  | .manifest m => m.signingBytes
  | .oplogUpdate update => oplogSigDomain ++ update
  | .pairingProof secret => pairingProofDomain ++ secret.bytes

/-- Agreement in every field that a signature covers. The signature of a manifest is not one of
them, and its lists are signed in sorted order. -/
structure SnapshotManifest.Agrees (m m' : SnapshotManifest) : Prop where
  frontierDigest : m.frontierDigest = m'.frontierDigest
  snapshotCtHash : m.snapshotCtHash = m'.snapshotCtHash
  author : m.author = m'.author
  subsumedEntryIds : m.subsumedEntryIds.Perm m'.subsumedEntryIds
  blobRefIds : m.blobRefIds.Perm m'.blobRefIds

def Signed.Agrees : Signed → Signed → Prop
  | .rosterEntry e, .rosterEntry e' => e = e'
  | .keyLogEntry e, .keyLogEntry e' => e = e'
  | .manifest m, .manifest m' => m.Agrees m'
  | .oplogUpdate update, .oplogUpdate update' => update = update'
  | .pairingProof secret, .pairingProof secret' => secret = secret'
  | _, _ => False

theorem Recipient.canonicalBytes_delimited : Delimited Set.univ Recipient.canonicalBytes := by
  intro r r' _ _ s t h
  cases r with
  | device p =>
    cases r' with
    | device p' =>
      obtain ⟨hp, hst⟩ := List.append_inj (List.cons.inj h).2
        (by rw [toLeBytes_length, toLeBytes_length])
      exact ⟨by rw [toLeBytes_injective hp], hst⟩
    | paper => exact absurd (List.cons.inj h).1 (by decide)
  | paper =>
    cases r' with
    | device p' => exact absurd (List.cons.inj h).1 (by decide)
    | paper => exact ⟨rfl, (List.cons.inj h).2⟩

/-- The parents have a fixed width and a nonce after them, so that the length of the text counts
them. -/
theorem rotate_bytes_injective {ps ps' : List Bytes32} {n n' : Bytes32}
    (h : toLeBytes 8 (UInt64.ofNat ps.length) ++ (ps.flatMap Bytes32.bytes ++ n.bytes) =
      toLeBytes 8 (UInt64.ofNat ps'.length) ++ (ps'.flatMap Bytes32.bytes ++ n'.bytes)) :
    ps = ps' ∧ n = n' := by
  obtain ⟨_, h⟩ := List.append_inj h (by rw [toLeBytes_length, toLeBytes_length])
  obtain ⟨hps, hn⟩ := List.append_inj' h (n.size.trans n'.size.symm)
  exact ⟨flatMap_bytes_injective hps, Bytes32.bytes_injective hn⟩

theorem wrap_bytes_injective {r r' : Recipient} {blob blob' : Bytes}
    (h : r.canonicalBytes ++ (toLeBytes 8 (UInt64.ofNat blob.length) ++ blob) =
      r'.canonicalBytes ++ (toLeBytes 8 (UInt64.ofNat blob'.length) ++ blob')) :
    r = r' ∧ blob = blob' := by
  obtain ⟨hr, h⟩ := Recipient.canonicalBytes_delimited trivial trivial h
  obtain ⟨_, hblob⟩ := List.append_inj h (by rw [toLeBytes_length, toLeBytes_length])
  exact ⟨hr, hblob⟩

theorem KeyLogEntry.eq_of_canonicalBytes {e e' : KeyLogEntry}
    (h : e.canonicalBytes = e'.canonicalBytes) : e = e' := by
  obtain ⟨seq, author, epoch, body⟩ := e
  obtain ⟨seq', author', epoch', body'⟩ := e'
  simp only [canonicalBytes, List.append_assoc] at h
  have h := List.append_cancel_left h
  obtain ⟨hseq, h⟩ := List.append_inj h (by rw [toLeBytes_length, toLeBytes_length])
  obtain ⟨hauthor, h⟩ := List.append_inj h (by rw [toLeBytes_length, toLeBytes_length])
  obtain ⟨hepoch, hbody⟩ := List.append_inj h (by rw [epoch.size, epoch'.size])
  cases toLeBytes_injective hseq
  cases toLeBytes_injective hauthor
  cases Bytes32.bytes_injective hepoch
  cases body with
  | rotate parents nonce =>
    cases body' with
    | rotate parents' nonce' =>
      simp only [List.cons_append, List.cons.injEq, true_and] at hbody
      obtain ⟨rfl, rfl⟩ := rotate_bytes_injective hbody
      rfl
    | wrap recipient' blob' => exact absurd (List.cons.inj hbody).1 (by decide)
  | wrap recipient blob =>
    cases body' with
    | rotate parents' nonce' => exact absurd (List.cons.inj hbody).1 (by decide)
    | wrap recipient' blob' =>
      simp only [List.cons_append, List.cons.injEq, true_and] at hbody
      obtain ⟨rfl, rfl⟩ := wrap_bytes_injective hbody
      rfl

def Sized : Set Nat := { n | n < 2 ^ 64 }

instance (n : Nat) : Decidable (n ∈ Sized) := inferInstanceAs (Decidable (n < 2 ^ 64))

theorem toLeBytes_delimited : Delimited Sized fun n => toLeBytes 8 (UInt64.ofNat n) := by
  apply Delimited.of_length
  · intro n hn n' hn' h
    have heq := congrArg UInt64.toNat (toLeBytes_injective h)
    rwa [UInt64.toNat_ofNat_of_lt' hn, UInt64.toNat_ofNat_of_lt' hn'] at heq
  · intro n _ n' _
    rw [toLeBytes_length, toLeBytes_length]

theorem id_delimited : Delimited { id : String | id.utf8ByteSize ∈ Sized } fun id =>
    toLeBytes 8 (UInt64.ofNat id.utf8ByteSize) ++ id.toUTF8.toList := by
  apply Delimited.bind String.utf8ByteSize toLeBytes_delimited fun _ h => h
  intro id _ id' _ hsize s t h
  obtain ⟨hid, hst⟩ := List.append_inj h (by rw [toUTF8_length, toUTF8_length, hsize])
  exact ⟨toUTF8_injective hid, hst⟩

def IdList : Set (List String) :=
  { ids | ids.length ∈ Sized ∧ ∀ id ∈ ids, id.utf8ByteSize ∈ Sized }

instance (ids : List String) : Decidable (ids ∈ IdList) :=
  inferInstanceAs (Decidable (ids.length ∈ Sized ∧ ∀ id ∈ ids, id.utf8ByteSize ∈ Sized))

theorem mergeSort_sized {ids : List String} (h : ids ∈ IdList) :
    ∀ id ∈ ids.mergeSort (· ≤ ·), id ∈ { id : String | id.utf8ByteSize ∈ Sized } :=
  fun id hid => h.2 id (List.mem_mergeSort.1 hid)

theorem idListBytes_inj {ids ids' : List String} (hids : ids ∈ IdList) (hids' : ids' ∈ IdList)
    (h : idListBytes ids ++ s = idListBytes ids' ++ t) : ids.Perm ids' ∧ s = t := by
  rw [idListBytes, idListBytes, List.append_assoc, List.append_assoc] at h
  obtain ⟨hlen, h⟩ := toLeBytes_delimited hids.1 hids'.1 h
  have hsorted : (ids.mergeSort (· ≤ ·)).length = (ids'.mergeSort (· ≤ ·)).length := by
    rw [List.length_mergeSort, List.length_mergeSort, hlen]
  obtain ⟨heq, hst⟩ := id_delimited.flatMap (mergeSort_sized hids) (mergeSort_sized hids') hsorted h
  have hperm := List.mergeSort_perm ids' (· ≤ ·)
  rw [← heq] at hperm
  exact ⟨(List.mergeSort_perm ids (· ≤ ·)).symm.trans hperm, hst⟩

theorem pairwise_mergeSort (ids : List String) : (ids.mergeSort (· ≤ ·)).Pairwise (· ≤ ·) := by
  have htrans (a b c : String) (hab : decide (a ≤ b)) (hbc : decide (b ≤ c)) :
      decide (a ≤ c) = true :=
    decide_eq_true (le_trans (of_decide_eq_true hab) (of_decide_eq_true hbc))
  have htotal (a b : String) : (decide (a ≤ b) || decide (b ≤ a)) = true := by
    simpa using le_total a b
  exact (List.pairwise_mergeSort htrans htotal ids).imp of_decide_eq_true

theorem idListBytes_perm {ids ids' : List String} (h : ids.Perm ids') :
    idListBytes ids = idListBytes ids' := by
  have hsort : ids.mergeSort (· ≤ ·) = ids'.mergeSort (· ≤ ·) := by
    apply List.Perm.eq_of_pairwise _ (pairwise_mergeSort ids) (pairwise_mergeSort ids')
    · exact (List.mergeSort_perm ids _).trans (h.trans (List.mergeSort_perm ids' _).symm)
    · intro a b _ _ hab hba
      exact le_antisymm hab hba
  rw [idListBytes, idListBytes, h.length_eq, hsort]

theorem SnapshotManifest.signingBytes_eq_iff {m m' : SnapshotManifest}
    (hs : m.subsumedEntryIds ∈ IdList) (hs' : m'.subsumedEntryIds ∈ IdList)
    (hb : m.blobRefIds ∈ IdList) (hb' : m'.blobRefIds ∈ IdList) :
    m.signingBytes = m'.signingBytes ↔ m.Agrees m' := by
  constructor
  · intro h
    simp only [signingBytes, List.append_assoc] at h
    have h := List.append_cancel_left h
    obtain ⟨hdigest, h⟩ := List.append_inj h (by rw [Bytes32.size, Bytes32.size])
    obtain ⟨hct, h⟩ := List.append_inj h (by rw [Bytes32.size, Bytes32.size])
    obtain ⟨hauthor, h⟩ := List.append_inj h (by rw [toLeBytes_length, toLeBytes_length])
    obtain ⟨hsub, h⟩ := idListBytes_inj hs hs' h
    rw [← List.append_nil (idListBytes m.blobRefIds), ← List.append_nil (idListBytes m'.blobRefIds)]
      at h
    exact ⟨Bytes32.bytes_injective hdigest, Bytes32.bytes_injective hct,
      toLeBytes_injective hauthor, hsub, (idListBytes_inj hb hb' h).1⟩
  · intro h
    rw [signingBytes, signingBytes, h.frontierDigest, h.snapshotCtHash, h.author,
      idListBytes_perm h.subsumedEntryIds, idListBytes_perm h.blobRefIds]

/-- The lists and the strings of a manifest are not longer than a `usize` can count; of the other
objects nothing is asked. -/
def Signed.Fits : Signed → Prop
  | .manifest m => m.subsumedEntryIds ∈ IdList ∧ m.blobRefIds ∈ IdList
  | _ => True

inductive Signed.Kind
  | rosterEntry
  | keyLogEntry
  | manifest
  | oplogUpdate
  | pairingProof
deriving DecidableEq

instance : Fintype Signed.Kind where
  elems := {.rosterEntry, .keyLogEntry, .manifest, .oplogUpdate, .pairingProof}
  complete k := by cases k <;> decide

def Signed.kind : Signed → Kind
  | .rosterEntry _ => .rosterEntry
  | .keyLogEntry _ => .keyLogEntry
  | .manifest _ => .manifest
  | .oplogUpdate _ => .oplogUpdate
  | .pairingProof _ => .pairingProof

def Signed.Kind.domain : Kind → Bytes
  | .rosterEntry => "roam.roster.v3".toUTF8.toList
  | .keyLogEntry => "roam.keylog.v1".toUTF8.toList
  | .manifest => manifestDomain
  | .oplogUpdate => oplogSigDomain
  | .pairingProof => pairingProofDomain

theorem Signed.bytes_eq_domain_append (a : Signed) : ∃ body, a.bytes = a.kind.domain ++ body := by
  cases a with
  | rosterEntry e =>
    rw [bytes, RosterEntry.canonicalBytes]
    simp only [List.append_assoc]
    exact ⟨_, rfl⟩
  | keyLogEntry e =>
    rw [bytes, KeyLogEntry.canonicalBytes]
    simp only [List.append_assoc]
    exact ⟨_, rfl⟩
  | manifest m =>
    rw [bytes, SnapshotManifest.signingBytes]
    simp only [List.append_assoc]
    exact ⟨_, rfl⟩
  | oplogUpdate update => exact ⟨update, rfl⟩
  | pairingProof secret => exact ⟨secret.bytes, rfl⟩

/-- The tags differ in length, and not all of them end in a terminator; the first fourteen bytes
already tell them apart. -/
theorem Signed.Kind.domain_apart :
    ∀ k k' : Kind, 14 ≤ k.domain.length ∧ (k ≠ k' → k.domain.take 14 ≠ k'.domain.take 14) := by
  decide +kernel

theorem Signed.kind_eq_of_bytes {a b : Signed} (h : a.bytes = b.bytes) : a.kind = b.kind := by
  obtain ⟨body, hbody⟩ := a.bytes_eq_domain_append
  obtain ⟨body', hbody'⟩ := b.bytes_eq_domain_append
  rw [hbody, hbody'] at h
  by_contra hne
  revert h
  apply append_ne_of_take_ne 14
  · exact (Kind.domain_apart a.kind a.kind).1
  · exact (Kind.domain_apart b.kind b.kind).1
  · exact (Kind.domain_apart a.kind b.kind).2 hne

/-- A signature cannot be moved: the signed bytes of two objects, of whatever kinds, are the same
only for objects of one kind with the same signed fields. -/
theorem Signed.bytes_eq_iff (a b : Signed) (ha : a.Fits) (hb : b.Fits) :
    a.bytes = b.bytes ↔ a.Agrees b := by
  constructor
  · intro h
    have hkind := kind_eq_of_bytes h
    cases a with
    | rosterEntry e =>
      cases b with
      | rosterEntry e' => exact RosterEntry.eq_of_canonicalBytes h
      | _ => cases hkind
    | keyLogEntry e =>
      cases b with
      | keyLogEntry e' => exact KeyLogEntry.eq_of_canonicalBytes h
      | _ => cases hkind
    | manifest m =>
      cases b with
      | manifest m' => exact (SnapshotManifest.signingBytes_eq_iff ha.1 hb.1 ha.2 hb.2).1 h
      | _ => cases hkind
    | oplogUpdate update =>
      cases b with
      | oplogUpdate update' => exact List.append_cancel_left h
      | _ => cases hkind
    | pairingProof secret =>
      cases b with
      | pairingProof secret' => exact Bytes32.bytes_injective (List.append_cancel_left h)
      | _ => cases hkind
  · intro h
    cases a with
    | manifest m =>
      cases b with
      | manifest m' => exact (SnapshotManifest.signingBytes_eq_iff ha.1 hb.1 ha.2 hb.2).2 h
      | _ => cases h
    | _ =>
      cases b with
      | manifest m' => cases h
      | _ => first | (cases h; rfl) | cases h

/-- The order of the ids does not matter, their borders do; and an empty name is not no name. -/
theorem Signed.bytes_eq_iff_samples :
    let m (ids : List String) : Signed := .manifest ⟨default, default, ids, [], 7, ""⟩
    let e (op : RosterOp) : Signed := .rosterEntry ⟨0, 0, op, 7, default, 7⟩
    (m ["a", "b"]).bytes = (m ["b", "a"]).bytes ∧ (m ["a", "b"]).bytes ≠ (m ["ab"]).bytes ∧
      (e (.setName "")).bytes ≠ (e .revoke).bytes := by
  intro m e
  have hab : (m ["a", "b"]).Fits := ⟨by decide, by decide⟩
  have hba : (m ["b", "a"]).Fits := ⟨by decide, by decide⟩
  have hjoined : (m ["ab"]).Fits := ⟨by decide, by decide⟩
  refine ⟨?_, ?_, ?_⟩
  · rw [Signed.bytes_eq_iff _ _ hab hba]
    exact ⟨rfl, rfl, rfl, List.Perm.swap _ _ _, List.Perm.refl _⟩
  · rw [Ne, Signed.bytes_eq_iff _ _ hab hjoined]
    intro h
    exact absurd h.subsumedEntryIds.length_eq (by decide)
  · intro h
    have hentry := (Signed.bytes_eq_iff (e (.setName "")) (e .revoke) trivial trivial).1 h
    exact nomatch congrArg RosterEntry.op hentry

end Roam
