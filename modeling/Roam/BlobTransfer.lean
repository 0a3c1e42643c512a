import Roam.ReadGate
import Roam.Transfer

namespace Roam
set_option autoImplicit true
open Library Library.Fallible

section Hash

theorem hexDigit_valid : ∀ n < 16, ('0' ≤ hexDigit n ∧ hexDigit n ≤ '9') ∨
    ('a' ≤ hexDigit n ∧ hexDigit n ≤ 'f') := by
  decide

theorem length_toHex (bytes : Bytes) : (toHex bytes).toList.length = 2 * bytes.length := by
  rw [toHex, String.toList_ofList, List.length_flatMap]
  simp only [List.length_cons, List.length_nil, List.map_const', List.sum_replicate, smul_eq_mul]
  omega

theorem isValidHash_toHex {bytes : Bytes} (h : bytes.length = 32) :
    isValidHash (toHex bytes) = true := by
  rw [isValidHash, decide_eq_true_eq, length_toHex, h]
  refine ⟨rfl, ?_⟩
  rw [toHex, String.toList_ofList, List.all_flatMap, List.all_eq_true]
  intro b _
  have hb := b.toNat_lt
  simp only [List.all_cons, List.all_nil, Bool.and_true, Bool.and_eq_true, decide_eq_true_eq]
  exact ⟨hexDigit_valid _ (by omega), hexDigit_valid _ (by omega)⟩

theorem isValidHash_blobHash (π : Platform) (bytes : Bytes) :
    isValidHash (blobHash π bytes) = true := isValidHash_toHex (π.crypto.blake3 bytes).size

end Hash

namespace Engine
variable {π : SyncPlatform} {e : Engine π} {hash : String}

def transfer (e : Engine π) (hash : String) : Transfer :=
  ⟨e.store.disk.blobs[hash]?, e.files.parts[hash]?, e.incomingBlobs[hash]?⟩

theorem transfer_part (e : Engine π) (hash : String) :
    (e.transfer hash).part = e.files.parts[hash]? := rfl

theorem transfer_entry (e : Engine π) (hash : String) :
    (e.transfer hash).entry = e.incomingBlobs[hash]? := rfl

def arrive (e : Engine π) (a : Arrival) : Engine π := (e.handle a.env a.peer a.frame).1

def hashesTo (π : SyncPlatform) (hash : String) (bytes : Bytes) : Bool :=
  blobHash π.toPlatform bytes = hash

theorem hasBlob_iff (hvalid : isValidHash hash = true) :
    e.store.hasBlob hash = true ↔ (e.transfer hash).stored.isSome = true := by
  rw [Store.hasBlob, hvalid, Bool.true_and, transfer, Std.TreeMap.contains_eq_isSome_getElem?]

theorem writeIncomingChunk_eq {files : SyncFiles}
    (hvalid : isValidHash hash = true) (hle : offset + bytes.length ≤ totalLen) :
    files.writeIncomingChunk hash offset totalLen bytes =
      let part := files.parts[hash]?.getD (List.replicate totalLen 0)
      if part.length = totalLen then
        some { files with parts := files.parts.insert hash (overwrite part offset bytes) }
      else none := by
  rw [SyncFiles.writeIncomingChunk, if_pos ⟨hvalid, hle⟩]
  rfl

theorem transfer_completeBlob (hvalid : isValidHash hash = true)
    (hstored : e.store.disk.blobs[hash]? = none) (hpart : e.files.parts[hash]? = some part) :
    (e.completeBlob hash).1.transfer hash =
      ⟨if hashesTo π hash part then some part else none, none, none⟩ := by
  have hno : e.store.hasBlob hash = false := by
    rw [← Bool.not_eq_true, hasBlob_iff hvalid, transfer, hstored]
    exact Bool.false_ne_true
  rw [completeBlob]
  simp only [hno, Bool.false_eq_true, ↓reduceIte, SyncFiles.finalizeIncoming, hpart, hashesTo,
    decide_eq_true_eq]
  split
  next =>
    simp only [transfer, Store.withBlob, SyncFiles.discardIncoming,
      Std.TreeMap.getElem?_insert_self, Std.TreeMap.getElem?_erase_self]
  next =>
    simp only [transfer, SyncFiles.discardIncoming, Std.TreeMap.getElem?_erase_self, hstored]

theorem transfer_arrive {a : Arrival} (hvalid : isValidHash a.hash = true)
    (hwant : e.store.filesetWants a.hash = true) :
    (e.arrive a).transfer a.hash = (e.transfer a.hash).receive (hashesTo π a.hash) a := by
  rw [arrive, Arrival.frame, handle, handleBlobChunk, Transfer.receive]
  split
  next => rfl
  next hmax =>
    split
    next => rfl
    next hadm =>
      simp only [hwant, Bool.not_true, Bool.false_eq_true, or_false, hasBlob_iff hvalid]
      split
      next => rfl
      next hstored =>
        rw [Bool.not_eq_true, Bool.not_eq_false'] at hadm
        rw [Bool.not_eq_true, Option.isSome_eq_false_iff, Option.isNone_iff_eq_none] at hstored
        rw [writeIncomingChunk_eq hvalid (chunk_end_le hadm)]
        dsimp +instances only [transfer_part, transfer_entry]
        by_cases hlen :
            (e.files.parts[a.hash]?.getD (List.replicate a.totalLen 0)).length = a.totalLen
        · rw [if_pos hlen, if_pos hlen]
          dsimp only
          split
          next =>
            simp only [transfer, Std.TreeMap.getElem?_insert_self]
          next =>
            apply transfer_completeBlob hvalid
            · exact hstored
            · exact Std.TreeMap.getElem?_insert_self
        · rw [if_neg hlen, if_neg hlen]

theorem arrive_unwanted {a : Arrival} (hwant : e.store.filesetWants a.hash = false) :
    e.arrive a = e := by
  rw [arrive, Arrival.frame, handle, handleBlobChunk, hwant]
  simp only [Bool.not_false, or_true, ↓reduceIte, ite_self]

structure OnlyBlob (hash : String) (e e' : Engine π) : Prop where
  doc : e'.store.doc = e.store.doc
  others : ∀ other, other ≠ hash → e'.transfer other = e.transfer other

theorem OnlyBlob.refl (hash : String) (e : Engine π) : OnlyBlob hash e e := ⟨rfl, fun _ _ => rfl⟩

theorem OnlyBlob.trans {e₁ e₂ e₃ : Engine π} (h : OnlyBlob hash e₁ e₂)
    (h' : OnlyBlob hash e₂ e₃) : OnlyBlob hash e₁ e₃ where
  doc := h'.doc.trans h.doc
  others other hne := (h'.others other hne).trans (h.others other hne)

theorem completeBlob_only (e : Engine π) (hash : String) :
    OnlyBlob hash e (e.completeBlob hash).1 := by
  rw [completeBlob]
  dsimp only
  split
  next =>
    refine ⟨rfl, ?_⟩
    intro other hne
    simp only [transfer, SyncFiles.discardIncoming, get_erase, hne.symm, ↓reduceIte]
  next =>
    rw [SyncFiles.finalizeIncoming]
    split
    next =>
      refine ⟨rfl, ?_⟩
      intro other hne
      simp only [transfer, get_erase, hne.symm, ↓reduceIte]
    next =>
      split <;> refine ⟨rfl, ?_⟩ <;> intro other hne <;>
        simp only [transfer, SyncFiles.discardIncoming, Store.withBlob, get_erase, get_insert,
          hne.symm, ↓reduceIte]

theorem writeIncomingChunk_others {files files' : SyncFiles} {hash other : String}
    (h : files.writeIncomingChunk hash offset totalLen bytes = some files') (hne : other ≠ hash) :
    files'.parts[other]? = files.parts[other]? := by
  simp only [SyncFiles.writeIncomingChunk, Option.ite_none_right_eq_some, Option.some.injEq] at h
  obtain ⟨_, _, rfl⟩ := h
  rw [get_insert, if_neg hne.symm]

theorem arrive_only (e : Engine π) (a : Arrival) : OnlyBlob a.hash e (e.arrive a) := by
  rw [arrive, Arrival.frame, handle, handleBlobChunk]
  split
  next => exact .refl _ _
  next =>
    split
    next => exact .refl _ _
    next =>
      split
      next => exact .refl _ _
      next =>
        split
        next => exact .refl _ _
        next files hwrite =>
          dsimp only
          generalize countChunk _ _ _ _ = entry
          have hcounted : OnlyBlob a.hash e
              { e with files, incomingBlobs := e.incomingBlobs.insert a.hash entry } := by
            refine ⟨rfl, ?_⟩
            intro other hne
            simp only [transfer, writeIncomingChunk_others hwrite hne, get_insert, hne.symm,
              ↓reduceIte]
          split
          next => exact hcounted
          next => exact hcounted.trans (completeBlob_only _ _)

theorem arrive_filesetWants (a : Arrival) (hash : String) :
    (e.arrive a).store.filesetWants hash = e.store.filesetWants hash := by
  rw [Store.filesetWants, Store.filesetWants, Store.liveBlobs, Store.liveBlobs,
    (arrive_only e a).doc]

theorem transfer_runAll (hvalid : isValidHash hash = true)
    (hwant : e.store.filesetWants hash = true) (arrivals : List Arrival) :
    (runAll arrive e arrivals).transfer hash =
      runAll (Transfer.receive (hashesTo π hash)) (e.transfer hash)
        (arrivals.filter fun a => a.hash = hash) := by
  induction arrivals generalizing e with
  | nil => rfl
  | cons a arrivals ih =>
    rw [runAll, List.foldl_cons, ← runAll, ih ((arrive_filesetWants a hash).trans hwant)]
    by_cases ha : a.hash = hash
    · subst ha
      rw [List.filter_cons_of_pos (by rw [decide_eq_true_eq]), transfer_arrive hvalid hwant]
      rfl
    · rw [List.filter_cons_of_neg (by rwa [decide_eq_true_eq]),
        (arrive_only e a).others hash (Ne.symm ha)]

section Reached

def SameParts (e e' : Engine π) : Prop :=
  e'.files.parts = e.files.parts ∧ e'.incomingBlobs = e.incomingBlobs

def SameFiles (e e' : Engine π) : Prop := e'.files = e.files ∧ e'.incomingBlobs = e.incomingBlobs

theorem SameFiles.sameParts {e e' : Engine π} (h : SameFiles e e') : SameParts e e' :=
  ⟨congrArg SyncFiles.parts h.1, h.2⟩

theorem withStore_files {α : Type} {op : StoreM π.toPlatform α}
    {next : Engine π → α → Engine π × List Act} (hnext : ∀ e a, SameFiles e (next e a).1) :
    SameFiles e (e.withStore op next).2.1 := by
  rw [withStore]
  split
  next a store h => exact hnext { e with store } a
  next => exact ⟨rfl, rfl⟩

theorem connect_files (dial : UInt64 → Bool) (e : Engine π) (peer : UInt64) :
    SameFiles e (e.connect dial peer).1 := by
  rw [connect]
  split
  next => exact ⟨rfl, rfl⟩
  next => exact ⟨rfl, rfl⟩

theorem connectAll_files (dial : UInt64 → Bool) (e : Engine π) (peers : List (UInt64 × Bytes32)) :
    SameFiles e (e.connectAll dial peers).1 := by
  induction peers generalizing e with
  | nil => exact ⟨rfl, rfl⟩
  | cons p peers ih =>
    obtain ⟨hfiles, hcounts⟩ := connect_files dial e p.1
    obtain ⟨hfiles', hcounts'⟩ := ih (e.connect dial p.1).1
    exact ⟨hfiles'.trans hfiles, hcounts'.trans hcounts⟩

theorem recordHeldSnapshot_files {files files' : SyncFiles} {id : String}
    (h : files.recordHeldSnapshot π id subsumed = .ok files') :
    files'.parts = files.parts ∧ files'.objects = files.objects := by
  rw [SyncFiles.recordHeldSnapshot] at h
  cases hheld : files.heldSnapshots π with
  | error err =>
    rw [hheld] at h
    cases h
  | ok held =>
    rw [hheld] at h
    change (if _ then Except.ok files else Except.ok _) = Except.ok files' at h
    split at h
    next =>
      cases h
      exact ⟨rfl, rfl⟩
    next =>
      cases h
      exact ⟨rfl, rfl⟩

theorem adopted_files {files files' : SyncFiles} {id : String} {s s' : Store π.toPlatform}
    (h : exec (Store.verifyAndAdoptSnapshot io kc keys id framed files) s =
      (.ok (outcome, files'), s')) : files'.parts = files.parts ∧
      (files'.objects = files.objects ∨ files'.objects = files.objects.insert id framed) := by
  rw [Store.verifyAndAdoptSnapshot] at h
  split at h
  next =>
    cases h
    exact ⟨rfl, .inl rfl⟩
  next plaintext subsumed hopen =>
    simp only [exec_bind, exec_ofResult, exec_pure] at h
    split at h
    next =>
      split at h
      next files₁ s₁ hrecord =>
        obtain ⟨hparts, hobjects⟩ := recordHeldSnapshot_files (Prod.mk.inj hrecord).1
        cases h
        exact ⟨hparts, .inr (congrArg (·.insert id framed) hobjects)⟩
      next => cases h
    next => cases h

theorem handle_snapshotData (env : Env) (e : Engine π) (peer : UInt64) (framed : Bytes) :
    SameParts e (e.handle env peer (.snapshotData framed)).1 ∧
      ((e.handle env peer (.snapshotData framed)).1.files.objects = e.files.objects ∨
        (e.handle env peer (.snapshotData framed)).1.files.objects =
          e.files.objects.insert (blobHash π.toPlatform framed) framed) := by
  simp only [handle, handleSnapshotData]
  split
  next =>
    split
    next => exact ⟨⟨rfl, rfl⟩, .inl rfl⟩
    next =>
      split
      next hadopt => exact ⟨⟨(adopted_files hadopt).1, rfl⟩, (adopted_files hadopt).2⟩
      next => exact ⟨⟨rfl, rfl⟩, .inl rfl⟩
  next => exact ⟨⟨rfl, rfl⟩, .inl rfl⟩

theorem handle_files (env : Env) (e : Engine π) (peer : UInt64) {frame : Frame}
    (hchunk : ∀ hash offset totalLen bytes, frame ≠ .blobChunk hash offset totalLen bytes)
    (hdata : ∀ framed, frame ≠ .snapshotData framed) : SameFiles e (e.handle env peer frame).1 := by
  have hreply (frame : Frame) : SameFiles e (e.reply env peer frame).1 := by
    rw [reply]
    split <;> exact ⟨rfl, rfl⟩
  cases frame with
  | hello vault =>
    simp only [handle, handleHello]
    repeat' split
    all_goals exact ⟨rfl, rfl⟩
  | «have» docVersion =>
    have hack (incoming : π.Version) : SameFiles e (e.acknowledge peer docVersion incoming) := by
      rw [acknowledge]
      split <;> exact ⟨rfl, rfl⟩
    rw [handle, handleHave]
    split
    next => exact ⟨rfl, rfl⟩
    next =>
      split
      next => exact hack _
      next => exact ⟨rfl, rfl⟩
  | ops author jsonl =>
    rw [handle, handleOps]
    repeat' split
    all_goals exact ⟨rfl, rfl⟩
  | rosterOps author jsonl =>
    rw [handle, handleRosterOps]
    split
    next => exact ⟨rfl, rfl⟩
    next =>
      split
      next => exact ⟨rfl, rfl⟩
      next =>
        split
        next store _ => exact connectAll_files env.dial { e with store } _
        next => exact ⟨rfl, rfl⟩
  | keylogOps author jsonl =>
    rw [handle, handleKeylogOps]
    repeat' split
    all_goals exact ⟨rfl, rfl⟩
  | blobData hash bytes =>
    rw [handle, handleBlobData]
    repeat' split
    all_goals exact ⟨rfl, rfl⟩
  | snapshotData framed => exact absurd rfl (hdata framed)
  | blobChunk hash offset totalLen bytes => exact absurd rfl (hchunk hash offset totalLen bytes)
  | rosterHave | keylogHave | blobWant | snapshotHave | snapshotWant => exact hreply _
  | ping => exact ⟨rfl, rfl⟩

theorem after_files (e : Engine π) {op : EngineOp}
    (h : ∀ env peer frame, op ≠ .handle env peer frame) : SameFiles e (e.after op) := by
  cases op with
  | editText | addPeer | revokePeer | setRole | setDeviceName | rotateEpoch | backfillWraps =>
    exact withStore_files fun _ _ => ⟨rfl, rfl⟩
  | flushLocal => exact ⟨rfl, rfl⟩
  | requestMissingBlobs => exact ⟨rfl, rfl⟩
  | handle env peer frame => exact absurd rfl (h env peer frame)

theorem after_parts (e : Engine π) {op : EngineOp} (h : ∀ env peer hash offset totalLen bytes,
    op ≠ .handle env peer (.blobChunk hash offset totalLen bytes)) : SameParts e (e.after op) := by
  by_cases hop : ∃ env peer frame, op = .handle env peer frame
  · obtain ⟨env, peer, frame, rfl⟩ := hop
    by_cases hdata : ∃ framed, frame = .snapshotData framed
    · obtain ⟨framed, rfl⟩ := hdata
      exact (handle_snapshotData env e peer framed).1
    · refine (handle_files env e peer ?_ (not_exists.1 hdata)).sameParts
      rintro hash offset totalLen bytes rfl
      exact h env peer hash offset totalLen bytes rfl
  · simp only [not_exists] at hop
    exact (after_files e hop).sameParts

def Reached (e : Engine π) : Prop :=
  ∃ identity vault vaultKey store files ops,
    e = runAll after (.new identity vault vaultKey store files) ops

def SoundTransfers (e : Engine π) : Prop :=
  ∀ hash, isValidHash hash = true → (e.transfer hash).Sound

theorem SameParts.sound {e e' : Engine π} (h : SameParts e e') (hsound : e.SoundTransfers) :
    e'.SoundTransfers := by
  intro hash hvalid
  apply (hsound hash hvalid).congr
  · rw [transfer_part, transfer_part, h.1]
  · rw [transfer_entry, transfer_entry, h.2]

theorem arrive_sound {a : Arrival} (hsound : e.SoundTransfers) : (e.arrive a).SoundTransfers := by
  intro hash hvalid
  by_cases ha : a.hash = hash
  · subst ha
    cases hwant : e.store.filesetWants a.hash with
    | false =>
      rw [arrive_unwanted hwant]
      exact hsound a.hash hvalid
    | true =>
      rw [transfer_arrive hvalid hwant]
      exact (hsound a.hash hvalid).receive
  · rw [(arrive_only e a).others hash (Ne.symm ha)]
    exact hsound hash hvalid

theorem after_sound (e : Engine π) (op : EngineOp) (hsound : e.SoundTransfers) :
    (e.after op).SoundTransfers := by
  by_cases h : ∀ env peer hash offset totalLen bytes,
      op ≠ .handle env peer (.blobChunk hash offset totalLen bytes)
  · exact (after_parts e h).sound hsound
  · push Not at h
    obtain ⟨env, peer, hash, offset, totalLen, bytes, rfl⟩ := h
    exact arrive_sound (a := ⟨env, peer, hash, offset, totalLen, bytes⟩) hsound

theorem Reached.sound (h : Reached e) : e.SoundTransfers := by
  obtain ⟨identity, vault, vaultKey, store, files, ops, rfl⟩ := h
  apply runAll_invariant after_sound
  intro hash _
  exact .of_entry Std.TreeMap.getElem?_emptyc

end Reached

section Served

variable {hash : String}

theorem serveChunks_end (h : b.length ≤ offset) : serveChunks hash b fuel offset = [] := by
  cases fuel with
  | zero => rfl
  | succ fuel => rw [serveChunks, if_neg h.not_gt]

theorem mem_serveChunks (hoffset : blobChunkSize ∣ offset) (hfuel : b.length ≤ offset + fuel) :
    frame ∈ serveChunks hash b fuel offset ↔ ∃ o, offset ≤ o ∧ o < b.length ∧ blobChunkSize ∣ o ∧
        frame = .blobChunk hash o b.length (chunkAt blobChunkSize b o) := by
  induction fuel generalizing offset with
  | zero =>
    apply iff_of_false List.not_mem_nil
    rintro ⟨o, hle, hlt, _⟩
    omega
  | succ fuel ih =>
    rw [serveChunks]
    split
    next hlt =>
      have hchunk : (b.drop offset).take (expectedChunkLen offset b.length) =
          chunkAt blobChunkSize b offset := by
        rw [chunkAt, expectedChunkLen, List.take_eq_take_iff, List.length_drop]
        omega
      have hlen := length_chunkAt blobChunkSize b offset
      have hpos := blobChunkSize_pos
      have hne : (chunkAt blobChunkSize b offset).isEmpty = false := by
        rw [List.isEmpty_eq_false_iff, ← List.length_pos_iff_ne_nil]
        omega
      simp only [hchunk, hne, Bool.false_eq_true, ↓reduceIte, List.mem_cons]
      have hrest : frame ∈ serveChunks hash b fuel
          (offset + (chunkAt blobChunkSize b offset).length) ↔
          ∃ o, offset + blobChunkSize ≤ o ∧ o < b.length ∧ blobChunkSize ∣ o ∧
            frame = .blobChunk hash o b.length (chunkAt blobChunkSize b o) := by
        by_cases hfull : blobChunkSize ≤ b.length - offset
        · rw [min_eq_left hfull] at hlen
          rw [hlen]
          exact ih (Nat.dvd_add hoffset (Nat.dvd_refl _)) (by omega)
        · -- the last chunk is shorter, and nothing follows it
          rw [serveChunks_end (by omega)]
          apply iff_of_false List.not_mem_nil
          rintro ⟨o, hle, hlt, _⟩
          omega
      rw [hrest]
      constructor
      · rintro (h | ⟨o, hle, h⟩)
        · exact ⟨offset, Nat.le_refl _, hlt, hoffset, h⟩
        · exact ⟨o, by omega, h⟩
      · rintro ⟨o, hle, hlt, hdvd, h⟩
        rcases Nat.eq_or_lt_of_le hle with rfl | hlt'
        · exact .inl h
        · have hnext := Nat.le_of_dvd (by omega) (Nat.dvd_sub hdvd hoffset)
          exact .inr ⟨o, by omega, hlt, hdvd, h⟩
    next hge =>
      apply iff_of_false List.not_mem_nil
      rintro ⟨o, hle, hlt, _⟩
      omega

theorem mem_blobFrames : frame ∈ blobFrames hash b ↔
      ∃ o, chunkOffsetIsAdmissible o b.length = true ∧
        frame = .blobChunk hash o b.length (chunkAt blobChunkSize b o) := by
  rw [blobFrames]
  split
  next hempty =>
    rw [List.isEmpty_iff] at hempty
    subst hempty
    rw [List.mem_singleton]
    constructor
    · rintro rfl
      exact ⟨0, rfl, rfl⟩
    · rintro ⟨o, ho, rfl⟩
      obtain ⟨_, hlt | ⟨rfl, _⟩⟩ := offsetIsAdmissible_iff.1 ho
      · cases hlt
      · rfl
  next hne =>
    rw [List.isEmpty_iff, ← ne_eq, ← List.length_pos_iff_ne_nil] at hne
    rw [mem_serveChunks (Nat.dvd_zero _) (Nat.zero_add _).ge]
    apply exists_congr
    intro o
    rw [offsetIsAdmissible_iff]
    constructor
    · rintro ⟨_, hlt, hdvd, h⟩
      exact ⟨⟨hdvd, .inl hlt⟩, h⟩
    · rintro ⟨⟨hdvd, hlt⟩, h⟩
      exact ⟨Nat.zero_le o, by omega, hdvd, h⟩

theorem frame_mem_blobFrames {a : Arrival} :
    a.frame ∈ blobFrames hash b ↔ a.hash = hash ∧ Transfer.IsChunk b a := by
  rw [mem_blobFrames, Arrival.frame]
  simp only [Frame.blobChunk.injEq]
  constructor
  · rintro ⟨o, ho, hhash, rfl, hlen, hbytes⟩
    exact ⟨hhash, hlen, ho, hbytes⟩
  · rintro ⟨hhash, hlen, ho, hbytes⟩
    exact ⟨a.offset, ho, hhash, rfl, hlen, hbytes⟩

theorem isStream_of_frames {arrivals : List Arrival}
    (h : arrivals.map Arrival.frame = blobFrames hash b) : Transfer.IsStream b arrivals := by
  refine ⟨?_, ?_⟩
  · intro a ha
    have hframe : a.frame ∈ arrivals.map Arrival.frame := List.mem_map_of_mem ha
    rw [h, frame_mem_blobFrames] at hframe
    exact hframe.2
  · intro o ho
    have hframe : .blobChunk hash o b.length (chunkAt blobChunkSize b o) ∈ blobFrames hash b :=
      mem_blobFrames.2 ⟨o, ho, rfl⟩
    rw [← h, List.mem_map] at hframe
    obtain ⟨a, ha, hframe⟩ := hframe
    rw [Arrival.frame, Frame.blobChunk.injEq] at hframe
    rw [← hframe.2.1]
    exact markAll_iff.2 (.inl (List.mem_map_of_mem ha))

theorem complete_iff_arrived {arrivals : List Arrival}
    (hchunks : ∀ a ∈ arrivals.filter (fun a => a.hash = hash), Transfer.IsChunk b a) :
    Complete b.length (markAll (fun _ => false)
        ((arrivals.filter fun a => a.hash = hash).map Arrival.offset)) ↔
      ∀ frame ∈ blobFrames hash b, ∃ a ∈ arrivals, a.frame = frame := by
  have hmarked (o : Nat) : markAll (fun _ => false)
      ((arrivals.filter fun a => a.hash = hash).map Arrival.offset) o = true ↔
      ∃ a ∈ arrivals, a.hash = hash ∧ a.offset = o := by
    rw [markAll_iff, or_iff_left Bool.false_ne_true, List.mem_map]
    simp only [List.mem_filter, decide_eq_true_eq, and_assoc]
  constructor
  · intro hall frame hframe
    obtain ⟨o, ho, rfl⟩ := mem_blobFrames.1 hframe
    obtain ⟨a, ha, hhash, rfl⟩ := (hmarked o).1 (hall o ho)
    have hchunk := hchunks a (List.mem_filter.2 ⟨ha, decide_eq_true hhash⟩)
    refine ⟨a, ha, ?_⟩
    rw [Arrival.frame, hhash, hchunk.totalLen, hchunk.bytes]
  · intro hall o ho
    obtain ⟨a, ha, hframe⟩ := hall _ (mem_blobFrames.2 ⟨o, ho, rfl⟩)
    rw [Arrival.frame, Frame.blobChunk.injEq] at hframe
    exact (hmarked o).2 ⟨a, ha, hframe.1, hframe.2.1⟩

end Served

/-- Chunks that are served of a blob, in any order and as often as they may come, store it exactly
when all of them have arrived, and nothing else is stored under its hash. -/
theorem served_chunks_store (hreached : Reached e) (hsize : b.length ≤ maxIncomingBlobBytes)
    (hwant : e.store.filesetWants (blobHash π.toPlatform b) = true)
    (hnone : e.store.hasBlob (blobHash π.toPlatform b) = false)
    (hpart : e.files.parts[blobHash π.toPlatform b]? = none) (arrivals : List Arrival)
    (hserved : ∀ a ∈ arrivals, a.hash = blobHash π.toPlatform b →
      a.frame ∈ blobFrames (blobHash π.toPlatform b) b) :
    ((runAll arrive e arrivals).store.hasBlob (blobHash π.toPlatform b) = true ↔
      ∀ frame ∈ blobFrames (blobHash π.toPlatform b) b, ∃ a ∈ arrivals, a.frame = frame) ∧
    ∀ bytes, (runAll arrive e arrivals).store.blob? (blobHash π.toPlatform b) = some bytes →
      bytes = b := by
  have hvalid := isValidHash_blobHash π.toPlatform b
  generalize hhash : blobHash π.toPlatform b = hash at *
  have hgood : hashesTo π hash b = true := by rw [hashesTo, decide_eq_true_eq, hhash]
  rw [← Bool.not_eq_true, hasBlob_iff hvalid, Bool.not_eq_true, Option.isSome_eq_false_iff,
    Option.isNone_iff_eq_none] at hnone
  have hentry : (e.transfer hash).entry = none := by
    obtain ⟨n, hcounted⟩ := hreached.sound hash hvalid
    exact hcounted.entry_none hpart
  have hchunks : ∀ a ∈ arrivals.filter (fun a => a.hash = hash), Transfer.IsChunk b a := by
    intro a ha
    rw [List.mem_filter, decide_eq_true_eq] at ha
    exact (frame_mem_blobFrames.1 (hserved a ha.1 ha.2)).2
  have hstart : Transfer.Progress b (fun _ => false) (e.transfer hash) :=
    .inr (.empty hnone hpart hentry)
  have hrun := hstart.run hchunks hsize hgood
  rw [← transfer_runAll hvalid hwant] at hrun
  refine ⟨?_, ?_⟩
  · rw [hasBlob_iff hvalid, hrun.stored_iff]
    exact complete_iff_arrived hchunks
  · intro bytes hb
    rw [Store.blob?, if_pos hvalid] at hb
    exact hrun.stored_eq hb

/-- Whatever chunks came before: once all chunks of a blob have been served twice, and nothing else
for its hash in between, the engine holds it exactly if it held it before or if no part file of
another length was in the way. -/
theorem served_twice_iff (hreached : Reached e)
    (hwant : e.store.filesetWants (blobHash π.toPlatform b) = true) (arrivals : List Arrival)
    (hserved : (arrivals.filter fun a => a.hash = blobHash π.toPlatform b).map Arrival.frame =
      blobFrames (blobHash π.toPlatform b) b ++ blobFrames (blobHash π.toPlatform b) b) :
    (runAll arrive e arrivals).store.hasBlob (blobHash π.toPlatform b) = true ↔
      e.store.hasBlob (blobHash π.toPlatform b) = true ∨ b.length ≤ maxIncomingBlobBytes ∧
          ∀ part, e.files.parts[blobHash π.toPlatform b]? = some part → part.length = b.length := by
  have hvalid := isValidHash_blobHash π.toPlatform b
  generalize hhash : blobHash π.toPlatform b = hash at *
  have hgood : hashesTo π hash b = true := by rw [hashesTo, decide_eq_true_eq, hhash]
  obtain ⟨first, second, hsplit, hfirst, hsecond⟩ := List.map_eq_append_iff.1 hserved
  rw [hasBlob_iff hvalid, hasBlob_iff hvalid, transfer_runAll hvalid hwant, hsplit]
  exact Transfer.streams_stored_iff (hreached.sound hash hvalid) hgood (isStream_of_frames hfirst)
    (isStream_of_frames hsecond)

end Engine

section Sample
open Engine

abbrev blobSync (b : Bytes) : SyncPlatform :=
  { openSync with
    toPlatform := { openPlatform with entries := fun _ _ => [("picture", "")] }
    fileEntry := fun _ => some ⟨.blob, .live, blobHash openPlatform b⟩ }

def wantingEngine (b : Bytes) : Engine (blobSync b) :=
  .new (plainIdentity 1) (.replicate 9) (.replicate 8) (Store.fresh (plainIdentity 1) []) noFiles

theorem wantingEngine_wants (b : Bytes) :
    (wantingEngine b).store.filesetWants (blobHash (blobSync b).toPlatform b) = true := by
  rw [Store.filesetWants, List.contains_iff_mem]
  exact List.mem_singleton.2 rfl

theorem wantingEngine_transfer (b : Bytes) (hash : String) :
    (wantingEngine b).transfer hash = ⟨none, none, none⟩ := by
  simp only [transfer, wantingEngine, Engine.new, Store.fresh, noFiles, Std.TreeMap.getElem?_emptyc]

theorem wantingEngine_reached (b : Bytes) (ops : List EngineOp) :
    Reached (runAll after (wantingEngine b) ops) := ⟨_, _, _, _, _, ops, rfl⟩

def arrivalOf (hash : String) (offset totalLen : Nat) (bytes : Bytes) : Arrival :=
  ⟨sampleEnv, 7, hash, offset, totalLen, bytes⟩

theorem exists_arrivals (hash : String) (b : Bytes) :
    ∃ arrivals : List Arrival, arrivals.map Arrival.frame = blobFrames hash b := by
  have hall : ∀ frame ∈ blobFrames hash b, frame ∈ Set.range Arrival.frame := by
    intro frame hframe
    obtain ⟨o, _, rfl⟩ := mem_blobFrames.1 hframe
    exact ⟨arrivalOf hash o b.length (chunkAt blobChunkSize b o), rfl⟩
  rw [← Set.mem_range, Set.range_list_map]
  exact hall

theorem wantingEngine_lacks (b : Bytes) :
    (wantingEngine b).store.hasBlob (blobHash (blobSync b).toPlatform b) = false ∧
      (wantingEngine b).files.parts[blobHash (blobSync b).toPlatform b]? = none := by
  constructor
  · rw [← Bool.not_eq_true, hasBlob_iff (isValidHash_blobHash (blobSync b).toPlatform b),
      wantingEngine_transfer]
    exact Bool.false_ne_true
  · rw [← transfer_part, wantingEngine_transfer]

def chunkOf (b : Bytes) (offset : Nat) : Arrival :=
  arrivalOf (blobHash (blobSync b).toPlatform b) offset b.length (chunkAt blobChunkSize b offset)

/-- A blob of two chunks, of which the last one arrives first. -/
theorem served_chunks_store_reversed : ∃ b : Bytes, blobChunkSize < b.length ∧
      (runAll arrive (wantingEngine b) [chunkOf b blobChunkSize, chunkOf b 0]).store.hasBlob
        (blobHash (blobSync b).toPlatform b) = true := by
  generalize hb : List.replicate (blobChunkSize + 1) (0 : UInt8) = b
  have hlen : b.length = blobChunkSize + 1 := by rw [← hb, List.length_replicate]
  have hlimit : b.length ≤ maxIncomingBlobBytes := by
    rw [hlen]
    decide
  have hpos := blobChunkSize_pos
  obtain ⟨hnone, hpart⟩ := wantingEngine_lacks b
  refine ⟨b, by omega, (served_chunks_store (wantingEngine_reached b []) hlimit
    (wantingEngine_wants b) hnone hpart _ ?_).1.2 ?_⟩
  · intro a ha _
    rw [List.mem_cons, List.mem_singleton] at ha
    rcases ha with rfl | rfl
    · have hfits : blobChunkSize < b.length := by omega
      exact mem_blobFrames.2 ⟨_, offsetIsAdmissible_iff.2 ⟨dvd_refl _, .inl hfits⟩, rfl⟩
    · exact mem_blobFrames.2 ⟨0, offsetIsAdmissible_iff.2 ⟨dvd_zero _, .inl (by omega)⟩, rfl⟩
  · intro frame hframe
    obtain ⟨o, ho, rfl⟩ := mem_blobFrames.1 hframe
    obtain ⟨hdvd, hlt⟩ := offsetIsAdmissible_iff.1 ho
    rcases Nat.eq_zero_or_pos o with rfl | hpos'
    · exact ⟨chunkOf b 0, List.mem_cons_of_mem _ (List.mem_singleton.2 rfl), rfl⟩
    · have hle := Nat.le_of_dvd hpos' hdvd
      obtain rfl : o = blobChunkSize := by omega
      exact ⟨chunkOf b blobChunkSize, List.mem_cons_self, rfl⟩

def smallBlob : Bytes := [1, 2, 3]

def smallChunk (bytes : Bytes) : Arrival :=
  arrivalOf (blobHash (blobSync smallBlob).toPlatform smallBlob) 0 3 bytes

theorem smallBlob_frames :
    blobFrames (blobHash (blobSync smallBlob).toPlatform smallBlob) smallBlob =
    [(smallChunk smallBlob).frame] := by
  decide +kernel

/-- A blob that is longer than the limit is refused, chunk by chunk. -/
theorem served_chunks_refused : ∃ (b : Bytes) (e : Engine (blobSync b)) (arrivals : List Arrival),
      Reached e ∧ e.store.filesetWants (blobHash (blobSync b).toPlatform b) = true ∧
      e.store.hasBlob (blobHash (blobSync b).toPlatform b) = false ∧
      e.files.parts[blobHash (blobSync b).toPlatform b]? = none ∧
      arrivals.map Arrival.frame = blobFrames (blobHash (blobSync b).toPlatform b) b ∧
      (runAll arrive e arrivals).store.hasBlob (blobHash (blobSync b).toPlatform b) = false := by
  generalize hb : List.replicate (maxIncomingBlobBytes + 1) (0 : UInt8) = b
  have hlen : b.length = maxIncomingBlobBytes + 1 := by rw [← hb, List.length_replicate]
  have hvalid := isValidHash_blobHash (blobSync b).toPlatform b
  obtain ⟨arrivals, harrivals⟩ := exists_arrivals (blobHash (blobSync b).toPlatform b) b
  obtain ⟨hnone, hpart⟩ := wantingEngine_lacks b
  refine ⟨b, wantingEngine b, arrivals, wantingEngine_reached b [], wantingEngine_wants b, hnone,
    hpart, harrivals, ?_⟩
  have hchunks := (isStream_of_frames harrivals).1
  rw [← Bool.not_eq_true, hasBlob_iff hvalid, transfer_runAll hvalid (wantingEngine_wants b),
    Transfer.runAll_shut_out (b := b), wantingEngine_transfer]
  · exact Bool.false_ne_true
  · intro a ha
    exact hchunks a (List.mem_filter.1 ha).1
  · rw [hlen]
    intro hfits
    omega

def hostileChunk (hash : String) : Arrival :=
  arrivalOf hash 0 (2 * blobChunkSize) (List.replicate blobChunkSize 0)

theorem hostileChunk_takes {t : Transfer} (hash : String) (hstored : t.stored = none)
    (hpart : t.part = none) : t.Takes (hostileChunk hash) where
  stored := hstored
  size := by
    change 2 * blobChunkSize ≤ maxIncomingBlobBytes
    decide
  admissible := by
    rw [chunkIsAdmissible_iff, hostileChunk, arrivalOf, List.length_replicate]
    change chunkOffsetIsAdmissible 0 (2 * blobChunkSize) = true ∧
      blobChunkSize = expectedChunkLen 0 (2 * blobChunkSize)
    decide
  length := by
    rw [hpart]
    exact List.length_replicate

theorem hostileChunk_pins (good : Bytes → Bool) (t : Transfer) (hash : String)
    (hstored : t.stored = none) (hpart : t.part = none) (hentry : t.entry = none) :
    (t.receive good (hostileChunk hash)).stored = none ∧
      ∃ part, (t.receive good (hostileChunk hash)).part = some part ∧
        part.length = 2 * blobChunkSize := by
  have hcounted : Transfer.Counted (hostileChunk hash).totalLen t := .empty hpart hentry
  have htakes := hostileChunk_takes hash hstored hpart
  have hr : Transfer.Received good t (hostileChunk hash) (t.receive good (hostileChunk hash)) :=
    Transfer.receive_outcome hcounted htakes
  have hmore : ¬ Complete (2 * blobChunkSize) (mark t.marks 0) := by
    intro hall
    have hsecond := mark_iff.1 (hall blobChunkSize (by decide))
    rw [Transfer.marks_none hentry] at hsecond
    cases hsecond with
    | inl h => cases h
    | inr h => cases h
  generalize t.receive good (hostileChunk hash) = t' at hr
  cases hr with
  | counted entry htally hlt => exact ⟨rfl, _, rfl, hcounted.length_written htakes.admissible⟩
  | finished hall _ => exact absurd hall hmore
  | discarded hall _ => exact absurd hall hmore

theorem wantingEngine_arrive (b : Bytes) (a : Arrival) : Reached ((wantingEngine b).arrive a) :=
  wantingEngine_reached b [.handle sampleEnv 7 a.frame]

/-- One chunk with another total length, and no chunk of the blob is taken any more. -/
theorem hostileChunk_blocks : ∃ (b : Bytes) (e : Engine (blobSync b)) (arrivals : List Arrival),
      Reached e ∧ e.store.filesetWants (blobHash (blobSync b).toPlatform b) = true ∧
      arrivals.map Arrival.frame = blobFrames (blobHash (blobSync b).toPlatform b) b ++
        blobFrames (blobHash (blobSync b).toPlatform b) b ∧
      (runAll arrive e arrivals).store.hasBlob (blobHash (blobSync b).toPlatform b) = false := by
  generalize hb : ([1, 2, 3] : Bytes) = b
  have hvalid := isValidHash_blobHash (blobSync b).toPlatform b
  have hwant := wantingEngine_wants b
  generalize hhash : blobHash (blobSync b).toPlatform b = hash at *
  obtain ⟨arrivals, harrivals⟩ := exists_arrivals hash b
  have hpins : ((wantingEngine b).arrive (hostileChunk hash)).transfer hash =
      ((wantingEngine b).transfer hash).receive (hashesTo (blobSync b) hash) (hostileChunk hash) :=
    transfer_arrive hvalid hwant
  have hwant' := (arrive_filesetWants (hostileChunk hash) hash).trans hwant
  rw [wantingEngine_transfer] at hpins
  obtain ⟨hstored, part, hpart, hlen⟩ :=
    hostileChunk_pins (hashesTo (blobSync b) hash) ⟨none, none, none⟩ hash rfl rfl rfl
  refine ⟨b, (wantingEngine b).arrive (hostileChunk hash), arrivals ++ arrivals,
    wantingEngine_arrive b (hostileChunk hash), ?_, ?_, ?_⟩
  all_goals rw [hhash]
  · exact hwant'
  · rw [List.map_append, harrivals]
  · have hchunks := (isStream_of_frames harrivals).1
    rw [← Bool.not_eq_true, hasBlob_iff hvalid, transfer_runAll hvalid hwant',
      Transfer.runAll_shut_out (b := b), hpins, hstored]
    · exact Bool.false_ne_true
    · intro a ha
      have ha := (List.mem_filter.1 ha).1
      exact (List.mem_append.1 ha).elim (hchunks a) (hchunks a)
    · rintro ⟨_, hfits⟩
      rw [hpins] at hfits
      have hthree := hlen.symm.trans (hfits part hpart)
      rw [← hb] at hthree
      cases hthree

theorem served_twice_after_discard :
    (runAll arrive ((wantingEngine smallBlob).arrive (smallChunk [9, 9, 9]))
      [smallChunk smallBlob, smallChunk smallBlob]).store.hasBlob
        (blobHash (blobSync smallBlob).toPlatform smallBlob) = true := by
  have hpart : ((wantingEngine smallBlob).arrive (smallChunk [9, 9, 9])).files.parts[
      blobHash (blobSync smallBlob).toPlatform smallBlob]? = none := by
    decide +kernel
  apply (served_twice_iff (wantingEngine_arrive smallBlob (smallChunk [9, 9, 9])) ?_ _ ?_).2
  · right
    refine ⟨by decide, ?_⟩
    intro part hsome
    cases hpart.symm.trans hsome
  · exact (arrive_filesetWants (smallChunk [9, 9, 9]) _).trans (wantingEngine_wants smallBlob)
  · rw [smallBlob_frames]
    decide +kernel

end Sample

end Roam
