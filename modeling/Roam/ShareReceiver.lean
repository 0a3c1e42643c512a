import Roam.ShareTransfer
import Roam.Library.TreeFold

namespace Roam.Share
set_option autoImplicit true
open Library

/-- The files of an item, each with the names that lead to it and the length it is said to have. -/
def Payload.contents : Payload → List (List SafeName × UInt64)
  | .file info => [(info.path.parts, info.len)]
  | .folder name files => files.map fun info => (name :: info.path.parts, info.len)
  | _ => []

def Payload.crashes : Payload → Bool
  | .folder name files => !files.isEmpty && driveLike name.text
  | _ => false

def StreamRef.content (s : StreamRef) : List SafeName × UInt64 := (s.path.parts, s.len)

namespace ShareOffer

def contents (offer : ShareOffer) : List (List SafeName × UInt64) :=
  offer.items.flatMap Payload.contents

theorem new_under (name : SafeName) (path : RelPath) :
    RelPath.new (name.text ++ "/" ++ path.display) =
      RelPath.new (joinComponents ((name :: path.parts).map SafeName.text)) := by
  congr 1
  apply String.toList_inj.1
  rw [List.map_cons, joinComponents_cons (List.map_eq_nil_iff.not.2 path.ne_nil),
    String.toList_append, String.toList_append, List.append_assoc]
  rfl

theorem expect_under (name : SafeName) (path : RelPath) (h : driveLike name.text = false) :
    ∃ joined, expectOk (RelPath.new (name.text ++ "/" ++ path.display)) = .ok joined ∧
      joined.parts = name :: path.parts := by
  have hdrive : driveLike (joinComponents ((name :: path.parts).map SafeName.text)) = false := by
    rw [List.map_cons, driveLike_cons name.ne_empty, h]
  rw [new_under, RelPath.new_joined (List.cons_ne_nil _ _) hdrive]
  exact ⟨_, rfl, rfl⟩

theorem expect_under_panics (name : SafeName) (path : RelPath) (h : driveLike name.text = true) :
    expectOk (RelPath.new (name.text ++ "/" ++ path.display)) = .error .panicked := by
  rw [new_under, RelPath.new_driveLike]
  · rfl
  · rw [List.map_cons, driveLike_cons name.ne_empty, h]

theorem itemStreams_ok (item : Nat) {payload : Payload} (h : payload.crashes = false) :
    ∃ streams, itemStreams item payload = .ok streams ∧
      streams.map StreamRef.content = payload.contents := by
  cases payload with
  | file info => exact ⟨_, rfl, rfl⟩
  | folder name files =>
    apply mapM_exists
    intro info hinfo
    have hdrive : driveLike name.text = false := by
      rw [Payload.crashes, Bool.and_eq_false_iff] at h
      rcases h with h | h
      · rw [Bool.not_eq_false', List.isEmpty_iff] at h
        rw [h] at hinfo
        cases hinfo
      · exact h
    obtain ⟨path, hpath, hparts⟩ := expect_under name info.path hdrive
    refine ⟨⟨item, path, info.len⟩, ?_, ?_⟩
    · rw [hpath]
      rfl
    · rw [StreamRef.content, hparts]
  | text _ => exact ⟨[], rfl, rfl⟩
  | clipboard _ => exact ⟨[], rfl, rfl⟩
  | contact _ => exact ⟨[], rfl, rfl⟩

theorem itemStreams_panics (item : Nat) {payload : Payload} (h : payload.crashes = true) :
    itemStreams item payload = .error .panicked := by
  cases payload with
  | folder name files =>
    rw [Payload.crashes, Bool.and_eq_true, Bool.not_eq_true', List.isEmpty_eq_false_iff] at h
    obtain ⟨info, files, rfl⟩ := List.exists_cons_of_ne_nil h.1
    rw [itemStreams, List.mapM_cons, expect_under_panics name info.path h.2]
    rfl
  | _ => cases h

theorem streams_ok {offer : ShareOffer} (h : ∀ payload ∈ offer.items, payload.crashes = false) :
    ∃ streams, offer.streams = .ok streams ∧ streams.map StreamRef.content = offer.contents := by
  have hitem : ∀ entry ∈ offer.items.zipIdx, ∃ streams,
      itemStreams entry.2 entry.1 = .ok streams ∧
        streams.map StreamRef.content = entry.1.contents :=
    fun entry hentry => itemStreams_ok entry.2 (h entry.1 (List.fst_mem_of_mem_zipIdx hentry))
  obtain ⟨perItem, hper, hcontents⟩ := mapM_exists hitem
  refine ⟨perItem.flatten, ?_, ?_⟩
  · rw [streams]
    exact congrArg (· >>= _) hper
  · have hitems : offer.items.zipIdx.map (fun entry => entry.1.contents) =
        offer.items.map Payload.contents := by
      nth_rewrite 2 [← List.zipIdx_map_fst 0 offer.items]
      rw [List.map_map]
      rfl
    rw [List.map_flatten, hcontents, contents, List.flatMap_def, hitems]

theorem streams_panics {offer : ShareOffer} (hmem : payload ∈ offer.items)
    (h : payload.crashes = true) : offer.streams = .error .panicked := by
  have hall : offer.items.zipIdx.mapM (fun entry => itemStreams entry.2 entry.1) =
      .error .panicked := by
    rw [← List.zipIdx_map_fst 0 offer.items] at hmem
    obtain ⟨entry, hentry, rfl⟩ := List.mem_map.1 hmem
    apply mapM_error _ hentry
    · exact itemStreams_panics _ h
    · intro entry _
      cases hcrash : entry.1.crashes with
      | true => exact .inl (itemStreams_panics _ hcrash)
      | false =>
        obtain ⟨streams, hstreams, _⟩ := itemStreams_ok entry.2 hcrash
        exact .inr ⟨streams, hstreams⟩
  rw [streams]
  exact congrArg (· >>= _) hall

end ShareOffer

def ShareOffer.claimed (offer : ShareOffer) : Nat :=
  (offer.contents.map fun file => file.2.toNat).sum

theorem toNat_saturatingAdd (a b : UInt64) :
    (saturatingAdd a b).toNat = min (a.toNat + b.toNat) (2 ^ 64 - 1) := by
  rw [saturatingAdd]
  split
  · rename_i h
    rw [UInt64.toNat_add, Nat.mod_eq_of_lt h]
    omega
  · rename_i h
    rw [UInt64.toNat_ofNat']
    omega

theorem toNat_foldl_saturatingAdd (streams : List StreamRef) (acc : UInt64) :
    (streams.foldl (fun acc s => saturatingAdd acc s.len) acc).toNat =
      min (acc.toNat + ((streams.map StreamRef.content).map fun file => file.2.toNat).sum)
        (2 ^ 64 - 1) := by
  induction streams generalizing acc with
  | nil =>
    have := acc.toNat_lt
    simp only [List.foldl_nil, List.map_nil, List.sum_nil]
    omega
  | cons s streams ih =>
    rw [List.foldl_cons, ih, toNat_saturatingAdd]
    simp only [List.map_cons, List.sum_cons, StreamRef.content]
    omega

theorem answer_eq {offer : ShareOffer} (hstreams : offer.streams = .ok streams)
    (hcontents : streams.map StreamRef.content = offer.contents) (decide : ShareOffer → Bool) :
    (defaultMaxAcceptBytes.toNat < offer.claimed ∧
        ∃ claimed, answer decide offer = .ok (.overLimit claimed)) ∨
      (offer.claimed ≤ defaultMaxAcceptBytes.toNat ∧
        answer decide offer = .ok (if decide offer then .accepted streams else .declined)) := by
  have htotal : offer.totalLen =
      .ok (streams.foldl (fun acc s => saturatingAdd acc s.len) 0) := by
    rw [ShareOffer.totalLen, hstreams]
    rfl
  have hnat := toNat_foldl_saturatingAdd streams 0
  rw [hcontents, ← ShareOffer.claimed] at hnat
  have hover : streams.foldl (fun acc s => saturatingAdd acc s.len) 0 > defaultMaxAcceptBytes ↔
      defaultMaxAcceptBytes.toNat < offer.claimed := by
    rw [gt_iff_lt, UInt64.lt_iff_toNat_lt, hnat]
    simp only [defaultMaxAcceptBytes, UInt64.toNat_zero]
    simp only [show (8 * 1024 * 1024 * 1024 : UInt64).toNat = 8589934592 from rfl]
    omega
  rw [answer, htotal]
  by_cases hlimit : defaultMaxAcceptBytes.toNat < offer.claimed
  · exact .inl ⟨hlimit, _, if_pos (hover.2 hlimit)⟩
  · refine .inr ⟨Nat.le_of_not_lt hlimit, ?_⟩
    refine (if_neg (mt hover.1 hlimit)).trans ?_
    rw [hstreams]
    cases decide offer with
    | true => rfl
    | false => rfl

structure Chunk where
  stream : UInt32
  offset : UInt64
  bytes : Bytes

def Chunk.at? (c : Chunk) (k : Nat) : Option UInt8 :=
  if c.offset.toNat ≤ k then c.bytes[k - c.offset.toNat]? else none

def leadingChunks : List ShareFrame → List Chunk
  | .chunk stream offset bytes :: frames => ⟨stream, offset, bytes⟩ :: leadingChunks frames
  | _ => []

def Buffers.Fits (host : Host) (streams : List StreamRef) (buffers : Buffers) : Prop :=
  ∀ (i : UInt32) (v : Bytes), buffers[i]? = some v →
    ∃ info, streams[i.toNat]? = some info ∧ v.length = host.cut info.len

structure Buffers.Holds (host : Host) (streams : List StreamRef) (chunks : List Chunk)
    (buffers : Buffers) : Prop where
  fits : buffers.Fits host streams
  isSome_iff : ∀ i, buffers[i]?.isSome ↔ ∃ c ∈ chunks, c.stream = i
  bytes : ∀ i v, buffers[i]? = some v → ∀ k < v.length,
    (∃ c ∈ chunks, c.stream = i ∧ c.at? k = v[k]?) ∨
      (∀ c ∈ chunks, c.stream = i → c.at? k = none) ∧ v[k]? = some 0

theorem Host.cut_le (host : Host) (len : UInt64) : host.cut len ≤ len.toNat :=
  Nat.mod_le _ _

/-- The buffer of some stream is not as long as the stream was said to be, or cannot be had. -/
def Host.Overrun (host : Host) (streams : List StreamRef) : Prop :=
  ∃ (i : UInt32) (info : StreamRef), streams[i.toNat]? = some info ∧
    ¬ host.Allocates info.len.toNat

theorem Host.Allocates.cut {host : Host} {len : UInt64} (h : host.Allocates len.toNat) :
    host.cut len = len.toNat := by
  apply Nat.mod_eq_of_lt
  exact h.trans_le (Nat.pow_le_pow_right Nat.two_pos (Nat.sub_le _ 1))

section Chunks
variable {host : Host} {streams : List StreamRef} {chunks : List Chunk} {buffers buffers' : Buffers}

theorem getElem?_overwrite_chunk (c : Chunk) {buffer : Bytes}
    (h : c.offset.toNat + c.bytes.length ≤ buffer.length) (k : Nat) :
    (overwrite buffer c.offset.toNat c.bytes)[k]? = (c.at? k).or buffer[k]? := by
  rw [getElem?_overwrite h, Chunk.at?]
  by_cases hlow : c.offset.toNat ≤ k
  · by_cases hhigh : k < c.offset.toNat + c.bytes.length
    · rw [if_pos ⟨hlow, hhigh⟩, if_pos hlow, List.getElem?_eq_getElem (by omega)]
      rfl
    · have hnone : c.bytes[k - c.offset.toNat]? = none := List.getElem?_eq_none (by omega)
      rw [if_neg (by omega), if_pos hlow, hnone]
      rfl
  · rw [if_neg (by omega), if_neg hlow]
    rfl

theorem Buffers.Fits.length_start (hfits : buffers.Fits host streams) {stream : UInt32}
    (hinfo : streams[stream.toNat]? = some info) :
    (buffers[stream]?.getD (List.replicate (host.cut info.len) 0)).length = host.cut info.len := by
  cases hbuffer : buffers[stream]? with
  | none => exact List.length_replicate
  | some v =>
    obtain ⟨info', hinfo', hv⟩ := hfits stream v hbuffer
    cases hinfo.symm.trans hinfo'
    exact hv

theorem takeChunk_cases (hfits : buffers.Fits host streams) (c : Chunk) :
    (∃ halt, takeChunk host streams buffers c.stream c.offset c.bytes = .error halt ∧
        (halt = .panicked → host.Overrun streams)) ∨ ∃ info, streams[c.stream.toNat]? = some info ∧
        c.offset.toNat + c.bytes.length ≤
          (buffers[c.stream]?.getD (List.replicate (host.cut info.len) 0)).length ∧
        takeChunk host streams buffers c.stream c.offset c.bytes =
          .ok (buffers.insert c.stream (overwrite
            (buffers[c.stream]?.getD (List.replicate (host.cut info.len) 0)) c.offset.toNat
              c.bytes)) := by
  rw [takeChunk]
  cases hinfo : streams[c.stream.toNat]? with
  | none => exact .inl ⟨_, rfl, nofun⟩
  | some info =>
    have hover (h : ¬ host.Allocates info.len.toNat) : host.Overrun streams :=
      ⟨c.stream, info, hinfo, h⟩
    dsimp only
    split
    · exact .inl ⟨_, rfl, nofun⟩
    split
    · exact .inl ⟨_, rfl, nofun⟩
    split
    · exact .inl ⟨_, rfl, nofun⟩
    split
    · rename_i halloc
      refine .inl ⟨_, rfl, fun _ => hover fun h => halloc.2 ?_⟩
      rw [h.cut]
      exact h
    split
    · exact .inr ⟨info, rfl, ‹_›, rfl⟩
    · rename_i hlong _ hslice
      refine .inl ⟨_, rfl, fun _ => hover fun h => hslice ?_⟩
      rw [hfits.length_start hinfo, h.cut]
      exact Nat.le_of_not_lt hlong

theorem Buffers.holds_nil (host : Host) (streams : List StreamRef) :
    Buffers.Holds host streams [] ∅ where
  fits i v h := by
    rw [Std.TreeMap.getElem?_emptyc] at h
    cases h
  isSome_iff i := by
    rw [Std.TreeMap.getElem?_emptyc]
    exact ⟨nofun, fun ⟨_, h, _⟩ => nomatch h⟩
  bytes i v h := by
    rw [Std.TreeMap.getElem?_emptyc] at h
    cases h

theorem Buffers.Fits.insert (hfits : buffers.Fits host streams)
    (hinfo : streams[stream.toNat]? = some info) (hv : v.length = host.cut info.len) :
    Buffers.Fits host streams (buffers.insert stream v) := by
  intro i v' h
  rw [get_insert] at h
  split at h
  · rename_i heq
    subst heq
    cases h
    exact ⟨info, hinfo, hv⟩
  · exact hfits i v' h

theorem Buffers.Holds.start (hs : buffers.Holds host streams chunks) (hstream : stream = i)
    (hk : k < (buffers[stream]?.getD (List.replicate n 0)).length) :
    (∃ c ∈ chunks, c.stream = i ∧ c.at? k = (buffers[stream]?.getD (List.replicate n 0))[k]?) ∨
      (∀ c ∈ chunks, c.stream = i → c.at? k = none) ∧
        (buffers[stream]?.getD (List.replicate n 0))[k]? = some 0 := by
  subst hstream
  cases hbuffer : buffers[stream]? with
  | some v =>
    rw [hbuffer] at hk
    exact hs.bytes stream v hbuffer k hk
  | none =>
    rw [hbuffer, Option.getD_none, List.length_replicate] at hk
    refine .inr ⟨fun c hc hstream => ?_, List.getElem?_replicate_of_lt hk⟩
    have hsome := (hs.isSome_iff stream).2 ⟨c, hc, hstream⟩
    rw [hbuffer] at hsome
    cases hsome

theorem Buffers.Holds.takeChunk (hs : buffers.Holds host streams chunks) (c : Chunk)
    (h : Share.takeChunk host streams buffers c.stream c.offset c.bytes = .ok buffers') :
    buffers'.Holds host streams (chunks ++ [c]) := by
  rcases takeChunk_cases hs.fits c with ⟨_, herror, _⟩ | ⟨info, hinfo, hwhole, hok⟩
  · cases herror.symm.trans h
  · cases hok.symm.trans h
    have hlen := hs.fits.length_start hinfo
    refine ⟨hs.fits.insert hinfo ((length_overwrite hwhole).trans hlen), ?_, ?_⟩
    · intro i
      simp only [get_insert, List.mem_append, List.mem_singleton, or_and_right, exists_or,
        exists_eq_left, ← hs.isSome_iff]
      by_cases heq : c.stream = i
      · simp only [heq, ↓reduceIte, Option.isSome_some, or_true]
      · simp only [heq, ↓reduceIte, or_false]
    · intro i v hv k hk
      rw [get_insert] at hv
      simp only [List.mem_append, List.mem_singleton, or_and_right, exists_or,
        exists_eq_left, or_imp, forall_and, forall_eq]
      split at hv
      · rename_i heq
        cases hv
        rw [length_overwrite hwhole] at hk
        rw [getElem?_overwrite_chunk c hwhole]
        cases hat : c.at? k with
        | some b => exact .inl (.inr ⟨heq, rfl⟩)
        | none =>
          rw [Option.none_or]
          rcases hs.start heq hk with hsome | ⟨hnone, hzero⟩
          · exact .inl (.inl hsome)
          · exact .inr ⟨⟨hnone, fun _ => rfl⟩, hzero⟩
      · rename_i hne
        rcases hs.bytes i v hv k hk with hsome | ⟨hnone, hzero⟩
        · exact .inl (.inl hsome)
        · exact .inr ⟨⟨hnone, fun heq => absurd heq hne⟩, hzero⟩

theorem assemble_chunk (h : takeChunk host streams buffers stream offset bytes = .ok buffers')
    (frames : List ShareFrame) :
    assemble host streams buffers (.chunk stream offset bytes :: frames) =
      assemble host streams buffers' frames := by
  rw [assemble, h]
  rfl

theorem assemble_error (h : takeChunk host streams buffers stream offset bytes = .error halt)
    (frames : List ShareFrame) :
    assemble host streams buffers (.chunk stream offset bytes :: frames) = .error halt := by
  rw [assemble, h]
  rfl

theorem assemble_cases (hs : buffers.Holds host streams chunks) (frames : List ShareFrame) :
    (∃ halt, assemble host streams buffers frames = .error halt ∧
        (halt = .panicked → host.Overrun streams)) ∨
      ∃ buffers', assemble host streams buffers frames = .ok buffers' ∧
        buffers'.Holds host streams (chunks ++ leadingChunks frames) := by
  induction frames generalizing buffers chunks with
  | nil => exact .inl ⟨_, rfl, nofun⟩
  | cons frame frames ih =>
    cases frame with
    | chunk stream offset bytes =>
      rcases takeChunk_cases hs.fits ⟨stream, offset, bytes⟩ with
        ⟨halt, herror, hover⟩ | ⟨_, _, _, hok⟩
      · exact .inl ⟨halt, assemble_error herror frames, hover⟩
      · have hnext := hs.takeChunk ⟨stream, offset, bytes⟩ hok
        rw [assemble_chunk hok]
        rcases ih hnext with herror | ⟨buffers', hend, hholds⟩
        · exact .inl herror
        · rw [List.append_assoc] at hholds
          exact .inr ⟨buffers', hend, hholds⟩
    | done => exact .inr ⟨buffers, rfl, (List.append_nil chunks).symm ▸ hs⟩
    | offer _ => exact .inl ⟨_, rfl, nofun⟩
    | accept _ => exact .inl ⟨_, rfl, nofun⟩
    | decline => exact .inl ⟨_, rfl, nofun⟩

theorem Buffers.Fits.of_mem_toList {buffers : Buffers} (h : buffers.Fits host streams)
    (hmem : (stream, bytes) ∈ buffers.toList) :
    ∃ info, streams[stream.toNat]? = some info ∧ bytes.length = host.cut info.len :=
  h stream bytes (Std.TreeMap.mem_toList_iff_getElem?_eq_some.1 hmem)

end Chunks

section Write
variable {streams : List StreamRef}

theorem mem_writeStreams {entries : List (UInt32 × Bytes)}
    (h : w ∈ (writeStreams host io dest streams entries).1) :
    ∃ bytes info, (w.stream, bytes) ∈ entries ∧ streams[w.stream.toNat]? = some info ∧
      w.path = info.path.resolveUnder host dest ∧ w.bytes <+: bytes := by
  induction entries with
  | nil => cases h
  | cons entry entries ih =>
    obtain ⟨stream, bytes⟩ := entry
    rw [writeStreams] at h
    cases hinfo : streams[stream.toNat]? with
    | none =>
      rw [hinfo] at h
      cases h
    | some info =>
      rw [hinfo] at h
      dsimp only at h
      cases hio : io (info.path.resolveUnder host dest) with
      | refused =>
        rw [hio] at h
        cases h
      | torn n =>
        rw [hio] at h
        obtain rfl := List.mem_singleton.1 h
        exact ⟨bytes, info, List.mem_cons_self, hinfo, rfl, List.take_prefix n bytes⟩
      | done =>
        rw [hio] at h
        rcases List.mem_cons.1 h with rfl | h
        · exact ⟨bytes, info, List.mem_cons_self, hinfo, rfl, List.prefix_rfl⟩
        · obtain ⟨bytes', info', hmem, hrest⟩ := ih h
          exact ⟨bytes', info', List.mem_cons_of_mem _ hmem, hrest⟩

theorem writeStreams_not_panicked {entries : List (UInt32 × Bytes)}
    (h : ∀ entry ∈ entries, ∃ info, streams[entry.1.toNat]? = some info) :
    (writeStreams host io dest streams entries).2 ≠ .error .panicked := by
  induction entries with
  | nil => exact nofun
  | cons entry entries ih =>
    rw [List.forall_mem_cons] at h
    obtain ⟨⟨info, hinfo⟩, hrest⟩ := h
    rw [writeStreams, hinfo]
    dsimp only
    cases hio : io (info.path.resolveUnder host dest) with
    | refused => exact nofun
    | torn n => exact nofun
    | done =>
      intro hpanic
      apply ih hrest
      cases hpaths : (writeStreams host io dest streams entries).2 with
      | ok paths =>
        rw [hpaths] at hpanic
        cases hpanic
      | error halt =>
        rw [hpaths] at hpanic
        exact hpanic

theorem writeStreams_ok {entries : List (UInt32 × Bytes)}
    (h : (writeStreams host io dest streams entries).2 = .ok paths) :
    (writeStreams host io dest streams entries).1.map (fun w => (w.stream, w.bytes)) = entries := by
  induction entries generalizing paths with
  | nil => rfl
  | cons entry entries ih =>
    obtain ⟨stream, bytes⟩ := entry
    rw [writeStreams] at h ⊢
    cases hinfo : streams[stream.toNat]? with
    | none =>
      rw [hinfo] at h
      cases h
    | some info =>
      rw [hinfo] at h
      dsimp only at h ⊢
      cases hio : io (info.path.resolveUnder host dest) with
      | refused =>
        rw [hio] at h
        cases h
      | torn n =>
        rw [hio] at h
        cases h
      | done =>
        rw [hio] at h
        dsimp only at h ⊢
        cases hpaths : (writeStreams host io dest streams entries).2 with
        | error halt =>
          rw [hpaths] at h
          cases h
        | ok rest => rw [List.map_cons, ih hpaths]

theorem writeStreams_done {entries : List (UInt32 × Bytes)}
    (h : ∀ entry ∈ entries, ∃ info, streams[entry.1.toNat]? = some info) :
    ∃ paths, (writeStreams host (fun _ => .done) dest streams entries).2 = .ok paths := by
  induction entries with
  | nil => exact ⟨[], rfl⟩
  | cons entry entries ih =>
    rw [List.forall_mem_cons] at h
    obtain ⟨⟨info, hinfo⟩, hrest⟩ := h
    obtain ⟨paths, hpaths⟩ := ih hrest
    rw [writeStreams, hinfo]
    dsimp only
    rw [hpaths]
    exact ⟨_, rfl⟩

theorem written_of_ok {entries : List (UInt32 × Bytes)}
    (h : (writeStreams host io dest streams entries).2 = .ok paths)
    (hmem : (stream, bytes) ∈ entries) (hinfo : streams[stream.toNat]? = some info) :
    ⟨stream, info.path.resolveUnder host dest, bytes⟩ ∈
      (writeStreams host io dest streams entries).1 := by
  rw [← writeStreams_ok h] at hmem
  obtain ⟨w, hw, heq⟩ := List.mem_map.1 hmem
  cases heq
  obtain ⟨_, info', _, hinfo', hpath, _⟩ := mem_writeStreams hw
  cases hinfo.symm.trans hinfo'
  rw [← hpath]
  exact hw

end Write

section Receive
variable {decide : ShareOffer → Bool}

theorem receive_of_assemble (hanswer : answer decide offer = .ok (.accepted streams))
    (h : assemble host streams ∅ frames = .ok buffers) :
    receiveShareWith host io dest decide offer frames =
      ⟨(writeStreams host io dest streams buffers.toList).1,
        (writeStreams host io dest streams buffers.toList).2.map fun files =>
          ⟨files, inlineTexts offer.items⟩⟩ := by
  rw [receiveShareWith.eq_def, hanswer]
  dsimp only
  rw [h]

end Receive

end Roam.Share
