import Roam.ShareReceiver

namespace Roam.Share
set_option autoImplicit true
open Library

section Resolve
variable {host : Host} {cs : List String}

theorem foldl_push (h : ∀ c ∈ cs, host.os.replaces c = false) (base : List String) :
    cs.foldl host.push base = base ++ cs := by
  induction cs generalizing base with
  | nil => exact (List.append_nil base).symm
  | cons c cs ih =>
    rw [List.forall_mem_cons] at h
    have hpush : host.push base c = base ++ [c] := by
      rw [Host.push, h.1]
      rfl
    rw [List.foldl_cons, ih h.2, hpush, List.append_assoc]
    rfl

def Host.Headed (host : Host) (path : List String) : Prop :=
  ∃ first rest, path = first :: rest ∧ host.os.replaces first = true

theorem Host.Headed.push (h : host.Headed base) (c : String) : host.Headed (host.push base c) := by
  obtain ⟨first, rest, rfl, hfirst⟩ := h
  rw [Host.push]
  split
  · exact ⟨c, [], rfl, ‹_›⟩
  · exact ⟨first, rest ++ [c], rfl, hfirst⟩

theorem Host.Headed.foldl (h : host.Headed base) : host.Headed (cs.foldl host.push base) := by
  induction cs generalizing base with
  | nil => exact h
  | cons c cs ih => exact ih (h.push c)

theorem headed_foldl_push (hc : c ∈ cs) (h : host.os.replaces c = true) (base : List String) :
    host.Headed (cs.foldl host.push base) := by
  induction cs generalizing base with
  | nil => cases hc
  | cons c' cs ih =>
    rw [List.foldl_cons]
    rcases List.mem_cons.1 hc with rfl | hc
    · apply Host.Headed.foldl
      rw [Host.push, if_pos h]
      exact ⟨c, [], rfl, h⟩
    · exact ih hc _

end Resolve

def heldAfter (host : Host) (streams : List StreamRef) (chunks : List Chunk) :
    Except Halt Buffers :=
  chunks.foldlM (fun buffers c => takeChunk host streams buffers c.stream c.offset c.bytes) ∅

/-- Whatever the sender sends after its offer and the receiver meets with: it does not panic, what
it writes lies where the offer says under the destination, and no stream takes more room than was
declared for it. -/
structure Contained (host : Host) (offer : ShareOffer) : Prop where
  noPanic : ∀ io dest decide frames,
    (receiveShareWith host io dest decide offer frames).result ≠ .error .panicked
  inside :
    ∀ io dest decide frames, ∀ w ∈ (receiveShareWith host io dest decide offer frames).written,
      ∃ file ∈ offer.contents, w.path = dest ++ file.1.map SafeName.text ∧
      w.bytes.length ≤ file.2.toNat
  bounded : ∀ streams chunks buffers, offer.streams = .ok streams →
    heldAfter host streams chunks = .ok buffers → ∀ (i : UInt32) (v : Bytes), buffers[i]? = some v →
      ∃ info, streams[i.toNat]? = some info ∧ v.length ≤ info.len.toNat

/-- No folder with files in it is named like a drive, and in an offer that is small enough to be
accepted no component is one on which the host starts a path anew and no file is longer than what
the host can allocate. A chunk can name the first `2 ^ 32` streams only. -/
def Tame (host : Host) (offer : ShareOffer) : Prop :=
  (∀ payload ∈ offer.items, payload.crashes = false) ∧
    (offer.claimed ≤ defaultMaxAcceptBytes.toNat → ∀ file ∈ offer.contents.take (2 ^ 32),
      host.Allocates file.2.toNat ∧ ∀ name ∈ file.1, host.os.replaces name.text = false)

theorem foldlM_holds {buffers : Buffers} (hs : buffers.Holds host streams before)
    (h : chunks.foldlM (fun buffers c => takeChunk host streams buffers c.stream c.offset c.bytes)
      buffers = .ok buffers') : Buffers.Holds host streams (before ++ chunks) buffers' := by
  induction chunks generalizing buffers before with
  | nil =>
    cases h
    rw [List.append_nil]
    exact hs
  | cons c chunks ih =>
    rw [List.foldlM_cons] at h
    cases hc : takeChunk host streams buffers c.stream c.offset c.bytes with
    | error halt =>
      rw [hc] at h
      cases h
    | ok next =>
      rw [hc] at h
      have hrest := ih (hs.takeChunk c hc) h
      rw [List.append_assoc] at hrest
      exact hrest

theorem heldAfter_holds (h : heldAfter host streams chunks = .ok buffers) :
    Buffers.Holds host streams chunks buffers :=
  foldlM_holds (Buffers.holds_nil host streams) h

section Contained
variable {host : Host} {offer : ShareOffer} {streams : List StreamRef} {decide : ShareOffer → Bool}

theorem receive_crashes (hmem : payload ∈ offer.items) (h : payload.crashes = true) :
    (receiveShareWith host io dest decide offer frames).result = .error .panicked := by
  have hanswer : answer decide offer = .error .panicked := by
    rw [answer, ShareOffer.totalLen, ShareOffer.streams_panics hmem h]
    rfl
  rw [receiveShareWith.eq_def, hanswer]

theorem receive_cases (hstreams : offer.streams = .ok streams)
    (hcontents : streams.map StreamRef.content = offer.contents) (io : List String → WriteIo)
    (dest : List String) (decide : ShareOffer → Bool) (frames : List ShareFrame) :
    ((receiveShareWith host io dest decide offer frames).written = [] ∧
        ((receiveShareWith host io dest decide offer frames).result = .error .panicked →
          offer.claimed ≤ defaultMaxAcceptBytes.toNat ∧ host.Overrun streams)) ∨
      offer.claimed ≤ defaultMaxAcceptBytes.toNat ∧ ∃ buffers : Buffers,
        buffers.Holds host streams (leadingChunks frames) ∧
        receiveShareWith host io dest decide offer frames =
          ⟨(writeStreams host io dest streams buffers.toList).1,
            (writeStreams host io dest streams buffers.toList).2.map fun files =>
              ⟨files, inlineTexts offer.items⟩⟩ := by
  rcases answer_eq hstreams hcontents decide with ⟨_, claimed, hover⟩ | ⟨hlimit, hanswer⟩
  · rw [receiveShareWith.eq_def, hover]
    exact .inl ⟨rfl, by rintro ⟨⟩⟩
  · by_cases hdecide : decide offer = true
    · rw [if_pos hdecide] at hanswer
      rcases assemble_cases (Buffers.holds_nil host streams) frames with
        ⟨halt, herror, hover⟩ | ⟨buffers, hok, hs⟩
      · rw [receiveShareWith.eq_def, hanswer]
        dsimp only
        rw [herror]
        refine .inl ⟨rfl, fun hpanic => ⟨hlimit, hover ?_⟩⟩
        cases hpanic
        rfl
      · exact .inr ⟨hlimit, buffers, hs, receive_of_assemble hanswer hok⟩
    · rw [if_neg hdecide] at hanswer
      rw [receiveShareWith.eq_def, hanswer]
      apply Or.inl
      cases frames with
      | nil => exact ⟨rfl, by rintro ⟨⟩⟩
      | cons frame frames =>
        cases frame with
        | done => exact ⟨rfl, by rintro ⟨⟩⟩
        | _ => exact ⟨rfl, by rintro ⟨⟩⟩

theorem content_mem_take (hcontents : streams.map StreamRef.content = offer.contents)
    {stream : UInt32} (hinfo : streams[stream.toNat]? = some info) :
    info.content ∈ offer.contents.take (2 ^ 32) := by
  have hget : offer.contents[stream.toNat]? = some info.content := by
    rw [← hcontents, List.getElem?_map, hinfo]
    rfl
  apply List.mem_of_getElem? (i := stream.toNat)
  rw [List.getElem?_take_of_lt stream.toNat_lt, hget]

theorem Tame.not_overrun (h : Tame host offer)
    (hcontents : streams.map StreamRef.content = offer.contents)
    (hlimit : offer.claimed ≤ defaultMaxAcceptBytes.toNat) : ¬ host.Overrun streams := by
  rintro ⟨i, info, hinfo, hover⟩
  exact hover (h.2 hlimit _ (content_mem_take hcontents hinfo)).1

theorem Tame.contained (h : Tame host offer) : Contained host offer := by
  obtain ⟨streams, hstreams, hcontents⟩ := ShareOffer.streams_ok h.1
  refine ⟨?_, ?_, ?_⟩
  · intro io dest decide frames
    rcases receive_cases hstreams hcontents io dest decide frames with
      ⟨_, hresult⟩ | ⟨_, buffers, hs, hreceive⟩
    · intro hpanic
      obtain ⟨hlimit, hover⟩ := hresult hpanic
      exact h.not_overrun hcontents hlimit hover
    · have hwrite : (writeStreams host io dest streams buffers.toList).2 ≠ .error .panicked := by
        apply writeStreams_not_panicked
        intro entry hentry
        obtain ⟨info, hinfo, _⟩ := hs.fits.of_mem_toList hentry
        exact ⟨info, hinfo⟩
      rw [hreceive]
      intro hpanic
      cases hpaths : (writeStreams host io dest streams buffers.toList).2 with
      | ok paths =>
        rw [hpaths] at hpanic
        cases hpanic
      | error halt =>
        rw [hpaths] at hpanic hwrite
        cases hpanic
        exact hwrite rfl
  · intro io dest decide frames w hw
    rcases receive_cases hstreams hcontents io dest decide frames with
      ⟨hwritten, _⟩ | ⟨hlimit, buffers, hs, hreceive⟩
    · rw [hwritten] at hw
      cases hw
    · rw [hreceive] at hw
      obtain ⟨bytes, info, hmem, hinfo, hpath, hprefix⟩ := mem_writeStreams hw
      obtain ⟨info', hinfo', hlen⟩ := hs.fits.of_mem_toList hmem
      cases hinfo.symm.trans hinfo'
      have hfile := content_mem_take hcontents hinfo
      have hplain : ∀ c ∈ info.path.components, host.os.replaces c = false := by
        intro c hc
        obtain ⟨name, hname, rfl⟩ := List.mem_map.1 hc
        exact (h.2 hlimit _ hfile).2 name hname
      have hbytes := hlen.le.trans (host.cut_le info.len)
      refine ⟨info.content, List.mem_of_mem_take hfile, ?_, hprefix.length_le.trans hbytes⟩
      rw [hpath, RelPath.resolveUnder, foldl_push hplain]
      rfl
  · intro streams' chunks buffers hstreams' hheld i v hv
    cases hstreams.symm.trans hstreams'
    obtain ⟨info, hinfo, hlen⟩ := (heldAfter_holds hheld).fits i v hv
    exact ⟨info, hinfo, hlen.le.trans (host.cut_le info.len)⟩

theorem takeChunk_panics (hinfo : streams[stream.toNat]? = some info)
    (hover : ¬ host.Allocates info.len.toNat) :
    ∃ offset bytes, takeChunk host streams ∅ stream offset bytes = .error .panicked := by
  have hnone : (∅ : Buffers)[stream]? = none := Std.TreeMap.getElem?_emptyc
  by_cases halloc : host.Allocates (host.cut info.len)
  · have hhalf : 2 ^ (host.usize.bits - 1) < 2 ^ host.usize.bits ∧ host.usize.bits ≤ 64 := by
      cases host.usize with
      | bits32 => decide
      | bits64 => decide
    have hcut : host.cut info.len < 2 ^ (host.usize.bits - 1) := halloc
    have hlong : host.cut info.len < info.len.toNat := hcut.trans_le (Nat.le_of_not_lt hover)
    have hoffset : (UInt64.ofNat (host.cut info.len)).toNat = host.cut info.len :=
      UInt64.toNat_ofNat_of_lt' (hlong.trans info.len.toNat_lt)
    refine ⟨UInt64.ofNat (host.cut info.len), [0], ?_⟩
    rw [takeChunk, hinfo, hnone]
    simp only [hoffset, List.length_singleton, Option.getD_none, List.length_replicate]
    rw [if_neg (by omega), if_neg (by omega), if_neg (by omega),
      if_neg fun h => h.2 halloc, if_neg (by omega)]
  · refine ⟨0, [], ?_⟩
    rw [takeChunk, hinfo, hnone]
    have hpos := Nat.two_pow_pos host.usize.bits
    simp only [UInt64.toNat_zero, List.length_nil, Nat.add_zero]
    rw [if_neg (by omega), if_neg (by omega), if_neg (Nat.not_lt_zero _), if_pos ⟨trivial, halloc⟩]

theorem Contained.allocates (h : Contained host offer)
    (hanswer : answer (fun _ => true) offer = .ok (.accepted streams)) {stream : UInt32}
    (hinfo : streams[stream.toNat]? = some info) : host.Allocates info.len.toNat := by
  by_contra hover
  obtain ⟨offset, bytes, hpanic⟩ := takeChunk_panics hinfo hover
  apply h.noPanic (fun _ => .done) [] (fun _ => true) [.chunk stream offset bytes]
  rw [receiveShareWith.eq_def, hanswer]
  dsimp only
  rw [assemble_error hpanic]

theorem written_of_chunk (host : Host) (dest : List String)
    (hanswer : answer decide offer = .ok (.accepted streams))
    (hinfo : streams[stream.toNat]? = some info) (halloc : host.Allocates info.len.toNat) :
    ∃ w ∈ (receiveShareWith host (fun _ => .done) dest decide offer
        [.chunk stream 0 [], .done]).written, w.path = info.path.resolveUnder host dest := by
  have htake : ∃ v, takeChunk host streams ∅ stream 0 [] = .ok ((∅ : Buffers).insert stream v) := by
    have hpos := Nat.two_pow_pos host.usize.bits
    rw [takeChunk, hinfo]
    simp only [UInt64.toNat_zero, List.length_nil, Nat.add_zero, halloc.cut]
    rw [if_neg (by omega), if_neg (by omega), if_neg (Nat.not_lt_zero _),
      if_neg fun hfails => hfails.2 halloc, if_pos (Nat.zero_le _)]
    exact ⟨_, rfl⟩
  obtain ⟨v, htake⟩ := htake
  have hs := (Buffers.holds_nil host streams).takeChunk ⟨stream, 0, []⟩ htake
  have hmem : (stream, v) ∈ ((∅ : Buffers).insert stream v).toList := by
    rw [Std.TreeMap.mem_toList_iff_getElem?_eq_some, get_insert, if_pos rfl]
  have hwrite : ∃ paths, (writeStreams host (fun _ => .done) dest streams
      ((∅ : Buffers).insert stream v).toList).2 = .ok paths := by
    apply writeStreams_done
    intro entry hentry
    obtain ⟨info, hinfo, _⟩ := hs.fits.of_mem_toList hentry
    exact ⟨info, hinfo⟩
  obtain ⟨paths, hpaths⟩ := hwrite
  rw [receive_of_assemble hanswer (assemble_chunk htake [.done])]
  exact ⟨_, written_of_ok hpaths hmem hinfo, rfl⟩

theorem Contained.tame (h : Contained host offer) : Tame host offer := by
  have hcrash : ∀ payload ∈ offer.items, payload.crashes = false := by
    intro payload hmem
    by_contra hnot
    apply h.noPanic (fun _ => .done) [] (fun _ => true) []
    exact receive_crashes hmem (Bool.eq_true_of_not_eq_false hnot)
  refine ⟨hcrash, fun hlimit file hfile => ?_⟩
  obtain ⟨streams, hstreams, hcontents⟩ := ShareOffer.streams_ok hcrash
  have hanswer : answer (fun _ => true) offer = .ok (.accepted streams) := by
    rcases answer_eq hstreams hcontents (fun _ => true) with ⟨hover, _⟩ | ⟨_, hanswer⟩
    · exact absurd hlimit (Nat.not_le_of_lt hover)
    · exact hanswer
  obtain ⟨i, hi⟩ := List.mem_iff_getElem?.1 hfile
  rw [List.getElem?_take] at hi
  obtain ⟨hlt, hget⟩ := Option.ite_none_right_eq_some.1 hi
  have hstream : streams[(UInt32.ofNat i).toNat]?.map StreamRef.content = some file := by
    rw [UInt32.toNat_ofNat_of_lt' hlt, ← List.getElem?_map, hcontents, hget]
  obtain ⟨info, hinfo, rfl⟩ := Option.map_eq_some_iff.1 hstream
  have halloc := h.allocates hanswer hinfo
  refine ⟨halloc, fun name hname => ?_⟩
  by_contra hdrive
  obtain ⟨w, hw, hpath⟩ := written_of_chunk host ["share"] hanswer hinfo halloc
  obtain ⟨file', _, hinside, _⟩ := h.inside _ _ _ _ w hw
  have hheaded : host.Headed w.path := by
    rw [hpath]
    exact headed_foldl_push (List.mem_map_of_mem hname) (Bool.eq_true_of_not_eq_false hdrive) _
  obtain ⟨first, rest, hfirst, hreplaces⟩ := hheaded
  rw [hinside] at hfirst
  cases hfirst
  cases hos : host.os with
  | unix =>
    rw [hos] at hreplaces
    cases hreplaces
  | windows =>
    rw [hos] at hreplaces
    exact absurd hreplaces (by decide)

end Contained

/-- The receiver is safe from a sender exactly if no folder with files is named like a drive, no
component that it would write names one and every file that it would hold has room. -/
theorem offer_contained_iff (host : Host) (offer : ShareOffer) :
    Contained host offer ↔ Tame host offer :=
  ⟨Contained.tame, Tame.contained⟩

def plainName : SafeName := ⟨"notes", by decide +kernel⟩

def driveName : SafeName := ⟨"C:", by decide +kernel⟩

def driveFolder : ShareOffer :=
  ⟨"peer", [.folder driveName [⟨⟨[plainName], nofun, by decide +kernel⟩, 0⟩]]⟩

def driveWithin : ShareOffer :=
  ⟨"peer", [.file ⟨⟨[plainName, driveName, plainName], nofun, by decide +kernel⟩, 1⟩]⟩

def longFile : ShareOffer :=
  ⟨"peer", [.file ⟨⟨[plainName], nofun, by decide +kernel⟩, 2 ^ 32 + 1⟩]⟩

/-- The first panics on every host, the second is written outside the destination on one, and the
third has a buffer of one byte where addresses have 32 bits. -/
theorem drive_names_not_contained :
    (receiveShareWith ⟨.unix, .bits64⟩ (fun _ => .done) ["downloads"] (fun _ => true) driveFolder
        []).result = .error .panicked ∧
      (receiveShareWith ⟨.windows, .bits64⟩ (fun _ => .done) ["downloads"] (fun _ => true)
        driveWithin [.chunk 0 0 [7], .done]).written = [⟨0, ["C:", "notes"], [7]⟩] ∧
      (receiveShareWith ⟨.unix, .bits32⟩ (fun _ => .done) ["downloads"] (fun _ => true) longFile
        [.chunk 0 0 [7, 8]]).result = .error .panicked ∧
      ¬ Contained ⟨.unix, .bits64⟩ driveFolder ∧ ¬ Contained ⟨.windows, .bits64⟩ driveWithin ∧
      ¬ Contained ⟨.unix, .bits32⟩ longFile := by
  have hpanic : (receiveShareWith ⟨.unix, .bits64⟩ (fun _ => .done) ["downloads"] (fun _ => true)
      driveFolder []).result = .error .panicked := by
    decide +kernel
  have hwritten : (receiveShareWith ⟨.windows, .bits64⟩ (fun _ => .done) ["downloads"]
      (fun _ => true) driveWithin [.chunk 0 0 [7], .done]).written =
        [⟨0, ["C:", "notes"], [7]⟩] := by
    decide +kernel
  have hslice : (receiveShareWith ⟨.unix, .bits32⟩ (fun _ => .done) ["downloads"] (fun _ => true)
      longFile [.chunk 0 0 [7, 8]]).result = .error .panicked := by
    decide +kernel
  refine ⟨hpanic, hwritten, hslice, fun h => h.noPanic _ _ _ _ hpanic, fun h => ?_,
    fun h => h.noPanic _ _ _ _ hslice⟩
  obtain ⟨file, _, hpath, _⟩ := h.inside _ _ _ _ _ (hwritten ▸ List.mem_singleton_self _)
  exact absurd (List.cons.inj hpath).1 (by decide)

end Roam.Share
