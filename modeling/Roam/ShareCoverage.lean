import Roam.ShareReceiver

namespace Roam.Share
set_option autoImplicit true

/-- Every stream that was asked for has its file, and every byte in a file came with a chunk. -/
structure Complete (streams : List StreamRef) (frames : List ShareFrame) (written : List Written) :
    Prop where
  present : ∀ stream ∈ wanted streams, ∃ w ∈ written, w.stream = stream
  supplied : ∀ w ∈ written, ∀ k < w.bytes.length,
    ∃ c ∈ leadingChunks frames, c.stream = w.stream ∧ c.at? k = w.bytes[k]?

/-- Before it is done the sender has a chunk for every stream that was asked for, and its chunks for
a stream leave nothing out of the length that was declared, or of as much of it as the host keeps.
-/
structure Covering (host : Host) (streams : List StreamRef) (frames : List ShareFrame) :
    Prop where
  begun : ∀ stream ∈ wanted streams, ∃ c ∈ leadingChunks frames, c.stream = stream
  gapless : ∀ c ∈ leadingChunks frames, ∀ info ∈ streams[c.stream.toNat]?,
    ∀ k < host.cut info.len, ∃ c' ∈ leadingChunks frames, c'.stream = c.stream ∧ (c'.at? k).isSome

section Coverage
variable {host : Host} {decide : ShareOffer → Bool} {offer : ShareOffer} {streams : List StreamRef}

theorem written_iff (hanswer : answer decide offer = .ok (.accepted streams))
    (hok : (receiveShareWith host io dest decide offer frames).result = .ok received) :
    ∃ buffers : Buffers, buffers.Holds host streams (leadingChunks frames) ∧ ∀ stream bytes,
      (∃ w ∈ (receiveShareWith host io dest decide offer frames).written,
        w.stream = stream ∧ w.bytes = bytes) ↔ buffers[stream]? = some bytes := by
  rcases assemble_cases (Buffers.holds_nil host streams) frames with
    ⟨_, herror, _⟩ | ⟨buffers, hend, hs⟩
  · rw [receiveShareWith.eq_def, hanswer] at hok
    dsimp only at hok
    rw [herror] at hok
    cases hok
  · rw [receive_of_assemble hanswer hend] at hok ⊢
    refine ⟨buffers, hs, fun stream bytes => ?_⟩
    cases hpaths : (writeStreams host io dest streams buffers.toList).2 with
    | error halt =>
      rw [hpaths] at hok
      cases hok
    | ok paths =>
      have hmap := writeStreams_ok hpaths
      rw [← Std.TreeMap.mem_toList_iff_getElem?_eq_some]
      constructor
      · rintro ⟨w, hw, rfl, rfl⟩
        rw [← hmap]
        exact List.mem_map_of_mem hw
      · intro hmem
        rw [← hmap] at hmem
        obtain ⟨w, hw, heq⟩ := List.mem_map.1 hmem
        exact ⟨w, hw, congrArg Prod.fst heq, congrArg Prod.snd heq⟩

theorem isSome_iff_written {buffers : Buffers} {written : List Written}
    (h : ∀ stream bytes, (∃ w ∈ written, w.stream = stream ∧ w.bytes = bytes) ↔
      buffers[stream]? = some bytes) (stream : UInt32) :
    (∃ w ∈ written, w.stream = stream) ↔ buffers[stream]?.isSome := by
  rw [Option.isSome_iff_exists]
  constructor
  · rintro ⟨w, hw, rfl⟩
    exact ⟨w.bytes, (h _ _).1 ⟨w, hw, rfl, rfl⟩⟩
  · rintro ⟨bytes, hbytes⟩
    obtain ⟨w, hw, hstream, _⟩ := (h _ _).2 hbytes
    exact ⟨w, hw, hstream⟩

/-- A share that reports success is complete exactly if the sender left out nothing. -/
theorem complete_iff (hanswer : answer decide offer = .ok (.accepted streams))
    (hok : (receiveShareWith host io dest decide offer frames).result = .ok received) :
    Complete streams frames (receiveShareWith host io dest decide offer frames).written ↔
      Covering host streams frames := by
  obtain ⟨buffers, hs, hwritten⟩ := written_iff hanswer hok
  have hpresent := fun stream => (isSome_iff_written hwritten stream).trans (hs.isSome_iff stream)
  constructor
  · intro h
    refine ⟨fun stream hstream => (hpresent stream).1 (h.present stream hstream), ?_⟩
    intro c hc info hinfo k hk
    obtain ⟨w, hw, hstream⟩ := (hpresent c.stream).2 ⟨c, hc, rfl⟩
    have hbuffer := (hwritten w.stream w.bytes).1 ⟨w, hw, rfl, rfl⟩
    obtain ⟨info', hinfo', hlen⟩ := hs.fits _ _ hbuffer
    rw [hstream, hinfo] at hinfo'
    cases hinfo'
    have hk' := hlen.symm ▸ hk
    obtain ⟨c', hc', hstream', hat⟩ := h.supplied w hw k hk'
    refine ⟨c', hc', hstream'.trans hstream, ?_⟩
    rw [hat, List.getElem?_eq_getElem hk']
    rfl
  · intro h
    refine ⟨fun stream hstream => (hpresent stream).2 (h.begun stream hstream), ?_⟩
    intro w hw k hk
    have hbuffer := (hwritten w.stream w.bytes).1 ⟨w, hw, rfl, rfl⟩
    rcases hs.bytes _ _ hbuffer k hk with hsupplied | ⟨hnone, _⟩
    · exact hsupplied
    · obtain ⟨c, hc, hstream⟩ := (hpresent w.stream).1 ⟨w, hw, rfl⟩
      obtain ⟨info, hinfo, hlen⟩ := hs.fits _ _ hbuffer
      rw [← hstream] at hinfo
      obtain ⟨c', hc', hstream', hat⟩ := h.gapless c hc info hinfo k (hlen ▸ hk)
      rw [hnone c' hc' (hstream'.trans hstream)] at hat
      cases hat

end Coverage

def shortName : SafeName := ⟨"a", by decide +kernel⟩

def emptyName : SafeName := ⟨"b", by decide +kernel⟩

def shortPath : RelPath := ⟨[shortName], nofun, by decide +kernel⟩

def emptyPath : RelPath := ⟨[emptyName], nofun, by decide +kernel⟩

def twoFiles : ShareOffer := ⟨"peer", [.file ⟨shortPath, 2⟩, .file ⟨emptyPath, 0⟩]⟩

def twoStreams : List StreamRef := [⟨0, shortPath, 2⟩, ⟨1, emptyPath, 0⟩]

theorem wanted_twoStreams : wanted twoStreams = [0, 1] := by
  decide +kernel

def coveringFrames : List ShareFrame := [.chunk 0 1 [8], .chunk 1 0 [], .chunk 0 0 [7], .done]

theorem covering_complete : Complete twoStreams coveringFrames
    (receiveShareWith ⟨.unix, .bits64⟩ (fun _ => .done) ["downloads"] (fun _ => true) twoFiles
      coveringFrames).written := by
  have hok : (receiveShareWith ⟨.unix, .bits64⟩ (fun _ => .done) ["downloads"] (fun _ => true)
      twoFiles coveringFrames).result = .ok ⟨[["downloads", "a"], ["downloads", "b"]], []⟩ := by
    decide +kernel
  have hanswer : answer (fun _ => true) twoFiles = .ok (.accepted twoStreams) := by
    rfl
  apply (complete_iff hanswer hok).2
  refine ⟨?_, by decide +kernel⟩
  rw [wanted_twoStreams, List.forall_mem_cons, List.forall_mem_singleton]
  exact ⟨by decide +kernel, by decide +kernel⟩

/-- A sender that is done early is believed: of the two streams one is not written, and the other
has a zero that nobody sent. -/
theorem early_done_not_complete :
    (receiveShareWith ⟨.unix, .bits64⟩ (fun _ => .done) ["downloads"] (fun _ => true) twoFiles
        [.chunk 0 1 [8], .done]).result = .ok ⟨[["downloads", "a"]], []⟩ ∧
      (receiveShareWith ⟨.unix, .bits64⟩ (fun _ => .done) ["downloads"] (fun _ => true) twoFiles
        [.chunk 0 1 [8], .done]).written = [⟨0, ["downloads", "a"], [0, 8]⟩] ∧
      ¬ Complete twoStreams [.chunk 0 1 [8], .done]
        (receiveShareWith ⟨.unix, .bits64⟩ (fun _ => .done) ["downloads"] (fun _ => true) twoFiles
          [.chunk 0 1 [8], .done]).written := by
  have hwritten : (receiveShareWith ⟨.unix, .bits64⟩ (fun _ => .done) ["downloads"] (fun _ => true)
      twoFiles [.chunk 0 1 [8], .done]).written = [⟨0, ["downloads", "a"], [0, 8]⟩] := by
    decide +kernel
  refine ⟨by decide +kernel, hwritten, fun h => ?_⟩
  rw [hwritten] at h
  have hmem : 1 ∈ wanted twoStreams := wanted_twoStreams ▸ List.mem_cons_of_mem 0 List.mem_cons_self
  obtain ⟨w, hw, hstream⟩ := h.present 1 hmem
  cases List.mem_singleton.1 hw
  cases hstream

end Roam.Share
