import Roam.Logs

namespace Roam
set_option autoImplicit true
open Library

section
variable {π : Platform} {r : LineReader Line E StorageError}

theorem malformed_eq_ok {x : Except String α} : malformed x = .ok a ↔ x = .ok a := mapError_eq_ok

theorem b64Bytes32_inv (h : b64Bytes32 π s msg = .ok k) : π.b64Decode s = .ok k.bytes := by
  rw [b64Bytes32, except_bind_eq_ok] at h
  obtain ⟨bytes, hd, h⟩ := h
  split at h
  next k' hk =>
    cases h
    rw [Bytes32.ofBytes?] at hk
    split at hk
    next =>
      cases hk
      exact malformed_eq_ok.1 hd
    next => cases hk
  next => cases h

theorem b64Signature_inv (h : b64Signature π s = .ok sig) : π.b64Decode s = .ok sig := by
  rw [b64Signature, except_bind_eq_ok] at h
  obtain ⟨bytes, hd, h⟩ := h
  split at h
  next =>
    cases h
    exact malformed_eq_ok.1 hd
  next => cases h

theorem RosterLine.check_inv {line : RosterLine} (h : line.check π author key = .ok e) :
    line.addedBy = author ∧
      e = { seq := line.seq, lamport := line.lamport, op := line.op,
            subjectPeer := line.subjectPeer, subjectKey := e.subjectKey,
            addedBy := line.addedBy } ∧
      π.b64Decode line.subjectKey = .ok e.subjectKey.bytes ∧
      ∃ sig, π.b64Decode line.sig = .ok sig ∧ π.verify key e.canonicalBytes sig = true := by
  rw [RosterLine.check] at h
  split at h
  next => cases h
  next ha =>
    simp only [except_bind_eq_ok] at h
    obtain ⟨subjectKey, hk, sig, hs, h⟩ := h
    split at h
    next hv =>
      cases h
      exact ⟨not_not.1 ha, rfl, b64Bytes32_inv hk, sig, b64Signature_inv hs, hv⟩
    next => cases h

theorem KeyLine.check_inv {line : KeyLine} (h : line.check π a key = .ok e) :
    e.author = a ∧ ∃ sig, π.verify key e.canonicalBytes sig = true := by
  rw [KeyLine.check] at h
  split at h
  next => cases h
  next ha =>
    simp only [except_bind_eq_ok] at h
    obtain ⟨body, _, sig, _, epochId, _, h⟩ := h
    split at h
    next hv =>
      cases h
      exact ⟨not_not.1 ha, sig, hv⟩
    next => cases h

theorem EntryLine.check_inv {line : EntryLine} (h : line.check π a key = .ok e) :
    e.peerId = a ∧ ∃ sig, π.verify key (oplogSigDomain ++ e.update) sig = true := by
  rw [EntryLine.check] at h
  split at h
  next => cases h
  next ha =>
    simp only [except_bind_eq_ok] at h
    obtain ⟨update, _, sig, _, h⟩ := h
    split at h
    next hv =>
      cases h
      exact ⟨not_not.1 ha, sig, hv⟩
    next => cases h

theorem EntryLine.check_update {line : EntryLine} (h : line.check π a key = .ok e) :
    π.b64Decode line.update = .ok e.update := by
  rw [EntryLine.check] at h
  split at h
  next => cases h
  next =>
    simp only [except_bind_eq_ok] at h
    obtain ⟨update, hu, sig, _, h⟩ := h
    split at h
    next =>
      cases h
      exact malformed_eq_ok.1 hu
    next => cases h

theorem RosterLine.check_addedBy {line : RosterLine} (h : line.check π author key = .ok e) :
    e.addedBy = author := by
  obtain ⟨ha, he, _⟩ := check_inv h
  rw [he, ha]

theorem rosterReader_addedBy (h : (rosterReader π author key).Reads line e) :
    e.addedBy = author := by
  obtain ⟨parsed, _, hc⟩ := h
  exact RosterLine.check_addedBy hc

theorem keyReader_author (h : (keyReader π author key).Reads line e) : e.author = author := by
  obtain ⟨parsed, _, hc⟩ := h
  exact (KeyLine.check_inv hc).1

theorem readVerified_mem
    (h : readVerified π r file = .ok entries) (he : e ∈ entries) : ∃ line, r.Reads line e := by
  cases file with
  | none =>
    cases h
    cases he
  | some bytes =>
    rw [readVerified] at h
    split at h
    · obtain ⟨line, _, hr⟩ := LineReader.readLines_mem h he
      exact ⟨line, hr⟩
    · cases h

theorem readVerified_length (h : readVerified π r (some bytes) = .ok entries) :
    entries.length ≤ (bytes.splitOn 10).length := by
  rw [readVerified] at h
  split at h
  · exact LineReader.readText_length h
  · cases h

theorem readVerified_of_verifyBytes
    (h : verifyBytes π r bytes = .ok entries) : readVerified π r (some bytes) = .ok entries := by
  rw [verifyBytes] at h
  split at h
  next hutf => rw [readVerified, if_pos hutf, h]
  next => cases h

theorem readVerified_eq_ok_iff : readVerified π r file = .ok entries ↔
      validUtf8 (file.getD []) = true ∧ r.readText (file.getD []) = .ok entries := by
  cases file with
  | none => exact ⟨fun h => ⟨rfl, h⟩, fun h => h.2⟩
  | some bytes =>
    rw [readVerified, Option.getD_some]
    split
    next hutf => simp only [hutf, true_and]
    next hutf => simp only [hutf, Bool.false_eq_true, false_and, reduceCtorEq]

theorem readVerified_appendLine
    (ht : Terminated 10 (file.getD [])) (h : readVerified π r file = .ok entries)
    (ho : ObjectLine line) (hr : r.Reads line e) :
    readVerified π r (some (appendLine file line)) = .ok (entries ++ [e]) := by
  obtain ⟨lines, hl, hfile⟩ := ht.exists_lines
  rw [readVerified_eq_ok_iff, hfile, LineReader.readText_eq_ok_iff hl] at h
  have hjoin : (some (appendLine file line)).getD [] = joinLines 10 (lines ++ [line]) := by
    rw [Option.getD_some, appendLine, hfile, joinLines_append, joinLines_cons]
    rfl
  have hall : ∀ l ∈ lines ++ [line], 10 ∉ l :=
    List.forall_mem_append.2 ⟨hl, List.forall_mem_singleton.2 ho.single⟩
  have hkept : keptLines [line] = [line] := ObjectLine.keptLines (List.forall_mem_singleton.2 ho)
  rw [readVerified_eq_ok_iff, hjoin, LineReader.readText_eq_ok_iff hall, keptLines_append, hkept]
  refine ⟨?_, List.rel_append h.2 (.cons hr .nil)⟩
  have hline := @validUtf8_joinLines [line] [] (List.forall_mem_singleton.2 ho.utf8)
  rw [List.append_nil] at hline
  rw [joinLines_append, validUtf8_append h.1, hline]
  rfl

/-- A log file of whole written lines, with the entries that they read as. -/
structure WholeLog (r : LineReader Line E StorageError) (lines : List Bytes)
    (entries : List E) : Prop where
  object : ∀ line ∈ lines, ObjectLine line
  reads : List.Forall₂ r.Reads lines entries

theorem WholeLog.utf8 (h : WholeLog r lines entries) : validUtf8 (joinLines 10 lines) = true := by
  have hv : validUtf8 (joinLines 10 lines ++ []) = validUtf8 [] :=
    validUtf8_joinLines fun line hl => (h.object line hl).utf8
  rw [List.append_nil] at hv
  rw [hv]
  rfl

theorem WholeLog.verifyBytes
    (h : WholeLog r lines entries) : verifyBytes π r (joinLines 10 lines) = .ok entries := by
  rw [Roam.verifyBytes, if_pos h.utf8]
  exact LineReader.readText_of_reads h.object h.reads

theorem WholeLog.readVerified
    (h : WholeLog r lines entries) (hf : file.getD [] = joinLines 10 lines) :
    readVerified π r file = .ok entries := by
  cases file with
  | none =>
    have hl : lines = [] := by
      cases lines with
      | nil => rfl
      | cons line lines =>
        rw [joinLines_cons] at hf
        simp only [Option.getD_none, List.nil_eq, List.append_eq_nil_iff, reduceCtorEq,
          and_false] at hf
    subst hl
    cases h.reads
    rfl
  | some bytes =>
    obtain rfl : bytes = joinLines 10 lines := hf
    rw [Roam.readVerified, if_pos h.utf8]
    exact LineReader.readText_of_reads h.object h.reads

theorem WholeLog.append (h : WholeLog r lines entries)
    (ho : ObjectLine line) (hr : r.Reads line e) :
    WholeLog r (lines ++ [line]) (entries ++ [e]) where
  object := by
    intro l hl
    cases List.mem_append.1 hl with
    | inl hl => exact h.object l hl
    | inr hl => exact List.mem_singleton.1 hl ▸ ho
  reads := List.rel_append h.reads (.cons hr .nil)

end

section Written
variable {π : Platform} (hπ : π.Lawful)
include hπ

theorem b64Bytes32_encode (key : Bytes32) (msg : String) :
    b64Bytes32 π (π.b64Encode key.bytes) msg = .ok key := by
  have hof : Bytes32.ofBytes? key.bytes = some key := by
    rw [Bytes32.ofBytes?, dif_pos key.size]
  simp only [b64Bytes32, malformed, hπ.b64, Except.mapError, bind, Except.bind, hof]
  rfl

theorem b64Signature_encode (secret : Bytes32) (msg : Bytes) :
    b64Signature π (π.b64Encode (π.sign secret msg)) = .ok (π.sign secret msg) := by
  simp only [b64Signature, malformed, hπ.b64, Except.mapError, bind, Except.bind, hπ.sig_length,
    ↓reduceIte]
  rfl

theorem RosterLine.check_ofEntry (id : Identity) {e : RosterEntry} (ha : e.addedBy = id.peerId π) :
    (RosterLine.ofEntry π id e).check π (id.peerId π) (id.verifyingKey π) = .ok e := by
  have hv := hπ.verify_sign id.secret e.canonicalBytes
  simp only [RosterLine.check, RosterLine.ofEntry, ha, ne_eq, not_true_eq_false,
    ↓reduceIte, b64Bytes32_encode hπ, b64Signature_encode hπ, bind, Except.bind]
  simp only [← ha]
  exact if_pos hv

theorem rosterReader_ofEntry (id : Identity) {e : RosterEntry} (ha : e.addedBy = id.peerId π) :
    (rosterReader π (id.peerId π) (id.verifyingKey π)).Reads
      (π.rosterJson.render (RosterLine.ofEntry π id e)) e := by
  refine ⟨RosterLine.ofEntry π id e, ?_, RosterLine.check_ofEntry hπ id ha⟩
  simp only [rosterReader, malformed, hπ.roster.parse_render, Except.mapError]

theorem mapM_b64Bytes32_encode (ids : List Bytes32) (msg : String) :
    (ids.map fun p => π.b64Encode p.bytes).mapM (fun p => b64Bytes32 π p msg) = .ok ids := by
  induction ids with
  | nil => rfl
  | cons id ids ih =>
    rw [List.map_cons, List.mapM_cons, b64Bytes32_encode hπ, ih]
    rfl

theorem decode_ofBody (body : KeyBody) : (KeyBodyLine.ofBody π body).decode π = .ok body := by
  cases body with
  | rotate parentEpochs nonce =>
    rw [KeyBodyLine.ofBody, KeyBodyLine.decode, mapM_b64Bytes32_encode hπ, b64Bytes32_encode hπ]
    rfl
  | wrap recipient blob =>
    rw [KeyBodyLine.ofBody, KeyBodyLine.decode, hπ.b64]
    rfl

theorem KeyLine.check_ofEntry (id : Identity) {e : KeyLogEntry} (ha : e.author = id.peerId π) :
    (KeyLine.ofEntry π id e).check π (id.peerId π) (id.verifyingKey π) = .ok e := by
  have hv := hπ.verify_sign id.secret e.canonicalBytes
  simp only [KeyLine.check, KeyLine.ofEntry, ha, ne_eq, not_true_eq_false, ↓reduceIte,
    decode_ofBody hπ, b64Bytes32_encode hπ, b64Signature_encode hπ, bind, Except.bind]
  simp only [← ha]
  exact if_pos hv

theorem EntryLine.check_ofUpdate (id : Identity) (update : Bytes) :
    (EntryLine.ofUpdate π (id.peerId π) id update).check π (id.peerId π) (id.verifyingKey π) =
      .ok { peerId := id.peerId π, update } := by
  have hv := hπ.verify_sign id.secret (oplogSigDomain ++ update)
  simp only [EntryLine.check, EntryLine.ofUpdate, ne_eq, not_true_eq_false, ↓reduceIte, malformed,
    hπ.b64, Except.mapError, b64Signature_encode hπ, bind, Except.bind]
  exact if_pos hv

end Written

end Roam
