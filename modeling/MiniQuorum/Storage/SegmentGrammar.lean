import MiniQuorum.Codec.FrameScan
import MiniQuorum.Storage.Refinement

/-! The segments that recovery accepts. -/

namespace MiniQuorum.Storage

open Raft Codec Program

variable {m : Marshaler LogRecord}

/-- A start marker, symbols that spell a length, a checksum and a payload they agree with, and an
end marker.  The payload is a record of a supported kind. -/
def CompleteFrame (m : Marshaler LogRecord) (frame : Bytes) (record : LogRecord) : Prop :=
  ∃ len crc payload : Bytes, len.length = 4 ∧ crc.length = 4 ∧
    frame = 0xFA :: (frameFormat.encodeSymbols (len ++ crc ++ payload) ++ [0xFB]) ∧
    ofLittleEndian len = payload.length ∧
    ofLittleEndian crc = (Crc.checksum castagnoli payload).toNat ∧
    m.unmarshal payload = some record ∧ record.hasSupportedKind = true

/-- The bytes `buf` are `frames` with `records` that lead from `s` to `s'`; only a final segment
has a `tail` after them. -/
structure Segment (m : Marshaler LogRecord) (final : Bool) (s : MemStorage) (buf : Bytes)
    (frames : List Bytes) (records : List LogRecord) (tail : Bytes) (s' : MemStorage) : Prop where
  bytes : buf = frames.flatten ++ tail
  complete : List.Forall₂ (CompleteFrame m) frames records
  accepted : records.foldlM applyRecord s = .ok s'
  tail : tail = [] ∨ final = true ∧
    ∃ symbols : Bytes, tail = 0xFA :: symbols ∧ ∀ b ∈ symbols, 0x40 ≤ b ∧ b ≤ 0x4F

theorem isSymbol_frameFormat {b : UInt8} :
    frameFormat.isSymbol b = true ↔ 0x40 ≤ b ∧ b ≤ 0x4F := by
  rw [Format.isSymbol, Bool.and_eq_true_iff, decide_eq_true_iff, decide_eq_true_iff]
  rfl

theorem completeFrame_iff {frame : Bytes} {record : LogRecord} :
    CompleteFrame m frame record ↔ ∃ payload, payload.length < 2 ^ 32 ∧
      frame = frameFormat.frame payload ∧ m.unmarshal payload = some record ∧
      record.hasSupportedKind = true := by
  constructor
  · rintro ⟨len, crc, payload, hlen, hcrc, rfl, hsize, hsum, hrecord⟩
    have hsymbols : ∀ b ∈ frameFormat.encodeSymbols (len ++ crc ++ payload),
        frameFormat.isSymbol b = true := fun b hb => frameFormat.isSymbol_of_mem_encodeSymbols hb
    have hsum : ofLittleEndian crc = (frameFormat.checksum payload).toNat := hsum
    have hdecode : frameFormat.decodeFrame (frameFormat.encodeSymbols (len ++ crc ++ payload)) =
        .ok payload := by
      rw [frameFormat.decodeFrame_encodeSymbols payload hlen hcrc, if_neg (by simp [hsize]),
        if_neg (not_not.2 hsum)]
    obtain ⟨hsmall, heq⟩ := (frameFormat.decodeFrame_eq_ok_iff hsymbols).1 hdecode
    exact ⟨payload, hsmall, by rw [heq]; rfl, hrecord⟩
  · rintro ⟨payload, hsmall, rfl, hrecord⟩
    refine ⟨littleEndian 4 payload.length, littleEndian 4 (Crc.checksum castagnoli payload).toNat,
      payload, by simp, by simp, rfl, ?_, ?_, hrecord⟩
    · rw [ofLittleEndian_littleEndian, Nat.mod_eq_of_lt (by simpa using hsmall)]
    · rw [ofLittleEndian_littleEndian,
        Nat.mod_eq_of_lt (by simpa using (Crc.checksum castagnoli payload).isLt)]

theorem applyPayload_eq_ok_iff {s s' : MemStorage} {payload : Bytes} :
    applyPayload m s payload = .ok s' ↔ ∃ record, m.unmarshal payload = some record ∧
      record.hasSupportedKind = true ∧ applyRecord s record = .ok s' := by
  rw [applyPayload]
  cases m.unmarshal payload with
  | none => simp
  | some record =>
    cases hkind : record.hasSupportedKind with
    | false => simp [hkind]
    | true => simp [hkind]

theorem foldlM_applyPayload_iff {s s' : MemStorage} {bytes : Bytes} :
    (∃ payloads, bytes = frameFormat.frames payloads ∧ (∀ p ∈ payloads, p.length < 2 ^ 32) ∧
        payloads.foldlM (applyPayload m) s = .ok s') ↔
      ∃ frames records, bytes = frames.flatten ∧ List.Forall₂ (CompleteFrame m) frames records ∧
        records.foldlM applyRecord s = .ok s' := by
  constructor
  · rintro ⟨payloads, rfl, hsmall, hfold⟩
    induction payloads generalizing s with
    | nil => exact ⟨[], [], rfl, .nil, hfold⟩
    | cons p payloads ih =>
      obtain ⟨t, happly, hfold⟩ := foldlM_cons_eq_ok.1 hfold
      obtain ⟨hp, hsmall⟩ := List.forall_mem_cons.1 hsmall
      obtain ⟨record, hrecord, hkind, happly⟩ := applyPayload_eq_ok_iff.1 happly
      obtain ⟨frames, records, hbytes, hframes, hrecords⟩ := ih hsmall hfold
      refine ⟨frameFormat.frame p :: frames, record :: records, ?_,
        .cons (completeFrame_iff.2 ⟨p, hp, rfl, hrecord, hkind⟩) hframes,
        foldlM_cons_eq_ok.2 ⟨t, happly, hrecords⟩⟩
      rw [Format.frames_cons, hbytes, List.flatten_cons]
  · rintro ⟨frames, records, rfl, hframes, hfold⟩
    induction hframes generalizing s with
    | nil =>
      cases hfold
      exact ⟨[], rfl, by simp, rfl⟩
    | cons hframe hframes ih =>
      obtain ⟨t, happly, hfold⟩ := foldlM_cons_eq_ok.1 hfold
      obtain ⟨p, hp, rfl, hrecord, hkind⟩ := completeFrame_iff.1 hframe
      obtain ⟨payloads, hbytes, hsmall, hpayloads⟩ := ih hfold
      refine ⟨p :: payloads, ?_, List.forall_mem_cons.2 ⟨hp, hsmall⟩,
        foldlM_cons_eq_ok.2 ⟨t, applyPayload_eq_ok_iff.2 ⟨_, hrecord, hkind, happly⟩, hpayloads⟩⟩
      rw [List.flatten_cons, hbytes, Format.frames_cons]

/-! ### Files -/

theorem Dir.read_modify (dir : Dir) (seq other : Nat) (f : Bytes → Bytes) :
    (dir.modify seq f).read other = if other = seq then (dir.read seq).map f else dir.read other := by
  induction dir with
  | nil =>
    show none = _
    split <;> rfl
  | cons file dir ih =>
    obtain ⟨name, bytes⟩ := file
    simp only [Dir.read, Dir.modify, List.map_cons] at ih ⊢
    by_cases hname : name = seq
    · subst hname
      rw [if_pos rfl, List.lookup_cons, List.lookup_cons, ih]
      by_cases hother : other = name
      · subst hother
        simp
      · have hne : (other == name) = false := beq_false_of_ne hother
        simp [hother, hne, List.lookup_cons]
    · rw [if_neg hname, List.lookup_cons, List.lookup_cons, List.lookup_cons, ih]
      by_cases hother : other = name
      · subst hother
        simp [hname]
      · have hne : (other == name) = false := beq_false_of_ne hother
        have hne' : (seq == name) = false := beq_false_of_ne (Ne.symm hname)
        simp only [hne, hne']

theorem replaySegment_of_read {dir : Dir} {seq : Nat} {buf : Bytes} (hread : dir.read seq = some buf)
    (s : MemStorage) (final : Bool) :
    replaySegment m dir s seq final =
      match frameFormat.replayFrom (applyPayload m) s 0 buf with
      | .error fault => (dir, .error (.corruptFrame seq fault))
      | .ok r =>
        if !r.torn then (dir, .ok r.state)
        else if !final then (dir, .error (.unterminated seq r.complete))
        else (dir.modify seq (·.take r.complete), .ok r.state) := by
  cases hreplay : frameFormat.replayFrom (applyPayload m) s 0 buf <;>
    simp only [replaySegment, hread, hreplay]

theorem Segment.replay {dir : Dir} {seq : Nat} {buf : Bytes} (hread : dir.read seq = some buf)
    {s s' : MemStorage} {final : Bool} {frames : List Bytes} {records : List LogRecord} {tail : Bytes}
    (h : Segment m final s buf frames records tail s') :
    (replaySegment m dir s seq final).2 = .ok s' ∧
      (replaySegment m dir s seq final).1.read seq = some frames.flatten ∧
      ∀ other ≠ seq, (replaySegment m dir s seq final).1.read other = dir.read other := by
  obtain ⟨payloads, hframes, hsmall, hfold⟩ :=
    foldlM_applyPayload_iff.2 ⟨frames, records, rfl, h.complete, h.accepted⟩
  have hreplay (torn : Bool) (htail : tail = [] ∧ torn = false ∨ ∃ symbols,
      tail = frameFormat.start :: symbols ∧ (∀ b ∈ symbols, frameFormat.isSymbol b = true) ∧
        torn = true) : frameFormat.replayFrom (applyPayload m) s 0 buf =
      .ok ⟨s', frames.flatten.length, torn⟩ := by
    refine (frameFormat.replayFrom_eq_ok_iff (applyPayload m)).2
      ⟨payloads, tail, by rw [← hframes, h.bytes], hsmall, hfold, ?_, htail⟩
    rw [hframes, Nat.zero_add]
  rw [replaySegment_of_read hread]
  rcases h.tail with rfl | ⟨rfl, symbols, rfl, hsymbols⟩
  · rw [hreplay false (.inl ⟨rfl, rfl⟩)]
    refine ⟨rfl, ?_, fun _ _ => rfl⟩
    show dir.read seq = _
    rw [hread, h.bytes, List.append_nil]
  · rw [hreplay true (.inr ⟨symbols, rfl, fun b hb => ?_, rfl⟩)]
    · refine ⟨rfl, ?_, fun other hother => ?_⟩
      · show (dir.modify seq _).read seq = _
        rw [Dir.read_modify, if_pos rfl, hread, Option.map_some, h.bytes, List.take_left' rfl]
      · show (dir.modify seq _).read other = _
        rw [Dir.read_modify, if_neg hother]
    · exact isSymbol_frameFormat.2 (hsymbols b hb)

/-- Recovery takes exactly the segments of complete, accepted frames, and cuts the tail of a final
one; anything else is corrupt and stays.  The scan ends, in range, on every byte string. -/
theorem replaySegment_grammar (m : Marshaler LogRecord) (dir : Dir) (seq : Nat) (buf : Bytes)
    (hread : dir.read seq = some buf) (s : MemStorage) (final : Bool) :
    (∀ s', (replaySegment m dir s seq final).2 = .ok s' ↔
        ∃ frames records tail, Segment m final s buf frames records tail s') ∧
      (∀ frames records tail s', Segment m final s buf frames records tail s' →
        (replaySegment m dir s seq final).1.read seq = some frames.flatten ∧
          ∀ other ≠ seq, (replaySegment m dir s seq final).1.read other = dir.read other) ∧
      (∀ err, (replaySegment m dir s seq final).2 = .error err →
        err.isCorrupt = true ∧ (replaySegment m dir s seq final).1 = dir) ∧
      ∀ fuel, buf.length < fuel → frameFormat.replayBuffer (applyPayload m) buf fuel s 0 =
        Checked.returned (frameFormat.replayFrom (applyPayload m) s 0 buf) := by
  refine ⟨fun s' => ⟨fun h => ?_, ?_⟩, ?_, fun err h => ?_, fun fuel hfuel => ?_⟩
  · rw [replaySegment_of_read hread] at h
    cases hreplay : frameFormat.replayFrom (applyPayload m) s 0 buf with
    | error fault =>
      rw [hreplay] at h
      cases h
    | ok r =>
      obtain ⟨payloads, tail, hbytes, hsmall, hfold, -, htail⟩ :=
        (frameFormat.replayFrom_eq_ok_iff (applyPayload m)).1 hreplay
      obtain ⟨frames, records, hframes, hcomplete, haccepted⟩ :=
        foldlM_applyPayload_iff.1 ⟨payloads, rfl, hsmall, hfold⟩
      rw [hreplay] at h
      dsimp only at h
      rcases htail with ⟨rfl, htorn⟩ | ⟨symbols, rfl, hsymbols, htorn⟩
      · rw [htorn] at h
        cases h
        exact ⟨frames, records, [], by rw [hbytes, hframes], hcomplete, haccepted, .inl rfl⟩
      · rw [htorn] at h
        cases final with
        | false => cases h
        | true =>
          cases h
          refine ⟨frames, records, frameFormat.start :: symbols, by rw [hbytes, hframes], hcomplete,
            haccepted, .inr ⟨rfl, symbols, rfl, fun b hb => ?_⟩⟩
          exact isSymbol_frameFormat.1 (hsymbols b hb)
  · rintro ⟨frames, records, tail, hsegment⟩
    exact (hsegment.replay hread).1
  · exact fun frames records tail s' hsegment => (hsegment.replay hread).2
  · rw [replaySegment_of_read hread] at h ⊢
    cases hreplay : frameFormat.replayFrom (applyPayload m) s 0 buf with
    | error fault =>
      rw [hreplay] at h
      cases h
      exact ⟨rfl, rfl⟩
    | ok r =>
      rw [hreplay] at h
      dsimp only at h ⊢
      cases htorn : r.torn with
      | false =>
        rw [htorn] at h
        cases h
      | true =>
        rw [htorn] at h
        cases final with
        | true => cases h
        | false =>
          cases h
          exact ⟨rfl, rfl⟩
  · rw [frameFormat.replayBuffer_eq (applyPayload m) buf s (Nat.zero_le _) hfuel]
    rfl

/-- A final segment that ends inside its second frame. -/
theorem replaySegment_grammar_torn :
    let frame := frameFormat.frame (recordWire.put (.hardState ⟨2, 1⟩))
    let dir : Dir := [(1, frame ++ [0xFA, 0x41])]
    (replaySegment recordWire.marshaler dir MemStorage.empty 1 true).2 = .ok ⟨⟨2, 1⟩, []⟩ ∧
      (replaySegment recordWire.marshaler dir MemStorage.empty 1 true).1.read 1 = some frame := by
  intro frame dir
  have h := replaySegment_grammar recordWire.marshaler dir 1 (frame ++ [0xFA, 0x41]) rfl
    MemStorage.empty true
  have hsymbols : ∀ b ∈ ([0x41] : Bytes), 0x40 ≤ b ∧ b ≤ 0x4F := by
    intro b hb
    cases List.mem_singleton.1 hb
    decide
  have hsegment : Segment recordWire.marshaler true MemStorage.empty (frame ++ [0xFA, 0x41]) [frame]
      [.hardState ⟨2, 1⟩] [0xFA, 0x41] ⟨⟨2, 1⟩, []⟩ := by
    refine ⟨by simp, .cons (completeFrame_iff.2 ⟨recordWire.put (.hardState ⟨2, 1⟩), by decide, rfl,
      recordWire.marshaler_roundTrips (.hardState ⟨2, 1⟩), rfl⟩) .nil, rfl, .inr ⟨rfl, [0x41], rfl, hsymbols⟩⟩
  exact ⟨(h.1 _).2 ⟨_, _, _, hsegment⟩, by simpa using (h.2.1 _ _ _ _ hsegment).1⟩

end MiniQuorum.Storage
