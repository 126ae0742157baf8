import MiniQuorum.Sim.CrashStorage
import MiniQuorum.Storage.Recovery

/-! The records of the simulator's storage read back, and every prefix of their bytes parses
to the records it holds completely. -/

namespace MiniQuorum.Sim

open Raft Codec Storage

/-! ### Values of the source's types -/

def TypedEntryType : EntryType → Prop
  | .unrecognized value => -2 ^ 31 ≤ value ∧ value < 2 ^ 31 ∧ value ≠ 0 ∧ value ≠ 1 ∧ value ≠ 2
  | _ => True

structure TypedEntry (e : Entry) : Prop where
  index : e.index < 2 ^ 64
  term : e.term < 2 ^ 64
  type : TypedEntryType e.type

structure TypedHardState (hs : HardState) : Prop where
  term : hs.term < 2 ^ 64
  votedFor : hs.votedFor < 2 ^ 64

theorem entryType_roundTrip {type : EntryType} (h : TypedEntryType type) :
    (entryTypeValue type % 2 ^ 32).toNat < 2 ^ 32 ∧
      entryTypeOf (int32Of (entryTypeValue type % 2 ^ 32).toNat) = type := by
  cases type with
  | unspecified => decide
  | normal => decide
  | noop => decide
  | unrecognized value =>
    obtain ⟨hlow, hhigh, h0, h1, h2⟩ := h
    have hvalue : int32Of (value % 2 ^ 32).toNat = value := by
      rw [int32Of]
      split <;> omega
    refine ⟨by simp only [entryTypeValue]; omega, ?_⟩
    rw [entryTypeValue, hvalue, entryTypeOf, if_neg h0, if_neg h1, if_neg h2]

theorem ofLittleEndian_of_lt {k n : Nat} (h : n < 256 ^ k) : ofLittleEndian (littleEndian k n) = n := by
  rw [ofLittleEndian_littleEndian, Nat.mod_eq_of_lt h]

/-! ### Entries -/

@[simp] theorem length_entryBytes (e : Entry) : (entryBytes e).length = 24 + e.data.length := by
  simp only [entryBytes, List.length_append, length_littleEndian]
  omega

theorem decodeEntries_entryBytes {e : Entry} (he : TypedEntry e) (hdata : e.data.length < 2 ^ 32)
    (count i : Nat) (rest : Bytes) :
    decodeEntries (count + 1) i (entryBytes e ++ rest) = (do
      let (entries, tail) ← decodeEntries count (i + 1) rest
      return (e :: entries, tail)) := by
  obtain ⟨htype, hback⟩ := entryType_roundTrip he.type
  have h8 : (entryBytes e ++ rest).drop 8 = littleEndian 8 e.term ++
      (littleEndian 4 (entryTypeValue e.type % 2 ^ 32).toNat ++
        (littleEndian 4 e.data.length ++ (e.data ++ rest))) := by
    simp only [entryBytes, List.append_assoc]
    rw [List.drop_left' (length_littleEndian 8 _)]
  have h16 : (entryBytes e ++ rest).drop 16 =
      littleEndian 4 (entryTypeValue e.type % 2 ^ 32).toNat ++
        (littleEndian 4 e.data.length ++ (e.data ++ rest)) := by
    rw [show 16 = 8 + 8 from rfl, ← List.drop_drop, h8, List.drop_left' (length_littleEndian 8 _)]
  have h20 : (entryBytes e ++ rest).drop 20 = littleEndian 4 e.data.length ++ (e.data ++ rest) := by
    rw [show 20 = 16 + 4 from rfl, ← List.drop_drop, h16, List.drop_left' (length_littleEndian 4 _)]
  have h24 : (entryBytes e ++ rest).drop 24 = e.data ++ rest := by
    rw [show 24 = 20 + 4 from rfl, ← List.drop_drop, h20, List.drop_left' (length_littleEndian 4 _)]
  have hindex : ofLittleEndian ((entryBytes e ++ rest).take 8) = e.index := by
    rw [entryBytes, List.append_assoc, List.take_left' (length_littleEndian 8 _),
      ofLittleEndian_of_lt he.index]
  have hterm : ofLittleEndian (((entryBytes e ++ rest).drop 8).take 8) = e.term := by
    rw [h8, List.take_left' (length_littleEndian 8 _), ofLittleEndian_of_lt he.term]
  have hkind : ofLittleEndian (((entryBytes e ++ rest).drop 16).take 4) =
      (entryTypeValue e.type % 2 ^ 32).toNat := by
    rw [h16, List.take_left' (length_littleEndian 4 _), ofLittleEndian_of_lt htype]
  have hsize : ofLittleEndian (((entryBytes e ++ rest).drop 20).take 4) = e.data.length := by
    rw [h20, List.take_left' (length_littleEndian 4 _), ofLittleEndian_of_lt hdata]
  have hlength : (entryBytes e ++ rest).length = 24 + e.data.length + rest.length := by
    rw [List.length_append, length_entryBytes]
  rw [decodeEntries, if_neg (by omega)]
  simp only [hsize, hindex, hterm, hkind, hback, h24, List.take_left]
  rw [if_neg (by omega), List.drop_left' (length_entryBytes e)]

theorem dataLen_take_entryBytes {e : Entry} (hdata : e.data.length < 2 ^ 32) (rest : Bytes)
    {k : Nat} (hk : 24 ≤ k) :
    ofLittleEndian ((((entryBytes e ++ rest).take k).drop 20).take 4) = e.data.length := by
  have hheader : (littleEndian 8 e.index ++ littleEndian 8 e.term ++
      littleEndian 4 (entryTypeValue e.type % 2 ^ 32).toNat).length = 20 := by
    simp
  have hsplit : entryBytes e ++ rest = (littleEndian 8 e.index ++ littleEndian 8 e.term ++
      littleEndian 4 (entryTypeValue e.type % 2 ^ 32).toNat) ++
        (littleEndian 4 e.data.length ++ (e.data ++ rest)) := by
    simp only [entryBytes, List.append_assoc]
  rw [List.drop_take, List.take_take, min_eq_left (by omega), hsplit, List.drop_left' hheader,
    List.take_left' (length_littleEndian 4 _), ofLittleEndian_of_lt hdata]

theorem decodeEntries_flatMap {entries : List Entry} (htyped : ∀ e ∈ entries, TypedEntry e)
    (hdata : ∀ e ∈ entries, e.data.length < 2 ^ 32) (i : Nat) (rest : Bytes) :
    decodeEntries entries.length i (entries.flatMap entryBytes ++ rest) = .ok (entries, rest) := by
  induction entries generalizing i with
  | nil => rfl
  | cons e entries ih =>
    rw [List.flatMap_cons, List.append_assoc, List.length_cons,
      decodeEntries_entryBytes (htyped e (by simp)) (hdata e (by simp)),
      ih (fun q hq => htyped q (by simp [hq])) (fun q hq => hdata q (by simp [hq]))]
    rfl

/-- A cut batch does not hold as many entries as were counted. -/
theorem decodeEntries_short {entries : List Entry} (htyped : ∀ e ∈ entries, TypedEntry e)
    (hdata : ∀ e ∈ entries, e.data.length < 2 ^ 32) (i : Nat) {k : Nat}
    (hk : k < (entries.flatMap entryBytes).length) :
    ∃ err, decodeEntries entries.length i ((entries.flatMap entryBytes).take k) = .error err := by
  induction entries generalizing i k with
  | nil => exact absurd hk (Nat.not_lt_zero _)
  | cons e entries ih =>
    have hlen : ((entryBytes e ++ entries.flatMap entryBytes).take k).length = k := by
      rw [List.length_take]
      exact min_eq_left hk.le
    rw [List.flatMap_cons, List.length_append, length_entryBytes] at hk
    rw [List.flatMap_cons, List.length_cons]
    by_cases hwhole : 24 + e.data.length ≤ k
    · obtain ⟨err, herr⟩ := ih (fun q hq => htyped q (by simp [hq]))
        (fun q hq => hdata q (by simp [hq])) (i + 1) (k := k - (24 + e.data.length)) (by omega)
      refine ⟨err, ?_⟩
      rw [List.take_append, length_entryBytes,
        List.take_of_length_le (by rw [length_entryBytes]; exact hwhole),
        decodeEntries_entryBytes (htyped e (by simp)) (hdata e (by simp)), herr]
      rfl
    · rw [decodeEntries, hlen]
      by_cases hheader : k < 24
      · exact ⟨_, if_pos hheader⟩
      · rw [if_neg hheader]
        simp only [dataLen_take_entryBytes (hdata e (by simp)) _ (not_lt.1 hheader)]
        exact ⟨_, if_pos (not_le.1 hwhole)⟩

theorem length_entriesPayload (entries : List Entry) :
    (entriesPayload entries).length = 5 + (entries.flatMap entryBytes).length := by
  simp only [entriesPayload, List.length_cons, List.length_append, length_littleEndian]
  omega

theorem length_le_flatMap_entryBytes (entries : List Entry) :
    entries.length ≤ (entries.flatMap entryBytes).length ∧
      ∀ e ∈ entries, e.data.length ≤ (entries.flatMap entryBytes).length := by
  induction entries with
  | nil => simp
  | cons e entries ih =>
    simp only [List.flatMap_cons, List.length_append, length_entryBytes, List.length_cons,
      List.mem_cons, forall_eq_or_imp]
    refine ⟨by omega, by omega, ?_⟩
    intro q hq
    have := ih.2 q hq
    omega

theorem decodeEntriesBody_entries {entries : List Entry} (hne : entries ≠ [])
    (htyped : ∀ e ∈ entries, TypedEntry e) (hsize : (entriesPayload entries).length < 2 ^ 32) :
    decodeEntriesBody (littleEndian 4 entries.length ++ entries.flatMap entryBytes) =
      .ok entries := by
  rw [length_entriesPayload] at hsize
  obtain ⟨hcount, hdata⟩ := length_le_flatMap_entryBytes entries
  have hzero : entries.length ≠ 0 := by simpa using hne
  have hdecode := decodeEntries_flatMap htyped (fun e he => (hdata e he).trans_lt (by omega)) 0 []
  rw [List.append_nil] at hdecode
  rw [decodeEntriesBody, if_neg (by simp), List.take_left' (length_littleEndian 4 _),
    List.drop_left' (length_littleEndian 4 _), ofLittleEndian_of_lt (by omega)]
  simp only [hzero, if_false, hdecode]
  rfl

/-! ### Records -/

def recordPayload : LogRecord → Bytes
  | .hardState hs => hardStatePayload hs
  | .truncate fromIndex => truncatePayload fromIndex
  | .entries entries => entriesPayload entries
  | .unsupported => []

def Stageable : LogRecord → Prop
  | .hardState hs => TypedHardState hs
  | .truncate fromIndex => 0 < fromIndex ∧ fromIndex < 2 ^ 64
  | .entries entries => entries ≠ [] ∧ ∀ e ∈ entries, TypedEntry e
  | .unsupported => False

def Fits (r : LogRecord) : Prop := (recordPayload r).length < 2 ^ 32

def RecoveredState.of (s : MemStorage) : RecoveredState := ⟨s.hard, s.entries⟩

theorem RecoveredState.view_of (s : MemStorage) : (RecoveredState.of s).view = s := by
  obtain ⟨hard, entries⟩ := s
  cases entries with
  | nil => rfl
  | cons e rest =>
    show (MemStorage.empty.save (some hard) []).save none (e :: rest) = _
    rfl

theorem apply_recordPayload {r : LogRecord} (hr : Stageable r) (hfits : Fits r) (s : MemStorage) :
    (RecoveredState.of s).apply (recordPayload r) = .ok (.of (r.apply s)) := by
  cases r with
  | hardState hs =>
    have hterm : ofLittleEndian ((littleEndian 8 hs.term ++ littleEndian 8 hs.votedFor).take 8) =
        hs.term := by
      rw [List.take_left' (length_littleEndian 8 _), ofLittleEndian_of_lt hr.term]
    have hvoted : ofLittleEndian (((littleEndian 8 hs.term ++
        littleEndian 8 hs.votedFor).drop 8).take 8) = hs.votedFor := by
      rw [List.drop_left' (length_littleEndian 8 _),
        List.take_of_length_le (length_littleEndian 8 _).le, ofLittleEndian_of_lt hr.votedFor]
    rw [recordPayload, hardStatePayload, RecoveredState.apply, if_pos rfl, if_neg (by simp), hterm,
      hvoted]
    rfl
  | truncate fromIndex =>
    have hfrom : ofLittleEndian ((littleEndian 8 fromIndex).take 8) = fromIndex := by
      rw [List.take_of_length_le (length_littleEndian 8 _).le, ofLittleEndian_of_lt hr.2]
    rw [recordPayload, truncatePayload, RecoveredState.apply, if_neg (by decide), if_pos rfl,
      if_neg (by simp)]
    simp only [hfrom, hr.1.ne', if_false]
    rfl
  | entries entries =>
    rw [recordPayload, entriesPayload, RecoveredState.apply, if_neg (by decide),
      if_neg (by decide), if_pos rfl, decodeEntriesBody_entries hr.1 hr.2 hfits]
    cases entries with
    | nil => exact absurd rfl hr.1
    | cons e rest => rfl
  | unsupported => exact hr.elim

theorem apply_take_entriesPayload (s : RecoveredState) {entries : List Entry}
    (htyped : ∀ e ∈ entries, TypedEntry e) (hcount : entries.length < 2 ^ 32)
    (hdata : ∀ e ∈ entries, e.data.length < 2 ^ 32) {k : Nat}
    (hk : k < (entriesPayload entries).length) :
    ∃ err, s.apply ((entriesPayload entries).take k) = .error err := by
  rw [length_entriesPayload] at hk
  cases k with
  | zero => exact ⟨_, rfl⟩
  | succ k =>
    rw [entriesPayload, List.take_succ_cons, RecoveredState.apply, if_neg (by decide),
      if_neg (by decide), if_pos rfl]
    have hbody : ∃ err, decodeEntriesBody
        ((littleEndian 4 entries.length ++ entries.flatMap entryBytes).take k) = .error err := by
      rw [decodeEntriesBody]
      split
      · exact ⟨_, rfl⟩
      · next hcounted =>
        rw [List.length_take, not_lt] at hcounted
        obtain ⟨k, rfl⟩ : ∃ n, k = 4 + n := ⟨k - 4, by omega⟩
        have hsplit : (littleEndian 4 entries.length ++ entries.flatMap entryBytes).take (4 + k) =
            littleEndian 4 entries.length ++ (entries.flatMap entryBytes).take k := by
          rw [List.take_append, length_littleEndian,
            List.take_of_length_le (by rw [length_littleEndian]; omega), Nat.add_sub_cancel_left]
        obtain ⟨err, herr⟩ := decodeEntries_short htyped hdata 0 (k := k) (by omega)
        rw [hsplit, List.take_left' (length_littleEndian 4 _),
          List.drop_left' (length_littleEndian 4 _), ofLittleEndian_of_lt hcount]
        simp only [herr]
        split
        · exact ⟨_, rfl⟩
        · exact ⟨_, rfl⟩
    obtain ⟨err, herr⟩ := hbody
    rw [herr]
    exact ⟨err, rfl⟩

theorem foldlM_apply_recordPayload {rs : List LogRecord} (hrs : ∀ r ∈ rs, Stageable r)
    (hfits : ∀ r ∈ rs, Fits r) (s : MemStorage) :
    (rs.map recordPayload).foldlM RecoveredState.apply (.of s) = .ok (.of (replay s rs)) := by
  induction rs generalizing s with
  | nil => rfl
  | cons r rs ih =>
    exact foldlM_cons_eq_ok.2 ⟨_, apply_recordPayload (hrs r (by simp)) (hfits r (by simp)) s,
      ih (fun q hq => hrs q (by simp [hq])) (fun q hq => hfits q (by simp [hq])) _⟩

def recordImage (rs : List LogRecord) : Bytes :=
  LengthFrame.records (Crc.checksum castagnoli) (rs.map recordPayload)

def completeCount (rs : List LogRecord) (n : Nat) : Nat :=
  LengthFrame.completeRecords (rs.map recordPayload) n

theorem recordImage_append (rs rs' : List LogRecord) :
    recordImage (rs ++ rs') = recordImage rs ++ recordImage rs' := by
  rw [recordImage, List.map_append, LengthFrame.records_append]
  rfl

theorem completeCount_append (rs rs' : List LogRecord) (n : Nat) :
    completeCount (rs ++ rs') ((recordImage rs).length + n) = rs.length + completeCount rs' n := by
  rw [completeCount, List.map_append, recordImage, LengthFrame.completeRecords_append,
    List.length_map]
  rfl

theorem parseRecords_take {rs : List LogRecord} (hrs : ∀ r ∈ rs, Stageable r)
    (hfits : ∀ r ∈ rs, Fits r) (n : Nat) :
    parseRecords ((recordImage rs).take n) =
      .ok (replay MemStorage.empty (rs.take (completeCount rs n)),
        (recordImage (rs.take (completeCount rs n))).length) := by
  have hlen : ∀ p ∈ rs.map recordPayload, p.length < 2 ^ 32 := by
    intro p hp
    obtain ⟨r, hr, rfl⟩ := List.mem_map.1 hp
    exact hfits r hr
  have hfold : ((rs.take (completeCount rs n)).map recordPayload).foldlM RecoveredState.apply
      (.of MemStorage.empty) = .ok (.of (replay MemStorage.empty (rs.take (completeCount rs n)))) :=
    foldlM_apply_recordPayload (fun r hr => hrs r (List.mem_of_mem_take hr))
      (fun r hr => hfits r (List.mem_of_mem_take hr)) _
  rw [List.map_take] at hfold
  rw [parseRecords, recordImage]
  show (LengthFrame.scan _ _ (RecoveredState.of MemStorage.empty) _ >>= _) = _
  rw [LengthFrame.scan_take hlen n hfold]
  show Except.ok ((RecoveredState.of _).view, _) = _
  rw [RecoveredState.view_of, ← List.map_take]
  rfl

/-- A payload of `2 ^ 32` bytes or more is read at the remainder of its length, where it does not
hold the entries it counts. -/
theorem parseRecords_wide {rs : List LogRecord} (hrs : ∀ r ∈ rs, Stageable r)
    (hfits : ∀ r ∈ rs, Fits r) {entries : List Entry} (htyped : ∀ e ∈ entries, TypedEntry e)
    (hcount : entries.length < 2 ^ 32) (hdata : ∀ e ∈ entries, e.data.length < 2 ^ 32)
    (hwide : ¬ Fits (.entries entries)) :
    ∃ err, parseRecords (recordImage (rs ++ [.entries entries])) = .error err := by
  have hlen : ∀ p ∈ rs.map recordPayload, p.length < 2 ^ 32 := by
    intro p hp
    obtain ⟨r, hr, rfl⟩ := List.mem_map.1 hp
    exact hfits r hr
  have hsize : 2 ^ 32 ≤ (entriesPayload entries).length := not_lt.1 hwide
  have hless := Nat.mod_lt (entriesPayload entries).length (Nat.two_pow_pos 32)
  obtain ⟨err, herr⟩ := LengthFrame.scan_wide hlen
    (foldlM_apply_recordPayload hrs hfits MemStorage.empty) hsize
    (apply_take_entriesPayload _ htyped hcount hdata (hless.trans_le hsize))
  refine ⟨err, ?_⟩
  rw [parseRecords, recordImage, List.map_append]
  show (LengthFrame.scan _ _ (RecoveredState.of MemStorage.empty) _ >>= _) = _
  rw [List.map_singleton, recordPayload, herr]
  rfl

end MiniQuorum.Sim
