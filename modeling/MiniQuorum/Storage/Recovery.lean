import MiniQuorum.Raft.Contiguous
import MiniQuorum.Storage.DiskLog

namespace MiniQuorum.Storage

open Raft Codec

/-! ### Contiguity -/

def Extends (last : Nat) (entries : List Entry) : Prop :=
  ∀ e ∈ entries.head?, 1 ≤ e.index ∧ e.index ≤ last + 1 ∧ NumberedFrom e.index entries

theorem firstGap_eq_none_iff (e : Entry) (rest : List Entry) :
    firstGap (e :: rest) = none ↔ NumberedFrom e.index (e :: rest) := by
  induction rest generalizing e with
  | nil => simp [firstGap, NumberedFrom]
  | cons b rest ih =>
    rw [firstGap]
    by_cases hb : b.index = e.index + 1
    · rw [if_neg (by simpa using hb), ih, hb, NumberedFrom.eq_2 e.index]
      simp
    · simp [hb, NumberedFrom]

theorem checkContiguous_eq_ok_iff (entries : List Entry) (last : Nat) :
    checkContiguous entries last = .ok () ↔ Extends last entries := by
  cases entries with
  | nil => simp [checkContiguous, Extends]
  | cons e rest =>
    simp only [checkContiguous, Extends, List.head?_cons, Option.mem_some_iff, forall_eq']
    by_cases hfirst : e.index = 0 ∨ e.index > last + 1
    · rw [if_pos hfirst]
      simp only [reduceCtorEq, false_iff]
      omega
    · rw [if_neg hfirst, ← firstGap_eq_none_iff]
      cases firstGap (e :: rest) with
      | none => simp; omega
      | some gap => simp

theorem checkContiguous_ne_write (entries : List Entry) (last seq : Nat) :
    checkContiguous entries last ≠ .error (.write seq) := by
  cases entries with
  | nil => nofun
  | cons e rest =>
    rw [checkContiguous]
    split
    · nofun
    · split <;> nofun

theorem lastIndex_of_numbered {entries : List Entry} (h : NumberedFrom 1 entries) :
    lastIndex entries = entries.length := by
  cases entries with
  | nil => rfl
  | cons e rest =>
    have hlast : (e :: rest)[rest.length]? = some ((e :: rest).getLast (by simp)) := by
      simp [List.getLast_eq_getElem]
    show ((e :: rest).getLast _).index = _
    rw [h.getElem? hlast, List.length_cons, Nat.add_comm]

/-! ### Records -/

variable {s s' : MemStorage} {r : LogRecord} {rs : List LogRecord} {m : Marshaler LogRecord}
  {batch : Bytes}

theorem applyRecord_eq_apply (h : applyRecord s r = .ok s') : s' = r.apply s := by
  cases r with
  | hardState hs =>
    cases h
    rfl
  | truncate fromIndex =>
    rw [applyRecord] at h
    split at h
    · cases h
    · cases h
      rfl
  | entries incoming =>
    cases incoming with
    | nil => cases h
    | cons e rest =>
      rw [applyRecord] at h
      split at h
      · cases h
      · split at h
        · cases h
        · cases h
          rfl
  | unsupported => cases h

theorem applyRecord_numbered (h : applyRecord s r = .ok s') (hs : NumberedFrom 1 s.entries) :
    NumberedFrom 1 s'.entries := by
  have hcut (index : Nat) : NumberedFrom 1 (truncateEntries s index).entries :=
    hs.mono <| List.takeWhile_prefix _
  cases r with
  | hardState =>
    cases h
    exact hs
  | truncate fromIndex =>
    rw [applyRecord_eq_apply h]
    exact hcut fromIndex
  | entries incoming =>
    cases incoming with
    | nil => cases h
    | cons e rest =>
      rw [applyRecord] at h
      split at h
      · cases h
      · rename_i hfirst
        split at h
        · cases h
        · rename_i hgap
          cases h
          refine numberedFrom_append.mpr ⟨hcut e.index, ?_⟩
          rw [lastIndex_of_numbered hs] at hfirst
          have hlen : (truncateEntries s e.index).entries.length = e.index - 1 := by
            have htake := hs.takeWhile (k := e.index - 1)
            rw [show 1 + (e.index - 1) = e.index by omega] at htake
            show (s.entries.takeWhile _).length = _
            rw [htake, List.length_take]
            omega
          rw [hlen, show 1 + (e.index - 1) = e.index by omega]
          exact (firstGap_eq_none_iff e rest).mp hgap
  | unsupported => cases h

theorem foldlM_applyRecord_eq_replay (h : rs.foldlM applyRecord s = .ok s') : s' = replay s rs := by
  induction rs generalizing s with
  | nil =>
    cases h
    rfl
  | cons r rs ih =>
    obtain ⟨t, hr, h⟩ := foldlM_cons_eq_ok.mp h
    rw [ih h, applyRecord_eq_apply hr]
    rfl

theorem foldlM_applyRecord_numbered (h : rs.foldlM applyRecord s = .ok s') (hs : NumberedFrom 1 s.entries) :
    NumberedFrom 1 s'.entries := by
  induction rs generalizing s with
  | nil =>
    cases h
    exact hs
  | cons r rs ih =>
    obtain ⟨t, hr, h⟩ := foldlM_cons_eq_ok.mp h
    exact ih h (applyRecord_numbered hr hs)

theorem replay_batchRecords (s : MemStorage) (hs : Option HardState) (entries : List Entry) :
    replay s (batchRecords hs entries s.lastIndex) = s.save hs entries := by
  have hentries (t : MemStorage) (last : Nat) : replay t (entryRecords entries last) =
      t.save none entries := by
    cases entries with
    | nil => rfl
    | cons e rest =>
      rw [entryRecords]
      split
      · show MemStorage.mk t.hard
          (MemStorage.cut (MemStorage.cut t.entries e.index) e.index ++ e :: rest) = _
        rw [MemStorage.cut_cut]
        rfl
      · rfl
  cases hs with
  | none => exact hentries s s.lastIndex
  | some hs => exact hentries { s with hard := hs } s.lastIndex

theorem batchRecords_apply (hs : Option HardState) {entries : List Entry}
    (hnum : NumberedFrom 1 s.entries) (hext : Extends s.lastIndex entries) :
    (batchRecords hs entries s.lastIndex).foldlM applyRecord s = .ok (s.save hs entries) := by
  have hentries (t : MemStorage) (ht : t.entries = s.entries) :
      ∃ t', (entryRecords entries s.lastIndex).foldlM applyRecord t = .ok t' := by
    cases entries with
    | nil => exact ⟨t, rfl⟩
    | cons e rest =>
      obtain ⟨hpos, hle, hrun⟩ := hext e rfl
      have hgap := (firstGap_eq_none_iff e rest).mpr hrun
      have hlast : s.lastIndex = s.entries.length := lastIndex_of_numbered hnum
      have happend (u : MemStorage) (hu : e.index ≤ lastIndex u.entries + 1) :
          ∃ t', applyRecord u (.entries (e :: rest)) = .ok t' := by
        rw [applyRecord, if_neg (by omega), hgap]
        exact ⟨_, rfl⟩
      rw [entryRecords]
      split
      · -- The truncation leaves exactly the entries below the first new one.
        have hcut : lastIndex (truncateEntries t e.index).entries = e.index - 1 := by
          have hprefix : NumberedFrom 1 (truncateEntries t e.index).entries := by
            rw [← ht] at hnum
            exact hnum.mono <| List.takeWhile_prefix _
          rw [lastIndex_of_numbered hprefix]
          have htake := hnum.takeWhile (k := e.index - 1)
          rw [show 1 + (e.index - 1) = e.index by omega] at htake
          show (t.entries.takeWhile _).length = _
          rw [ht, htake, List.length_take]
          omega
        obtain ⟨t', ht'⟩ := happend (truncateEntries t e.index) (by omega)
        refine ⟨t', foldlM_cons_eq_ok.mpr ⟨_, ?_, foldlM_cons_eq_ok.mpr ⟨t', ht', rfl⟩⟩⟩
        rw [applyRecord, if_neg (by omega)]
      · obtain ⟨t', ht'⟩ := happend t (by rw [ht]; exact hle)
        exact ⟨t', foldlM_cons_eq_ok.mpr ⟨t', ht', rfl⟩⟩
  obtain ⟨s', hs'⟩ : ∃ s', (batchRecords hs entries s.lastIndex).foldlM applyRecord s = .ok s' := by
    cases hs with
    | none => exact hentries s rfl
    | some hs =>
      obtain ⟨t', ht'⟩ := hentries { s with hard := hs } rfl
      exact ⟨t', foldlM_cons_eq_ok.mpr ⟨_, rfl, ht'⟩⟩
  rw [hs', foldlM_applyRecord_eq_replay hs', replay_batchRecords]

theorem batchRecords_take_apply (hs : Option HardState) {entries : List Entry}
    (hnum : NumberedFrom 1 s.entries) (hext : Extends s.lastIndex entries) (k : Nat) :
    ((batchRecords hs entries s.lastIndex).take k).foldlM applyRecord s =
      .ok (s.tornSave hs entries k) := by
  have hall := batchRecords_apply hs hnum hext
  rw [← List.take_append_drop k (batchRecords hs entries s.lastIndex)] at hall
  obtain ⟨t, ht, -⟩ := foldlM_append_eq_ok.mp hall
  rw [ht, foldlM_applyRecord_eq_replay ht]
  rfl

theorem applyPayload_marshal (hm : m.RoundTrips) {s s' : MemStorage}
    {r : LogRecord} (h : applyRecord s r = .ok s') : applyPayload m s (m.marshal r) = .ok s' := by
  rw [applyPayload, hm r]
  cases r with
  | unsupported => cases h
  | _ => exact h

theorem foldlM_applyPayload (hm : m.RoundTrips) {s s' : MemStorage}
    {rs : List LogRecord} (h : rs.foldlM applyRecord s = .ok s') :
    (rs.map m.marshal).foldlM (applyPayload m) s = .ok s' := by
  induction rs generalizing s with
  | nil => exact h
  | cons r rs ih =>
    obtain ⟨t, hr, h⟩ := foldlM_cons_eq_ok.mp h
    exact foldlM_cons_eq_ok.mpr ⟨t, applyPayload_marshal hm hr, ih h⟩

/-! ### Batches -/

def image (m : Marshaler LogRecord) (rs : List LogRecord) : Bytes :=
  frameFormat.frames (rs.map m.marshal)

theorem image_append (m : Marshaler LogRecord) (rs rs' : List LogRecord) :
    image m (rs ++ rs') = image m rs ++ image m rs' := by
  rw [image, List.map_append, Format.frames_append]
  rfl

def Fits (m : Marshaler LogRecord) (rs : List LogRecord) : Prop :=
  ∀ r ∈ rs, (m.marshal r).length ≤ maxUint32

theorem appendFrame_of_le (hr : (m.marshal r).length ≤ maxUint32) (hb : batch.length ≤ 2 ^ 40) :
    appendFrame m batch r = .ok (batch ++ frameFormat.frame (m.marshal r)) := by
  have htotal : batch.length + (2 + (8 + (m.marshal r).length) * 2) ≤ maxInt64 := by
    simp only [maxUint32, maxInt64] at *
    omega
  have hwide : maxInt64 ≤ 2 ^ 64 - 1 := by decide
  rw [appendFrame, if_neg (by omega), checkedFrameSize_of_le hr]
  dsimp only
  rw [checkedAdd_of_le (by omega)]
  dsimp only
  rw [checkedInt_of_le (by omega), checkedInt_of_le htotal]
  rfl

theorem appendFrame_eq_ok {bytes : Bytes}
    (h : appendFrame m batch r = .ok bytes) :
    (m.marshal r).length ≤ maxUint32 ∧ bytes = batch ++ frameFormat.frame (m.marshal r) := by
  rw [appendFrame] at h
  split at h
  · cases h
  · split at h
    · cases h
    · split at h
      · cases h
      · split at h
        · cases h
        · split at h
          · cases h
          · cases h
            exact ⟨by omega, rfl⟩

theorem foldlM_appendFrame_eq_ok {bytes : Bytes} (h : rs.foldlM (appendFrame m) batch = .ok bytes) :
    Fits m rs ∧ bytes = batch ++ image m rs := by
  induction rs generalizing batch with
  | nil =>
    cases h
    exact ⟨by simp [Fits], by simp [image]⟩
  | cons r rs ih =>
    obtain ⟨t, hr, h⟩ := foldlM_cons_eq_ok.mp h
    obtain ⟨hlen, rfl⟩ := appendFrame_eq_ok hr
    obtain ⟨hfits, rfl⟩ := ih h
    refine ⟨?_, by simp [image]⟩
    simpa [Fits, hlen] using hfits

theorem foldlM_appendFrame_ne_write (m : Marshaler LogRecord) (rs : List LogRecord) (batch : Bytes)
    (seq : Nat) : rs.foldlM (appendFrame m) batch ≠ .error (.write seq) := by
  induction rs generalizing batch with
  | nil => nofun
  | cons r rs ih =>
    rw [List.foldlM_cons]
    cases h : appendFrame m batch r with
    | ok bytes => exact ih bytes
    | error e =>
      rintro ⟨⟩
      rw [appendFrame] at h
      repeat' split at h
      all_goals cases h

theorem batchRecords_length (hs : Option HardState) (entries : List Entry) (last : Nat) :
    (batchRecords hs entries last).length ≤ 3 := by
  have hentries : (entryRecords entries last).length ≤ 2 := by
    cases entries with
    | nil => simp [entryRecords]
    | cons e rest =>
      rw [entryRecords]
      split <;> simp
  have hhard : (hs.map LogRecord.hardState).toList.length ≤ 1 := by cases hs <;> simp
  rw [batchRecords, List.length_append]
  omega

theorem foldlM_appendFrame_of_fits (hfits : Fits m rs) {batch : Bytes} (hb : batch.length + rs.length * 2 ^ 34 ≤ 2 ^ 40) :
    rs.foldlM (appendFrame m) batch = .ok (batch ++ image m rs) := by
  induction rs generalizing batch with
  | nil => simp [image, pure, Except.pure]
  | cons r rs ih =>
    have hr := hfits r (by simp)
    have hlen : (frameFormat.frame (m.marshal r)).length ≤ 2 ^ 34 := by
      rw [Format.length_frame]
      simp only [maxUint32] at hr
      omega
    rw [List.length_cons] at hb
    rw [foldlM_cons_eq_ok]
    refine ⟨_, appendFrame_of_le hr (by omega), ?_⟩
    rw [ih (fun q hq => hfits q (by simp [hq])) (by rw [List.length_append]; omega)]
    simp [image]

theorem encodeBatch_eq_ok_iff (m : Marshaler LogRecord) (hs : Option HardState)
    (entries : List Entry) (last : Nat) (batch : Bytes) :
    encodeBatch m hs entries last = .ok batch ↔
      Fits m (batchRecords hs entries last) ∧ batch = image m (batchRecords hs entries last) := by
  constructor
  · intro h
    simpa using foldlM_appendFrame_eq_ok h
  · rintro ⟨hfits, rfl⟩
    have hlen := batchRecords_length hs entries last
    exact foldlM_appendFrame_of_fits hfits (by simp; omega)

end MiniQuorum.Storage
