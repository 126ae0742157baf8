import MiniQuorum.Lsm.TableIterator
import MiniQuorum.Program.Checked

/-! Reading a table with every access, offset and conversion checked.  No bytes make one fail. -/

namespace MiniQuorum.Lsm

open Codec Program Checked

def fixedChecked (width : Nat) (bytes : Bytes) : Except (Halt Err) Nat :=
  if width ≤ bytes.length then .ok (ofLittleEndian (bytes.take width)) else .error (.trap .index)

theorem fixedChecked_of_le {width : Nat} {bytes : Bytes} (h : width ≤ bytes.length) :
    fixedChecked width bytes = .ok (ofLittleEndian (bytes.take width)) :=
  if_pos h

def corruptChecked {α : Type} (message : String) : Except (Halt Err) α :=
  .error (.error (.corrupt message))

theorem sized_checkedInt {n : Nat} (h : n ≤ maxInt64) :
    (sized (checkedInt n) : Except (Halt Err) Nat) = .ok n := by
  rw [checkedInt_of_le h]
  rfl

theorem sized_checkedAdd {a b : Nat} (h : a + b < 2 ^ 64) :
    (sized (checkedAdd a b) : Except (Halt Err) Nat) = .ok (a + b) := by
  rw [checkedAdd_of_le (by omega)]
  rfl

theorem unsigned_eq {i : Int} {n : Nat} (h : i = n) :
    (unsigned i : Except (Halt Err) Nat) = .ok n := by
  rw [h, unsigned_of_nonneg (Int.natCast_nonneg n), Int.toNat_natCast]

section Steps

variable {α β : Type}

theorem known_eq {x : Except (Halt Err) α} {a : α} {g : α → Except (Halt Err) β} {r : Except Err β}
    (hx : x = .ok a) (h : g a = returned r) : (x >>= g) = returned r := by
  rw [hx]
  exact h

theorem check_eq {c c' : Prop} [Decidable c] [Decidable c'] (hc : c ↔ c') {message : String}
    {x : Except (Halt Err) β} {y : Except Err β} (h : ¬c → x = returned y) :
    (if c then corruptChecked message else x) =
      returned (if c' then .error (.corrupt message) else y) := by
  by_cases hcase : c
  · rw [if_pos hcase, if_pos (hc.1 hcase)]
    rfl
  · rw [if_neg hcase, if_neg (fun h' => hcase (hc.2 h'))]
    exact h hcase

theorem uvarint_eq {data : Bytes} {message : String} {g : Nat → Nat → Except (Halt Err) β}
    {f : Nat → Bytes → Except Err β}
    (h : ∀ n rest, rest.length < data.length → data.drop (data.length - rest.length) = rest →
      g n (data.length - rest.length) = returned (f n rest)) :
    (match uvarintSize data with
      | none => corruptChecked message
      | some (n, size) => g n size) =
    returned (match uvarint data with
      | none => .error (.corrupt message)
      | some (n, rest) => f n rest) := by
  cases hdata : uvarint data with
  | none =>
    rw [uvarintSize_of_none hdata]
    rfl
  | some r =>
    rw [uvarintSize_of_some hdata]
    exact h r.1 r.2 (uvarint_length hdata) (uvarint_eq_drop hdata)

theorem keyed_eq {data : Bytes} (hdata : data.length ≤ maxInt64) (width : Nat)
    {message message' : String} {g : Bytes → Bytes → Except (Halt Err) β}
    {f : Nat → Bytes → Except Err β}
    (h : ∀ keyLen rest, width ≤ (rest.drop keyLen).length → (rest.drop keyLen).length ≤ maxInt64 →
      g (rest.take keyLen) (rest.drop keyLen) = returned (f keyLen rest)) :
    (match uvarintSize data with
      | none => corruptChecked message
      | some (keyLen, n) => do
        let data ← sliceFrom data n
        if keyLen > data.length then corruptChecked message'
        else
          let keyLen ← sized (checkedInt keyLen)
          let left ← int64 (data.length - keyLen)
          if left < width then corruptChecked message'
          else
            let key ← slice data 0 keyLen
            let data ← sliceFrom data keyLen
            g key data) =
    returned (match uvarint data with
      | none => .error (.corrupt message)
      | some (keyLen, data) =>
        if keyLen > data.length ∨ data.length - keyLen < width then .error (.corrupt message')
        else f keyLen data) := by
  have hmax : maxInt64 = 2 ^ 63 - 1 := rfl
  refine uvarint_eq fun keyLen rest hlt hrest => ?_
  refine known_eq (sliceFrom_of_le (Nat.sub_le _ _)) ?_
  rw [hrest]
  by_cases hlong : keyLen > rest.length
  · rw [if_pos hlong, if_pos (.inl hlong)]
    rfl
  rw [if_neg hlong]
  refine known_eq (sized_checkedInt (by omega)) ?_
  refine known_eq (int64_of_le (by omega) (by omega)) ?_
  refine check_eq (by omega) fun hshort => ?_
  refine known_eq (slice_front (by omega)) ?_
  refine known_eq (sliceFrom_of_le (by omega)) ?_
  refine h _ _ ?_ ?_
  · rw [List.length_drop]
    omega
  · rw [List.length_drop]
    omega

end Steps

/-! ### Records -/

def decodeRecordChecked (data : Bytes) : Except (Halt Err) (TableEntry × Bytes) :=
  match uvarintSize data with
  | none => corruptChecked "invalid key length"
  | some (keyLen, n) => do
    let data ← sliceFrom data n
    if keyLen > data.length then corruptChecked "truncated record"
    else
      let keyLen ← sized (checkedInt keyLen)
      let left ← int64 (data.length - keyLen)
      if left < 9 then corruptChecked "truncated record"
      else
        let key ← slice data 0 keyLen
        let data ← sliceFrom data keyLen
        let front ← slice data 0 8
        let seq ← fixedChecked 8 front
        let tombstone ← index data 8
        if tombstone > 1 then corruptChecked "invalid tombstone marker"
        else
          let data ← sliceFrom data 9
          match uvarintSize data with
          | none => corruptChecked "invalid value length"
          | some (valueLen, n) =>
            let left ← int64 (data.length - n)
            let left ← unsigned left
            if valueLen > left then corruptChecked "invalid value length"
            else
              let data ← sliceFrom data n
              if valueLen > data.length ∨ tombstone = 1 ∧ valueLen ≠ 0 then
                corruptChecked "truncated or invalid tombstone value"
              else
                let valueLen ← sized (checkedInt valueLen)
                let value ← if tombstone = 1 then .ok [] else slice data 0 valueLen
                let rest ← sliceFrom data valueLen
                return (⟨key, seq, value, tombstone = 1⟩, rest)

def decodeRecordsLoop : Nat → List TableEntry → Bytes → Except (Halt Err) (List TableEntry)
  | 0, _, _ => .error (.trap .overflow)
  | fuel + 1, entries, data =>
    if data.length ≠ 0 then do
      let (entry, rest) ← decodeRecordChecked data
      if entries.length ≠ 0 then
        let previous ← index entries (entries.length - 1)
        if ¬validSSTableRecordOrder previous.key previous.seq entry.key entry.seq then
          corruptChecked "records are not ordered by key then strictly descending sequence"
        else decodeRecordsLoop fuel (entries ++ [entry]) rest
      else decodeRecordsLoop fuel (entries ++ [entry]) rest
    else return entries

def decodeRecordsChecked (data : Bytes) : Except (Halt Err) (List TableEntry) :=
  decodeRecordsLoop (data.length + 1) [] data

theorem decodeRecordChecked_eq {data : Bytes} (hdata : data.length ≤ maxInt64) :
    decodeRecordChecked data = returned (decodeRecord data) := by
  have hmax : maxInt64 = 2 ^ 63 - 1 := rfl
  rw [decodeRecordChecked, decodeRecord]
  refine keyed_eq hdata 9 fun keyLen rest hlow hhigh => ?_
  dsimp only
  generalize rest.drop keyLen = data at hlow hhigh ⊢
  have hmarker : data[8]? = some (data.getD 8 0) := by
    rw [List.getD_eq_getElem?_getD, List.getElem?_eq_getElem (by omega), Option.getD_some]
  refine known_eq (slice_front (by omega)) ?_
  refine known_eq (fixedChecked_of_le (by rw [List.length_take]; omega)) ?_
  rw [List.take_take, Nat.min_self]
  refine known_eq (index_of_getElem? hmarker) ?_
  generalize data.getD 8 0 = marker
  refine check_eq Iff.rfl fun _ => ?_
  refine known_eq (sliceFrom_of_le hlow) ?_
  have hafter : (data.drop 9).length ≤ maxInt64 := List.length_drop ▸ (Nat.sub_le _ _).trans hhigh
  generalize data.drop 9 = body at hafter
  refine uvarint_eq fun valueLen tail hlt htail => ?_
  refine known_eq (int64_of_le (by omega) (by omega)) ?_
  refine known_eq (unsigned_eq (n := tail.length) (by omega)) ?_
  refine check_eq Iff.rfl fun hbig => ?_
  refine known_eq (sliceFrom_of_le (Nat.sub_le _ _)) ?_
  rw [htail]
  refine check_eq (or_iff_right hbig) fun htomb => ?_
  refine known_eq (sized_checkedInt (by omega)) ?_
  by_cases hone : marker = 1
  · obtain rfl : valueLen = 0 := by
      by_contra hne
      exact htomb (.inr ⟨hone, hne⟩)
    rw [if_pos hone]
    exact known_eq rfl (known_eq (sliceFrom_of_le (by omega)) rfl)
  · rw [if_neg hone]
    exact known_eq (slice_front (by omega)) (known_eq (sliceFrom_of_le (by omega)) rfl)

theorem decodeRecord_length {data rest : Bytes} {entry : TableEntry}
    (h : decodeRecord data = .ok (entry, rest)) : rest.length < data.length := by
  rw [decodeRecord] at h
  cases hkey : uvarint data with
  | none =>
    rw [hkey] at h
    cases h
  | some r =>
    have hlt := uvarint_length hkey
    simp only [hkey] at h
    split at h
    · cases h
    split at h
    · cases h
    cases hvalue : uvarint ((r.2.drop r.1).drop 9) with
    | none =>
      rw [hvalue] at h
      cases h
    | some q =>
      have hlt' := uvarint_length hvalue
      simp only [hvalue] at h
      split at h
      · cases h
      split at h
      · cases h
      cases h
      simp only [List.length_drop] at hlt' ⊢
      omega

theorem index_getLast {α : Type} {xs : List α} {x : α} (h : xs.getLast? = some x) :
    xs.length ≠ 0 ∧ (index xs (xs.length - 1) : Except (Halt Err) α) = .ok x := by
  constructor
  · intro hzero
    rw [List.length_eq_zero_iff.1 hzero] at h
    cases h
  · exact index_of_getElem? (by rw [← List.getLast?_eq_getElem?, h])

theorem map_concat {α : Type} (x : Except Err (List α)) (entries : List α) (entry : α) :
    x.map ((entries ++ [entry]) ++ ·) =
      (x >>= fun later => pure (entry :: later)).map (entries ++ ·) := by
  cases x with
  | error e => rfl
  | ok later => simp [Except.map, bind, Except.bind, pure, Except.pure]

theorem decodeRecordsLoop_eq {fuel : Nat} {entries : List TableEntry} {data : Bytes}
    (hdata : data.length ≤ maxInt64) (hfuel : data.length ≤ fuel) :
    decodeRecordsLoop (fuel + 1) entries data =
      returned ((decodeRecordsFrom fuel entries.getLast? data).map (entries ++ ·)) := by
  induction fuel generalizing entries data with
  | zero =>
    obtain rfl : data = [] := List.length_eq_zero_iff.1 (by omega)
    simp [decodeRecordsLoop, decodeRecordsFrom, Except.map, pure, Except.pure]
  | succ fuel ih =>
    rw [decodeRecordsLoop]
    by_cases hempty : data.length = 0
    · obtain rfl : data = [] := List.length_eq_zero_iff.1 hempty
      simp [decodeRecordsFrom, Except.map, pure, Except.pure]
    have hne : data ≠ [] := fun h => hempty (by rw [h]; rfl)
    rw [if_pos hempty, decodeRecordChecked_eq hdata, decodeRecordsFrom.eq_3 _ _ _ hne]
    cases hrecord : decodeRecord data with
    | error e => rfl
    | ok r =>
      obtain ⟨entry, rest⟩ := r
      have hlt := decodeRecord_length hrecord
      have hrest := @ih (entries ++ [entry]) rest (by omega) (by omega)
      rw [List.getLast?_concat] at hrest
      have hmap := map_concat (decodeRecordsFrom fuel (some entry) rest) entries entry
      simp only [returned_ok, bind, Except.bind] at hmap ⊢
      rw [hrest, hmap]
      cases hlast : entries.getLast? with
      | none =>
        rw [if_neg (by simp [List.getLast?_eq_none_iff.1 hlast])]
        simp
      | some previous =>
        obtain ⟨hlen, hindex⟩ := index_getLast hlast
        rw [if_pos hlen, hindex]
        by_cases horder : validSSTableRecordOrder previous.key previous.seq entry.key entry.seq
        · simp [horder]
        · simp [horder, corruptChecked, Except.map]

theorem decodeRecordsChecked_eq {data : Bytes} (hdata : data.length ≤ maxInt64) :
    decodeRecordsChecked data = returned (decodeRecords data) := by
  rw [decodeRecordsChecked, decodeRecordsLoop_eq hdata le_rfl, decodeRecords, List.getLast?_nil]
  cases decodeRecordsFrom data.length none data <;> rfl

/-! ### Index -/

def decodeIndexEntryChecked (data : Bytes) : Except (Halt Err) (IndexEntry × Bytes) :=
  match uvarintSize data with
  | none => corruptChecked "invalid index key length"
  | some (keyLen, n) => do
    let data ← sliceFrom data n
    if keyLen > data.length then corruptChecked "truncated index entry"
    else
      let keyLen ← sized (checkedInt keyLen)
      let left ← int64 (data.length - keyLen)
      if left < 16 then corruptChecked "truncated index entry"
      else
        let firstKey ← slice data 0 keyLen
        let data ← sliceFrom data keyLen
        let front ← slice data 0 8
        let offset ← fixedChecked 8 front
        let back ← slice data 8 16
        let length ← fixedChecked 8 back
        let rest ← sliceFrom data 16
        return (⟨firstKey, offset, length⟩, rest)

def decodeIndexLoop : Nat → List IndexEntry → Bytes → Except (Halt Err) (List IndexEntry)
  | 0, entries, data =>
    if data.length ≠ 0 then corruptChecked "trailing index bytes" else return entries
  | count + 1, entries, data => do
    let (entry, rest) ← decodeIndexEntryChecked data
    if entry.length < 4 then corruptChecked "invalid index ordering"
    else if entries.length ≠ 0 then
      let last ← index entries (entries.length - 1)
      if ¬last.firstKey < entry.firstKey then corruptChecked "invalid index ordering"
      else decodeIndexLoop count (entries ++ [entry]) rest
    else decodeIndexLoop count (entries ++ [entry]) rest

def decodeIndexChecked (data : Bytes) : Except (Halt Err) (List IndexEntry) :=
  match uvarintSize data with
  | none => corruptChecked "invalid index count"
  | some (count, n) =>
    if count > data.length then corruptChecked "invalid index count"
    else do
      let data ← sliceFrom data n
      let count ← sized (checkedInt count)
      decodeIndexLoop count [] data

def decodeIndexEntry (data : Bytes) : Except Err (IndexEntry × Bytes) :=
  match uvarint data with
  | none => .error (.corrupt "invalid index key length")
  | some (keyLen, data) =>
    if keyLen > data.length ∨ data.length - keyLen < 16 then
      .error (.corrupt "truncated index entry")
    else
      let fixed := data.drop keyLen
      .ok (⟨data.take keyLen, ofLittleEndian (fixed.take 8), ofLittleEndian ((fixed.drop 8).take 8)⟩,
        fixed.drop 16)

theorem decodeIndexFrom_succ (count : Nat) (last : Option IndexEntry) (data : Bytes) :
    decodeIndexFrom (count + 1) last data = (do
      let (entry, rest) ← decodeIndexEntry data
      if entry.length < 4 ∨ last.any (fun p => ¬p.firstKey < entry.firstKey) then
        .error (.corrupt "invalid index ordering")
      else
        let index ← decodeIndexFrom count (some entry) rest
        return entry :: index) := by
  rw [decodeIndexFrom, decodeIndexEntry]
  cases uvarint data with
  | none => rfl
  | some r =>
    dsimp only
    split
    · rfl
    · rfl

theorem decodeIndexEntry_length {data rest : Bytes} {entry : IndexEntry}
    (h : decodeIndexEntry data = .ok (entry, rest)) : rest.length ≤ data.length := by
  rw [decodeIndexEntry] at h
  cases hkey : uvarint data with
  | none =>
    rw [hkey] at h
    cases h
  | some r =>
    have hlt := uvarint_length hkey
    simp only [hkey] at h
    split at h
    · cases h
    · cases h
      simp only [List.length_drop]
      omega

theorem decodeIndexEntryChecked_eq {data : Bytes} (hdata : data.length ≤ maxInt64) :
    decodeIndexEntryChecked data = returned (decodeIndexEntry data) := by
  rw [decodeIndexEntryChecked, decodeIndexEntry]
  refine keyed_eq hdata 16 fun keyLen rest hlow hhigh => ?_
  generalize rest.drop keyLen = fixed at hlow hhigh ⊢
  refine known_eq (slice_front (by omega)) ?_
  refine known_eq (fixedChecked_of_le (by rw [List.length_take]; omega)) ?_
  refine known_eq (slice_of_le (by decide) hlow) ?_
  refine known_eq (fixedChecked_of_le (by rw [List.length_drop, List.length_take]; omega)) ?_
  refine known_eq (sliceFrom_of_le hlow) ?_
  rw [List.take_take, List.drop_take, List.take_take]
  rfl

theorem decodeIndexLoop_eq {count : Nat} {entries : List IndexEntry} {data : Bytes}
    (hdata : data.length ≤ maxInt64) :
    decodeIndexLoop count entries data =
      returned ((decodeIndexFrom count entries.getLast? data).map (entries ++ ·)) := by
  induction count generalizing entries data with
  | zero =>
    rw [decodeIndexLoop, decodeIndexFrom]
    by_cases hempty : data.length = 0
    · obtain rfl : data = [] := List.length_eq_zero_iff.1 hempty
      simp [Except.map, pure, Except.pure]
    · have hne : data ≠ [] := fun h => hempty (by rw [h]; rfl)
      simp [hne, corruptChecked, Except.map]
  | succ count ih =>
    rw [decodeIndexLoop, decodeIndexFrom_succ, decodeIndexEntryChecked_eq hdata]
    cases hentry : decodeIndexEntry data with
    | error e => rfl
    | ok r =>
      obtain ⟨entry, rest⟩ := r
      have hle := decodeIndexEntry_length hentry
      have hrest := @ih (entries ++ [entry]) rest (hle.trans hdata)
      rw [List.getLast?_concat] at hrest
      have hmap := map_concat (decodeIndexFrom count (some entry) rest) entries entry
      simp only [returned_ok, bind, Except.bind] at hmap ⊢
      rw [hrest, hmap]
      by_cases hsmall : entry.length < 4
      · rw [if_pos hsmall, if_pos (.inl hsmall)]
        rfl
      rw [if_neg hsmall]
      cases hlast : entries.getLast? with
      | none =>
        rw [if_neg (by simp [List.getLast?_eq_none_iff.1 hlast]), if_neg (by simpa using hsmall)]
      | some last =>
        obtain ⟨hlen, hindex⟩ := index_getLast hlast
        rw [if_pos hlen, hindex]
        dsimp only
        by_cases horder : last.firstKey < entry.firstKey
        · rw [if_neg (not_not.2 horder), if_neg (not_or.2 ⟨hsmall, by simpa using horder⟩)]
        · rw [if_pos horder, if_pos (.inr (by simpa using horder))]
          rfl

theorem decodeIndexChecked_eq {data : Bytes} (hdata : data.length ≤ maxInt64) :
    decodeIndexChecked data = returned (decodeIndex data) := by
  rw [decodeIndexChecked, decodeIndex]
  refine uvarint_eq fun count rest hlt hrest => ?_
  refine check_eq Iff.rfl fun hcount => ?_
  refine known_eq (sliceFrom_of_le (Nat.sub_le _ _)) ?_
  refine known_eq (sized_checkedInt ((not_lt.1 hcount).trans hdata)) ?_
  rw [hrest, decodeIndexLoop_eq (hlt.le.trans hdata), List.getLast?_nil]
  cases decodeIndexFrom count none rest <;> rfl

/-! ### Steps of a reading -/

section Readings

variable {source : Nat → Nat → Option Bytes} {α β : Type}

theorem step_eq {x : Except (Halt Err) α} {y : Reading Err α} {g : α → Except (Halt Err) β}
    {f : α → Reading Err β} (hx : x = returned (y.eval source .eof))
    (h : ∀ a, y.eval source .eof = .ok a → g a = returned ((f a).eval source .eof)) :
    (x >>= g) = returned ((y >>= f).eval source .eof) := by
  rw [hx, Reading.eval_bind]
  cases hy : y.eval source .eof with
  | error e => rfl
  | ok a => exact h a hy

theorem guard_eq {c c' : Prop} [Decidable c] [Decidable c'] (hc : c ↔ c') {message : String}
    {x : Except (Halt Err) β} {f : Unit → Reading Err β}
    (h : ¬c → x = returned ((f ()).eval source .eof)) :
    (if c then corruptChecked message else x) =
      returned ((Reading.failIf c' (.corrupt message) >>= f).eval source .eof) := by
  rw [Reading.eval_bind, Reading.failIf]
  by_cases hcase : c
  · rw [if_pos hcase, if_pos (hc.1 hcase)]
    rfl
  · rw [if_neg hcase, if_neg (fun h' => hcase (hc.2 h'))]
    exact h hcase

end Readings

/-! ### Blocks -/

def Exact (source : Nat → Nat → Option Bytes) : Prop :=
  ∀ length offset block, source length offset = some block → block.length = length

theorem exact_slice (bytes : Bytes) : Exact (SimFile.slice bytes) := by
  intro length offset block h
  rw [SimFile.slice] at h
  split at h
  · next hlen =>
    cases h
    exact hlen
  · cases h

theorem Exact.ask_length {source : Nat → Nat → Option Bytes} (hsource : Exact source)
    {length offset : Nat} {onError : Err → Err} {block : Bytes}
    (h : (Reading.ask length offset onError).eval source .eof = .ok block) :
    block.length = length := by
  refine hsource length offset block ?_
  rw [Reading.ask, Reading.eval] at h
  cases hslice : source length offset with
  | none =>
    rw [hslice] at h
    cases h
  | some b =>
    rw [hslice] at h
    cases h
    rfl

section Source

variable (source : Nat → Nat → Option Bytes)

def readAtFullChecked (length offset : Nat) (message : String) : Except (Halt Err) Bytes :=
  match source length offset with
  | some block => .ok block
  | none => corruptChecked message

def readBlockChecked (offset length : Nat) : Except (Halt Err) Bytes :=
  if length < 4 ∨ offset > maxInt64 ∨ length > maxInt64 then corruptChecked "invalid block bounds"
  else do
    let stop ← sized (checkedAdd offset length)
    if stop < offset ∨ stop > maxInt64 then corruptChecked "invalid block bounds"
    else
      match checkedInt length with
      | none => corruptChecked "block too large"
      | some blockLength =>
        let start ← sized (checkedInt offset)
        let block ← readAtFullChecked source blockLength start "read block"
        let size ← sub block.length 4
        let payload ← slice block 0 size
        let back ← sliceFrom block size
        let stored ← fixedChecked 4 back
        if crc32c payload ≠ stored then corruptChecked "block crc32c mismatch" else return payload

end Source

variable {source : Nat → Nat → Option Bytes}

theorem readAtFullChecked_eq (length offset : Nat) (message : String) :
    readAtFullChecked source length offset message =
      returned ((Reading.ask length offset fun _ => .corrupt message).eval source .eof) := by
  rw [readAtFullChecked, Reading.ask, Reading.eval]
  cases source length offset with
  | none => rfl
  | some block => rfl

theorem readBlockChecked_eq (hsource : Exact source) (offset length : Nat) :
    readBlockChecked source offset length = returned ((readBlock offset length).eval source .eof) := by
  rw [readBlockChecked, readBlock]
  by_cases hbounds : length < 4 ∨ offset > maxInt64 ∨ length > maxInt64
  · rw [if_pos hbounds, Reading.eval_bind, Reading.failIf, if_pos (by omega)]
    rfl
  have hmax : maxInt64 = 2 ^ 63 - 1 := rfl
  rw [if_neg hbounds]
  refine known_eq (sized_checkedAdd (by omega)) ?_
  refine guard_eq (by omega) ?_
  intro hstop
  rw [checkedInt_of_le (show length ≤ maxInt64 by omega)]
  refine known_eq (sized_checkedInt (by omega)) ?_
  refine step_eq (readAtFullChecked_eq _ _ _) ?_
  intro block hblock
  have hlen := hsource.ask_length hblock
  refine known_eq (sub_of_le (show 4 ≤ block.length by omega)) ?_
  refine known_eq (slice_front (show block.length - 4 ≤ block.length by omega)) ?_
  refine known_eq (sliceFrom_of_le (show block.length - 4 ≤ block.length by omega)) ?_
  have hback : (block.drop (block.length - 4)).length = 4 := by
    rw [List.length_drop]
    omega
  refine known_eq (fixedChecked_of_le hback.ge) ?_
  rw [List.take_of_length_le hback.le]
  exact guard_eq Iff.rfl fun _ => rfl

theorem eval_readBlock_length (hsource : Exact source) {offset length : Nat} {payload : Bytes}
    (h : (readBlock offset length).eval source .eof = .ok payload) : payload.length ≤ maxInt64 := by
  simp only [readBlock, Reading.eval_bind_eq_ok, Reading.eval_failIf_eq_ok] at h
  obtain ⟨-, hbounds, block, hblock, -, -, hpayload⟩ := h
  cases hpayload
  have hlen := hsource.ask_length hblock
  rw [List.length_take]
  omega

/-! ### Bloom filter -/

def bloomByteLenChecked (bits : Nat) : Except (Halt Err) (Option Nat) := do
  let bytes ← if bits % 8 ≠ 0 then sized (checkedAdd (bits / 8) 1) else .ok (bits / 8)
  return checkedInt bytes

def unmarshalBloomFilterChecked (data : Bytes) : Except (Halt Err) BloomFilter :=
  if data.length < bloomHeaderSize + 1 then .error (.error (.text "lsm: invalid bloom encoding"))
  else do
    let version ← index data 0
    if version ≠ bloomVersion then .error (.error (.text "lsm: invalid bloom encoding"))
    else
      let hashes ← index data 1
      if hashes ≠ UInt8.ofNat bloomHashCount then
        .error (.error (.text "lsm: invalid bloom encoding"))
      else
        let field ← slice data 2 bloomHeaderSize
        let m ← fixedChecked 8 field
        let byteLen ← bloomByteLenChecked m
        let left ← int64 (data.length - bloomHeaderSize)
        if m = 0 ∨ byteLen.map Int.ofNat ≠ some left then
          .error (.error (.text "lsm: invalid bloom bit count"))
        else
          let bits ← sliceFrom data bloomHeaderSize
          return ⟨bits, m⟩

def tableBloomChecked (data : Bytes) : Except (Halt Err) BloomFilter :=
  match unmarshalBloomFilterChecked data with
  | .error (.error _) => corruptChecked "bloom"
  | .error (.trap t) => .error (.trap t)
  | .ok bloom => .ok bloom

def probeChecked (bits : Bytes) : List Nat → Except (Halt Err) Bool
  | [] => .ok true
  | bit :: probes => do
    let byte ← index bits (bit / 8)
    if byte &&& bitMask bit = 0 then return false else probeChecked bits probes

def BloomFilter.mayContainChecked (f : BloomFilter) (key : Bytes) : Except (Halt Err) Bool :=
  if f.m = 0 then .ok false else probeChecked f.bits (probes f.m key)

theorem bloomByteLenChecked_eq {bits : Nat} (h : bits < 2 ^ 64) :
    bloomByteLenChecked bits = .ok (bloomByteLen bits) := by
  rw [bloomByteLenChecked, bloomByteLen, checkedAdd_of_le (by omega)]
  split <;> rfl

theorem unmarshalBloomFilterChecked_eq {data : Bytes} (hdata : data.length ≤ maxInt64) :
    unmarshalBloomFilterChecked data = returned (unmarshalBloomFilter data) := by
  rw [unmarshalBloomFilterChecked, unmarshalBloomFilter]
  by_cases hshort : data.length < bloomHeaderSize + 1
  · rw [if_pos hshort, if_pos (.inl hshort)]
    rfl
  rw [if_neg hshort]
  simp only [bloomHeaderSize] at hshort ⊢
  simp only [maxInt64] at hdata
  obtain ⟨version, hashes, rest, rfl⟩ : ∃ version hashes rest, data = version :: hashes :: rest := by
    rcases data with _ | ⟨version, _ | ⟨hashes, rest⟩⟩
    · simp at hshort
    · simp at hshort
    · exact ⟨version, hashes, rest, rfl⟩
  simp only [List.length_cons] at hshort hdata
  simp only [index, List.getElem?_cons_zero, List.getElem?_cons_succ, bind, Except.bind,
    List.take_succ_cons, List.take_zero, List.length_cons]
  by_cases hversion : version = bloomVersion
  · by_cases hhashes : hashes = UInt8.ofNat bloomHashCount
    · have hfield : (slice (version :: hashes :: rest) 2 10 : Except (Halt Err) Bytes) =
          .ok (rest.take 8) := slice_of_le (by decide) (by simp; omega)
      have hm := ofLittleEndian_lt (rest.take 8)
      have hm : ofLittleEndian (rest.take 8) < 2 ^ 64 := by
        simpa [List.length_take, show min 8 rest.length = 8 by omega] using hm
      have hleft : (int64 (((rest.length + 1 + 1 : Nat) : Int) - (10 : Nat)) :
          Except (Halt Err) Int) = .ok ((rest.length - 8 : Nat) : Int) := by
        rw [int64_of_le (by omega) (by omega)]
        congr 1
        omega
      have hbits : (sliceFrom (version :: hashes :: rest) 10 : Except (Halt Err) Bytes) =
          .ok (rest.drop 8) := sliceFrom_of_le (by simp; omega)
      have hsame : (bloomByteLen (ofLittleEndian (rest.take 8))).map Int.ofNat ≠
          some ((rest.length - 8 : Nat) : Int) ↔
            bloomByteLen (ofLittleEndian (rest.take 8)) ≠ some (rest.length + 1 + 1 - 10) := by
        rw [show rest.length + 1 + 1 - 10 = rest.length - 8 by omega]
        cases bloomByteLen (ofLittleEndian (rest.take 8)) with
        | none => simp
        | some n => simp
      simp only [hversion, hhashes, ne_eq, not_true_eq_false, if_false, or_false]
      rw [hversion, hhashes] at hfield hbits
      rw [if_neg (by omega)]
      simp only [hfield, hbits, List.drop_succ_cons, List.drop_zero,
        fixedChecked_of_le (show 8 ≤ (rest.take 8).length by rw [List.length_take]; omega),
        List.take_take, Nat.min_self, bloomByteLenChecked_eq hm, hleft]
      by_cases hbad : ofLittleEndian (rest.take 8) = 0 ∨
          bloomByteLen (ofLittleEndian (rest.take 8)) ≠ some (rest.length + 1 + 1 - 10)
      · rw [if_pos (hbad.imp_right hsame.2), if_pos hbad]
        rfl
      · rw [if_neg (fun h => hbad (h.imp_right hsame.1)), if_neg hbad]
        rfl
    · simp [hversion, hhashes]
  · simp [hversion]

theorem tableBloomChecked_eq {data : Bytes} (hdata : data.length ≤ maxInt64) :
    tableBloomChecked data =
      returned ((unmarshalBloomFilter data).mapError fun _ => .corrupt "bloom") := by
  rw [tableBloomChecked, unmarshalBloomFilterChecked_eq hdata]
  cases unmarshalBloomFilter data with
  | error e => rfl
  | ok bloom => rfl

theorem probeChecked_eq {bits : Bytes} {probes : List Nat}
    (h : ∀ bit ∈ probes, bit / 8 < bits.length) :
    probeChecked bits probes = .ok (probes.all (testBit bits)) := by
  induction probes with
  | nil => rfl
  | cons bit probes ih =>
    have hlt : bit / 8 < bits.length := h bit (by simp)
    have hget := List.getElem?_eq_getElem hlt
    have hbyte : bits.getD (bit / 8) 0 = bits[bit / 8] := by
      rw [List.getD_eq_getElem?_getD, hget, Option.getD_some]
    rw [probeChecked, index_of_getElem? hget, List.all_cons, testBit, hbyte]
    simp only [bind, Except.bind]
    by_cases hclear : bits[bit / 8] &&& bitMask bit = 0
    · rw [if_pos hclear]
      simp [hclear, pure, Except.pure]
    · rw [if_neg hclear, ih fun b hb => h b (by simp [hb])]
      simp [hclear]

theorem BloomFilter.Sized.mayContainChecked_eq {f : BloomFilter} (h : f.Sized) (key : Bytes) :
    f.mayContainChecked key = .ok (f.mayContain key) := by
  have hm : f.m ≠ 0 := by
    have := h.pos
    omega
  rw [mayContainChecked, if_neg hm, probeChecked_eq fun bit hbit => h.probe_lt hbit, mayContain]
  simp [hm]

theorem sized_unmarshalBloomFilter {data : Bytes} {f : BloomFilter}
    (h : unmarshalBloomFilter data = .ok f) : f.Sized := by
  rw [unmarshalBloomFilter] at h
  split at h
  · cases h
  · dsimp only at h
    split at h
    · cases h
    · next hbad =>
      cases h
      rw [not_or, not_not] at hbad
      refine ⟨Nat.pos_of_ne_zero hbad.1, ?_⟩
      rw [hbad.2, List.length_drop]

/-! ### Opening -/

def fieldChecked (metadata : Bytes) (lo hi : Nat) : Except (Halt Err) Nat := do
  let field ← slice metadata lo hi
  fixedChecked (hi - lo) field

def footerBoundsChecked (footerStart indexOffset indexLength bloomOffset bloomLength : Nat) :
    Except (Halt Err) Unit :=
  if indexOffset > footerStart then corruptChecked "footer block bounds"
  else do
    let room ← sub footerStart indexOffset
    if indexLength > room ∨ bloomOffset > footerStart then corruptChecked "footer block bounds"
    else
      let room ← sub footerStart bloomOffset
      if bloomLength > room then corruptChecked "footer block bounds"
      else
        let stop ← sized (checkedAdd indexOffset indexLength)
        if stop > bloomOffset then corruptChecked "footer block bounds" else return ()

def blockBoundsChecked (indexOffset : Nat) (entries : List IndexEntry) :
    Nat → Nat → Except (Halt Err) Unit
  | 0, _ => .ok ()
  | count + 1, i => do
    let entry ← index entries i
    if entry.offset ≥ indexOffset then corruptChecked "data block bounds"
    else
      let room ← sub indexOffset entry.offset
      if entry.length > room then corruptChecked "data block bounds"
      else if i > 0 then
        let previous ← index entries (i - 1)
        let stop ← sized (checkedAdd previous.offset previous.length)
        if entry.offset < stop then corruptChecked "data block bounds"
        else blockBoundsChecked indexOffset entries count (i + 1)
      else blockBoundsChecked indexOffset entries count (i + 1)

section Source

variable (source : Nat → Nat → Option Bytes)

def openFooterChecked (footerStart : Nat) (metadata : Bytes) : Except (Halt Err) SSTableReader := do
  let indexOffset ← fieldChecked metadata 0 8
  let indexLength ← fieldChecked metadata 8 16
  let bloomOffset ← fieldChecked metadata 16 24
  let bloomLength ← fieldChecked metadata 24 32
  let entryCount ← fieldChecked metadata 32 40
  let minLen ← fieldChecked metadata 40 44
  let maxLen ← fieldChecked metadata 44 48
  let keys ← int64 (metadata.length - 48)
  let keys ← unsigned keys
  let lengths ← sized (checkedAdd minLen maxLen)
  if keys ≠ lengths ∨ indexLength < 4 ∨ bloomLength < 4 then
    corruptChecked "invalid footer metadata"
  else
    footerBoundsChecked footerStart indexOffset indexLength bloomOffset bloomLength
    let indexData ← readBlockChecked source indexOffset indexLength
    let index ← decodeIndexChecked indexData
    if decide (entryCount = 0) ≠ decide (index.length = 0) then
      corruptChecked "empty table index mismatch"
    else
      blockBoundsChecked indexOffset index index.length 0
      let bloomData ← readBlockChecked source bloomOffset bloomLength
      let bloom ← tableBloomChecked bloomData
      let minLen ← sized (checkedInt minLen)
      let minStop ← int64 (48 + minLen)
      let minStop ← unsigned minStop
      let minKey ← slice metadata 48 minStop
      let maxKey ← sliceFrom metadata minStop
      if entryCount > 0 ∧ maxKey < minKey then corruptChecked "footer key order"
      else return ⟨index, bloom, entryCount, minKey, maxKey⟩

def openSSTableChecked (size : Int) : Except (Halt Err) SSTableReader :=
  if size < footerTrailer then corruptChecked "missing footer"
  else do
    let left ← int64 (size - footerTrailer)
    let start ← unsigned left
    let trailer ← readAtFullChecked source footerTrailer start "read footer trailer"
    let magic ← sliceFrom trailer 8
    if magic ≠ footerMagic then corruptChecked "bad footer magic"
    else
      let metadataLen ← fieldChecked trailer 4 8
      if metadataLen < 48 ∨ (metadataLen : Int) > left then corruptChecked "invalid footer length"
      else
        match checkedInt metadataLen with
        | none => corruptChecked "footer too large"
        | some metadataLength =>
          let stop ← int64 (left - metadataLen)
          let footerStart ← unsigned stop
          let metadata ← readAtFullChecked source metadataLength footerStart "read footer"
          let stored ← fieldChecked trailer 0 4
          if stored ≠ crc32c metadata then corruptChecked "footer crc32c mismatch"
          else openFooterChecked source footerStart metadata

end Source

theorem fieldChecked_eq {metadata : Bytes} {lo hi : Nat} (h : lo ≤ hi) (hhi : hi ≤ metadata.length) :
    fieldChecked metadata lo hi = .ok (ofLittleEndian ((metadata.drop lo).take (hi - lo))) := by
  have hlen : ((metadata.take hi).drop lo).length = hi - lo := by
    rw [List.length_drop, List.length_take]
    omega
  rw [fieldChecked, slice_of_le h hhi]
  show fixedChecked _ _ = _
  rw [fixedChecked_of_le hlen.ge, List.take_of_length_le hlen.le, List.drop_take]

theorem field_lt (metadata : Bytes) (lo : Nat) {width : Nat} :
    ofLittleEndian ((metadata.drop lo).take width) < 256 ^ width :=
  (ofLittleEndian_lt _).trans_le (Nat.pow_le_pow_right (by decide) (List.length_take_le _ _))

theorem footerBoundsChecked_eq {footerStart : Nat} (hstart : footerStart ≤ maxInt64)
    (indexOffset indexLength bloomOffset bloomLength : Nat) :
    footerBoundsChecked footerStart indexOffset indexLength bloomOffset bloomLength =
      returned ((Reading.failIf (indexOffset > footerStart ∨
        indexLength > footerStart - indexOffset ∨ bloomOffset > footerStart ∨
        bloomLength > footerStart - bloomOffset ∨ indexOffset + indexLength > bloomOffset)
        (.corrupt "footer block bounds")).eval source .eof) := by
  simp only [maxInt64] at hstart
  rw [footerBoundsChecked, Reading.failIf]
  by_cases hindex : indexOffset > footerStart
  · rw [if_pos hindex, if_pos (.inl hindex)]
    rfl
  rw [if_neg hindex]
  refine known_eq (sub_of_le (not_lt.1 hindex)) ?_
  by_cases hroom : indexLength > footerStart - indexOffset ∨ bloomOffset > footerStart
  · rw [if_pos hroom, if_pos (by omega)]
    rfl
  rw [if_neg hroom]
  refine known_eq (sub_of_le (show bloomOffset ≤ footerStart by omega)) ?_
  by_cases hbloom : bloomLength > footerStart - bloomOffset
  · rw [if_pos hbloom, if_pos (by omega)]
    rfl
  rw [if_neg hbloom]
  refine known_eq (sized_checkedAdd (by omega)) ?_
  by_cases hover : indexOffset + indexLength > bloomOffset
  · rw [if_pos hover, if_pos (by omega)]
    rfl
  · rw [if_neg hover, if_neg (by omega)]
    rfl

theorem getLast?_take_succ {α : Type} {xs : List α} {i : Nat} (h : i < xs.length) :
    (xs.take (i + 1)).getLast? = some xs[i] := by
  rw [List.take_add_one, List.getElem?_eq_getElem h]
  exact List.getLast?_concat

theorem blockBoundsChecked_eq {indexOffset : Nat} (hoffset : indexOffset ≤ maxInt64)
    {entries : List IndexEntry} {count i : Nat} (hi : i + count = entries.length)
    (hprevious : ∀ p ∈ (entries.take i).getLast?, p.offset + p.length ≤ indexOffset) :
    blockBoundsChecked indexOffset entries count i =
      if validBlockBounds indexOffset (entries.take i).getLast? (entries.drop i) = false then
        corruptChecked "data block bounds"
      else .ok () := by
  simp only [maxInt64] at hoffset
  induction count generalizing i with
  | zero =>
    rw [List.drop_of_length_le (by omega)]
    rfl
  | succ count ih =>
    have hlt : i < entries.length := by omega
    have hdrop := List.drop_eq_getElem_cons hlt
    rw [blockBoundsChecked, index_of_getElem? (List.getElem?_eq_getElem hlt), hdrop, validBlockBounds]
    show (if entries[i].offset ≥ indexOffset then _ else _) = _
    by_cases hstart : entries[i].offset ≥ indexOffset
    · rw [if_pos hstart, if_pos (by simp [hstart])]
    rw [if_neg hstart, sub_of_le (by omega)]
    show (if entries[i].length > indexOffset - entries[i].offset then _ else _) = _
    by_cases hlength : entries[i].length > indexOffset - entries[i].offset
    · rw [if_pos hlength, if_pos (by simp [Nat.not_le.2 hlength])]
    have hlast := getLast?_take_succ hlt
    have hnext := ih (i := i + 1) (by omega) (by
      rw [hlast]
      rintro p ⟨⟩
      omega)
    rw [hlast] at hnext
    have hbounds : (decide (entries[i].offset < indexOffset) &&
        decide (entries[i].length ≤ indexOffset - entries[i].offset)) = true := by
      simp only [Bool.and_eq_true, decide_eq_true_eq]
      omega
    rw [if_neg hlength, hbounds, Bool.true_and, hnext]
    cases i with
    | zero => rfl
    | succ i =>
      have hget := getLast?_take_succ (show i < entries.length by omega)
      have hfits := hprevious entries[i] hget
      rw [if_pos (by omega), hget, Nat.add_sub_cancel,
        index_of_getElem? (List.getElem?_eq_getElem (show i < entries.length by omega))]
      show (sized (checkedAdd entries[i].offset entries[i].length) >>= _) = _
      rw [checkedAdd_of_le (by omega)]
      show (if entries[i + 1].offset < entries[i].offset + entries[i].length then _ else _) = _
      by_cases hover : entries[i + 1].offset < entries[i].offset + entries[i].length
      · rw [if_pos hover, if_pos (by simp [Nat.not_le.2 hover])]
      · rw [if_neg hover]
        simp [Nat.not_lt.1 hover]

theorem openFooterChecked_eq (hsource : Exact source) {footerStart : Nat}
    (hstart : footerStart ≤ maxInt64) {metadata : Bytes} (hlow : 48 ≤ metadata.length)
    (hhigh : metadata.length ≤ maxInt64) :
    openFooterChecked source footerStart metadata =
      returned ((openFooter footerStart (decodeMetadata metadata)).eval source .eof) := by
  have hmax : maxInt64 = 2 ^ 63 - 1 := rfl
  rw [openFooterChecked, openFooter]
  refine known_eq (a := (decodeMetadata metadata).indexOffset)
    (fieldChecked_eq (by decide) (by omega)) ?_
  refine known_eq (a := (decodeMetadata metadata).indexLength)
    (fieldChecked_eq (by decide) (by omega)) ?_
  refine known_eq (a := (decodeMetadata metadata).bloomOffset)
    (fieldChecked_eq (by decide) (by omega)) ?_
  refine known_eq (a := (decodeMetadata metadata).bloomLength)
    (fieldChecked_eq (by decide) (by omega)) ?_
  refine known_eq (a := (decodeMetadata metadata).entryCount)
    (fieldChecked_eq (by decide) (by omega)) ?_
  refine known_eq (a := (decodeMetadata metadata).minLen)
    (fieldChecked_eq (by decide) (by omega)) ?_
  refine known_eq (a := (decodeMetadata metadata).maxLen)
    (fieldChecked_eq (by decide) (by omega)) ?_
  have hmin : (decodeMetadata metadata).minLen < 256 ^ 4 := field_lt metadata 40
  have hmaxLen : (decodeMetadata metadata).maxLen < 256 ^ 4 := field_lt metadata 44
  have hkeys : (decodeMetadata metadata).keys = metadata.drop 48 := rfl
  generalize decodeMetadata metadata = footer at hmin hmaxLen hkeys
  have hsize : footer.keys.length = metadata.length - 48 := by
    rw [hkeys]
    exact List.length_drop
  refine known_eq (int64_of_le (by omega) (by omega)) ?_
  refine known_eq (unsigned_of_nonneg (by omega)) ?_
  refine known_eq (sized_checkedAdd (by omega)) ?_
  refine guard_eq (or_congr_left (by omega)) ?_
  intro hmetadata
  refine step_eq (footerBoundsChecked_eq hstart _ _ _ _) ?_
  intro _ hbounds
  rw [Reading.eval_failIf_eq_ok] at hbounds
  refine step_eq (readBlockChecked_eq hsource _ _) ?_
  intro indexData hindexData
  refine step_eq (y := Reading.ofExcept (decodeIndex indexData)) (by
    rw [Reading.eval_ofExcept]
    exact decodeIndexChecked_eq (eval_readBlock_length hsource hindexData)) ?_
  intro index _
  refine guard_eq Iff.rfl ?_
  intro _
  have hblocks := @blockBoundsChecked_eq footer.indexOffset (by omega) index _ 0 (Nat.zero_add _)
    (by simp)
  refine step_eq (y := Reading.failIf (validBlockBounds footer.indexOffset none index = false)
    (.corrupt "data block bounds")) (by
      rw [hblocks, Reading.failIf]
      simp only [List.take_zero, List.getLast?_nil, List.drop_zero]
      split <;> rfl) ?_
  intro _ _
  refine step_eq (readBlockChecked_eq hsource _ _) ?_
  intro bloomData hbloomData
  refine step_eq (y := Reading.ofExcept
    ((unmarshalBloomFilter bloomData).mapError fun _ => .corrupt "bloom")) (by
      rw [Reading.eval_ofExcept]
      exact tableBloomChecked_eq (eval_readBlock_length hsource hbloomData)) ?_
  intro bloom _
  refine known_eq (sized_checkedInt (by omega)) ?_
  refine known_eq (int64_of_le (by omega) (by omega)) ?_
  refine known_eq (a := 48 + footer.minLen) (unsigned_of_nonneg (by omega)) ?_
  refine known_eq (a := footer.keys.take footer.minLen) (by
    rw [slice_of_le (by omega) (by omega), List.drop_take, hkeys, Nat.add_sub_cancel_left]) ?_
  refine known_eq (a := footer.keys.drop footer.minLen) (by
    rw [sliceFrom_of_le (by omega), hkeys, List.drop_drop]) ?_
  exact guard_eq Iff.rfl fun _ => rfl

theorem openSSTableChecked_eq (hsource : Exact source) {size : Int} (hsize : size < 2 ^ 63) :
    openSSTableChecked source size = returned ((openSSTable size.toNat).eval source .eof) := by
  have htrailer : footerTrailer = 16 := rfl
  rw [openSSTableChecked, openSSTable]
  refine guard_eq (by omega) ?_
  intro hlow
  refine known_eq (int64_of_le (by omega) (by omega)) ?_
  refine known_eq (unsigned_eq (n := size.toNat - footerTrailer) (by omega)) ?_
  refine step_eq (readAtFullChecked_eq _ _ _) ?_
  intro trailer hread
  have hlen := hsource.ask_length hread
  refine known_eq (sliceFrom_of_le (by omega)) ?_
  refine guard_eq Iff.rfl ?_
  intro _
  refine known_eq (a := ofLittleEndian ((trailer.drop 4).take 4))
    (fieldChecked_eq (by decide) (by omega)) ?_
  have hfield : ofLittleEndian ((trailer.drop 4).take 4) < 256 ^ 4 := field_lt trailer 4
  generalize ofLittleEndian ((trailer.drop 4).take 4) = metadataLen at hfield
  refine guard_eq (by omega) ?_
  intro hmetadata
  rw [checkedInt_of_le (show metadataLen ≤ maxInt64 by simp only [maxInt64]; omega)]
  refine known_eq (int64_of_le (by omega) (by omega)) ?_
  refine known_eq (unsigned_eq (n := size.toNat - footerTrailer - metadataLen) (by omega)) ?_
  refine step_eq (readAtFullChecked_eq _ _ _) ?_
  intro metadata hmeta
  have hmetaLen := hsource.ask_length hmeta
  refine known_eq (a := ofLittleEndian (trailer.take 4))
    (fieldChecked_eq (by decide) (by omega)) ?_
  refine guard_eq Iff.rfl ?_
  intro _
  exact openFooterChecked_eq hsource (by simp only [maxInt64]; omega) (by omega)
    (by simp only [maxInt64]; omega)

/-! ### Point reads and scans -/

def searchFromChecked (f : Nat → Except (Halt Err) Bool) : Nat → Nat → Nat → Except (Halt Err) Nat
  | 0, i, j => if i < j then .error (.trap .overflow) else .ok i
  | fuel + 1, i, j =>
    if i < j then do
      let h := (i + j) / 2
      if ← f h then searchFromChecked f fuel i h else searchFromChecked f fuel (h + 1) j
    else .ok i

theorem searchFrom_le {f : Nat → Bool} {fuel i j : Nat} (hij : i ≤ j) : searchFrom f fuel i j ≤ j := by
  induction fuel generalizing i j with
  | zero => exact hij
  | succ fuel ih =>
    rw [searchFrom]
    by_cases hlt : i < j
    · rw [if_pos hlt]
      dsimp only
      split
      · exact (ih (by omega)).trans (by omega)
      · exact ih (by omega)
    · rw [if_neg hlt]
      exact hij

theorem searchFromChecked_eq {f : Nat → Except (Halt Err) Bool} {g : Nat → Bool} {fuel i j n : Nat}
    (hf : ∀ h < n, f h = .ok (g h)) (hj : j ≤ n) (hfuel : j - i ≤ fuel) :
    searchFromChecked f fuel i j = .ok (searchFrom g fuel i j) := by
  induction fuel generalizing i j with
  | zero =>
    rw [searchFromChecked, if_neg (by omega)]
    rfl
  | succ fuel ih =>
    rw [searchFromChecked, searchFrom]
    by_cases hlt : i < j
    · simp only [if_pos hlt, hf ((i + j) / 2) (by omega), bind, Except.bind]
      cases g ((i + j) / 2) with
      | true => exact ih (by omega) (by omega)
      | false => exact ih hj (by omega)
    · rw [if_neg hlt, if_neg hlt]

section Source

variable (source : Nat → Nat → Option Bytes)

def readRecordsChecked (entry : IndexEntry) : Except (Halt Err) (List TableEntry) := do
  let data ← readBlockChecked source entry.offset entry.length
  let entries ← decodeRecordsChecked data
  if entries.length = 0 then corruptChecked "index first key does not match data block"
  else
    let first ← index entries 0
    if first.key ≠ entry.firstKey then corruptChecked "index first key does not match data block"
    else return entries

namespace SSTableReader

def mayHoldChecked (r : SSTableReader) (key : Bytes) (checkBloom : Bool) : Except (Halt Err) Bool :=
  if checkBloom then r.bloom.mayContainChecked key else .ok true

def getChecked (r : SSTableReader) (key : Bytes) (checkBloom : Bool) :
    Except (Halt Err) (Option TableEntry) :=
  if r.entryCount = 0 then .ok none
  else do
    let may ← r.mayHoldChecked key checkBloom
    if !may ∨ key < r.minKey ∨ r.maxKey < key then return none
    else
      let found ← searchFromChecked (fun i => do
        let entry ← Checked.index r.index i
        return decide (key < entry.firstKey)) r.index.length 0 r.index.length
      let i ← int64 (found - 1)
      if i < 0 then return none
      else
        let i ← unsigned i
        let entry ← Checked.index r.index i
        let entries ← readRecordsChecked source entry
        return (entries.takeWhile fun e => ¬key < e.key).find? fun e => e.key = key

def keysChecked (r : SSTableReader) : List TableEntry → Except (Halt Err) Unit
  | [] => .ok ()
  | entry :: rest => do
    let may ← r.bloom.mayContainChecked entry.key
    if !may then corruptChecked "bloom false negative for stored key" else r.keysChecked rest

def orderChecked (entries decoded : List TableEntry) : Except (Halt Err) Unit :=
  if entries.length = 0 then .ok ()
  else do
    let first ← Checked.index decoded 0
    let last ← Checked.index entries (entries.length - 1)
    if ¬last.key < first.key then
      corruptChecked "records out of order or same key spans data blocks"
    else .ok ()

def blockEntriesChecked (r : SSTableReader) (entries : List TableEntry) :
    List IndexEntry → Except (Halt Err) (List TableEntry)
  | [] => return entries
  | block :: rest => do
    let decoded ← readRecordsChecked source block
    orderChecked entries decoded
    r.keysChecked decoded
    r.blockEntriesChecked (entries ++ decoded) rest

def allEntriesChecked (r : SSTableReader) : Except (Halt Err) (List TableEntry) := do
  let entries ← r.blockEntriesChecked source [] r.index
  if entries.length ≠ r.entryCount then corruptChecked "entry count"
  else if entries.length = 0 then return entries
  else
    let first ← Checked.index entries 0
    let last ← Checked.index entries (entries.length - 1)
    if first.key ≠ r.minKey ∨ last.key ≠ r.maxKey then
      corruptChecked "footer key bounds do not match records"
    else return entries

end SSTableReader

end Source

theorem readRecordsChecked_eq (hsource : Exact source) (entry : IndexEntry) :
    readRecordsChecked source entry = returned ((readRecords entry).eval source .eof) := by
  rw [readRecordsChecked, readRecords]
  refine step_eq (readBlockChecked_eq hsource _ _) ?_
  intro data hdata
  refine step_eq (y := Reading.ofExcept (decodeRecords data)) (by
    rw [Reading.eval_ofExcept]
    exact decodeRecordsChecked_eq (eval_readBlock_length hsource hdata)) ?_
  intro entries _
  cases entries with
  | nil => rfl
  | cons first rest =>
    rw [if_neg (by simp)]
    refine known_eq (index_of_getElem? (x := first) rfl) ?_
    exact guard_eq (by simp) fun _ => rfl

namespace SSTableReader

variable {r : SSTableReader}

theorem getChecked_eq (hsource : Exact source) (hr : r.bloom.Sized)
    (hindex : r.index.length ≤ maxInt64) (key : Bytes) (checkBloom : Bool) :
    r.getChecked source key checkBloom =
      returned ((r.get key checkBloom).eval source .eof) := by
  have hmax : maxInt64 = 2 ^ 63 - 1 := rfl
  rw [getChecked, get]
  by_cases hcount : r.entryCount = 0
  · rw [if_pos hcount, if_pos (.inl hcount)]
    rfl
  rw [if_neg hcount]
  refine known_eq (a := !checkBloom || r.bloom.mayContain key) (by
    cases checkBloom with
    | true => exact hr.mayContainChecked_eq key
    | false => rfl) ?_
  have hcond : ((!(!checkBloom || r.bloom.mayContain key)) = true ∨ key < r.minKey ∨ r.maxKey < key) ↔
      (r.entryCount = 0 ∨ (checkBloom = true ∧ (!r.bloom.mayContain key) = true) ∨ key < r.minKey ∨
        r.maxKey < key) := by
    simp [hcount]
  by_cases hskip : (!(!checkBloom || r.bloom.mayContain key)) = true ∨ key < r.minKey ∨
      r.maxKey < key
  · rw [if_pos hskip, if_pos (hcond.1 hskip)]
    rfl
  rw [if_neg hskip, if_neg (fun h => hskip (hcond.2 h))]
  have hprobe : ∀ i < r.index.length, ((do
      let entry ← Checked.index r.index i
      return decide (key < entry.firstKey)) : Except (Halt Err) Bool) =
        .ok ((r.index[i]?).any fun entry => decide (key < entry.firstKey)) := by
    intro i hi
    rw [index_of_getElem? (List.getElem?_eq_getElem hi), List.getElem?_eq_getElem hi]
    rfl
  refine known_eq (searchFromChecked_eq hprobe le_rfl (by omega)) ?_
  have hle : search r.index.length (fun i => (r.index[i]?).any fun entry =>
      decide (key < entry.firstKey)) ≤ r.index.length := searchFrom_le (Nat.zero_le _)
  show (int64 ((search r.index.length fun i => (r.index[i]?).any fun entry =>
    decide (key < entry.firstKey) : Nat) - 1) >>= _) = _
  generalize search r.index.length (fun i => (r.index[i]?).any fun entry =>
    decide (key < entry.firstKey)) = found at hle
  refine known_eq (int64_of_le (by omega) (by omega)) ?_
  by_cases hnone : found = 0
  · rw [if_pos (by omega), if_pos hnone]
    rfl
  have hlt : found - 1 < r.index.length := by omega
  rw [if_neg (by omega), if_neg hnone, List.getElem?_eq_getElem hlt]
  refine known_eq (unsigned_eq (n := found - 1) (by omega)) ?_
  refine known_eq (index_of_getElem? (List.getElem?_eq_getElem hlt)) ?_
  exact step_eq (readRecordsChecked_eq hsource _) fun _ _ => rfl

theorem keysChecked_eq (hr : r.bloom.Sized) (entries : List TableEntry) :
    r.keysChecked entries =
      returned ((Reading.failIf (entries.any fun e => !r.bloom.mayContain e.key)
        (.corrupt "bloom false negative for stored key")).eval source .eof) := by
  induction entries with
  | nil => rfl
  | cons entry rest ih =>
    rw [keysChecked, hr.mayContainChecked_eq]
    show (if (!r.bloom.mayContain entry.key) = true then _ else _) = _
    rw [List.any_cons]
    cases hmay : r.bloom.mayContain entry.key with
    | false => rfl
    | true =>
      rw [if_neg (by simp), ih]
      rfl

theorem orderChecked_eq {entries decoded : List TableEntry} {block : IndexEntry}
    (hfirst : decoded.head?.map TableEntry.key = some block.firstKey) :
    orderChecked entries decoded =
      returned ((Reading.failIf
        ((entries.getLast?.map TableEntry.key).any fun key => ¬key < block.firstKey)
        (.corrupt "records out of order or same key spans data blocks")).eval source .eof) := by
  rw [orderChecked]
  cases hlast : entries.getLast? with
  | none =>
    rw [if_pos (by rw [List.getLast?_eq_none_iff.1 hlast]; rfl)]
    rfl
  | some last =>
    obtain ⟨hlen, hindex⟩ := index_getLast hlast
    obtain ⟨first, hhead, hkey⟩ := Option.map_eq_some_iff.1 hfirst
    rw [if_neg hlen, index_of_getElem? (by rw [← List.head?_eq_getElem?, hhead]), Reading.failIf]
    refine known_eq rfl ?_
    refine known_eq hindex ?_
    rw [hkey]
    by_cases horder : last.key < block.firstKey
    · rw [if_neg (not_not.2 horder), if_neg (by simpa using horder)]
      rfl
    · rw [if_pos horder, if_pos (by simpa using horder)]
      rfl

theorem blockEntriesChecked_eq (hsource : Exact source) (hr : r.bloom.Sized)
    (blocks : List IndexEntry) (entries : List TableEntry) :
    r.blockEntriesChecked source entries blocks =
      returned ((r.blockEntries (entries.getLast?.map TableEntry.key) blocks >>= fun later =>
        pure (entries ++ later)).eval source .eof) := by
  induction blocks generalizing entries with
  | nil =>
    show Except.ok entries = Except.ok (entries ++ [])
    rw [List.append_nil]
  | cons block rest ih =>
    rw [blockEntriesChecked, blockEntries, Reading.eval_bind_assoc]
    refine step_eq (readRecordsChecked_eq hsource block) ?_
    intro decoded hdecoded
    have hblock : Block source block decoded := hdecoded
    obtain ⟨-, first, hhead, hkey⟩ := hblock.inv
    rw [Reading.eval_bind_assoc]
    refine step_eq (orderChecked_eq (by rw [hhead, ← hkey]; rfl)) ?_
    intro _ _
    rw [Reading.eval_bind_assoc]
    refine step_eq (keysChecked_eq hr decoded) ?_
    intro _ _
    have hlast : (entries ++ decoded).getLast? = decoded.getLast? := by
      rw [List.getLast?_append]
      cases decoded with
      | nil => cases hhead
      | cons d decoded => rw [List.getLast?_cons, Option.some_or]
    rw [ih, hlast, Reading.eval_bind_assoc]
    simp only [List.append_assoc]
    rfl

theorem allEntriesChecked_eq (hsource : Exact source) (hr : r.bloom.Sized) :
    r.allEntriesChecked source = returned (r.allEntries.eval source .eof) := by
  rw [allEntriesChecked, allEntries]
  refine step_eq (by
    rw [blockEntriesChecked_eq hsource hr, Reading.eval_bind]
    simp only [List.nil_append, List.getLast?_nil, Option.map_none]
    cases (r.blockEntries none r.index).eval source .eof <;> rfl) ?_
  intro entries _
  refine guard_eq Iff.rfl ?_
  intro _
  cases entries with
  | nil => rfl
  | cons first rest =>
    rw [if_neg (by simp)]
    refine known_eq (index_of_getElem? (x := first) rfl) ?_
    have hlast := List.getLast?_eq_some_getLast (List.cons_ne_nil first rest)
    refine known_eq (index_getLast hlast).2 ?_
    rw [hlast]
    exact guard_eq (by simp) fun _ => rfl

end SSTableReader

/-! ### The iterator -/

/-- The iterator as its source has it: the records of a block and the position of the next one.  A
call that fails leaves what it had changed. -/
structure TableCursor where
  reader : SSTableReader
  block : Nat
  entries : List TableEntry
  entry : Nat
  seen : Nat
  firstKey : Option Bytes
  lastKey : Option Bytes
  done : Bool
  deriving DecidableEq, Repr

namespace TableCursor

def start (reader : SSTableReader) : TableCursor := ⟨reader, 0, [], 0, 0, none, none, false⟩

section Source

variable (source : Nat → Nat → Option Bytes)

def orderChecked (c : TableCursor) (entries : List TableEntry) : Except (Halt Err) Unit :=
  match c.lastKey with
  | none => .ok ()
  | some lastKey => do
    let first ← index entries 0
    if ¬lastKey < first.key then
      corruptChecked "records out of order or same key spans data blocks"
    else .ok ()

def load (c : TableCursor) : Except (Halt Err) TableCursor := do
  let block ← index c.reader.index c.block
  let entries ← readRecordsChecked source block
  c.orderChecked entries
  c.reader.keysChecked entries
  let first ← index entries 0
  let last ← index entries (entries.length - 1)
  return { c with
    firstKey := c.firstKey <|> some first.key
    lastKey := some last.key
    entries := entries
    entry := 0
    block := c.block + 1 }

def finish (c : TableCursor) : Except (Halt Err) (Option TableEntry) :=
  if c.seen ≠ c.reader.entryCount then corruptChecked "iterator entry count"
  else if c.seen ≠ 0 ∧ (c.firstKey ≠ some c.reader.minKey ∨ c.lastKey ≠ some c.reader.maxKey) then
    corruptChecked "iterator key bounds do not match footer"
  else .ok none

def emit (c : TableCursor) : Except (Halt Err) (Option TableEntry) × TableCursor :=
  match index c.entries c.entry with
  | .error e => (.error e, c)
  | .ok entry =>
    let c := { c with entry := c.entry + 1, seen := c.seen + 1 }
    if c.seen > c.reader.entryCount then
      (corruptChecked "iterator produced more records than footer count", c)
    else (.ok (some entry), c)

def advance : Nat → TableCursor → Except (Halt Err) (Option TableEntry) × TableCursor
  | 0, c => (.error (.trap .overflow), c)
  | fuel + 1, c =>
    if c.entry = c.entries.length then
      if c.block = c.reader.index.length then
        let c := { c with done := true }
        (c.finish, c)
      else
        match c.load source with
        | .error e => (.error e, c)
        | .ok c => advance fuel c
    else c.emit

def next (c : TableCursor) : Except (Halt Err) (Option TableEntry) × TableCursor :=
  if c.done then (.ok none, c) else c.advance source (c.reader.index.length + 1)

def results : Nat → TableCursor → List (Except (Halt Err) (Option TableEntry))
  | 0, _ => []
  | count + 1, c => (c.next source).1 :: results count (c.next source).2

end Source

structure InRange (c : TableCursor) : Prop where
  sized : c.reader.bloom.Sized
  block : c.block ≤ c.reader.index.length
  entry : c.entry ≤ c.entries.length

def Safe {α : Type} (x : Except (Halt Err) α) : Prop := ∀ t, x ≠ .error (.trap t)

theorem safe_returned {α : Type} (x : Except Err α) : Safe (returned x) := by
  intro t
  cases x <;> simp

variable {c : TableCursor}

/-- The iterator that streams the same table. -/
def iterator (c : TableCursor) : SSTableEntryIterator :=
  ⟨c.reader, c.block, c.entries.drop c.entry, c.seen, c.firstKey, c.lastKey, c.done⟩

/-- A call returned what `x` has, and left the cursor on the iterator that `x` leaves. -/
structure Follows (r : Except (Halt Err) (Option TableEntry) × TableCursor)
    (x : Except Err (Option TableEntry × SSTableEntryIterator)) : Prop where
  result : r.1 = returned (x.map Prod.fst)
  inRange : r.2.InRange
  state : ∀ entry it, x = .ok (entry, it) → r.2.iterator = it

theorem Follows.failed {e : Err} (h : c.InRange) : Follows (.error (.error e), c) (.error e) :=
  ⟨rfl, h, by rintro _ _ ⟨⟩⟩

theorem emit_follows (h : c.InRange) {entry : TableEntry} {rest : List TableEntry}
    (hdrop : c.entries.drop c.entry = entry :: rest) :
    Follows c.emit ((c.iterator.emit entry rest).eval source .eof) := by
  have hlt : c.entry < c.entries.length := by
    by_contra hle
    rw [List.drop_eq_nil_of_le (not_lt.1 hle)] at hdrop
    cases hdrop
  rw [List.drop_eq_getElem_cons hlt] at hdrop
  obtain ⟨rfl, rfl⟩ := List.cons.inj hdrop
  have hrange : InRange { c with entry := c.entry + 1, seen := c.seen + 1 } :=
    ⟨h.sized, h.block, hlt⟩
  rw [emit, index_of_getElem? (List.getElem?_eq_getElem hlt)]
  by_cases hmore : c.seen + 1 > c.reader.entryCount
  · have hfails : (c.iterator.emit c.entries[c.entry] (c.entries.drop (c.entry + 1))).eval source
        .eof = .error (.corrupt "iterator produced more records than footer count") := by
      rw [SSTableEntryIterator.emit, Reading.eval_bind, Reading.failIf,
        if_pos (show c.iterator.seen + 1 > c.iterator.reader.entryCount from hmore)]
      rfl
    rw [hfails]
    dsimp only
    rw [if_pos hmore]
    exact .failed hrange
  · rw [SSTableEntryIterator.eval_emit (show c.iterator.seen < c.iterator.reader.entryCount from
      not_lt.1 hmore)]
    dsimp only
    rw [if_neg hmore]
    exact ⟨rfl, hrange, by rintro _ _ ⟨⟩; rfl⟩

theorem finish_follows (h : c.InRange) :
    Follows (finish { c with done := true }, { c with done := true })
      (c.iterator.finish.eval source .eof) := by
  have hrange : InRange { c with done := true } := ⟨h.sized, h.block, h.entry⟩
  rw [finish, SSTableEntryIterator.finish, Reading.eval_bind, Reading.failIf]
  by_cases hseen : c.seen ≠ c.reader.entryCount
  · rw [if_pos hseen, if_pos (show c.iterator.seen ≠ c.iterator.reader.entryCount from hseen)]
    exact .failed hrange
  rw [if_neg hseen, if_neg (show ¬c.iterator.seen ≠ c.iterator.reader.entryCount from hseen)]
  show Follows _ ((Reading.failIf _ _ >>= _).eval source .eof)
  rw [Reading.eval_bind, Reading.failIf]
  by_cases hbounds : c.seen ≠ 0 ∧
      (c.firstKey ≠ some c.reader.minKey ∨ c.lastKey ≠ some c.reader.maxKey)
  · rw [if_pos hbounds, if_pos (show c.iterator.seen ≠ 0 ∧
      (c.iterator.firstKey ≠ some c.iterator.reader.minKey ∨
        c.iterator.lastKey ≠ some c.iterator.reader.maxKey) from hbounds)]
    exact .failed hrange
  · rw [if_neg hbounds, if_neg (show ¬(c.iterator.seen ≠ 0 ∧
      (c.iterator.firstKey ≠ some c.iterator.reader.minKey ∨
        c.iterator.lastKey ≠ some c.iterator.reader.maxKey)) from hbounds)]
    exact ⟨rfl, hrange, by rintro _ _ ⟨⟩; rfl⟩

theorem orderChecked_eq {entry : TableEntry} (rest : List TableEntry) (c : TableCursor) :
    c.orderChecked (entry :: rest) =
      returned ((Reading.failIf (c.iterator.lastKey.any fun key => ¬key < entry.key)
        (.corrupt "records out of order or same key spans data blocks")).eval source .eof) := by
  rw [orderChecked, iterator]
  cases c.lastKey with
  | none => rfl
  | some key =>
    show (if ¬key < entry.key then _ else _) = _
    by_cases horder : key < entry.key
    · rw [if_neg (not_not.2 horder), Reading.failIf, if_neg (by simpa using horder)]
      rfl
    · rw [if_pos horder, Reading.failIf, if_pos (by simpa using horder)]
      rfl

/-- A block is loaded, and its first record is the next one, or both fail. -/
theorem load_follows (hsource : Exact source) (h : c.InRange)
    {block : IndexEntry} (hblock : c.reader.index[c.block]? = some block) :
    (∃ e, c.load source = .error (.error e) ∧
      (c.iterator.load block).eval source .eof = .error e) ∨
    ∃ c' entry rest, c.load source = .ok c' ∧ c'.InRange ∧ c'.entries = entry :: rest ∧
      c'.entry = 0 ∧
      (c.iterator.load block).eval source .eof = (c'.iterator.emit entry rest).eval source .eof := by
  have hlt := (List.getElem?_eq_some_iff.1 hblock).1
  rw [load, index_of_getElem? hblock, SSTableEntryIterator.load]
  show (∃ e, (readRecordsChecked source block >>= _) = _ ∧ _) ∨
    ∃ c' entry rest, (readRecordsChecked source block >>= _) = _ ∧ _
  rw [readRecordsChecked_eq hsource]
  cases hread : (readRecords block).eval source .eof with
  | error e => exact .inl ⟨e, rfl, by rw [Reading.eval_bind, hread]⟩
  | ok entries =>
    have hrecords : Block source block entries := hread
    obtain ⟨-, entry, hhead, hkey⟩ := hrecords.inv
    obtain ⟨rest, rfl⟩ := List.head?_eq_some_iff.1 hhead
    have hlast := List.getLast?_eq_some_getLast (List.cons_ne_nil entry rest)
    have horder := @orderChecked_eq source entry rest c
    have hkeys := @SSTableReader.keysChecked_eq source c.iterator.reader h.sized (entry :: rest)
    rw [Reading.eval_bind_of_ok hread, ← hkey, hlast]
    cases hordered : (Reading.failIf (c.iterator.lastKey.any fun key => ¬key < entry.key)
        (Err.corrupt "records out of order or same key spans data blocks")).eval source .eof with
    | error e =>
      refine .inl ⟨e, ?_, by rw [Reading.eval_bind, hordered]⟩
      rw [hordered] at horder
      show (c.orderChecked (entry :: rest) >>= _) = _
      rw [horder]
      rfl
    | ok _ =>
      rw [hordered] at horder
      rw [Reading.eval_bind_of_ok hordered]
      cases hkept : (Reading.failIf ((entry :: rest).any fun e =>
          !c.iterator.reader.bloom.mayContain e.key)
          (Err.corrupt "bloom false negative for stored key")).eval source .eof with
      | error e =>
        rw [hkept] at hkeys
        refine .inl ⟨e, ?_, by rw [Reading.eval_bind, hkept]⟩
        show (c.orderChecked (entry :: rest) >>= fun _ =>
          c.iterator.reader.keysChecked (entry :: rest) >>= _) = _
        rw [horder, hkeys]
        rfl
      | ok _ =>
        rw [hkept] at hkeys
        rw [Reading.eval_bind_of_ok hkept]
        refine .inr ⟨{ c with
          firstKey := c.firstKey <|> some entry.key
          lastKey := some ((entry :: rest).getLast (List.cons_ne_nil entry rest)).key
          entries := entry :: rest
          entry := 0
          block := c.block + 1 }, entry, rest, ?_, ⟨h.sized, hlt, Nat.zero_le _⟩, rfl, rfl, rfl⟩
        show (c.orderChecked (entry :: rest) >>= fun _ =>
          c.iterator.reader.keysChecked (entry :: rest) >>= fun _ =>
            index (entry :: rest) ((entry :: rest).length - 1) >>= _) = _
        rw [horder, hkeys, (index_getLast hlast).2]
        rfl

theorem next_follows (hsource : Exact source) (h : c.InRange) :
    Follows (c.next source) (c.iterator.next.eval source .eof) := by
  rw [next]
  by_cases hdone : c.done = true
  · rw [if_pos hdone, SSTableEntryIterator.next, if_pos (show c.iterator.done = true from hdone)]
    exact ⟨rfl, h, by rintro _ _ ⟨⟩; rfl⟩
  rw [if_neg hdone, advance]
  have hopen : c.iterator.done = false := Bool.eq_false_iff.2 hdone
  by_cases hend : c.entry = c.entries.length
  · have hpending : c.iterator.pending = [] := List.drop_eq_nil_of_le hend.ge
    rw [if_pos hend]
    by_cases hlast : c.block = c.reader.index.length
    · rw [if_pos hlast, SSTableEntryIterator.next_of_finish hopen hpending
        (List.getElem?_eq_none hlast.ge)]
      exact finish_follows h
    · have hlt : c.block < c.reader.index.length := lt_of_le_of_ne h.block hlast
      have hblock := List.getElem?_eq_getElem hlt
      rw [if_neg hlast, SSTableEntryIterator.next_of_load hopen hpending hblock]
      rcases load_follows hsource h hblock with
        ⟨e, hload, hfails⟩ | ⟨c', entry, rest, hload, h', hentries, hzero, heval⟩
      · rw [hload, hfails]
        exact .failed h
      · obtain ⟨n, hn⟩ := Nat.exists_eq_succ_of_ne_zero (Nat.ne_zero_of_lt hlt)
        rw [hload, heval, hn]
        dsimp only
        rw [advance, if_neg (by rw [hzero, hentries]; simp)]
        exact emit_follows h' (by rw [hzero, hentries]; rfl)
  · have hlt : c.entry < c.entries.length := lt_of_le_of_ne h.entry hend
    have hdrop := List.drop_eq_getElem_cons hlt
    rw [if_neg hend, SSTableEntryIterator.next_of_pending hopen hdrop]
    exact emit_follows h hdrop

theorem results_safe (hsource : Exact source) (h : c.InRange) (count : Nat) :
    ∀ result ∈ c.results source count, Safe result := by
  induction count generalizing c with
  | zero => simp [results]
  | succ count ih =>
    have hnext := next_follows hsource h
    intro result hresult
    rcases List.mem_cons.1 hresult with rfl | hresult
    · rw [hnext.result]
      exact safe_returned _
    · exact ih hnext.inRange result hresult

/-- The cursor hands out what the iterator streams, and then says that it is done. -/
theorem results_of_yields (hsource : Exact source) (h : c.InRange) {entries : List TableEntry}
    (hyields : c.iterator.Yields source entries) :
    c.results source (entries.length + 1) = entries.map (fun e => .ok (some e)) ++ [.ok none] := by
  induction entries generalizing c with
  | nil =>
    obtain ⟨heval⟩ := hyields
    have hnext := next_follows hsource h
    rw [heval] at hnext
    show [(c.next source).1] = _
    rw [hnext.result]
    rfl
  | cons entry entries ih =>
    obtain - | ⟨heval, hrest⟩ := hyields
    have hnext := next_follows hsource h
    rw [heval] at hnext
    show (c.next source).1 :: (c.next source).2.results source (entries.length + 1) = _
    rw [hnext.result, ih hnext.inRange (hnext.state _ _ rfl ▸ hrest)]
    rfl

end TableCursor

/-! ### Tables -/

theorem decodeIndexFrom_length {count : Nat} {last : Option IndexEntry} {data : Bytes}
    {index : List IndexEntry} (h : decodeIndexFrom count last data = .ok index) :
    index.length = count := by
  induction count generalizing last data index with
  | zero =>
    rw [decodeIndexFrom] at h
    split at h
    · cases h
      rfl
    · cases h
  | succ count ih =>
    rw [decodeIndexFrom_succ, bind_eq_ok] at h
    obtain ⟨⟨entry, rest⟩, -, h⟩ := h
    dsimp only at h
    split at h
    · cases h
    · obtain ⟨later, hlater, h⟩ := bind_eq_ok.1 h
      cases h
      rw [List.length_cons, ih hlater]

theorem decodeIndex_length {data : Bytes} {index : List IndexEntry}
    (h : decodeIndex data = .ok index) : index.length ≤ data.length := by
  rw [decodeIndex] at h
  split at h
  · cases h
  · split at h
    · cases h
    · next hcount =>
      rw [decodeIndexFrom_length h]
      exact not_lt.1 hcount

theorem openSSTable_reader (hsource : Exact source) {size : Nat} {r : SSTableReader}
    (h : (openSSTable size).eval source .eof = .ok r) :
    r.bloom.Sized ∧ r.index.length ≤ maxInt64 := by
  simp only [openSSTable, openFooter, Reading.eval_bind_eq_ok, Reading.eval_ofExcept,
    Reading.eval_failIf_eq_ok] at h
  obtain ⟨-, -, trailer, -, -, -, -, -, metadata, -, -, -, -, -, -, -, indexData, hindexData, index,
    hindex, -, -, -, -, bloomData, -, bloom, hbloom, -, -, hr⟩ := h
  cases hr
  constructor
  · cases hunmarshal : unmarshalBloomFilter bloomData with
    | error e =>
      rw [hunmarshal] at hbloom
      cases hbloom
    | ok f =>
      rw [hunmarshal] at hbloom
      cases hbloom
      exact sized_unmarshalBloomFilter hunmarshal
  · exact (decodeIndex_length hindex).trans (eval_readBlock_length hsource hindexData)

/-- Whatever the bytes and the size are, opening a table and reading it end with a result or an
error, and with no access, offset or conversion out of range.  Where a scan reads the table, the
iterator hands out its records one by one. -/
theorem table_decoding_safe (bytes : Bytes) (size : Int64) :
    openSSTableChecked (SimFile.slice bytes) size.toInt =
        returned ((openSSTable size.toInt.toNat).eval (SimFile.slice bytes) .eof) ∧
    ∀ r, openSSTableChecked (SimFile.slice bytes) size.toInt = .ok r →
      (∀ key checkBloom, r.getChecked (SimFile.slice bytes) key checkBloom =
        returned ((r.get key checkBloom).eval (SimFile.slice bytes) .eof)) ∧
      r.allEntriesChecked (SimFile.slice bytes) =
        returned (r.allEntries.eval (SimFile.slice bytes) .eof) ∧
      (∀ count, ∀ result ∈ (TableCursor.start r).results (SimFile.slice bytes) count,
        ∀ t, result ≠ .error (.trap t)) ∧
      ∀ entries, r.allEntries.eval (SimFile.slice bytes) .eof = .ok entries →
        (TableCursor.start r).results (SimFile.slice bytes) (entries.length + 1) =
          entries.map (fun e => .ok (some e)) ++ [.ok none] := by
  have hsource := exact_slice bytes
  have hopen := openSSTableChecked_eq hsource size.toInt_lt
  refine ⟨hopen, ?_⟩
  intro r hr
  have hplain : (openSSTable size.toInt.toNat).eval (SimFile.slice bytes) .eof = .ok r := by
    rw [hopen] at hr
    cases hresult : (openSSTable size.toInt.toNat).eval (SimFile.slice bytes) .eof with
    | error e =>
      rw [hresult] at hr
      cases hr
    | ok r' =>
      rw [hresult] at hr
      cases hr
      rfl
  obtain ⟨hsized, hindex⟩ := openSSTable_reader hsource hplain
  have hstart : (TableCursor.start r).InRange := ⟨hsized, Nat.zero_le _, le_rfl⟩
  refine ⟨SSTableReader.getChecked_eq hsource hsized hindex,
    SSTableReader.allEntriesChecked_eq hsource hsized, TableCursor.results_safe hsource hstart, ?_⟩
  intro entries hentries
  exact TableCursor.results_of_yields hsource hstart
    (SSTableEntryIterator.yields_allEntries hentries)

/-- A table of two keys and its reader. -/
theorem table_decoding_safe_two :
    let entries : List TableEntry := [⟨[0], 3, [5], false⟩, ⟨[1], 2, [], true⟩]
    ∃ bytes r, openSSTableChecked (SimFile.slice bytes) (Int64.ofNat bytes.length).toInt = .ok r ∧
      r.allEntriesChecked (SimFile.slice bytes) = .ok entries ∧
      r.getChecked (SimFile.slice bytes) [1] true =
        returned ((r.get [1] true).eval (SimFile.slice bytes) .eof) ∧
      (TableCursor.start r).results (SimFile.slice bytes) 3 =
        entries.map (fun e => .ok (some e)) ++ [.ok none] := by
  intro entries
  have hlength : (encodeTable entries).toOption.any (·.length < 2 ^ 63) := by decide +kernel
  cases hbytes : encodeTable entries with
  | error err =>
    rw [hbytes] at hlength
    cases hlength
  | ok bytes =>
    have hsize : bytes.length < 2 ^ 63 := by simpa [hbytes, Except.toOption] using hlength
    have hstore : ∀ e ∈ entries, Storable e := by
      intro e he
      simp only [entries, List.mem_cons, List.not_mem_nil, or_false] at he
      rcases he with rfl | rfl <;> exact ⟨by decide, by decide⟩
    obtain ⟨reader, hopens, hreads⟩ :=
      encodeTable_tableOf hbytes hstore (by decide) (by simp only [maxInt64]; omega)
    obtain ⟨hopen, hreader⟩ := table_decoding_safe bytes (Int64.ofNat bytes.length)
    have hint : (Int64.ofNat bytes.length).toInt = bytes.length := Int64.toInt_ofNat_of_lt hsize
    have hchecked : openSSTableChecked (SimFile.slice bytes) (Int64.ofNat bytes.length).toInt =
        .ok reader := by
      rw [hopen, hint, Int.toNat_natCast, hopens]
      rfl
    obtain ⟨hget, hall, -, hiterate⟩ := hreader reader hchecked
    refine ⟨bytes, reader, hchecked, ?_, hget [1] true, hiterate entries hreads⟩
    rw [hall, hreads]
    rfl

end MiniQuorum.Lsm
