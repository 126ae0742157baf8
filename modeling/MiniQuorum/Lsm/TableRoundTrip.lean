import MiniQuorum.Lsm.TableReads

/-! What the writer accepts, a reader reads: the whole table and each of its keys. -/

namespace MiniQuorum.Lsm

open Codec Program SimFile

/-! ### Adding entries -/

@[simp] theorem TableEntry.stored_key (e : TableEntry) : e.stored.key = e.key := by
  rw [stored]
  split <;> rfl

@[simp] theorem TableEntry.stored_seq (e : TableEntry) : e.stored.seq = e.seq := by
  rw [stored]
  split <;> rfl

theorem TableEntry.storable_stored {e : TableEntry} (h : e.seq < 2 ^ 64) : Storable e.stored := by
  refine ⟨by rwa [stored_seq], ?_⟩
  intro htombstone
  rw [stored] at htombstone ⊢
  split
  · rfl
  · next hlive =>
    rw [if_neg hlive] at htombstone
    exact absurd htombstone hlive

theorem TableEntry.stored_of_storable {e : TableEntry} (h : Storable e) : e.stored = e := by
  rw [stored]
  split
  · next htombstone => rw [← h.tombstone htombstone]
  · rfl

namespace SSTableWriter

theorem add_of_lt {entries : List TableEntry} {entry : TableEntry}
    (h : ∀ e ∈ entries, e.key < entry.key) : add entries entry = .ok (entries ++ [entry.stored]) := by
  rw [add]
  split
  · rfl
  · next last hlast =>
    rw [if_pos (.inl (h last (List.mem_of_getLast? hlast)))]

theorem add_eq_ok {entries added : List TableEntry} {entry : TableEntry}
    (h : add entries entry = .ok added) (hsorted : entries.Pairwise RecordOrder) :
    added = entries ++ [entry.stored] ∧ added.Pairwise RecordOrder := by
  rw [add] at h
  split at h
  · next hlast =>
    cases h
    rw [List.getLast?_eq_none_iff.1 hlast]
    exact ⟨rfl, List.pairwise_singleton _ _⟩
  · next last hlast =>
    split at h
    · next horder =>
      cases h
      refine ⟨rfl, ?_⟩
      obtain ⟨init, rfl⟩ := List.getLast?_eq_some_iff.1 hlast
      have hlastOrder : RecordOrder last entry.stored := by simpa [RecordOrder] using horder
      refine List.pairwise_append.2 ⟨hsorted, List.pairwise_singleton _ _, ?_⟩
      intro a ha b hb
      rw [List.mem_singleton.1 hb]
      rcases List.mem_append.1 ha with ha | ha
      · exact ((List.pairwise_append.1 hsorted).2.2 a ha last (by simp)).trans hlastOrder
      · rw [List.mem_singleton.1 ha]
        exact hlastOrder
    · cases h

theorem foldlM_add_eq_ok {entries start added : List TableEntry}
    (h : entries.foldlM add start = .ok added) (hsorted : start.Pairwise RecordOrder) :
    added = start ++ entries.map TableEntry.stored ∧ added.Pairwise RecordOrder := by
  induction entries generalizing start with
  | nil =>
    cases h
    exact ⟨by simp, hsorted⟩
  | cons entry entries ih =>
    obtain ⟨mid, hmid, h⟩ := foldlM_cons_eq_ok.1 h
    obtain ⟨rfl, hmidSorted⟩ := add_eq_ok hmid hsorted
    obtain ⟨rfl, hadded⟩ := ih h hmidSorted
    exact ⟨by simp, hadded⟩

end SSTableWriter

/-! ### What `Finish` can write -/

structure Fits (entries : List TableEntry) : Prop where
  keys : ∀ e ∈ entries, e.key.length ≤ maxUint32
  values : ∀ e ∈ entries, e.value.length ≤ maxUint32
  data : ∀ blocks, buildDataBlocks entries = .ok blocks →
    ∀ block ∈ blocks, block.data.length ≤ maxUint32
  index : ∀ blocks table index bytes, buildDataBlocks entries = .ok blocks →
    appendDataBlocks [] blocks = .ok (table, index) → encodeIndex index = .ok bytes →
      bytes.length ≤ maxUint32
  bloom : bloomHeaderSize + (max (entries.length * bloomBitsPerKey) 8 + 7) / 8 ≤ maxUint32
  footer : 48 + ((entries.head?.map TableEntry.key).getD []).length +
    ((entries.getLast?.map TableEntry.key).getD []).length ≤ maxUint32

theorem encodeRecord_ok {e : TableEntry} (hkey : e.key.length ≤ maxUint32)
    (hvalue : e.value.length ≤ maxUint32) : ∃ record, encodeRecord e = .ok record := by
  rw [encodeRecord, if_neg (by omega)]
  dsimp only
  split
  · exact ⟨_, rfl⟩
  · exact ⟨_, rfl⟩

theorem buildBlocksFrom_ok {rest : List TableEntry} (hkeys : ∀ e ∈ rest, e.key.length ≤ maxUint32)
    (hvalues : ∀ e ∈ rest, e.value.length ≤ maxUint32) (firstKey data : Bytes)
    (previous : TableEntry) (hfirst : firstKey.length ≤ maxUint32) :
    ∃ blocks, buildBlocksFrom firstKey data previous rest = .ok blocks ∧
      ∀ block ∈ blocks, block.firstKey.length ≤ maxUint32 := by
  induction rest generalizing firstKey data previous with
  | nil =>
    refine ⟨_, rfl, ?_⟩
    intro block hblock
    rw [List.mem_singleton.1 hblock]
    exact hfirst
  | cons entry rest ih =>
    have hkey := hkeys entry (by simp)
    obtain ⟨record, hrecord⟩ := encodeRecord_ok hkey (hvalues entry (by simp))
    have ih := ih (fun e he => hkeys e (by simp [he])) (fun e he => hvalues e (by simp [he]))
    simp only [buildBlocksFrom, hrecord, bind, Except.bind]
    split
    · obtain ⟨blocks, hblocks, hfirsts⟩ := ih entry.key record entry hkey
      refine ⟨⟨firstKey, data⟩ :: blocks, by rw [hblocks]; rfl, ?_⟩
      intro block hblock
      rcases List.mem_cons.1 hblock with rfl | hblock
      · exact hfirst
      · exact hfirsts block hblock
    · exact ih firstKey (data ++ record) entry hfirst

theorem buildDataBlocks_ok {entries : List TableEntry}
    (hkeys : ∀ e ∈ entries, e.key.length ≤ maxUint32)
    (hvalues : ∀ e ∈ entries, e.value.length ≤ maxUint32) :
    ∃ blocks, buildDataBlocks entries = .ok blocks ∧
      ∀ block ∈ blocks, block.firstKey.length ≤ maxUint32 := by
  cases entries with
  | nil => exact ⟨[], rfl, by simp⟩
  | cons entry rest =>
    have hkey := hkeys entry (by simp)
    obtain ⟨record, hrecord⟩ := encodeRecord_ok hkey (hvalues entry (by simp))
    simp only [buildDataBlocks, hrecord, bind, Except.bind]
    exact buildBlocksFrom_ok (fun e he => hkeys e (by simp [he]))
      (fun e he => hvalues e (by simp [he])) _ _ _ hkey

theorem appendBlock_ok {payload : Bytes} (table : Bytes) (h : payload.length ≤ maxUint32) :
    appendBlock table payload = .ok (table ++ sealed payload) := by
  rw [appendBlock, if_neg (by omega), sealed, List.append_assoc]

theorem appendDataBlocks_ok {blocks : List BuiltBlock}
    (hdata : ∀ block ∈ blocks, block.data.length ≤ maxUint32)
    (hfirst : ∀ block ∈ blocks, block.firstKey.length ≤ maxUint32) (table : Bytes) :
    ∃ final index, appendDataBlocks table blocks = .ok (final, index) ∧
      ∀ entry ∈ index, entry.firstKey.length ≤ maxUint32 := by
  induction blocks generalizing table with
  | nil => exact ⟨table, [], rfl, by simp⟩
  | cons block rest ih =>
    obtain ⟨final, index, happend, hindex⟩ := ih (fun b hb => hdata b (by simp [hb]))
      (fun b hb => hfirst b (by simp [hb])) (table ++ sealed block.data)
    refine ⟨final, ⟨block.firstKey, table.length,
      (table ++ sealed block.data).length - table.length⟩ :: index, ?_, ?_⟩
    · simp only [appendDataBlocks, appendBlock_ok table (hdata block (by simp)), bind, Except.bind,
        happend]
      rfl
    · intro entry hentry
      rcases List.mem_cons.1 hentry with rfl | hentry
      · exact hfirst block (by simp)
      · exact hindex entry hentry

theorem encodeIndex_ok {index : List IndexEntry}
    (h : ∀ entry ∈ index, entry.firstKey.length ≤ maxUint32) :
    ∃ bytes, encodeIndex index = .ok bytes := by
  have hentries : ∃ bytes, encodeIndexEntries index = .ok bytes := by
    induction index with
    | nil => exact ⟨[], rfl⟩
    | cons entry rest ih =>
      obtain ⟨later, hlater⟩ := ih fun e he => h e (by simp [he])
      have hkey : ¬entry.firstKey.length > maxUint32 := not_lt.2 (h entry (by simp))
      simp only [encodeIndexEntries, encodeIndexEntry, if_neg hkey, bind, Except.bind, hlater]
      exact ⟨_, rfl⟩
  obtain ⟨bytes, hbytes⟩ := hentries
  simp only [encodeIndex, hbytes, bind, Except.bind]
  exact ⟨_, rfl⟩

theorem bloomByteLen_eq (bits : Nat) (h : (bits + 7) / 8 ≤ maxInt64) :
    bloomByteLen bits = some ((bits + 7) / 8) := by
  have hlen : (if bits % 8 ≠ 0 then bits / 8 + 1 else bits / 8) = (bits + 7) / 8 := by
    split <;> omega
  rw [bloomByteLen, hlen, checkedInt_of_le h]

theorem BloomFilter.Sized.marshalBinary_ok {f : BloomFilter} (h : f.Sized)
    (hlen : bloomHeaderSize + f.bits.length ≤ maxUint32) :
    ∃ bytes, f.marshalBinary = .ok bytes ∧ bytes.length = bloomHeaderSize + f.bits.length := by
  have hpos := h.pos
  have hfits : ¬(f.m = 0 ∨ f.bits.length ≠ f.bits.length ∨
      f.bits.length > maxInt64 - bloomHeaderSize) := by
    simp only [maxUint32, maxInt64, bloomHeaderSize] at hlen ⊢
    omega
  rw [BloomFilter.marshalBinary, h.bytes]
  dsimp only
  rw [if_neg hfits]
  exact ⟨_, rfl, by simp [bloomHeaderSize]; omega⟩

theorem tableBloom_ok {entries : List TableEntry}
    (h : bloomHeaderSize + (max (entries.length * bloomBitsPerKey) 8 + 7) / 8 ≤ maxUint32) :
    ∃ bytes, tableBloom entries = .ok bytes ∧ bytes.length ≤ maxUint32 := by
  have hbytes := bloomByteLen_eq (max (entries.length * bloomBitsPerKey) 8)
    (by simp only [maxInt64, maxUint32, bloomHeaderSize] at h ⊢; omega)
  cases hnew : newBloomFilter entries.length with
  | none =>
    rw [newBloomFilter, bloomSize, if_neg] at hnew
    · simp only [hbytes] at hnew
      cases hnew
    · simp only [bloomBitsPerKey, bloomHeaderSize, maxUint32, maxUint64] at h ⊢
      omega
  | some filter =>
    have hsized := (BloomFilter.sized_newBloomFilter hnew).foldl_add (entries.map TableEntry.key)
    have hm : filter.m = max (entries.length * bloomBitsPerKey) 8 := by
      rw [newBloomFilter, bloomSize] at hnew
      split at hnew
      · cases hnew
      · simp only [hbytes] at hnew
        cases hnew
        rfl
    have hlen := hsized.bytes
    rw [BloomFilter.m_foldl_add, hm, hbytes, Option.some.injEq] at hlen
    rw [hlen] at h
    obtain ⟨bytes, hmarshal, hbytesLen⟩ := hsized.marshalBinary_ok h
    refine ⟨bytes, ?_, hbytesLen.trans_le h⟩
    rw [tableBloom, hnew]
    exact hmarshal

theorem encodeFooter_ok (a b c d n : Nat) {minKey maxKey : Bytes}
    (h : 48 + minKey.length + maxKey.length ≤ maxUint32) :
    ∃ footer, encodeFooter a b c d n minKey maxKey = .ok footer := by
  rw [encodeFooter, if_neg (by omega)]
  dsimp only
  rw [if_neg]
  · exact ⟨_, rfl⟩
  · rw [length_footerMetadata]
    omega

theorem Fits.encodeTable {entries : List TableEntry} (h : Fits entries) :
    ∃ bytes, encodeTable entries = .ok bytes := by
  obtain ⟨blocks, hblocks, hfirst⟩ := buildDataBlocks_ok h.keys h.values
  obtain ⟨data, index, hdata, hkeys⟩ := appendDataBlocks_ok (h.data blocks hblocks) hfirst []
  obtain ⟨indexData, hindex⟩ := encodeIndex_ok hkeys
  obtain ⟨bloomData, hbloom, hbloomLen⟩ := tableBloom_ok h.bloom
  have hwithIndex := appendBlock_ok data (h.index blocks data index indexData hblocks hdata hindex)
  have hwithBloom := appendBlock_ok (data ++ sealed indexData) hbloomLen
  obtain ⟨footer, hfooter⟩ := encodeFooter_ok data.length
    ((data ++ sealed indexData).length - data.length) (data ++ sealed indexData).length
    ((data ++ sealed indexData ++ sealed bloomData).length - (data ++ sealed indexData).length)
    entries.length h.footer
  simp only [Lsm.encodeTable, hblocks, hdata, hindex, hwithIndex, hbloom, hwithBloom, hfooter, bind,
    Except.bind]
  exact ⟨_, rfl⟩

/-! ### Reading it back -/

/-- What a writer accepted and finished, a reader opens and reads back entry by entry, the
versions of a key in one block.  A file is no longer than an offset can say. -/
theorem table_roundTrip {entries added : List TableEntry} (hseq : ∀ e ∈ entries, e.seq < 2 ^ 64)
    (hadd : entries.foldlM SSTableWriter.add [] = .ok added) :
    (Fits added → ∃ bytes, encodeTable added = .ok bytes) ∧
    ∀ bytes, encodeTable added = .ok bytes → bytes.length ≤ maxInt64 →
      ∃ reader groups, (openSSTable bytes.length).eval (slice bytes) .eof = .ok reader ∧
        reader.allEntries.eval (slice bytes) .eof = .ok (entries.map TableEntry.stored) ∧
        reader.entryCount = entries.length ∧
        groups.flatten = entries.map TableEntry.stored ∧
        List.Forall₂ (fun entry group =>
          (readRecords entry).eval (slice bytes) .eof = .ok group) reader.index groups ∧
        groups.Pairwise fun g h => ∀ a ∈ g, ∀ b ∈ h, a.key ≠ b.key := by
  obtain ⟨rfl, hsorted⟩ := SSTableWriter.foldlM_add_eq_ok hadd List.Pairwise.nil
  rw [List.nil_append] at hsorted ⊢
  refine ⟨fun hfits => hfits.encodeTable, ?_⟩
  intro bytes hbytes hsize
  have hstore : ∀ e ∈ entries.map TableEntry.stored, Storable e := by
    intro e he
    obtain ⟨d, hd, rfl⟩ := List.mem_map.1 he
    exact TableEntry.storable_stored (hseq d hd)
  obtain ⟨reader, hopens, hreads⟩ := encodeTable_tableOf hbytes hstore hsorted hsize
  obtain ⟨groups, hflatten, hscanned⟩ := allEntries_scanned hreads
  refine ⟨reader, groups, hopens, hreads, ?_, hflatten, hscanned.blocks, ?_⟩
  · rw [← hscanned.count, hflatten, List.length_map]
  · exact hscanned.ordered.imp fun h a ha b hb => (h a ha b hb).ne

/-- An empty key, and a key whose tombstone is older than its value. -/
theorem table_roundTrip_versions :
    let entries : List TableEntry := [⟨[], 3, [], false⟩, ⟨[1], 2, [7], false⟩, ⟨[1], 1, [], true⟩]
    ∃ bytes reader, encodeTable entries = .ok bytes ∧
      (openSSTable bytes.length).eval (slice bytes) .eof = .ok reader ∧
      reader.allEntries.eval (slice bytes) .eof = .ok entries := by
  intro entries
  have hadd : entries.foldlM SSTableWriter.add [] = .ok entries := by rfl
  have hfits : Fits entries := by
    refine ⟨by decide, by decide, ?_, ?_, by decide, by decide⟩
    · intro blocks hblocks
      cases hblocks
      decide
    · intro blocks table index bytes hblocks htable hbytes
      cases hblocks
      cases htable
      cases hbytes
      decide
  obtain ⟨hfinish, hread⟩ := table_roundTrip (by decide) hadd
  obtain ⟨bytes, hbytes⟩ := hfinish hfits
  have hlength : (encodeTable entries).toOption.all (·.length ≤ maxInt64) := by decide +kernel
  have hsize : bytes.length ≤ maxInt64 := by simpa [hbytes, Except.toOption] using hlength
  obtain ⟨reader, groups, hopens, hreads, -⟩ := hread bytes hbytes hsize
  exact ⟨bytes, reader, hbytes, hopens, hreads⟩

/-- A point read agrees with a full scan that succeeds, whoever wrote the bytes and whatever
reader is on them, and finds the newest version. -/
theorem get_eq_scan {bytes : Bytes} {reader : SSTableReader} {entries : List TableEntry}
    (hall : reader.allEntries.eval (slice bytes) .eof = .ok entries) (key : Bytes)
    (checkBloom : Bool) :
    (reader.get key checkBloom).eval (slice bytes) .eof =
      .ok (entries.find? fun e => e.key = key) ∧
    ∀ e, entries.find? (fun e => e.key = key) = some e →
      ∀ d ∈ entries, d.key = key → d.seq ≤ e.seq := by
  obtain ⟨groups, rfl, hscanned⟩ := allEntries_scanned hall
  refine ⟨hscanned.get key checkBloom, ?_⟩
  intro e he d hd hkey
  obtain ⟨hekey, before, after, hsplit, hbefore⟩ := List.find?_eq_some_iff_append.1 he
  have hsorted := sorted_flatten hscanned.blocks hscanned.ordered
  rw [hsplit] at hsorted hd
  rcases List.mem_append.1 hd with hd | hd
  · exact absurd hkey (by simpa using hbefore d hd)
  · rcases List.mem_cons.1 hd with rfl | hd
    · exact le_rfl
    · have horder := (List.pairwise_cons.1 (List.pairwise_append.1 hsorted).2.1).1 d hd
      rcases horder with hlt | ⟨-, hseq⟩
      · rw [hkey, ← of_decide_eq_true hekey] at hlt
        exact absurd hlt (lt_irrefl _)
      · exact hseq.le

/-- The bytes of a table with a live key, a key with two versions and nothing else, read with
and without the filter. -/
theorem get_eq_scan_versions :
    let entries : List TableEntry := [⟨[0], 3, [5], false⟩, ⟨[1], 2, [7], false⟩, ⟨[1], 1, [], true⟩]
    ∃ bytes reader, (openSSTable bytes.length).eval (slice bytes) .eof = .ok reader ∧
      reader.allEntries.eval (slice bytes) .eof = .ok entries ∧
      (reader.get [1] true).eval (slice bytes) .eof = .ok (some ⟨[1], 2, [7], false⟩) ∧
      (reader.get [2] false).eval (slice bytes) .eof = .ok none := by
  intro entries
  have hlength : (encodeTable entries).toOption.any (·.length ≤ maxInt64) := by decide +kernel
  cases hbytes : encodeTable entries with
  | error err =>
    rw [hbytes] at hlength
    cases hlength
  | ok bytes =>
    have hsize : bytes.length ≤ maxInt64 := by simpa [hbytes, Except.toOption] using hlength
    have hstore : ∀ e ∈ entries, Storable e := by
      intro e he
      simp only [entries, List.mem_cons, List.not_mem_nil, or_false] at he
      rcases he with rfl | rfl | rfl <;> exact ⟨by decide, by decide⟩
    have hadd : entries.foldlM SSTableWriter.add [] = .ok entries := by rfl
    have hsorted := (SSTableWriter.foldlM_add_eq_ok hadd List.Pairwise.nil).2
    obtain ⟨reader, hopens, hreads⟩ := encodeTable_tableOf hbytes hstore hsorted hsize
    exact ⟨bytes, reader, hopens, hreads, (get_eq_scan hreads [1] true).1,
      (get_eq_scan hreads [2] false).1⟩

end MiniQuorum.Lsm
