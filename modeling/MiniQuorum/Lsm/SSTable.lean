import MiniQuorum.Codec.Uvarint
import MiniQuorum.Lsm.Bloom
import MiniQuorum.Lsm.Manifest
import MiniQuorum.Program.Reading

/-! The sorted table: checksummed data blocks, an index, a Bloom filter and a footer. -/

namespace MiniQuorum.Lsm

open Codec Program

def dataBlockTarget : Nat := 4096

def footerMagic : Bytes := [0x4d, 0x51, 0x53, 0x53, 0x54, 0x42, 0x30, 0x31]

def footerTrailer : Nat := 16

structure TableEntry where
  key : Bytes
  seq : Nat
  value : Bytes
  tombstone : Bool
  deriving DecidableEq, Repr

def crc32c (data : Bytes) : Nat := (Crc.checksum castagnoli data).toNat

/-! ### Writing -/

def validSSTableRecordOrder (previousKey : Bytes) (previousSeq : Nat) (key : Bytes) (seq : Nat) :
    Prop :=
  previousKey < key ∨ key = previousKey ∧ seq < previousSeq

instance (previousKey : Bytes) (previousSeq : Nat) (key : Bytes) (seq : Nat) :
    Decidable (validSSTableRecordOrder previousKey previousSeq key seq) :=
  inferInstanceAs (Decidable (_ ∨ _))

def TableEntry.stored (entry : TableEntry) : TableEntry :=
  if entry.tombstone then { entry with value := [] } else entry

def SSTableWriter.add (entries : List TableEntry) (entry : TableEntry) :
    Except Err (List TableEntry) :=
  match entries.getLast? with
  | none => .ok (entries ++ [entry.stored])
  | some last =>
    if validSSTableRecordOrder last.key last.seq entry.key entry.seq then
      .ok (entries ++ [entry.stored])
    else .error (.text "lsm: entries are not sorted by key then strictly descending sequence")

def encodeRecord (entry : TableEntry) : Except Err Bytes :=
  if entry.key.length > maxUint32 ∨ entry.value.length > maxUint32 then
    .error (.text "lsm: record field too large")
  else
    let head := putUvarint entry.key.length ++ entry.key ++ littleEndian 8 entry.seq
    if entry.tombstone then .ok (head ++ [1] ++ putUvarint 0)
    else .ok (head ++ [0] ++ putUvarint entry.value.length ++ entry.value)

structure BuiltBlock where
  firstKey : Bytes
  data : Bytes
  deriving DecidableEq, Repr

/-- Blocks from the open one, which starts at `firstKey`, holds `data` and ends with
`previous`.  The versions of one key stay in one block. -/
def buildBlocksFrom (firstKey data : Bytes) (previous : TableEntry) :
    List TableEntry → Except Err (List BuiltBlock)
  | [] => .ok [⟨firstKey, data⟩]
  | entry :: rest => do
    let record ← encodeRecord entry
    if data.length + record.length > dataBlockTarget ∧ entry.key ≠ previous.key then
      let blocks ← buildBlocksFrom entry.key record entry rest
      return ⟨firstKey, data⟩ :: blocks
    else buildBlocksFrom firstKey (data ++ record) entry rest

def buildDataBlocks : List TableEntry → Except Err (List BuiltBlock)
  | [] => .ok []
  | entry :: rest => do
    let record ← encodeRecord entry
    buildBlocksFrom entry.key record entry rest

structure IndexEntry where
  firstKey : Bytes
  offset : Nat
  length : Nat
  deriving DecidableEq, Repr

def encodeIndexEntry (entry : IndexEntry) : Except Err Bytes :=
  if entry.firstKey.length > maxUint32 then .error (.text "lsm: index key too large")
  else
    .ok (putUvarint entry.firstKey.length ++ entry.firstKey ++ littleEndian 8 entry.offset ++
      littleEndian 8 entry.length)

def encodeIndexEntries : List IndexEntry → Except Err Bytes
  | [] => .ok []
  | entry :: rest => do
    let first ← encodeIndexEntry entry
    let later ← encodeIndexEntries rest
    return first ++ later

def encodeIndex (index : List IndexEntry) : Except Err Bytes := do
  let entries ← encodeIndexEntries index
  return putUvarint index.length ++ entries

def appendBlock (table payload : Bytes) : Except Err Bytes :=
  if payload.length > maxUint32 then .error (.text "lsm: block too large")
  else .ok (table ++ payload ++ littleEndian 4 (crc32c payload))

def appendDataBlocks (table : Bytes) : List BuiltBlock → Except Err (Bytes × List IndexEntry)
  | [] => .ok (table, [])
  | block :: rest => do
    let appended ← appendBlock table block.data
    let (final, index) ← appendDataBlocks appended rest
    return (final, ⟨block.firstKey, table.length, appended.length - table.length⟩ :: index)

def footerMetadata (indexOffset indexLength bloomOffset bloomLength count : Nat)
    (minKey maxKey : Bytes) : Bytes :=
  littleEndian 8 indexOffset ++ (littleEndian 8 indexLength ++ (littleEndian 8 bloomOffset ++
    (littleEndian 8 bloomLength ++ (littleEndian 8 count ++ (littleEndian 4 minKey.length ++
      (littleEndian 4 maxKey.length ++ (minKey ++ maxKey)))))))

def encodeFooter (indexOffset indexLength bloomOffset bloomLength count : Nat)
    (minKey maxKey : Bytes) : Except Err Bytes :=
  if minKey.length > maxUint32 ∨ maxKey.length > maxUint32 then
    .error (.text "lsm: footer key too large")
  else
    let metadata :=
      footerMetadata indexOffset indexLength bloomOffset bloomLength count minKey maxKey
    if metadata.length > maxUint32 then .error (.text "lsm: footer too large")
    else
      .ok (metadata ++ (littleEndian 4 (crc32c metadata) ++ (littleEndian 4 metadata.length ++
        footerMagic)))

def tableBloom (entries : List TableEntry) : Except Err Bytes :=
  match newBloomFilter entries.length with
  | none => .error (.text "lsm: invalid bloom filter")
  | some filter => ((entries.map TableEntry.key).foldl BloomFilter.add filter).marshalBinary

def encodeTable (entries : List TableEntry) : Except Err Bytes := do
  let blocks ← buildDataBlocks entries
  let (data, index) ← appendDataBlocks [] blocks
  let indexData ← encodeIndex index
  let withIndex ← appendBlock data indexData
  let bloomData ← tableBloom entries
  let withBloom ← appendBlock withIndex bloomData
  let minKey := (entries.head?.map TableEntry.key).getD []
  let maxKey := (entries.getLast?.map TableEntry.key).getD []
  let footer ← encodeFooter data.length (withIndex.length - data.length) withIndex.length
    (withBloom.length - withIndex.length) entries.length minKey maxKey
  return withBloom ++ footer

/-! ### Reading -/

def decodeRecord (data : Bytes) : Except Err (TableEntry × Bytes) :=
  match uvarint data with
  | none => .error (.corrupt "invalid key length")
  | some (keyLen, data) =>
    if keyLen > data.length ∨ data.length - keyLen < 9 then .error (.corrupt "truncated record")
    else
      let key := data.take keyLen
      let data := data.drop keyLen
      let seq := ofLittleEndian (data.take 8)
      let tombstone := data.getD 8 0
      if tombstone > 1 then .error (.corrupt "invalid tombstone marker")
      else
        match uvarint (data.drop 9) with
        | none => .error (.corrupt "invalid value length")
        | some (valueLen, data) =>
          if valueLen > data.length then .error (.corrupt "invalid value length")
          else if tombstone = 1 ∧ valueLen ≠ 0 then
            .error (.corrupt "truncated or invalid tombstone value")
          else
            .ok (⟨key, seq, data.take valueLen, tombstone = 1⟩, data.drop valueLen)

/-- The records of a block after `previous`.  A record takes at least a byte, so `fuel` is
the number of bytes. -/
def decodeRecordsFrom : Nat → Option TableEntry → Bytes → Except Err (List TableEntry)
  | _, _, [] => .ok []
  | 0, _, _ => .error (.corrupt "truncated record")
  | fuel + 1, previous, data => do
    let (entry, rest) ← decodeRecord data
    if previous.all fun p => validSSTableRecordOrder p.key p.seq entry.key entry.seq then
      let entries ← decodeRecordsFrom fuel (some entry) rest
      return entry :: entries
    else .error (.corrupt "records are not ordered by key then strictly descending sequence")

def decodeRecords (data : Bytes) : Except Err (List TableEntry) :=
  decodeRecordsFrom data.length none data

def decodeIndexFrom : Nat → Option IndexEntry → Bytes → Except Err (List IndexEntry)
  | 0, _, data => if data = [] then .ok [] else .error (.corrupt "trailing index bytes")
  | count + 1, last, data =>
    match uvarint data with
    | none => .error (.corrupt "invalid index key length")
    | some (keyLen, data) =>
      if keyLen > data.length ∨ data.length - keyLen < 16 then
        .error (.corrupt "truncated index entry")
      else
        let fixed := data.drop keyLen
        let entry : IndexEntry := ⟨data.take keyLen, ofLittleEndian (fixed.take 8),
          ofLittleEndian ((fixed.drop 8).take 8)⟩
        if entry.length < 4 ∨ last.any (fun p => ¬p.firstKey < entry.firstKey) then
          .error (.corrupt "invalid index ordering")
        else do
          let index ← decodeIndexFrom count (some entry) (fixed.drop 16)
          return entry :: index

def decodeIndex (data : Bytes) : Except Err (List IndexEntry) :=
  match uvarint data with
  | none => .error (.corrupt "invalid index count")
  | some (count, rest) =>
    if count > data.length then .error (.corrupt "invalid index count")
    else decodeIndexFrom count none rest

def readBlock (offset length : Nat) : Reading Err Bytes := do
  Reading.failIf (length < 4 ∨ offset > maxInt64 ∨ length > maxInt64 ∨ offset + length > maxInt64)
    (.corrupt "invalid block bounds")
  let block ← Reading.ask length offset fun _ => .corrupt "read block"
  let payload := block.take (block.length - 4)
  Reading.failIf (crc32c payload ≠ ofLittleEndian (block.drop (block.length - 4)))
    (.corrupt "block crc32c mismatch")
  return payload

structure SSTableReader where
  index : List IndexEntry
  bloom : BloomFilter
  entryCount : Nat
  minKey : Bytes
  maxKey : Bytes
  deriving DecidableEq, Repr

def validBlockBounds (indexOffset : Nat) : Option IndexEntry → List IndexEntry → Bool
  | _, [] => true
  | previous, entry :: rest =>
    entry.offset < indexOffset && entry.length ≤ indexOffset - entry.offset &&
      previous.all (fun p => p.offset + p.length ≤ entry.offset) &&
      validBlockBounds indexOffset (some entry) rest

structure Footer where
  indexOffset : Nat
  indexLength : Nat
  bloomOffset : Nat
  bloomLength : Nat
  entryCount : Nat
  minLen : Nat
  maxLen : Nat
  keys : Bytes
  deriving DecidableEq, Repr

def decodeMetadata (metadata : Bytes) : Footer :=
  let field (start width : Nat) := ofLittleEndian ((metadata.drop start).take width)
  { indexOffset := field 0 8
    indexLength := field 8 8
    bloomOffset := field 16 8
    bloomLength := field 24 8
    entryCount := field 32 8
    minLen := field 40 4
    maxLen := field 44 4
    keys := metadata.drop 48 }

def openFooter (footerStart : Nat) (footer : Footer) : Reading Err SSTableReader := do
  Reading.failIf (footer.keys.length ≠ footer.minLen + footer.maxLen ∨ footer.indexLength < 4 ∨
    footer.bloomLength < 4) (.corrupt "invalid footer metadata")
  Reading.failIf (footer.indexOffset > footerStart ∨
    footer.indexLength > footerStart - footer.indexOffset ∨ footer.bloomOffset > footerStart ∨
    footer.bloomLength > footerStart - footer.bloomOffset ∨
    footer.indexOffset + footer.indexLength > footer.bloomOffset) (.corrupt "footer block bounds")
  let indexData ← readBlock footer.indexOffset footer.indexLength
  let index ← Reading.ofExcept (decodeIndex indexData)
  Reading.failIf (decide (footer.entryCount = 0) ≠ decide (index.length = 0))
    (.corrupt "empty table index mismatch")
  Reading.failIf (validBlockBounds footer.indexOffset none index = false)
    (.corrupt "data block bounds")
  let bloomData ← readBlock footer.bloomOffset footer.bloomLength
  let bloom ← Reading.ofExcept ((unmarshalBloomFilter bloomData).mapError fun _ => .corrupt "bloom")
  let minKey := footer.keys.take footer.minLen
  let maxKey := footer.keys.drop footer.minLen
  Reading.failIf (footer.entryCount > 0 ∧ maxKey < minKey) (.corrupt "footer key order")
  return ⟨index, bloom, footer.entryCount, minKey, maxKey⟩

def openSSTable (size : Nat) : Reading Err SSTableReader := do
  Reading.failIf (size < footerTrailer) (.corrupt "missing footer")
  let trailer ← Reading.ask footerTrailer (size - footerTrailer) fun _ =>
    .corrupt "read footer trailer"
  Reading.failIf (trailer.drop 8 ≠ footerMagic) (.corrupt "bad footer magic")
  let metadataLen := ofLittleEndian ((trailer.drop 4).take 4)
  Reading.failIf (metadataLen < 48 ∨ metadataLen > size - footerTrailer)
    (.corrupt "invalid footer length")
  let footerStart := size - footerTrailer - metadataLen
  let metadata ← Reading.ask metadataLen footerStart fun _ => .corrupt "read footer"
  Reading.failIf (ofLittleEndian (trailer.take 4) ≠ crc32c metadata)
    (.corrupt "footer crc32c mismatch")
  openFooter footerStart (decodeMetadata metadata)

def searchFrom (f : Nat → Bool) : Nat → Nat → Nat → Nat
  | 0, i, _ => i
  | fuel + 1, i, j =>
    if i < j then
      let h := (i + j) / 2
      if f h then searchFrom f fuel i h else searchFrom f fuel (h + 1) j
    else i

def search (n : Nat) (f : Nat → Bool) : Nat := searchFrom f n 0 n

def readRecords (entry : IndexEntry) : Reading Err (List TableEntry) := do
  let data ← readBlock entry.offset entry.length
  let entries ← Reading.ofExcept (decodeRecords data)
  Reading.failIf (entries.head?.map TableEntry.key ≠ some entry.firstKey)
    (.corrupt "index first key does not match data block")
  return entries

namespace SSTableReader

def get (r : SSTableReader) (key : Bytes) (checkBloom : Bool) : Reading Err (Option TableEntry) :=
  if r.entryCount = 0 ∨ checkBloom ∧ !r.bloom.mayContain key ∨ key < r.minKey ∨ r.maxKey < key then
    return none
  else
    let i := search r.index.length fun i => (r.index[i]?).any fun entry => key < entry.firstKey
    if i = 0 then return none
    else
      match r.index[i - 1]? with
      | none => return none
      | some entry => do
        let entries ← readRecords entry
        return (entries.takeWhile fun e => ¬key < e.key).find? fun e => e.key = key

def blockEntries (r : SSTableReader) (last : Option Bytes) :
    List IndexEntry → Reading Err (List TableEntry)
  | [] => return []
  | block :: rest => do
    let decoded ← readRecords block
    Reading.failIf (last.any fun key => ¬key < block.firstKey)
      (.corrupt "records out of order or same key spans data blocks")
    Reading.failIf (decoded.any fun e => !r.bloom.mayContain e.key)
      (.corrupt "bloom false negative for stored key")
    let entries ← r.blockEntries (decoded.getLast?.map TableEntry.key) rest
    return decoded ++ entries

def allEntries (r : SSTableReader) : Reading Err (List TableEntry) := do
  let entries ← r.blockEntries none r.index
  Reading.failIf (entries.length ≠ r.entryCount) (.corrupt "entry count")
  Reading.failIf (entries ≠ [] ∧ (entries.head?.map TableEntry.key ≠ some r.minKey ∨
    entries.getLast?.map TableEntry.key ≠ some r.maxKey))
    (.corrupt "footer key bounds do not match records")
  return entries

end SSTableReader

end MiniQuorum.Lsm
