import MiniQuorum.Codec.Crc
import MiniQuorum.Codec.Frame
import MiniQuorum.Codec.Wire
import MiniQuorum.Storage.MemStorage

/-! The segmented write-ahead log.  An index fits 64 bits as long as a slice can hold the
entries before it, so no index computation wraps. -/

namespace MiniQuorum.Storage

open Raft Codec

def defaultRotateSize : Nat := 8 * 2 ^ 20

def castagnoli : BitVec 32 := 0x82f63b78#32

theorem symbolLimit_eq : (0x4F : UInt8).toNat = (0x40 : UInt8).toNat + 15 := by decide

theorem frameStart_ne : (0xFA : UInt8) ≠ 0xFB := by decide

theorem frameStart_outside : ¬((0x40 : UInt8) ≤ 0xFA ∧ (0xFA : UInt8) ≤ 0x4F) := by decide

theorem frameEnd_outside : ¬((0x40 : UInt8) ≤ 0xFB ∧ (0xFB : UInt8) ≤ 0x4F) := by decide

def frameFormat : Format where
  start := 0xFA
  stop := 0xFB
  base := 0x40
  limit := 0x4F
  checksum := Crc.checksum castagnoli
  limit_eq := symbolLimit_eq
  start_ne_stop := frameStart_ne
  start_outside := frameStart_outside
  stop_outside := frameEnd_outside
  checksum_ne before after _ _ hab := Crc.checksum_ne (by decide) (by decide) before after hab

inductive SaveError
  | closed
  | poisoned (cause : SaveError)
  | firstIndex (first last : Nat)
  | gap (index previous : Nat)
  | payloadOverflow (size : Nat)
  | frameOverflow (size : Nat)
  | batchOverflow
  | intOverflow (size : Nat)
  | sequenceOverflow
  | segmentExists (seq : Nat)
  | write (seq : Nat)
  deriving DecidableEq, Repr

inductive ApplyError
  | unmarshal
  | unsupportedKind
  | truncateZero
  | emptyEntries
  | firstIndex (first last : Nat)
  | gap (index previous : Nat)
  | unknownRecord
  deriving DecidableEq, Repr

inductive OpenError
  | negativeRotateSize (size : Int)
  | segmentExists (seq : Nat)
  | segmentGap (want found : Nat)
  | read (seq : Nat)
  | corruptFrame (seq : Nat) (fault : Fault ApplyError)
  | unterminated (seq offset : Nat)
  deriving DecidableEq, Repr

def OpenError.isCorrupt : OpenError → Bool
  | .segmentGap .. | .corruptFrame .. | .unterminated .. => true
  | _ => false

/-! ### Frames -/

def appendFrame (m : Marshaler LogRecord) (batch : Bytes) (record : LogRecord) :
    Except SaveError Bytes :=
  let payload := m.marshal record
  if payload.length > maxUint32 then .error (.payloadOverflow payload.length)
  else match checkedFrameSize payload.length with
    | none => .error (.frameOverflow payload.length)
    | some physicalSize =>
      match checkedAdd batch.length physicalSize with
      | none => .error .batchOverflow
      | some totalSize =>
        if (checkedInt physicalSize).isNone then .error (.intOverflow physicalSize)
        else if (checkedInt totalSize).isNone then .error (.intOverflow totalSize)
        else .ok (batch ++ frameFormat.frame payload)

def encodeBatch (m : Marshaler LogRecord) (hs : Option HardState) (entries : List Entry)
    (last : Nat) : Except SaveError Bytes :=
  (batchRecords hs entries last).foldlM (appendFrame m) []

/-! ### The mirror -/

def firstGap : List Entry → Option (Nat × Nat)
  | a :: b :: rest => if b.index ≠ a.index + 1 then some (b.index, a.index) else firstGap (b :: rest)
  | _ => none

def checkContiguous (entries : List Entry) (last : Nat) : Except SaveError Unit :=
  match entries with
  | [] => .ok ()
  | e :: _ =>
    if e.index = 0 ∨ e.index > last + 1 then .error (.firstIndex e.index last)
    else match firstGap entries with
      | some (index, previous) => .error (.gap index previous)
      | none => .ok ()

def truncateEntries (s : MemStorage) (index : Nat) : MemStorage :=
  { s with entries := s.entries.takeWhile (fun e => e.index < index) }

def LogRecord.hasSupportedKind : LogRecord → Bool
  | .unsupported => false
  | _ => true

def applyRecord (s : MemStorage) : LogRecord → Except ApplyError MemStorage
  | .hardState hs => .ok { s with hard := hs }
  | .truncate fromIndex =>
    if fromIndex = 0 then .error .truncateZero else .ok (truncateEntries s fromIndex)
  | .entries [] => .error .emptyEntries
  | .entries (e :: rest) =>
    let last := Storage.lastIndex s.entries
    if e.index = 0 ∨ e.index > last + 1 then .error (.firstIndex e.index last)
    else match firstGap (e :: rest) with
      | some (index, previous) => .error (.gap index previous)
      | none =>
        let s := truncateEntries s e.index
        .ok { s with entries := s.entries ++ e :: rest }
  | .unsupported => .error .unknownRecord

def applyPayload (m : Marshaler LogRecord) (s : MemStorage) (payload : Bytes) :
    Except ApplyError MemStorage :=
  match m.unmarshal payload with
  | none => .error .unmarshal
  | some record => if !record.hasSupportedKind then .error .unsupportedKind else applyRecord s record

/-! ### Segment files -/

abbrev Dir := List (Nat × Bytes)

namespace Dir

def read (dir : Dir) (seq : Nat) : Option Bytes := dir.lookup seq

def modify (dir : Dir) (seq : Nat) (f : Bytes → Bytes) : Dir :=
  dir.map fun file => if file.1 = seq then (seq, f file.2) else file

def create (dir : Dir) (seq : Nat) : Option Dir :=
  if (dir.lookup seq).isSome then none else some (dir ++ [(seq, [])])

end Dir

def firstMissing (want : Nat) : List Nat → Option (Nat × Nat)
  | [] => none
  | seq :: rest => if seq ≠ want then some (want, seq) else firstMissing (want + 1) rest

def listSegments (dir : Dir) : Except OpenError (List Nat) :=
  let seqs := (dir.map Prod.fst).insertionSort (· ≤ ·)
  match firstMissing 1 seqs with
  | some (want, seq) => .error (.segmentGap want seq)
  | none => .ok seqs

structure DiskLog where
  rotateSize : Nat
  active : Bool
  activeSeq : Nat
  activeSize : Nat
  mirror : MemStorage
  failed : Option SaveError
  closed : Bool
  deriving DecidableEq, Repr

def replaySegment (m : Marshaler LogRecord) (dir : Dir) (s : MemStorage) (seq : Nat)
    (final : Bool) : Dir × Except OpenError MemStorage :=
  match dir.read seq with
  | none => (dir, .error (.read seq))
  | some buf =>
    match frameFormat.replayFrom (applyPayload m) s 0 buf with
    | .error fault => (dir, .error (.corruptFrame seq fault))
    | .ok r =>
      if !r.torn then (dir, .ok r.state)
      else if !final then (dir, .error (.unterminated seq r.complete))
      else (dir.modify seq (·.take r.complete), .ok r.state)

def replaySegments (m : Marshaler LogRecord) (dir : Dir) (s : MemStorage) :
    List Nat → Dir × Except OpenError MemStorage
  | [] => (dir, .ok s)
  | seq :: rest =>
    match replaySegment m dir s seq rest.isEmpty with
    | (dir, .error e) => (dir, .error e)
    | (dir, .ok s) => replaySegments m dir s rest

namespace DiskLog

def openLog (m : Marshaler LogRecord) (dir : Dir) (rotateSize : Int) :
    Dir × Except OpenError DiskLog :=
  if rotateSize < 0 then (dir, .error (.negativeRotateSize rotateSize))
  else
    let rotateSize := if rotateSize = 0 then defaultRotateSize else rotateSize.toNat
    match listSegments dir with
    | .error e => (dir, .error e)
    | .ok seqs =>
      match seqs.getLast? with
      | none =>
        match dir.create 1 with
        | none => (dir, .error (.segmentExists 1))
        | some dir => (dir, .ok ⟨rotateSize, true, 1, 0, MemStorage.empty, none, false⟩)
      | some last =>
        match replaySegments m dir MemStorage.empty seqs with
        | (dir, .error e) => (dir, .error e)
        | (dir, .ok s) =>
          match dir.read last with
          | none => (dir, .error (.read last))
          | some bytes => (dir, .ok ⟨rotateSize, true, last, bytes.length, s, none, false⟩)

def hardState (l : DiskLog) : HardState := l.mirror.hard

def firstIndex (l : DiskLog) : Nat := (firstLast l.mirror.entries).1

def lastIndex (l : DiskLog) : Nat := Storage.lastIndex l.mirror.entries

def getEntries (l : DiskLog) (lo hi : Nat) : Option (List Entry) :=
  let first := (firstLast l.mirror.entries).1
  let last := (firstLast l.mirror.entries).2
  if lo > hi || lo < first || hi > indexAfter last then none
  else some ((l.mirror.entries.drop (lo - first)).take (hi - lo))

def close (l : DiskLog) : DiskLog := { l with closed := true }

def rotateIfNeeded (l : DiskLog) (dir : Dir) (batchSize : Nat) :
    Dir × DiskLog × Except SaveError Unit :=
  if l.activeSize = 0 ∨ (l.activeSize ≤ l.rotateSize ∧ batchSize ≤ l.rotateSize - l.activeSize) then
    (dir, l, .ok ())
  else
    let l := { l with active := false }
    if l.activeSeq = maxUint64 then (dir, l, .error .sequenceOverflow)
    else match dir.create (l.activeSeq + 1) with
      | none => (dir, l, .error (.segmentExists (l.activeSeq + 1)))
      | some dir =>
        (dir, { l with active := true, activeSeq := l.activeSeq + 1, activeSize := 0 }, .ok ())

/-- The write, the sync and the mirror update that end a `Save`.  With `torn = some k` the
write or the sync fails, or the process dies in it, and only the first `k` bytes of the
batch reach the file. -/
def appendBatch (torn : Option Nat) (l : DiskLog) (dir : Dir) (hs : Option HardState)
    (entries : List Entry) (batch : Bytes) : Dir × DiskLog × Except SaveError Unit :=
  match torn with
  | some k =>
    (dir.modify l.activeSeq (· ++ batch.take k),
      { l with failed := some (.write l.activeSeq) }, .error (.write l.activeSeq))
  | none =>
    let mirror := { l.mirror with hard := hs.getD l.mirror.hard }
    let mirror := match entries with
      | [] => mirror
      | e :: _ =>
        let cut := truncateEntries mirror e.index
        { cut with entries := cut.entries ++ entries }
    (dir.modify l.activeSeq (· ++ batch),
      { l with activeSize := l.activeSize + batch.length, mirror := mirror }, .ok ())

def save (m : Marshaler LogRecord) (torn : Option Nat) (l : DiskLog) (dir : Dir)
    (hs : Option HardState) (entries : List Entry) : Dir × DiskLog × Except SaveError Unit :=
  if l.closed then (dir, l, .error .closed)
  else match l.failed with
  | some cause => (dir, l, .error (.poisoned cause))
  | none =>
    if hs.isNone && entries.isEmpty then (dir, l, .ok ())
    else
      let last := l.lastIndex
      match checkContiguous entries last with
      | .error e => (dir, l, .error e)
      | .ok () =>
        match encodeBatch m hs entries last with
        | .error e => (dir, l, .error e)
        | .ok batch =>
          match l.rotateIfNeeded dir batch.length with
          | (dir, l, .error e) => (dir, { l with failed := some e }, .error e)
          | (dir, l, .ok ()) => l.appendBatch torn dir hs entries batch

end DiskLog

end MiniQuorum.Storage
