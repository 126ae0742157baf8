import MiniQuorum.Codec.LengthFrame
import MiniQuorum.Storage.DiskLog

/-! The simulator's storage: records of each save are staged, synced, and cut by a crash in
between.  The live view and the parse of the surviving bytes are in-memory storages. -/

namespace MiniQuorum.Sim

open Raft Codec Storage

inductive CrashPoint
  | hostInitiated | beforeSync | afterSyncBeforeSend | afterSend
  deriving DecidableEq, Repr

abbrev Retain := Option Nat

structure CrashDirective where
  node : NodeID
  save : Nat
  point : CrashPoint
  retainUnsynced : Retain
  restartAfterCrash : Bool
  deriving DecidableEq, Repr

structure CrashInfo where
  save : Nat
  point : CrashPoint
  unsyncedBytes : Nat
  retainedBytes : Nat
  deriving DecidableEq, Repr

/-! ### Records -/

def recordKindHardState : UInt8 := 1

def recordKindEntries : UInt8 := 2

def recordKindTruncate : UInt8 := 3

def entryTypeValue : EntryType → Int
  | .unspecified => 0
  | .normal => 1
  | .noop => 2
  | .unrecognized value => value

def entryTypeOf (value : Int) : EntryType :=
  if value = 0 then .unspecified
  else if value = 1 then .normal
  else if value = 2 then .noop
  else .unrecognized value

def int32Of (n : Nat) : Int := if n < 2 ^ 31 then n else n - 2 ^ 32

def hardStatePayload (hs : HardState) : Bytes :=
  recordKindHardState :: (littleEndian 8 hs.term ++ littleEndian 8 hs.votedFor)

def truncatePayload (fromIndex : Nat) : Bytes :=
  recordKindTruncate :: littleEndian 8 fromIndex

def entryBytes (e : Entry) : Bytes :=
  littleEndian 8 e.index ++ (littleEndian 8 e.term ++
    (littleEndian 4 (entryTypeValue e.type % 2 ^ 32).toNat ++
      (littleEndian 4 e.data.length ++ e.data)))

def entriesPayload (entries : List Entry) : Bytes :=
  recordKindEntries :: (littleEndian 4 entries.length ++ entries.flatMap entryBytes)

def appendRecord (dst payload : Bytes) : Bytes :=
  dst ++ LengthFrame.record (Crc.checksum castagnoli) payload

inductive RecordError
  | emptyPayload
  | hardStateLength (size : Nat)
  | truncateLength (size : Nat)
  | truncateZero
  | shortCount
  | zeroEntries
  | entryTruncated (entry : Nat)
  | dataTruncated (entry : Nat)
  | trailingBytes (size : Nat)
  | unknownKind (kind : UInt8)
  deriving DecidableEq, Repr

def decodeEntries : Nat → Nat → Bytes → Except RecordError (List Entry × Bytes)
  | 0, _, body => .ok ([], body)
  | count + 1, i, body =>
    if body.length < 24 then .error (.entryTruncated i)
    else
      let dataLen := ofLittleEndian ((body.drop 20).take 4)
      if body.length < 24 + dataLen then .error (.dataTruncated i)
      else do
        let entry : Entry :=
          ⟨ofLittleEndian (body.take 8), ofLittleEndian ((body.drop 8).take 8),
            entryTypeOf (int32Of (ofLittleEndian ((body.drop 16).take 4))),
            (body.drop 24).take dataLen⟩
        let (entries, rest) ← decodeEntries count (i + 1) (body.drop (24 + dataLen))
        return (entry :: entries, rest)

def decodeEntriesBody (body : Bytes) : Except RecordError (List Entry) :=
  if body.length < 4 then .error .shortCount
  else
    let count := ofLittleEndian (body.take 4)
    if count = 0 then .error .zeroEntries
    else do
      let (entries, rest) ← decodeEntries count 0 (body.drop 4)
      if rest.length ≠ 0 then throw (.trailingBytes rest.length)
      return entries

structure RecoveredState where
  hard : HardState
  entries : List Entry
  deriving DecidableEq, Repr

def truncateFromIndex (entries : List Entry) (index : Nat) : List Entry :=
  entries.takeWhile (fun e => e.index < index)

namespace RecoveredState

def empty : RecoveredState := ⟨⟨0, 0⟩, []⟩

def apply (s : RecoveredState) (payload : Bytes) : Except RecordError RecoveredState :=
  match payload with
  | [] => .error .emptyPayload
  | kind :: body =>
    if kind = recordKindHardState then
      if payload.length ≠ 17 then .error (.hardStateLength payload.length)
      else .ok { s with
        hard := ⟨ofLittleEndian (body.take 8), ofLittleEndian ((body.drop 8).take 8)⟩ }
    else if kind = recordKindTruncate then
      if payload.length ≠ 9 then .error (.truncateLength payload.length)
      else
        let fromIndex := ofLittleEndian (body.take 8)
        if fromIndex = 0 then .error .truncateZero
        else .ok { s with entries := truncateFromIndex s.entries fromIndex }
    else if kind = recordKindEntries then
      match decodeEntriesBody body with
      | .error e => .error e
      | .ok [] => .ok s
      | .ok (e :: rest) =>
        .ok { s with entries := truncateFromIndex s.entries e.index ++ e :: rest }
    else .error (.unknownKind kind)

def view (s : RecoveredState) : MemStorage :=
  let view := MemStorage.empty.save (some s.hard) []
  if s.entries.length > 0 then view.save none s.entries else view

end RecoveredState

abbrev ParseError := LengthFrame.ScanError RecordError

def parseRecords (data : Bytes) : Except ParseError (MemStorage × Nat) := do
  let (state, complete) ←
    LengthFrame.scan (Crc.checksum castagnoli) RecoveredState.apply RecoveredState.empty data
  return (state.view, complete)

/-! ### The storage -/

structure CrashStorage where
  directives : List CrashDirective
  next : Nat
  saves : Nat
  durable : Bytes
  unsynced : Bytes
  view : MemStorage
  crashed : Bool
  armed : Bool
  armedSave : Nat
  lastCrash : CrashInfo
  hasCrashed : Bool
  deriving DecidableEq, Repr

inductive DirectiveError
  | saveZero
  | point (save : Nat) (point : CrashPoint)
  | duplicate (save : Nat)
  deriving DecidableEq, Repr

/-- Each error is `ErrCrashed` to `errors.Is`. -/
inductive CrashError
  | crashed
  | crashedAt (save : Nat) (point : CrashPoint)
  deriving DecidableEq, Repr

inductive RecoverError
  | notCrashed
  | parse (error : ParseError)
  deriving DecidableEq, Repr

def validateDirectives : Option Nat → List CrashDirective → Except DirectiveError Unit
  | _, [] => .ok ()
  | previous, d :: rest =>
    if d.save = 0 then .error .saveZero
    else if d.point = .hostInitiated then .error (.point d.save d.point)
    else if previous = some d.save then .error (.duplicate d.save)
    else validateDirectives (some d.save) rest

namespace CrashStorage

def new (id : NodeID) (schedule : List CrashDirective) : Except DirectiveError CrashStorage := do
  let directives := (schedule.filter (·.node = id)).insertionSort (·.save ≤ ·.save)
  validateDirectives none directives
  return ⟨directives, 0, 0, [], [], MemStorage.empty, false, false, 0,
    ⟨0, .hostInitiated, 0, 0⟩, false⟩

def pendingDirective (cs : CrashStorage) (save : Nat) : CrashStorage × Option CrashDirective :=
  match cs.directives[cs.next]? with
  | none => (cs, none)
  | some d => if d.save ≠ save then (cs, none) else ({ cs with next := cs.next + 1 }, some d)

def kept (retain : Retain) (size : Nat) : Nat :=
  match retain with
  | none => size
  | some r => if r < size then r else size

def crash (cs : CrashStorage) (save : Nat) (point : CrashPoint) (retain : Retain) :
    Option CrashStorage :=
  let keep := kept retain cs.unsynced.length
  let durable := cs.durable ++ cs.unsynced.take keep
  match parseRecords durable with
  | .error _ => none
  | .ok (view, _) =>
    some { cs with
      lastCrash := ⟨save, point, cs.unsynced.length, keep⟩
      hasCrashed := true
      durable := durable
      unsynced := []
      crashed := true
      armed := false
      view := view }

def stageHardState (unsynced : Bytes) : Option HardState → Bytes
  | some hs => appendRecord unsynced (hardStatePayload hs)
  | none => unsynced

def stageEntries (unsynced : Bytes) (last : Nat) : List Entry → Bytes
  | [] => unsynced
  | e :: rest =>
    let unsynced :=
      if e.index ≠ 0 ∧ e.index ≤ last then appendRecord unsynced (truncatePayload e.index)
      else unsynced
    appendRecord unsynced (entriesPayload (e :: rest))

def stage (cs : CrashStorage) (hs : Option HardState) (entries : List Entry) : CrashStorage :=
  { cs with
    saves := cs.saves + 1
    unsynced := stageEntries (stageHardState cs.unsynced hs) cs.view.lastIndex entries }

def sync (cs : CrashStorage) (hs : Option HardState) (entries : List Entry) : CrashStorage :=
  { cs with
    durable := cs.durable ++ cs.unsynced
    unsynced := []
    view := cs.view.save hs entries }

def finish (cs : CrashStorage) (hs : Option HardState) (entries : List Entry) :
    Option CrashDirective → Option (CrashStorage × Except CrashError Unit)
  | none => some (cs.sync hs entries, .ok ())
  | some d =>
    match d.point with
    | .beforeSync =>
      (cs.crash cs.saves .beforeSync d.retainUnsynced).map
        fun down => (down, .error (.crashedAt cs.saves .beforeSync))
    | .afterSyncBeforeSend =>
      ((cs.sync hs entries).crash cs.saves .afterSyncBeforeSend (some 0)).map
        fun down => (down, .error (.crashedAt cs.saves .afterSyncBeforeSend))
    | .afterSend =>
      some ({ cs.sync hs entries with armed := true, armedSave := cs.saves }, .ok ())
    | .hostInitiated => some (cs.sync hs entries, .ok ())

def save (cs : CrashStorage) (hs : Option HardState) (entries : List Entry) :
    Option (CrashStorage × Except CrashError Unit) :=
  if cs.crashed then some (cs, .error .crashed)
  else if cs.armed then
    (cs.crash cs.armedSave .afterSend (some 0)).map
      fun down => (down, .error (.crashedAt cs.armedSave .afterSend))
  else
    let pending := (cs.stage hs entries).pendingDirective (cs.saves + 1)
    pending.1.finish hs entries pending.2

def hostCrash (cs : CrashStorage) : Option (CrashStorage × Except CrashError Unit) :=
  if cs.crashed then some (cs, .error .crashed)
  else (cs.crash cs.saves .hostInitiated (some 0)).map fun down => (down, .ok ())

def crashIfArmed (cs : CrashStorage) : Option (CrashStorage × Bool) :=
  if cs.crashed || !cs.armed then some (cs, false)
  else (cs.crash cs.armedSave .afterSend (some 0)).map fun down => (down, true)

def recover (cs : CrashStorage) : Except RecoverError CrashStorage :=
  if !cs.crashed then .error .notCrashed
  else
    match parseRecords cs.durable with
    | .error e => .error (.parse e)
    | .ok (view, complete) =>
      .ok { cs with durable := cs.durable.take complete, view := view, crashed := false }

end CrashStorage

end MiniQuorum.Sim
