import Mathlib.Data.List.AList
import Mathlib.Data.List.Sort
import MiniQuorum.Codec.ByteOrder
import MiniQuorum.Codec.Frame
import MiniQuorum.Program.Wp
import MiniQuorum.Raft.Types

/-! The simulated filesystem: a live and a directory-synced namespace, live and synced
bytes for each inode, and a schedule of errors and crashes. -/

namespace MiniQuorum.Lsm

open Codec Program

/-- Errors, with the chains `errors.Is` walks. -/
inductive Err
  | notExist
  | exist
  | fsClosed
  | simulatedCrash
  | eof
  | unexpectedEOF
  | corrupt (message : String)
  | manifestCorrupt (message : String)
  | text (message : String)
  | wrap (message : String) (cause : Err)
  | join (first second : Err)
  | uncertainManifestAppend (cause : Err)
  deriving DecidableEq, Repr

def Err.is : Err → Err → Bool
  | .wrap message cause, target =>
    decide (Err.wrap message cause = target) || cause.is target
  | .join first second, target =>
    decide (Err.join first second = target) || first.is target || second.is target
  | .uncertainManifestAppend cause, target =>
    decide (Err.uncertainManifestAppend cause = target) || cause.is target
  | err, target => decide (err = target)

/-- A cleaned path, as its directory and its base name. -/
structure Path where
  dir : Bytes
  base : Bytes
  deriving DecidableEq, Repr

inductive FSOp
  | create | openRead | openAppend | read | write | fileSync | dirSync | truncate | rename
  | link | remove | list | stat | close
  deriving DecidableEq, Repr

inductive SimFaultPoint
  | before
  | after
  deriving DecidableEq, Repr

structure SimFaultKey where
  op : FSOp
  occurrence : Nat
  point : SimFaultPoint
  deriving DecidableEq, Repr

abbrev Retain := Option Nat

abbrev InodeID := Nat

structure SimInode where
  data : Bytes
  durable : Bytes
  deriving DecidableEq, Repr

/-- A still unsynced byte mutation. -/
inductive SimMutation
  | write (node : InodeID) (offset : Nat) (data : Bytes)
  | truncate (node : InodeID) (oldSize newSize : Nat)
  deriving DecidableEq, Repr

def writeAt (image : Bytes) (offset : Nat) (data : Bytes) : Bytes :=
  let grown := image ++ List.replicate (offset + data.length - image.length) 0
  grown.take offset ++ data ++ grown.drop (offset + data.length)

def resize (data : Bytes) (size : Nat) : Bytes :=
  data.take size ++ List.replicate (size - data.length) 0

namespace SimMutation

def node : SimMutation → InodeID
  | .write node _ _ => node
  | .truncate node _ _ => node

def byteCount : SimMutation → Nat
  | .write _ _ data => data.length
  | .truncate _ oldSize newSize =>
    if newSize ≥ oldSize then newSize - oldSize else oldSize - newSize

def applyPrefix (image : Bytes) (retained : Nat) : SimMutation → Bytes
  | .write _ offset data => writeAt image offset (data.take retained)
  | .truncate _ oldSize newSize =>
    if newSize < oldSize then image.take (image.length - retained)
    else image ++ List.replicate retained 0

end SimMutation

def survivors : Retain → List SimMutation → (InodeID → Bytes) → InodeID → Bytes
  | _, [], image => image
  | none, m :: rest, image =>
    survivors none rest
      (Function.update image m.node (m.applyPrefix (image m.node) m.byteCount))
  | some remaining, m :: rest, image =>
    if remaining = 0 then image
    else
      let keep := min remaining m.byteCount
      let image := Function.update image m.node (m.applyPrefix (image m.node) keep)
      if keep ≠ m.byteCount then image else survivors (some (remaining - keep)) rest image

abbrev Namespace := AList fun _ : Path => InodeID

def Namespace.syncDir (durable live : Namespace) (dir : Bytes) : Namespace where
  entries := live.entries.filter (·.1.dir = dir) ++ durable.entries.filter (·.1.dir ≠ dir)
  nodupKeys := by
    rw [List.NodupKeys, List.keys, List.map_append]
    refine List.Nodup.append ?_ ?_ ?_
    · exact live.nodupKeys.sublist (List.filter_sublist)
    · exact durable.nodupKeys.sublist (List.filter_sublist)
    · intro p hl hd
      simp only [List.mem_map, List.mem_filter, decide_eq_true_eq] at hl hd
      obtain ⟨a, ⟨-, hin⟩, rfl⟩ := hl
      obtain ⟨b, ⟨-, hout⟩, hab⟩ := hd
      rw [hab] at hout
      exact hout hin

structure SimFile where
  node : InodeID
  path : Path
  offset : Nat
  generation : Nat
  closed : Bool
  deriving DecidableEq, Repr

abbrev FileID := Nat

/-- What the filesystem holds, the fault schedule left aside.  Inodes and handles are
numbered in the order they were made. -/
structure Volume where
  live : Namespace
  durableNames : Namespace
  inodes : InodeID → SimInode
  nextInode : InodeID
  dirty : List SimMutation
  generation : Nat
  crashed : Bool
  files : FileID → SimFile
  nextFile : FileID

namespace Volume

def setInode (v : Volume) (n : InodeID) (node : SimInode) : Volume :=
  { v with inodes := Function.update v.inodes n node }

def setFile (v : Volume) (f : FileID) (file : SimFile) : Volume :=
  { v with files := Function.update v.files f file }

def bytes (v : Volume) (f : FileID) : Bytes := (v.inodes (v.files f).node).data

def crash (v : Volume) (retain : Retain) : Volume :=
  let image := survivors retain v.dirty fun n => (v.inodes n).durable
  { v with
    inodes := fun n =>
      if ∃ entry ∈ v.durableNames.entries, entry.2 = n then ⟨image n, image n⟩ else v.inodes n
    live := v.durableNames
    dirty := []
    generation := v.generation + 1
    crashed := true }

def create (v : Volume) (name : Path) : Volume :=
  { v.setInode v.nextInode ⟨[], []⟩ with
    live := v.live.insert name v.nextInode
    nextInode := v.nextInode + 1 }

def newFile (v : Volume) (node : InodeID) (name : Path) (offset : Nat) : Volume :=
  { v.setFile v.nextFile ⟨node, name, offset, v.generation, false⟩ with
    nextFile := v.nextFile + 1 }

def syncDir (v : Volume) (dir : Bytes) : Volume :=
  { v with durableNames := v.durableNames.syncDir v.live dir }

def remove (v : Volume) (name : Path) : Volume := { v with live := v.live.erase name }

def bind (v : Volume) (name : Path) (node : InodeID) : Volume :=
  { v with live := v.live.insert name node }

def recordWrite (v : Volume) (node : InodeID) (offset : Nat) (data : Bytes) : Volume :=
  if data = [] then v else { v with dirty := v.dirty ++ [.write node offset data] }

def write (v : Volume) (f : FileID) (src : Bytes) : Volume :=
  let file := v.files f
  let node := v.inodes file.node
  ((v.recordWrite file.node file.offset src).setInode file.node
    { node with data := writeAt node.data file.offset src }).setFile f
    { file with offset := file.offset + src.length }

def sync (v : Volume) (f : FileID) : Volume :=
  let n := (v.files f).node
  { v.setInode n ⟨(v.inodes n).data, (v.inodes n).data⟩ with
    dirty := v.dirty.filter (·.node ≠ n) }

def truncate (v : Volume) (f : FileID) (size : Nat) : Volume :=
  let file := v.files f
  let node := v.inodes file.node
  let dirty :=
    if size ≠ node.data.length then v.dirty ++ [.truncate file.node node.data.length size]
    else v.dirty
  ({ v with dirty }.setInode file.node { node with data := resize node.data size }).setFile f
    { file with offset := min file.offset size }

def close (v : Volume) (f : FileID) : Volume := v.setFile f { v.files f with closed := true }

def seek (v : Volume) (f : FileID) (offset : Nat) : Volume :=
  v.setFile f { v.files f with offset := offset }

end Volume

structure SimFS extends Volume where
  opCounts : FSOp → Nat
  crashFaults : SimFaultKey → Option Retain
  errorFaults : SimFaultKey → Option Err

abbrev FSM := Prog SimFS Err

namespace SimFS

def newSimFS : SimFS where
  live := ∅
  durableNames := ∅
  inodes _ := ⟨[], []⟩
  nextInode := 0
  dirty := []
  generation := 0
  crashed := false
  files _ := ⟨0, ⟨[], []⟩, 0, 0, true⟩
  nextFile := 0
  opCounts _ := 0
  crashFaults _ := none
  errorFaults _ := none

def setCrashSchedule (fs : SimFS) (faults : SimFaultKey → Option Retain) : SimFS :=
  { fs with crashFaults := faults, opCounts := fun _ => 0 }

def setErrorSchedule (fs : SimFS) (faults : SimFaultKey → Option Err) : SimFS :=
  { fs with errorFaults := faults, opCounts := fun _ => 0 }

def resetEvents (fs : SimFS) : SimFS := { fs with opCounts := fun _ => 0 }

def crashNow (fs : SimFS) (retain : Retain) : Option SimFS :=
  if fs.crashed then none else some { fs with toVolume := fs.crash retain }

def recover (fs : SimFS) : Option SimFS :=
  if fs.crashed then some { fs with crashed := false } else none

def fault (key : SimFaultKey) : FSM Unit := do
  let fs ← get
  match fs.errorFaults key with
  | some err =>
    set { fs with errorFaults := Function.update fs.errorFaults key none }
    throw err
  | none =>
    match fs.crashFaults key with
    | some retain =>
      set { fs with
        crashFaults := Function.update fs.crashFaults key none
        toVolume := fs.crash retain }
      throw .simulatedCrash
    | none => pure ()

def beginOp (op : FSOp) : FSM Nat := do
  let fs ← get
  Prog.failIf fs.crashed .simulatedCrash
  let occurrence := fs.opCounts op + 1
  set { fs with opCounts := Function.update fs.opCounts op occurrence }
  fault ⟨op, occurrence, .before⟩
  return occurrence

def finishOp (op : FSOp) (occurrence : Nat) : FSM Unit := fault ⟨op, occurrence, .after⟩

def perform (op : FSOp) (effect : Volume → Except Err (α × Volume)) : FSM α := do
  let occurrence ← beginOp op
  let fs ← get
  match effect fs.toVolume with
  | .error err => throw err
  | .ok (result, after) =>
    set { fs with toVolume := after }
    finishOp op occurrence
    return result

def handle (node : InodeID) (name : Path) (offset : Nat) : FSM FileID := do
  let fs ← get
  set { fs with toVolume := fs.newFile node name offset }
  return fs.nextFile

def create (name : Path) : FSM FileID := do
  let node ← perform .create fun v =>
    if name ∈ v.live then .error .exist else .ok (v.nextInode, v.create name)
  handle node name 0

def lookup (v : Volume) (name : Path) : Except Err InodeID :=
  match v.live.lookup name with
  | none => .error .notExist
  | some node => .ok node

def openMode (appendMode : Bool) (name : Path) : FSM FileID := do
  let op := if appendMode then FSOp.openAppend else FSOp.openRead
  let (node, offset) ← perform op fun v => do
    let node ← lookup v name
    return ((node, if appendMode then (v.inodes node).data.length else 0), v)
  handle node name offset

def openRead (name : Path) : FSM FileID := openMode false name

def openAppend (name : Path) : FSM FileID := openMode true name

def syncDir (dir : Bytes) : FSM Unit := perform .dirSync fun v => .ok ((), v.syncDir dir)

def rename (oldName newName : Path) : FSM Unit := perform .rename fun v => do
  let node ← lookup v oldName
  return ((), (v.remove oldName).bind newName node)

def link (oldName newName : Path) : FSM Unit := perform .link fun v => do
  let node ← lookup v oldName
  if newName ∈ v.live then .error .exist else .ok ((), v.bind newName node)

def remove (name : Path) : FSM Unit := perform .remove fun v =>
  if name ∉ v.live then .error .notExist else .ok ((), v.remove name)

def listNames (live : Namespace) (dir : Bytes) : List Bytes :=
  ((live.keys.filter (·.dir = dir)).map Path.base).insertionSort (· ≤ ·)

def list (dir : Bytes) : FSM (List Bytes) := perform .list fun v => .ok (listNames v.live dir, v)

def stat (name : Path) : FSM Nat := perform .stat fun v => do
  let node ← lookup v name
  return ((v.inodes node).data.length, v)

end SimFS

/-! ### File handles -/

namespace SimFile

open SimFS

def Usable (v : Volume) (f : FileID) : Prop :=
  (v.files f).closed = false ∧ (v.files f).generation = v.generation

instance (v : Volume) (f : FileID) : Decidable (Usable v f) := inferInstanceAs (Decidable (_ ∧ _))

def perform (f : FileID) (op : FSOp) (effect : Volume → Except Err (α × Volume)) : FSM α := do
  let fs ← get
  Prog.failIf (¬Usable fs.toVolume f) .fsClosed
  SimFS.perform op effect

def beginOp (f : FileID) (op : FSOp) : FSM Nat := do
  let fs ← get
  Prog.failIf (¬Usable fs.toVolume f) .fsClosed
  SimFS.beginOp op

def readAt (f : FileID) (length offset : Nat) : FSM (Bytes × Option Err) := do
  match ← (beginOp f .read).attempt with
  | .error err => return ([], some err)
  | .ok occurrence =>
    let data := (← get).bytes f
    let dst := (data.drop offset).take length
    match ← (finishOp .read occurrence).attempt with
    | .error err => return (dst, some err)
    | .ok () =>
      if offset ≥ data.length ∨ dst.length < length then return (dst, some .eof)
      else return (dst, none)

def read (f : FileID) (length : Nat) : FSM (Bytes × Option Err) := do
  match ← (beginOp f .read).attempt with
  | .error err => return ([], some err)
  | .ok occurrence =>
    let fs ← get
    let data := fs.bytes f
    let offset := (fs.files f).offset
    let dst := (data.drop offset).take length
    set { fs with toVolume := fs.seek f (offset + dst.length) }
    match ← (finishOp .read occurrence).attempt with
    | .error err => return (dst, some err)
    | .ok () =>
      if offset ≥ data.length ∨ dst.length < length then return (dst, some .eof)
      else return (dst, none)

def write (f : FileID) (src : Bytes) : FSM Unit := perform f .write fun v =>
  if (v.files f).offset + src.length > maxInt64 then
    .error (.text "lsm simfs: write size overflow")
  else .ok ((), v.write f src)

def sync (f : FileID) : FSM Unit := perform f .fileSync fun v => .ok ((), v.sync f)

def truncate (f : FileID) (size : Nat) : FSM Unit := perform f .truncate fun v =>
  if size > maxInt64 then .error (.text "lsm simfs: invalid truncate size")
  else .ok ((), v.truncate f size)

def close (f : FileID) : FSM Unit := perform f .close fun v => .ok ((), v.close f)

def readAtFull (f : FileID) (length offset : Nat) : FSM Bytes := do
  let read ← readAt f length offset
  if read.1.length ≠ length then throw (read.2.getD .unexpectedEOF)
  else
    match read.2 with
    | some err => if err.is .eof then return read.1 else throw err
    | none => return read.1

end SimFile

end MiniQuorum.Lsm
