import Mathlib.Data.Nat.Digits.Lemmas
import MiniQuorum.Lsm.FSRules
import MiniQuorum.Lsm.ManifestFile
import MiniQuorum.Lsm.SkipList

/-! The engine's state, its table handles and the publication of manifest edits. -/

namespace MiniQuorum.Lsm

open Codec Program Raft

structure ImmutableMemtable where
  list : Memtable
  count : Nat
  maxSeq : Nat
  watermark : Nat

structure TableHandle where
  metadata : FileMetadata
  file : FileID
  reader : SSTableReader
  deriving DecidableEq, Repr

structure ObsoleteFile where
  path : Path
  file : Option FileID
  deriving DecidableEq, Repr

/-- `persistent` says that a filesystem is configured. -/
structure Engine where
  rnd : Rand
  list : Memtable
  activeSize : Int
  activeCount : Nat
  activeMaxSeq : Nat
  immutables : List ImmutableMemtable
  flushThreshold : Int
  appliedIndex : Nat
  manifest : ManifestState
  tables : List TableHandle
  nextFileNumber : Nat
  persistent : Bool
  dir : Bytes
  poisoned : Option Err
  unresolved : List FileID
  obsolete : List ObsoleteFile
  obsoleteDirDirty : Bool
  disableAutoCompaction : Bool
  readWithBloom : Bool
  closed : Bool

structure Store where
  engine : Engine
  fs : SimFS

abbrev EngineM := Prog Store Err

def onFS {α : Type} (x : FSM α) : EngineM α := x.zoom Store.fs fun fs s => { s with fs }

def getEngine : EngineM Engine := fun s => (.ok s.engine, s)

def modifyEngine (f : Engine → Engine) : EngineM Unit := fun s =>
  (.ok (), { s with engine := f s.engine })

section Rules

variable {α : Type} {Q : α → Store → Prop} {E : Err → Store → Prop} {s : Store}

@[simp] theorem wp_onFS (x : FSM α) :
    wp (onFS x) Q E s ↔
      wp x (fun a fs => Q a { s with fs }) (fun e fs => E e { s with fs }) s.fs :=
  wp_zoom _ _ _ _

@[simp] theorem wp_getEngine {Q : Engine → Store → Prop} : wp getEngine Q E s ↔ Q s.engine s :=
  Iff.rfl

@[simp] theorem wp_modifyEngine {Q : Unit → Store → Prop} (f : Engine → Engine) :
    wp (modifyEngine f) Q E s ↔ Q () { s with engine := f s.engine } :=
  Iff.rfl

end Rules

/-! ### File names -/

def defaultFileNumberWidth : Nat := 6

def formatNumber (number : Nat) : Bytes :=
  let digits := (Nat.digits 10 number).reverse.map fun d => UInt8.ofNat (0x30 + d)
  List.replicate (defaultFileNumberWidth - digits.length) 0x30 ++ digits

def sstableFilename (number : Nat) : FileName := formatNumber number ++ sstableFilenameSuffix

def isDigit (b : UInt8) : Bool := 0x30 ≤ b && b ≤ 0x39

def parseUint (stem : Bytes) : Option Nat :=
  if stem = [] ∨ !stem.all isDigit then none
  else
    let n := stem.foldl (fun n b => n * 10 + (b.toNat - 0x30)) 0
    if n > maxUint64 then none else some n

def trimSuffix (name : FileName) : Bytes :=
  if sstableFilenameSuffix.isSuffixOf name then
    name.take (name.length - sstableFilenameSuffix.length)
  else name

def nextFileNumber (files : List FileMetadata) : Nat :=
  files.foldl (fun next file =>
    match parseUint (trimSuffix file.file) with
    | none => next
    | some number => if number ≥ next ∧ number ≠ maxUint64 then number + 1 else next) 1

/-! ### Handles -/

def Engine.path (engine : Engine) (name : FileName) : Path := ⟨engine.dir, name⟩

def closeFileRetainingLocked (file : FileID) : EngineM (Option Err) := do
  match ← onFS (SimFile.close file).error? with
  | none => return none
  | some err => do
    if err.is .fsClosed then return some err
    else do
      modifyEngine fun engine => { engine with unresolved := engine.unresolved ++ [file] }
      return some err

def openTableOwned (dir : Bytes) (metadata : FileMetadata) (maxSequence : Nat) :
    FSM (Except (Option FileID × Err) TableHandle) := do
  let path : Path := ⟨dir, metadata.file⟩
  match ← (SimFS.stat path).attempt with
  | .error err =>
    return .error (none, .join (.manifestCorrupt "stat referenced SSTable") err)
  | .ok size =>
    match ← (SimFS.openRead path).attempt with
    | .error err =>
      return .error (none, .join (.manifestCorrupt "open referenced SSTable") err)
    | .ok file =>
      match ← ((openSSTable size).run (SimFile.readAtFull file)).attempt with
      | .error err =>
        return .error (some file, .join (.manifestCorrupt "open referenced SSTable") err)
      | .ok reader =>
        if reader.entryCount ≠ metadata.count ∨ reader.minKey ≠ metadata.minKey ∨
            reader.maxKey ≠ metadata.maxKey then
          return .error (some file, .manifestCorrupt "metadata mismatch for referenced SSTable")
        else
          match ← (reader.allEntries.run (SimFile.readAtFull file)).attempt with
          | .error err =>
            return .error (some file, .join (.manifestCorrupt "validate referenced SSTable") err)
          | .ok entries =>
            if entries.any fun entry => entry.seq > maxSequence then
              return .error (some file, .manifestCorrupt "seq exceeds flushed_index")
            else return .ok ⟨metadata, file, reader⟩

def openTable (metadata : FileMetadata) (maxSequence : Nat) : EngineM TableHandle := do
  let engine ← getEngine
  match ← onFS (openTableOwned engine.dir metadata maxSequence) with
  | .ok table => return table
  | .error (none, err) => throw err
  | .error (some file, err) => do
    let closeErr ← closeFileRetainingLocked file
    throw ((Err.joined (some err) closeErr).getD err)

def allocateFilenameLocked : EngineM FileName := do
  let engine ← getEngine
  Prog.failIf (engine.nextFileNumber = 0 ∨ engine.nextFileNumber = maxUint64)
    (.text "lsm: SSTable file number exhausted")
  modifyEngine fun engine => { engine with nextFileNumber := engine.nextFileNumber + 1 }
  return sstableFilename engine.nextFileNumber

def SSTableWriter.finish (file : FileID) (entries : List TableEntry) : FSM Nat :=
  match encodeTable entries with
  | .error err => throw err
  | .ok bytes => do
    SimFile.write file bytes
    return bytes.length

/-! ### Publishing an edit -/

def poisonLocked (err : Err) : EngineM Unit :=
  modifyEngine fun engine =>
    { engine with poisoned := engine.poisoned <|> some err }

def retainUnresolved (file : Option FileID) : EngineM Unit :=
  modifyEngine fun engine => { engine with unresolved := engine.unresolved ++ file.toList }

def releaseTable : Option TableHandle → EngineM (Option Err)
  | none => return none
  | some table => closeFileRetainingLocked table.file

def commitEditLocked (m : Marshaler VersionEdit) (edit : VersionEdit) (table : Option TableHandle) :
    EngineM (Bool × Option Err) := do
  let engine ← getEngine
  match engine.manifest.apply edit with
  | .error _ => do
    let closeErr ← releaseTable table
    return (false, Err.joined (some (.text "lsm: invalid manifest edit")) closeErr)
  | .ok next => do
    let outcome ← onFS (appendManifestEdit m engine.dir edit)
    retainUnresolved outcome.unresolved
    if outcome.committed then do
      modifyEngine fun engine =>
        { engine with manifest := next, tables := engine.tables ++ table.toList }
      return (true, outcome.err)
    else do
      match outcome.err with
      | some err => if err.isUncertain then poisonLocked err
      | none => pure ()
      let closeErr ← releaseTable table
      return (false, Err.joined outcome.err closeErr)

/-! ### Files no longer referenced -/

def removeObsolete (path : Path) : EngineM (Option ObsoleteFile × Option Err) := do
  modifyEngine fun engine => { engine with obsoleteDirDirty := true }
  match ← onFS (SimFS.remove path).error? with
  | none => return (none, none)
  | some err => if err.is .notExist then return (none, none) else return (some ⟨path, none⟩, some err)

def reconcileFile (obsolete : ObsoleteFile) : EngineM (Option ObsoleteFile × Option Err) :=
  match obsolete.file with
  | none => removeObsolete obsolete.path
  | some file => do
    match ← onFS (SimFile.close file).error? with
    | none => removeObsolete obsolete.path
    | some err =>
      if err.is .fsClosed then removeObsolete obsolete.path
      else return (some obsolete, some err)

def syncObsoleteDir (combined : Option Err) : EngineM (Option Err) := do
  let engine ← getEngine
  if engine.obsoleteDirDirty then do
    match ← onFS (SimFS.syncDir engine.dir).error? with
    | some err => return Err.joined combined (some err)
    | none => do
      modifyEngine fun engine => { engine with obsoleteDirDirty := false }
      return combined
  else return combined

def reconcileObsoleteLocked : EngineM (Option Err) := do
  let engine ← getEngine
  if engine.persistent then do
    let (pending, combined) ← engine.obsolete.foldlM (fun (acc : List ObsoleteFile × Option Err)
        obsolete => do
      let (left, err) ← reconcileFile obsolete
      return (acc.1 ++ left.toList, Err.joined acc.2 err)) ([], none)
    modifyEngine fun engine => { engine with obsolete := pending }
    syncObsoleteDir combined
  else return none

end MiniQuorum.Lsm
