import MiniQuorum.Lsm.Compaction

/-! The engine's operations: writing, flushing, reading, opening and closing. -/

namespace MiniQuorum.Lsm

open Codec Program Raft

def checkOpenLocked : EngineM Unit := do
  let engine ← getEngine
  Prog.failIf (engine.closed = true) (.text "lsm: engine is closed")
  match engine.poisoned with
  | some err => throw (.wrap "lsm: engine is fail-stopped after uncertain MANIFEST append" err)
  | none => return ()

/-! ### Flushing -/

def freezeLocked (watermark : Nat) : EngineM Unit :=
  modifyEngine fun engine =>
    { engine with
      immutables := engine.immutables ++
        [⟨engine.list, engine.activeCount, engine.activeMaxSeq, watermark⟩]
      list := Memtable.empty
      activeSize := 0
      activeCount := 0
      activeMaxSeq := 0 }

def closingOnError {α : Type} (file : FileID) (message : String) (x : EngineM α) : EngineM α := do
  match ← x.attempt with
  | .ok a => return a
  | .error err => do
    let closeErr ← closeFileRetainingLocked file
    throw (.wrap message ((Err.joined (some err) closeErr).getD err))

def writeMemtable (immutable : ImmutableMemtable) : EngineM TableHandle := do
  let filename ← allocateFilenameLocked
  let engine ← getEngine
  let file ← onFS ((SimFS.create (engine.path filename)).wrap (.wrap "lsm: create SSTable"))
  let entries ← closingOnError file "lsm: build SSTable"
    (Prog.liftExcept (immutable.list.entries.foldlM SSTableWriter.add []))
  let size ← closingOnError file "lsm: finish SSTable" (onFS (SSTableWriter.finish file entries))
  closingOnError file "lsm: sync SSTable" (onFS (SimFile.sync file))
  match ← closeFileRetainingLocked file with
  | some err => throw (.wrap "lsm: close SSTable" err)
  | none => do
    onFS ((SimFS.syncDir engine.dir).wrap (.wrap "lsm: sync SSTable directory"))
    openTable (tableMetadata (tableSizeClass size) filename entries) immutable.watermark

def flushOldestLocked (m : Marshaler VersionEdit) (immutable : ImmutableMemtable) :
    EngineM Unit := do
  Prog.failIf (immutable.count = 0) (.text "lsm: internal empty immutable")
  Prog.failIf (immutable.maxSeq > immutable.watermark)
    (.text s!"lsm: immutable max seq {immutable.maxSeq} exceeds watermark {immutable.watermark}")
  let table ← writeMemtable immutable
  let (committed, err) ← commitEditLocked m ⟨[table.metadata], [], immutable.watermark⟩ (some table)
  if committed then do
    modifyEngine fun engine => { engine with immutables := engine.immutables.tail }
    match err with
    | some err => throw err
    | none => do
      let engine ← getEngine
      if engine.disableAutoCompaction then return () else compactAllLocked m
  else
    match err with
    | some err => throw err
    | none => return ()

def flushImmutables (m : Marshaler VersionEdit) : Nat → EngineM Unit
  | 0 => return ()
  | rounds + 1 => do
    let engine ← getEngine
    match engine.immutables with
    | [] => return ()
    | immutable :: _ => do
      flushOldestLocked m immutable
      flushImmutables m rounds

def flushThroughLocked (m : Marshaler VersionEdit) (index : Nat) : EngineM Unit := do
  let engine ← getEngine
  if engine.persistent then do
    Prog.failIf (index < engine.manifest.flushedIndex)
      (.text s!"lsm: flushed index regresses from {engine.manifest.flushedIndex} to {index}")
    Prog.failIf (index > engine.appliedIndex ∧ index > engine.manifest.flushedIndex)
      (.text s!"lsm: cannot flush unapplied index {index} beyond applied index {engine.appliedIndex}")
    Prog.failIf (engine.activeMaxSeq > index)
      (.text s!"lsm: active memtable contains seq {engine.activeMaxSeq} beyond flush target {index}")
    Prog.failIf (engine.immutables.any fun immutable => immutable.watermark > index)
      (.text "lsm: immutable watermark is beyond flush target")
    if engine.activeCount ≠ 0 then freezeLocked index
    let engine ← getEngine
    flushImmutables m engine.immutables.length
    let engine ← getEngine
    if index > engine.manifest.flushedIndex then do
      let (_, err) ← commitEditLocked m ⟨[], [], index⟩ none
      match err with
      | some err => throw err
      | none => return ()
    else return ()
  else
    Prog.failIf (¬(engine.activeCount = 0 ∧ engine.immutables = [] ∧
      index = engine.manifest.flushedIndex))
      (.text "lsm: persistent filesystem is not configured")

def forceFlush (m : Marshaler VersionEdit) : EngineM Unit := do
  checkOpenLocked
  let engine ← getEngine
  flushThroughLocked m engine.appliedIndex

def flushThrough (m : Marshaler VersionEdit) (index : Nat) : EngineM Unit := do
  checkOpenLocked
  flushThroughLocked m index

def compact (m : Marshaler VersionEdit) : EngineM Unit := do
  checkOpenLocked
  compactAllLocked m

/-! ### Writing -/

def memtableEntrySize (entry : TableEntry) : Int :=
  let size := entry.key.length + 8 + 1 + if entry.tombstone then 0 else entry.value.length
  if size > maxInt64 then maxInt64 else size

def putActive (engine : Engine) (entry : TableEntry) : Option Engine :=
  let old := engine.list.get entry.key
  if old.any fun old => entry.seq ≤ old.seq then none
  else
    match engine.list.put entry engine.rnd with
    | none => none
    | some (list, rnd) =>
      some { engine with
        list
        rnd
        activeSize := engine.activeSize - (old.map memtableEntrySize).getD 0 +
          memtableEntrySize entry
        activeCount := if old.isSome then engine.activeCount else engine.activeCount + 1
        activeMaxSeq := max engine.activeMaxSeq entry.seq }

def shouldFlush (engine : Engine) : Bool :=
  engine.persistent && decide (0 < engine.flushThreshold) &&
    decide (engine.flushThreshold ≤ engine.activeSize)

def automaticFlushTarget (engine : Engine) : Nat :=
  max engine.appliedIndex engine.manifest.flushedIndex

def writeLocked (m : Marshaler VersionEdit) (entry : TableEntry) : EngineM Unit := do
  checkOpenLocked
  modifyEngine fun engine => { engine with appliedIndex := max engine.appliedIndex entry.seq }
  let engine ← getEngine
  match putActive engine entry with
  | none => return ()
  | some engine => do
    modifyEngine fun _ => engine
    if shouldFlush engine then flushThroughLocked m (automaticFlushTarget engine) else return ()

def putLocked (m : Marshaler VersionEdit) (key value : Bytes) (seq : Nat) : EngineM Unit :=
  writeLocked m ⟨key, seq, value, false⟩

def deleteLocked (m : Marshaler VersionEdit) (key : Bytes) (seq : Nat) : EngineM Unit :=
  writeLocked m ⟨key, seq, [], true⟩

def advanceAppliedIndexLocked (index : Nat) : EngineM Unit := do
  checkOpenLocked
  let engine ← getEngine
  Prog.failIf (index < engine.appliedIndex)
    (.text s!"lsm: applied index regresses from {engine.appliedIndex} to {index}")
  modifyEngine fun engine => { engine with appliedIndex := index }

/-! ### Reading -/

def consider (best candidate : Option TableEntry) : Except Err (Option TableEntry) :=
  match candidate with
  | none => .ok best
  | some c =>
    match best with
    | none => .ok (some c)
    | some b =>
      if b.seq < c.seq then .ok (some c)
      else if c.seq = b.seq ∧ (c.tombstone ≠ b.tombstone ∨ c.value ≠ b.value) then
        .error (.corrupt s!"conflicting versions for key at seq {c.seq}")
      else .ok (some b)

def lookupLocked (key : Bytes) : EngineM (Option TableEntry) := do
  let engine ← getEngine
  Prog.failIf (engine.closed = true) (.text "lsm: engine is closed")
  let best ← Prog.liftExcept (consider none (engine.list.get key))
  let best ← Prog.liftExcept (engine.immutables.foldlM
    (fun best immutable => consider best (immutable.list.get key)) best)
  engine.tables.foldlM (fun best table => do
    let candidate ← onFS (((table.reader.get key engine.readWithBloom).run
      (SimFile.readAtFull table.file)).wrap (.wrap "lsm: read SSTable"))
    Prog.liftExcept (consider best candidate)) best

def readLocked (key : Bytes) : EngineM (Option Bytes) := do
  let entry ← lookupLocked key
  return entry.bind fun entry => if entry.tombstone then none else some entry.value

/-! ### Closing -/

def closeForGood (file : FileID) : EngineM (Bool × Option Err) := do
  match ← onFS (SimFile.close file).error? with
  | none => return (false, none)
  | some err => if err.is .fsClosed then return (false, none) else return (true, some err)

def closeTables : EngineM (Option Err) := do
  let engine ← getEngine
  let (left, combined) ← engine.tables.foldlM (fun (acc : List TableHandle × Option Err) table => do
    let (again, err) ← closeForGood table.file
    return (if again then acc.1 ++ [table] else acc.1, Err.joined acc.2 err)) ([], none)
  modifyEngine fun engine => { engine with tables := left }
  return combined

def closeUnresolvedLocked : EngineM (Option Err) := do
  let engine ← getEngine
  let (left, combined) ← engine.unresolved.foldlM (fun (acc : List FileID × Option Err) file => do
    let (again, err) ← closeForGood file
    return (if again then acc.1 ++ [file] else acc.1, Err.joined acc.2 err)) ([], none)
  modifyEngine fun engine => { engine with unresolved := left }
  return combined

def close : EngineM (Option Err) := do
  modifyEngine fun engine => { engine with closed := true }
  let cleanupErr ← reconcileObsoleteLocked
  let unresolvedErr ← closeUnresolvedLocked
  let tablesErr ← closeTables
  return Err.joined (Err.joined cleanupErr unresolvedErr) tablesErr

def abandon : EngineM Unit := modifyEngine fun engine => { engine with closed := true }

/-! ### Opening -/

def newEngine (rnd : Rand) : Engine where
  rnd := rnd
  list := Memtable.empty
  activeSize := 0
  activeCount := 0
  activeMaxSeq := 0
  immutables := []
  flushThreshold := 0
  appliedIndex := 0
  manifest := newManifestState
  tables := []
  nextFileNumber := 1
  persistent := false
  dir := []
  poisoned := none
  unresolved := []
  obsolete := []
  obsoleteDirDirty := false
  disableAutoCompaction := false
  readWithBloom := true
  closed := false

/-- `flushThreshold` 0 stands for the default. -/
structure Options where
  rand : Rand
  flushThreshold : Int
  skipBloom : Bool
  disableAutoCompaction : Bool

def defaultFlushThreshold : Int := 4194304

def sortedManifestFiles (files : List FileMetadata) : List FileMetadata :=
  files.insertionSort fun left right => left.file ≤ right.file

def openReferencedTables : EngineM Unit := do
  let engine ← getEngine
  (sortedManifestFiles engine.manifest.files).forM fun metadata => do
    let table ← openTable metadata engine.manifest.flushedIndex
    modifyEngine fun engine => { engine with tables := engine.tables ++ [table] }

def syncRecoveredVersion : EngineM Unit := do
  let engine ← getEngine
  engine.tables.forM fun table =>
    onFS ((SimFile.sync table.file).wrap (.wrap "lsm: recovery sync SSTable"))
  onFS ((SimFS.syncDir engine.dir).wrap (.wrap "lsm: recovery sync SSTable directory"))
  onFS (syncManifest (engine.path manifestFilename))

def removeOrphan (engine : Engine) (name : FileName) : FSM Bool :=
  if !sstableFilenameSuffix.isSuffixOf name || engine.manifest.references name then return false
  else do
    let _ ← (SimFS.stat (engine.path name)).wrap (.wrap "lsm: stat orphan")
    (SimFS.remove (engine.path name)).wrap (.wrap "lsm: remove orphan")
    return true

def removeOrphans : EngineM Unit := do
  let engine ← getEngine
  let names ← onFS ((SimFS.list engine.dir).wrap (.wrap "lsm: list SSTable directory"))
  let removed ← names.foldlM (fun removed name => do
    let one ← onFS (removeOrphan engine name)
    return removed || one) false
  if removed then onFS ((SimFS.syncDir engine.dir).wrap (.wrap "lsm: sync orphan removals"))
  else return ()

def recoveredEngine (dir : Bytes) (options : Options) (state : ManifestState) : Engine where
  rnd := options.rand
  list := Memtable.empty
  activeSize := 0
  activeCount := 0
  activeMaxSeq := 0
  immutables := []
  flushThreshold :=
    if options.flushThreshold = 0 then defaultFlushThreshold else options.flushThreshold
  appliedIndex := 0
  manifest := state
  tables := []
  nextFileNumber := 1
  persistent := true
  dir := dir
  poisoned := none
  unresolved := []
  obsolete := []
  obsoleteDirDirty := false
  disableAutoCompaction := options.disableAutoCompaction
  readWithBloom := !options.skipBloom
  closed := false

def recoverVersion : EngineM Unit := do
  openReferencedTables
  syncRecoveredVersion
  removeOrphans
  modifyEngine fun engine =>
    { engine with nextFileNumber := nextFileNumber engine.manifest.files }

def withEngine (engine : Engine) (x : EngineM Unit) : FSM Engine := fun fs =>
  let r := x ⟨engine, fs⟩
  (r.1.map fun _ => r.2.engine, r.2.fs)

theorem wp_withEngine {engine : Engine} {x : EngineM Unit} {fs : SimFS} {Q : Engine → SimFS → Prop}
    {E : Err → SimFS → Prop} (h : wp x (fun _ s' => Q s'.engine s'.fs) (fun e s' => E e s'.fs)
      ⟨engine, fs⟩) : wp (withEngine engine x) Q E fs := by
  rw [wp] at h ⊢
  rw [withEngine]
  rcases hx : x ⟨engine, fs⟩ with ⟨_ | _, s'⟩
  · rw [hx] at h
    exact h
  · rw [hx] at h
    exact h

def openEngine (m : Marshaler VersionEdit) (dir : Bytes) (options : Options) : FSM Engine := do
  Prog.failIf (options.flushThreshold < 0)
    (.text s!"lsm: negative flush threshold {options.flushThreshold}")
  let state ← loadManifest m dir
  withEngine (recoveredEngine dir options state) do
    match ← recoverVersion.attempt with
    | .ok () => return ()
    | .error err => do
      let tablesErr ← closeTables
      let unresolvedErr ← closeUnresolvedLocked
      throw ((Err.joined (Err.joined (some err) tablesErr) unresolvedErr).getD err)

/-! ### Calls -/

inductive EngineCall
  | put (key value : Bytes) (seq : UInt64)
  | delete (key : Bytes) (seq : UInt64)
  | advanceAppliedIndex (index : UInt64)
  | flushThrough (index : UInt64)
  | forceFlush
  | compact
  | lookup (key : Bytes)
  | close
  | abandon

namespace EngineCall

def run (m : Marshaler VersionEdit) : EngineCall → EngineM Unit
  | put key value seq => putLocked m key value seq.toNat
  | delete key seq => deleteLocked m key seq.toNat
  | advanceAppliedIndex index => advanceAppliedIndexLocked index.toNat
  | flushThrough index => Lsm.flushThrough m index.toNat
  | forceFlush => Lsm.forceFlush m
  | compact => Lsm.compact m
  | lookup key => do
    let _ ← lookupLocked key
    return ()
  | close => do
    let _ ← Lsm.close
    return ()
  | abandon => Lsm.abandon

end EngineCall

end MiniQuorum.Lsm
