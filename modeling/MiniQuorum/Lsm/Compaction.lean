import MiniQuorum.Lsm.EngineState
import MiniQuorum.Lsm.Merge

/-! Size-tiered compaction: four tables of one tier are merged into one of the next. -/

namespace MiniQuorum.Lsm

open Codec Program

def compactionFanIn : Nat := 4

def sizeClassGrowth : Nat := 4

def sizeClassBaseBytes : Nat := dataBlockTarget

def sizeClassFrom (size : Nat) : Nat → Nat → Nat → Nat
  | 0, class', _ => class'
  | fuel + 1, class', boundary =>
    if size < boundary then class'
    else if boundary > maxInt64 / sizeClassGrowth then class' + 1
    else sizeClassFrom size fuel (class' + 1) (boundary * sizeClassGrowth)

def tableSizeClass (size : Nat) : Nat :=
  if size < sizeClassBaseBytes then 0
  else sizeClassFrom size 64 1 (sizeClassBaseBytes * sizeClassGrowth)

/-! ### Choosing the inputs -/

def byName (left right : TableHandle) : Prop := left.metadata.file ≤ right.metadata.file

instance (left right : TableHandle) : Decidable (byName left right) :=
  inferInstanceAs (Decidable (_ ≤ _))

def ofTier (tables : List TableHandle) (tier : Nat) : List TableHandle :=
  tables.filter fun table => table.metadata.tier = tier

def selectCompactionInputs (tables : List TableHandle) : Option (Nat × List TableHandle) :=
  let tiers := (tables.map fun table => table.metadata.tier).filter fun tier =>
    compactionFanIn ≤ (ofTier tables tier).length
  match tiers.min? with
  | none => none
  | some tier => some (tier, ((ofTier tables tier).insertionSort byName).take compactionFanIn)

/-! ### Writing the output -/

def discardCompactionOutputLocked (path : Path) (file : Option FileID) (cause : Err) :
    EngineM Err := do
  modifyEngine fun engine => { engine with obsolete := engine.obsolete ++ [⟨path, file⟩] }
  let cleanup ← reconcileObsoleteLocked
  return (Err.joined (some cause) cleanup).getD cause

def discarding {α : Type} (path : Path) (file : Option FileID) (x : EngineM α) : EngineM α := do
  match ← x.attempt with
  | .ok a => return a
  | .error cause => do
    let err ← discardCompactionOutputLocked path file cause
    throw err

abbrev TableSource := FileID × SSTableEntryIterator

def TableSource.next (source : TableSource) : EngineM (Option TableEntry × TableSource) := do
  let (entry, it) ← onFS (source.2.next.run (SimFile.readAtFull source.1))
  return (entry, source.1, it)

def mergeEntries (records : Nat) : Nat → KWayMergeIterator TableSource → List TableEntry →
    EngineM (List TableEntry)
  | 0, _, _ => throw (.text "lsm: merge input does not end")
  | fuel + 1, merge, entries => do
    let (entry, merge) ← merge.next TableSource.next records
    match entry with
    | none => return entries
    | some entry => do
      let entries ← Prog.liftExcept
        ((SSTableWriter.add entries entry).mapError (.wrap "lsm: add compaction output"))
      mergeEntries records fuel merge entries

def mergeInputs (inputs : List TableHandle) : EngineM (List TableEntry) := do
  let sources : List TableSource :=
    inputs.map fun input => (input.file, newSSTableEntryIterator input.reader)
  let merge ← newKWayMergeIterator TableSource.next sources
  let records := (inputs.map fun input => input.reader.entryCount).sum + 1
  let entries ← mergeEntries records records merge []
  Prog.failIf (entries = []) (.text "lsm: compaction produced an empty table")
  return entries

def writeOutput (file : FileID) (entries : List TableEntry) : FSM Unit := do
  let _ ← (SSTableWriter.finish file entries).wrap (.wrap "lsm: finish compaction SSTable")
  (SimFile.sync file).wrap (.wrap "lsm: sync compaction SSTable")
  (SimFile.close file).wrap (.wrap "lsm: close compaction SSTable")

def tableMetadata (tier : Nat) (file : FileName) (entries : List TableEntry) : FileMetadata where
  tier := tier
  file := file
  minKey := (entries.head?.map TableEntry.key).getD []
  maxKey := (entries.getLast?.map TableEntry.key).getD []
  count := entries.length

def buildCompactionOutputLocked (tier : Nat) (inputs : List TableHandle) : EngineM TableHandle := do
  let filename ← allocateFilenameLocked
  let engine ← getEngine
  let path := engine.path filename
  let file ← discarding path none
    (onFS ((SimFS.create path).wrap (.wrap "lsm: create compaction SSTable")))
  let entries ← discarding path (some file) do
    let entries ← mergeInputs inputs
    onFS (writeOutput file entries)
    return entries
  discarding path none
    (onFS ((SimFS.syncDir engine.dir).wrap (.wrap "lsm: sync compaction SSTable directory")))
  match ← onFS (openTableOwned engine.dir (tableMetadata tier filename entries)
    engine.manifest.flushedIndex) with
  | .ok table => return table
  | .error (owned, err) => do
    let err ← discardCompactionOutputLocked path owned err
    throw err

/-! ### Publishing the output -/

def publishedTables (tables selected : List TableHandle) (output : TableHandle) :
    List TableHandle :=
  ((tables.filter fun table => table ∉ selected) ++ [output]).insertionSort byName

def commitCompactionLocked (m : Marshaler VersionEdit) (edit : VersionEdit) (output : TableHandle)
    (selected : List TableHandle) : EngineM Unit := do
  let engine ← getEngine
  let path := engine.path output.metadata.file
  match engine.manifest.apply edit with
  | .error _ => do
    let err ← discardCompactionOutputLocked path (some output.file)
      (.text "lsm: invalid compaction manifest edit")
    throw err
  | .ok next => do
    let outcome ← onFS (appendManifestEdit m engine.dir edit)
    retainUnresolved outcome.unresolved
    if outcome.committed then do
      modifyEngine fun engine =>
        { engine with
          manifest := next
          tables := publishedTables engine.tables selected output
          obsolete := engine.obsolete ++ (selected.insertionSort byName).map fun table =>
            ⟨engine.path table.metadata.file, some table.file⟩ }
      let cleanup ← reconcileObsoleteLocked
      match Err.joined outcome.err cleanup with
      | some err => throw err
      | none => return ()
    else
      match outcome.err with
      | none => return ()
      | some err =>
        if err.isUncertain then do
          poisonLocked err
          let closeErr ← closeFileRetainingLocked output.file
          throw ((Err.joined (some err) closeErr).getD err)
        else do
          let err ← discardCompactionOutputLocked path (some output.file) err
          throw err

def compactInputsLocked (m : Marshaler VersionEdit) (tier : Nat) (inputs : List TableHandle) :
    EngineM Unit := do
  Prog.failIf (inputs.length ≠ compactionFanIn) (.text "lsm: compaction selected wrong inputs")
  let inputs := inputs.insertionSort byName
  Prog.failIf (inputs.any fun input => input.metadata.tier ≠ tier)
    (.text "lsm: compaction inputs do not share selected tier")
  Prog.failIf (¬inputs.Nodup) (.text "lsm: duplicate compaction input")
  let engine ← getEngine
  Prog.failIf (inputs.any fun input => input ∉ engine.tables)
    (.text "lsm: selected input is not published")
  let output ← buildCompactionOutputLocked (tier + 1) inputs
  let engine ← getEngine
  commitCompactionLocked m
    { addedFiles := [output.metadata]
      removedFiles := inputs.map fun input => input.metadata.file
      flushedIndex := engine.manifest.flushedIndex } output inputs

/-- Compacts until no tier has enough tables.  Every round leaves three tables fewer, so the
number of tables bounds the rounds. -/
def compactRounds (m : Marshaler VersionEdit) : Nat → EngineM Unit
  | 0 => return ()
  | rounds + 1 => do
    let engine ← getEngine
    match selectCompactionInputs engine.tables with
    | none => return ()
    | some (tier, inputs) => do
      Prog.failIf (tier = maxUint32) (.text "lsm: compaction tier exhausted")
      compactInputsLocked m tier inputs
      compactRounds m rounds

def compactAllLocked (m : Marshaler VersionEdit) : EngineM Unit := do
  match ← reconcileObsoleteLocked with
  | some err => throw err
  | none => do
    let engine ← getEngine
    compactRounds m engine.tables.length

end MiniQuorum.Lsm
