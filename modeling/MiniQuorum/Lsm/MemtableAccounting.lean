import Mathlib.Algebra.Order.BigOperators.Group.List
import MiniQuorum.Lsm.Engine
import MiniQuorum.Program.Preserves

/-! The counters of the memtables.  They are exact in every engine that arises, whatever the
filesystem under it does. -/

namespace MiniQuorum.Lsm

open Codec Collections Program

variable {m : Marshaler VersionEdit} {engine : Engine} {α : Type}

def storedSize (entries : List TableEntry) : Int := (entries.map memtableEntrySize).sum

def largestSeq (entries : List TableEntry) : Nat := (entries.map TableEntry.seq).foldr max 0

structure ImmutableMemtable.Exact (immutable : ImmutableMemtable) : Prop where
  count : immutable.count = immutable.list.entries.length
  maxSeq : immutable.maxSeq = largestSeq immutable.list.entries

/-- The counters say what is in the memtables. -/
structure Engine.Exact (engine : Engine) : Prop where
  size : engine.activeSize = storedSize engine.list.entries
  count : engine.activeCount = engine.list.entries.length
  maxSeq : engine.activeMaxSeq = largestSeq engine.list.entries
  frozen : ∀ immutable ∈ engine.immutables, immutable.Exact

/-- Engines that arise: made in memory or opened, and then called, each time on any
filesystem. -/
inductive Engine.Arises (m : Marshaler VersionEdit) : Engine → Prop
  | new (rnd : Rand) : Arises m (newEngine rnd)
  | opened {dir : Bytes} {options : Options} {fs fs' : SimFS} {engine : Engine}
      (h : openEngine m dir options fs = (.ok engine, fs')) : Arises m engine
  | called (c : EngineCall) (fs : SimFS) {engine : Engine} (h : Arises m engine) :
      Arises m (c.run m ⟨engine, fs⟩).2.engine

/-! ### Counting -/

theorem memtableEntrySize_nonneg (entry : TableEntry) : 0 ≤ memtableEntrySize entry := by
  simp only [memtableEntrySize]
  split <;> split <;> exact Int.natCast_nonneg _

theorem storedSize_nonneg (entries : List TableEntry) : 0 ≤ storedSize entries := by
  refine List.sum_nonneg ?_
  intro size hsize
  obtain ⟨entry, -, rfl⟩ := List.mem_map.1 hsize
  exact memtableEntrySize_nonneg entry

theorem storedSize_upsert (list : Memtable) (entry : TableEntry) :
    storedSize (SkipList.upsert entry list.entries) = storedSize list.entries -
      ((list.get entry.key).map memtableEntrySize).getD 0 + memtableEntrySize entry := by
  obtain ⟨rest, hold, hnew⟩ := list.perm_upsert entry
  rw [storedSize, storedSize, (hold.map _).sum_eq, (hnew.map _).sum_eq]
  cases list.get entry.key with
  | none => simp [Int.add_comm]
  | some old => simp [Int.add_comm]

theorem largestSeq_perm {entries entries' : List TableEntry} (h : entries.Perm entries') :
    largestSeq entries = largestSeq entries' := (h.map _).foldr_eq 0

theorem largestSeq_upsert (list : Memtable) (entry : TableEntry)
    (hnew : ∀ old, list.get entry.key = some old → old.seq < entry.seq) :
    largestSeq (SkipList.upsert entry list.entries) = max (largestSeq list.entries) entry.seq := by
  obtain ⟨rest, hold, hupsert⟩ := list.perm_upsert entry
  rw [largestSeq_perm hold, largestSeq_perm hupsert]
  cases hget : list.get entry.key with
  | none => exact max_comm _ _
  | some old =>
    have hlt := hnew old hget
    simp only [largestSeq, Option.toList_some, List.singleton_append, List.map_cons,
      List.foldr_cons]
    omega

theorem Engine.Exact.empty (h : engine.list = Memtable.empty) (hsize : engine.activeSize = 0)
    (hcount : engine.activeCount = 0) (hmax : engine.activeMaxSeq = 0)
    (hfrozen : ∀ immutable ∈ engine.immutables, immutable.Exact) : engine.Exact := by
  refine ⟨?_, ?_, ?_, hfrozen⟩
  · rw [hsize, h, Memtable.entries_empty]
    rfl
  · rw [hcount, h, Memtable.entries_empty]
    rfl
  · rw [hmax, h, Memtable.entries_empty]
    rfl

theorem Engine.Exact.putActive (h : engine.Exact) (entry : TableEntry) :
    (putActive engine entry = none ∧ ∃ old, engine.list.get entry.key = some old ∧
      entry.seq ≤ old.seq) ∨
    ∃ engine', Lsm.putActive engine entry = some engine' ∧
      (∀ old, engine.list.get entry.key = some old → old.seq < entry.seq) ∧
      engine'.list.entries = SkipList.upsert entry engine.list.entries ∧ engine'.Exact ∧
      engine' = { engine with
        list := engine'.list
        rnd := engine'.rnd
        activeSize := engine'.activeSize
        activeCount := engine'.activeCount
        activeMaxSeq := engine'.activeMaxSeq } := by
  rw [Lsm.putActive]
  by_cases hold : (engine.list.get entry.key).any fun old => entry.seq ≤ old.seq
  · obtain ⟨old, hget, hle⟩ := (Option.any_eq_true _ _).1 hold
    exact .inl ⟨if_pos hold, old, hget, of_decide_eq_true hle⟩
  · have hnew (old : TableEntry) (hget : engine.list.get entry.key = some old) :
        old.seq < entry.seq := by
      rw [hget] at hold
      simpa using hold
    rcases engine.list.put_spec entry engine.rnd with
      ⟨-, old, hget, hle⟩ | ⟨list, rnd, hput, hentries, -⟩
    · exact absurd (hnew old hget) (not_lt.2 hle)
    · right
      rw [if_neg hold, hput]
      refine ⟨_, rfl, hnew, hentries, ⟨?_, ?_, ?_, h.frozen⟩, rfl⟩
      · show _ = storedSize list.entries
        rw [hentries, storedSize_upsert, ← h.size]
      · show _ = list.entries.length
        rw [hentries, Memtable.length_upsert, ← h.count]
      · show _ = largestSeq list.entries
        rw [hentries, largestSeq_upsert _ _ hnew, ← h.maxSeq]

/-! ### Programs that leave the memtables alone -/

def Counted (s : Store) : Prop := s.engine.Exact

theorem preserves_onFS (x : FSM α) : Preserves Counted (onFS x) :=
  Preserves.zoom x fun _ _ h => h

theorem preserves_getEngine : Preserves Counted getEngine := fun _ h => h

theorem preserves_modifyEngine {f : Engine → Engine} (hf : ∀ engine, engine.Exact → (f engine).Exact) :
    Preserves Counted (modifyEngine f) := fun _ h => hf _ h

theorem preserves_bookkeeping {f : Engine → Engine}
    (hf : ∀ engine, (f engine).list = engine.list ∧ (f engine).activeSize = engine.activeSize ∧
      (f engine).activeCount = engine.activeCount ∧ (f engine).activeMaxSeq = engine.activeMaxSeq ∧
      (f engine).immutables = engine.immutables) :
    Preserves Counted (modifyEngine f) := by
  refine preserves_modifyEngine ?_
  intro engine h
  obtain ⟨hlist, hsize, hcount, hmax, hfrozen⟩ := hf engine
  exact ⟨by rw [hsize, hlist, h.size], by rw [hcount, hlist, h.count],
    by rw [hmax, hlist, h.maxSeq], hfrozen ▸ h.frozen⟩

theorem closeFileRetainingLocked_counted (file : FileID) :
    Preserves Counted (closeFileRetainingLocked file) := by
  refine .bind (preserves_onFS _) ?_
  rintro (_ | err)
  · exact .pure _
  · refine .ite (.pure _) (.bind (preserves_bookkeeping fun _ => ⟨rfl, rfl, rfl, rfl, rfl⟩) ?_)
    exact fun _ => .pure _

theorem openTable_counted (metadata : FileMetadata) (maxSequence : Nat) :
    Preserves Counted (openTable metadata maxSequence) := by
  refine .bind preserves_getEngine fun engine => .bind (preserves_onFS _) ?_
  rintro (⟨_ | file, err⟩ | table)
  · exact .throw _
  · exact .bind (closeFileRetainingLocked_counted file) fun _ => .throw _
  · exact .pure _

theorem allocateFilenameLocked_counted : Preserves Counted allocateFilenameLocked :=
  .bind preserves_getEngine fun _ => .bind (.failIf _) fun _ =>
    .bind (preserves_bookkeeping fun _ => ⟨rfl, rfl, rfl, rfl, rfl⟩) fun _ => .pure _

theorem releaseTable_counted (table : Option TableHandle) :
    Preserves Counted (releaseTable table) := by
  cases table with
  | none => exact .pure _
  | some table => exact closeFileRetainingLocked_counted table.file

theorem retainUnresolved_counted (file : Option FileID) :
    Preserves Counted (retainUnresolved file) :=
  preserves_bookkeeping fun _ => ⟨rfl, rfl, rfl, rfl, rfl⟩

theorem poisonLocked_counted (err : Err) : Preserves Counted (poisonLocked err) :=
  preserves_bookkeeping fun _ => ⟨rfl, rfl, rfl, rfl, rfl⟩

theorem commitEditLocked_counted (edit : VersionEdit) (table : Option TableHandle) :
    Preserves Counted (commitEditLocked m edit table) := by
  refine .bind preserves_getEngine fun engine => ?_
  cases engine.manifest.apply edit with
  | error e => exact .bind (releaseTable_counted table) fun _ => .pure _
  | ok next =>
    refine .bind (preserves_onFS _) fun outcome => .bind (retainUnresolved_counted _) fun _ => ?_
    refine .ite (.bind (preserves_bookkeeping fun _ => ⟨rfl, rfl, rfl, rfl, rfl⟩) fun _ => .pure _) ?_
    have hrelease (err : Option Err) : Preserves Counted (do
        let closeErr ← releaseTable table
        return (false, Err.joined err closeErr)) :=
      .bind (releaseTable_counted table) fun _ => .pure _
    cases outcome.err with
    | none => exact hrelease none
    | some err => exact .when (poisonLocked_counted err) (hrelease (some err))

theorem removeObsolete_counted (path : Path) : Preserves Counted (removeObsolete path) := by
  refine .bind (preserves_bookkeeping fun _ => ⟨rfl, rfl, rfl, rfl, rfl⟩) fun _ =>
    .bind (preserves_onFS _) ?_
  rintro (_ | err)
  · exact .pure _
  · exact .ite (.pure _) (.pure _)

theorem reconcileFile_counted (obsolete : ObsoleteFile) :
    Preserves Counted (reconcileFile obsolete) := by
  rw [reconcileFile]
  cases obsolete.file with
  | none => exact removeObsolete_counted _
  | some file =>
    refine .bind (preserves_onFS _) ?_
    rintro (_ | err)
    · exact removeObsolete_counted _
    · exact .ite (removeObsolete_counted _) (.pure _)

theorem syncObsoleteDir_counted (combined : Option Err) :
    Preserves Counted (syncObsoleteDir combined) := by
  refine .bind preserves_getEngine fun engine => .ite (.bind (preserves_onFS _) ?_) (.pure _)
  rintro (_ | err)
  · exact .bind (preserves_bookkeeping fun _ => ⟨rfl, rfl, rfl, rfl, rfl⟩) fun _ => .pure _
  · exact .pure _

theorem reconcileObsoleteLocked_counted : Preserves Counted reconcileObsoleteLocked := by
  refine .bind preserves_getEngine fun engine => .ite (.bind ?_ fun acc => ?_) (.pure _)
  · exact .foldlM (fun acc obsolete => .bind (reconcileFile_counted obsolete) fun _ => .pure _) _ _
  · exact .bind (preserves_bookkeeping fun _ => ⟨rfl, rfl, rfl, rfl, rfl⟩) fun _ =>
      syncObsoleteDir_counted _

/-! ### Compaction -/

theorem discardCompactionOutputLocked_counted (path : Path) (file : Option FileID) (cause : Err) :
    Preserves Counted (discardCompactionOutputLocked path file cause) :=
  .bind (preserves_bookkeeping fun _ => ⟨rfl, rfl, rfl, rfl, rfl⟩) fun _ =>
    .bind reconcileObsoleteLocked_counted fun _ => .pure _

theorem discarding_counted (path : Path) (file : Option FileID) {x : EngineM α}
    (hx : Preserves Counted x) : Preserves Counted (discarding path file x) := by
  refine .bind hx.attempt ?_
  rintro (cause | a)
  · exact .bind (discardCompactionOutputLocked_counted path file cause) fun _ => .throw _
  · exact .pure _

theorem refill_counted (it : KWayMergeIterator TableSource) (input : Nat) (message : String) :
    Preserves Counted (it.refill TableSource.next input message) := by
  rw [KWayMergeIterator.refill]
  cases it.inputs[input]? with
  | none => exact .throw _
  | some source =>
    refine .bind (.wrap _ (.bind (preserves_onFS _) fun _ => .pure _)) ?_
    rintro ⟨_ | entry, source⟩
    · exact .pure _
    · exact .pure _

theorem drainKey_counted (key : Bytes) (fuel : Nat) (it : KWayMergeIterator TableSource)
    (versions : List TableEntry) (winner : Option TableEntry) :
    Preserves Counted (it.drainKey TableSource.next key fuel versions winner) := by
  induction fuel generalizing it versions winner with
  | zero => exact .throw _
  | succ fuel ih =>
    rw [KWayMergeIterator.drainKey]
    refine .ite (.pure _) ?_
    cases BinaryHeap.pop mergeHeapLess it.heap with
    | none => exact .pure _
    | some popped =>
      exact .bind (.liftExcept _) fun _ => .bind (refill_counted _ _ _) fun _ => ih _ _ _

theorem mergeEntries_counted (records fuel : Nat) (merge : KWayMergeIterator TableSource)
    (entries : List TableEntry) : Preserves Counted (mergeEntries records fuel merge entries) := by
  induction fuel generalizing merge entries with
  | zero => exact .throw _
  | succ fuel ih =>
    have hnext : Preserves Counted (merge.next TableSource.next records) := by
      rw [KWayMergeIterator.next]
      cases merge.heap[0]? with
      | none => exact .pure _
      | some top => exact drainKey_counted _ _ _ _ _
    refine .bind hnext ?_
    rintro ⟨_ | entry, merge⟩
    · exact .pure _
    · exact .bind (.liftExcept _) fun _ => ih _ _

theorem mergeInputs_counted (inputs : List TableHandle) : Preserves Counted (mergeInputs inputs) :=
  .bind (.foldlM (fun it input => refill_counted it input _) _ _) fun _ =>
    .bind (mergeEntries_counted _ _ _ _) fun _ => .bind (.failIf _) fun _ => .pure _

theorem buildCompactionOutputLocked_counted (tier : Nat) (inputs : List TableHandle) :
    Preserves Counted (buildCompactionOutputLocked tier inputs) := by
  refine .bind allocateFilenameLocked_counted fun filename => .bind preserves_getEngine fun engine =>
    .bind (discarding_counted _ _ (preserves_onFS _)) fun file => .bind (discarding_counted _ _ ?_)
      fun entries => .bind (discarding_counted _ _ (preserves_onFS _)) fun _ =>
        .bind (preserves_onFS _) ?_
  · exact .bind (mergeInputs_counted inputs) fun _ => .bind (preserves_onFS _) fun _ => .pure _
  · rintro (⟨owned, err⟩ | table)
    · exact .bind (discardCompactionOutputLocked_counted _ _ _) fun _ => .throw _
    · exact .pure _

theorem commitCompactionLocked_counted (edit : VersionEdit) (output : TableHandle)
    (selected : List TableHandle) :
    Preserves Counted (commitCompactionLocked m edit output selected) := by
  refine .bind preserves_getEngine fun engine => ?_
  cases engine.manifest.apply edit with
  | error e => exact .bind (discardCompactionOutputLocked_counted _ _ _) fun _ => .throw _
  | ok next =>
    refine .bind (preserves_onFS _) fun outcome => .bind (retainUnresolved_counted _) fun _ =>
      .ite (.bind (preserves_bookkeeping fun _ => ⟨rfl, rfl, rfl, rfl, rfl⟩) fun _ =>
        .bind reconcileObsoleteLocked_counted fun cleanup => ?_) ?_
    · cases Err.joined outcome.err cleanup with
      | none => exact .pure _
      | some err => exact .throw _
    · cases outcome.err with
      | none => exact .pure _
      | some err =>
        refine .ite (.bind (poisonLocked_counted err) fun _ => ?_) ?_
        · exact .bind (closeFileRetainingLocked_counted _) fun _ => .throw _
        · exact .bind (discardCompactionOutputLocked_counted _ _ _) fun _ => .throw _

theorem compactInputsLocked_counted (tier : Nat) (inputs : List TableHandle) :
    Preserves Counted (compactInputsLocked m tier inputs) :=
  .bind (.failIf _) fun _ => .bind (.failIf _) fun _ => .bind (.failIf _) fun _ =>
    .bind preserves_getEngine fun _ => .bind (.failIf _) fun _ =>
      .bind (buildCompactionOutputLocked_counted _ _) fun _ => .bind preserves_getEngine fun _ =>
        commitCompactionLocked_counted _ _ _

theorem compactRounds_counted (rounds : Nat) : Preserves Counted (compactRounds m rounds) := by
  induction rounds with
  | zero => exact .pure _
  | succ rounds ih =>
    refine .bind preserves_getEngine fun engine => ?_
    rcases selectCompactionInputs engine.tables with _ | ⟨tier, inputs⟩
    · exact .pure _
    · exact .bind (.failIf _) fun _ => .bind (compactInputsLocked_counted _ _) fun _ => ih

theorem compactAllLocked_counted : Preserves Counted (compactAllLocked m) := by
  refine .bind reconcileObsoleteLocked_counted ?_
  rintro (_ | err)
  · exact .bind preserves_getEngine fun _ => compactRounds_counted _
  · exact .throw _

/-! ### Flushing -/

theorem freezeLocked_counted (watermark : Nat) : Preserves Counted (freezeLocked watermark) := by
  refine preserves_modifyEngine fun engine h => .empty rfl rfl rfl rfl ?_
  intro immutable himmutable
  rcases List.mem_append.1 himmutable with hold | hnew
  · exact h.frozen immutable hold
  · rw [List.mem_singleton.1 hnew]
    exact ⟨h.count, h.maxSeq⟩

theorem closingOnError_counted (file : FileID) (message : String) {x : EngineM α}
    (hx : Preserves Counted x) : Preserves Counted (closingOnError file message x) := by
  refine .bind hx.attempt ?_
  rintro (err | a)
  · exact .bind (closeFileRetainingLocked_counted file) fun _ => .throw _
  · exact .pure _

theorem writeMemtable_counted (immutable : ImmutableMemtable) :
    Preserves Counted (writeMemtable immutable) := by
  refine .bind allocateFilenameLocked_counted fun _ => .bind preserves_getEngine fun _ =>
    .bind (preserves_onFS _) fun file => .bind (closingOnError_counted _ _ (.liftExcept _)) fun _ =>
      .bind (closingOnError_counted _ _ (preserves_onFS _)) fun _ =>
        .bind (closingOnError_counted _ _ (preserves_onFS _)) fun _ =>
          .bind (closeFileRetainingLocked_counted file) ?_
  rintro (_ | err)
  · exact .bind (preserves_onFS _) fun _ => openTable_counted _ _
  · exact .throw _

theorem flushOldestLocked_counted (immutable : ImmutableMemtable) :
    Preserves Counted (flushOldestLocked m immutable) := by
  refine .bind (.failIf _) fun _ => .bind (.failIf _) fun _ =>
    .bind (writeMemtable_counted immutable) fun table =>
      .bind (commitEditLocked_counted _ _) fun result => .ite (.bind ?_ fun _ => ?_) ?_
  · exact preserves_modifyEngine fun engine h =>
      ⟨h.size, h.count, h.maxSeq, fun im him => h.frozen im (List.mem_of_mem_tail him)⟩
  · cases result.2 with
    | none => exact .bind preserves_getEngine fun _ => .ite (.pure _) compactAllLocked_counted
    | some err => exact .throw _
  · cases result.2 with
    | none => exact .pure _
    | some err => exact .throw _

theorem flushImmutables_counted (rounds : Nat) : Preserves Counted (flushImmutables m rounds) := by
  induction rounds with
  | zero => exact .pure _
  | succ rounds ih =>
    refine .bind preserves_getEngine fun engine => ?_
    cases engine.immutables with
    | nil => exact .pure _
    | cons immutable rest => exact .bind (flushOldestLocked_counted immutable) fun _ => ih

theorem flushThroughLocked_counted (index : Nat) :
    Preserves Counted (flushThroughLocked m index) := by
  refine .bind preserves_getEngine fun engine => .ite ?_ (.failIf _)
  refine .bind (.failIf _) fun _ => .bind (.failIf _) fun _ => .bind (.failIf _) fun _ =>
    .bind (.failIf _) fun _ => .when (freezeLocked_counted index) ?_
  refine .bind preserves_getEngine fun engine => .bind (flushImmutables_counted _) fun _ =>
    .bind preserves_getEngine fun engine => .ite (.bind (commitEditLocked_counted _ _) ?_) (.pure _)
  rintro ⟨committed, _ | err⟩
  · exact .pure _
  · exact .throw _

/-! ### Writing -/

theorem checkOpenLocked_counted : Preserves Counted checkOpenLocked := by
  refine .bind preserves_getEngine fun engine => .bind (.failIf _) fun _ => ?_
  cases engine.poisoned with
  | none => exact .pure _
  | some err => exact .throw _

theorem writeLocked_counted (entry : TableEntry) : Preserves Counted (writeLocked m entry) := by
  refine .bind checkOpenLocked_counted fun _ =>
    .bind (preserves_bookkeeping fun _ => ⟨rfl, rfl, rfl, rfl, rfl⟩) fun _ => ?_
  intro s h
  rw [wp_bind, wp_getEngine]
  rcases Engine.Exact.putActive h entry with ⟨hnone, -⟩ | ⟨engine', hsome, -, -, hexact, -⟩
  · simp only [hnone]
    exact h
  · simp only [hsome]
    rw [wp_bind, wp_modifyEngine]
    exact wp_ite (fun _ => flushThroughLocked_counted _ _ hexact) (fun _ => hexact)

/-! ### Reading, closing and opening -/

theorem lookupLocked_counted (key : Bytes) : Preserves Counted (lookupLocked key) :=
  .bind preserves_getEngine fun _ => .bind (.failIf _) fun _ => .bind (.liftExcept _) fun _ =>
    .bind (.liftExcept _) fun _ =>
      .foldlM (fun _ _ => .bind (preserves_onFS _) fun _ => .liftExcept _) _ _

theorem closeForGood_counted (file : FileID) : Preserves Counted (closeForGood file) := by
  refine .bind (preserves_onFS _) ?_
  rintro (_ | err)
  · exact .pure _
  · exact .ite (.pure _) (.pure _)

theorem closeTables_counted : Preserves Counted closeTables := by
  refine .bind preserves_getEngine fun engine => .bind (.foldlM ?_ _ _) ?_
  · exact fun acc table => .bind (closeForGood_counted table.file) fun _ => .pure _
  · rintro ⟨left, combined⟩
    exact .bind (preserves_bookkeeping fun _ => ⟨rfl, rfl, rfl, rfl, rfl⟩) fun _ => .pure _

theorem closeUnresolvedLocked_counted : Preserves Counted closeUnresolvedLocked := by
  refine .bind preserves_getEngine fun engine => .bind (.foldlM ?_ _ _) ?_
  · exact fun acc file => .bind (closeForGood_counted file) fun _ => .pure _
  · rintro ⟨left, combined⟩
    exact .bind (preserves_bookkeeping fun _ => ⟨rfl, rfl, rfl, rfl, rfl⟩) fun _ => .pure _

theorem close_counted : Preserves Counted close :=
  .bind (preserves_bookkeeping fun _ => ⟨rfl, rfl, rfl, rfl, rfl⟩) fun _ =>
    .bind reconcileObsoleteLocked_counted fun _ => .bind closeUnresolvedLocked_counted fun _ =>
      .bind closeTables_counted fun _ => .pure _

theorem recoverVersion_counted : Preserves Counted recoverVersion := by
  refine .bind (.bind preserves_getEngine fun _ => .forM ?_ _) fun _ =>
    .bind (.bind preserves_getEngine fun _ => .bind (.forM (fun _ => preserves_onFS _) _) fun _ =>
      .bind (preserves_onFS _) fun _ => preserves_onFS _) fun _ =>
    .bind (.bind preserves_getEngine fun _ => .bind (preserves_onFS _) fun _ =>
      .bind (.foldlM (fun _ _ => .bind (preserves_onFS _) fun _ => .pure _) _ _) fun _ =>
        .ite (preserves_onFS _) (.pure _)) fun _ =>
    preserves_bookkeeping fun _ => ⟨rfl, rfl, rfl, rfl, rfl⟩
  intro metadata
  exact .bind (openTable_counted _ _) fun _ => preserves_bookkeeping fun _ => ⟨rfl, rfl, rfl, rfl, rfl⟩

theorem openEngine_exact (dir : Bytes) (options : Options) (fs : SimFS) :
    wp (openEngine m dir options) (fun engine _ => engine.Exact) (fun _ _ => True) fs := by
  rw [openEngine, wp_bind, wp_failIf]
  refine ⟨fun _ => trivial, fun _ => ?_⟩
  rw [wp_bind]
  refine wp_iff.2 ⟨fun state fs₁ _ => wp_withEngine ?_, fun _ _ _ => trivial⟩
  have hstart : Counted ⟨recoveredEngine dir options state, fs₁⟩ :=
    .empty rfl rfl rfl rfl (by simp [recoveredEngine])
  rw [wp_bind, wp_attempt]
  refine wp_mono (recoverVersion_counted _ hstart) (fun _ _ h => h) ?_
  intro err s h
  have hfail : Preserves Counted (do
      let tablesErr ← closeTables
      let unresolvedErr ← closeUnresolvedLocked
      throw ((Err.joined (Err.joined (some err) tablesErr) unresolvedErr).getD err) : EngineM Unit) :=
    .bind closeTables_counted fun _ => .bind closeUnresolvedLocked_counted fun _ => .throw _
  exact wp_mono (hfail s h) (fun _ _ h' => h') (fun _ _ _ => trivial)

theorem EngineCall.run_counted (c : EngineCall) : Preserves Counted (c.run m) := by
  cases c with
  | put key value seq => exact writeLocked_counted _
  | delete key seq => exact writeLocked_counted _
  | advanceAppliedIndex index =>
    exact .bind checkOpenLocked_counted fun _ => .bind preserves_getEngine fun _ =>
      .bind (.failIf _) fun _ => preserves_bookkeeping fun _ => ⟨rfl, rfl, rfl, rfl, rfl⟩
  | flushThrough index =>
    exact .bind checkOpenLocked_counted fun _ => flushThroughLocked_counted _
  | forceFlush =>
    exact .bind checkOpenLocked_counted fun _ => .bind preserves_getEngine fun _ =>
      flushThroughLocked_counted _
  | compact => exact .bind checkOpenLocked_counted fun _ => compactAllLocked_counted
  | lookup key => exact .bind (lookupLocked_counted key) fun _ => .pure _
  | close => exact .bind close_counted fun _ => .pure _
  | abandon =>
    rw [run, Lsm.abandon]
    exact preserves_bookkeeping fun _ => ⟨rfl, rfl, rfl, rfl, rfl⟩

theorem Engine.Arises.exact (h : Engine.Arises m engine) : engine.Exact := by
  induction h with
  | new rnd => exact .empty rfl rfl rfl rfl (by simp [newEngine])
  | opened h => exact (wp_iff.1 (openEngine_exact _ _ _)).1 _ _ h
  | @called c fs engine _ ih =>
    have hstart : Counted ⟨engine, fs⟩ := ih
    exact (EngineCall.run_counted c).run hstart

theorem shouldFlush_iff : shouldFlush engine = true ↔
    engine.persistent = true ∧ 0 < engine.flushThreshold ∧
      engine.flushThreshold ≤ engine.activeSize := by
  simp [shouldFlush, and_assoc]

/-- In every engine that arises the counters are those of the records, so the size is never
negative; and a write is refused for a newer record, or it is stored and a flush starts exactly
if the records then reach the threshold. -/
theorem memtable_accounting (h : Engine.Arises m engine) :
    engine.Exact ∧ 0 ≤ engine.activeSize ∧
      ∀ entry fs, engine.closed = false → engine.poisoned = none →
        ((∃ old, engine.list.get entry.key = some old ∧ entry.seq ≤ old.seq) ∧
          writeLocked m entry ⟨engine, fs⟩ =
            (.ok (), ⟨{ engine with appliedIndex := max engine.appliedIndex entry.seq }, fs⟩)) ∨
        ((∀ old, engine.list.get entry.key = some old → old.seq < entry.seq) ∧
          ∃ stored : Engine, stored.Exact ∧
            stored.list.entries = SkipList.upsert entry engine.list.entries ∧
            writeLocked m entry ⟨engine, fs⟩ =
              if engine.persistent = true ∧ 0 < engine.flushThreshold ∧
                  engine.flushThreshold ≤ storedSize stored.list.entries then
                flushThroughLocked m (automaticFlushTarget stored) ⟨stored, fs⟩
              else (.ok (), ⟨stored, fs⟩)) := by
  have hexact := h.exact
  refine ⟨hexact, hexact.size ▸ storedSize_nonneg _, ?_⟩
  intro entry fs hopen hpoisoned
  let advanced : Engine := { engine with appliedIndex := max engine.appliedIndex entry.seq }
  have hadvanced : advanced.Exact := ⟨hexact.size, hexact.count, hexact.maxSeq, hexact.frozen⟩
  have hrun : writeLocked m entry ⟨engine, fs⟩ = (putActive advanced entry).elim
      (.ok (), ⟨advanced, fs⟩) fun stored => (if shouldFlush stored then
        flushThroughLocked m (automaticFlushTarget stored) else return ()) ⟨stored, fs⟩ := by
    refine eq_of_wp ?_
    rw [writeLocked, wp_bind, checkOpenLocked, wp_bind, wp_getEngine, wp_bind, wp_failIf]
    refine ⟨fun hclosed => absurd hclosed (by simp [hopen]), fun _ => ?_⟩
    simp only [hpoisoned]
    rw [wp_pure, wp_bind, wp_modifyEngine, wp_bind, wp_getEngine]
    cases putActive advanced entry with
    | none => rfl
    | some stored =>
      refine (wp_bind _ _).2 ((wp_modifyEngine _).2 (wp_iff.2 ⟨?_, ?_⟩))
      · exact fun _ _ hrun => hrun.symm
      · exact fun _ _ hrun => hrun.symm
  rcases hadvanced.putActive entry with ⟨hnone, hold⟩ | ⟨stored, hsome, hnew, hentries, hstored, heq⟩
  · refine .inl ⟨hold, ?_⟩
    rw [hrun, hnone, Option.elim_none]
  · refine .inr ⟨hnew, stored, hstored, hentries, ?_⟩
    have hflush : shouldFlush stored = true ↔ engine.persistent = true ∧
        0 < engine.flushThreshold ∧ engine.flushThreshold ≤ storedSize stored.list.entries := by
      rw [shouldFlush_iff, hstored.size, heq]
    rw [hrun, hsome, Option.elim_some]
    by_cases hreached : shouldFlush stored = true
    · simp only [if_pos hreached, if_pos (hflush.1 hreached)]
    · simp only [if_neg hreached, if_neg (mt hflush.2 hreached)]
      rfl

def fill (s : Store) : Store :=
  [EngineCall.put [1] [7] 3, .put [2] [8, 9] 4, .delete [1] 5].foldl
    (fun s c => (c.run editWire.marshaler s).2) s

/-- Three writes to two keys, and behind them one that is too old and one that reaches the
threshold. -/
theorem memtable_accounting_filled :
    ∃ engine fs, Engine.Arises editWire.marshaler engine ∧ engine.Exact ∧
      engine.list.entries = [⟨[1], 5, [], true⟩, ⟨[2], 4, [8, 9], false⟩] ∧
      engine.activeSize = 22 ∧ engine.flushThreshold = 30 ∧
      writeLocked editWire.marshaler ⟨[1], 4, [9], false⟩ ⟨engine, fs⟩ =
        (.ok (), ⟨{ engine with appliedIndex := max engine.appliedIndex 4 }, fs⟩) ∧
      ∃ stored : Engine, stored.Exact ∧ stored.activeSize = 34 ∧
        writeLocked editWire.marshaler ⟨[3], 6, [1, 1], false⟩ ⟨engine, fs⟩ =
          flushThroughLocked editWire.marshaler (automaticFlushTarget stored) ⟨stored, fs⟩ := by
  have hfilled : (openEngine editWire.marshaler [] ⟨Stream'.const 1, 30, false, false⟩
      .newSimFS).1.toOption.any (fun engine =>
        let engine := (fill ⟨engine, .newSimFS⟩).engine
        decide (engine.list.entries = [⟨[1], 5, [], true⟩, ⟨[2], 4, [8, 9], false⟩] ∧
          engine.list.get [1] = some ⟨[1], 5, [], true⟩ ∧ engine.list.get [3] = none ∧
          engine.closed = false ∧ engine.poisoned = none ∧ engine.persistent = true ∧
          engine.flushThreshold = 30)) = true := by decide +kernel
  rcases hopened : openEngine editWire.marshaler [] ⟨Stream'.const 1, 30, false, false⟩
      .newSimFS with ⟨err | engine₀, fs₀⟩
  · rw [hopened] at hfilled
    cases hfilled
  rw [hopened] at hfilled
  obtain ⟨hentries, hold, hnew, hopen, hpoisoned, hpersistent, hthreshold⟩ :=
    of_decide_eq_true hfilled
  have harises : Engine.Arises editWire.marshaler (fill ⟨engine₀, .newSimFS⟩).engine :=
    .called (.delete [1] 5) _ (.called (.put [2] [8, 9] 4) _ (.called (.put [1] [7] 3) _
      (.opened hopened)))
  generalize (fill ⟨engine₀, .newSimFS⟩).engine = engine at *
  obtain ⟨hexact, -, hwrite⟩ := memtable_accounting harises
  refine ⟨engine, .newSimFS, harises, hexact, hentries, ?_, hthreshold, ?_, ?_⟩
  · rw [hexact.size, hentries]
    decide
  · rcases hwrite ⟨[1], 4, [9], false⟩ .newSimFS hopen hpoisoned with ⟨-, hrun⟩ | ⟨hlt, -⟩
    · exact hrun
    · exact absurd (hlt _ hold) (by decide)
  · rcases hwrite ⟨[3], 6, [1, 1], false⟩ .newSimFS hopen hpoisoned with
      ⟨⟨old, hsome, -⟩, -⟩ | ⟨-, stored, hstored, hlist, hrun⟩
    · cases hnew.symm.trans hsome
    · have hsize : storedSize stored.list.entries = 34 := by
        rw [hlist, hentries]
        decide
      refine ⟨stored, hstored, hstored.size.trans hsize, ?_⟩
      rw [hrun, if_pos ⟨hpersistent, by rw [hthreshold]; decide, by rw [hthreshold, hsize]; decide⟩]

end MiniQuorum.Lsm
