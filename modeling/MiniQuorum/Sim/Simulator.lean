import MiniQuorum.Sim.FaultSchedule
import MiniQuorum.Workload.Runner
import MiniQuorum.Collections.BinaryHeap
import MiniQuorum.Raft.Node

/-! The simulator: one event queue that drives the Raft nodes, their storages and their
state machines. -/

namespace MiniQuorum.Sim

open Raft Storage StateMachine Collections Program

open Workload (AttemptID Submission SubmitStatus)

/-! ### The workload and its host -/

/-- The calls that a runner makes on its host before it returns. -/
inductive HostCalls (α : Type)
  | done (result : α)
  | now (next : VirtualTime → HostCalls α)
  | schedule (time : VirtualTime) (event : Workload.Event) (next : HostCalls α)
  | submit (submission : Submission) (next : Option SubmitStatus → HostCalls α)
  | cancel (attempt : AttemptID) (next : HostCalls α)

/-! ### What the simulator drives -/

inductive SaveError
  | crashed
  | failed
  deriving DecidableEq, Repr

structure StorageOps where
  Store : Type
  new : Store
  save : Store → Option HardState → List Entry → Store × Except SaveError Unit
  hardState : Store → Option HardState
  entries : Store → Nat → Nat → Option (List Entry)
  firstIndex : Store → Nat
  lastIndex : Store → Nat

inductive MachineError
  | simulatedCrash
  | failed
  deriving DecidableEq, Repr

structure FSEvent where
  op : Lsm.FSOp
  occurrence : Nat
  completed : Bool
  deriving DecidableEq, Repr

/-- State machines, over everything they share and everything that outlives them. -/
structure MachineOps where
  Machine : Type
  World : Type
  apply : World → Machine → Entry → World × Machine × Except MachineError Result
  crash : World → Machine → World
  beginReplay : World → Machine → Nat → Nat → World × Option Machine
  install : World → NodeID → List LSMCrashDirective → World × Option Machine
  reopen : World → NodeID → World × Except MachineError Machine
  lastEvent : World → NodeID → Option FSEvent

structure RandOps where
  Source : Type
  delay : Source → Int → Int × Source
  chance : Source → Float × Source
  jitter : Source → NodeID → Rand × Source

structure RunnerOps where
  Runner : Type
  Failure : Type
  start : Runner → HostCalls (Runner × Option Failure)
  handle : Runner → Workload.Event → HostCalls (Runner × Option Failure)
  retryEvent : Runner → UInt64 → Option Workload.Event

/-- Cancels and schedules, as `host` has them from its event number `sent` on. -/
def HostCalls.announce {α : Type} (host : Workload.Host) (sent : Nat) (next : HostCalls α) : HostCalls α :=
  host.canceled.foldr .cancel
    ((host.scheduled.drop sent).foldr (fun e => .schedule e.1.toInt e.2) next)

/-- A handler of the runner as the calls that it makes.  It submits at most once, and schedules
nothing after a submission that is accepted. -/
def hostCalls (handler : Workload.RunnerM Unit) (runner : Workload.Runner) :
    HostCalls (Workload.Runner × Option Workload.RunnerError) :=
  .now fun time =>
    let run (answer : Except String SubmitStatus) :=
      handler ⟨runner, ⟨Int64.ofInt time, Stream'.const answer, [], [], []⟩⟩
    let before := run (.ok .accepted)
    let result (r : Except Workload.RunnerError Unit × Workload.World) :=
      HostCalls.done (r.2.runner, match r.1 with
        | .ok _ => none
        | .error err => some err)
    match before.2.host.submissions with
    | [] => .announce before.2.host 0 (result before)
    | submission :: _ =>
      .announce before.2.host 0 (.submit submission fun status =>
        let after := run (status.elim (.error "sim: marshal workload command") .ok)
        .announce { after.2.host with canceled := [] } before.2.host.scheduled.length
          (result after))

def workloadRunner : RunnerOps where
  Runner := Workload.Runner
  Failure := Workload.RunnerError
  start := hostCalls Workload.start
  handle runner event := hostCalls (Workload.handle event) runner
  retryEvent := Workload.Runner.retryEvent

structure Env where
  storage : StorageOps
  machines : MachineOps
  rand : RandOps
  runner : RunnerOps
  marshal : Command → Option Bytes

/-! ### State -/

inductive EventKind
  | tick (node : NodeID) (generation : Nat)
  | message (m : Message)
  | crash (node : NodeID)
  | restart (node : NodeID)
  | workload (event : Workload.Event)
  | fault (fault : Fault)

structure Event where
  time : VirtualTime
  seq : Nat
  kind : EventKind

def Event.less (a b : Event) : Bool :=
  if a.time ≠ b.time then a.time < b.time else a.seq < b.seq

inductive NodeStore (env : Env)
  | crash (cs : CrashStorage)
  | other (store : env.storage.Store)

structure SimNode (env : Env) where
  cfg : Raft.Config
  storage : NodeStore env
  node : Option Node
  halted : Bool
  generation : Nat
  paused : Bool
  tickMultiplier : Float
  applied : List Entry
  results : List Result
  lastApplied : Nat
  sm : Option env.machines.Machine
  hasFactory : Bool

structure WorkloadApplyKey where
  node : NodeID
  index : Nat
  deriving DecidableEq, Repr

structure PendingWorkloadAttempt where
  submission : Submission
  term : Nat
  deriving DecidableEq, Repr

structure SimWorkload (env : Env) where
  runner : env.runner.Runner
  pending : WorkloadApplyKey → List PendingWorkloadAttempt
  byAttempt : AttemptID → Option WorkloadApplyKey

structure SimState (env : Env) where
  now : VirtualTime
  seq : Nat
  queue : Array Event
  order : List NodeID
  nodes : NodeID → Option (SimNode env)
  partition : Finset (NodeID × NodeID)
  source : env.rand.Source
  world : env.machines.World
  tickInterval : VirtualTime
  minDelay : VirtualTime
  maxDelay : VirtualTime
  dropRate : Float
  dupRate : Float
  restartAfterCrash : CrashDirectiveKey → Option CrashPoint
  lsmCrashDirectives : List LSMCrashDirective
  lsmRestartOnCrash : LSMCrashDirectiveKey → Option Bool
  workload : Option (SimWorkload env)
  runErr : Option env.runner.Failure

inductive Panic
  | nilNode
  | survivorParse
  deriving DecidableEq, Repr

abbrev SimM (env : Env) := Prog (SimState env) Panic

variable {env : Env}

/-! ### Storages -/

namespace NodeStore

def save (store : NodeStore env) (hs : Option HardState) (entries : List Entry) :
    Except Panic (NodeStore env × Except SaveError Unit) :=
  match store with
  | .crash cs =>
    match cs.save hs entries with
    | none => .error .survivorParse
    | some (cs, result) => .ok (.crash cs, result.mapError fun _ => .crashed)
  | .other store =>
    let r := env.storage.save store hs entries
    .ok (.other r.1, r.2)

def hardState : NodeStore env → Option HardState
  | .crash cs => some cs.view.hard
  | .other store => env.storage.hardState store

def entries (lo hi : Nat) : NodeStore env → Option (List Entry)
  | .crash cs => cs.view.getEntries lo hi
  | .other store => env.storage.entries store lo hi

def firstIndex : NodeStore env → Nat
  | .crash cs => cs.view.firstIndex
  | .other store => env.storage.firstIndex store

def lastIndex : NodeStore env → Nat
  | .crash cs => cs.view.lastIndex
  | .other store => env.storage.lastIndex store

def crashIfArmed (store : NodeStore env) : Except Panic (NodeStore env × Bool) :=
  match store with
  | .crash cs =>
    match cs.crashIfArmed with
    | none => .error .survivorParse
    | some (cs, fired) => .ok (.crash cs, fired)
  | .other store => .ok (.other store, false)

def hostCrash (store : NodeStore env) : Except Panic (NodeStore env) :=
  match store with
  | .crash cs =>
    if cs.crashed then .ok (.crash cs)
    else match cs.hostCrash with
      | none => .error .survivorParse
      | some (cs, _) => .ok (.crash cs)
  | .other store => .ok (.other store)

def recover (store : NodeStore env) : Option (NodeStore env) :=
  match store with
  | .crash cs =>
    if cs.crashed then
      match cs.recover with
      | .error _ => none
      | .ok cs => some (.crash cs)
    else some (.crash cs)
  | .other store => some (.other store)

def lastCrash : NodeStore env → CrashInfo
  | .crash cs => cs.lastCrash
  | .other _ => ⟨0, .hostInitiated, 0, 0⟩

def recoveredInitialState (store : NodeStore env) : Option InitialState := do
  let hard ← store.hardState
  let first := store.firstIndex
  let last := store.lastIndex
  if last ≥ first then
    if last = maxUint64 then none
    else do
      let entries ← store.entries first (last + 1)
      return ⟨hard, entries, ⟨0, 0⟩⟩
  else return ⟨hard, [], ⟨0, 0⟩⟩

end NodeStore

/-! ### Nodes and the queue -/

def getNode (id : NodeID) : SimM env (SimNode env) := do
  match (← get).nodes id with
  | some sn => pure sn
  | none => throw .nilNode

def modifyNode (id : NodeID) (f : SimNode env → SimNode env) : SimM env Unit := do
  let sn ← getNode id
  modify fun s => { s with nodes := Function.update s.nodes id (some (f sn)) }

def pushAt (time : VirtualTime) (kind : EventKind) : SimM env Unit :=
  modify fun s =>
    { s with queue := BinaryHeap.push Event.less s.queue ⟨time, s.seq, kind⟩, seq := s.seq + 1 }

def scheduleTick (id : NodeID) (time : VirtualTime) : SimM env Unit := do
  let sn ← getNode id
  pushAt time (.tick id sn.generation)

def nextTickDelay (s : SimState env) (sn : SimNode env) : VirtualTime :=
  let mult := if sn.tickMultiplier == 0 then 1 else sn.tickMultiplier
  let scaled := (Float.round (Float.ofInt s.tickInterval / mult)).toInt64.toInt
  if scaled < 1 then 1 else scaled

def scheduleNextTick (id : NodeID) : SimM env Unit := do
  let s ← get
  let sn ← getNode id
  scheduleTick id (s.now + nextTickDelay s sn)

def drawJitter (id : NodeID) : SimM env Rand := do
  let s ← get
  let draw := env.rand.jitter s.source id
  set { s with source := draw.2 }
  return draw.1

def enqueueMessage (m : Message) : SimM env Unit := do
  let s ← get
  let draw := env.rand.delay s.source (s.maxDelay - s.minDelay + 1)
  set { s with source := draw.2 }
  pushAt (s.now + (s.minDelay + draw.1)) (.message m)

def happens (rate : Float) : SimM env Bool := do
  if rate > 0 then
    let s ← get
    let draw := env.rand.chance s.source
    set { s with source := draw.2 }
    return decide (draw.1 < rate)
  else return false

def scheduleMessage (m : Message) : SimM env Unit := do
  if ← happens (← get).dropRate then pure ()
  else
    enqueueMessage m
    if ← happens (← get).dupRate then enqueueMessage m

def scheduleMessages : List Message → SimM env Unit
  | [] => pure ()
  | m :: rest => do
    scheduleMessage m
    scheduleMessages rest

/-! ### Processes -/

def invalidateTickStream (id : NodeID) : SimM env Unit :=
  modifyNode id fun sn => { sn with generation := sn.generation + 1 }

def crashStateMachine (id : NodeID) : SimM env Unit := do
  let sn ← getNode id
  match sn.sm with
  | some machine => modify fun s => { s with world := env.machines.crash s.world machine }
  | none => pure ()

def markProcessCrashed (id : NodeID) : SimM env Unit := do
  crashStateMachine id
  modifyNode id fun sn => { sn with sm := none, node := none, halted := false }
  invalidateTickStream id
  modifyNode id fun sn => { sn with paused := false }

def markProcessHalted (id : NodeID) : SimM env Unit := do
  let sn ← getNode id
  if !sn.halted then invalidateTickStream id
  modifyNode id fun sn => { sn with halted := true }

def replaceProcess (id : NodeID) (node : Node) : SimM env Unit := do
  invalidateTickStream id
  modifyNode id fun sn => { sn with node := some node, halted := false }

def firedLSMCrashKey (id : NodeID) (s : SimState env) : Option LSMCrashDirectiveKey := do
  let e ← env.machines.lastEvent s.world id
  let key : LSMCrashDirectiveKey :=
    ⟨id, e.op, e.occurrence, if e.completed then .after else .before⟩
  if (s.lsmRestartOnCrash key).isSome then some key else none

def scheduleRestartAfterLSMCrash (id : NodeID) : SimM env Unit := do
  let s ← get
  match firedLSMCrashKey id s with
  | none => pure ()
  | some key =>
    match s.lsmRestartOnCrash key with
    | none => pure ()
    | some restart =>
      set { s with lsmRestartOnCrash := Function.update s.lsmRestartOnCrash key none }
      if restart then pushAt s.now (.restart id)

def handleLSMProcessCrash (id : NodeID) : SimM env Unit := do
  markProcessCrashed id
  scheduleRestartAfterLSMCrash id

def scheduleRestartAfterStorageCrash (id : NodeID) (info : CrashInfo) : SimM env Unit := do
  let s ← get
  let key : CrashDirectiveKey := ⟨id, info.save⟩
  if s.restartAfterCrash key = some info.point then
    set { s with restartAfterCrash := Function.update s.restartAfterCrash key none }
    pushAt s.now (.restart id)

/-! ### Ready -/

def successfulWorkloadOutput (result : Result) : Checker.Output :=
  ⟨true, result.value, result.found, false⟩

def notifyAttempt (entry : Entry) (result : Result) (p : PendingWorkloadAttempt) :
    SimM env Unit := do
  let s ← get
  match s.workload with
  | none => pure ()
  | some w =>
    set { s with workload := some { w with
      byAttempt := Function.update w.byAttempt p.submission.attemptID none } }
    if entry.term = p.term then
      pushAt s.now (.workload
        ⟨.applied, p.submission.attemptID, 0, successfulWorkloadOutput result⟩)
    else
      pushAt s.now (.workload ⟨.leadershipLost, p.submission.attemptID, 0, ⟨false, [], false, false⟩⟩)

def notifyAttempts (entry : Entry) (result : Result) : List PendingWorkloadAttempt → SimM env Unit
  | [] => pure ()
  | p :: rest => do
    notifyAttempt entry result p
    notifyAttempts entry result rest

def observeWorkloadApply (id : NodeID) (entry : Entry) (result : Result) : SimM env Unit := do
  let s ← get
  match s.workload with
  | none => pure ()
  | some w =>
    let key : WorkloadApplyKey := ⟨id, entry.index⟩
    set { s with workload := some { w with pending := Function.update w.pending key [] } }
    notifyAttempts entry result (w.pending key)

def applyEntry (id : NodeID) (entry : Entry) : SimM env (Except MachineError Result) := do
  let sn ← getNode id
  match sn.sm with
  | none => return .ok Result.zero
  | some machine =>
    let s ← get
    let r := env.machines.apply s.world machine entry
    set { s with world := r.1 }
    modifyNode id fun sn => { sn with sm := some r.2.1 }
    return r.2.2

def applyCommitted (id : NodeID) : List Entry → SimM env Bool
  | [] => return true
  | entry :: rest => do
    match ← applyEntry id entry with
    | .error .simulatedCrash =>
      handleLSMProcessCrash id
      return false
    | .error .failed =>
      markProcessHalted id
      return false
    | .ok result =>
      observeWorkloadApply id entry result
      modifyNode id fun sn => { sn with
        applied := sn.applied ++ [entry]
        results := sn.results ++ [result]
        lastApplied := entry.index }
      applyCommitted id rest

def saveReady (id : NodeID) (rd : Ready) : SimM env (Except SaveError Unit) := do
  let sn ← getNode id
  let (store, result) ← Prog.liftExcept (sn.storage.save rd.hardState rd.entries)
  modifyNode id fun sn => { sn with storage := store }
  return result

def crashIfArmed (id : NodeID) : SimM env Bool := do
  let sn ← getNode id
  let (store, fired) ← Prog.liftExcept sn.storage.crashIfArmed
  modifyNode id fun sn => { sn with storage := store }
  return fired

def handleStorageCrash (id : NodeID) : SimM env Unit := do
  let sn ← getNode id
  let info := sn.storage.lastCrash
  markProcessCrashed id
  scheduleRestartAfterStorageCrash id info

def advanceNode (id : NodeID) : SimM env Unit := do
  let sn ← getNode id
  match sn.node with
  | none => throw .nilNode
  | some node => modifyNode id fun sn => { sn with node := some node.advance }

def processReady (id : NodeID) (rd : Ready) : SimM env Unit := do
  match ← saveReady id rd with
  | .error .crashed => handleStorageCrash id
  | .error .failed => markProcessHalted id
  | .ok () =>
    scheduleMessages rd.messages
    if ← crashIfArmed id then handleStorageCrash id
    else if ← applyCommitted id rd.committedEntries then advanceNode id

/-! ### Handlers -/

def blocked (source dest : NodeID) (s : SimState env) : Bool := (source, dest) ∈ s.partition

def driveNode (id : NodeID) (operate : Node → Node) : SimM env Unit := do
  let sn ← getNode id
  match sn.node with
  | none => throw .nilNode
  | some node =>
    let (rd, node) := (operate node).ready
    modifyNode id fun sn => { sn with node := some node }
    processReady id rd

def SimNode.live (sn : SimNode env) : Bool := sn.node.isSome && !sn.halted

def handleTick (id : NodeID) : SimM env Unit := do
  let sn ← getNode id
  if !sn.live then pure ()
  else if sn.paused then scheduleNextTick id
  else
    let rnd ← drawJitter id
    driveNode id fun node => node.tick rnd
    let sn ← getNode id
    if sn.live then scheduleNextTick id

def handleMessage (m : Message) : SimM env Unit := do
  let s ← get
  if blocked m.fromID m.toID s then pure ()
  else match s.nodes m.toID with
    | none => pure ()
    | some sn =>
      if !sn.live || sn.paused then pure ()
      else
        let rnd ← drawJitter m.toID
        driveNode m.toID fun node => node.step rnd (some m)

def handleCrash (id : NodeID) : SimM env Unit := do
  let sn ← getNode id
  let store ← Prog.liftExcept sn.storage.hostCrash
  modifyNode id fun sn => { sn with storage := store }
  markProcessCrashed id

def restartStateMachine (id : NodeID) : SimM env Bool := do
  let sn ← getNode id
  if !sn.hasFactory then return true
  else
    let s ← get
    let r := env.machines.reopen s.world id
    set { s with world := r.1 }
    match r.2 with
    | .error .simulatedCrash =>
      handleLSMProcessCrash id
      return false
    | .error .failed =>
      markProcessHalted id
      return false
    | .ok machine =>
      let s ← get
      let r := env.machines.beginReplay s.world machine sn.storage.firstIndex sn.storage.lastIndex
      set { s with world := r.1 }
      match r.2 with
      | none =>
        markProcessHalted id
        return false
      | some machine =>
        modifyNode id fun sn => { sn with
          sm := some machine
          applied := []
          results := []
          lastApplied := 0 }
        return true

def handleRestart (id : NodeID) : SimM env Unit := do
  let sn ← getNode id
  if sn.live then pure ()
  else match sn.storage.recover with
    | none => markProcessHalted id
    | some store =>
      modifyNode id fun sn => { sn with storage := store }
      match store.recoveredInitialState with
      | none => markProcessHalted id
      | some init =>
        let rnd ← drawJitter id
        replaceProcess id (newNode sn.cfg init rnd)
        if ← restartStateMachine id then scheduleNextTick id

/-! ### Host calls -/

def partition (source dest : NodeID) : SimM env Unit :=
  modify fun s => { s with partition := insert (source, dest) s.partition }

def heal (source dest : NodeID) : SimM env Unit :=
  modify fun s => { s with partition := s.partition.erase (source, dest) }

def crossPairs : List (List NodeID) → List (NodeID × NodeID)
  | [] => []
  | left :: groups =>
    groups.flatMap (fun right => left.flatMap fun a => right.flatMap fun b => [(a, b), (b, a)]) ++
      crossPairs groups

def partitionGroups (groups : List (List NodeID)) : SimM env Unit :=
  modify fun s => { s with partition := s.partition ∪ (crossPairs groups).toFinset }

def healGroups (groups : List (List NodeID)) : SimM env Unit :=
  modify fun s => { s with partition := s.partition \ (crossPairs groups).toFinset }

def modifyKnown (id : NodeID) (f : SimNode env → SimNode env) : SimM env Unit := do
  if ((← get).nodes id).isSome then modifyNode id f

def pause (id : NodeID) : SimM env Unit := modifyKnown id fun sn => { sn with paused := true }

def resume (id : NodeID) : SimM env Unit := modifyKnown id fun sn => { sn with paused := false }

def setClockSkew (id : NodeID) (multiplier : Float) : SimM env Unit :=
  match validateMultiplier multiplier with
  | .error _ => pure ()
  | .ok () => modifyKnown id fun sn => { sn with tickMultiplier := multiplier }

def applyFault : Fault → SimM env Unit
  | .dropRate rate => modify fun s => { s with dropRate := rate }
  | .duplicateRate rate => modify fun s => { s with dupRate := rate }
  | .partition source dest => partition source dest
  | .heal source dest => heal source dest
  | .partitionGroups groups => partitionGroups groups
  | .healGroups groups => healGroups groups
  | .pause node => pause node
  | .resume node => resume node
  | .clockSkew node multiplier => setClockSkew node multiplier
  | .crash node => do if ((← get).nodes node).isSome then handleCrash node
  | .restart node => do if ((← get).nodes node).isSome then handleRestart node
  | .unknown _ => pure ()

def scheduleCrash (id : NodeID) (time : VirtualTime) : SimM env Unit := pushAt time (.crash id)

def scheduleRestart (id : NodeID) (time : VirtualTime) : SimM env Unit := pushAt time (.restart id)

def propose (id : NodeID) (data : Bytes) (onProposed : Nat → Nat → SimM env Unit) :
    SimM env (Nat × Nat × Bool) := do
  match (← get).nodes id with
  | none => return (0, 0, false)
  | some sn =>
    match sn.node with
    | none => return (0, 0, false)
    | some node =>
      if sn.halted || sn.paused then return (0, 0, false)
      else
        let (node, index, term, isLeader) := node.propose data
        modifyNode id fun sn => { sn with node := some node }
        if isLeader then onProposed index term
        driveNode id fun node => node
        return (index, term, isLeader)

/-! ### The workload -/

def SimWorkload.register (w : SimWorkload env) (key : WorkloadApplyKey) (term : Nat)
    (submission : Submission) : SimWorkload env :=
  { w with
    pending := Function.update w.pending key (w.pending key ++ [⟨submission, term⟩])
    byAttempt := Function.update w.byAttempt submission.attemptID (some key) }

def SimWorkload.cancel (w : SimWorkload env) (attempt : AttemptID) : SimWorkload env :=
  match w.byAttempt attempt with
  | none => w
  | some key =>
    { w with
      byAttempt := Function.update w.byAttempt attempt none
      pending := Function.update w.pending key
        ((w.pending key).filter (·.submission.attemptID ≠ attempt)) }

def registerWorkloadAttempt (id : NodeID) (index term : Nat) (submission : Submission) :
    SimM env Unit :=
  modify fun s => { s with workload := s.workload.map (·.register ⟨id, index⟩ term submission) }

def cancelWorkloadAttempt (attempt : AttemptID) : SimM env Unit :=
  modify fun s => { s with workload := s.workload.map (·.cancel attempt) }

def submit (submission : Submission) : SimM env (Option SubmitStatus) := do
  match env.marshal submission.command with
  | none => return none
  | some data =>
    let target := submission.target.toNat
    let r ← propose target data fun index term => registerWorkloadAttempt target index term submission
    return some (if r.2.2 then .accepted else .notLeader)

def serve {α : Type} : HostCalls α → SimM env α
  | .done result => return result
  | .now next => do serve (next (← get).now)
  | .schedule time event next => do
    pushAt time (.workload event)
    serve next
  | .submit submission next => do serve (next (← submit submission))
  | .cancel attempt next => do
    cancelWorkloadAttempt attempt
    serve next

def setRunner (runner : env.runner.Runner) : SimM env Unit :=
  modify fun s => { s with workload := s.workload.map fun w => { w with runner } }

def handleWorkloadEvent (event : Workload.Event) : SimM env Unit := do
  let s ← get
  match s.workload with
  | none => pure ()
  | some w =>
    if s.runErr.isSome then pure ()
    else
      let r ← serve (env.runner.handle w.runner event)
      setRunner r.1
      match r.2 with
      | none => pure ()
      | some failure => modify fun s => { s with runErr := some failure }

def installStateMachines : List NodeID → SimM env Bool
  | [] => return true
  | id :: rest => do
    let s ← get
    let r := env.machines.install s.world id (s.lsmCrashDirectives.filter (·.node = id))
    set { s with world := r.1 }
    match r.2 with
    | none => return false
    | some machine =>
      modifyNode id fun sn => { sn with sm := some machine, hasFactory := true }
      installStateMachines rest

def removeStateMachines : List NodeID → SimM env Unit
  | [] => pure ()
  | id :: rest => do
    modifyNode id fun sn => { sn with sm := none, hasFactory := false }
    removeStateMachines rest

/-- `factory` tells whether there is one, which is what `install` calls. -/
def setStateMachineFactory (factory : Bool) : SimM env Unit := do
  let s ← get
  if factory then discard (installStateMachines s.order) else removeStateMachines s.order

def startWorkload (runner : env.runner.Runner) : SimM env Unit := do
  let s ← get
  if s.workload.isSome || s.now ≠ 0 then pure ()
  else if ← installStateMachines s.order then
    modify fun s => { s with workload := some ⟨runner, fun _ => [], fun _ => none⟩ }
    let r ← serve (env.runner.start runner)
    setRunner r.1

def scheduleWorkloadRetry (client : UInt64) (time : VirtualTime) : SimM env Unit := do
  let s ← get
  match s.workload with
  | none => pure ()
  | some w =>
    if time < s.now then pure ()
    else match env.runner.retryEvent w.runner client with
      | none => pure ()
      | some event => pushAt time (.workload event)

/-! ### Events -/

def tickIsStale (node : NodeID) (generation : Nat) (s : SimState env) : Bool :=
  match s.nodes node with
  | none => true
  | some sn => generation ≠ sn.generation

def handleEvent (kind : EventKind) : SimM env Unit := do
  match kind with
  | .tick node generation =>
    if tickIsStale node generation (← get) then
      -- the trace line of a stale tick reads the node's generation
      let _ ← getNode node
    else handleTick node
  | .message m => handleMessage m
  | .crash node => handleCrash node
  | .restart node => handleRestart node
  | .workload event => handleWorkloadEvent event
  | .fault fault => applyFault fault

def runEvent (limit : VirtualTime) : SimM env Bool := do
  let s ← get
  match BinaryHeap.pop Event.less s.queue with
  | none => return false
  | some (ev, rest) =>
    if ev.time > limit then return false
    else
      set { s with queue := rest, now := ev.time }
      handleEvent ev.kind
      return true

/-! ### Construction -/

structure Config where
  nodeIDs : List NodeID
  electionTickMin : Int
  electionTickMax : Int
  heartbeatTicks : Int
  tickIntervalMS : VirtualTime
  minDelayMS : VirtualTime
  maxDelayMS : VirtualTime
  lsm : Bool
  lsmFlushThreshold : Int

def defaultTickIntervalMS : VirtualTime := 50

def defaultMinDelayMS : VirtualTime := 1

def defaultMaxDelayMS : VirtualTime := 10

inductive ConfigError
  | noNodes
  | negativeThreshold (threshold : Int)
  | thresholdWithoutLSM
  | duplicateNode (node : NodeID)
  | delays (min max : VirtualTime)
  | directive (node : NodeID) (error : DirectiveError)
  | schedule (error : ScheduleError)
  | lsmCrashesWithoutLSM
  | panic (panic : Panic)

def firstDuplicate : List NodeID → List NodeID → Option NodeID
  | _, [] => none
  | seen, id :: rest => if id ∈ seen then some id else firstDuplicate (id :: seen) rest

namespace Config

def tickInterval (cfg : Config) : VirtualTime :=
  if cfg.tickIntervalMS = 0 then defaultTickIntervalMS else cfg.tickIntervalMS

def delays (cfg : Config) : VirtualTime × VirtualTime :=
  if cfg.minDelayMS = 0 ∧ cfg.maxDelayMS = 0 then (defaultMinDelayMS, defaultMaxDelayMS)
  else (cfg.minDelayMS, cfg.maxDelayMS)

def validate (cfg : Config) : Except ConfigError Unit :=
  if cfg.nodeIDs.isEmpty then .error .noNodes
  else if cfg.lsmFlushThreshold < 0 then .error (.negativeThreshold cfg.lsmFlushThreshold)
  else if !cfg.lsm && cfg.lsmFlushThreshold ≠ 0 then .error .thresholdWithoutLSM
  else match firstDuplicate [] cfg.nodeIDs with
    | some id => .error (.duplicateNode id)
    | none => if cfg.delays.2 < cfg.delays.1 then .error (.delays cfg.delays.1 cfg.delays.2) else .ok ()

end Config

def coldNode (cfg : Config) (id : NodeID) (storage : NodeStore env) (rnd : Rand) : SimNode env :=
  let rc : Raft.Config :=
    ⟨id, cfg.nodeIDs, cfg.electionTickMin, cfg.electionTickMax, cfg.heartbeatTicks⟩
  { cfg := rc
    storage := storage
    node := some (newNode rc ⟨⟨0, 0⟩, [], ⟨0, 0⟩⟩ rnd)
    halted := false
    generation := 0
    paused := false
    tickMultiplier := 0
    applied := []
    results := []
    lastApplied := 0
    sm := none
    hasFactory := false }

def newStore (schedule : FaultSchedule) (crashStorage : Bool) (id : NodeID) :
    Except ConfigError (NodeStore env) :=
  if crashStorage then
    match CrashStorage.new id schedule.crashes with
    | .error e => .error (.directive id e)
    | .ok cs => .ok (.crash cs)
  else .ok (.other env.storage.new)

def addNodes (cfg : Config) (schedule : FaultSchedule) (crashStorage : Bool) :
    List NodeID → SimState env → Except ConfigError (SimState env)
  | [], s => .ok s
  | id :: rest, s => do
    let storage ← newStore schedule crashStorage id
    let draw := env.rand.jitter s.source id
    addNodes cfg schedule crashStorage rest { s with
      source := draw.2
      nodes := Function.update s.nodes id (some (coldNode cfg id storage draw.1)) }

def scheduleTicks : List NodeID → SimM env Unit
  | [] => pure ()
  | id :: rest => do
    scheduleTick id (← get).tickInterval
    scheduleTicks rest

def construct (s : SimState env) (x : SimM env Unit) : Except ConfigError (SimState env) :=
  match x s with
  | (.ok (), s) => .ok s
  | (.error panic, _) => .error (.panic panic)

def emptySim (cfg : Config) (source : env.rand.Source) (world : env.machines.World) :
    SimState env where
  now := 0
  seq := 0
  queue := #[]
  order := cfg.nodeIDs
  nodes := fun _ => none
  partition := ∅
  source := source
  world := world
  tickInterval := cfg.tickInterval
  minDelay := cfg.delays.1
  maxDelay := cfg.delays.2
  dropRate := 0
  dupRate := 0
  restartAfterCrash := fun _ => none
  lsmCrashDirectives := []
  lsmRestartOnCrash := fun _ => none
  workload := none
  runErr := none

def newSim (cfg : Config) (schedule : FaultSchedule) (crashStorage : Bool)
    (source : env.rand.Source) (world : env.machines.World) : Except ConfigError (SimState env) := do
  cfg.validate
  let s ← addNodes cfg schedule crashStorage cfg.nodeIDs (emptySim cfg source world)
  construct s (scheduleTicks cfg.nodeIDs)

def installFaultEvents : List FaultEvent → SimM env Unit
  | [] => pure ()
  | e :: rest => do
    pushAt e.time (.fault e.fault)
    installFaultEvents rest

def FaultSchedule.validateForConfig (schedule : FaultSchedule) (cfg : Config) :
    Except ConfigError Unit := do
  (schedule.validateForCluster cfg.nodeIDs).mapError .schedule
  if !schedule.lsmCrashes.isEmpty && !cfg.lsm then throw .lsmCrashesWithoutLSM

def SimState.withRestarts (s : SimState env) (schedule : FaultSchedule) : SimState env :=
  { s with
    restartAfterCrash := (schedule.crashes.filter (·.restartAfterCrash)).foldl
      (fun restarts d => Function.update restarts (CrashDirectiveKey.mk d.node d.save) (some d.point))
      s.restartAfterCrash
    lsmCrashDirectives := schedule.lsmCrashes
    lsmRestartOnCrash := schedule.lsmCrashes.foldl
      (fun restarts d => Function.update restarts (lsmDirectiveKey d) (some d.restartAfterCrash))
      s.lsmRestartOnCrash }

def newFaultSim (cfg : Config) (schedule : FaultSchedule) (source : env.rand.Source)
    (world : env.machines.World) : Except ConfigError (SimState env) := do
  schedule.validateForConfig cfg
  let s ← newSim cfg schedule true source world
  construct (s.withRestarts schedule) (installFaultEvents (sortFaultEvents schedule.events))

/-! ### Runs -/

inductive Call (env : Env)
  | event (limit : VirtualTime)
  | scheduleCrash (id : NodeID) (time : VirtualTime)
  | scheduleRestart (id : NodeID) (time : VirtualTime)
  | propose (id : NodeID) (data : Bytes)
  | partition (source dest : NodeID)
  | heal (source dest : NodeID)
  | partitionGroups (groups : List (List NodeID))
  | healGroups (groups : List (List NodeID))
  | pause (id : NodeID)
  | resume (id : NodeID)
  | setClockSkew (id : NodeID) (multiplier : Float)
  | setStateMachineFactory (factory : Bool)
  | startWorkload (runner : env.runner.Runner)
  | scheduleWorkloadRetry (client : UInt64) (time : VirtualTime)

def Call.exec : Call env → SimM env Unit
  | .event limit => discard (runEvent limit)
  | .scheduleCrash id time => Sim.scheduleCrash id time
  | .scheduleRestart id time => Sim.scheduleRestart id time
  | .propose id data => discard (Sim.propose id data fun _ _ => pure ())
  | .partition source dest => Sim.partition source dest
  | .heal source dest => Sim.heal source dest
  | .partitionGroups groups => Sim.partitionGroups groups
  | .healGroups groups => Sim.healGroups groups
  | .pause id => Sim.pause id
  | .resume id => Sim.resume id
  | .setClockSkew id multiplier => Sim.setClockSkew id multiplier
  | .setStateMachineFactory factory => Sim.setStateMachineFactory factory
  | .startWorkload runner => Sim.startWorkload runner
  | .scheduleWorkloadRetry client time => Sim.scheduleWorkloadRetry client time

def runCalls : List (Call env) → SimState env → Option (SimState env)
  | [], s => some s
  | c :: rest, s =>
    match c.exec s with
    | (.ok (), s) => runCalls rest s
    | (.error _, _) => none

inductive Reachable : SimState env → Prop
  | new {cfg : Config} {schedule : FaultSchedule} {crashStorage : Bool} {source : env.rand.Source}
      {world : env.machines.World} {s : SimState env}
      (h : newSim cfg schedule crashStorage source world = .ok s) : Reachable s
  | newFault {cfg : Config} {schedule : FaultSchedule} {source : env.rand.Source}
      {world : env.machines.World} {s : SimState env}
      (h : newFaultSim cfg schedule source world = .ok s) : Reachable s
  | run {s s' : SimState env} {calls : List (Call env)} (h : Reachable s)
      (hrun : runCalls calls s = some s') : Reachable s'

end MiniQuorum.Sim
