import MiniQuorum.Checker.Recorder
import MiniQuorum.Program.Wp
import Mathlib.Data.Nat.Digits.Defs
import Mathlib.Data.Stream.Defs

/-! The workload runner: clients that each issue one operation after the other.  It reacts to
events, and what it wants later it asks its host to schedule. -/

namespace MiniQuorum.Workload

open Checker Codec Program StateMachine

/-! ### Configuration -/

structure Config where
  seed : Int64
  clientCount : Int64
  clientIDBase : UInt64
  keyCount : Int64
  operationsPerClient : Int64
  operationTimeout : Int64
  retryDelay : Int64
  thinkTime : Int64
  startTime : Int64
  targets : List UInt64
  deriving DecidableEq

inductive ConfigError
  | notPositive (field : String) (value : Int64)
  | negative (field : String) (value : Int64)
  | noTargets
  | clientIDOverflow
  | keyCountNotPositive (value : Int64)
  deriving DecidableEq

def Config.withDefaults (config : Config) : Config :=
  { config with
    clientCount := if config.clientCount = 0 then 5 else config.clientCount
    clientIDBase := if config.clientIDBase = 0 then 1 else config.clientIDBase
    keyCount := if config.keyCount = 0 then 8 else config.keyCount
    operationsPerClient :=
      if config.operationsPerClient = 0 then 40 else config.operationsPerClient
    operationTimeout := if config.operationTimeout = 0 then 3000 else config.operationTimeout
    retryDelay := if config.retryDelay = 0 then 10 else config.retryDelay
    thinkTime := if config.thinkTime = 0 then 1 else config.thinkTime }

def Config.check (config : Config) : Except ConfigError Config :=
  if config.clientCount < 0 then .error (.notPositive "ClientCount" config.clientCount)
  else if config.keyCount < 0 then .error (.notPositive "KeyCount" config.keyCount)
  else if config.operationsPerClient < 0 then
    .error (.notPositive "OperationsPerClient" config.operationsPerClient)
  else if config.operationTimeout < 0 then
    .error (.notPositive "OperationTimeout" config.operationTimeout)
  else if config.retryDelay < 0 then .error (.notPositive "RetryDelay" config.retryDelay)
  else if config.thinkTime < 0 then .error (.notPositive "ThinkTime" config.thinkTime)
  else if config.startTime < 0 then .error (.negative "StartTime" config.startTime)
  else if config.targets = [] then .error .noTargets
  else if (config.clientCount - 1).toUInt64 > ~~~0 - config.clientIDBase then
    .error .clientIDOverflow
  else .ok config

def normalizeConfig (config : Config) : Except ConfigError Config := config.withDefaults.check

/-! ### Generator -/

structure Generator where
  rnd : Stream' Nat
  clientID : UInt64
  keyCount : Nat

def newGenerator (source : Int64 → Stream' Nat) (seed : Int64) (clientID : UInt64)
    (keyCount : Int64) : Except ConfigError Generator :=
  if keyCount ≤ 0 then .error (.keyCountNotPositive keyCount)
  else
    let derived := seed.toUInt64 ^^^ (clientID * 0x9e3779b97f4a7c15)
    .ok ⟨source derived.toInt64, clientID, keyCount.toInt.toNat⟩

def formatUint (base n : Nat) : Bytes :=
  if n = 0 then [0x30]
  else (Nat.digits base n).reverse.map fun d => UInt8.ofNat (if d < 10 then 0x30 + d else 0x57 + d)

def opNumbered : Nat → Op
  | 0 => .unspecified
  | 1 => .put
  | 2 => .delete
  | 3 => .get
  | n => .unrecognized n

def Generator.next (g : Generator) (seq : UInt64) : Input × Generator :=
  let op := opNumbered (1 + g.rnd.head % 3)
  let key : Bytes := 0x6b :: formatUint 10 (g.rnd.tail.head % g.keyCount)
  let value : Bytes :=
    if op = .put then
      0x76 :: formatUint 36 g.clientID.toNat ++ 0x2d :: formatUint 36 seq.toNat
    else []
  (⟨op, key, value⟩, { g with rnd := g.rnd.tail.tail })

/-! ### Events and submissions -/

inductive EventKind
  | start | retry | deadline | applied | leadershipLost
  | unsupported (kind : UInt8)
  deriving DecidableEq, Repr

structure AttemptID where
  clientID : UInt64
  seq : UInt64
  attempt : UInt64
  deriving DecidableEq, Repr

structure Event where
  kind : EventKind
  attemptID : AttemptID
  deadlineGeneration : UInt64 := 0
  output : Output := ⟨false, [], false, false⟩
  deriving DecidableEq, Repr

structure Submission where
  attemptID : AttemptID
  target : UInt64
  command : Command
  deriving DecidableEq, Repr

inductive SubmitStatus
  | accepted | notLeader
  | unsupported (status : UInt8)
  deriving DecidableEq, Repr

structure AttemptRecord where
  time : Int64
  attemptID : AttemptID
  target : UInt64
  status : SubmitStatus
  command : Command
  deriving DecidableEq

/-! ### Runner -/

structure LogicalOperation where
  seq : UInt64
  command : Command
  deadline : Int64
  deadlineGeneration : UInt64 := 0
  attempt : UInt64 := 0
  waiting : Bool := false
  timedOut : Bool := false
  deriving DecidableEq, Repr

structure Client where
  id : UInt64
  nextSeq : UInt64
  generated : Nat
  completed : Nat
  targetCursor : Nat
  generator : Generator
  active : Option LogicalOperation

structure Runner where
  config : Config
  clients : List UInt64
  byID : UInt64 → Option Client
  recorder : Recorder
  attempts : List AttemptRecord
  started : Bool

inductive RunnerError
  | alreadyStarted
  | startPrecedesNow (start now : Int64)
  | unknownClient (id : UInt64)
  | unsupportedKind (kind : UInt8)
  | outstandingOperation (id seq : UInt64)
  | recorder (err : RecorderError)
  | submit (text : String)
  | unsupportedStatus (status : UInt8)
  -- a nil pointer or an index out of range, where the code panics
  | panic
  deriving DecidableEq

/-- What the host does for the runner.  `answers` is what `Submit` is going to answer, and
`scheduled` what has not been delivered yet. -/
structure Host where
  now : Int64
  answers : Stream' (Except String SubmitStatus)
  scheduled : List (Int64 × Event)
  submissions : List Submission
  canceled : List AttemptID

structure World where
  runner : Runner
  host : Host

abbrev RunnerM := Prog World RunnerError

def addClient (source : Int64 → Stream' Nat) (runner : Runner) (i : Nat) :
    Except ConfigError Runner := do
  let clientID := runner.config.clientIDBase + UInt64.ofNat i
  let generator ← newGenerator source runner.config.seed clientID runner.config.keyCount
  let state : Client :=
    ⟨clientID, 1, 0, 0, i % runner.config.targets.length, generator, none⟩
  return { runner with
    clients := runner.clients ++ [clientID]
    byID := Function.update runner.byID clientID (some state) }

def Runner.new (source : Int64 → Stream' Nat) (config : Config) : Except ConfigError Runner := do
  let normalized ← normalizeConfig config
  (List.range normalized.clientCount.toInt.toNat).foldlM (addClient source)
    ⟨normalized, [], fun _ => none, .new, [], false⟩

/-! The calls to the host -/

def now : RunnerM Int64 := do return (← get).host.now

def schedule (time : Int64) (event : Event) : RunnerM Unit :=
  modify fun w => { w with host := { w.host with
    scheduled := w.host.scheduled ++ [(time, event)] } }

def hostSubmit (submission : Submission) : RunnerM SubmitStatus := do
  let answer := (← get).host.answers.head
  modify fun w => { w with host := { w.host with
    answers := w.host.answers.tail
    submissions := w.host.submissions ++ [submission] } }
  Prog.liftExcept (answer.mapError .submit)

def cancel (attempt : AttemptID) : RunnerM Unit :=
  modify fun w => { w with host := { w.host with canceled := w.host.canceled ++ [attempt] } }

/-! The runner's own state -/

def config : RunnerM Config := do return (← get).runner.config

def recorder : RunnerM Recorder := do return (← get).runner.recorder

def setRecorder (r : Recorder) : RunnerM Unit :=
  modify fun w => { w with runner := { w.runner with recorder := r } }

def recorded (r : Except RecorderError α) : RunnerM α := Prog.liftExcept (r.mapError .recorder)

def lookupClient (id : UInt64) : RunnerM Client := do
  match (← get).runner.byID id with
  | some state => return state
  | none => throw (.unknownClient id)

def World.putClient (w : World) (state : Client) : World :=
  { w with runner := { w.runner with
    byID := Function.update w.runner.byID state.id (some state) } }

def setClient (state : Client) : RunnerM Unit := modify fun w => w.putClient state

def activeOperation (id : UInt64) : RunnerM LogicalOperation := do
  let state ← lookupClient id
  match state.active with
  | some operation => return operation
  | none => throw .panic

def setOperation (id : UInt64) (operation : LogicalOperation) : RunnerM Unit := do
  let state ← lookupClient id
  setClient { state with active := some operation }

/-! The handlers -/

def start : RunnerM Unit := do
  let w ← get
  if w.runner.started then throw .alreadyStarted
  else if w.runner.config.startTime < w.host.now then
    throw (.startPrecedesNow w.runner.config.startTime w.host.now)
  else do
    set { w with runner := { w.runner with started := true } }
    w.runner.clients.forM fun id =>
      schedule w.runner.config.startTime { kind := .start, attemptID := ⟨id, 0, 0⟩ }

def scheduleDeadline (id : UInt64) : RunnerM Unit := do
  let operation ← activeOperation id
  let operation :=
    { operation with deadlineGeneration := operation.deadlineGeneration + 1 }
  setOperation id operation
  schedule operation.deadline {
    kind := .deadline
    attemptID := ⟨id, operation.seq, 0⟩
    deadlineGeneration := operation.deadlineGeneration }

def scheduleRetry (id : UInt64) : RunnerM Unit := do
  let operation ← activeOperation id
  let retryAt := (← now) + (← config).retryDelay
  if retryAt ≥ operation.deadline then return ()
  else schedule retryAt { kind := .retry, attemptID := ⟨id, operation.seq, operation.attempt⟩ }

def nextTarget (id : UInt64) : RunnerM UInt64 := do
  let state ← lookupClient id
  let targets := (← config).targets
  match targets[state.targetCursor]? with
  | some target => do
    setClient { state with targetCursor := (state.targetCursor + 1) % targets.length }
    return target
  | none => throw .panic

def setWaiting (id : UInt64) (waiting : Bool) : RunnerM Unit := do
  let operation ← activeOperation id
  setOperation id { operation with waiting }

def nextAttempt (id : UInt64) (operation : LogicalOperation) : RunnerM UInt64 := do
  setOperation id { operation with attempt := operation.attempt + 1 }
  let target ← nextTarget id
  setWaiting id true
  return target

def sendAttempt (id : UInt64) (operation : LogicalOperation) : RunnerM Unit := do
  let attemptID : AttemptID := ⟨id, operation.seq, operation.attempt + 1⟩
  let target ← nextAttempt id operation
  match ← (hostSubmit ⟨attemptID, target, operation.command⟩).attempt with
  | .error err => do
    setWaiting id false
    throw err
  | .ok status => do
    let time ← now
    modify fun w => { w with runner := { w.runner with
      attempts := w.runner.attempts ++ [⟨time, attemptID, target, status, operation.command⟩] } }
    match status with
    | .accepted => return ()
    | .notLeader => do
      setWaiting id false
      scheduleRetry id
    | .unsupported status => do
      setWaiting id false
      throw (.unsupportedStatus status)

def submit (id : UInt64) (retry : Bool) : RunnerM Unit := do
  let operation ← activeOperation id
  if retry then recorded ((← recorder).retry id operation.seq)
  sendAttempt id operation

def commandFor (clientID seq : UInt64) (input : Input) : Command :=
  ⟨clientID, seq, input.op, input.key, input.value⟩

def handleStart (state : Client) : RunnerM Unit := do
  match state.active with
  | some operation => throw (.outstandingOperation state.id operation.seq)
  | none =>
    let config ← config
    if (state.generated : Int) ≥ config.operationsPerClient.toInt then return ()
    else do
      let seq := state.nextSeq
      let (input, generator) := state.generator.next seq
      let state := { state with generator }
      setClient state
      let time ← now
      setRecorder (← recorded ((← recorder).invoke state.id seq time.toInt input))
      setClient { state with
        generated := state.generated + 1
        active := some {
          seq
          command := commandFor state.id seq input
          deadline := time + config.operationTimeout } }
      scheduleDeadline state.id
      submit state.id false

def handleRetry (state : Client) (event : Event) : RunnerM Unit := do
  match state.active with
  | none => return ()
  | some operation =>
    if event.attemptID.seq ≠ 0 ∧ event.attemptID.seq ≠ operation.seq then return ()
    else if event.attemptID.attempt ≠ 0 ∧ event.attemptID.attempt ≠ operation.attempt then return ()
    else if operation.waiting then return ()
    else do
      if operation.timedOut then
        setOperation state.id { operation with
          timedOut := false
          deadline := (← now) + (← config).operationTimeout }
        scheduleDeadline state.id
      submit state.id true

def expire (id : UInt64) (operation : LogicalOperation) : RunnerM Unit := do
  recorded ((← recorder).timeout id operation.seq (← now).toInt)
  setOperation id { operation with waiting := false, timedOut := true }

def handleDeadline (state : Client) (event : Event) : RunnerM Unit := do
  match state.active with
  | none => return ()
  | some operation =>
    if event.attemptID.seq ≠ operation.seq ∨
        event.deadlineGeneration ≠ operation.deadlineGeneration then return ()
    else do
      if operation.waiting then cancel ⟨state.id, operation.seq, operation.attempt⟩
      expire state.id operation

def matchesWaitingAttempt (state : Client) (attempt : AttemptID) : Option LogicalOperation :=
  state.active.filter fun operation =>
    operation.waiting ∧ attempt.clientID = state.id ∧ attempt.seq = operation.seq ∧
      attempt.attempt = operation.attempt

def handleApplied (state : Client) (event : Event) : RunnerM Unit := do
  match matchesWaitingAttempt state event.attemptID with
  | none => return ()
  | some operation =>
    let time ← now
    setRecorder (← recorded ((← recorder).complete state.id operation.seq time.toInt event.output))
    setClient { state with
      completed := state.completed + 1
      nextSeq := state.nextSeq + 1
      active := none }
    let config ← config
    if (state.generated : Int) < config.operationsPerClient.toInt then
      schedule (time + config.thinkTime) { kind := .start, attemptID := ⟨state.id, 0, 0⟩ }

def handleLeadershipLost (state : Client) (event : Event) : RunnerM Unit := do
  match matchesWaitingAttempt state event.attemptID with
  | none => return ()
  | some _ => do
    setWaiting state.id false
    scheduleRetry state.id

def handle (event : Event) : RunnerM Unit := do
  let state ← lookupClient event.attemptID.clientID
  match event.kind with
  | .start => handleStart state
  | .retry => handleRetry state event
  | .deadline => handleDeadline state event
  | .applied => handleApplied state event
  | .leadershipLost => handleLeadershipLost state event
  | .unsupported kind => throw (.unsupportedKind kind)

def Runner.retryEvent (runner : Runner) (clientID : UInt64) : Option Event := do
  let state ← runner.byID clientID
  let operation ← state.active
  if operation.timedOut then
    some { kind := .retry, attemptID := ⟨clientID, operation.seq, 0⟩ }
  else none

end MiniQuorum.Workload
