import MiniQuorum.Sim.CrashStorage
import MiniQuorum.Lsm.SimFS

/-! Fault schedules of the simulator and their validation.  Values that only a malformed
file can hold, such as an unknown operation or a retention below `RetainAllUnsynced`, have
no counterpart here. -/

namespace MiniQuorum.Sim

open Raft

abbrev VirtualTime := Int

inductive Fault
  | dropRate (rate : Float)
  | duplicateRate (rate : Float)
  | partition (source dest : NodeID)
  | heal (source dest : NodeID)
  | partitionGroups (groups : List (List NodeID))
  | healGroups (groups : List (List NodeID))
  | pause (node : NodeID)
  | resume (node : NodeID)
  | clockSkew (node : NodeID) (multiplier : Float)
  | crash (node : NodeID)
  | restart (node : NodeID)
  | unknown (kind : Int)

structure FaultEvent where
  time : VirtualTime
  fault : Fault

structure LSMCrashDirective where
  node : NodeID
  op : Lsm.FSOp
  occurrence : Nat
  point : Lsm.SimFaultPoint
  retainUnsynced : Retain
  restartAfterCrash : Bool
  deriving DecidableEq, Repr

structure LSMCrashDirectiveKey where
  node : NodeID
  op : Lsm.FSOp
  occurrence : Nat
  point : Lsm.SimFaultPoint
  deriving DecidableEq, Repr

def lsmDirectiveKey (d : LSMCrashDirective) : LSMCrashDirectiveKey :=
  ⟨d.node, d.op, d.occurrence, d.point⟩

structure CrashDirectiveKey where
  node : NodeID
  save : Nat
  deriving DecidableEq, Repr

structure FaultSchedule where
  version : Int
  crashes : List CrashDirective
  events : List FaultEvent
  lsmCrashes : List LSMCrashDirective

def faultScheduleGeneratorVersion : Int := 5

def minClockMultiplier : Float := 0.5

def maxClockMultiplier : Float := 2.0

inductive RateError
  | notFinite (rate : Float)
  | outside (rate : Float)

inductive GroupError
  | few (count : Nat)
  | empty (group : Nat)
  | duplicate (group : Nat) (node : NodeID)
  | shared (node : NodeID) (prior group : Nat)

inductive FaultError
  | negativeTime (time : VirtualTime)
  | rate (error : RateError)
  | multiplier (error : RateError)
  | sameEnds (node : NodeID)
  | groups (error : GroupError)
  | unknownKind (kind : Int)
  | notMember (node : NodeID)

inductive ScheduleError
  | version (version : Int)
  | event (index : Nat) (error : FaultError)
  | saveZero (directive : Nat) (node : NodeID)
  | point (directive : Nat) (node : NodeID) (point : CrashPoint)
  | duplicate (directive : Nat) (node : NodeID) (save : Nat)
  | directiveMember (directive : Nat) (node : NodeID)
  | lsmOccurrence (directive : Nat)
  | lsmDuplicate (directive : Nat) (node : NodeID) (op : Lsm.FSOp) (occurrence : Nat)
  | lsmMember (directive : Nat) (node : NodeID)

def validateRange (low high value : Float) : Except RateError Unit :=
  if value.isNaN || value.isInf then .error (.notFinite value)
  else if value < low || high < value then .error (.outside value)
  else .ok ()

def validateUnitRate (rate : Float) : Except RateError Unit := validateRange 0 1 rate

def validateMultiplier (multiplier : Float) : Except RateError Unit :=
  validateRange minClockMultiplier maxClockMultiplier multiplier

def validateMembers (group : Nat) :
    List NodeID → List (NodeID × Nat) → List NodeID → Except GroupError (List (NodeID × Nat))
  | _, seen, [] => .ok seen
  | own, seen, id :: rest =>
    if id ∈ own then .error (.duplicate group id)
    else match seen.lookup id with
      | some prior => .error (.shared id prior group)
      | none => validateMembers group (id :: own) ((id, group) :: seen) rest

def validateGroupsFrom : Nat → List (NodeID × Nat) → List (List NodeID) → Except GroupError Unit
  | _, _, [] => .ok ()
  | index, seen, group :: rest =>
    if group.isEmpty then .error (.empty index)
    else do
      let seen ← validateMembers index [] seen group
      validateGroupsFrom (index + 1) seen rest

def validatePartitionGroups (groups : List (List NodeID)) : Except GroupError Unit :=
  if groups.length < 2 then .error (.few groups.length) else validateGroupsFrom 0 [] groups

def Fault.validate : Fault → Except FaultError Unit
  | .dropRate rate | .duplicateRate rate => (validateUnitRate rate).mapError .rate
  | .clockSkew _ multiplier => (validateMultiplier multiplier).mapError .multiplier
  | .partition source dest | .heal source dest =>
    if source = dest then .error (.sameEnds source) else .ok ()
  | .partitionGroups groups | .healGroups groups =>
    (validatePartitionGroups groups).mapError .groups
  | .pause _ | .resume _ | .crash _ | .restart _ => .ok ()
  | .unknown kind => .error (.unknownKind kind)

def FaultEvent.validate (e : FaultEvent) : Except FaultError Unit :=
  if e.time < 0 then .error (.negativeTime e.time) else e.fault.validate

def Fault.targets : Fault → List NodeID
  | .pause node | .resume node | .clockSkew node _ | .crash node | .restart node => [node]
  | .partition source dest | .heal source dest => [source, dest]
  | .partitionGroups groups | .healGroups groups => groups.flatten
  | .dropRate _ | .duplicateRate _ | .unknown _ => []

def validateCrashDirectivesFrom :
    Nat → List CrashDirectiveKey → List CrashDirective → Except ScheduleError Unit
  | _, _, [] => .ok ()
  | index, seen, d :: rest =>
    if d.save = 0 then .error (.saveZero index d.node)
    else if d.point = .hostInitiated then .error (.point index d.node d.point)
    else if ⟨d.node, d.save⟩ ∈ seen then .error (.duplicate index d.node d.save)
    else validateCrashDirectivesFrom (index + 1) (⟨d.node, d.save⟩ :: seen) rest

def validateCrashDirectives (directives : List CrashDirective) : Except ScheduleError Unit :=
  validateCrashDirectivesFrom 0 [] directives

def validateLSMCrashDirectivesFrom :
    Nat → List (NodeID × Lsm.FSOp × Nat) → List LSMCrashDirective → Except ScheduleError Unit
  | _, _, [] => .ok ()
  | index, seen, d :: rest =>
    if d.occurrence = 0 then .error (.lsmOccurrence index)
    else if (d.node, d.op, d.occurrence) ∈ seen then
      .error (.lsmDuplicate index d.node d.op d.occurrence)
    else validateLSMCrashDirectivesFrom (index + 1) ((d.node, d.op, d.occurrence) :: seen) rest

def validateLSMCrashDirectives (directives : List LSMCrashDirective) :
    Except ScheduleError Unit :=
  validateLSMCrashDirectivesFrom 0 [] directives

namespace FaultSchedule

def checkEach {α ε : Type} (check : Nat → α → Except ε Unit) : Nat → List α → Except ε Unit
  | _, [] => .ok ()
  | index, a :: rest => do
    check index a
    checkEach check (index + 1) rest

def validate (s : FaultSchedule) : Except ScheduleError Unit := do
  if s.version ≠ 0 ∧ s.version ≠ faultScheduleGeneratorVersion then throw (.version s.version)
  checkEach (fun i e => (FaultEvent.validate e).mapError (.event i)) 0 s.events
  validateCrashDirectives s.crashes
  validateLSMCrashDirectives s.lsmCrashes

def member {ε : Type} (nodeIDs : List NodeID) (error : NodeID → ε) (id : NodeID) :
    Except ε Unit :=
  if id ∈ nodeIDs then .ok () else .error (error id)

def validateForCluster (s : FaultSchedule) (nodeIDs : List NodeID) : Except ScheduleError Unit := do
  s.validate
  checkEach (fun i e => e.fault.targets.forM (member nodeIDs fun id => .event i (.notMember id))) 0
    s.events
  checkEach (fun i d => member nodeIDs (.directiveMember i) d.node) 0 s.crashes
  checkEach (fun i d => member nodeIDs (.lsmMember i) d.node) 0 s.lsmCrashes

end FaultSchedule

def sortFaultEvents (events : List FaultEvent) : List FaultEvent :=
  events.insertionSort (·.time ≤ ·.time)

end MiniQuorum.Sim
