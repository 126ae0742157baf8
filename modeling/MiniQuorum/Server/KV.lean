import MiniQuorum.Server.Cluster
import MiniQuorum.StateMachine.MapSM
import Mathlib.Data.Finset.Filter

/-! The KV service of every node over its host, and clients that retry. -/

namespace MiniQuorum.Server

open Raft Storage Codec StateMachine Consensus

abbrev CallID := Nat

structure WaiterKey where
  index : Nat
  term : Nat
  deriving DecidableEq, Repr

inductive WaiterOutcome
  | result (result : Result)
  | stale
  | err
  deriving DecidableEq, Repr

structure Waiter where
  key : WaiterKey
  channel : CallID
  deriving DecidableEq, Repr

abbrev Deliveries := List (CallID × WaiterOutcome)

/-- `waiters` has each key at most once; `byIndex` is empty where the source has no key. -/
structure KVApplier where
  sm : MapStateMachine
  waiters : List Waiter
  byIndex : Nat → Finset Nat

namespace KVApplier

def new (sm : MapStateMachine) : KVApplier := ⟨sm, [], fun _ => ∅⟩

def register (a : KVApplier) (index term : Nat) (channel : CallID) : KVApplier :=
  { a with
    waiters := ⟨⟨index, term⟩, channel⟩ :: a.waiters.filter (fun w => w.key ≠ ⟨index, term⟩)
    byIndex := Function.update a.byIndex index (insert term (a.byIndex index)) }

def cancel (a : KVApplier) (index term : Nat) : KVApplier :=
  if a.waiters.any (fun w => w.key = ⟨index, term⟩) then
    { a with
      waiters := a.waiters.filter (fun w => w.key ≠ ⟨index, term⟩)
      byIndex := Function.update a.byIndex index ((a.byIndex index).erase term) }
  else a

def resolves (a : KVApplier) (index : Nat) (w : Waiter) : Bool :=
  w.key.index = index && w.key.term ∈ a.byIndex index

def fulfill (a : KVApplier) (index term : Nat) (result : Result) : KVApplier × Deliveries :=
  ({ a with
      waiters := a.waiters.filter (fun w => !a.resolves index w)
      byIndex := Function.update a.byIndex index ∅ },
    (a.waiters.filter (a.resolves index)).map fun w =>
      (w.channel, if w.key.term = term then .result result else .stale))

def failStop (a : KVApplier) : KVApplier × Deliveries :=
  ({ a with
      waiters := []
      byIndex := fun index =>
        (a.byIndex index).filter fun term => a.waiters.all fun w => w.key ≠ ⟨index, term⟩ },
    a.waiters.map fun w => (w.channel, .err))

def apply (codec : Marshaler Command) (a : KVApplier) (entry : Entry) :
    Except ApplyError (KVApplier × Deliveries) :=
  match a.sm.apply codec (some entry) with
  | .error err => .error err
  | .ok (sm, result) => .ok ({ a with sm }.fulfill entry.index entry.term result)

end KVApplier

inductive RequestError
  | cmdRequired
  | unsupportedOp (op : Op)
  deriving DecidableEq, Repr

def validateCommand : Option Command → Except RequestError Command
  | none => .error .cmdRequired
  | some cmd =>
    match cmd.op with
    | .put => .ok cmd
    | .delete => .ok cmd
    | .get => .ok cmd
    | op => .error (.unsupportedOp op)

structure Call where
  cmd : Command
  key : WaiterKey

/-- One server process beside its host: `entering` are the `Execute` calls that have not
reached `Host.Propose` yet, `calls` those that wait for their outcome. -/
structure Process where
  applier : KVApplier
  entering : List Command
  calls : CallID → Option Call
  channels : CallID → List WaiterOutcome
  nextCall : CallID
  stopped : Bool

namespace Process

def start : Process where
  applier := KVApplier.new MapStateMachine.new
  entering := []
  calls _ := none
  channels _ := []
  nextCall := 0
  stopped := false

def deliver (p : Process) (deliveries : Deliveries) : Process :=
  { p with
    channels := fun id => p.channels id ++ deliveries.filterMap fun d =>
      if d.1 = id then some d.2 else none }

def await (p : Process) (cmd : Command) (index term : Nat) : Process :=
  { p with
    applier := p.applier.register index term p.nextCall
    calls := Function.update p.calls p.nextCall (some ⟨cmd, ⟨index, term⟩⟩)
    channels := Function.update p.channels p.nextCall []
    nextCall := p.nextCall + 1 }

def leave (p : Process) (id : CallID) : Process :=
  { p with calls := Function.update p.calls id none }

def failStop (p : Process) : Process :=
  { { p with applier := p.applier.failStop.1 }.deliver p.applier.failStop.2 with stopped := true }

end Process

abbrev KVEvent := OpEvent OpID MapOp Result

def completed (history : List KVEvent) (op : OpID) : Bool :=
  history.any fun
    | .respond op' _ => op' = op
    | .invoke _ _ => false

/-- A cluster with its servers and clients.  `issued` are the commands of all logical
operations so far; an operation is in `history` from its first `Execute` call on, and is
completed there by its first successful response. -/
structure System where
  cluster : Cluster
  processes : NodeID → Process
  issued : List Command
  history : List KVEvent

inductive KVAction
  | raft (a : Action)
  | execute (n : NodeID) (cmd : Option Command)
  | propose (n : NodeID) (cmd : Command)
  | apply (n : NodeID)
  | respond (n : NodeID) (id : CallID)
  | cancel (n : NodeID) (id : CallID)
  | saveError (n : NodeID)

def Action.target : Action → NodeID
  | .tick n _ => n
  | .step n _ _ => n
  | .propose n _ => n
  | .ready n => n
  | .save n => n
  | .send n => n
  | .apply n => n
  | .advance n => n
  | .crash n _ => n
  | .recover n _ => n

def Action.isInternal : Action → Bool
  | .tick _ _ => true
  | .step _ _ _ => true
  | .propose _ _ => false
  | .ready _ => true
  | .save _ => true
  | .send _ => true
  | .apply _ => false
  | .advance _ => true
  | .crash _ _ => false
  | .recover _ _ => false

namespace System

def init : System := ⟨Cluster.init, fun _ => Process.start, [], []⟩

def setProcess (sys : System) (n : NodeID) (p : Process) : System :=
  { sys with processes := Function.update sys.processes n p }

/-- A client resends a command it has issued before, or starts its next operation once all
its earlier ones have completed. -/
def mayIssue (sys : System) (cmd : Command) : Bool :=
  cmd ∈ sys.issued || sys.issued.all fun earlier =>
    earlier.clientId ≠ cmd.clientId ||
      (decide (earlier.seq < cmd.seq) && completed sys.history earlier.id)

def invoke (sys : System) (cmd : Command) : System :=
  if cmd ∈ sys.issued then sys
  else { sys with
    issued := cmd :: sys.issued
    history := sys.history ++ (cmd.mapOp.map (OpEvent.invoke cmd.id)).toList }

def complete (sys : System) (op : OpID) (result : Result) : System :=
  if completed sys.history op then sys
  else { sys with history := sys.history ++ [.respond op result] }

def execute (sys : System) (n : NodeID) (cmd : Option Command) : Option System :=
  match sys.cluster.hosts n, validateCommand cmd with
  | none, _ => none
  | some _, .error _ => some sys
  | some _, .ok cmd =>
    if sys.mayIssue cmd then
      let p := sys.processes n
      some ((sys.invoke cmd).setProcess n { p with entering := cmd :: p.entering })
    else none

def propose (codec : Marshaler Command) (g : Group) (sys : System) (n : NodeID) (cmd : Command) :
    Option System :=
  let p := sys.processes n
  let left := { p with entering := p.entering.erase cmd }
  if cmd ∉ p.entering then none
  else if p.stopped then some (sys.setProcess n left)
  else match sys.cluster.hosts n with
    | some ⟨node, .idle, _⟩ =>
      let proposed := (node.propose (codec.marshal cmd)).2
      (sys.cluster.act g (.propose n (codec.marshal cmd))).map fun c =>
        { sys with cluster := c }.setProcess n
          (if proposed.2.2 then left.await cmd proposed.1 proposed.2.1 else left)
    | _ => none

def apply (codec : Marshaler Command) (g : Group) (sys : System) (n : NodeID) : Option System :=
  let p := sys.processes n
  if p.stopped then none
  else match sys.cluster.hosts n with
    | some ⟨_, .draining [] (e :: _), _⟩ =>
      match p.applier.apply codec e with
      | .error _ => some (sys.setProcess n p.failStop)
      | .ok (applier, deliveries) =>
        (sys.cluster.act g (.apply n)).map fun c =>
          { sys with cluster := c }.setProcess n ({ p with applier }.deliver deliveries)
    | _ => none

def respond (sys : System) (n : NodeID) (id : CallID) : Option System :=
  let p := sys.processes n
  match sys.cluster.hosts n, p.calls id, p.channels id with
  | some _, some call, outcome :: _ =>
    let sys := sys.setProcess n (p.leave id)
    match outcome with
    | .result result => some (sys.complete call.cmd.id result)
    | .stale => some sys
    | .err => some sys
  | _, _, _ => none

def cancel (sys : System) (n : NodeID) (id : CallID) : Option System :=
  let p := sys.processes n
  (p.calls id).map fun call =>
    sys.setProcess n
      { p.leave id with applier := p.applier.cancel call.key.index call.key.term }

def raft (g : Group) (sys : System) (a : Action) : Option System :=
  if a.isInternal then
    if (sys.processes a.target).stopped then none
    else (sys.cluster.act g a).map fun c => { sys with cluster := c }
  else match a with
    | .crash n records => (sys.cluster.act g (.crash n records)).map fun c =>
        { sys with cluster := c }.setProcess n Process.start
    | .recover n rnd => (sys.cluster.act g (.recover n rnd)).map fun c =>
        { sys with cluster := c }.setProcess n Process.start
    | _ => none

def saveError (sys : System) (n : NodeID) : Option System :=
  let p := sys.processes n
  match sys.cluster.hosts n with
  | some ⟨_, .saving _, _⟩ => if p.stopped then none else some (sys.setProcess n p.failStop)
  | _ => none

def act (codec : Marshaler Command) (g : Group) (sys : System) : KVAction → Option System
  | .raft a => sys.raft g a
  | .execute n cmd => sys.execute n cmd
  | .propose n cmd => sys.propose codec g n cmd
  | .apply n => sys.apply codec g n
  | .respond n id => sys.respond n id
  | .cancel n id => sys.cancel n id
  | .saveError n => sys.saveError n

def Step (codec : Marshaler Command) (g : Group) (sys sys' : System) : Prop :=
  ∃ a, sys.act codec g a = some sys'

def Run (codec : Marshaler Command) (g : Group) : System → System → Prop :=
  Relation.ReflTransGen (Step codec g)

def RunBelow (codec : Marshaler Command) (g : Group) : System → System → Prop :=
  Relation.ReflTransGen fun sys sys' => Step codec g sys sys' ∧ sys'.cluster.TermsBelow

end System

end MiniQuorum.Server
