import MiniQuorum.Raft.Node
import MiniQuorum.Storage.MemStorage

/-! Host-driven nodes over a lossy, duplicating, reordering network.  A host call is cut
at every point where a crash can fall: after the node took the input, inside the save,
between two sends and between two applies. -/

namespace MiniQuorum.Server

open Raft Storage

def newRecoveredNode (cfg : Config) (store : MemStorage) (rnd : Rand) : Option Node :=
  let first := (firstLast store.entries).1
  let last := (firstLast store.entries).2
  if last ≥ first then
    if last = maxUint64 then none
    else (store.getEntries first (last + 1)).map fun entries =>
      newNode cfg ⟨store.hard, entries, ⟨0, 0⟩⟩ rnd
  else some (newNode cfg ⟨store.hard, [], ⟨0, 0⟩⟩ rnd)

structure Group where
  peers : List NodeID
  nodup : peers.Nodup
  nonzero : 0 ∉ peers
  electionTickMin : NodeID → Int
  electionTickMax : NodeID → Int
  heartbeatTicks : NodeID → Int

def Group.config (g : Group) (n : NodeID) : Config where
  id := n
  peers := g.peers
  electionTickMin := g.electionTickMin n
  electionTickMax := g.electionTickMax n
  heartbeatTicks := g.heartbeatTicks n

/-- Where a host call stands. -/
inductive Phase
  | idle
  | stepped
  | saving (ready : Ready)
  | draining (messages : List Message) (committed : List Entry)
  deriving DecidableEq, Repr

structure Host where
  node : Node
  phase : Phase
  leaderHint : NodeID

structure AppliedEntry where
  node : NodeID
  entry : Entry
  deriving DecidableEq, Repr

/-- `network` holds every message ever passed to `Send`, `applied` every entry ever
passed to `Apply`, both newest first. -/
structure Cluster where
  hosts : NodeID → Option Host
  disks : NodeID → MemStorage
  network : List Message
  incarnation : NodeID → Nat
  applied : List AppliedEntry

def Cluster.init : Cluster where
  hosts _ := none
  disks _ := MemStorage.empty
  network := []
  incarnation _ := 0
  applied := []

inductive Action
  | tick (n : NodeID) (rnd : Rand)
  | step (n : NodeID) (m : Message) (rnd : Rand)
  | propose (n : NodeID) (data : Bytes)
  | ready (n : NodeID)
  | save (n : NodeID)
  | send (n : NodeID)
  | apply (n : NodeID)
  | advance (n : NodeID)
  | crash (n : NodeID) (records : Nat)
  | recover (n : NodeID) (rnd : Rand)

def recordLeaderHint (hint id : NodeID) : NodeID := if id = 0 then hint else id

def stepLeaderHint (hint : NodeID) (m : Message) : NodeID :=
  match m.body with
  | .appendEntries req => recordLeaderHint hint req.leaderId
  | _ => hint

namespace Cluster

def setHost (c : Cluster) (n : NodeID) (h : Option Host) : Cluster :=
  { c with hosts := Function.update c.hosts n h }

def setDisk (c : Cluster) (n : NodeID) (s : MemStorage) : Cluster :=
  { c with disks := Function.update c.disks n s }

def crashDisk (c : Cluster) (n : NodeID) (h : Host) (records : Nat) : MemStorage :=
  match h.phase with
  | .saving r => (c.disks n).tornSave r.hardState r.entries records
  | _ => c.disks n

def act (g : Group) (c : Cluster) : Action → Option Cluster
  | .tick n rnd =>
    match c.hosts n with
    | some ⟨node, .idle, hint⟩ => some (c.setHost n (some ⟨node.tick rnd, .stepped, hint⟩))
    | _ => none
  | .step n m rnd =>
    match c.hosts n with
    | some ⟨node, .idle, hint⟩ =>
      if m ∈ c.network ∧ m.toID = n then
        some (c.setHost n (some ⟨node.step rnd (some m), .stepped, stepLeaderHint hint m⟩))
      else none
    | _ => none
  | .propose n data =>
    match c.hosts n with
    | some ⟨node, .idle, hint⟩ =>
      let isLeader := (node.propose data).2.2.2
      let hint := if isLeader then recordLeaderHint hint n else hint
      some (c.setHost n (some ⟨(node.propose data).1, .stepped, hint⟩))
    | _ => none
  | .ready n =>
    match c.hosts n with
    | some ⟨node, .stepped, hint⟩ =>
      some (c.setHost n (some ⟨node.ready.2, .saving node.ready.1, hint⟩))
    | _ => none
  | .save n =>
    match c.hosts n with
    | some ⟨node, .saving r, hint⟩ =>
      some ((c.setDisk n ((c.disks n).save r.hardState r.entries)).setHost n
        (some ⟨node, .draining r.messages r.committedEntries, hint⟩))
    | _ => none
  | .send n =>
    match c.hosts n with
    | some ⟨node, .draining (m :: messages) committed, hint⟩ =>
      some { c.setHost n (some ⟨node, .draining messages committed, hint⟩) with
        network := m :: c.network }
    | _ => none
  | .apply n =>
    match c.hosts n with
    | some ⟨node, .draining [] (e :: committed), hint⟩ =>
      some { c.setHost n (some ⟨node, .draining [] committed, hint⟩) with
        applied := ⟨n, e⟩ :: c.applied }
    | _ => none
  | .advance n =>
    match c.hosts n with
    | some ⟨node, .draining [] [], hint⟩ => some (c.setHost n (some ⟨node.advance, .idle, hint⟩))
    | _ => none
  | .crash n records =>
    match c.hosts n with
    | some h => some ((c.setDisk n (c.crashDisk n h records)).setHost n none)
    | none => none
  | .recover n rnd =>
    match c.hosts n with
    | some _ => none
    | none =>
      if n ∈ g.peers then
        (newRecoveredNode (g.config n) (c.disks n) rnd).map fun node =>
          { c.setHost n (some ⟨node, .idle, 0⟩) with
            incarnation := Function.update c.incarnation n (c.incarnation n + 1) }
      else none

inductive Acted (g : Group) (c : Cluster) : Action → Cluster → Prop
  | tick {n node hint} (rnd : Rand) (hhost : c.hosts n = some ⟨node, .idle, hint⟩) :
    Acted g c (.tick n rnd) (c.setHost n (some ⟨node.tick rnd, .stepped, hint⟩))
  | step {n m node hint} (rnd : Rand) (hhost : c.hosts n = some ⟨node, .idle, hint⟩)
    (hm : m ∈ c.network ∧ m.toID = n) :
    Acted g c (.step n m rnd)
      (c.setHost n (some ⟨node.step rnd (some m), .stepped, stepLeaderHint hint m⟩))
  | propose {n node hint} (data : Bytes) (hhost : c.hosts n = some ⟨node, .idle, hint⟩) :
    Acted g c (.propose n data) (c.setHost n (some ⟨(node.propose data).1, .stepped,
      if (node.propose data).2.2.2 then recordLeaderHint hint n else hint⟩))
  | ready {n node hint} (hhost : c.hosts n = some ⟨node, .stepped, hint⟩) :
    Acted g c (.ready n) (c.setHost n (some ⟨node.ready.2, .saving node.ready.1, hint⟩))
  | save {n node r hint} (hhost : c.hosts n = some ⟨node, .saving r, hint⟩) :
    Acted g c (.save n) ((c.setDisk n ((c.disks n).save r.hardState r.entries)).setHost n
      (some ⟨node, .draining r.messages r.committedEntries, hint⟩))
  | send {n node m messages committed hint}
    (hhost : c.hosts n = some ⟨node, .draining (m :: messages) committed, hint⟩) :
    Acted g c (.send n) { c.setHost n (some ⟨node, .draining messages committed, hint⟩) with
      network := m :: c.network }
  | apply {n node e committed hint}
    (hhost : c.hosts n = some ⟨node, .draining [] (e :: committed), hint⟩) :
    Acted g c (.apply n) { c.setHost n (some ⟨node, .draining [] committed, hint⟩) with
      applied := ⟨n, e⟩ :: c.applied }
  | advance {n node hint} (hhost : c.hosts n = some ⟨node, .draining [] [], hint⟩) :
    Acted g c (.advance n) (c.setHost n (some ⟨node.advance, .idle, hint⟩))
  | crash {n h} (records : Nat) (hhost : c.hosts n = some h) :
    Acted g c (.crash n records) ((c.setDisk n (c.crashDisk n h records)).setHost n none)
  | recover {n node rnd} (hhost : c.hosts n = none) (hn : n ∈ g.peers)
    (hnode : newRecoveredNode (g.config n) (c.disks n) rnd = some node) :
    Acted g c (.recover n rnd) { c.setHost n (some ⟨node, .idle, 0⟩) with
      incarnation := Function.update c.incarnation n (c.incarnation n + 1) }

theorem acted {g : Group} {c c' : Cluster} {a : Action} (hact : c.act g a = some c') :
    Acted g c a c' := by
  cases a with
  | step n m rnd =>
    simp only [act] at hact
    split at hact
    · next hhost =>
      split at hact
      · next hm =>
        cases hact
        exact .step rnd hhost hm
      · cases hact
    · cases hact
  | recover n rnd =>
    simp only [act] at hact
    split at hact
    · cases hact
    · next hhost =>
      split at hact
      · next hn =>
        obtain ⟨node, hnode, rfl⟩ := Option.map_eq_some_iff.mp hact
        exact .recover hhost hn hnode
      · cases hact
  | _ =>
    simp only [act] at hact
    split at hact
    · cases hact
      constructor
      assumption
    · cases hact

def Step (g : Group) (c c' : Cluster) : Prop := ∃ a, c.act g a = some c'

def Run (g : Group) : Cluster → Cluster → Prop := Relation.ReflTransGen (Step g)

def TermsBelow (c : Cluster) : Prop :=
  ∀ n h, c.hosts n = some h → h.node.hardState.term < maxUint64

def RunBelow (g : Group) : Cluster → Cluster → Prop :=
  Relation.ReflTransGen fun c c' => Step g c c' ∧ c'.TermsBelow

def exec (g : Group) (c : Cluster) (as : List Action) : Option Cluster := as.foldlM (act g) c

end Cluster

end MiniQuorum.Server
