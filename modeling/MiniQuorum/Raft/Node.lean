import MiniQuorum.Raft.Log

namespace MiniQuorum.Raft

inductive Role
  | follower | candidate | leader
  deriving DecidableEq, Repr

structure AppendInflight where
  prevIndex : Nat
  prevTerm : Nat
  lastIndex : Nat
  leaderCommit : Nat
  hasEntries : Bool
  deriving DecidableEq, Repr

structure ReadyAck where
  valid : Bool
  hardState : Bool
  hard : HardState
  messageCount : Nat
  entries : Bool
  stableTo : Nat
  committed : Bool
  appliedTo : Nat
  deriving DecidableEq, Repr

def ReadyAck.zero : ReadyAck where
  valid := false
  hardState := false
  hard := ⟨0, 0⟩
  messageCount := 0
  entries := false
  stableTo := 0
  committed := false
  appliedTo := 0

/-- The core state machine.  A map is `none` while the source holds a nil map, and a
missing key reads as the zero value; `panicked` is set where the source would assign
into a nil map. -/
structure Node where
  config : Config
  peers : List NodeID
  hardState : HardState
  role : Role
  electionElapsed : Int
  heartbeatElapsed : Int
  electionTimeout : Int
  votes : Option (Finset NodeID)
  log : RaftLog
  unstableIndex : Nat
  commitIndex : Nat
  lastApplied : Nat
  nextIndex : Option (NodeID → Nat)
  matchIndex : Option (NodeID → Nat)
  inflight : Option (NodeID → Option AppendInflight)
  hardStateDirty : Bool
  messages : List Message
  readyAck : ReadyAck
  panicked : Bool

def orderedPeers (peers : List NodeID) : List NodeID := peers.insertionSort (· ≤ ·)

def commitTermEligible (entryTerm currentTerm : Nat) : Bool := entryTerm == currentTerm

def messageTerm (m : Message) : Nat :=
  match m.body with
  | .requestVote req => if req.term > m.term then req.term else m.term
  | .requestVoteResp resp => if resp.term > m.term then resp.term else m.term
  | .appendEntries req => if req.term > m.term then req.term else m.term
  | .appendEntriesResp resp => if resp.term > m.term then resp.term else m.term
  | .other => m.term

def contiguousFrom : Nat → List (Option Entry) → Bool
  | _, [] => true
  | _, none :: _ => false
  | next, some e :: rest => e.index == next && contiguousFrom (next + 1) rest

def appendRequestLastIndex (req : AppendEntriesReq) : Option Nat :=
  if req.entries.length > maxUint64 - req.prevLogIndex then none
  else if contiguousFrom (req.prevLogIndex + 1) req.entries then
    some (req.prevLogIndex + req.entries.length)
  else none

namespace Node

def nextIndexOf (n : Node) (peer : NodeID) : Nat := (n.nextIndex.map (· peer)).getD 0

def matchIndexOf (n : Node) (peer : NodeID) : Nat := (n.matchIndex.map (· peer)).getD 0

def inflightOf (n : Node) (peer : NodeID) : Option AppendInflight := n.inflight.bind (· peer)

def setNextIndex (n : Node) (peer : NodeID) (index : Nat) : Node :=
  match n.nextIndex with
  | none => { n with panicked := true }
  | some next => { n with nextIndex := some (Function.update next peer index) }

def setMatchIndex (n : Node) (peer : NodeID) (index : Nat) : Node :=
  match n.matchIndex with
  | none => { n with panicked := true }
  | some matched => { n with matchIndex := some (Function.update matched peer index) }

def setInflight (n : Node) (peer : NodeID) (pending : Option AppendInflight) : Node :=
  match n.inflight with
  | none => { n with panicked := true }
  | some inflight => { n with inflight := some (Function.update inflight peer pending) }

def emit (n : Node) (dest : NodeID) (body : Body) : Node :=
  { n with
    messages := n.messages ++
      [{ fromID := n.config.id, toID := dest, term := n.hardState.term, body }] }

def resetElectionTimeout (rnd : Rand) (n : Node) : Node :=
  let span := n.config.electionTickMax - n.config.electionTickMin
  let timeout := match rnd with
    | none => n.config.electionTickMin
    | some intN =>
      if span > 0 then n.config.electionTickMin + intN span else n.config.electionTickMin
  { n with electionTimeout := timeout, electionElapsed := 0 }

def becomeFollower (rnd : Rand) (n : Node) (term : Nat) : Node :=
  let n :=
    if term ≠ n.hardState.term then
      resetElectionTimeout rnd { n with hardState := ⟨term, 0⟩, hardStateDirty := true }
    else n
  { n with
    role := .follower, heartbeatElapsed := 0, votes := none,
    nextIndex := none, matchIndex := none, inflight := none }

def becomeFollowerSameTerm (n : Node) : Node :=
  { n with
    role := .follower, heartbeatElapsed := 0, votes := none, electionElapsed := 0,
    nextIndex := none, matchIndex := none, inflight := none }

def hasMajority (n : Node) : Bool :=
  (n.votes.map Finset.card).getD 0 ≥ n.peers.length / 2 + 1

def isPeer (n : Node) (id : NodeID) : Bool :=
  n.peers.find? (fun peer => peer ≥ id) == some id

def candidateLogIsUpToDate (n : Node) (index term : Nat) : Bool :=
  term > n.log.lastTerm || (term == n.log.lastTerm && index ≥ n.log.lastIndex)

def sendRequestVoteResponse (n : Node) (dest : NodeID) (granted : Bool) : Node :=
  n.emit dest (.requestVoteResp { term := n.hardState.term, voteGranted := granted })

def sendAppendEntriesResponse (n : Node) (dest : NodeID) (success : Bool) (matchIndex : Nat) :
    Node :=
  n.emit dest (.appendEntriesResp { term := n.hardState.term, success, matchIndex })

def emitAppend (n : Node) (peer : NodeID) (pending : AppendInflight) : Node :=
  let entries :=
    if pending.hasEntries then n.log.rangeEntries (pending.prevIndex + 1) (pending.lastIndex + 1)
    else []
  n.emit peer (.appendEntries {
    term := n.hardState.term
    leaderId := n.config.id
    prevLogIndex := pending.prevIndex
    prevLogTerm := pending.prevTerm
    entries := entries.map some
    leaderCommit := pending.leaderCommit })

def clampNext (n : Node) (peer : NodeID) : Nat :=
  let next := n.nextIndexOf peer
  let next := if next < n.log.firstIndex then n.log.firstIndex else next
  if next > n.log.lastIndex + 1 then n.log.lastIndex + 1 else next

def sendAppend (n : Node) (peer : NodeID) (probe : Bool) : Node :=
  match n.inflightOf peer with
  | some pending => n.emitAppend peer pending
  | none =>
    let lastIndex := n.log.lastIndex
    let next := n.clampNext peer
    let n := n.setNextIndex peer next
    let prevIndex := next - 1
    match n.log.term prevIndex with
    | none => n
    | some prevTerm =>
      let hasEntries := !probe && next ≤ lastIndex
      let pending : AppendInflight := {
        prevIndex, prevTerm
        lastIndex := if hasEntries then lastIndex else prevIndex
        leaderCommit := n.commitIndex
        hasEntries }
      (n.setInflight peer (some pending)).emitAppend peer pending

def broadcastAppend (n : Node) (probe : Bool) : Node :=
  n.peers.foldl (fun n peer => if peer = n.config.id then n else n.sendAppend peer probe) n

def sendHeartbeats (n : Node) : Node := n.broadcastAppend false

def broadcastAvailableAppend (n : Node) : Node :=
  n.peers.foldl (fun n peer =>
    if peer = n.config.id || (n.inflightOf peer).isSome then n else n.sendAppend peer false) n

def appendLocal (n : Node) (type : EntryType) (data : Bytes) : Node × Nat :=
  let appended := n.log.appendLocal n.hardState.term type data
  let index := appended.2
  let n := { n with log := appended.1 }
  let n := if index < n.unstableIndex then { n with unstableIndex := index } else n
  let n :=
    if n.matchIndex.isSome then
      (n.setMatchIndex n.config.id index).setNextIndex n.config.id (index + 1)
    else n
  (n, index)

def replicas (n : Node) (index : Nat) : Nat :=
  n.peers.countP (fun peer => n.matchIndexOf peer ≥ index)

def commitEligible (n : Node) (index : Nat) : Bool :=
  match n.log.term index with
  | none => false
  | some term =>
    commitTermEligible term n.hardState.term && n.replicas index ≥ n.peers.length / 2 + 1

def commitCandidate (n : Node) : Nat → Option Nat
  | 0 => none
  | index + 1 =>
    if index + 1 > n.commitIndex then
      if n.commitEligible (index + 1) then some (index + 1) else n.commitCandidate index
    else none

def advanceCommit (n : Node) : Node × Bool :=
  if n.role ≠ .leader then (n, false)
  else match n.commitCandidate n.log.lastIndex with
    | none => (n, false)
    | some index => ({ n with commitIndex := index }, true)

def takeLead (n : Node) : Node :=
  let probeIndex := n.log.lastIndex
  { n with
    role := .leader, heartbeatElapsed := 0, votes := none
    nextIndex := some (fun peer => if peer ∈ n.peers then probeIndex + 1 else 0)
    matchIndex := some (fun _ => 0)
    inflight := some (fun _ => none) }

def becomeLeader (n : Node) : Node :=
  let n := (n.takeLead.appendLocal .noop []).1
  let n := n.advanceCommit.1
  n.broadcastAppend true

def campaign (rnd : Rand) (n : Node) : Node :=
  resetElectionTimeout rnd { n with
    hardState := ⟨(n.hardState.term + 1) % 2 ^ 64, n.config.id⟩
    hardStateDirty := true
    role := .candidate
    heartbeatElapsed := 0
    votes := some {n.config.id} }

def requestVotes (n : Node) : Node :=
  n.peers.foldl (fun n peer =>
    if peer = n.config.id then n
    else n.emit peer (.requestVote {
      term := n.hardState.term
      candidateId := n.config.id
      lastLogIndex := n.log.lastIndex
      lastLogTerm := n.log.lastTerm })) n

def startElection (rnd : Rand) (n : Node) : Node :=
  let n := n.campaign rnd
  if n.hasMajority then n.becomeLeader else n.requestVotes

def handleRequestVote (n : Node) (m : Message) (req : RequestVoteReq) : Node :=
  let canVote := n.hardState.votedFor == 0 || n.hardState.votedFor == req.candidateId
  let granted := canVote && n.candidateLogIsUpToDate req.lastLogIndex req.lastLogTerm
  let n :=
    if granted then
      let n :=
        if n.hardState.votedFor = 0 then
          { n with
            hardState := ⟨n.hardState.term, req.candidateId⟩
            hardStateDirty := true }
        else n
      { n with electionElapsed := 0 }
    else n
  n.sendRequestVoteResponse m.fromID granted

def handleRequestVoteResponse (n : Node) (m : Message) (resp : RequestVoteResp) : Node :=
  if n.role ≠ .candidate || !resp.voteGranted || !n.isPeer m.fromID then n
  else
    let n := match n.votes with
      | none => { n with panicked := true }
      | some votes => { n with votes := some (insert m.fromID votes) }
    if n.hasMajority then n.becomeLeader else n

def storeAppend (n : Node) (entries : List (Option Entry)) : Node :=
  let appended := n.log.appendFromLeader entries
  let changed := appended.2
  let n := { n with log := appended.1 }
  if changed ≠ 0 && changed < n.unstableIndex then { n with unstableIndex := changed } else n

def acceptAppend (n : Node) (m : Message) (req : AppendEntriesReq) (requestLastIndex : Nat) :
    Node :=
  let n := n.storeAppend req.entries
  let n :=
    if req.leaderCommit > n.commitIndex then
      { n with commitIndex := min req.leaderCommit requestLastIndex }
    else n
  n.sendAppendEntriesResponse m.fromID true requestLastIndex

def heedLeader (n : Node) : Node :=
  let n := if n.role ≠ .follower then n.becomeFollowerSameTerm else n
  { n with electionElapsed := 0 }

def handleAppendEntries (n : Node) (m : Message) (req : AppendEntriesReq) : Node :=
  let n := n.heedLeader
  match appendRequestLastIndex req with
  | none => n.sendAppendEntriesResponse m.fromID false 0
  | some requestLastIndex =>
    if n.log.matchesAt req.prevLogIndex req.prevLogTerm then
      n.acceptAppend m req requestLastIndex
    else n.sendAppendEntriesResponse m.fromID false 0

def acknowledge (n : Node) (peer : NodeID) (acknowledged : Nat) : Node :=
  let n := n.setInflight peer none
  let n :=
    if acknowledged > n.matchIndexOf peer then n.setMatchIndex peer acknowledged else n
  let n := n.setNextIndex peer (n.matchIndexOf peer + 1)
  let commitAdvanced := n.advanceCommit.2
  let n := n.advanceCommit.1
  if n.nextIndexOf peer ≤ n.log.lastIndex || commitAdvanced then n.sendAppend peer false else n

def backOff (n : Node) (peer : NodeID) : Node :=
  let n := n.setInflight peer none
  let matched := n.matchIndexOf peer
  let retryFloor :=
    if matched ≠ maxUint64 && matched + 1 > n.log.firstIndex then matched + 1
    else n.log.firstIndex
  let n :=
    if n.nextIndexOf peer > retryFloor then n.setNextIndex peer (n.nextIndexOf peer - 1) else n
  n.sendAppend peer false

def handleAppendEntriesResponse (n : Node) (m : Message) (resp : AppendEntriesResp) : Node :=
  let peer := m.fromID
  if n.role ≠ .leader || !n.isPeer peer || peer == n.config.id then n
  else match n.inflightOf peer with
    | none => n
    | some pending =>
      if resp.success then
        let acknowledged := resp.matchIndex
        if acknowledged ≠ pending.lastIndex || acknowledged < n.matchIndexOf peer ||
            acknowledged > n.log.lastIndex || acknowledged == maxUint64 then n
        else n.acknowledge peer acknowledged
      else n.backOff peer

def rejectLowerTermRequest (n : Node) (m : Message) : Node :=
  match m.body with
  | .requestVote _ => n.sendRequestVoteResponse m.fromID false
  | .appendEntries _ => n.sendAppendEntriesResponse m.fromID false 0
  | _ => n

def handle (n : Node) (m : Message) : Node :=
  match m.body with
  | .requestVote req => n.handleRequestVote m req
  | .appendEntries req => n.handleAppendEntries m req
  | .requestVoteResp resp => n.handleRequestVoteResponse m resp
  | .appendEntriesResp resp => n.handleAppendEntriesResponse m resp
  | .other => n

def tick (rnd : Rand) (n : Node) : Node :=
  if n.role = .leader then
    let n := { n with heartbeatElapsed := n.heartbeatElapsed + 1 }
    if n.heartbeatElapsed ≥ n.config.heartbeatTicks then
      sendHeartbeats { n with heartbeatElapsed := 0 }
    else n
  else
    let n := { n with electionElapsed := n.electionElapsed + 1 }
    if n.electionElapsed ≥ n.electionTimeout then n.startElection rnd else n

def step (rnd : Rand) (n : Node) : Option Message → Node
  | none => n
  | some m =>
    let term := messageTerm m
    if term > n.hardState.term then (n.becomeFollower rnd term).handle m
    else if term < n.hardState.term then n.rejectLowerTermRequest m
    else n.handle m

def propose (n : Node) (data : Bytes) : Node × Nat × Nat × Bool :=
  if n.role ≠ .leader then (n, 0, n.hardState.term, false)
  else
    let index := (n.appendLocal .normal data).2
    let n := (n.appendLocal .normal data).1
    let n := n.advanceCommit.1
    let n := n.broadcastAvailableAppend
    (n, index, n.hardState.term, true)

def readyWithoutCapture (n : Node) : Ready where
  messages := n.messages
  hardState := if n.hardStateDirty then some n.hardState else none
  entries :=
    if n.unstableIndex ≤ n.log.lastIndex then
      n.log.rangeEntries n.unstableIndex (n.log.lastIndex + 1)
    else []
  committedEntries :=
    if n.lastApplied < n.commitIndex then
      n.log.rangeEntries (n.lastApplied + 1) (n.commitIndex + 1)
    else []

def captureReady (n : Node) (ready : Ready) : Node :=
  { n with
    readyAck := {
      valid := true
      hardState := ready.hardState.isSome
      hard := ready.hardState.getD ⟨0, 0⟩
      messageCount := ready.messages.length
      entries := !ready.entries.isEmpty
      stableTo := (ready.entries.getLast?.map Entry.index).getD 0
      committed := !ready.committedEntries.isEmpty
      appliedTo := (ready.committedEntries.getLast?.map Entry.index).getD 0 } }

def ready (n : Node) : Ready × Node :=
  let r := n.readyWithoutCapture
  (r, n.captureReady r)

def advance (n : Node) : Node :=
  let n := if n.readyAck.valid then n else n.captureReady n.readyWithoutCapture
  let ack := n.readyAck
  { n with
    hardStateDirty :=
      if ack.hardState && n.hardStateDirty && n.hardState == ack.hard then false
      else n.hardStateDirty
    messages :=
      if ack.messageCount ≥ n.messages.length then [] else n.messages.drop ack.messageCount
    unstableIndex :=
      if ack.entries && n.unstableIndex ≤ ack.stableTo then ack.stableTo + 1 else n.unstableIndex
    lastApplied :=
      if ack.committed && ack.appliedTo > n.lastApplied then ack.appliedTo else n.lastApplied
    readyAck := ReadyAck.zero }

end Node

def Config.withDefaults (cfg : Config) : Config :=
  { cfg with
    electionTickMin := if cfg.electionTickMin = 0 then 10 else cfg.electionTickMin
    electionTickMax := if cfg.electionTickMax = 0 then 20 else cfg.electionTickMax
    heartbeatTicks := if cfg.heartbeatTicks = 0 then 2 else cfg.heartbeatTicks }

def newNode (cfg : Config) (init : InitialState) (rnd : Rand) : Node :=
  let cfg := cfg.withDefaults
  let log := newRaftLog init.snapshot init.entries
  Node.resetElectionTimeout rnd {
    config := cfg
    peers := orderedPeers cfg.peers
    hardState := init.hardState
    role := .follower
    electionElapsed := 0
    heartbeatElapsed := 0
    electionTimeout := 0
    votes := none
    log
    unstableIndex := log.lastIndex + 1
    commitIndex := init.snapshot.index
    lastApplied := init.snapshot.index
    nextIndex := none
    matchIndex := none
    inflight := none
    hardStateDirty := false
    messages := []
    readyAck := ReadyAck.zero
    panicked := false }

end MiniQuorum.Raft
