import Mathlib.Algebra.Group.Nat.Defs
import Mathlib.Data.Finset.Card
import Mathlib.Data.List.Sort
import Mathlib.Logic.Function.Basic

namespace MiniQuorum

abbrev Bytes := List UInt8

def maxUint64 : Nat := 2 ^ 64 - 1

namespace Raft

abbrev NodeID := Nat

inductive EntryType
  | unspecified | normal | noop
  | unrecognized (value : Int)
  deriving DecidableEq, Repr

structure Entry where
  index : Nat
  term : Nat
  type : EntryType
  data : Bytes
  deriving DecidableEq, Repr

structure HardState where
  term : Nat
  votedFor : NodeID
  deriving DecidableEq, Repr

structure SnapshotMeta where
  index : Nat
  term : Nat
  deriving DecidableEq, Repr

structure Config where
  id : NodeID
  peers : List NodeID
  electionTickMin : Int
  electionTickMax : Int
  heartbeatTicks : Int

structure InitialState where
  hardState : HardState
  entries : List Entry
  snapshot : SnapshotMeta

structure RequestVoteReq where
  term : Nat
  candidateId : Nat
  lastLogIndex : Nat
  lastLogTerm : Nat
  deriving DecidableEq, Repr

structure RequestVoteResp where
  term : Nat
  voteGranted : Bool
  deriving DecidableEq, Repr

structure AppendEntriesReq where
  term : Nat
  leaderId : Nat
  prevLogIndex : Nat
  prevLogTerm : Nat
  entries : List (Option Entry)
  leaderCommit : Nat
  deriving DecidableEq, Repr

structure AppendEntriesResp where
  term : Nat
  success : Bool
  matchIndex : Nat
  deriving DecidableEq, Repr

/-- The body of a message.  `other` stands for a missing body and for the snapshot
bodies, which no handler reads. -/
inductive Body
  | requestVote (req : RequestVoteReq)
  | requestVoteResp (resp : RequestVoteResp)
  | appendEntries (req : AppendEntriesReq)
  | appendEntriesResp (resp : AppendEntriesResp)
  | other
  deriving DecidableEq, Repr

structure Message where
  fromID : Nat
  toID : Nat
  term : Nat
  body : Body
  deriving DecidableEq, Repr

structure Ready where
  hardState : Option HardState
  entries : List Entry
  messages : List Message
  committedEntries : List Entry
  deriving DecidableEq, Repr

/-- The host's random source at one call: `none` for a nil source, else the answer of
`IntN`.  An operation draws at most once. -/
abbrev Rand := Option (Int → Int)

end Raft

end MiniQuorum
