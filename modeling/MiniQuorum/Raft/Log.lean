import MiniQuorum.Raft.Types

namespace MiniQuorum.Raft

structure RaftLog where
  snapshot : SnapshotMeta
  entries : List Entry
  deriving DecidableEq, Repr

def newRaftLog (snapshot : SnapshotMeta) (entries : List Entry) : RaftLog :=
  { snapshot, entries }

namespace RaftLog

def firstIndex (l : RaftLog) : Nat := l.snapshot.index + 1

def lastIndex (l : RaftLog) : Nat :=
  match l.entries.getLast? with
  | none => l.snapshot.index
  | some e => e.index

def entry (l : RaftLog) (index : Nat) : Option Entry :=
  match l.entries with
  | [] => none
  | first :: _ =>
    if index < first.index then none
    else match l.entries[index - first.index]? with
      | none => none
      | some e => if e.index ≠ index then none else some e

def term (l : RaftLog) (index : Nat) : Option Nat :=
  if index = l.snapshot.index then some l.snapshot.term
  else (l.entry index).map Entry.term

def lastTerm (l : RaftLog) : Nat := (l.term l.lastIndex).getD 0

def matchesAt (l : RaftLog) (index term : Nat) : Bool :=
  l.term index == some term

def rangeLoop (l : RaftLog) : Nat → Nat → List Entry
  | _, 0 => []
  | index, count + 1 =>
    match l.entry index with
    | none => []
    | some e => e :: rangeLoop l (index + 1) count

def rangeEntries (l : RaftLog) (lo hi : Nat) : List Entry := l.rangeLoop lo (hi - lo)

def appendLocal (l : RaftLog) (term : Nat) (type : EntryType) (data : Bytes) : RaftLog × Nat :=
  let index := l.lastIndex + 1
  ({ l with entries := l.entries ++ [{ index, term, type, data }] }, index)

def truncateFrom (l : RaftLog) (index : Nat) : RaftLog :=
  { l with entries := l.entries.takeWhile (fun e => e.index < index) }

def incoming (l : RaftLog) (entries : List (Option Entry)) : List Entry :=
  entries.filterMap (fun
    | none => none
    | some e => if e.index ≤ l.snapshot.index then none else some e)

def appendFromLeader (l : RaftLog) : List (Option Entry) → RaftLog × Nat
  | [] => (l, 0)
  | none :: rest => l.appendFromLeader rest
  | some e :: rest =>
    if e.index ≤ l.snapshot.index then l.appendFromLeader rest
    else if l.term e.index = some e.term then l.appendFromLeader rest
    else
      let cut := l.truncateFrom e.index
      ({ cut with entries := cut.entries ++ cut.incoming (some e :: rest) }, e.index)

end RaftLog

end MiniQuorum.Raft
