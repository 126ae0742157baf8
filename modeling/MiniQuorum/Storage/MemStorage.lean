import MiniQuorum.Raft.Types
import Mathlib.Data.List.TakeWhile

namespace MiniQuorum.Storage

open Raft

/-- Hard state and entries as a storage serves them. -/
structure MemStorage where
  hard : HardState
  entries : List Entry
  deriving DecidableEq, Repr

def firstLast : List Entry → Nat × Nat
  | [] => (1, 0)
  | e :: rest => (e.index, ((e :: rest).getLast (by simp)).index)

def lastIndex (entries : List Entry) : Nat := (firstLast entries).2

/-- `index + 1` on `uint64`. -/
def indexAfter (index : Nat) : Nat := if index = maxUint64 then 0 else index + 1

namespace MemStorage

def empty : MemStorage := ⟨⟨0, 0⟩, []⟩

def cut (entries : List Entry) (index : Nat) : List Entry :=
  entries.takeWhile (fun e => e.index < index)

def save (s : MemStorage) (hs : Option HardState) (entries : List Entry) : MemStorage where
  hard := hs.getD s.hard
  entries := match entries with
    | [] => s.entries
    | e :: _ => cut s.entries e.index ++ entries

def firstIndex (s : MemStorage) : Nat := (firstLast s.entries).1

def lastIndex (s : MemStorage) : Nat := (firstLast s.entries).2

def getEntries (s : MemStorage) (lo hi : Nat) : Option (List Entry) :=
  let (first, last) := firstLast s.entries
  if lo > hi || lo < first || hi > indexAfter last then none
  else some ((s.entries.drop (lo - first)).take (hi - lo))

end MemStorage

inductive LogRecord
  | hardState (hs : HardState)
  | truncate (fromIndex : Nat)
  | entries (entries : List Entry)
  | unsupported
  deriving DecidableEq, Repr

def entryRecords (entries : List Entry) (last : Nat) : List LogRecord :=
  match entries with
  | [] => []
  | e :: _ =>
    (if e.index ≤ last then [LogRecord.truncate e.index] else []) ++ [LogRecord.entries entries]

def batchRecords (hs : Option HardState) (entries : List Entry) (last : Nat) : List LogRecord :=
  (hs.map LogRecord.hardState).toList ++ entryRecords entries last

def LogRecord.apply (s : MemStorage) : LogRecord → MemStorage
  | .hardState hs => { s with hard := hs }
  | .truncate fromIndex => { s with entries := MemStorage.cut s.entries fromIndex }
  | .entries incoming => s.save none incoming
  | .unsupported => s

def replay (s : MemStorage) (records : List LogRecord) : MemStorage :=
  records.foldl LogRecord.apply s

def MemStorage.tornSave (s : MemStorage) (hs : Option HardState) (entries : List Entry) (k : Nat) :
    MemStorage :=
  replay s ((batchRecords hs entries s.lastIndex).take k)

theorem MemStorage.cut_cut (entries : List Entry) (index : Nat) :
    cut (cut entries index) index = cut entries index :=
  List.takeWhile_idem

theorem replay_entryRecords (s : MemStorage) (entries : List Entry) (k : Nat) :
    replay s ((entryRecords entries s.lastIndex).take k) = s ∨
      (∃ e, entries.head? = some e ∧ e.index ≤ s.lastIndex ∧
        replay s ((entryRecords entries s.lastIndex).take k) =
          ⟨s.hard, MemStorage.cut s.entries e.index⟩) ∨
      replay s ((entryRecords entries s.lastIndex).take k) = s.save none entries := by
  cases entries with
  | nil =>
    left
    rw [entryRecords, List.take_nil]
    rfl
  | cons e rest =>
    rw [entryRecords]
    by_cases hover : e.index ≤ s.lastIndex
    · rw [if_pos hover]
      match k with
      | 0 => exact .inl rfl
      | 1 => exact .inr (.inl ⟨e, rfl, hover, rfl⟩)
      | k + 2 =>
        right
        right
        rw [List.take_of_length_le (by simp)]
        show MemStorage.mk s.hard
          (MemStorage.cut (MemStorage.cut s.entries e.index) e.index ++ e :: rest) = _
        rw [MemStorage.cut_cut]
        rfl
    · rw [if_neg hover]
      match k with
      | 0 => exact .inl rfl
      | k + 1 =>
        right
        right
        rw [List.take_of_length_le (by simp)]
        rfl

theorem MemStorage.tornSave_cases (s : MemStorage) (hs : Option HardState) (entries : List Entry)
    (k : Nat) :
    s.tornSave hs entries k = s ∨ s.tornSave hs entries k = ⟨hs.getD s.hard, s.entries⟩ ∨
      (∃ e, entries.head? = some e ∧ e.index ≤ s.lastIndex ∧
        s.tornSave hs entries k = ⟨hs.getD s.hard, cut s.entries e.index⟩) ∨
      s.tornSave hs entries k = s.save hs entries := by
  cases hs with
  | none =>
    rcases replay_entryRecords s entries k with h | h | h
    · exact .inl h
    · exact .inr (.inr (.inl h))
    · exact .inr (.inr (.inr h))
  | some hard =>
    cases k with
    | zero => exact .inl rfl
    | succ k =>
      rcases replay_entryRecords ⟨hard, s.entries⟩ entries k with h | h | h
      · exact .inr (.inl h)
      · exact .inr (.inr (.inl h))
      · exact .inr (.inr (.inr h))

end MiniQuorum.Storage
