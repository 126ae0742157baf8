import MiniQuorum.Codec.Wire
import MiniQuorum.Consensus.Linearizability
import MiniQuorum.Raft.Types
import Mathlib.Data.Finmap

/-! The in-memory key/value state machine with per-client deduplication, and the
sequential map it implements. -/

namespace MiniQuorum.StateMachine

open Raft Codec Consensus

inductive Op
  | unspecified | put | delete | get
  | unrecognized (value : Int)
  deriving DecidableEq, Repr

structure Command where
  clientId : UInt64
  seq : UInt64
  op : Op
  key : Bytes
  value : Bytes
  deriving DecidableEq, Repr

structure Result where
  value : Bytes
  found : Bool
  deriving DecidableEq, Repr

def Result.zero : Result := ⟨[], false⟩

structure DedupRecord where
  lastSeq : UInt64
  lastResult : Result
  deriving DecidableEq, Repr

inductive ApplyError
  | nilEntry
  | decodeCommand
  | unsupportedOp (op : Op)
  | unsupportedType (type : EntryType)
  deriving DecidableEq, Repr

/-- A byte slice of the source is a list here, so nil and empty slices coincide. -/
structure MapStateMachine where
  values : Finmap fun _ : Bytes => Bytes
  dedup : Finmap fun _ : UInt64 => DedupRecord
  applied : Nat

namespace MapStateMachine

def new : MapStateMachine := ⟨∅, ∅, 0⟩

def advanceAppliedIndex (m : MapStateMachine) (index : Nat) : MapStateMachine :=
  if index > m.applied then { m with applied := index } else m

def execute (m : MapStateMachine) (command : Command) :
    Except ApplyError (MapStateMachine × Result) :=
  match command.op with
  | .put => .ok ({ m with values := m.values.insert command.key command.value }, .zero)
  | .delete => .ok ({ m with values := m.values.erase command.key }, .zero)
  | .get =>
    let value := m.values.lookup command.key
    .ok (m, ⟨value.getD [], value.isSome⟩)
  | op => .error (.unsupportedOp op)

def duplicate (m : MapStateMachine) (command : Command) : Option Result :=
  match m.dedup.lookup command.clientId with
  | some record => if command.seq ≤ record.lastSeq then some record.lastResult else none
  | none => none

def applyCommand (m : MapStateMachine) (command : Command) (index : Nat) :
    Except ApplyError (MapStateMachine × Result) :=
  match m.duplicate command with
  | some result => .ok (m.advanceAppliedIndex index, result)
  | none =>
    match m.execute command with
    | .error err => .error err
    | .ok (executed, result) =>
      let recorded :=
        { executed with dedup := executed.dedup.insert command.clientId ⟨command.seq, result⟩ }
      .ok (recorded.advanceAppliedIndex index, result)

def apply (codec : Marshaler Command) (m : MapStateMachine) :
    Option Entry → Except ApplyError (MapStateMachine × Result)
  | none => .error .nilEntry
  | some entry =>
    match entry.type with
    | .noop => .ok (m.advanceAppliedIndex entry.index, .zero)
    | .normal =>
      match codec.unmarshal entry.data with
      | none => .error .decodeCommand
      | some command => m.applyCommand command entry.index
    | type => .error (.unsupportedType type)

def read (m : MapStateMachine) (key : Bytes) : Result :=
  let value := m.values.lookup key
  ⟨value.getD [], value.isSome⟩

def run (codec : Marshaler Command) (entries : List Entry) : Except ApplyError MapStateMachine :=
  entries.foldlM (fun m e => (m.apply codec (some e)).map Prod.fst) new

end MapStateMachine

inductive MapOp
  | put (key value : Bytes)
  | delete (key : Bytes)
  | get (key : Bytes)
  deriving DecidableEq, Repr

def mapSpec : SeqSpec (Bytes → Option Bytes) MapOp Result where
  init _ := none
  step m
    | .put key value => (Function.update m key (some value), .zero)
    | .delete key => (Function.update m key none, .zero)
    | .get key => (m, ⟨(m key).getD [], (m key).isSome⟩)

def Command.mapOp (command : Command) : Option MapOp :=
  match command.op with
  | .put => some (.put command.key command.value)
  | .delete => some (.delete command.key)
  | .get => some (.get command.key)
  | _ => none

structure OpID where
  client : UInt64
  seq : UInt64
  deriving DecidableEq, Repr

def Command.id (command : Command) : OpID := ⟨command.clientId, command.seq⟩

namespace MapStateMachine

variable {m m' : MapStateMachine} {command : Command} {r : Result}

@[simp] theorem advanceAppliedIndex_values (m : MapStateMachine) (index : Nat) :
    (m.advanceAppliedIndex index).values = m.values := by
  rw [advanceAppliedIndex]
  split <;> rfl

@[simp] theorem advanceAppliedIndex_dedup (m : MapStateMachine) (index : Nat) :
    (m.advanceAppliedIndex index).dedup = m.dedup := by
  rw [advanceAppliedIndex]
  split <;> rfl

@[simp] theorem advanceAppliedIndex_applied (m : MapStateMachine) (index : Nat) :
    (m.advanceAppliedIndex index).applied = max m.applied index := by
  rw [advanceAppliedIndex]
  split
  · rename_i h
    exact (max_eq_right h.le).symm
  · rename_i h
    exact (max_eq_left (Nat.le_of_not_gt h)).symm

def store (m : MapStateMachine) : Bytes → Option Bytes := fun key => m.values.lookup key

theorem execute_eq_ok (h : m.execute command = .ok (m', r)) :
    ∃ op, command.mapOp = some op ∧ mapSpec.step m.store op = (m'.store, r) ∧
      m'.dedup = m.dedup ∧ m'.applied = m.applied := by
  rw [execute] at h
  rw [Command.mapOp]
  split at h
  · cases h
    refine ⟨_, rfl, ?_, rfl, rfl⟩
    refine Prod.ext (funext fun key => ?_) rfl
    by_cases hk : key = command.key
    · subst hk
      simp [mapSpec, store]
    · simp [mapSpec, store, hk]
  · cases h
    refine ⟨_, rfl, ?_, rfl, rfl⟩
    refine Prod.ext (funext fun key => ?_) rfl
    by_cases hk : key = command.key
    · subst hk
      simp [mapSpec, store]
    · simp [mapSpec, store, hk]
  · cases h
    exact ⟨_, rfl, rfl, rfl, rfl⟩
  · cases h

theorem execute_isOk {op : MapOp} (h : command.mapOp = some op) :
    ∃ m' r, m.execute command = .ok (m', r) := by
  rw [Command.mapOp] at h
  rw [execute]
  split at h
  · exact ⟨_, _, rfl⟩
  · exact ⟨_, _, rfl⟩
  · exact ⟨_, _, rfl⟩
  · cases h

theorem apply_applied {codec : Marshaler Command} {e : Entry}
    (h : m.apply codec (some e) = .ok (m', r)) : m'.applied = max m.applied e.index := by
  rw [apply] at h
  split at h
  · cases h
    simp
  · split at h
    · cases h
    · rw [applyCommand] at h
      split at h
      · cases h
        simp
      · split at h
        · cases h
        · rename_i hexec
          cases h
          obtain ⟨_, _, _, _, happlied⟩ := execute_eq_ok hexec
          simp [happlied]
  · cases h

end MapStateMachine

/-! ### A serialisation of commands -/

def opWire : Wire Op :=
  (Wire.sum (.sum .unit .unit) (.sum (.sum .unit .unit) (.sum .nat .nat))).imap
    (fun
      | .inl (.inl ()) => .unspecified
      | .inl (.inr ()) => .put
      | .inr (.inl (.inl ())) => .delete
      | .inr (.inl (.inr ())) => .get
      | .inr (.inr (.inl n)) => .unrecognized (Int.ofNat n)
      | .inr (.inr (.inr n)) => .unrecognized (Int.negSucc n))
    (fun
      | .unspecified => .inl (.inl ())
      | .put => .inl (.inr ())
      | .delete => .inr (.inl (.inl ()))
      | .get => .inr (.inl (.inr ()))
      | .unrecognized (Int.ofNat n) => .inr (.inr (.inl n))
      | .unrecognized (Int.negSucc n) => .inr (.inr (.inr n)))
    (by
      intro op
      cases op with
      | unrecognized n => cases n <;> rfl
      | _ => rfl)

def uint64Wire : Wire UInt64 := Wire.nat.imap UInt64.ofNat UInt64.toNat fun _ => UInt64.ofNat_toNat

def commandWire : Wire Command :=
  (Wire.pair (.pair uint64Wire uint64Wire) (.pair opWire (.pair (.list .byte) (.list .byte)))).imap
    (fun x => ⟨x.1.1, x.1.2, x.2.1, x.2.2.1, x.2.2.2⟩)
    (fun c => ((c.clientId, c.seq), (c.op, (c.key, c.value)))) fun _ => rfl

end MiniQuorum.StateMachine
