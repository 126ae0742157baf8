import Mathlib.Algebra.Group.Int.Defs
import MiniQuorum.Program.Reading

/-! Computations with checked accesses.  Besides the errors they return they can trap, on an
index or a slice out of range or on a number that does not fit its type. -/

namespace MiniQuorum.Program

inductive Trap
  | index
  | slice
  | overflow
  deriving DecidableEq, Repr

inductive Halt (ε : Type)
  | error (e : ε)
  | trap (t : Trap)
  deriving DecidableEq, Repr

namespace Checked

variable {ε α β : Type}

def index (xs : List α) (i : Nat) : Except (Halt ε) α :=
  match xs[i]? with
  | some x => .ok x
  | none => .error (.trap .index)

def slice (xs : List α) (lo hi : Nat) : Except (Halt ε) (List α) :=
  if lo ≤ hi ∧ hi ≤ xs.length then .ok ((xs.take hi).drop lo) else .error (.trap .slice)

def sliceFrom (xs : List α) (lo : Nat) : Except (Halt ε) (List α) := slice xs lo xs.length

def sized : Option α → Except (Halt ε) α
  | some a => .ok a
  | none => .error (.trap .overflow)

def int64 (i : Int) : Except (Halt ε) Int :=
  if -2 ^ 63 ≤ i ∧ i < 2 ^ 63 then .ok i else .error (.trap .overflow)

def unsigned (i : Int) : Except (Halt ε) Nat :=
  if 0 ≤ i then .ok i.toNat else .error (.trap .overflow)

def sub (a b : Nat) : Except (Halt ε) Nat :=
  if b ≤ a then .ok (a - b) else .error (.trap .overflow)

def returned (x : Except ε α) : Except (Halt ε) α := x.mapError .error

@[simp] theorem returned_ok (a : α) : returned (.ok a : Except ε α) = .ok a := rfl

@[simp] theorem returned_error (e : ε) : returned (.error e : Except ε α) = .error (.error e) := rfl

theorem int64_of_le {i : Int} (h : -2 ^ 63 ≤ i) (h' : i < 2 ^ 63) :
    (int64 i : Except (Halt ε) Int) = .ok i :=
  if_pos ⟨h, h'⟩

theorem unsigned_of_nonneg {i : Int} (h : 0 ≤ i) :
    (unsigned i : Except (Halt ε) Nat) = .ok i.toNat :=
  if_pos h

theorem sub_of_le {a b : Nat} (h : b ≤ a) : (sub a b : Except (Halt ε) Nat) = .ok (a - b) :=
  if_pos h

theorem index_of_getElem? {xs : List α} {i : Nat} {x : α} (h : xs[i]? = some x) :
    (index xs i : Except (Halt ε) α) = .ok x := by
  rw [index, h]

theorem slice_of_le {xs : List α} {lo hi : Nat} (h : lo ≤ hi) (h' : hi ≤ xs.length) :
    (slice xs lo hi : Except (Halt ε) (List α)) = .ok ((xs.take hi).drop lo) :=
  if_pos ⟨h, h'⟩

theorem slice_front {xs : List α} {hi : Nat} (h : hi ≤ xs.length) :
    (slice xs 0 hi : Except (Halt ε) (List α)) = .ok (xs.take hi) :=
  slice_of_le (Nat.zero_le hi) h

theorem sliceFrom_of_le {xs : List α} {lo : Nat} (h : lo ≤ xs.length) :
    (sliceFrom xs lo : Except (Halt ε) (List α)) = .ok (xs.drop lo) := by
  rw [sliceFrom, slice_of_le h (Nat.le_refl _), List.take_length]

end Checked

end MiniQuorum.Program
