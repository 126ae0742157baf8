import Mathlib.Algebra.Group.Nat.Defs
import Mathlib.Data.List.Basic

/-! Serialisation of messages, and self-delimiting codes that give concrete instances. -/

namespace MiniQuorum.Codec

structure Marshaler (α : Type*) where
  marshal : α → List UInt8
  unmarshal : List UInt8 → Option α

def Marshaler.RoundTrips {α : Type*} (m : Marshaler α) : Prop :=
  ∀ a, m.unmarshal (m.marshal a) = some a

/-- A code whose words read back from the front of any byte string. -/
structure Wire (α : Type*) where
  put : α → List UInt8
  get : List UInt8 → Option (α × List UInt8)
  get_put : ∀ a rest, get (put a ++ rest) = some (a, rest)

namespace Wire

variable {α β : Type*}

def unit : Wire Unit where
  put _ := []
  get bytes := some ((), bytes)
  get_put _ _ := rfl

def byte : Wire UInt8 where
  put b := [b]
  get
    | [] => none
    | b :: rest => some (b, rest)
  get_put _ _ := rfl

def getNat : List UInt8 → Option (Nat × List UInt8)
  | [] => none
  | b :: rest => if b = 0 then (getNat rest).map fun r => (r.1 + 1, r.2) else some (0, rest)

def nat : Wire Nat where
  put n := List.replicate n 0 ++ [1]
  get := getNat
  get_put n rest := by
    induction n with
    | zero => rfl
    | succ n ih =>
      rw [List.replicate_succ, List.cons_append, List.cons_append, getNat, if_pos rfl, ih]
      rfl

def pair (a : Wire α) (b : Wire β) : Wire (α × β) where
  put x := a.put x.1 ++ b.put x.2
  get bytes := (a.get bytes).bind fun x => (b.get x.2).map fun y => ((x.1, y.1), y.2)
  get_put x rest := by simp [a.get_put, b.get_put]

def sum (a : Wire α) (b : Wire β) : Wire (α ⊕ β) where
  put
    | .inl x => 0 :: a.put x
    | .inr y => 1 :: b.put y
  get
    | [] => none
    | tag :: rest =>
      if tag = 0 then (a.get rest).map fun r => (.inl r.1, r.2)
      else (b.get rest).map fun r => (.inr r.1, r.2)
  get_put x rest := by
    cases x with
    | inl x => simp [a.get_put]
    | inr y => simp [b.get_put]

def getList (a : Wire α) : Nat → List UInt8 → Option (List α × List UInt8)
  | 0, bytes => some ([], bytes)
  | n + 1, bytes =>
    (a.get bytes).bind fun x => (getList a n x.2).map fun xs => (x.1 :: xs.1, xs.2)

theorem getList_put (a : Wire α) (xs : List α) (rest : List UInt8) :
    a.getList xs.length (xs.flatMap a.put ++ rest) = some (xs, rest) := by
  induction xs with
  | nil => rfl
  | cons x xs ih => simp [getList, a.get_put, ih]

def list (a : Wire α) : Wire (List α) where
  put xs := nat.put xs.length ++ xs.flatMap a.put
  get bytes := (nat.get bytes).bind fun n => a.getList n.1 n.2
  get_put xs rest := by simp [nat.get_put, getList_put]

def putVarint (n : Nat) : List UInt8 :=
  if n < 128 then [UInt8.ofNat n] else UInt8.ofNat (128 + n % 128) :: putVarint (n / 128)

def getVarint : List UInt8 → Option (Nat × List UInt8)
  | [] => none
  | b :: rest =>
    if b.toNat < 128 then some (b.toNat, rest)
    else (getVarint rest).map fun r => (b.toNat - 128 + 128 * r.1, r.2)

def varint : Wire Nat where
  put := putVarint
  get := getVarint
  get_put n rest := by
    induction n using Nat.strongRecOn with
    | _ n ih =>
      rw [putVarint]
      split
      · rename_i hn
        have hbyte : (UInt8.ofNat n).toNat = n := by
          rw [UInt8.toNat_ofNat']
          omega
        rw [List.singleton_append, getVarint, hbyte, if_pos hn]
      · have hbyte : (UInt8.ofNat (128 + n % 128)).toNat = 128 + n % 128 := by
          rw [UInt8.toNat_ofNat']
          omega
        have hdiv : 128 + n % 128 - 128 + 128 * (n / 128) = n := by omega
        rw [List.cons_append, getVarint, hbyte, if_neg (by omega), ih (n / 128) (by omega)]
        simp only [Option.map_some, hdiv]

theorem length_putVarint_le {k n : Nat} (h : n < 128 ^ (k + 1)) :
    (putVarint n).length ≤ k + 1 := by
  induction k generalizing n with
  | zero =>
    rw [putVarint, if_pos (by simpa using h)]
    exact Nat.le_refl 1
  | succ k ih =>
    rw [putVarint]
    split
    · exact Nat.le_add_left 1 _
    · have hdiv : n / 128 < 128 ^ (k + 1) := by
        rw [Nat.div_lt_iff_lt_mul (by omega), ← Nat.pow_succ]
        exact h
      exact Nat.succ_le_succ (ih hdiv)

def bytes : Wire (List UInt8) where
  put xs := varint.put xs.length ++ xs
  get input := (varint.get input).bind fun n =>
    if n.2.length < n.1 then none else some (n.2.take n.1, n.2.drop n.1)
  get_put xs rest := by simp [varint.get_put]

def imap (a : Wire α) (f : α → β) (g : β → α) (h : ∀ y, f (g y) = y) : Wire β where
  put y := a.put (g y)
  get bytes := (a.get bytes).map fun r => (f r.1, r.2)
  get_put y rest := by simp [a.get_put, h]

def marshaler (a : Wire α) : Marshaler α where
  marshal := a.put
  unmarshal bytes := (a.get bytes).map Prod.fst

theorem marshaler_roundTrips (a : Wire α) : a.marshaler.RoundTrips := by
  intro x
  have := a.get_put x []
  rw [List.append_nil] at this
  simp [marshaler, this]

end Wire

end MiniQuorum.Codec
