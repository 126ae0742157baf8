import Mathlib.Data.List.Forall2
import Mathlib.Data.Stream.Defs

/-! Programs that draw random numbers, and what they return whatever is drawn. -/

namespace MiniQuorum.Program

structure RandomSource where
  ints : Stream' Nat
  floats : Stream' Float

abbrev Draw := StateT RandomSource Option

namespace Draw

variable {α β : Type}

def intn (n : Nat) : Draw Nat := fun r =>
  if n = 0 then none else some (r.ints.head % n, { r with ints := r.ints.tail })

def float64 : Draw Float := fun r => some (r.floats.head, { r with floats := r.floats.tail })

def elementAt (l : List α) (i : Nat) : Draw α := fun r => l[i]?.map fun a => (a, r)

def pick (l : List α) : Draw α := do
  let i ← intn l.length
  elementAt l i

def shuffleFrom : Nat → Array α → Draw (Array α)
  | 0, a => return a
  | i + 1, a => do
    let j ← intn (i + 2)
    shuffleFrom i (a.swapIfInBounds (i + 1) j)

def shuffle (l : List α) : Draw (List α) := do
  let a ← shuffleFrom (l.length - 1) l.toArray
  return a.toList

def times : Nat → Draw α → Draw (List α)
  | 0, _ => return []
  | n + 1, x => do
    let a ← x
    let rest ← times n x
    return a :: rest

def Always (x : Draw α) (Q : α → Prop) : Prop := ∀ r, ∃ a r', x r = some (a, r') ∧ Q a

namespace Always

variable {x : Draw α} {Q Q' : α → Prop} {R : β → Prop}

theorem pure {a : α} (h : Q a) : Always (Pure.pure a) Q := fun r => ⟨a, r, rfl, h⟩

theorem mono (h : Always x Q) (hQ : ∀ a, Q a → Q' a) : Always x Q' := by
  intro r
  obtain ⟨a, r', hrun, ha⟩ := h r
  exact ⟨a, r', hrun, hQ a ha⟩

theorem bind {f : α → Draw β} (h : Always x Q) (hf : ∀ a, Q a → Always (f a) R) :
    Always (x >>= f) R := by
  intro r
  obtain ⟨a, r', hrun, ha⟩ := h r
  obtain ⟨b, r'', hrun', hb⟩ := hf a ha r'
  refine ⟨b, r'', ?_, hb⟩
  show (x r).bind (fun y => f y.1 y.2) = _
  rw [hrun]
  exact hrun'

theorem ite {c : Prop} [Decidable c] {y : Draw α} (hx : c → Always x Q) (hy : ¬c → Always y Q) :
    Always (if c then x else y) Q := by
  split
  · next h => exact hx h
  · next h => exact hy h

theorem mapM {f : β → Draw α} {P : β → α → Prop} {l : List β} (hf : ∀ b ∈ l, Always (f b) (P b)) :
    Always (l.mapM f) (List.Forall₂ P l) := by
  induction l with
  | nil => exact pure .nil
  | cons b l ih =>
    rw [List.forall_mem_cons] at hf
    rw [List.mapM_cons]
    exact bind hf.1 fun a ha => bind (ih hf.2) fun as has => pure (.cons ha has)

theorem times (h : Always x Q) (n : Nat) : Always (Draw.times n x) fun l => ∀ a ∈ l, Q a := by
  induction n with
  | zero => exact pure (by simp)
  | succ n ih =>
    exact bind h fun a ha => bind ih fun rest hrest => pure (List.forall_mem_cons.2 ⟨ha, hrest⟩)

end Always

theorem always_intn {n : Nat} (hn : 0 < n) : Always (intn n) (· < n) := by
  intro r
  exact ⟨_, _, if_neg (Nat.ne_of_gt hn), Nat.mod_lt _ hn⟩

theorem always_float64 : Always float64 fun _ => True := fun _ => ⟨_, _, rfl, trivial⟩

theorem always_elementAt {l : List α} {i : Nat} (hi : i < l.length) :
    Always (elementAt l i) fun a => l[i]? = some a := by
  intro r
  refine ⟨l[i], r, ?_, List.getElem?_eq_getElem hi⟩
  rw [elementAt, List.getElem?_eq_getElem hi]
  rfl

theorem always_pick {l : List α} (hl : l ≠ []) : Always (pick l) (· ∈ l) :=
  (always_intn (List.length_pos_iff.2 hl)).bind fun _ hi =>
    (always_elementAt hi).mono fun _ ha => List.mem_of_getElem? ha

theorem always_shuffleFrom {i : Nat} (a : Array α) :
    Always (shuffleFrom i a) fun b => b.Perm a := by
  induction i generalizing a with
  | zero => exact .pure (.refl a)
  | succ i ih =>
    refine (always_intn (Nat.succ_pos _)).bind fun j _ => (ih _).mono fun b hb => hb.trans ?_
    rw [Array.swapIfInBounds]
    split
    · split
      · exact Array.swap_perm _ _
      · exact .refl a
    · exact .refl a

theorem always_shuffle (l : List α) : Always (shuffle l) fun l' => l'.Perm l :=
  (always_shuffleFrom l.toArray).bind fun _ ha => .pure ha.toList

end Draw

end MiniQuorum.Program
