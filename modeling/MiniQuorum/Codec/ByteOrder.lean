import Mathlib.Data.List.Lex

/-! Bytes in their numeric order, and byte strings in lexicographic order. -/

instance byteOrder : LinearOrder UInt8 where
  le_refl := UInt8.le_refl
  le_trans _ _ _ := UInt8.le_trans
  le_antisymm _ _ := UInt8.le_antisymm
  le_total := UInt8.le_total
  lt_iff_le_not_ge a b := by
    constructor
    · intro h
      exact ⟨UInt8.le_of_lt h, UInt8.not_le.2 h⟩
    · rintro ⟨-, h⟩
      exact UInt8.not_le.1 h
  toDecidableLE := inferInstance
  toDecidableLT := inferInstance
  toDecidableEq := inferInstance

example : ([1, 2] : List UInt8) < [2] := by decide

example : ¬([2] : List UInt8) ≤ [1, 255] := by decide
