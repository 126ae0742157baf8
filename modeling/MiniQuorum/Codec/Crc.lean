import Mathlib.Logic.Function.Iterate

/-! Reflected cyclic redundancy codes, computed a byte at a time from a table. -/

namespace MiniQuorum.Crc

variable {w : Nat}

def shift (poly x : BitVec w) : BitVec w :=
  if x.getLsbD 0 then (x >>> 1) ^^^ poly else x >>> 1

def tableEntry (poly : BitVec w) (index : BitVec 8) : BitVec w :=
  (shift poly)^[8] (index.setWidth w)

def update (poly crc : BitVec w) (byte : UInt8) : BitVec w :=
  tableEntry poly (crc.setWidth 8 ^^^ byte.toBitVec) ^^^ (crc >>> 8)

def checksum (poly : BitVec w) (data : List UInt8) : BitVec w :=
  ~~~(data.foldl (update poly) (BitVec.allOnes w))

section Linear

variable (poly : BitVec w)

theorem shift_xor (x y : BitVec w) : shift poly (x ^^^ y) = shift poly x ^^^ shift poly y := by
  simp only [shift, BitVec.getLsbD_xor, BitVec.ushiftRight_xor_distrib]
  cases x.getLsbD 0 <;> cases y.getLsbD 0
  · simp
  · simp [BitVec.xor_assoc]
  · simp only [Bool.xor_false, ↓reduceIte, Bool.false_eq_true]
    ac_rfl
  · simp only [bne_self_eq_false, Bool.false_eq_true, ↓reduceIte]
    rw [show x >>> 1 ^^^ poly ^^^ (y >>> 1 ^^^ poly) = x >>> 1 ^^^ y >>> 1 ^^^ (poly ^^^ poly) by
      ac_rfl, BitVec.xor_self, BitVec.xor_zero]

theorem iterate_shift_xor (n : Nat) (x y : BitVec w) :
    (shift poly)^[n] (x ^^^ y) = (shift poly)^[n] x ^^^ (shift poly)^[n] y := by
  induction n generalizing x y with
  | zero => rfl
  | succ n ih => simp only [Function.iterate_succ_apply, shift_xor, ih]

theorem iterate_shift_clear (n : Nat) (x : BitVec w) (hx : ∀ i < n, x.getLsbD i = false) :
    (shift poly)^[n] x = x >>> n := by
  induction n with
  | zero => simp
  | succ n ih =>
    have hlow : (x >>> n).getLsbD 0 = false := by simpa using hx n (by omega)
    rw [Function.iterate_succ_apply', ih fun i hi => hx i (by omega), shift, hlow,
      BitVec.shiftRight_add]
    rfl

theorem shift_injective (hp : poly.msb = true) : Function.Injective (shift poly) := by
  intro x y h
  have hw : 0 < w := by
    rcases Nat.eq_zero_or_pos w with rfl | hw
    · simp [BitVec.of_length_zero] at hp
    · exact hw
  have hmsb (z : BitVec w) : (shift poly z).msb = z.getLsbD 0 := by
    rw [shift]
    cases hz : z.getLsbD 0 <;> simp [hp, BitVec.msb_ushiftRight]
  have hlow : x.getLsbD 0 = y.getLsbD 0 := by rw [← hmsb, ← hmsb, h]
  have hhigh : x >>> 1 = y >>> 1 := by
    simp only [shift, ← hlow] at h
    cases hx : x.getLsbD 0
    · simpa [hx] using h
    · simpa [hx] using h
  apply BitVec.eq_of_getLsbD_eq
  intro i _
  cases i with
  | zero => exact hlow
  | succ i =>
    have := congrArg (fun z => z.getLsbD i) hhigh
    simpa [Nat.add_comm 1] using this

end Linear

theorem update_eq (poly crc : BitVec w) (byte : UInt8) :
    update poly crc byte = (shift poly)^[8] (crc ^^^ byte.toBitVec.setWidth w) := by
  have hsplit : crc ^^^ byte.toBitVec.setWidth w =
      (crc.setWidth 8 ^^^ byte.toBitVec).setWidth w ^^^ ((crc >>> 8) <<< 8) := by
    apply BitVec.eq_of_getLsbD_eq
    intro i hi
    simp only [BitVec.getLsbD_xor, BitVec.getLsbD_setWidth, BitVec.getLsbD_shiftLeft,
      BitVec.getLsbD_ushiftRight]
    by_cases h8 : i < 8
    · simp [h8, hi]
    · have hb : byte.toBitVec.getLsbD i = false := BitVec.getLsbD_of_ge _ _ (by omega)
      simp [h8, hi, hb, show 8 + (i - 8) = i by omega]
  have hclear : (shift poly)^[8] ((crc >>> 8) <<< 8) = ((crc >>> 8) <<< 8) >>> 8 := by
    apply iterate_shift_clear
    intro i hi
    simp [hi]
  have hback : ((crc >>> 8) <<< 8) >>> 8 = crc >>> 8 := by
    apply BitVec.eq_of_getLsbD_eq
    intro i _
    simp only [BitVec.getLsbD_ushiftRight, BitVec.getLsbD_shiftLeft]
    by_cases h : 8 + i < w
    · simp [h]
    · simp [h, BitVec.getLsbD_of_ge crc (8 + i) (by omega)]
  rw [hsplit, iterate_shift_xor, hclear, hback]
  rfl

section Detection

variable {poly : BitVec w} (hp : poly.msb = true)

include hp

theorem update_injective_crc (byte : UInt8) : Function.Injective (update poly · byte) := by
  intro x y h
  simp only [update_eq] at h
  have hxor := (shift_injective poly hp).iterate 8 h
  exact (BitVec.xor_left_inj _).mp hxor

theorem update_injective_byte (hw : 8 ≤ w) (crc : BitVec w) : Function.Injective (update poly crc) := by
  intro a b h
  simp only [update_eq] at h
  have hxor := (BitVec.xor_right_inj _).mp ((shift_injective poly hp).iterate 8 h)
  have hbits : a.toBitVec = b.toBitVec := by
    have := congrArg (BitVec.setWidth 8) hxor
    simpa [BitVec.setWidth_setWidth_of_le _ hw] using this
  exact UInt8.eq_of_toBitVec_eq hbits

theorem foldl_update_injective (data : List UInt8) :
    Function.Injective (data.foldl (update poly)) := by
  induction data with
  | nil => exact Function.injective_id
  | cons b data ih =>
    intro x y h
    exact update_injective_crc hp b (ih h)

theorem checksum_ne (hw : 8 ≤ w) (before after : List UInt8) {a b : UInt8} (hab : a ≠ b) :
    checksum poly (before ++ a :: after) ≠ checksum poly (before ++ b :: after) := by
  intro h
  simp only [checksum, BitVec.not_inj, List.foldl_append, List.foldl_cons] at h
  exact hab (update_injective_byte hp hw _ (foldl_update_injective hp after h))

end Detection

end MiniQuorum.Crc
