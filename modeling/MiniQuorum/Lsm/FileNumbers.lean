import MiniQuorum.Lsm.EngineState

/-! The numbers in table names: a name spells its number, and the next number is a new one. -/

namespace MiniQuorum.Lsm

open Codec Raft

/-! ### Digits -/

theorem isDigit_ofNat {d : Nat} (h : d < 10) : isDigit (UInt8.ofNat (0x30 + d)) = true := by
  interval_cases d <;> rfl

theorem toNat_digit {d : Nat} (h : d < 10) : (UInt8.ofNat (0x30 + d)).toNat - 0x30 = d := by
  interval_cases d <;> rfl

def readDigits (start : Nat) (stem : Bytes) : Nat :=
  stem.foldl (fun n b => n * 10 + (b.toNat - 0x30)) start

theorem readDigits_zeros (count : Nat) : readDigits 0 (List.replicate count 0x30) = 0 := by
  induction count with
  | zero => rfl
  | succ count ih => exact ih

theorem readDigits_digits {digits : List Nat} (h : ∀ d ∈ digits, d < 10) :
    readDigits 0 (digits.reverse.map fun d => UInt8.ofNat (0x30 + d)) = Nat.ofDigits 10 digits := by
  induction digits with
  | nil => rfl
  | cons d digits ih =>
    have hd := toNat_digit (h d (by simp))
    have ih := ih fun c hc => h c (by simp [hc])
    rw [readDigits] at ih
    rw [readDigits, List.reverse_cons, List.map_append, List.foldl_append, ih]
    simp only [List.map_cons, List.map_nil, List.foldl_cons, List.foldl_nil, hd, Nat.ofDigits_cons]
    omega

theorem formatNumber_eq (number : Nat) : ∃ count, formatNumber number =
    List.replicate count 0x30 ++
      (Nat.digits 10 number).reverse.map fun d => UInt8.ofNat (0x30 + d) :=
  ⟨_, rfl⟩

theorem formatNumber_ne_nil (number : Nat) : formatNumber number ≠ [] := by
  intro h
  have hlen := congrArg List.length h
  simp only [formatNumber, defaultFileNumberWidth, List.length_append, List.length_replicate,
    List.length_nil] at hlen
  omega

theorem all_isDigit_formatNumber (number : Nat) : (formatNumber number).all isDigit = true := by
  obtain ⟨count, hcount⟩ := formatNumber_eq number
  rw [hcount, List.all_append, Bool.and_eq_true, List.all_eq_true, List.all_eq_true]
  refine ⟨?_, ?_⟩
  · intro b hb
    rw [(List.mem_replicate.1 hb).2]
    rfl
  · intro b hb
    obtain ⟨d, hd, rfl⟩ := List.mem_map.1 hb
    exact isDigit_ofNat (Nat.digits_lt_base (by omega) (List.mem_reverse.1 hd))

theorem parseUint_formatNumber {number : Nat} (h : number ≤ maxUint64) :
    parseUint (formatNumber number) = some number := by
  have hread : readDigits 0 (formatNumber number) = number := by
    obtain ⟨count, hcount⟩ := formatNumber_eq number
    have hdigits := @readDigits_digits (Nat.digits 10 number)
      fun d hd => Nat.digits_lt_base (by omega) hd
    have hzeros := readDigits_zeros count
    rw [readDigits] at hzeros hdigits
    rw [hcount, readDigits, List.foldl_append, hzeros, hdigits, Nat.ofDigits_digits]
  rw [readDigits] at hread
  rw [parseUint, if_neg]
  · dsimp only
    rw [hread, if_neg (by omega)]
  · simp [formatNumber_ne_nil, all_isDigit_formatNumber]

/-! ### Names -/

theorem isSuffixOf_sstableFilename (number : Nat) :
    sstableFilenameSuffix.isSuffixOf (sstableFilename number) = true :=
  List.isSuffixOf_iff_suffix.2 (List.suffix_append _ _)

theorem sstableFilename_inj {a b : Nat} (ha : a ≤ maxUint64) (hb : b ≤ maxUint64)
    (h : sstableFilename a = sstableFilename b) : a = b := by
  have hformat : formatNumber a = formatNumber b := List.append_cancel_right h
  have hparse := parseUint_formatNumber ha
  rw [hformat, parseUint_formatNumber hb, Option.some.injEq] at hparse
  exact hparse.symm

theorem sstableFilename_ne_manifest (number : Nat) : sstableFilename number ≠ manifestFilename := by
  intro h
  have hsuffix := isSuffixOf_sstableFilename number
  rw [h] at hsuffix
  exact absurd hsuffix (by decide)

end MiniQuorum.Lsm
