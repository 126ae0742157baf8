import MiniQuorum.Codec.Frame

/-! Unsigned variable-length integers: seven bits a byte, lowest first, at most ten bytes. -/

namespace MiniQuorum.Codec

def putUvarintFrom : Nat → Nat → List UInt8
  | 0, _ => []
  | k + 1, n =>
    if n < 128 then [UInt8.ofNat n] else UInt8.ofNat (n % 128 + 128) :: putUvarintFrom k (n / 128)

def putUvarint (n : Nat) : List UInt8 := putUvarintFrom 10 n

/-- The value and the bytes after it, `i` bytes into the integer.  `none` for an integer
that ends early or does not fit in 64 bits. -/
def uvarintFrom (i : Nat) : List UInt8 → Option (Nat × List UInt8)
  | [] => none
  | b :: rest =>
    if i = 10 then none
    else if b.toNat < 128 then
      if i = 9 ∧ b.toNat > 1 then none else some (b.toNat, rest)
    else (uvarintFrom (i + 1) rest).map fun r => (b.toNat - 128 + 128 * r.1, r.2)

def uvarint (bytes : List UInt8) : Option (Nat × List UInt8) := uvarintFrom 0 bytes

theorem uvarintFrom_putUvarintFrom (k i n : Nat) (hk : i + k = 10) (hn : n * 128 ^ i < 2 ^ 64)
    (hpos : 0 < k) (rest : List UInt8) :
    uvarintFrom i (putUvarintFrom k n ++ rest) = some (n, rest) := by
  induction k generalizing i n with
  | zero => omega
  | succ k ih =>
    have hten : i ≠ 10 := by omega
    rw [putUvarintFrom]
    by_cases hsmall : n < 128
    · have hbyte : (UInt8.ofNat n).toNat = n := by
        rw [UInt8.toNat_ofNat']
        omega
      have hlast : ¬(i = 9 ∧ n > 1) := by
        rintro ⟨rfl, hbig⟩
        norm_num at hn
        omega
      rw [if_pos hsmall, List.singleton_append, uvarintFrom, if_neg hten, hbyte, if_pos hsmall,
        if_neg hlast]
    · have hbyte : (UInt8.ofNat (n % 128 + 128)).toNat = n % 128 + 128 := by
        rw [UInt8.toNat_ofNat']
        omega
      have hnext : n / 128 * 128 ^ (i + 1) < 2 ^ 64 := by
        calc n / 128 * 128 ^ (i + 1) = n / 128 * 128 * 128 ^ i := by ring
          _ ≤ n * 128 ^ i := Nat.mul_le_mul_right _ (Nat.div_mul_le_self n 128)
          _ < 2 ^ 64 := hn
      have hmore : 0 < k := by
        rcases Nat.eq_zero_or_pos k with rfl | hk
        · obtain rfl : i = 9 := by omega
          norm_num at hn
          omega
        · exact hk
      rw [if_neg hsmall, List.cons_append, uvarintFrom, if_neg hten, hbyte, if_neg (by omega),
        ih (i + 1) (n / 128) (by omega) hnext hmore, Option.map_some]
      have hvalue : n % 128 + 128 - 128 + 128 * (n / 128) = n := by omega
      simp only [hvalue]

variable {n : Nat} {bytes rest : List UInt8}

theorem uvarint_putUvarint (hn : n < 2 ^ 64) (rest : List UInt8) :
    uvarint (putUvarint n ++ rest) = some (n, rest) :=
  uvarintFrom_putUvarintFrom 10 0 n rfl (by simpa using hn) (by decide) rest

theorem putUvarint_ne_nil (n : Nat) : putUvarint n ≠ [] := by
  rw [putUvarint, putUvarintFrom]
  split <;> simp

theorem uvarintFrom_length {i : Nat}
    (h : uvarintFrom i bytes = some (n, rest)) : rest.length < bytes.length := by
  induction bytes generalizing i n with
  | nil => cases h
  | cons b bytes ih =>
    rw [uvarintFrom] at h
    split at h
    · cases h
    · split at h
      · split at h
        · cases h
        · cases h
          simp
      · obtain ⟨r, hr, heq⟩ := Option.map_eq_some_iff.1 h
        cases heq
        have := ih hr
        simp only [List.length_cons]
        omega

theorem uvarint_length (h : uvarint bytes = some (n, rest)) :
    rest.length < bytes.length :=
  uvarintFrom_length h

theorem uvarintFrom_isSuffix {i : Nat}
    (h : uvarintFrom i bytes = some (n, rest)) : rest <:+ bytes := by
  induction bytes generalizing i n with
  | nil => cases h
  | cons b bytes ih =>
    rw [uvarintFrom] at h
    split at h
    · cases h
    · split at h
      · split at h
        · cases h
        · cases h
          exact List.suffix_cons _ _
      · obtain ⟨r, hr, heq⟩ := Option.map_eq_some_iff.1 h
        cases heq
        exact (ih hr).trans (List.suffix_cons _ _)

def uvarintSize (bytes : List UInt8) : Option (Nat × Nat) :=
  (uvarint bytes).map fun r => (r.1, bytes.length - r.2.length)

theorem uvarintSize_of_none (h : uvarint bytes = none) :
    uvarintSize bytes = none := by
  rw [uvarintSize, h, Option.map_none]

theorem uvarintSize_of_some (h : uvarint bytes = some (n, rest)) :
    uvarintSize bytes = some (n, bytes.length - rest.length) := by
  rw [uvarintSize, h, Option.map_some]

theorem uvarint_eq_drop (h : uvarint bytes = some (n, rest)) :
    bytes.drop (bytes.length - rest.length) = rest :=
  (List.suffix_iff_eq_drop.1 (uvarintFrom_isSuffix h)).symm

end MiniQuorum.Codec
