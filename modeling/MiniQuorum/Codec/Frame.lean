import Mathlib.Data.List.TakeWhile
import Mathlib.Tactic.Ring

/-! Marker-delimited frames.  A payload's length, checksum and bytes are spelled in sixteen
symbol bytes that no marker shares, so the end of a frame shows without its length. -/

namespace MiniQuorum.Codec

/-! ### Checked sizes -/

def maxUint32 : Nat := 2 ^ 32 - 1

def maxInt64 : Nat := 2 ^ 63 - 1

def checkedAdd (a b : Nat) : Option Nat := if 2 ^ 64 - 1 - a < b then none else some (a + b)

def checkedMul (a b : Nat) : Option Nat :=
  if a ≠ 0 ∧ b > (2 ^ 64 - 1) / a then none else some (a * b)

def checkedInt (n : Nat) : Option Nat := if n ≤ maxInt64 then some n else none

def checkedFrameSize (payloadSize : Nat) : Option Nat := do
  let bodySize ← checkedAdd 8 payloadSize
  let encodedSize ← checkedMul bodySize 2
  checkedAdd 2 encodedSize

theorem checkedAdd_of_le {a b : Nat} (h : a + b ≤ 2 ^ 64 - 1) : checkedAdd a b = some (a + b) :=
  if_neg (by omega)

theorem checkedMul_of_le {a b : Nat} (h : a * b ≤ 2 ^ 64 - 1) : checkedMul a b = some (a * b) := by
  refine if_neg fun ⟨ha, hb⟩ => ?_
  have : b ≤ (2 ^ 64 - 1) / a := (Nat.le_div_iff_mul_le (by omega)).mpr (by rwa [Nat.mul_comm])
  omega

theorem checkedInt_of_le {n : Nat} (h : n ≤ maxInt64) : checkedInt n = some n := if_pos h

theorem checkedFrameSize_of_le {n : Nat} (h : n ≤ maxUint32) :
    checkedFrameSize n = some (2 + (8 + n) * 2) := by
  have hbound : 2 + (8 + n) * 2 ≤ 2 ^ 64 - 1 := by
    simp only [maxUint32] at *
    omega
  simp only [checkedFrameSize, bind, Option.bind, checkedAdd_of_le (show 8 + n ≤ _ by omega),
    checkedMul_of_le (show (8 + n) * 2 ≤ _ by omega), checkedAdd_of_le hbound]

/-! ### Integers -/

def littleEndian : Nat → Nat → List UInt8
  | 0, _ => []
  | k + 1, n => UInt8.ofNat n :: littleEndian k (n / 256)

def ofLittleEndian : List UInt8 → Nat
  | [] => 0
  | b :: bs => b.toNat + 256 * ofLittleEndian bs

@[simp] theorem length_littleEndian (k n : Nat) : (littleEndian k n).length = k := by
  induction k generalizing n with
  | zero => rfl
  | succ k ih => simp [littleEndian, ih]

theorem ofLittleEndian_littleEndian (k n : Nat) :
    ofLittleEndian (littleEndian k n) = n % 256 ^ k := by
  induction k generalizing n with
  | zero => simp [littleEndian, ofLittleEndian, Nat.mod_one]
  | succ k ih =>
    simp only [littleEndian, ofLittleEndian, ih, UInt8.toNat_ofNat']
    rw [show 256 ^ (k + 1) = 256 * 256 ^ k by ring, Nat.mod_mul]

theorem ofLittleEndian_lt (bytes : List UInt8) : ofLittleEndian bytes < 256 ^ bytes.length := by
  induction bytes with
  | nil => exact Nat.one_pos
  | cons b bytes ih =>
    have hb := b.toNat_lt
    rw [ofLittleEndian, List.length_cons, Nat.pow_succ]
    omega

theorem ofLittleEndian_inj {as bs : List UInt8} (hlen : as.length = bs.length)
    (h : ofLittleEndian as = ofLittleEndian bs) : as = bs := by
  induction as generalizing bs with
  | nil => exact (List.length_eq_zero_iff.mp hlen.symm).symm
  | cons a as ih =>
    obtain _ | ⟨b, bs⟩ := bs
    · simp at hlen
    · simp only [ofLittleEndian] at h
      have ha := a.toNat_lt
      have hb := b.toNat_lt
      have hhead : a = b := UInt8.toNat_inj.mp (by omega)
      rw [hhead, ih (by simpa using hlen) (by omega)]

section Fold

variable {α σ ε : Type*} {f : σ → α → Except ε σ}

theorem foldlM_cons_eq_ok {s s' : σ} {a : α} {as : List α} :
    (a :: as).foldlM f s = .ok s' ↔ ∃ t, f s a = .ok t ∧ as.foldlM f t = .ok s' := by
  rw [List.foldlM_cons]
  cases f s a with
  | error e => simp [bind, Except.bind]
  | ok t => simp [bind, Except.bind]

theorem foldlM_append_eq_ok {s s' : σ} {as bs : List α} :
    (as ++ bs).foldlM f s = .ok s' ↔ ∃ t, as.foldlM f s = .ok t ∧ bs.foldlM f t = .ok s' := by
  induction as generalizing s with
  | nil => exact ⟨fun h => ⟨s, rfl, h⟩, fun ⟨_, ht, h⟩ => by cases ht; exact h⟩
  | cons a as ih =>
    simp only [List.cons_append, foldlM_cons_eq_ok, ih]
    constructor
    · rintro ⟨u, hu, t, ht, h⟩
      exact ⟨t, ⟨u, hu, ht⟩, h⟩
    · rintro ⟨t, ⟨u, hu, ht⟩, h⟩
      exact ⟨u, hu, t, ht, h⟩

end Fold

theorem append_eq_append_cons {α : Type*} {xs ys before after : List α} {b : α}
    (h : xs ++ ys = before ++ b :: after) :
    (∃ rest, xs = before ++ b :: rest ∧ after = rest ++ ys) ∨
      ∃ mid, before = xs ++ mid ∧ ys = mid ++ b :: after := by
  rcases List.append_eq_append_iff.mp h with ⟨mid, hbefore, hys⟩ | ⟨rest, hxs, hcons⟩
  · exact .inr ⟨mid, hbefore, hys⟩
  · cases rest with
    | nil => exact .inr ⟨[], by simpa using hxs.symm, hcons.symm⟩
    | cons c rest =>
      obtain ⟨rfl, hafter⟩ := List.cons.inj hcons
      exact .inl ⟨rest, hxs, hafter⟩

structure Format where
  start : UInt8
  stop : UInt8
  base : UInt8
  limit : UInt8
  checksum : List UInt8 → BitVec 32
  limit_eq : limit.toNat = base.toNat + 15
  start_ne_stop : start ≠ stop
  start_outside : ¬(base ≤ start ∧ start ≤ limit)
  stop_outside : ¬(base ≤ stop ∧ stop ≤ limit)
  checksum_ne : ∀ (before after : List UInt8) (a b : UInt8), a ≠ b →
    checksum (before ++ a :: after) ≠ checksum (before ++ b :: after)

inductive DecodeError
  | oddSymbolCount (count : Nat)
  | shortBody (size : Nat)
  | symbolCount (count want : Nat)
  | invalidSymbol (byte : UInt8) (position : Nat)
  | bodySize (body payload : Nat)
  | checksumMismatch (stored computed : Nat)
  deriving DecidableEq, Repr

namespace Format

variable (F : Format)

def isSymbol (b : UInt8) : Bool := F.base ≤ b && b ≤ F.limit

def high (b : UInt8) : UInt8 := F.base + (b >>> 4)

def low (b : UInt8) : UInt8 := F.base + (b &&& 0x0f)

def encodeSymbols (decoded : List UInt8) : List UInt8 :=
  decoded.flatMap fun b => [F.high b, F.low b]

def decodePairs (position : Nat) : List UInt8 → Except DecodeError (List UInt8)
  | hi :: lo :: rest =>
    if !F.isSymbol hi then .error (.invalidSymbol hi position)
    else if !F.isSymbol lo then .error (.invalidSymbol lo (position + 1))
    else do
      let decoded ← decodePairs (position + 2) rest
      return (((hi - F.base) <<< 4) ||| (lo - F.base)) :: decoded
  | _ => return []

def decodeSymbols (size : Nat) (symbols : List UInt8) : Except DecodeError (List UInt8) :=
  if 2 * size ≠ symbols.length then .error (.symbolCount symbols.length (2 * size))
  else F.decodePairs 0 symbols

def header (payload : List UInt8) : List UInt8 :=
  littleEndian 4 payload.length ++ littleEndian 4 (F.checksum payload).toNat

def frame (payload : List UInt8) : List UInt8 :=
  F.start :: (F.encodeSymbols (F.header payload ++ payload) ++ [F.stop])

def frames (payloads : List (List UInt8)) : List UInt8 := payloads.flatMap F.frame

/-- The payload of a terminated frame with interior `symbols`.  Sizes are bounded by the
32-bit length field, so none of their computations can overflow. -/
def decodeFrame (symbols : List UInt8) : Except DecodeError (List UInt8) := do
  if symbols.length % 2 ≠ 0 then throw (.oddSymbolCount symbols.length)
  let bodySize := symbols.length / 2
  if bodySize < 8 then throw (.shortBody bodySize)
  let header ← F.decodeSymbols 8 (symbols.take 16)
  let payloadSize := ofLittleEndian (header.take 4)
  if bodySize ≠ 8 + payloadSize then throw (.bodySize bodySize payloadSize)
  let payload ← F.decodeSymbols payloadSize (symbols.drop 16)
  let stored := ofLittleEndian (header.drop 4)
  let computed := (F.checksum payload).toNat
  if stored ≠ computed then throw (.checksumMismatch stored computed)
  return payload

end Format

/-- Why a replay stopped, with the byte offset it names. -/
inductive Fault (ε : Type*)
  | boundary (offset : Nat) (byte : UInt8)
  | startMarker (offset : Nat)
  | interior (offset : Nat) (byte : UInt8)
  | decode (offset : Nat) (error : DecodeError)
  | apply (offset : Nat) (error : ε)
  deriving DecidableEq, Repr

/-- The state after the complete frames, where they end, and whether an unterminated frame
follows them. -/
structure Replayed (σ : Type*) where
  state : σ
  complete : Nat
  torn : Bool
  deriving DecidableEq, Repr

namespace Format

variable {σ ε : Type*} (F : Format) (apply : σ → List UInt8 → Except ε σ)

/-- Folds `apply` over the frames of a byte string.  Each frame takes at least one byte,
so the string's length is enough fuel. -/
def replayLoop : Nat → σ → Nat → List UInt8 → Except (Fault ε) (Replayed σ)
  | _, s, offset, [] => .ok ⟨s, offset, false⟩
  | 0, s, offset, _ :: _ => .ok ⟨s, offset, false⟩
  | fuel + 1, s, offset, b :: rest =>
    if b ≠ F.start then .error (.boundary offset b)
    else
      let symbols := rest.takeWhile F.isSymbol
      match rest.dropWhile F.isSymbol with
      | [] => .ok ⟨s, offset, true⟩
      | b :: rest =>
        if b = F.stop then
          match F.decodeFrame symbols with
          | .error e => .error (.decode offset e)
          | .ok payload =>
            match apply s payload with
            | .error e => .error (.apply offset e)
            | .ok s => replayLoop fuel s (offset + symbols.length + 2) rest
        else if b = F.start then .error (.startMarker (offset + 1 + symbols.length))
        else .error (.interior (offset + 1 + symbols.length) b)

def replayFrom (s : σ) (offset : Nat) (bytes : List UInt8) : Except (Fault ε) (Replayed σ) :=
  F.replayLoop apply bytes.length s offset bytes

end Format

/-! ### Symbols -/

namespace Format

variable (F : Format)

theorem toNat_high (b : UInt8) : (F.high b).toNat = F.base.toNat + b.toNat / 16 := by
  have hb := b.toNat_lt
  have hl := F.limit.toNat_lt
  have he := F.limit_eq
  have hshift : (b >>> 4).toNat = b.toNat / 16 := Nat.shiftRight_eq_div_pow b.toNat 4
  rw [high, UInt8.toNat_add, hshift]
  omega

theorem toNat_low (b : UInt8) : (F.low b).toNat = F.base.toNat + b.toNat % 16 := by
  have hl := F.limit.toNat_lt
  have he := F.limit_eq
  have hand : b.toNat &&& 15 = b.toNat % 16 := Nat.and_two_pow_sub_one_eq_mod b.toNat 4
  simp only [low, UInt8.toNat_add, UInt8.toNat_and, UInt8.reduceToNat, hand]
  omega

theorem isSymbol_iff (b : UInt8) :
    F.isSymbol b = true ↔ F.base.toNat ≤ b.toNat ∧ b.toNat ≤ F.base.toNat + 15 := by
  simp [isSymbol, UInt8.le_iff_toNat_le, F.limit_eq]

theorem isSymbol_high (b : UInt8) : F.isSymbol (F.high b) = true := by
  have := b.toNat_lt
  rw [isSymbol_iff, toNat_high]
  omega

theorem isSymbol_low (b : UInt8) : F.isSymbol (F.low b) = true := by
  rw [isSymbol_iff, toNat_low]
  omega

theorem isSymbol_start : F.isSymbol F.start = false := by
  simpa [isSymbol] using F.start_outside

theorem isSymbol_stop : F.isSymbol F.stop = false := by
  simpa [isSymbol] using F.stop_outside

@[simp] theorem encodeSymbols_nil : F.encodeSymbols [] = [] := rfl

@[simp] theorem encodeSymbols_cons (b : UInt8) (bs : List UInt8) :
    F.encodeSymbols (b :: bs) = F.high b :: F.low b :: F.encodeSymbols bs := rfl

theorem encodeSymbols_append (as bs : List UInt8) :
    F.encodeSymbols (as ++ bs) = F.encodeSymbols as ++ F.encodeSymbols bs :=
  List.flatMap_append

@[simp] theorem length_encodeSymbols (bs : List UInt8) :
    (F.encodeSymbols bs).length = 2 * bs.length := by
  induction bs with
  | nil => rfl
  | cons b bs ih =>
    simp [ih]
    omega

theorem isSymbol_of_mem_encodeSymbols {bs : List UInt8} {b : UInt8}
    (h : b ∈ F.encodeSymbols bs) : F.isSymbol b = true := by
  obtain ⟨a, _, hb⟩ := List.mem_flatMap.mp h
  rcases List.mem_cons.mp hb with rfl | hb
  · exact F.isSymbol_high a
  · exact List.mem_singleton.mp hb ▸ F.isSymbol_low a

theorem nibbles (b : UInt8) : (((F.high b - F.base) <<< 4) ||| (F.low b - F.base)) = b := by
  have hsplit (b : BitVec 8) : ((b >>> 4) <<< 4) ||| (b &&& 15#8) = b := by
    revert b
    decide +kernel
  have hhigh : F.high b - F.base = b >>> 4 := by
    rw [high, UInt8.add_comm, UInt8.add_sub_cancel]
  have hlow : F.low b - F.base = b &&& 0x0f := by
    rw [low, UInt8.add_comm, UInt8.add_sub_cancel]
  rw [hhigh, hlow]
  exact UInt8.eq_of_toBitVec_eq (hsplit b.toBitVec)

theorem decodePairs_encodeSymbols (position : Nat) (bs : List UInt8) :
    F.decodePairs position (F.encodeSymbols bs) = .ok bs := by
  induction bs generalizing position with
  | nil => rfl
  | cons b bs ih =>
    rw [encodeSymbols_cons, decodePairs, ih, isSymbol_high, isSymbol_low]
    show Except.ok (_ :: bs) = _
    rw [nibbles]

theorem decodeSymbols_encodeSymbols (bs : List UInt8) :
    F.decodeSymbols bs.length (F.encodeSymbols bs) = .ok bs := by
  rw [decodeSymbols, if_neg (by simp), decodePairs_encodeSymbols]

theorem exists_high {c : UInt8} (hc : F.isSymbol c = true) (b : UInt8) :
    ∃ a, F.high a = c ∧ F.low a = F.low b := by
  rw [isSymbol_iff] at hc
  have hb := b.toNat_lt
  refine ⟨UInt8.ofNat (16 * (c.toNat - F.base.toNat) + b.toNat % 16), ?_, ?_⟩
  · apply UInt8.toNat_inj.mp
    rw [toNat_high, UInt8.toNat_ofNat']
    omega
  · apply UInt8.toNat_inj.mp
    rw [toNat_low, toNat_low, UInt8.toNat_ofNat']
    omega

theorem exists_low {c : UInt8} (hc : F.isSymbol c = true) (b : UInt8) :
    ∃ a, F.low a = c ∧ F.high a = F.high b := by
  rw [isSymbol_iff] at hc
  have hb := b.toNat_lt
  refine ⟨UInt8.ofNat (16 * (b.toNat / 16) + (c.toNat - F.base.toNat)), ?_, ?_⟩
  · apply UInt8.toNat_inj.mp
    rw [toNat_low, UInt8.toNat_ofNat']
    omega
  · apply UInt8.toNat_inj.mp
    rw [toNat_high, toNat_high, UInt8.toNat_ofNat']
    omega

theorem encodeSymbols_set {bs : List UInt8} {k : Nat} {c : UInt8} (hc : F.isSymbol c = true)
    (hk : k < (F.encodeSymbols bs).length) (hne : (F.encodeSymbols bs)[k] ≠ c) :
    ∃ before b b' after, bs = before ++ b :: after ∧ b ≠ b' ∧
      (F.encodeSymbols bs).set k c = F.encodeSymbols (before ++ b' :: after) := by
  induction bs generalizing k with
  | nil => simp at hk
  | cons b bs ih =>
    match k with
    | 0 =>
      obtain ⟨a, hhigh, hlow⟩ := F.exists_high hc b
      refine ⟨[], b, a, bs, rfl, ?_, by simp [hhigh, hlow]⟩
      rintro rfl
      exact hne hhigh
    | 1 =>
      obtain ⟨a, hlow, hhigh⟩ := F.exists_low hc b
      refine ⟨[], b, a, bs, rfl, ?_, by simp [hhigh, hlow]⟩
      rintro rfl
      exact hne hlow
    | k + 2 =>
      have hk' : k < (F.encodeSymbols bs).length := by simpa using hk
      obtain ⟨before, x, y, after, rfl, hxy, hset⟩ := ih hk' (by simpa using hne)
      exact ⟨b :: before, x, y, after, rfl, hxy, by simp [hset]⟩

end Format

/-! ### Frames -/

namespace Format

variable (F : Format)

theorem decodeFrame_encodeSymbols {len crc : List UInt8} (payload : List UInt8)
    (hlen : len.length = 4) (hcrc : crc.length = 4) :
    F.decodeFrame (F.encodeSymbols (len ++ crc ++ payload)) =
      if 8 + payload.length ≠ 8 + ofLittleEndian len then
        .error (.bodySize (8 + payload.length) (ofLittleEndian len))
      else if ofLittleEndian crc ≠ (F.checksum payload).toNat then
        .error (.checksumMismatch (ofLittleEndian crc) (F.checksum payload).toNat)
      else .ok payload := by
  have hhead : (len ++ crc).length = 8 := by simp [hlen, hcrc]
  have hsize : (F.encodeSymbols (len ++ crc ++ payload)).length = 2 * (8 + payload.length) := by
    rw [length_encodeSymbols, List.length_append, hhead]
  have hsixteen : (F.encodeSymbols (len ++ crc)).length = 16 := by
    rw [length_encodeSymbols, hhead]
  have htake : (F.encodeSymbols (len ++ crc ++ payload)).take 16 = F.encodeSymbols (len ++ crc) := by
    rw [encodeSymbols_append, List.take_left' hsixteen]
  have hdrop : (F.encodeSymbols (len ++ crc ++ payload)).drop 16 = F.encodeSymbols payload := by
    rw [encodeSymbols_append, List.drop_left' hsixteen]
  have hdecode : F.decodeSymbols 8 (F.encodeSymbols (len ++ crc)) = .ok (len ++ crc) := by
    rw [← hhead, decodeSymbols_encodeSymbols]
  rw [decodeFrame, htake, hdrop, hsize, hdecode, if_neg (by omega), if_neg (by omega)]
  have hhalf : 2 * (8 + payload.length) / 2 = 8 + payload.length := by omega
  have hfirst : (len ++ crc).take 4 = len := List.take_left' hlen
  have hsecond : (len ++ crc).drop 4 = crc := List.drop_left' hlen
  simp only [hhalf, bind, Except.bind, hfirst, hsecond]
  by_cases hn : 8 + payload.length ≠ 8 + ofLittleEndian len
  · rw [if_pos hn, if_pos hn]
    rfl
  · rw [if_neg hn, if_neg hn]
    obtain hn : payload.length = ofLittleEndian len := by omega
    simp only [← hn, decodeSymbols_encodeSymbols]
    by_cases hc : ofLittleEndian crc ≠ (F.checksum payload).toNat
    · rw [if_pos hc, if_pos hc]
      rfl
    · rw [if_neg hc, if_neg hc]
      rfl

theorem decodeFrame_header {payload : List UInt8} (hp : payload.length < 2 ^ 32) :
    F.decodeFrame (F.encodeSymbols (F.header payload ++ payload)) = .ok payload := by
  have hlen : ofLittleEndian (littleEndian 4 payload.length) = payload.length := by
    rw [ofLittleEndian_littleEndian, Nat.mod_eq_of_lt (by simpa using hp)]
  have hcrc : ofLittleEndian (littleEndian 4 (F.checksum payload).toNat) =
      (F.checksum payload).toNat := by
    rw [ofLittleEndian_littleEndian, Nat.mod_eq_of_lt (by simpa using (F.checksum payload).isLt)]
  rw [header, decodeFrame_encodeSymbols F payload (by simp) (by simp), hlen, hcrc]
  simp

@[simp] theorem frames_nil : F.frames [] = [] := rfl

@[simp] theorem frames_cons (p : List UInt8) (ps : List (List UInt8)) :
    F.frames (p :: ps) = F.frame p ++ F.frames ps := rfl

theorem frames_append (ps qs : List (List UInt8)) :
    F.frames (ps ++ qs) = F.frames ps ++ F.frames qs :=
  List.flatMap_append

theorem length_frame (p : List UInt8) : (F.frame p).length = 2 * p.length + 18 := by
  simp [frame, header]
  omega

end Format

/-! ### Replay -/

namespace Format

variable {σ ε : Type*} (F : Format) (apply : σ → List UInt8 → Except ε σ)

theorem replayLoop_congr (fuel fuel' : Nat) (s : σ) (offset : Nat) (bytes : List UInt8)
    (h : bytes.length ≤ fuel) (h' : bytes.length ≤ fuel') :
    F.replayLoop apply fuel s offset bytes = F.replayLoop apply fuel' s offset bytes := by
  induction fuel generalizing fuel' s offset bytes with
  | zero =>
    obtain rfl : bytes = [] := List.length_eq_zero_iff.mp (by omega)
    cases fuel' <;> rfl
  | succ fuel ih =>
    match bytes, fuel' with
    | [], fuel' => cases fuel' <;> rfl
    | b :: rest, fuel' + 1 =>
      simp only [List.length_cons, Nat.add_le_add_iff_right] at h h'
      rw [replayLoop, replayLoop]
      split
      · rfl
      · have hdrop := (List.dropWhile_suffix F.isSymbol (l := rest)).length_le
        cases hd : rest.dropWhile F.isSymbol with
        | nil => rfl
        | cons c rest' =>
          rw [hd, List.length_cons] at hdrop
          dsimp only
          split
          · cases F.decodeFrame (rest.takeWhile F.isSymbol) with
            | error e => rfl
            | ok payload =>
              dsimp only
              cases apply s payload with
              | error e => rfl
              | ok s' => exact ih fuel' s' _ rest' (by omega) (by omega)
          · rfl

@[simp] theorem replayFrom_nil (s : σ) (offset : Nat) :
    F.replayFrom apply s offset [] = .ok ⟨s, offset, false⟩ := rfl

theorem replayFrom_boundary (s : σ) (offset : Nat) {b : UInt8} (hb : b ≠ F.start)
    (rest : List UInt8) :
    F.replayFrom apply s offset (b :: rest) = .error (.boundary offset b) := by
  rw [replayFrom, List.length_cons, replayLoop, if_pos hb]

theorem replayFrom_unterminated (s : σ) (offset : Nat) {symbols : List UInt8}
    (hs : ∀ b ∈ symbols, F.isSymbol b = true) :
    F.replayFrom apply s offset (F.start :: symbols) = .ok ⟨s, offset, true⟩ := by
  rw [replayFrom, List.length_cons, replayLoop, if_neg (by simp),
    List.dropWhile_eq_nil_iff.mpr hs]

theorem replayFrom_interior (s : σ) (offset : Nat) {symbols : List UInt8} {c : UInt8}
    (hs : ∀ b ∈ symbols, F.isSymbol b = true) (hc : F.isSymbol c = false) (rest : List UInt8) :
    F.replayFrom apply s offset (F.start :: (symbols ++ c :: rest)) =
      if c = F.stop then
        match F.decodeFrame symbols with
        | .error e => .error (.decode offset e)
        | .ok payload =>
          match apply s payload with
          | .error e => .error (.apply offset e)
          | .ok s => F.replayFrom apply s (offset + symbols.length + 2) rest
      else if c = F.start then .error (.startMarker (offset + 1 + symbols.length))
      else .error (.interior (offset + 1 + symbols.length) c) := by
  have htake : (symbols ++ c :: rest).takeWhile F.isSymbol = symbols := by
    rw [List.takeWhile_append_of_pos hs, List.takeWhile_cons_of_neg (by simp [hc]), List.append_nil]
  have hdrop : (symbols ++ c :: rest).dropWhile F.isSymbol = c :: rest := by
    rw [List.dropWhile_append_of_pos hs, List.dropWhile_cons_of_neg (by simp [hc])]
  rw [replayFrom, List.length_cons, replayLoop, if_neg (by simp)]
  simp only [htake, hdrop]
  split
  · cases F.decodeFrame symbols with
    | error e => rfl
    | ok payload =>
      dsimp only
      cases apply s payload with
      | error e => rfl
      | ok s' => exact F.replayLoop_congr apply _ _ s' _ rest (by simp; omega) le_rfl
  · rfl

theorem replayFrom_frame (s : σ) (offset : Nat) {p : List UInt8} (hp : p.length < 2 ^ 32)
    (rest : List UInt8) :
    F.replayFrom apply s offset (F.frame p ++ rest) =
      match apply s p with
      | .error e => .error (.apply offset e)
      | .ok s => F.replayFrom apply s (offset + (F.frame p).length) rest := by
  rw [frame, List.cons_append, List.append_assoc, List.singleton_append,
    replayFrom_interior F apply s offset (fun _ => F.isSymbol_of_mem_encodeSymbols)
      F.isSymbol_stop rest, if_pos rfl, decodeFrame_header F hp]
  simp [Nat.add_assoc]

theorem replayFrom_frames {s s' : σ} {ps : List (List UInt8)} (offset : Nat)
    (hp : ∀ p ∈ ps, p.length < 2 ^ 32) (h : ps.foldlM apply s = .ok s') (rest : List UInt8) :
    F.replayFrom apply s offset (F.frames ps ++ rest) =
      F.replayFrom apply s' (offset + (F.frames ps).length) rest := by
  induction ps generalizing s offset with
  | nil =>
    cases h
    rfl
  | cons p ps ih =>
    obtain ⟨t, hs, h⟩ := foldlM_cons_eq_ok.mp h
    rw [frames_cons, List.append_assoc, replayFrom_frame F apply s offset (hp p (by simp)), hs]
    dsimp only
    rw [ih (offset + (F.frame p).length) (fun q hq => hp q (by simp [hq])) h]
    simp [Nat.add_assoc]

theorem replayFrom_frames_total (s : σ) (offset : Nat) {ps : List (List UInt8)}
    (hp : ∀ p ∈ ps, p.length < 2 ^ 32) :
    (∃ f, F.replayFrom apply s offset (F.frames ps) = .error f) ∨
      ∃ r, F.replayFrom apply s offset (F.frames ps) = .ok r ∧ r.torn = false := by
  induction ps generalizing s offset with
  | nil => exact .inr ⟨_, rfl, rfl⟩
  | cons p ps ih =>
    rw [frames_cons, F.replayFrom_frame apply s offset (hp p (by simp))]
    cases apply s p with
    | error e => exact .inl ⟨_, rfl⟩
    | ok t => exact ih t _ fun q hq => hp q (by simp [hq])

end Format

/-! ### Cut and changed frames -/

namespace Format

variable {σ ε : Type*} (F : Format) (apply : σ → List UInt8 → Except ε σ)

def completeFrames : List (List UInt8) → Nat → Nat
  | [], _ => 0
  | p :: ps, n =>
    if (F.frame p).length ≤ n then completeFrames ps (n - (F.frame p).length) + 1 else 0

theorem completeFrames_le (ps : List (List UInt8)) (n : Nat) :
    F.completeFrames ps n ≤ ps.length := by
  induction ps generalizing n with
  | nil => exact le_rfl
  | cons p ps ih =>
    rw [completeFrames]
    split
    · exact Nat.succ_le_succ (ih _)
    · exact Nat.zero_le _

theorem completeFrames_append (ps qs : List (List UInt8)) (n : Nat) :
    F.completeFrames (ps ++ qs) ((F.frames ps).length + n) =
      ps.length + F.completeFrames qs n := by
  induction ps with
  | nil => simp
  | cons p ps ih =>
    rw [frames_cons, List.length_append, Nat.add_assoc, List.cons_append, completeFrames,
      if_pos (by omega), Nat.add_sub_cancel_left, ih, List.length_cons]
    omega

theorem completeFrames_length (ps : List (List UInt8)) :
    F.completeFrames ps (F.frames ps).length = ps.length := by
  have h := F.completeFrames_append ps [] 0
  simpa [completeFrames] using h

theorem lt_completeFrames_iff {ps : List (List UInt8)} {n i : Nat} (hi : i < ps.length) :
    i < F.completeFrames ps n ↔ (F.frames (ps.take (i + 1))).length ≤ n := by
  induction ps generalizing n i with
  | nil => cases hi
  | cons p ps ih =>
    rw [completeFrames, List.take_succ_cons, frames_cons, List.length_append]
    by_cases hn : (F.frame p).length ≤ n
    · rw [if_pos hn]
      cases i with
      | zero => simpa using hn
      | succ i =>
        rw [Nat.add_lt_add_iff_right, ih (Nat.lt_of_succ_lt_succ hi)]
        omega
    · rw [if_neg hn]
      constructor
      · exact fun hlt => absurd hlt (Nat.not_lt_zero i)
      · exact fun hle => absurd (Nat.le_trans (Nat.le_add_right _ _) hle) hn

theorem completeFrames_torn_iff {ps : List (List UInt8)} {n : Nat} :
    (F.frames (ps.take (F.completeFrames ps n))).length < ((F.frames ps).take n).length ↔
      ∃ i < ps.length, (F.frames (ps.take i)).length < n ∧
        n < (F.frames (ps.take (i + 1))).length := by
  have hwhole : F.completeFrames ps n = ps.length →
      ¬(F.frames (ps.take (F.completeFrames ps n))).length < ((F.frames ps).take n).length := by
    intro heq
    rw [heq, List.take_length, List.length_take]
    omega
  constructor
  · intro hlt
    have hi : F.completeFrames ps n < ps.length :=
      lt_of_le_of_ne (F.completeFrames_le ps n) fun heq => hwhole heq hlt
    refine ⟨F.completeFrames ps n, hi, ?_, ?_⟩
    · exact lt_of_lt_of_le hlt (List.length_take_le _ _)
    · exact not_le.1 fun hle => lt_irrefl _ ((F.lt_completeFrames_iff hi).2 hle)
  · rintro ⟨i, hi, hlow, hhigh⟩
    have hle : F.completeFrames ps n ≤ i :=
      not_lt.1 fun hlt => absurd ((F.lt_completeFrames_iff hi).1 hlt) (not_le.2 hhigh)
    have hmono {j j' : Nat} (hj : j ≤ j') :
        (F.frames (ps.take j)).length ≤ (F.frames (ps.take j')).length := by
      rw [← List.take_append_drop j (ps.take j'), List.take_take, Nat.min_eq_left hj, frames_append,
        List.length_append]
      exact Nat.le_add_right _ _
    have htotal : (F.frames (ps.take (i + 1))).length ≤ (F.frames ps).length := by
      have h := hmono (Nat.succ_le_of_lt hi)
      rwa [List.take_length] at h
    rw [List.length_take]
    have hlow' := hmono hle
    omega

theorem frames_take_completeFrames (ps : List (List UInt8)) (n : Nat) :
    F.frames (ps.take (F.completeFrames ps n)) <+: (F.frames ps).take n := by
  induction ps generalizing n with
  | nil => simp
  | cons p ps ih =>
    rw [completeFrames]
    split
    · rename_i hn
      rw [List.take_succ_cons, frames_cons, frames_cons, List.take_append,
        List.take_of_length_le hn, List.prefix_append_right_inj]
      exact ih (n - (F.frame p).length)
    · exact List.nil_prefix

theorem replayFrom_frame_take (s : σ) (offset : Nat) (p : List UInt8) {n : Nat}
    (hn : n < (F.frame p).length) :
    F.replayFrom apply s offset ((F.frame p).take n) = .ok ⟨s, offset, decide (0 < n)⟩ := by
  cases n with
  | zero => rfl
  | succ n =>
    rw [length_frame] at hn
    have hlen : n ≤ (F.encodeSymbols (F.header p ++ p)).length := by
      simp [header]
      omega
    rw [frame, List.take_succ_cons, List.take_append_of_le_length hlen,
      F.replayFrom_unterminated apply s offset fun b hb =>
        F.isSymbol_of_mem_encodeSymbols (List.mem_of_mem_take hb)]
    simp

theorem replayFrom_take {s s' : σ} {ps : List (List UInt8)} (offset n : Nat)
    (hp : ∀ p ∈ ps, p.length < 2 ^ 32)
    (h : (ps.take (F.completeFrames ps n)).foldlM apply s = .ok s') :
    F.replayFrom apply s offset ((F.frames ps).take n) =
      .ok ⟨s', offset + (F.frames (ps.take (F.completeFrames ps n))).length,
        decide ((F.frames (ps.take (F.completeFrames ps n))).length <
          ((F.frames ps).take n).length)⟩ := by
  induction ps generalizing s offset n with
  | nil =>
    cases h
    simp
  | cons p ps ih =>
    rw [completeFrames] at h ⊢
    by_cases hn : (F.frame p).length ≤ n
    · rw [if_pos hn, List.take_succ_cons] at h ⊢
      obtain ⟨t, hs, h⟩ := foldlM_cons_eq_ok.mp h
      rw [frames_cons, frames_cons, List.take_append, List.take_of_length_le hn,
        replayFrom_frame F apply s offset (hp p (by simp)), hs]
      dsimp only
      rw [ih _ _ (fun q hq => hp q (by simp [hq])) h]
      simp [Nat.add_assoc]
    · rw [if_neg hn, List.take_zero] at h ⊢
      cases h
      rw [frames_cons, List.take_append_of_le_length (by omega),
        replayFrom_frame_take F apply s' offset p (by omega)]
      simp [length_frame]

theorem decodeFrame_take {p : List UInt8} (hp : p.length < 2 ^ 32) {k : Nat}
    (hk : k < (F.encodeSymbols (F.header p ++ p)).length) :
    ∃ e, F.decodeFrame ((F.encodeSymbols (F.header p ++ p)).take k) = .error e := by
  have hhead : (F.header p).length = 8 := by simp [header]
  have hlen : ((F.encodeSymbols (F.header p ++ p)).take k).length = k := by
    rw [List.length_take, Nat.min_eq_left hk.le]
  have hbound : k < 2 * (8 + p.length) := by simpa [hhead] using hk
  by_cases hodd : k % 2 ≠ 0
  · refine ⟨.oddSymbolCount k, ?_⟩
    rw [decodeFrame, hlen, if_pos hodd]
    rfl
  by_cases hshort : k / 2 < 8
  · refine ⟨.shortBody (k / 2), ?_⟩
    rw [decodeFrame, hlen, if_neg hodd]
    simp only [if_pos hshort]
    rfl
  -- The header survives and declares more bytes than are left.
  obtain ⟨j, rfl⟩ : ∃ j, k = 2 * (8 + j) := ⟨k / 2 - 8, by omega⟩
  have hsplit : F.header p ++ p = (F.header p ++ p.take j) ++ p.drop j := by
    rw [List.append_assoc, List.take_append_drop]
  have hj : (p.take j).length = j := by
    rw [List.length_take]
    omega
  have htake : (F.encodeSymbols (F.header p ++ p)).take (2 * (8 + j)) =
      F.encodeSymbols (F.header p ++ p.take j) := by
    rw [hsplit, encodeSymbols_append]
    exact List.take_left' (by rw [length_encodeSymbols, List.length_append, hhead, hj])
  have hsize : ofLittleEndian (littleEndian 4 p.length) = p.length := by
    rw [ofLittleEndian_littleEndian, Nat.mod_eq_of_lt (by simpa using hp)]
  rw [htake, header, decodeFrame_encodeSymbols F (p.take j) (by simp) (by simp), hsize, hj,
    if_pos (by omega)]
  exact ⟨_, rfl⟩

theorem decodeFrame_changed {p before after : List UInt8} {b b' : UInt8} (hp : p.length < 2 ^ 32)
    (hbody : F.header p ++ p = before ++ b :: after) (hne : b ≠ b') :
    ∃ e, F.decodeFrame (F.encodeSymbols (before ++ b' :: after)) = .error e := by
  have hsize : ofLittleEndian (littleEndian 4 p.length) = p.length := by
    rw [ofLittleEndian_littleEndian, Nat.mod_eq_of_lt (by simpa using hp)]
  have hsum : ofLittleEndian (littleEndian 4 (F.checksum p).toNat) = (F.checksum p).toNat := by
    rw [ofLittleEndian_littleEndian, Nat.mod_eq_of_lt (by simpa using (F.checksum p).isLt)]
  have hchange {xs ys zs : List UInt8} (h : xs = ys ++ b :: zs) :
      (ys ++ b' :: zs).length = xs.length ∧
        ofLittleEndian (ys ++ b' :: zs) ≠ ofLittleEndian xs := by
    subst h
    refine ⟨by simp, fun heq => hne ?_⟩
    simpa using (ofLittleEndian_inj (by simp) heq).symm
  rw [header, List.append_assoc] at hbody
  rcases append_eq_append_cons hbody with ⟨rest, hlen, rfl⟩ | ⟨mid, rfl, hrest⟩
  · obtain ⟨hl, hv⟩ := hchange hlen
    rw [show before ++ b' :: (rest ++ (littleEndian 4 (F.checksum p).toNat ++ p)) =
        (before ++ b' :: rest) ++ littleEndian 4 (F.checksum p).toNat ++ p by simp,
      decodeFrame_encodeSymbols F p (by simpa using hl) (by simp), if_pos (by omega)]
    exact ⟨_, rfl⟩
  rcases append_eq_append_cons hrest with ⟨rest, hcrc, rfl⟩ | ⟨front, rfl, hpay⟩
  · obtain ⟨hl, hv⟩ := hchange hcrc
    rw [show littleEndian 4 p.length ++ mid ++ b' :: (rest ++ p) =
        littleEndian 4 p.length ++ (mid ++ b' :: rest) ++ p by simp,
      decodeFrame_encodeSymbols F p (by simp) (by simpa using hl), hsize, if_neg (by simp),
      if_pos (by omega)]
    exact ⟨_, rfl⟩
  · have hlen : (front ++ b' :: after).length = p.length := by simp [hpay]
    have hcrc : (F.checksum p).toNat ≠ (F.checksum (front ++ b' :: after)).toNat := by
      intro heq
      rw [hpay] at heq
      exact F.checksum_ne front after b b' hne (BitVec.eq_of_toNat_eq heq)
    rw [show littleEndian 4 p.length ++ (littleEndian 4 (F.checksum p).toNat ++ front) ++
          b' :: after =
        littleEndian 4 p.length ++ littleEndian 4 (F.checksum p).toNat ++
          (front ++ b' :: after) by simp,
      decodeFrame_encodeSymbols F _ (by simp) (by simp), hsize, hsum, hlen, if_neg (by simp),
      if_pos hcrc]
    exact ⟨_, rfl⟩

theorem replayFrom_frame_set (s : σ) (offset : Nat) {p : List UInt8} (hp : p.length < 2 ^ 32)
    {k : Nat} {c : UInt8} (hk : k < (F.frame p).length) (hne : (F.frame p)[k] ≠ c)
    {rest : List UInt8} (hrest : rest = [] ∨ ∃ more, rest = F.start :: more) :
    (∃ f, F.replayFrom apply s offset ((F.frame p).set k c ++ rest) = .error f) ∨
      rest = [] ∧
        F.replayFrom apply s offset ((F.frame p).set k c ++ rest) = .ok ⟨s, offset, true⟩ := by
  set symbols := F.encodeSymbols (F.header p ++ p) with hsymbols
  have hall : ∀ b ∈ symbols, F.isSymbol b = true := fun _ => F.isSymbol_of_mem_encodeSymbols
  have hframe : F.frame p = F.start :: (symbols ++ [F.stop]) := rfl
  -- A byte that is neither symbol nor terminator stops the scan wherever it stands.
  have hstop {front back : List UInt8} {c : UInt8} (hfront : ∀ b ∈ front, F.isSymbol b = true)
      (hc : F.isSymbol c = false) (hcs : c ≠ F.stop) :
      ∃ f, F.replayFrom apply s offset (F.start :: (front ++ c :: back)) = .error f := by
    rw [F.replayFrom_interior apply s offset hfront hc, if_neg hcs]
    split <;> exact ⟨_, rfl⟩
  match k with
  | 0 =>
    left
    rw [hframe, List.set_cons_zero, List.cons_append,
      F.replayFrom_boundary apply s offset (by simpa [hframe] using hne.symm)]
    exact ⟨_, rfl⟩
  | k + 1 =>
    have hk' : k ≤ symbols.length := by
      simp only [hframe, List.length_cons, List.length_append, List.length_nil] at hk
      omega
    rw [hframe, List.set_cons_succ, List.cons_append]
    rcases Nat.lt_or_eq_of_le hk' with hlt | rfl
    · left
      have hold : symbols[k] ≠ c := by simpa [hframe, List.getElem_append_left hlt] using hne
      rw [List.set_append_left _ _ hlt, List.append_assoc, List.singleton_append]
      by_cases hc : F.isSymbol c = true
      · obtain ⟨before, b, b', after, hbody, hbb, hset⟩ := F.encodeSymbols_set hc hlt hold
        obtain ⟨e, he⟩ := F.decodeFrame_changed hp hbody hbb
        rw [hset, F.replayFrom_interior apply s offset
          (fun _ => F.isSymbol_of_mem_encodeSymbols) F.isSymbol_stop, if_pos rfl, he]
        exact ⟨_, rfl⟩
      · rw [List.set_eq_take_append_cons_drop, if_pos hlt, List.append_assoc, List.cons_append]
        have hfront : ∀ b ∈ symbols.take k, F.isSymbol b = true := fun b hb =>
          hall b (List.mem_of_mem_take hb)
        by_cases hcs : c = F.stop
        · obtain ⟨e, he⟩ := F.decodeFrame_take hp hlt
          rw [F.replayFrom_interior apply s offset hfront (by simpa using hc), if_pos hcs, he]
          exact ⟨_, rfl⟩
        · exact hstop hfront (by simpa using hc) hcs
    · rw [List.set_append_right _ _ le_rfl, Nat.sub_self, List.set_cons_zero, List.append_assoc,
        List.singleton_append]
      have hold : F.stop ≠ c := by simpa [hframe] using hne
      by_cases hc : F.isSymbol c = true
      · have hmore : ∀ b ∈ symbols ++ [c], F.isSymbol b = true := by
          simpa [or_imp, forall_and, hc] using hall
        rw [show symbols ++ c :: rest = (symbols ++ [c]) ++ rest by simp]
        rcases hrest with rfl | ⟨more, rfl⟩
        · right
          rw [List.append_nil, F.replayFrom_unterminated apply s offset hmore]
          exact ⟨rfl, rfl⟩
        · left
          exact hstop hmore F.isSymbol_start F.start_ne_stop
      · left
        exact hstop hall (by simpa using hc) hold.symm

theorem replayFrom_frames_set (s : σ) (offset : Nat) {ps : List (List UInt8)} {p : List UInt8}
    (hps : ∀ q ∈ ps, q.length < 2 ^ 32) (hp : p.length < 2 ^ 32) {k : Nat} {c : UInt8}
    (hk : k < (F.frame p).length) (hne : (F.frame p)[k] ≠ c) {rest : List UInt8}
    (hrest : rest = [] ∨ ∃ more, rest = F.start :: more) :
    (∃ f, F.replayFrom apply s offset (F.frames ps ++ ((F.frame p).set k c ++ rest)) = .error f) ∨
      rest = [] ∧ ∃ r, F.replayFrom apply s offset (F.frames ps ++ ((F.frame p).set k c ++ rest)) =
        .ok r ∧ r.torn = true := by
  induction ps generalizing s offset with
  | nil =>
    rcases F.replayFrom_frame_set apply s offset hp hk hne hrest with h | ⟨hnil, h⟩
    · exact .inl h
    · exact .inr ⟨hnil, _, h, rfl⟩
  | cons q ps ih =>
    rw [frames_cons, List.append_assoc, F.replayFrom_frame apply s offset (hps q (by simp))]
    cases apply s q with
    | error e => exact .inl ⟨_, rfl⟩
    | ok t => exact ih t _ fun r hr => hps r (by simp [hr])

end Format

end MiniQuorum.Codec
