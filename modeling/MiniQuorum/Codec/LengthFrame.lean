import MiniQuorum.Codec.Frame

/-! Length-delimited records: the payload behind its 32-bit length and checksum.  A scan
stops at the first record that is cut off. -/

namespace MiniQuorum.Codec.LengthFrame

variable {σ ε : Type*} (checksum : List UInt8 → BitVec 32) (apply : σ → List UInt8 → Except ε σ)

def record (payload : List UInt8) : List UInt8 :=
  littleEndian 4 payload.length ++ (littleEndian 4 (checksum payload).toNat ++ payload)

def records (payloads : List (List UInt8)) : List UInt8 := payloads.flatMap (record checksum)

inductive ScanError (ε : Type*)
  | checksum (offset : Nat)
  | apply (error : ε)
  deriving DecidableEq, Repr

/-- Folds `apply` over the complete records and returns where they end.  Each record takes
eight bytes, so the number of bytes is enough fuel. -/
def scanLoop : Nat → σ → Nat → List UInt8 → Except (ScanError ε) (σ × Nat)
  | 0, s, offset, _ => .ok (s, offset)
  | fuel + 1, s, offset, rest =>
    if rest.length < 8 then .ok (s, offset)
    else
      let payloadLen := ofLittleEndian (rest.take 4)
      if rest.length < 8 + payloadLen then .ok (s, offset)
      else
        let payload := (rest.drop 8).take payloadLen
        if (checksum payload).toNat ≠ ofLittleEndian ((rest.drop 4).take 4) then
          .error (.checksum offset)
        else
          match apply s payload with
          | .error e => .error (.apply e)
          | .ok s => scanLoop fuel s (offset + (8 + payloadLen)) (rest.drop (8 + payloadLen))

def scan (s : σ) (bytes : List UInt8) : Except (ScanError ε) (σ × Nat) :=
  scanLoop checksum apply bytes.length s 0 bytes

def completeRecords : List (List UInt8) → Nat → Nat
  | [], _ => 0
  | p :: ps, n => if 8 + p.length ≤ n then completeRecords ps (n - (8 + p.length)) + 1 else 0

variable {checksum apply}

@[simp] theorem length_record (payload : List UInt8) :
    (record checksum payload).length = 8 + payload.length := by
  simp only [record, List.length_append, length_littleEndian]
  omega

theorem records_append (ps qs : List (List UInt8)) :
    records checksum (ps ++ qs) = records checksum ps ++ records checksum qs :=
  List.flatMap_append

theorem completeRecords_append (ps qs : List (List UInt8)) (n : Nat) :
    completeRecords (ps ++ qs) ((records checksum ps).length + n) =
      ps.length + completeRecords qs n := by
  induction ps with
  | nil => simp [records]
  | cons p ps ih =>
    have hsplit : (records checksum (p :: ps)).length + n - (8 + p.length) =
        (records checksum ps).length + n := by
      simp only [records, List.flatMap_cons, List.length_append, length_record]
      omega
    have hle : 8 + p.length ≤ (records checksum (p :: ps)).length + n := by
      simp only [records, List.flatMap_cons, List.length_append, length_record]
      omega
    rw [List.cons_append, completeRecords, if_pos hle, hsplit, ih, List.length_cons]
    omega

variable (checksum) in
theorem record_fields {payload : List UInt8} (hlen : payload.length < 2 ^ 32) (tail : List UInt8)
    {n : Nat} (hn : 8 ≤ n) :
    ofLittleEndian (((record checksum payload ++ tail).take n).take 4) = payload.length ∧
      ofLittleEndian ((((record checksum payload ++ tail).take n).drop 4).take 4) =
        (checksum payload).toNat := by
  have hsplit : (record checksum payload ++ tail).take n =
      littleEndian 4 payload.length ++ (littleEndian 4 (checksum payload).toNat ++
        (payload ++ tail).take (n - 8)) := by
    rw [record, List.append_assoc, List.append_assoc, List.take_append, length_littleEndian,
      List.take_of_length_le (by rw [length_littleEndian]; omega), List.take_append,
      length_littleEndian, List.take_of_length_le (by rw [length_littleEndian]; omega)]
    rw [show n - 4 - 4 = n - 8 by omega]
  rw [hsplit, List.take_left' (length_littleEndian 4 _), List.drop_left' (length_littleEndian 4 _),
    List.take_left' (length_littleEndian 4 _), ofLittleEndian_littleEndian,
    ofLittleEndian_littleEndian]
  exact ⟨Nat.mod_eq_of_lt hlen, Nat.mod_eq_of_lt (checksum payload).isLt⟩

theorem scanLoop_record {s s' : σ} {payload : List UInt8} (hlen : payload.length < 2 ^ 32)
    (happly : apply s payload = .ok s') (fuel offset : Nat) (tail : List UInt8) :
    scanLoop checksum apply (fuel + 1) s offset (record checksum payload ++ tail) =
      scanLoop checksum apply fuel s' (offset + (8 + payload.length)) tail := by
  have hrecord : (record checksum payload).length = 8 + payload.length := length_record payload
  have hlength : (record checksum payload ++ tail).length = 8 + payload.length + tail.length := by
    rw [List.length_append, hrecord]
  obtain ⟨hsize, hsum⟩ := record_fields checksum hlen tail
    (n := (record checksum payload ++ tail).length) (by omega)
  rw [List.take_length] at hsize hsum
  have hpayload : ((record checksum payload ++ tail).drop 8).take payload.length = payload := by
    have hheader : (littleEndian 4 payload.length ++
        littleEndian 4 (checksum payload).toNat).length = 8 := by
      simp
    rw [record, ← List.append_assoc, List.append_assoc, List.drop_left' hheader, List.take_left]
  rw [scanLoop, if_neg (by omega)]
  simp only [hsize, hpayload, hsum, ne_eq, not_true_eq_false, if_false, happly]
  rw [if_neg (by omega), List.drop_left' hrecord]

theorem scanLoop_torn (s : σ) {payload : List UInt8} (hlen : payload.length < 2 ^ 32)
    (tail : List UInt8) {n : Nat} (hn : n < 8 + payload.length) (fuel offset : Nat) :
    scanLoop checksum apply fuel s offset ((record checksum payload ++ tail).take n) =
      .ok (s, offset) := by
  cases fuel with
  | zero => rfl
  | succ fuel =>
    have hle : ((record checksum payload ++ tail).take n).length ≤ n := List.length_take_le _ _
    rw [scanLoop]
    split
    · rfl
    · next hheader =>
      have hsize := (record_fields checksum hlen tail (n := n) (by omega)).1
      simp only [hsize]
      rw [if_pos (by omega)]

theorem scanLoop_take {s s' : σ} {ps : List (List UInt8)} (hlen : ∀ p ∈ ps, p.length < 2 ^ 32)
    (n : Nat) (hfold : (ps.take (completeRecords ps n)).foldlM apply s = .ok s')
    {fuel : Nat} (hfuel : completeRecords ps n ≤ fuel) (offset : Nat) :
    scanLoop checksum apply fuel s offset ((records checksum ps).take n) =
      .ok (s', offset + (records checksum (ps.take (completeRecords ps n))).length) := by
  induction ps generalizing s n fuel offset with
  | nil =>
    cases hfold
    cases fuel <;> simp [scanLoop, records]
  | cons p ps ih =>
    have hp := hlen p (by simp)
    rw [completeRecords] at hfold hfuel ⊢
    have hcons : records checksum (p :: ps) = record checksum p ++ records checksum ps := rfl
    rw [hcons]
    split at hfold
    · next hwhole =>
      rw [if_pos hwhole] at hfuel ⊢
      rw [List.take_succ_cons] at hfold ⊢
      obtain ⟨t, happly, hfold⟩ := foldlM_cons_eq_ok.1 hfold
      obtain ⟨fuel, rfl⟩ : ∃ k, fuel = k + 1 := ⟨fuel - 1, by omega⟩
      rw [List.take_append, length_record, List.take_of_length_le (by rw [length_record]; exact hwhole),
        scanLoop_record hp happly, ih (fun q hq => hlen q (by simp [hq])) _ hfold (by omega)]
      simp only [records, List.flatMap_cons, List.length_append, length_record, Nat.add_assoc]
    · next htorn =>
      rw [if_neg htorn]
      cases hfold
      exact scanLoop_torn s' hp _ (not_le.1 htorn) fuel offset

theorem completeRecords_le (ps : List (List UInt8)) (n : Nat) :
    completeRecords ps n ≤ ((records checksum ps).take n).length := by
  rw [List.length_take]
  induction ps generalizing n with
  | nil => simp [completeRecords]
  | cons p ps ih =>
    have hlength : (records checksum (p :: ps)).length =
        8 + p.length + (records checksum ps).length := by
      rw [records, List.flatMap_cons, List.length_append, length_record]
      rfl
    rw [completeRecords]
    split
    · have := ih (n - (8 + p.length))
      omega
    · omega

theorem scan_take {s s' : σ} {ps : List (List UInt8)} (hlen : ∀ p ∈ ps, p.length < 2 ^ 32) (n : Nat)
    (hfold : (ps.take (completeRecords ps n)).foldlM apply s = .ok s') :
    scan checksum apply s ((records checksum ps).take n) =
      .ok (s', (records checksum (ps.take (completeRecords ps n))).length) := by
  rw [scan, scanLoop_take hlen n hfold (completeRecords_le ps n), Nat.zero_add]

/-! A payload of `2 ^ 32` bytes or more: its stored length is the remainder, and the scan takes a
front of it for the whole. -/

theorem scanLoop_wide (s : σ) {payload : List UInt8} (hwide : 2 ^ 32 ≤ payload.length)
    (hfail : ∃ e, apply s (payload.take (payload.length % 2 ^ 32)) = .error e) (fuel offset : Nat) :
    ∃ e, scanLoop checksum apply (fuel + 1) s offset (record checksum payload) = .error e := by
  obtain ⟨e, he⟩ := hfail
  have hlength : (record checksum payload).length = 8 + payload.length := length_record payload
  have hsize : ofLittleEndian ((record checksum payload).take 4) = payload.length % 2 ^ 32 := by
    rw [record, List.take_left' (length_littleEndian 4 _), ofLittleEndian_littleEndian]
    rfl
  have hbody : (record checksum payload).drop 8 = payload := by
    rw [record, ← List.append_assoc]
    exact List.drop_left' (by simp)
  have hless := Nat.mod_lt payload.length (Nat.two_pow_pos 32)
  rw [scanLoop, if_neg (by omega)]
  simp only [hsize, hbody, he]
  rw [if_neg (by omega)]
  split
  · exact ⟨_, rfl⟩
  · exact ⟨_, rfl⟩

theorem length_le_records (ps : List (List UInt8)) : ps.length ≤ (records checksum ps).length := by
  induction ps with
  | nil => exact Nat.zero_le _
  | cons p ps ih =>
    rw [records, List.flatMap_cons, List.length_append, length_record, List.length_cons]
    exact (Nat.add_le_add_right ih 1).trans (by rw [records]; omega)

theorem scan_wide {s s' : σ} {ps : List (List UInt8)} (hlen : ∀ p ∈ ps, p.length < 2 ^ 32)
    (hfold : ps.foldlM apply s = .ok s') {payload : List UInt8} (hwide : 2 ^ 32 ≤ payload.length)
    (hfail : ∃ e, apply s' (payload.take (payload.length % 2 ^ 32)) = .error e) :
    ∃ e, scan checksum apply s (records checksum (ps ++ [payload])) = .error e := by
  have hloop (fuel offset : Nat) (hfuel : ps.length < fuel) :
      ∃ e, scanLoop checksum apply fuel s offset (records checksum (ps ++ [payload])) =
        .error e := by
    obtain ⟨fuel, rfl⟩ : ∃ k, fuel = k + 1 := ⟨fuel - 1, by omega⟩
    induction ps generalizing s fuel offset with
    | nil =>
      cases hfold
      rw [List.nil_append, records, List.flatMap_singleton]
      exact scanLoop_wide _ hwide hfail fuel offset
    | cons p ps ih =>
      obtain ⟨t, happly, hfold⟩ := foldlM_cons_eq_ok.1 hfold
      obtain ⟨fuel, rfl⟩ : ∃ k, fuel = k + 1 := ⟨fuel - 1, by rw [List.length_cons] at hfuel; omega⟩
      rw [List.cons_append, records, List.flatMap_cons, scanLoop_record (hlen p (by simp)) happly]
      exact ih (fun q hq => hlen q (by simp [hq])) hfold _ fuel
        (by rw [List.length_cons] at hfuel; omega)
  refine hloop _ 0 (Nat.lt_of_lt_of_le ?_ (length_le_records _))
  simp

end MiniQuorum.Codec.LengthFrame
