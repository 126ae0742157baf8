import MiniQuorum.Lsm.SimFS

/-! The Bloom filter of a table. -/

namespace MiniQuorum.Lsm

open Codec

def bloomBitsPerKey : Nat := 10

def bloomHashCount : Nat := 7

def bloomVersion : UInt8 := 1

def bloomHeaderSize : Nat := 10

def fnv1a64 (data : Bytes) (seed : UInt64) : UInt64 :=
  data.foldl (fun h b => (h ^^^ b.toUInt64) * 0x100000001b3) seed

def bloomHashPair (key : Bytes) : UInt64 × UInt64 :=
  let h1 := fnv1a64 key 0xcbf29ce484222325
  let h2 := fnv1a64 key 0x84222325cbf29ce4
  let h2 := h2 ^^^ (h2 >>> 33)
  let h2 := h2 * 0xff51afd7ed558ccd
  let h2 := h2 ^^^ (h2 >>> 33)
  (h1, if h2 = 0 then 0x9e3779b97f4a7c15 else h2)

structure BloomFilter where
  bits : Bytes
  m : Nat
  deriving DecidableEq, Repr

def bloomByteLen (bits : Nat) : Option Nat :=
  checkedInt (if bits % 8 ≠ 0 then bits / 8 + 1 else bits / 8)

def bloomSize (keys : Nat) : Option (Nat × Nat) :=
  if keys > maxUint64 / bloomBitsPerKey then none
  else
    let bits := max (keys * bloomBitsPerKey) 8
    (bloomByteLen bits).map fun bytes => (bits, bytes)

def newBloomFilter (expectedKeys : Nat) : Option BloomFilter :=
  (bloomSize expectedKeys).map fun size => ⟨List.replicate size.2 0, size.1⟩

def bitMask (bit : Nat) : UInt8 := 1 <<< UInt8.ofNat (bit % 8)

def setBit (bits : Bytes) (bit : Nat) : Bytes := bits.modify (bit / 8) (· ||| bitMask bit)

def testBit (bits : Bytes) (bit : Nat) : Bool := (bits.getD (bit / 8) 0 &&& bitMask bit) ≠ 0

namespace BloomFilter

def probes (m : Nat) (key : Bytes) : List Nat :=
  (List.range bloomHashCount).map fun i =>
    ((bloomHashPair key).1 + UInt64.ofNat i * (bloomHashPair key).2).toNat % m

def add (f : BloomFilter) (key : Bytes) : BloomFilter :=
  if f.m = 0 then f else { f with bits := (probes f.m key).foldl setBit f.bits }

def mayContain (f : BloomFilter) (key : Bytes) : Bool :=
  f.m ≠ 0 && (probes f.m key).all (testBit f.bits)

def marshalBinary (f : BloomFilter) : Except Err Bytes :=
  match bloomByteLen f.m with
  | some byteLen =>
    if f.m = 0 ∨ f.bits.length ≠ byteLen ∨ byteLen > maxInt64 - bloomHeaderSize then
      .error (.text "lsm: invalid bloom filter")
    else
      .ok ([bloomVersion, UInt8.ofNat bloomHashCount] ++ littleEndian 8 f.m ++ f.bits)
  | none => .error (.text "lsm: invalid bloom filter")

end BloomFilter

def unmarshalBloomFilter (data : Bytes) : Except Err BloomFilter :=
  if data.length < bloomHeaderSize + 1 ∨
      data.take 2 ≠ [bloomVersion, UInt8.ofNat bloomHashCount] then
    .error (.text "lsm: invalid bloom encoding")
  else
    let m := ofLittleEndian ((data.drop 2).take 8)
    if m = 0 ∨ bloomByteLen m ≠ some (data.length - bloomHeaderSize) then
      .error (.text "lsm: invalid bloom bit count")
    else .ok ⟨data.drop bloomHeaderSize, m⟩

/-! ### No false negatives -/

theorem bitMask_ne_zero (bit : Nat) : bitMask bit ≠ 0 := by
  have hall : ∀ k < 8, (1 : UInt8) <<< UInt8.ofNat k ≠ 0 := by decide
  exact hall _ (Nat.mod_lt _ (by decide))

@[simp] theorem length_setBit (bits : Bytes) (bit : Nat) : (setBit bits bit).length = bits.length :=
  List.length_modify ..

theorem getD_setBit (bits : Bytes) (bit i : Nat) :
    (setBit bits bit).getD i 0 =
      if i = bit / 8 ∧ i < bits.length then bits.getD i 0 ||| bitMask bit else bits.getD i 0 := by
  rw [setBit, List.getD_eq_getElem?_getD, List.getElem?_modify, List.getD_eq_getElem?_getD]
  by_cases hi : i < bits.length
  · by_cases heq : bit / 8 = i
    · simp [hi, heq]
    · simp [hi, heq, Ne.symm heq]
  · simp [hi]

theorem or_and_ne_zero {x y mask : UInt8} (h : x &&& mask ≠ 0) : (x ||| y) &&& mask ≠ 0 := by
  intro hzero
  have hsplit : (x ||| y) &&& mask = (x &&& mask) ||| (y &&& mask) := by
    apply UInt8.toBitVec_inj.1
    simp only [UInt8.toBitVec_and, UInt8.toBitVec_or]
    rw [BitVec.and_comm, BitVec.and_or_distrib_left, BitVec.and_comm, BitVec.and_comm y.toBitVec]
  rw [hsplit, UInt8.or_eq_zero_iff] at hzero
  exact h hzero.1

variable {bits : Bytes} {bit : Nat}

theorem testBit_setBit_self (h : bit / 8 < bits.length) :
    testBit (setBit bits bit) bit = true := by
  rw [testBit, decide_eq_true_eq, getD_setBit, if_pos ⟨rfl, h⟩, UInt8.or_comm]
  refine or_and_ne_zero ?_
  rw [UInt8.and_self]
  exact bitMask_ne_zero bit

theorem testBit_setBit (other : Nat) (h : testBit bits bit = true) :
    testBit (setBit bits other) bit = true := by
  rw [testBit, decide_eq_true_eq] at h ⊢
  rw [getD_setBit]
  split
  · exact or_and_ne_zero h
  · exact h

@[simp] theorem length_foldl_setBit (probes : List Nat) (bits : Bytes) :
    (probes.foldl setBit bits).length = bits.length := by
  induction probes generalizing bits with
  | nil => rfl
  | cons bit probes ih => rw [List.foldl_cons, ih, length_setBit]

theorem testBit_foldl_setBit (probes : List Nat)
    (h : testBit bits bit = true) : testBit (probes.foldl setBit bits) bit = true := by
  induction probes generalizing bits with
  | nil => exact h
  | cons other probes ih => exact ih (testBit_setBit other h)

theorem testBit_foldl_setBit_of_mem {probes : List Nat}
    (hmem : bit ∈ probes) (hbit : bit / 8 < bits.length) :
    testBit (probes.foldl setBit bits) bit = true := by
  induction probes generalizing bits with
  | nil => cases hmem
  | cons other probes ih =>
    rw [List.foldl_cons]
    rcases List.mem_cons.1 hmem with rfl | hmem
    · exact testBit_foldl_setBit probes (testBit_setBit_self hbit)
    · refine ih hmem ?_
      rwa [length_setBit]

namespace BloomFilter

structure Sized (f : BloomFilter) : Prop where
  pos : 0 < f.m
  bytes : bloomByteLen f.m = some f.bits.length

variable {f : BloomFilter} {keys : Nat}

theorem Sized.le_length (h : f.Sized) : f.m ≤ 8 * f.bits.length := by
  have hbytes := h.bytes
  rw [bloomByteLen, checkedInt, Option.ite_none_right_eq_some] at hbytes
  have hsize := Option.some.inj hbytes.2
  split at hsize <;> omega

theorem Sized.probe_lt (h : f.Sized) {key : Bytes} {bit : Nat}
    (hbit : bit ∈ probes f.m key) : bit / 8 < f.bits.length := by
  obtain ⟨i, -, rfl⟩ := List.mem_map.1 hbit
  have hlt := Nat.mod_lt
    ((bloomHashPair key).1 + UInt64.ofNat i * (bloomHashPair key).2).toNat h.pos
  have hle := h.le_length
  omega

theorem sized_newBloomFilter (h : newBloomFilter keys = some f) :
    f.Sized := by
  rw [newBloomFilter, bloomSize] at h
  split at h
  · cases h
  · simp only [Option.map_map, Option.map_eq_some_iff, Function.comp_apply] at h
    obtain ⟨bytes, hbytes, rfl⟩ := h
    refine ⟨by simp, ?_⟩
    rw [List.length_replicate]
    exact hbytes

theorem keys_lt (h : newBloomFilter keys = some f) :
    keys < 2 ^ 64 := by
  rw [newBloomFilter, bloomSize] at h
  split at h
  · cases h
  · next hkeys =>
    simp only [maxUint64, bloomBitsPerKey] at hkeys
    omega

theorem m_lt (h : newBloomFilter keys = some f) :
    f.m < 2 ^ 64 := by
  rw [newBloomFilter, bloomSize] at h
  split at h
  · cases h
  · next hkeys =>
    simp only [Option.map_map, Option.map_eq_some_iff, Function.comp_apply] at h
    obtain ⟨bytes, hbytes, rfl⟩ := h
    simp only [maxUint64, bloomBitsPerKey] at hkeys ⊢
    omega

theorem m_foldl_add (keys : List Bytes) (f : BloomFilter) :
    (keys.foldl BloomFilter.add f).m = f.m := by
  induction keys generalizing f with
  | nil => rfl
  | cons key keys ih =>
    rw [List.foldl_cons, ih, BloomFilter.add]
    split <;> rfl

theorem Sized.add (h : f.Sized) (key : Bytes) : (f.add key).Sized := by
  rw [BloomFilter.add, if_neg (by have := h.pos; omega)]
  refine ⟨h.pos, ?_⟩
  rw [length_foldl_setBit]
  exact h.bytes

theorem Sized.mayContain_add_self (h : f.Sized) (key : Bytes) :
    (f.add key).mayContain key = true := by
  have hm : f.m ≠ 0 := by have := h.pos; omega
  rw [BloomFilter.add, if_neg hm, mayContain, Bool.and_eq_true, List.all_eq_true]
  refine ⟨decide_eq_true hm, ?_⟩
  intro bit hbit
  exact testBit_foldl_setBit_of_mem hbit (h.probe_lt hbit)

theorem mayContain_add {key : Bytes} (other : Bytes)
    (h : f.mayContain key = true) : (f.add other).mayContain key = true := by
  rw [mayContain, Bool.and_eq_true, List.all_eq_true, decide_eq_true_eq] at h
  rw [BloomFilter.add, if_neg h.1, mayContain, Bool.and_eq_true, List.all_eq_true]
  refine ⟨decide_eq_true h.1, ?_⟩
  intro bit hbit
  exact testBit_foldl_setBit _ (h.2 bit hbit)

theorem Sized.foldl_add (h : f.Sized) (keys : List Bytes) :
    (keys.foldl BloomFilter.add f).Sized := by
  induction keys generalizing f with
  | nil => exact h
  | cons key keys ih => exact ih (h.add key)

theorem Sized.mayContain_foldl_add (h : f.Sized) {keys : List Bytes}
    {key : Bytes} (hmem : key ∈ keys) : (keys.foldl BloomFilter.add f).mayContain key = true := by
  have hkeep : ∀ (later : List Bytes) (g : BloomFilter), g.mayContain key = true →
      (later.foldl BloomFilter.add g).mayContain key = true := by
    intro later
    induction later with
    | nil => exact fun _ hg => hg
    | cons other later ih => exact fun g hg => ih _ (mayContain_add other hg)
  induction keys generalizing f with
  | nil => cases hmem
  | cons other keys ih =>
    rw [List.foldl_cons]
    rcases List.mem_cons.1 hmem with rfl | hmem
    · exact hkeep keys _ (h.mayContain_add_self key)
    · exact ih (h.add other) hmem

theorem Sized.unmarshal_marshal (h : f.Sized) (hm : f.m < 2 ^ 64) {data : Bytes}
    (hdata : f.marshalBinary = .ok data) : unmarshalBloomFilter data = .ok f := by
  have hlen : 0 < f.bits.length := by
    have hpos := h.pos
    have hle := h.le_length
    omega
  rw [marshalBinary, h.bytes] at hdata
  dsimp only at hdata
  split at hdata
  · cases hdata
  · rw [Except.ok.injEq] at hdata
    have hdrop : data.drop bloomHeaderSize = f.bits := by
      rw [← hdata]
      exact List.drop_left' (by simp [bloomHeaderSize])
    have hsize : data.length = bloomHeaderSize + f.bits.length := by
      rw [← hdata]
      simp [bloomHeaderSize]
      omega
    have hhead : (data.drop 2).take 8 = littleEndian 8 f.m := by
      rw [← hdata, List.append_assoc]
      exact List.take_left' (length_littleEndian 8 f.m)
    have hversion : data.take 2 = [bloomVersion, UInt8.ofNat bloomHashCount] := by
      rw [← hdata, List.append_assoc]
      exact List.take_left' rfl
    rw [unmarshalBloomFilter, if_neg]
    · dsimp only
      rw [hhead, ofLittleEndian_littleEndian, Nat.mod_eq_of_lt (by simpa using hm), if_neg]
      · rw [hdrop]
      · rintro (hzero | hne)
        · have := h.pos
          omega
        · refine hne ?_
          rw [h.bytes, hsize, Nat.add_sub_cancel_left]
    · rintro (hshort | hne)
      · omega
      · exact hne hversion

end BloomFilter

end MiniQuorum.Lsm
