import Mathlib.Data.List.Sort
import MiniQuorum.Codec.ByteOrder
import MiniQuorum.Codec.SelfDelimiting
import MiniQuorum.StateMachine.MapSM

/-! The digest of a state machine: its state is written piece by piece into a hash.  The bytes
that are written tell the whole state. -/

namespace MiniQuorum.StateMachine

open Codec Raft

/-! ### Writing a state -/

section Writer

variable {W : Type} (write : W → Bytes → W)

def hashUint64 (h : W) (value : Nat) : W := write h (bigEndian 8 value)

def hashBytes (h : W) (value : Bytes) : W := write (hashUint64 write h value.length) value

namespace MapStateMachine

def hashInto (m : MapStateMachine) (keys : List Bytes) (clientIDs : List UInt64) (h : W) : W :=
  let h := hashUint64 write h m.applied
  let keys := keys.insertionSort (· ≤ ·)
  let h := hashUint64 write h keys.length
  let h := keys.foldl (fun h key =>
    hashBytes write (hashBytes write h key) ((m.values.lookup key).getD [])) h
  let clientIDs := clientIDs.insertionSort (· ≤ ·)
  let h := hashUint64 write h clientIDs.length
  clientIDs.foldl (fun h clientID =>
    let record := (m.dedup.lookup clientID).getD ⟨0, .zero⟩
    let h := hashUint64 write h clientID.toNat
    let h := hashUint64 write h record.lastSeq.toNat
    let h := hashBytes write h record.lastResult.value
    if record.lastResult.found then hashUint64 write h 1 else hashUint64 write h 0) h

end MapStateMachine

end Writer

structure Hasher where
  State : Type
  new : State
  write : State → Bytes → State
  sum64 : State → UInt64
  write_nil : ∀ h, write h [] = h
  write_append : ∀ h bytes more, write h (bytes ++ more) = write (write h bytes) more

def fnv64a : Hasher where
  State := UInt64
  new := 14695981039346656037
  write := List.foldl fun h b => (h ^^^ b.toUInt64) * 1099511628211
  sum64 h := h
  write_nil _ := rfl
  write_append _ _ _ := List.foldl_append

namespace MapStateMachine

def hash (hasher : Hasher) (m : MapStateMachine) (keys : List Bytes) (clientIDs : List UInt64) :
    UInt64 :=
  hasher.sum64 (m.hashInto hasher.write keys clientIDs hasher.new)

def hashed (m : MapStateMachine) (keys : List Bytes) (clientIDs : List UInt64) : Bytes :=
  m.hashInto (· ++ ·) keys clientIDs []

end MapStateMachine

/-! ### Maps in the order of their keys -/

section Iteration

variable {K V : Type} [LE K] [DecidableLE K] {order order' : List K}
  {f f' : Finmap fun _ : K => V} {d : V}

structure Iterates (order : List K) (f : Finmap fun _ : K => V) : Prop where
  nodup : order.Nodup
  mem : ∀ key, key ∈ order ↔ key ∈ f

theorem Iterates.sort_eq [Std.Total fun a b : K => a ≤ b] [Std.Antisymm fun a b : K => a ≤ b]
    [IsTrans K fun a b : K => a ≤ b] (h : Iterates order f) (h' : Iterates order' f) :
    order.insertionSort (· ≤ ·) = order'.insertionSort (· ≤ ·) := by
  have hperm : order.Perm order' := by
    rw [List.perm_ext_iff_of_nodup h.nodup h'.nodup]
    intro key
    rw [h.mem, h'.mem]
  refine List.Perm.eq_of_pairwise' (List.pairwise_insertionSort _ _)
    (List.pairwise_insertionSort _ _) ?_
  exact (List.perm_insertionSort _ _).trans (hperm.trans (List.perm_insertionSort _ _).symm)

variable [DecidableEq K]

def ascending (order : List K) (f : Finmap fun _ : K => V) (d : V) : List (K × V) :=
  (order.insertionSort (· ≤ ·)).map fun key => (key, (f.lookup key).getD d)

theorem Iterates.mem_ascending (h : Iterates order f) {key : K} {value : V} :
    (key, value) ∈ ascending order f d ↔ f.lookup key = some value := by
  simp only [ascending, List.mem_map, List.mem_insertionSort, Prod.mk.injEq, h.mem]
  constructor
  · rintro ⟨key, hmem, rfl, rfl⟩
    obtain ⟨value, hvalue⟩ := Option.isSome_iff_exists.1 (Finmap.lookup_isSome.2 hmem)
    rw [hvalue]
    rfl
  · intro hvalue
    refine ⟨key, Finmap.lookup_isSome.1 (Option.isSome_iff_exists.2 ⟨value, hvalue⟩), rfl, ?_⟩
    rw [hvalue]
    rfl

theorem Iterates.length_ascending (h : Iterates order f) :
    (ascending order f d).length = f.keys.card := by
  rw [ascending, List.length_map, List.length_insertionSort, ← List.toFinset_card_of_nodup h.nodup]
  congr 1
  ext key
  rw [List.mem_toFinset, h.mem, Finmap.mem_keys]

theorem Iterates.ascending_eq_iff [Std.Total fun a b : K => a ≤ b]
    [Std.Antisymm fun a b : K => a ≤ b] [IsTrans K fun a b : K => a ≤ b] (h : Iterates order f)
    (h' : Iterates order' f') : ascending order f d = ascending order' f' d ↔ f = f' := by
  constructor
  · intro heq
    refine Finmap.ext_lookup fun key => Option.ext fun value => ?_
    rw [← h.mem_ascending (d := d), ← h'.mem_ascending (d := d), heq]
  · rintro rfl
    rw [ascending, ascending, h.sort_eq h']

end Iteration

/-! ### What the bytes tell -/

def sized (value : Bytes) : Bytes := bigEndian 8 value.length ++ value

def putValue (x : Bytes × Bytes) : Bytes := sized x.1 ++ sized x.2

def putRecord (x : UInt64 × DedupRecord) : Bytes :=
  bigEndian 8 x.1.toNat ++ (bigEndian 8 x.2.lastSeq.toNat ++
    (sized x.2.lastResult.value ++ bigEndian 8 (if x.2.lastResult.found then 1 else 0)))

def putState (x : Nat × List (Bytes × Bytes) × List (UInt64 × DedupRecord)) : Bytes :=
  bigEndian 8 x.1 ++ ((bigEndian 8 x.2.1.length ++ x.2.1.flatMap putValue) ++
    (bigEndian 8 x.2.2.length ++ x.2.2.flatMap putRecord))

theorem selfDelimiting_uint64 : SelfDelimiting (· < 2 ^ 64) (bigEndian 8) :=
  selfDelimiting_bigEndian 8

theorem selfDelimiting_sized64 : SelfDelimiting (fun value : Bytes => value.length < 2 ^ 64) sized :=
  selfDelimiting_sized selfDelimiting_uint64

theorem selfDelimiting_putRecord :
    SelfDelimiting (fun x : UInt64 × DedupRecord => x.2.lastResult.value.length < 2 ^ 64)
      putRecord := by
  have hfound : SelfDelimiting (fun _ : Bool => True) fun b => bigEndian 8 (if b then 1 else 0) := by
    refine selfDelimiting_uint64.comap (fun b : Bool => if b then 1 else 0) ?_ ?_
    · decide
    · decide
  have hword : SelfDelimiting (fun _ : UInt64 => True) fun n => bigEndian 8 n.toNat :=
    selfDelimiting_uint64.comap UInt64.toNat (fun _ _ _ _ => UInt64.toNat_inj.1)
      fun n _ => n.toNat_lt
  refine (hword.append (hword.append (selfDelimiting_sized64.append hfound))).comap
    (fun x : UInt64 × DedupRecord =>
      (x.1, x.2.lastSeq, x.2.lastResult.value, x.2.lastResult.found)) ?_ ?_
  · rintro ⟨client, seq, value, found⟩ ⟨client', seq', value', found'⟩ - - heq
    cases heq
    rfl
  · intro x hx
    exact ⟨trivial, trivial, hx, trivial⟩

theorem selfDelimiting_putState :
    SelfDelimiting (fun x => x.1 < 2 ^ 64 ∧
      (x.2.1.length < 2 ^ 64 ∧ ∀ a ∈ x.2.1, a.1.length < 2 ^ 64 ∧ a.2.length < 2 ^ 64) ∧
      x.2.2.length < 2 ^ 64 ∧ ∀ a ∈ x.2.2, a.2.lastResult.value.length < 2 ^ 64) putState :=
  selfDelimiting_uint64.append
    ((selfDelimiting_uint64.counted (selfDelimiting_sized64.append selfDelimiting_sized64)).append
      (selfDelimiting_uint64.counted selfDelimiting_putRecord))

theorem foldl_writes {α : Type} {step : Bytes → α → Bytes} (put : α → Bytes)
    (hstep : ∀ h a, step h a = h ++ put a) (l : List α) (h : Bytes) :
    l.foldl step h = h ++ l.flatMap put := by
  induction l generalizing h with
  | nil => simp
  | cons a l ih => rw [List.foldl_cons, ih, hstep, List.flatMap_cons, List.append_assoc]

namespace MapStateMachine

variable {m m' : MapStateMachine} {keys keys' : List Bytes} {clientIDs clientIDs' : List UInt64}

structure Fits (m : MapStateMachine) : Prop where
  applied : m.applied < 2 ^ 64
  values : m.values.keys.card < 2 ^ 64
  value : ∀ key value, m.values.lookup key = some value →
    key.length < 2 ^ 64 ∧ value.length < 2 ^ 64
  dedup : m.dedup.keys.card < 2 ^ 64
  result : ∀ clientID record, m.dedup.lookup clientID = some record →
    record.lastResult.value.length < 2 ^ 64

theorem hash_eq (hasher : Hasher) (m : MapStateMachine) (keys : List Bytes)
    (clientIDs : List UInt64) :
    m.hash hasher keys clientIDs = hasher.sum64 (hasher.write hasher.new (m.hashed keys clientIDs)) := by
  have hword (h : Bytes) (value : Nat) : hashUint64 hasher.write (hasher.write hasher.new h) value =
      hasher.write hasher.new (hashUint64 (· ++ ·) h value) := (hasher.write_append _ _ _).symm
  have hbytes (h value : Bytes) : hashBytes hasher.write (hasher.write hasher.new h) value =
      hasher.write hasher.new (hashBytes (· ++ ·) h value) := by
    rw [hashBytes, hword]
    exact (hasher.write_append _ _ _).symm
  have hstart := hword []
  rw [hasher.write_nil] at hstart
  rw [hash, hashed, hashInto, hashInto]
  dsimp only
  rw [hstart, hword, List.foldl_hom (hasher.write hasher.new), hword,
    List.foldl_hom (hasher.write hasher.new)]
  · intro h clientID
    simp only [hword, hbytes]
    split <;> rfl
  · intro h key
    rw [hbytes, hbytes]

theorem hashed_eq (m : MapStateMachine) (keys : List Bytes) (clientIDs : List UInt64) :
    m.hashed keys clientIDs = putState (m.applied, ascending keys m.values [],
      ascending clientIDs m.dedup ⟨0, .zero⟩) := by
  rw [hashed, hashInto]
  dsimp only [hashUint64]
  rw [foldl_writes (fun key => putValue (key, (m.values.lookup key).getD [])),
    foldl_writes (fun id => putRecord (id, (m.dedup.lookup id).getD ⟨0, .zero⟩))]
  · simp only [putState, ascending, List.length_map, List.flatMap_map, List.nil_append,
      List.append_assoc]
  · intro h id
    simp only [hashBytes, hashUint64, putRecord, sized, List.append_assoc]
    split <;> rfl
  · intro h key
    simp only [hashBytes, hashUint64, putValue, sized, List.append_assoc]

theorem Fits.encodable (hm : m.Fits) (hkeys : Iterates keys m.values)
    (hclients : Iterates clientIDs m.dedup) :
    m.applied < 2 ^ 64 ∧ ((ascending keys m.values []).length < 2 ^ 64 ∧
      ∀ a ∈ ascending keys m.values [], a.1.length < 2 ^ 64 ∧ a.2.length < 2 ^ 64) ∧
      (ascending clientIDs m.dedup ⟨0, .zero⟩).length < 2 ^ 64 ∧
      ∀ a ∈ ascending clientIDs m.dedup ⟨0, .zero⟩, a.2.lastResult.value.length < 2 ^ 64 := by
  refine ⟨hm.applied, ⟨hkeys.length_ascending.trans_lt hm.values, ?_⟩,
    hclients.length_ascending.trans_lt hm.dedup, ?_⟩
  · rintro ⟨key, value⟩ hmem
    exact hm.value key value (hkeys.mem_ascending.1 hmem)
  · rintro ⟨clientID, record⟩ hmem
    exact hm.result clientID record (hclients.mem_ascending.1 hmem)

theorem hashed_eq_iff (hm : m.Fits) (hm' : m'.Fits) (hkeys : Iterates keys m.values)
    (hclients : Iterates clientIDs m.dedup) (hkeys' : Iterates keys' m'.values)
    (hclients' : Iterates clientIDs' m'.dedup) :
    m.hashed keys clientIDs = m'.hashed keys' clientIDs' ↔ m = m' := by
  rw [hashed_eq, hashed_eq]
  constructor
  · intro heq
    have hstate := selfDelimiting_putState.injOn (hm.encodable hkeys hclients)
      (hm'.encodable hkeys' hclients') heq
    simp only [Prod.mk.injEq] at hstate
    obtain ⟨happlied, hvalues, hdedup⟩ := hstate
    cases m
    cases m'
    cases happlied
    cases (hkeys.ascending_eq_iff hkeys').1 hvalues
    cases (hclients.ascending_eq_iff hclients').1 hdedup
    rfl
  · rintro rfl
    rw [(hkeys.ascending_eq_iff hkeys').2 rfl, (hclients.ascending_eq_iff hclients').2 rfl]

end MapStateMachine

end MiniQuorum.StateMachine
