import MiniQuorum.Codec.ByteOrder
import MiniQuorum.Consensus.Locality
import MiniQuorum.StateMachine.MapSM

/-! The model by which client histories are checked for linearizability, and its
partition by keys. -/

namespace MiniQuorum.Checker

open Codec Consensus StateMachine

structure Input where
  op : Op
  key : Bytes
  value : Bytes
  deriving DecidableEq, Repr

/-- The response to a logical operation.  `unknown` stands for the outcome of an open one. -/
structure Output where
  ok : Bool
  value : Bytes
  found : Bool
  unknown : Bool
  deriving DecidableEq, Repr

abbrev KVState := Finmap fun _ : Bytes => Bytes

def kvModel : CheckedSpec KVState Input Output where
  init := ∅
  step current invocation response :=
    if !response.ok && !response.unknown then (false, current)
    else
      match invocation.op with
      | .put => (true, current.insert invocation.key invocation.value)
      | .delete => (true, current.erase invocation.key)
      | .get =>
        if response.unknown then (true, current)
        else
          let value := current.lookup invocation.key
          (response.found == value.isSome && response.value == value.getD [], current)
      | _ => (false, current)

structure Metadata where
  clientId : UInt64
  seq : UInt64
  deriving DecidableEq, Repr

inductive EventValue
  | call (input : Input)
  | ret (output : Output)
  deriving DecidableEq, Repr

structure Event where
  clientId : Nat
  value : EventValue
  id : Int
  metadata : Metadata
  deriving DecidableEq, Repr

def Event.op (event : Event) : OpEvent Int Input Output :=
  match event.value with
  | .call input => .invoke event.id input
  | .ret output => .respond event.id output

theorem Event.op_eq_invoke {event : Event} {id : Int} {input : Input} :
    event.op = .invoke id input ↔ event.id = id ∧ event.value = .call input := by
  rw [Event.op]
  cases event.value <;> simp

theorem Event.op_eq_respond {event : Event} {id : Int} {output : Output} :
    event.op = .respond id output ↔ event.id = id ∧ event.value = .ret output := by
  rw [Event.op]
  cases event.value <;> simp

structure Partition where
  byKey : AList fun _ : Bytes => List Event
  keysByID : AList fun _ : Int => Bytes

namespace Partition

def append (p : Partition) (key : Bytes) (event : Event) : Partition :=
  { p with byKey := p.byKey.insert key ((p.byKey.lookup key).getD [] ++ [event]) }

def add (p : Partition) (event : Event) : Partition :=
  match event.value with
  | .call input =>
    { p with keysByID := p.keysByID.insert event.id input.key }.append input.key event
  | .ret _ => p.append ((p.keysByID.lookup event.id).getD []) event

end Partition

def partitionEvents (history : List Event) : List (List Event) :=
  let p := history.foldl Partition.add ⟨∅, ∅⟩
  (p.byKey.keys.insertionSort (· ≤ ·)).map fun key => (p.byKey.lookup key).getD []

theorem kvModel_local : kvModel.Local Input.key fun key (s : KVState) => s.lookup key where
  step_congr {s t i} r h := by
    simp only [kvModel]
    split
    · exact ⟨rfl, h⟩
    · split
      · exact ⟨rfl, by simp⟩
      · exact ⟨rfl, by simp⟩
      · split
        · exact ⟨rfl, h⟩
        · exact ⟨by rw [h], h⟩
      · exact ⟨rfl, h⟩
  step_other {k i} s r h := by
    simp only [kvModel]
    split
    · rfl
    · split
      · exact Finmap.lookup_insert_of_ne _ h
      · exact Finmap.lookup_erase_ne h
      · split <;> rfl
      · rfl

/-! ### The partition -/

def keyOf (history : List Event) (id : Int) : Bytes :=
  (history.findSome? fun event =>
    match event.value with
    | .call input => if event.id = id then some input.key else none
    | .ret _ => none).getD []

variable {history : List Event}

theorem keyOf_call (hc : Complete (history.map Event.op)) {event : Event} {input : Input}
    (he : event ∈ history) (hcall : event.value = .call input) :
    keyOf history event.id = input.key := by
  have hop : .invoke event.id input ∈ history.map Event.op :=
    List.mem_map.2 ⟨event, he, Event.op_eq_invoke.2 ⟨rfl, hcall⟩⟩
  rw [keyOf]
  cases hfound : history.findSome? _ with
  | none =>
    rw [List.findSome?_eq_none_iff] at hfound
    have hnone := hfound event he
    simp [hcall] at hnone
  | some key =>
    obtain ⟨other, hother, hkey⟩ := List.exists_of_findSome?_eq_some hfound
    split at hkey
    · next input' hcall' =>
      split at hkey
      · next hid =>
        cases hkey
        have hop' : .invoke event.id input' ∈ history.map Event.op :=
          List.mem_map.2 ⟨other, hother, Event.op_eq_invoke.2 ⟨hid, hcall'⟩⟩
        rw [hc.invoke_unique hop hop']
        rfl
      · cases hkey
    · cases hkey

/-- What the maps hold after the events `done` of a history. -/
structure Partition.Holds (p : Partition) (history done : List Event) : Prop where
  keysByID : ∀ {event input}, event ∈ done → event.value = .call input →
    p.keysByID.lookup event.id = some (keyOf history event.id)
  byKey : ∀ key, p.byKey.lookup key =
    if done.filter (keyOf history ·.id = key) = [] then none
    else some (done.filter (keyOf history ·.id = key))

theorem Partition.Holds.append {p : Partition} {done : List Event} {event : Event}
    (h : p.Holds history done) {keysByID : AList fun _ : Int => Bytes}
    (hkeys : ∀ {e input}, e ∈ done ++ [event] → e.value = .call input →
      keysByID.lookup e.id = some (keyOf history e.id)) :
    ({ p with keysByID := keysByID }.append (keyOf history event.id) event).Holds history
      (done ++ [event]) where
  keysByID := hkeys
  byKey key := by
    rw [Partition.append]
    by_cases hkey : key = keyOf history event.id
    · subst hkey
      rw [AList.lookup_insert, h.byKey, List.filter_append, List.filter_cons_of_pos (by simp)]
      split <;> simp_all
    · rw [AList.lookup_insert_ne hkey, h.byKey, List.filter_append,
        List.filter_cons_of_neg (by simpa using Ne.symm hkey)]
      simp

theorem Partition.holds_foldl (hc : Complete (history.map Event.op)) {done : List Event}
    (hdone : done <+: history) : (done.foldl Partition.add ⟨∅, ∅⟩).Holds history done := by
  induction done using List.reverseRecOn with
  | nil => exact ⟨fun he => absurd he List.not_mem_nil, fun key => rfl⟩
  | append_singleton done event ih =>
    have h := ih ((List.prefix_append _ _).trans hdone)
    rw [List.foldl_append, List.foldl_cons, List.foldl_nil, Partition.add]
    have hmem : event ∈ history := hdone.subset (by simp)
    split
    · next input hcall =>
      rw [← keyOf_call hc hmem hcall]
      refine h.append ?_
      intro e input' he hcall'
      by_cases hid : e.id = event.id
      · rw [hid, AList.lookup_insert]
      · rw [AList.lookup_insert_ne hid]
        rcases List.mem_append.1 he with he | he
        · exact h.keysByID he hcall'
        · cases List.mem_singleton.1 he
          exact absurd rfl hid
    · next output hret =>
      -- its call came before it, so its key is known
      obtain ⟨rest, rfl⟩ := hdone
      have hsplit : ((done ++ [event] ++ rest).map Event.op) =
          done.map Event.op ++ .respond event.id output :: rest.map Event.op := by
        simp [Event.op_eq_respond.2 ⟨rfl, hret⟩]
      have hc' := hc
      rw [hsplit] at hc'
      obtain ⟨input, hinput⟩ := hc'.invoked_before
      obtain ⟨first, hfirst, hop⟩ := List.mem_map.1 hinput
      have hknown : (done.foldl Partition.add ⟨∅, ∅⟩).keysByID.lookup event.id =
          some (keyOf (done ++ [event] ++ rest) event.id) := by
        obtain ⟨hid, hcall⟩ := Event.op_eq_invoke.1 hop
        rw [← hid]
        exact h.keysByID hfirst hcall
      rw [hknown]
      refine h.append ?_
      intro e input' he hcall'
      rcases List.mem_append.1 he with he | he
      · exact h.keysByID he hcall'
      · cases List.mem_singleton.1 he
        rw [hret] at hcall'
        cases hcall'

theorem mem_partitionEvents (hc : Complete (history.map Event.op)) {part : List Event} :
    part ∈ partitionEvents history ↔
      part ≠ [] ∧ ∃ key, part = history.filter (keyOf history ·.id = key) := by
  have h := Partition.holds_foldl hc (List.prefix_refl history)
  rw [partitionEvents]
  simp only [List.mem_map, List.mem_insertionSort]
  constructor
  · rintro ⟨key, hkey, rfl⟩
    rw [← AList.mem_keys, ← AList.lookup_isSome, h.byKey] at hkey
    rw [h.byKey]
    split at hkey
    · cases hkey
    · next hne =>
      rw [if_neg hne]
      exact ⟨hne, key, rfl⟩
  · rintro ⟨hne, key, rfl⟩
    refine ⟨key, ?_, ?_⟩
    · rw [← AList.mem_keys, ← AList.lookup_isSome, h.byKey, if_neg hne]
      rfl
    · rw [h.byKey, if_neg hne]
      rfl

theorem map_op_filter (key : Bytes) :
    (history.filter (keyOf history ·.id = key)).map Event.op =
      restrict (keyOf history) key (history.map Event.op) := by
  rw [restrict, List.filter_map]
  refine congrArg _ (List.filter_congr ?_)
  intro event _
  rw [Function.comp_apply, Event.op]
  split <;> rfl

/-- A complete history has a linearization that the model accepts exactly when each of its
partitions has one. -/
theorem linearizable_iff_partitions (history : List Event)
    (hc : Complete (history.map Event.op)) :
    (∃ order, LinearizedBy kvModel (history.map Event.op) order) ↔
      ∀ part ∈ partitionEvents history,
        ∃ order, LinearizedBy kvModel (part.map Event.op) order := by
  have hkey {op : Int} {input : Input} (hi : .invoke op input ∈ history.map Event.op) :
      keyOf history op = input.key := by
    obtain ⟨event, he, hop⟩ := List.mem_map.1 hi
    obtain ⟨rfl, hcall⟩ := Event.op_eq_invoke.1 hop
    exact keyOf_call hc he hcall
  rw [linearizable_iff_restrict hc hkey kvModel_local]
  constructor
  · intro h part hpart
    obtain ⟨-, key, rfl⟩ := (mem_partitionEvents hc).1 hpart
    rw [map_op_filter]
    exact h key
  · intro h key
    rw [← map_op_filter]
    by_cases hempty : history.filter (keyOf history ·.id = key) = []
    · rw [hempty]
      exact ⟨[], List.nodup_nil, by simp, .nil, rfl⟩
    · exact h _ ((mem_partitionEvents hc).2 ⟨hempty, key, rfl⟩)

def overlapping : List Event :=
  [⟨0, .call ⟨.put, [1], [7]⟩, 0, ⟨4, 1⟩⟩, ⟨1, .call ⟨.get, [1], []⟩, 1, ⟨5, 1⟩⟩,
    ⟨2, .call ⟨.delete, [2], []⟩, 2, ⟨6, 1⟩⟩, ⟨1, .ret ⟨true, [7], true, false⟩, 1, ⟨5, 1⟩⟩,
    ⟨0, .ret ⟨true, [], false, false⟩, 0, ⟨4, 1⟩⟩, ⟨2, .ret ⟨false, [], false, true⟩, 2, ⟨6, 1⟩⟩]

theorem complete_overlapping : Complete (overlapping.map Event.op) where
  invokedOnce := by decide
  respondedOnce := by decide
  responds {op i} h := by
    simp only [overlapping, Event.op, List.map_cons, List.map_nil, List.mem_cons,
      OpEvent.invoke.injEq, reduceCtorEq, List.not_mem_nil, or_false] at h
    rcases h with ⟨rfl, rfl⟩ | ⟨rfl, rfl⟩ | ⟨rfl, rfl⟩
    · exact ⟨⟨true, [], false, false⟩, by decide⟩
    · exact ⟨⟨true, [7], true, false⟩, by decide⟩
    · exact ⟨⟨false, [], false, true⟩, by decide⟩
  invokes {op r} h := by
    simp only [overlapping, Event.op, List.map_cons, List.map_nil, List.mem_cons,
      OpEvent.respond.injEq, reduceCtorEq, List.not_mem_nil, or_false, false_or] at h
    rcases h with ⟨rfl, rfl⟩ | ⟨rfl, rfl⟩ | ⟨rfl, rfl⟩
    · exact ⟨⟨.get, [1], []⟩, by decide⟩
    · exact ⟨⟨.put, [1], [7]⟩, by decide⟩
    · exact ⟨⟨.delete, [2], []⟩, by decide⟩

theorem linearizable_iff_partitions_overlapping :
    (partitionEvents overlapping).map List.length = [4, 2] ∧
      ((∃ order, LinearizedBy kvModel (overlapping.map Event.op) order) ↔
        ∀ part ∈ partitionEvents overlapping,
          ∃ order, LinearizedBy kvModel (part.map Event.op) order) :=
  ⟨by decide +kernel, linearizable_iff_partitions overlapping complete_overlapping⟩

end MiniQuorum.Checker
