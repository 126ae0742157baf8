import Mathlib.Data.Prod.Lex
import MiniQuorum.Checker.Model

/-! Logical client histories, and the events by which they are checked.  An operation that
has not returned gets a response of unknown outcome behind all other events. -/

namespace MiniQuorum.Checker

open Codec Consensus StateMachine

structure Operation where
  clientId : UInt64
  seq : UInt64
  invokeTime : Int
  returnTime : Option Int
  input : Input
  output : Output
  deriving DecidableEq, Repr

abbrev History := List Operation

structure TimedEvent where
  time : Int
  call : Bool
  order : Nat
  event : Event
  deriving DecidableEq, Repr

def TimedEvent.less (a b : TimedEvent) : Bool :=
  if a.time ≠ b.time then a.time < b.time
  else if a.call ≠ b.call then a.call
  else a.order < b.order

namespace History

def clientIndex (h : History) (clientId : UInt64) : Nat :=
  ((h.map Operation.clientId).dedup.insertionSort (· ≤ ·)).idxOf clientId

def event (h : History) (operation : Operation) (id : Nat) (value : EventValue) : Event :=
  ⟨h.clientIndex operation.clientId, value, id, ⟨operation.clientId, operation.seq⟩⟩

def timed (h : History) : List TimedEvent :=
  h.zipIdx.flatMap fun (operation, id) =>
    ⟨operation.invokeTime, true, id, h.event operation id (.call operation.input)⟩ ::
      match operation.returnTime with
      | some time => [⟨time, false, id, h.event operation id (.ret operation.output)⟩]
      | none => []

def unfinished (h : History) : List Event :=
  h.zipIdx.flatMap fun (operation, id) =>
    match operation.returnTime with
    | some _ => []
    | none => [h.event operation id (.ret ⟨false, [], false, true⟩)]

def porcupineEvents (h : History) : List Event :=
  (h.timed.insertionSort fun a b => ¬b.less a).map TimedEvent.event ++ h.unfinished

end History

/-! ### Linearizability with open operations -/

def Input.mapOp (input : Input) : Option MapOp :=
  match input.op with
  | .put => some (.put input.key input.value)
  | .delete => some (.delete input.key)
  | .get => some (.get input.key)
  | _ => none

def Output.Fits (output : Output) (op : MapOp) (result : Result) : Prop :=
  output.unknown = true ∨
    output.ok = true ∧ ∀ key, op = .get key → result = ⟨output.value, output.found⟩

namespace History

def Executes (h : History) : (Bytes → Option Bytes) → List Nat → Prop
  | _, [] => True
  | m, id :: rest => ∃ operation op, h[id]? = some operation ∧ operation.input.mapOp = some op ∧
      (operation.returnTime.isSome → operation.output.Fits op (mapSpec.step m op).2) ∧
      Executes h (mapSpec.step m op).1 rest

def ReturnedBefore (h : History) (a b : Nat) : Prop :=
  ∃ first second time, h[a]? = some first ∧ h[b]? = some second ∧
    first.returnTime = some time ∧ time < second.invokeTime

/-- An order of the completed operations and of some of the open ones, which the map can
execute and which does not contradict their order in time. -/
structure ExplainedBy (h : History) (order : List Nat) : Prop where
  nodup : order.Nodup
  completed : ∀ {id operation}, h[id]? = some operation → operation.returnTime.isSome → id ∈ order
  realTime : order.Pairwise fun a b => ¬h.ReturnedBefore b a
  executes : h.Executes mapSpec.init order

def Linearizable (h : History) : Prop := ∃ order, h.ExplainedBy order

end History

/-! ### The order of the events -/

namespace TimedEvent

variable {a b c : TimedEvent}

def rank (a : TimedEvent) : Lex (Int × Lex (Bool × Nat)) := toLex (a.time, toLex (!a.call, a.order))

theorem less_iff : a.less b = true ↔ a.rank < b.rank := by
  rw [less, rank, rank, Prod.Lex.toLex_lt_toLex, Prod.Lex.toLex_lt_toLex]
  split
  · next hne => simp [hne]
  · next heq =>
    rw [not_not] at heq
    cases a.call <;> cases b.call <;> simp [heq]

theorem pairwise_sorted (l : List TimedEvent) :
    (l.insertionSort fun a b => ¬b.less a).Pairwise fun a b => a.rank ≤ b.rank := by
  have hle (a b : TimedEvent) : ¬b.less a = true ↔ a.rank ≤ b.rank := by
    rw [less_iff, not_lt]
  have : Std.Total fun a b : TimedEvent => ¬b.less a = true := by
    refine ⟨fun a b => ?_⟩
    rw [hle, hle]
    exact le_total _ _
  have : IsTrans TimedEvent fun a b => ¬b.less a = true := by
    refine ⟨fun a b c => ?_⟩
    rw [hle, hle, hle]
    exact le_trans
  exact (List.pairwise_insertionSort (fun a b : TimedEvent => ¬b.less a = true) l).imp (hle _ _).1

end TimedEvent

def Operation.response (operation : Operation) : Output :=
  if operation.returnTime.isSome then operation.output else ⟨false, [], false, true⟩

namespace History

variable {h : History}

def opEvents (h : History) : List (OpEvent Int Input Output) := h.porcupineEvents.map Event.op

def sorted (h : History) : List TimedEvent := h.timed.insertionSort fun a b => ¬b.less a

theorem opEvents_eq : h.opEvents = h.sorted.map (·.event.op) ++ h.unfinished.map Event.op := by
  rw [opEvents, porcupineEvents, List.map_append, List.map_map]
  rfl

theorem mem_sorted {x : TimedEvent} : x ∈ h.sorted ↔ ∃ id operation, h[id]? = some operation ∧
    (x = ⟨operation.invokeTime, true, id, h.event operation id (.call operation.input)⟩ ∨
      ∃ time, operation.returnTime = some time ∧
        x = ⟨time, false, id, h.event operation id (.ret operation.output)⟩) := by
  rw [sorted, List.mem_insertionSort, timed, List.mem_flatMap]
  constructor
  · rintro ⟨⟨operation, id⟩, hmem, hx⟩
    refine ⟨id, operation, List.mem_zipIdx_iff_getElem?.1 hmem, ?_⟩
    rcases List.mem_cons.1 hx with rfl | hx
    · exact .inl rfl
    · split at hx
      · next time htime => exact .inr ⟨time, htime, List.mem_singleton.1 hx⟩
      · cases hx
  · rintro ⟨id, operation, hget, hx⟩
    refine ⟨(operation, id), List.mem_zipIdx_iff_getElem?.2 hget, List.mem_cons.2 ?_⟩
    rcases hx with rfl | ⟨time, htime, rfl⟩
    · exact .inl rfl
    · right
      simp [htime]

theorem mem_unfinished {e : Event} : e ∈ h.unfinished ↔ ∃ id operation,
    h[id]? = some operation ∧ operation.returnTime = none ∧
      e = h.event operation id (.ret ⟨false, [], false, true⟩) := by
  rw [unfinished, List.mem_flatMap]
  constructor
  · rintro ⟨⟨operation, id⟩, hmem, he⟩
    refine ⟨id, operation, List.mem_zipIdx_iff_getElem?.1 hmem, ?_⟩
    dsimp only at he
    split at he
    · cases he
    · next hopen => exact ⟨hopen, List.mem_singleton.1 he⟩
  · rintro ⟨id, operation, hget, hopen, rfl⟩
    refine ⟨(operation, id), List.mem_zipIdx_iff_getElem?.2 hget, ?_⟩
    simp [hopen]

theorem not_invoke_unfinished {id : Int} {input : Input} :
    .invoke id input ∉ h.unfinished.map Event.op := by
  intro hmem
  obtain ⟨e, he, hop⟩ := List.mem_map.1 hmem
  obtain ⟨n, operation, -, -, rfl⟩ := mem_unfinished.1 he
  cases hop

theorem invoke_mem {id : Int} {input : Input} : .invoke id input ∈ h.opEvents ↔
    ∃ n : Nat, ∃ operation, h[n]? = some operation ∧ id = n ∧ input = operation.input := by
  rw [opEvents_eq, List.mem_append, or_iff_left not_invoke_unfinished, List.mem_map]
  constructor
  · rintro ⟨x, hx, hop⟩
    obtain ⟨n, operation, hget, rfl | ⟨time, -, rfl⟩⟩ := mem_sorted.1 hx
    · cases hop
      exact ⟨n, operation, hget, rfl, rfl⟩
    · cases hop
  · rintro ⟨n, operation, hget, rfl, rfl⟩
    exact ⟨_, mem_sorted.2 ⟨n, operation, hget, .inl rfl⟩, rfl⟩

theorem respond_mem {id : Int} {output : Output} : .respond id output ∈ h.opEvents ↔
    ∃ n : Nat, ∃ operation, h[n]? = some operation ∧ id = n ∧ output = operation.response := by
  rw [opEvents_eq, List.mem_append, List.mem_map, List.mem_map]
  constructor
  · rintro (⟨x, hx, hop⟩ | ⟨e, he, hop⟩)
    · obtain ⟨n, operation, hget, rfl | ⟨time, htime, rfl⟩⟩ := mem_sorted.1 hx
      · cases hop
      · cases hop
        refine ⟨n, operation, hget, rfl, ?_⟩
        rw [Operation.response, htime]
        rfl
    · obtain ⟨n, operation, hget, hopen, rfl⟩ := mem_unfinished.1 he
      cases hop
      refine ⟨n, operation, hget, rfl, ?_⟩
      rw [Operation.response, hopen]
      rfl
  · rintro ⟨n, operation, hget, rfl, rfl⟩
    rw [Operation.response]
    cases htime : operation.returnTime with
    | some time => exact .inl ⟨_, mem_sorted.2 ⟨n, operation, hget, .inr ⟨time, htime, rfl⟩⟩, rfl⟩
    | none => exact .inr ⟨_, mem_unfinished.2 ⟨n, operation, hget, htime, rfl⟩, rfl⟩

theorem precedes_iff {a b : Nat} : Precedes h.opEvents (a : Int) (b : Int) ↔
    h.ReturnedBefore a b := by
  have hsorted := TimedEvent.pairwise_sorted h.timed
  rw [← sorted] at hsorted
  rw [opEvents_eq]
  constructor
  · rintro ⟨early, late, heq, ⟨output, hret⟩, input, hcall⟩
    rcases List.append_eq_append_iff.1 heq with ⟨mid, rfl, hmid⟩ | ⟨mid, hmid, rfl⟩
    · have hcall : .invoke (b : Int) input ∈ h.unfinished.map Event.op := by
        rw [hmid]
        exact List.mem_append_right _ hcall
      exact absurd hcall not_invoke_unfinished
    · obtain ⟨before, after, hsplit, rfl, rfl⟩ := List.map_eq_append_iff.1 hmid
      rw [List.mem_append, or_iff_left not_invoke_unfinished] at hcall
      obtain ⟨x, hx, hxop⟩ := List.mem_map.1 hret
      obtain ⟨y, hy, hyop⟩ := List.mem_map.1 hcall
      have hle : x.rank ≤ y.rank := by
        rw [hsplit] at hsorted
        exact (List.pairwise_append.1 hsorted).2.2 x hx y hy
      obtain ⟨m, first, hfirst, rfl | ⟨time, htime, rfl⟩⟩ :=
        mem_sorted.1 (hsplit ▸ List.mem_append_left after hx)
      · cases hxop
      · obtain ⟨n, second, hsecond, rfl | ⟨time', -, rfl⟩⟩ :=
          mem_sorted.1 (hsplit ▸ List.mem_append_right before hy)
        · cases hxop
          cases hyop
          refine ⟨first, second, time, hfirst, hsecond, htime, ?_⟩
          rcases Prod.Lex.toLex_le_toLex.1 hle with hlt | ⟨-, hcalls⟩
          · exact hlt
          · -- at one time the call would come first
            rcases Prod.Lex.toLex_le_toLex.1 hcalls with hfalse | ⟨hfalse, -⟩
            · exact absurd (show true < false from hfalse) (by decide)
            · cases hfalse
        · cases hyop
  · rintro ⟨first, second, time, hfirst, hsecond, htime, hlt⟩
    let x : TimedEvent := ⟨time, false, a, h.event first a (.ret first.output)⟩
    let y : TimedEvent := ⟨second.invokeTime, true, b, h.event second b (.call second.input)⟩
    have hx : x ∈ h.sorted := mem_sorted.2 ⟨a, first, hfirst, .inr ⟨time, htime, rfl⟩⟩
    have hy : y ∈ h.sorted := mem_sorted.2 ⟨b, second, hsecond, .inl rfl⟩
    have hrank : x.rank < y.rank := Prod.Lex.toLex_lt_toLex.2 (.inl hlt)
    obtain ⟨before, after, hsplit⟩ := List.append_of_mem hx
    rw [hsplit] at hsorted hy ⊢
    have hafter : y ∈ after := by
      rcases List.mem_append.1 hy with hbefore | hcons
      · have hle := (List.pairwise_append.1 hsorted).2.2 y hbefore x List.mem_cons_self
        exact absurd hrank hle.not_gt
      · rcases List.mem_cons.1 hcons with heq | hafter
        · exact absurd (heq ▸ hrank) (lt_irrefl _)
        · exact hafter
    refine ⟨(before ++ [x]).map (·.event.op), after.map (·.event.op) ++ h.unfinished.map Event.op,
      by simp, ⟨first.output, ?_⟩, second.input, ?_⟩
    · exact List.mem_map.2 ⟨x, by simp, rfl⟩
    · exact List.mem_append_left _ (List.mem_map.2 ⟨y, hafter, rfl⟩)

end History

/-! ### The model and the map -/

def Agrees (s : KVState) (m : Bytes → Option Bytes) : Prop := ∀ key, s.lookup key = m key

theorem Agrees.step {s : KVState} {m : Bytes → Option Bytes} (hs : Agrees s m) {input : Input}
    {op : MapOp} (hop : input.mapOp = some op) (output : Output) :
    ((kvModel.step s input output).1 = true ↔ output.Fits op (mapSpec.step m op).2) ∧
      ((kvModel.step s input output).1 = true →
        Agrees (kvModel.step s input output).2 (mapSpec.step m op).1) := by
  obtain ⟨kind, key, value⟩ := input
  by_cases hnone : (!output.ok && !output.unknown) = true
  · simp only [kvModel, if_pos hnone, Output.Fits]
    simp_all
  · have htold : output.unknown = true ∨ output.ok = true := by
      cases hok : output.ok <;> simp_all
    cases kind with
    | put =>
      cases hop
      simp only [kvModel, if_neg hnone, mapSpec, Output.Fits, reduceCtorEq, false_implies,
        implies_true, and_true, true_iff, true_implies]
      refine ⟨htold, ?_⟩
      intro k
      by_cases hk : k = key
      · subst hk
        rw [Finmap.lookup_insert, Function.update_self]
      · rw [Finmap.lookup_insert_of_ne _ hk, Function.update_of_ne hk]
        exact hs k
    | delete =>
      cases hop
      simp only [kvModel, if_neg hnone, mapSpec, Output.Fits, reduceCtorEq, false_implies,
        implies_true, and_true, true_iff, true_implies]
      refine ⟨htold, ?_⟩
      intro k
      by_cases hk : k = key
      · subst hk
        rw [Finmap.lookup_erase, Function.update_self]
      · rw [Finmap.lookup_erase_ne hk, Function.update_of_ne hk]
        exact hs k
    | get =>
      cases hop
      by_cases hunknown : output.unknown = true
      · simp only [kvModel, if_neg hnone, if_pos hunknown, Output.Fits, mapSpec]
        exact ⟨by simp [hunknown], fun _ => hs⟩
      · simp only [kvModel, if_neg hnone, if_neg hunknown, Output.Fits, mapSpec, hs key]
        refine ⟨?_, fun _ => hs⟩
        simp only [Bool.and_eq_true, beq_iff_eq, hunknown, Bool.false_eq_true, false_or,
          htold.resolve_left hunknown, true_and, MapOp.get.injEq, forall_eq', Result.mk.injEq]
        exact ⟨fun h => ⟨h.2.symm, h.1.symm⟩, fun h => ⟨h.2.symm, h.1.symm⟩⟩
    | unspecified => cases hop
    | unrecognized value => cases hop

theorem Operation.response_fits {operation : Operation} {op : MapOp} {result : Result} :
    operation.response.Fits op result ↔
      (operation.returnTime.isSome → operation.output.Fits op result) := by
  rw [Operation.response]
  split
  · next hret => simp [hret]
  · next hopen => simp [hopen, Output.Fits]

namespace History

variable {h : History}

def entry (h : History) (id : Nat) : Option (Int × Input × Output) :=
  h[id]?.map fun operation => ((id : Int), operation.input, operation.response)

theorem accepts_iff_executes (hops : ∀ operation ∈ h, operation.input.mapOp.isSome)
    {s : KVState} {m : Bytes → Option Bytes} (hs : Agrees s m) {order : List Nat}
    (horder : ∀ id ∈ order, id < h.length) :
    kvModel.accepts s ((order.filterMap h.entry).map Prod.snd) = true ↔ h.Executes m order := by
  induction order generalizing s m with
  | nil => simp [CheckedSpec.accepts, Executes]
  | cons id order ih =>
    have hid := horder id (by simp)
    have hget : h[id]? = some h[id] := List.getElem?_eq_getElem hid
    obtain ⟨op, hop⟩ := Option.isSome_iff_exists.1 (hops h[id] (List.getElem_mem hid))
    obtain ⟨htakes, hnext⟩ := hs.step hop h[id].response
    rw [List.filterMap_cons_some (by rw [entry, hget, Option.map_some])]
    simp only [List.map_cons, CheckedSpec.accepts, Bool.and_eq_true, Executes, hget,
      Option.some.injEq, exists_and_left, exists_eq_left', hop]
    rw [htakes, Operation.response_fits]
    refine and_congr_right ?_
    intro hfits
    exact ih (hnext (htakes.2 (Operation.response_fits.2 hfits)))
      fun k hk => horder k (by simp [hk])

theorem Executes.bounded {m : Bytes → Option Bytes} {order : List Nat} (hx : h.Executes m order) :
    ∀ id ∈ order, id < h.length := by
  induction order generalizing m with
  | nil => simp
  | cons id order ih =>
    obtain ⟨operation, op, hget, -, -, hrest⟩ := hx
    intro k hk
    rcases List.mem_cons.1 hk with rfl | hk
    · exact (List.getElem?_eq_some_iff.1 hget).1
    · exact ih hrest k hk

theorem Executes.append {order open_ : List Nat} (hops : ∀ operation ∈ h, operation.input.mapOp.isSome)
    (hopen : ∀ id ∈ open_, ∃ operation, h[id]? = some operation ∧ operation.returnTime = none)
    {m : Bytes → Option Bytes} (hx : h.Executes m order) : h.Executes m (order ++ open_) := by
  induction order generalizing m with
  | nil =>
    clear hx
    induction open_ generalizing m with
    | nil => trivial
    | cons id open_ ih =>
      obtain ⟨operation, hget, hret⟩ := hopen id (by simp)
      obtain ⟨op, hop⟩ := Option.isSome_iff_exists.1
        (hops operation (List.mem_of_getElem? hget))
      refine ⟨operation, op, hget, hop, ?_, ih fun k hk => hopen k (by simp [hk])⟩
      rw [hret]
      simp
  | cons id order ih =>
    obtain ⟨operation, op, hget, hop, hfits, hrest⟩ := hx
    exact ⟨operation, op, hget, hop, hfits, ih hrest⟩

end History

theorem agrees_init : Agrees kvModel.init mapSpec.init := fun _ => Finmap.lookup_empty _

theorem History.linearizable_of_events {h : History}
    (hops : ∀ operation ∈ h, operation.input.mapOp.isSome) {order : List (Int × Input × Output)}
    (hl : LinearizedBy kvModel h.opEvents order) : h.Linearizable := by
  have hentry {x : Int × Input × Output} (hx : x ∈ order) :
      ((x.1.toNat : Nat) : Int) = x.1 ∧ x.1.toNat < h.length ∧ h.entry x.1.toNat = some x := by
    obtain ⟨id, input, output⟩ := x
    obtain ⟨hi, hr⟩ := hl.mem_iff.1 hx
    obtain ⟨n, operation, hget, rfl, rfl⟩ := invoke_mem.1 hi
    obtain ⟨n', operation', hget', hn, rfl⟩ := respond_mem.1 hr
    cases Int.ofNat.inj hn
    cases hget.symm.trans hget'
    refine ⟨rfl, (List.getElem?_eq_some_iff.1 hget).1, ?_⟩
    rw [entry, Int.toNat_natCast, hget]
    rfl
  refine ⟨order.map (·.1.toNat), ?_, ?_, ?_, ?_⟩
  · refine hl.nodup.map_on ?_
    intro x hx y hy hxy
    have hxe := (hentry hx).2.2
    rw [hxy, (hentry hy).2.2] at hxe
    exact (Option.some.inj hxe).symm
  · intro id operation hget hret
    refine List.mem_map.2 ⟨(id, operation.input, operation.response), hl.mem_iff.2 ⟨?_, ?_⟩, rfl⟩
    · exact invoke_mem.2 ⟨id, operation, hget, rfl, rfl⟩
    · exact respond_mem.2 ⟨id, operation, hget, rfl, rfl⟩
  · refine List.pairwise_map.2 (hl.realTime.imp_of_mem ?_)
    intro a b ha hb hab
    rwa [← precedes_iff, (hentry ha).1, (hentry hb).1]
  · refine (accepts_iff_executes hops agrees_init ?_).1 ?_
    · intro id hid
      obtain ⟨x, hx, rfl⟩ := List.mem_map.1 hid
      exact (hentry hx).2.1
    · have hself : (order.map (·.1.toNat)).filterMap h.entry = order := by
        rw [List.filterMap_map]
        have hcongr : order.filterMap (h.entry ∘ (·.1.toNat)) = order.filterMap some :=
          List.filterMap_congr fun x hx => (hentry hx).2.2
        rw [hcongr, List.filterMap_some]
      rw [hself]
      exact hl.accepted

theorem History.Linearizable.events {h : History}
    (hops : ∀ operation ∈ h, operation.input.mapOp.isSome) (hlin : h.Linearizable) :
    ∃ order, LinearizedBy kvModel h.opEvents order := by
  obtain ⟨order, hl⟩ := hlin
  -- the operations that did not take effect are put behind the others
  let rest := (List.range h.length).filter (· ∉ order)
  have hrest {id : Nat} : id ∈ rest ↔ id < h.length ∧ id ∉ order := by
    rw [List.mem_filter, List.mem_range, decide_eq_true_eq]
  have hopen : ∀ id ∈ rest, ∃ operation, h[id]? = some operation ∧ operation.returnTime = none := by
    intro id hid
    obtain ⟨hlt, hnot⟩ := hrest.1 hid
    refine ⟨h[id], List.getElem?_eq_getElem hlt, ?_⟩
    by_contra hret
    exact hnot (hl.completed (List.getElem?_eq_getElem hlt) (Option.isSome_iff_ne_none.2 hret))
  have hexec := hl.executes.append hops hopen
  have hbounded := hexec.bounded
  have hmem {id : Nat} : id ∈ order ++ rest ↔ id < h.length := by
    refine ⟨hbounded id, ?_⟩
    intro hlt
    by_cases hin : id ∈ order
    · exact List.mem_append_left _ hin
    · exact List.mem_append_right _ (hrest.2 ⟨hlt, hin⟩)
  have hnodup : (order ++ rest).Nodup := by
    refine hl.nodup.append (List.nodup_range.filter _) ?_
    intro id hid hid'
    exact (hrest.1 hid').2 hid
  have hentry {id : Nat} {x : Int × Input × Output} (hx : h.entry id = some x) : x.1 = id := by
    rw [entry, Option.map_eq_some_iff] at hx
    obtain ⟨operation, -, rfl⟩ := hx
    rfl
  refine ⟨(order ++ rest).filterMap h.entry, ?_, ?_, ?_, ?_⟩
  · refine hnodup.filterMap ?_
    intro a b x ha hb
    exact Int.ofNat.inj ((hentry ha).symm.trans (hentry hb))
  · intro op i r
    rw [invoke_mem, respond_mem, List.mem_filterMap]
    constructor
    · rintro ⟨id, hid, hx⟩
      rw [entry, Option.map_eq_some_iff] at hx
      obtain ⟨operation, hget, hx⟩ := hx
      cases hx
      exact ⟨⟨id, operation, hget, rfl, rfl⟩, id, operation, hget, rfl, rfl⟩
    · rintro ⟨⟨n, operation, hget, rfl, rfl⟩, n', operation', hget', hn, rfl⟩
      cases Int.ofNat.inj hn
      cases hget.symm.trans hget'
      refine ⟨n, hmem.2 (List.getElem?_eq_some_iff.1 hget).1, ?_⟩
      rw [entry, hget]
      rfl
  · have htime : (order ++ rest).Pairwise fun a b => ¬h.ReturnedBefore b a := by
      have hlate (a b : Nat) (hb : b ∈ rest) : ¬h.ReturnedBefore b a := by
        rintro ⟨first, second, time, hfirst, -, htime, -⟩
        obtain ⟨operation, hget, hret⟩ := hopen b hb
        cases hfirst.symm.trans hget
        rw [hret] at htime
        cases htime
      refine List.pairwise_append.2 ⟨hl.realTime, ?_, fun a _ b hb => hlate a b hb⟩
      exact List.pairwise_of_forall_mem_list fun a _ b hb => hlate a b hb
    refine List.pairwise_filterMap.2 (htime.imp ?_)
    intro a b hab x hx y hy
    rwa [hentry hx, hentry hy, precedes_iff]
  · exact (accepts_iff_executes hops agrees_init hbounded).2 hexec

/-- The events have a linearization that the model accepts exactly when the history is
linearizable, its open operations taking effect at some time or never. -/
theorem porcupineEvents_linearizable_iff (h : History)
    (hops : ∀ operation ∈ h, operation.input.mapOp.isSome) :
    (∃ order, LinearizedBy kvModel (h.porcupineEvents.map Event.op) order) ↔ h.Linearizable := by
  constructor
  · rintro ⟨order, hl⟩
    exact History.linearizable_of_events hops hl
  · exact History.Linearizable.events hops

def openPut : History :=
  [⟨1, 1, 0, none, ⟨.put, [1], [7]⟩, ⟨false, [], false, false⟩⟩,
    ⟨2, 1, 2, some 3, ⟨.get, [1], []⟩, ⟨true, [7], true, false⟩⟩]

theorem porcupineEvents_linearizable_iff_openPut :
    openPut.porcupineEvents.map Event.id = [0, 1, 1, 0] ∧
      ∃ order, LinearizedBy kvModel (openPut.porcupineEvents.map Event.op) order := by
  refine ⟨by decide +kernel, (porcupineEvents_linearizable_iff openPut (by decide)).2 ?_⟩
  refine ⟨[0, 1], by decide, ?_, ?_, ?_⟩
  · intro id operation hget _
    have hlt := (List.getElem?_eq_some_iff.1 hget).1
    simp only [openPut, List.length_cons, List.length_nil] at hlt
    simp only [List.mem_cons]
    omega
  · refine List.pairwise_pair.2 ?_
    rintro ⟨first, second, time, hfirst, hsecond, htime, hlt⟩
    cases hfirst
    cases hsecond
    cases htime
    exact absurd hlt (by decide)
  · refine ⟨_, _, rfl, rfl, by simp, _, _, rfl, rfl, fun _ => .inr ⟨rfl, ?_⟩, trivial⟩
    rintro key ⟨⟩
    decide

end MiniQuorum.Checker
