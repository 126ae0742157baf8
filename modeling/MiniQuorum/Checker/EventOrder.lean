import MiniQuorum.Checker.History

/-! The events of a history, one call and one return for each operation, in an order that says
exactly which operations returned before which others were invoked. -/

namespace MiniQuorum.Checker

open Codec Consensus StateMachine
open scoped List

theorem pair_sublist_of_pairwise {α : Type} {R : α → α → Prop} {l : List α} {x y : α}
    (hl : l.Pairwise R) (hx : x ∈ l) (hy : y ∈ l) (hne : x ≠ y) (hnot : ¬R y x) : [x, y] <+ l := by
  obtain ⟨before, after, rfl⟩ := List.append_of_mem hx
  have hafter : y ∈ after := by
    rcases List.mem_append.1 hy with hbefore | hcons
    · exact absurd ((List.pairwise_append.1 hl).2.2 y hbefore x List.mem_cons_self) hnot
    · exact (List.mem_cons.1 hcons).resolve_left hne.symm
  exact (List.Sublist.cons_cons x (List.singleton_sublist.2 hafter)).trans
    (List.sublist_append_right _ _)

namespace History

variable {h : History} {operation first second : Operation} {id a b : Nat} {e : Event}

def callEvent (h : History) (operation : Operation) (id : Nat) : Event :=
  h.event operation id (.call operation.input)

def returnEvent (h : History) (operation : Operation) (id : Nat) : Event :=
  h.event operation id (.ret operation.response)

theorem returnEvent_of_completed {time : Int} (hret : operation.returnTime = some time) :
    h.returnEvent operation id = h.event operation id (.ret operation.output) := by
  rw [returnEvent, Operation.response, hret]
  rfl

theorem returnEvent_of_open (hopen : operation.returnTime = none) :
    h.returnEvent operation id = h.event operation id (.ret ⟨false, [], false, true⟩) := by
  rw [returnEvent, Operation.response, hopen]
  rfl

theorem porcupineEvents_perm (h : History) :
    h.porcupineEvents.Perm
      (h.zipIdx.flatMap fun x => [h.callEvent x.1 x.2, h.returnEvent x.1 x.2]) := by
  have hsorted : h.porcupineEvents.Perm (h.timed.map TimedEvent.event ++ h.unfinished) :=
    ((List.perm_insertionSort _ _).map _).append_right _
  refine hsorted.trans ?_
  rw [timed, unfinished, List.map_flatMap]
  refine (List.flatMap_append_perm _ _ _).trans (List.Perm.of_eq ?_)
  refine List.flatMap_congr ?_
  rintro ⟨operation, id⟩ -
  cases hret : operation.returnTime with
  | none => simp [callEvent, returnEvent_of_open hret, hret]
  | some time => simp [callEvent, returnEvent_of_completed hret, hret]

theorem mem_porcupineEvents : e ∈ h.porcupineEvents ↔ ∃ id operation, h[id]? = some operation ∧
    (e = h.callEvent operation id ∨ e = h.returnEvent operation id) := by
  rw [h.porcupineEvents_perm.mem_iff, List.mem_flatMap]
  simp only [Prod.exists, List.mem_zipIdx_iff_getElem?, List.mem_cons, List.not_mem_nil, or_false]
  exact exists_comm

theorem porcupineEvents_eq : h.porcupineEvents = h.sorted.map TimedEvent.event ++ h.unfinished := rfl

theorem callEvent_mem_sorted (hget : h[id]? = some operation) :
    h.callEvent operation id ∈ h.sorted.map TimedEvent.event :=
  List.mem_map.2 ⟨_, mem_sorted.2 ⟨id, operation, hget, .inl rfl⟩, rfl⟩

theorem returnEvent_mem_unfinished (hget : h[id]? = some operation)
    (hopen : operation.returnTime = none) : h.returnEvent operation id ∈ h.unfinished :=
  mem_unfinished.2 ⟨id, operation, hget, hopen, returnEvent_of_open hopen⟩

theorem call_before_return (hget : h[id]? = some operation)
    (htime : ∀ time, operation.returnTime = some time → operation.invokeTime ≤ time) :
    [h.callEvent operation id, h.returnEvent operation id] <+ h.porcupineEvents := by
  rw [porcupineEvents_eq]
  cases hret : operation.returnTime with
  | none =>
    exact (List.singleton_sublist.2 (callEvent_mem_sorted hget)).append
      (List.singleton_sublist.2 (returnEvent_mem_unfinished hget hret))
  | some time =>
    let call : TimedEvent := ⟨operation.invokeTime, true, id, h.callEvent operation id⟩
    let ret : TimedEvent := ⟨time, false, id, h.event operation id (.ret operation.output)⟩
    have hcall : call ∈ h.sorted := mem_sorted.2 ⟨id, operation, hget, .inl rfl⟩
    have hreturn : ret ∈ h.sorted := mem_sorted.2 ⟨id, operation, hget, .inr ⟨time, hret, rfl⟩⟩
    have hrank : call.rank < ret.rank := by
      -- at one time the call is sorted first
      rcases (htime time hret).lt_or_eq with hlt | heq
      · exact Prod.Lex.toLex_lt_toLex.2 (.inl hlt)
      · exact Prod.Lex.toLex_lt_toLex.2 (.inr ⟨heq, Prod.Lex.toLex_lt_toLex.2
          (.inl (show false < true by decide))⟩)
    have hpair : [call, ret] <+ h.sorted :=
      pair_sublist_of_pairwise (TimedEvent.pairwise_sorted h.timed) hcall hreturn
        (fun heq => lt_irrefl _ (heq ▸ hrank)) hrank.not_ge
    rw [returnEvent_of_completed hret]
    exact (hpair.map TimedEvent.event).trans (List.sublist_append_left _ _)

theorem eq_of_op_respond (he : e ∈ h.porcupineEvents) {output : Output}
    (hop : e.op = .respond (a : Int) output) (hget : h[a]? = some first) :
    e = h.returnEvent first a := by
  obtain ⟨id, operation, hid, rfl | rfl⟩ := mem_porcupineEvents.1 he
  · cases hop
  · cases hop
    cases hid.symm.trans hget
    rfl

theorem eq_of_op_invoke (he : e ∈ h.porcupineEvents) {input : Input}
    (hop : e.op = .invoke (b : Int) input) (hget : h[b]? = some second) :
    e = h.callEvent second b := by
  obtain ⟨id, operation, hid, rfl | rfl⟩ := mem_porcupineEvents.1 he
  · cases hop
    cases hid.symm.trans hget
    rfl
  · cases hop

theorem return_before_call_iff (ha : h[a]? = some first) (hb : h[b]? = some second) :
    [h.returnEvent first a, h.callEvent second b] <+ h.porcupineEvents ↔
      ∃ time, first.returnTime = some time ∧ time < second.invokeTime := by
  have hreturned : h.ReturnedBefore a b ↔
      ∃ time, first.returnTime = some time ∧ time < second.invokeTime := by
    simp [ReturnedBefore, ha, hb]
  rw [← hreturned, ← precedes_iff, List.cons_sublist_iff]
  constructor
  · rintro ⟨early, late, heq, hret, hcall⟩
    refine ⟨early.map Event.op, late.map Event.op, ?_, ⟨_, List.mem_map_of_mem hret⟩,
      _, List.mem_map_of_mem (List.singleton_sublist.1 hcall)⟩
    rw [opEvents, heq, List.map_append]
  · rintro ⟨early, late, heq, ⟨output, hret⟩, input, hcall⟩
    obtain ⟨before, after, hsplit, rfl, rfl⟩ := List.map_eq_append_iff.1 heq
    obtain ⟨x, hx, hxop⟩ := List.mem_map.1 hret
    obtain ⟨y, hy, hyop⟩ := List.mem_map.1 hcall
    refine ⟨before, after, hsplit, ?_, List.singleton_sublist.2 ?_⟩
    · rw [← eq_of_op_respond (hsplit ▸ List.mem_append_left _ hx) hxop ha]
      exact hx
    · rw [← eq_of_op_invoke (hsplit ▸ List.mem_append_right _ hy) hyop hb]
      exact hy

theorem open_return_last (ha : h[a]? = some first) (hopen : first.returnTime = none)
    (he : e ∈ h.porcupineEvents)
    (hother : ∀ id operation, h[id]? = some operation → operation.returnTime = none →
      e ≠ h.returnEvent operation id) :
    [e, h.returnEvent first a] <+ h.porcupineEvents := by
  rw [porcupineEvents_eq, List.mem_append] at he
  have hsorted : e ∈ h.sorted.map TimedEvent.event := by
    refine he.resolve_right ?_
    intro hunfinished
    obtain ⟨id, operation, hget, hret, rfl⟩ := mem_unfinished.1 hunfinished
    exact hother id operation hget hret (returnEvent_of_open hret).symm
  rw [porcupineEvents_eq]
  exact (List.singleton_sublist.2 hsorted).append
    (List.singleton_sublist.2 (returnEvent_mem_unfinished ha hopen))

/-- The events of a history whose operations do not return before they are invoked: one call
and one return for each operation, each call before its return, a return before a call exactly
if it is in time, and the returns of open operations behind all others. -/
theorem porcupineEvents_realTime (h : History)
    (htimes : ∀ operation ∈ h, ∀ time, operation.returnTime = some time →
      operation.invokeTime ≤ time) :
    h.porcupineEvents.Perm
        (h.zipIdx.flatMap fun x => [h.callEvent x.1 x.2, h.returnEvent x.1 x.2]) ∧
      (∀ id operation, h[id]? = some operation →
        [h.callEvent operation id, h.returnEvent operation id] <+ h.porcupineEvents) ∧
      (∀ a b first second, h[a]? = some first → h[b]? = some second →
        ([h.returnEvent first a, h.callEvent second b] <+ h.porcupineEvents ↔
          ∃ time, first.returnTime = some time ∧ time < second.invokeTime)) ∧
      ∀ a first, h[a]? = some first → first.returnTime = none → ∀ e ∈ h.porcupineEvents,
        (∀ id operation, h[id]? = some operation → operation.returnTime = none →
          e ≠ h.returnEvent operation id) →
        [e, h.returnEvent first a] <+ h.porcupineEvents := by
  refine ⟨h.porcupineEvents_perm, ?_, fun a b first second => return_before_call_iff,
    fun a first ha hopen e => open_return_last ha hopen⟩
  intro id operation hget
  exact call_before_return hget (htimes operation (List.mem_of_getElem? hget))

def answeredPut : Operation := ⟨1, 1, 0, some 2, ⟨.put, [1], [7]⟩, ⟨true, [], false, false⟩⟩

def openDelete : Operation := ⟨2, 1, 2, none, ⟨.delete, [1], []⟩, ⟨false, [], false, false⟩⟩

def answeredGet : Operation := ⟨3, 1, 3, some 4, ⟨.get, [1], []⟩, ⟨true, [7], true, false⟩⟩

/-- The put returns when the delete is called, which does not make it the earlier one; the get is
called later.  The delete, still open, returns behind the get. -/
theorem porcupineEvents_realTime_openDelete :
    let h : History := [answeredPut, openDelete, answeredGet]
    h.porcupineEvents.Perm
        [h.callEvent answeredPut 0, h.returnEvent answeredPut 0,
          h.callEvent openDelete 1, h.returnEvent openDelete 1,
          h.callEvent answeredGet 2, h.returnEvent answeredGet 2] ∧
      [h.callEvent answeredGet 2, h.returnEvent answeredGet 2] <+ h.porcupineEvents ∧
      ¬ [h.returnEvent answeredPut 0, h.callEvent openDelete 1] <+ h.porcupineEvents ∧
      [h.returnEvent answeredPut 0, h.callEvent answeredGet 2] <+ h.porcupineEvents ∧
      [h.returnEvent answeredGet 2, h.returnEvent openDelete 1] <+ h.porcupineEvents := by
  intro h
  obtain ⟨hperm, hown, hbetween, hopen⟩ := porcupineEvents_realTime h (by decide)
  refine ⟨hperm, hown 2 _ rfl, ?_, (hbetween 0 2 _ _ rfl rfl).2 ⟨2, rfl, by decide⟩,
    hopen 1 _ rfl rfl _ (hperm.mem_iff.2 (by simp [h])) ?_⟩
  · intro hsub
    obtain ⟨time, ⟨⟩, hlt⟩ := (hbetween 0 1 _ _ rfl rfl).1 hsub
    exact absurd hlt (by decide)
  · intro id operation hget hret heq
    obtain rfl : 2 = id := Int.ofNat.inj (congrArg Event.id heq)
    cases hget
    cases hret

end History

end MiniQuorum.Checker
