import MiniQuorum.Checker.History

/-! The recorder of client sessions.  It keeps the operations of all clients in the order of
their invocations, and which of them is open for each client. -/

namespace MiniQuorum.Checker

inductive RecorderError
  | outstandingOperation
  | noOutstandingOperation (clientId seq : UInt64)
  | sequenceNotIncreasing (clientId seq last : UInt64)
  | returnPrecedesInvoke (time invoke : Int)
  | timeoutPrecedesInvoke (time invoke : Int)
  | unknownOutcome
  deriving DecidableEq, Repr

structure Recorder where
  history : History
  active : UInt64 → Option Nat
  lastSeq : UInt64 → Option UInt64
  indexed : ∀ {clientId index}, active clientId = some index → index < history.length

namespace Recorder

def new : Recorder where
  history := []
  active _ := none
  lastSeq _ := none
  indexed := nofun

def begin (r : Recorder) (operation : Operation) : Recorder where
  history := r.history ++ [operation]
  active := Function.update r.active operation.clientId (some r.history.length)
  lastSeq := Function.update r.lastSeq operation.clientId (some operation.seq)
  indexed := by
    intro clientId index h
    rw [List.length_append, List.length_singleton]
    by_cases hc : clientId = operation.clientId
    · subst hc
      rw [Function.update_self] at h
      cases h
      exact Nat.lt_succ_self _
    · rw [Function.update_of_ne hc] at h
      exact Nat.lt_succ_of_lt (r.indexed h)

def finish (r : Recorder) (index : Nat) (operation : Operation) : Recorder where
  history := r.history.set index operation
  active := Function.update r.active operation.clientId none
  lastSeq := r.lastSeq
  indexed := by
    intro clientId i h
    rw [List.length_set]
    by_cases hc : clientId = operation.clientId
    · subst hc
      rw [Function.update_self] at h
      cases h
    · rw [Function.update_of_ne hc] at h
      exact r.indexed h

def invoke (r : Recorder) (clientId seq : UInt64) (time : Int) (input : Input) :
    Except RecorderError Recorder :=
  if (r.active clientId).isSome then .error .outstandingOperation
  else
    let started := r.begin ⟨clientId, seq, time, none, input, ⟨false, [], false, false⟩⟩
    match r.lastSeq clientId with
    | some last =>
      if seq ≤ last then .error (.sequenceNotIncreasing clientId seq last) else .ok started
    | none => .ok started

def activeIndex (r : Recorder) (clientId seq : UInt64) :
    Except RecorderError (Fin r.history.length) :=
  match h : r.active clientId with
  | some index =>
    if (r.history.get ⟨index, r.indexed h⟩).seq ≠ seq then
      .error (.noOutstandingOperation clientId seq)
    else .ok ⟨index, r.indexed h⟩
  | none => .error (.noOutstandingOperation clientId seq)

def retry (r : Recorder) (clientId seq : UInt64) : Except RecorderError Unit := do
  let _ ← r.activeIndex clientId seq

def complete (r : Recorder) (clientId seq : UInt64) (time : Int) (output : Output) :
    Except RecorderError Recorder := do
  let index ← r.activeIndex clientId seq
  let operation := r.history.get index
  if time < operation.invokeTime then
    throw (.returnPrecedesInvoke time operation.invokeTime)
  else if output.unknown then throw .unknownOutcome
  else return r.finish index { operation with returnTime := some time, output }

def timeout (r : Recorder) (clientId seq : UInt64) (time : Int) : Except RecorderError Unit := do
  let index ← r.activeIndex clientId seq
  let operation := r.history.get index
  if time < operation.invokeTime then
    throw (.timeoutPrecedesInvoke time operation.invokeTime)

end Recorder

/-! ### Sessions -/

def History.session (h : History) (clientId : UInt64) : History :=
  h.filter fun operation => operation.clientId = clientId

namespace Recorder

variable {r : Recorder} {index : Nat} {operation other : Operation} {clientId : UInt64}

@[simp] theorem history_begin (r : Recorder) (operation : Operation) :
    (r.begin operation).history = r.history ++ [operation] := rfl

@[simp] theorem history_finish (r : Recorder) (index : Nat) (operation : Operation) :
    (r.finish index operation).history = r.history.set index operation := rfl

structure Outstanding (r : Recorder) (index : Nat) (operation : Operation) : Prop where
  active : r.active operation.clientId = some index
  recorded : r.history[index]? = some operation
  unreturned : operation.returnTime = none
  last : ∀ {i other}, index < i → r.history[i]? = some other →
    other.clientId ≠ operation.clientId

theorem session_begin_self (r : Recorder) (operation : Operation) :
    (r.begin operation).history.session operation.clientId =
      r.history.session operation.clientId ++ [operation] := by
  simp [History.session]

theorem session_begin_of_ne (h : operation.clientId ≠ clientId) :
    (r.begin operation).history.session clientId = r.history.session clientId := by
  simp [History.session, h]

theorem outstanding_begin (r : Recorder) (h : operation.returnTime = none) :
    (r.begin operation).Outstanding r.history.length operation where
  active := Function.update_self ..
  recorded := List.getElem?_concat_length
  unreturned := h
  last hi hother := by
    have := (List.getElem?_eq_some_iff.1 hother).1
    rw [history_begin, List.length_append, List.length_singleton] at this
    omega

namespace Outstanding

protected theorem begin (h : r.Outstanding index operation)
    (hother : other.clientId ≠ operation.clientId) :
    (r.begin other).Outstanding index operation where
  active := (Function.update_of_ne hother.symm ..).trans h.active
  recorded := by
    have hlt := (List.getElem?_eq_some_iff.1 h.recorded).1
    rw [history_begin, List.getElem?_append_left hlt]
    exact h.recorded
  unreturned := h.unreturned
  last {i o} hi ho := by
    by_cases hlt : i < r.history.length
    · rw [history_begin, List.getElem?_append_left hlt] at ho
      exact h.last hi ho
    · rw [history_begin, List.getElem?_append_right (Nat.le_of_not_lt hlt),
        List.getElem?_singleton] at ho
      split at ho
      · cases ho
        exact hother
      · cases ho

protected theorem finish {i : Nat} {before after : Operation} (h : r.Outstanding index operation)
    (hbefore : r.history[i]? = some before) (hsame : after.clientId = before.clientId)
    (hother : before.clientId ≠ operation.clientId) :
    (r.finish i after).Outstanding index operation where
  active := (Function.update_of_ne (hsame.trans_ne hother).symm ..).trans h.active
  recorded := by
    have hne : i ≠ index := by
      rintro rfl
      rw [h.recorded] at hbefore
      cases hbefore
      exact hother rfl
    rw [history_finish, List.getElem?_set_ne hne]
    exact h.recorded
  unreturned := h.unreturned
  last {j o} hj ho := by
    by_cases hij : i = j
    · subst hij
      rw [history_finish, List.getElem?_set_self (List.getElem?_eq_some_iff.1 hbefore).1] at ho
      cases ho
      exact hsame.trans_ne hother
    · rw [history_finish, List.getElem?_set_ne hij] at ho
      exact h.last hj ho

theorem history_eq (h : r.Outstanding index operation) :
    r.history = r.history.take index ++ operation :: r.history.drop (index + 1) := by
  obtain ⟨hlt, heq⟩ := List.getElem?_eq_some_iff.1 h.recorded
  rw [← heq, List.cons_getElem_drop_succ, List.take_append_drop]

theorem session_drop (h : r.Outstanding index operation) :
    (r.history.drop (index + 1)).filter (fun o => o.clientId = operation.clientId) = [] := by
  rw [List.filter_eq_nil_iff]
  intro o ho
  obtain ⟨i, hi⟩ := List.mem_iff_getElem?.1 ho
  rw [List.getElem?_drop] at hi
  simpa using h.last (by omega) hi

theorem session_finish (h : r.Outstanding index operation) (other : Operation)
    (hsame : other.clientId = operation.clientId) :
    ∃ earlier, r.history.session operation.clientId = earlier ++ [operation] ∧
      (r.finish index other).history.session operation.clientId = earlier ++ [other] := by
  have hlt := (List.getElem?_eq_some_iff.1 h.recorded).1
  refine ⟨History.session (r.history.take index) operation.clientId, ?_, ?_⟩
  · conv_lhs => rw [h.history_eq]
    simp [History.session, h.session_drop]
  · rw [history_finish, List.set_eq_take_append_cons_drop, if_pos hlt]
    simp [History.session, h.session_drop, hsame]

theorem session_finish_of_ne (h : r.Outstanding index operation)
    (hsame : other.clientId = operation.clientId) (hne : operation.clientId ≠ clientId) :
    (r.finish index other).history.session clientId = r.history.session clientId := by
  have hlt := (List.getElem?_eq_some_iff.1 h.recorded).1
  conv_rhs => rw [h.history_eq]
  rw [history_finish, List.set_eq_take_append_cons_drop, if_pos hlt]
  simp [History.session, hsame, hne]

/-! The calls for an outstanding operation -/

theorem activeIndex_eq (h : r.Outstanding index operation) :
    ∃ hlt, r.activeIndex operation.clientId operation.seq = .ok ⟨index, hlt⟩ ∧
      r.history.get ⟨index, hlt⟩ = operation := by
  obtain ⟨hlt, heq⟩ := List.getElem?_eq_some_iff.1 h.recorded
  refine ⟨hlt, ?_, heq⟩
  rw [activeIndex]
  split
  · next i hi =>
    cases h.active.symm.trans hi
    rw [if_neg (by simp [heq])]
  · next hi => cases h.active.symm.trans hi

theorem retry_eq (h : r.Outstanding index operation) :
    r.retry operation.clientId operation.seq = .ok () := by
  obtain ⟨_, hindex, _⟩ := h.activeIndex_eq
  rw [retry, hindex]
  rfl

theorem timeout_eq {time : Int} (h : r.Outstanding index operation)
    (htime : operation.invokeTime ≤ time) :
    r.timeout operation.clientId operation.seq time = .ok () := by
  obtain ⟨_, hindex, hget⟩ := h.activeIndex_eq
  rw [timeout, hindex]
  show (if time < (r.history.get _).invokeTime then _ else _) = _
  rw [hget, if_neg (Int.not_lt.2 htime)]
  rfl

theorem complete_eq {time : Int} {output : Output} (h : r.Outstanding index operation)
    (htime : operation.invokeTime ≤ time) (hknown : output.unknown = false) :
    r.complete operation.clientId operation.seq time output =
      .ok (r.finish index { operation with returnTime := some time, output }) := by
  obtain ⟨_, hindex, hget⟩ := h.activeIndex_eq
  rw [complete, hindex]
  show (if time < (r.history.get _).invokeTime then _ else _) = _
  rw [hget, if_neg (Int.not_lt.2 htime), hknown]
  rfl

end Outstanding

theorem invoke_eq {seq : UInt64} {time : Int} {input : Input} (hactive : r.active clientId = none)
    (hseq : ∀ last, r.lastSeq clientId = some last → last < seq) :
    r.invoke clientId seq time input =
      .ok (r.begin ⟨clientId, seq, time, none, input, ⟨false, [], false, false⟩⟩) := by
  simp only [invoke, hactive, Option.isSome_none, Bool.false_eq_true, if_false]
  split
  · next last hlast => rw [if_neg (UInt64.not_le.2 (hseq last hlast))]
  · rfl

end Recorder

end MiniQuorum.Checker
