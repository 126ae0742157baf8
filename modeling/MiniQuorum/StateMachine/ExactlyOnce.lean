import MiniQuorum.StateMachine.MapSM

/-! A state machine fed with duplicates runs the sequential map over the first copies. -/

namespace MiniQuorum.StateMachine

open Raft Codec Consensus

abbrev Order := List (OpID × MapOp)

def Order.covers (order : Order) (command : Command) : Bool :=
  order.any fun x => x.1.client == command.clientId && decide (command.seq ≤ x.1.seq)

def Order.enlist (order : Order) (command : Command) : Order :=
  match command.mapOp with
  | none => order
  | some op => if order.covers command then order else order ++ [(command.id, op)]

def entryCommand (codec : Marshaler Command) (e : Entry) : Option Command :=
  if e.type = .normal then codec.unmarshal e.data else none

def Order.enter (codec : Marshaler Command) (order : Order) (e : Entry) : Order :=
  match entryCommand codec e with
  | none => order
  | some command => order.enlist command

def Order.ofLog (codec : Marshaler Command) (entries : List Entry) : Order :=
  entries.foldl (Order.enter codec) []

/-- A state machine that has run the operations of `order`, each once. -/
structure Represents (order : Order) (m : MapStateMachine) : Prop where
  store : m.store = mapSpec.run (order.map Prod.snd)
  fresh : ∀ {c}, m.dedup.lookup c = none → ∀ x ∈ order, x.1.client ≠ c
  cached : ∀ {c record}, m.dedup.lookup c = some record →
    AnswersIn mapSpec order ⟨c, record.lastSeq⟩ record.lastResult ∧
      ∀ x ∈ order, x.1.client = c → x.1.seq ≤ record.lastSeq

variable {codec : Marshaler Command} {order : Order} {m m' : MapStateMachine} {command : Command}
  {r : Result}

theorem Order.covers_iff : order.covers command = true ↔
    ∃ x ∈ order, x.1.client = command.clientId ∧ command.seq ≤ x.1.seq := by
  simp [Order.covers]

theorem Order.enlist_isPrefix (order : Order) (command : Command) :
    order <+: order.enlist command := by
  rw [Order.enlist]
  split
  · exact List.prefix_refl _
  · split
    · exact List.prefix_refl _
    · exact List.prefix_append _ _

theorem Order.enter_isPrefix (order : Order) (e : Entry) : order <+: order.enter codec e := by
  rw [Order.enter]
  split
  · exact List.prefix_refl _
  · exact order.enlist_isPrefix _

theorem Order.ofLog_concat (entries : List Entry) (e : Entry) :
    Order.ofLog codec (entries ++ [e]) = (Order.ofLog codec entries).enter codec e := by
  rw [Order.ofLog, List.foldl_append]
  rfl

theorem Order.ofLog_isPrefix {entries entries' : List Entry} (h : entries <+: entries') :
    Order.ofLog codec entries <+: Order.ofLog codec entries' := by
  obtain ⟨more, rfl⟩ := h
  induction more using List.reverseRecOn with
  | nil => rw [List.append_nil]
  | append_singleton more e ih =>
    rw [← List.append_assoc, Order.ofLog_concat]
    exact ih.trans (Order.enter_isPrefix _ e)

theorem Order.mem_ofLog {entries : List Entry} {x : OpID × MapOp}
    (h : x ∈ Order.ofLog codec entries) :
    ∃ e ∈ entries, ∃ command, entryCommand codec e = some command ∧ command.id = x.1 := by
  induction entries using List.reverseRecOn with
  | nil => cases h
  | append_singleton entries e ih =>
    by_cases hold : x ∈ Order.ofLog codec entries
    · obtain ⟨e', he', hcommand⟩ := ih hold
      exact ⟨e', List.mem_append_left _ he', hcommand⟩
    · rw [Order.ofLog_concat, Order.enter] at h
      refine ⟨e, by simp, ?_⟩
      split at h
      · exact absurd h hold
      · rename_i command hcommand
        refine ⟨command, hcommand, ?_⟩
        simp only [Order.enlist] at h
        split at h
        · exact absurd h hold
        · split at h
          · exact absurd h hold
          · rw [List.mem_append, List.mem_singleton] at h
            rw [h.resolve_left hold]

namespace Represents

theorem new : Represents [] MapStateMachine.new where
  store := rfl
  fresh := by rintro c _ x ⟨⟩
  cached := by
    intro c record h
    rw [MapStateMachine.new, Finmap.lookup_empty] at h
    cases h

theorem congr (h : Represents order m) (hvalues : m'.values = m.values)
    (hdedup : m'.dedup = m.dedup) : Represents order m' where
  store := by
    rw [← h.store]
    funext key
    exact congrArg (Finmap.lookup key) hvalues
  fresh hc := h.fresh (hdedup ▸ hc)
  cached hc := h.cached (hdedup ▸ hc)

theorem duplicate_eq_some (h : Represents order m) (hd : m.duplicate command = some r) :
    ∃ seq, command.seq ≤ seq ∧ AnswersIn mapSpec order ⟨command.clientId, seq⟩ r := by
  rw [MapStateMachine.duplicate] at hd
  split at hd
  · rename_i record hrecord
    split at hd
    · rename_i hle
      cases hd
      exact ⟨record.lastSeq, hle, (h.cached hrecord).1⟩
    · cases hd
  · cases hd

theorem duplicate_isSome (h : Represents order m) :
    (m.duplicate command).isSome = order.covers command := by
  rw [Bool.eq_iff_iff, Order.covers_iff, MapStateMachine.duplicate]
  cases hd : m.dedup.lookup command.clientId with
  | none =>
    simp only [Option.isSome_none, Bool.false_eq_true, false_iff, not_exists, not_and]
    exact fun x hx hc => absurd hc (h.fresh hd x hx)
  | some record =>
    obtain ⟨hans, hmax⟩ := h.cached hd
    simp only
    split
    · rename_i hle
      obtain ⟨x, hx, heq⟩ := List.mem_map.mp hans.mem
      refine iff_of_true rfl ⟨x, hx, ?_, ?_⟩ <;> rw [heq]
      exact hle
    · rename_i hlt
      refine iff_of_false Bool.false_ne_true ?_
      rintro ⟨x, hx, hc, hle⟩
      exact hlt (UInt64.le_trans hle (hmax x hx hc))

theorem execute (h : Represents order m) (hcovers : order.covers command = false)
    (hexec : m.execute command = .ok (m', r)) :
    ∃ op, command.mapOp = some op ∧ AnswersIn mapSpec (order ++ [(command.id, op)]) command.id r ∧
      Represents (order ++ [(command.id, op)])
        { m' with dedup := m'.dedup.insert command.clientId ⟨command.seq, r⟩ } := by
  obtain ⟨op, hop, hstep, hdedup, _⟩ := MapStateMachine.execute_eq_ok hexec
  rw [h.store] at hstep
  have hans : AnswersIn mapSpec (order ++ [(command.id, op)]) command.id r := by
    have := AnswersIn.concat mapSpec order command.id op
    rwa [SeqSpec.answer, hstep] at this
  refine ⟨op, hop, hans, ?_, ?_, ?_⟩
  · rw [List.map_append, List.map_singleton, SeqSpec.run_concat, hstep]
    rfl
  · intro c hc x hx
    by_cases hcc : c = command.clientId
    · rw [hcc, Finmap.lookup_insert] at hc
      cases hc
    · rw [Finmap.lookup_insert_of_ne _ hcc, hdedup] at hc
      rcases List.mem_append.mp hx with hx | hx
      · exact h.fresh hc x hx
      · rw [List.mem_singleton.mp hx]
        exact Ne.symm hcc
  · intro c record hc
    by_cases hcc : c = command.clientId
    · rw [hcc, Finmap.lookup_insert] at hc
      cases hc
      refine ⟨hcc ▸ hans, ?_⟩
      intro x hx hxc
      rcases List.mem_append.mp hx with hx | hx
      · -- an earlier operation with a larger number would have covered this one
        have hnot : ¬ command.seq ≤ x.1.seq := fun hle => by
          rw [Order.covers_iff.mpr ⟨x, hx, hxc.trans hcc, hle⟩] at hcovers
          cases hcovers
        exact (UInt64.le_total x.1.seq command.seq).resolve_right hnot
      · rw [List.mem_singleton.mp hx]
        exact UInt64.le_refl _
    · rw [Finmap.lookup_insert_of_ne _ hcc, hdedup] at hc
      obtain ⟨hprev, hmax⟩ := h.cached hc
      refine ⟨hprev.mono (List.prefix_append _ _), ?_⟩
      intro x hx hxc
      rcases List.mem_append.mp hx with hx | hx
      · exact hmax x hx hxc
      · rw [List.mem_singleton.mp hx] at hxc
        exact absurd hxc.symm hcc

theorem applyCommand (h : Represents order m) {index : Nat}
    (happly : m.applyCommand command index = .ok (m', r)) :
    Represents (order.enlist command) m' ∧ ∃ seq, command.seq ≤ seq ∧
      AnswersIn mapSpec (order.enlist command) ⟨command.clientId, seq⟩ r := by
  have hdup : (m.duplicate command).isSome = order.covers command := h.duplicate_isSome
  rw [MapStateMachine.applyCommand] at happly
  split at happly
  · rename_i result hd
    cases happly
    obtain ⟨seq, hle, hans⟩ := h.duplicate_eq_some hd
    rw [hd, Option.isSome_some] at hdup
    have heq : order.enlist command = order := by
      rw [Order.enlist, ← hdup]
      split <;> rfl
    rw [heq]
    exact ⟨h.congr (by simp) (by simp), seq, hle, hans⟩
  · rename_i hd
    rw [hd, Option.isSome_none] at hdup
    split at happly
    · cases happly
    · rename_i executed result hexec
      cases happly
      obtain ⟨op, hop, hans, hrep⟩ := h.execute hdup.symm hexec
      have heq : order.enlist command = order ++ [(command.id, op)] := by
        rw [Order.enlist, hop, ← hdup]
        rfl
      rw [heq]
      exact ⟨hrep.congr (by simp) (by simp), command.seq, UInt64.le_refl _, hans⟩

theorem apply (h : Represents order m) {e : Entry} (happly : m.apply codec (some e) = .ok (m', r)) :
    Represents (order.enter codec e) m' := by
  rw [MapStateMachine.apply] at happly
  rw [Order.enter, entryCommand]
  cases ht : e.type with
  | noop =>
    rw [ht] at happly
    cases happly
    exact h.congr (by simp) (by simp)
  | normal =>
    rw [ht] at happly
    simp only [if_true]
    cases hd : codec.unmarshal e.data with
    | none =>
      simp only [hd] at happly
      cases happly
    | some command =>
      simp only [hd] at happly
      exact (h.applyCommand happly).1
  | unspecified =>
    rw [ht] at happly
    cases happly
  | unrecognized value =>
    rw [ht] at happly
    cases happly

end Represents

theorem MapStateMachine.run_concat (codec : Marshaler Command) (entries : List Entry) (e : Entry) :
    run codec (entries ++ [e]) = (run codec entries).bind fun m =>
      (m.apply codec (some e)).map Prod.fst := by
  rw [run, List.foldlM_append]
  simp only [List.foldlM_cons, List.foldlM_nil, bind_pure]
  rfl

theorem MapStateMachine.run_represents {entries : List Entry}
    (h : run codec entries = .ok m) : Represents (Order.ofLog codec entries) m := by
  induction entries using List.reverseRecOn generalizing m with
  | nil =>
    cases h
    exact Represents.new
  | append_singleton entries e ih =>
    rw [run_concat] at h
    cases hrun : run codec entries with
    | error err =>
      rw [hrun] at h
      cases h
    | ok m₀ =>
      rw [hrun] at h
      change (m₀.apply codec (some e)).map Prod.fst = .ok m at h
      cases hap : m₀.apply codec (some e) with
      | error err =>
        rw [hap] at h
        cases h
      | ok res =>
        rw [hap] at h
        cases h
        rw [Order.ofLog_concat]
        exact (ih hrun).apply hap

end MiniQuorum.StateMachine
