import MiniQuorum.Server.Runs
import MiniQuorum.Server.Session
import MiniQuorum.Server.Waiters

/-! One host with its KV applier.  Host calls exclude each other, but a cancel takes only the
applier's lock and may fall between any two steps of a call. -/

namespace MiniQuorum.Server

open Raft Storage StateMachine

/-! ### The pairs a node assigns -/

/-- No pair of `keys` can be assigned to a proposal of the node any more. -/
def Assigned (keys : List WaiterKey) (a : Node) : Prop :=
  ∀ key ∈ keys, key.term < a.hardState.term ∨ key.term = a.hardState.term ∧
    a.role ≠ .candidate ∧ (a.role = .leader → key.index ≤ a.log.lastIndex)

namespace Assigned

variable {keys : List WaiterKey} {a b : Node}

theorem congr (h : Assigned keys a) (hhard : b.hardState = a.hardState) (hrole : b.role = a.role)
    (hlog : b.log = a.log) : Assigned keys b := by
  rw [Assigned, hhard, hrole, hlog]
  exact h

theorem of_lt (h : Assigned keys a) (hterm : a.hardState.term < b.hardState.term) :
    Assigned keys b := by
  intro key hkey
  rcases h key hkey with hlt | ⟨heq, -⟩
  · exact .inl (hlt.trans hterm)
  · exact .inl (heq ▸ hterm)

theorem of_follower (h : Assigned keys a) (hhard : b.hardState = a.hardState)
    (hrole : b.role = .follower) : Assigned keys b := by
  intro key hkey
  rw [hhard, hrole]
  exact (h key hkey).imp_right fun heq => ⟨heq.1, by decide, fun hlead => by cases hlead⟩

theorem lastIndex_appended (a : Node) (type : EntryType) (data : Bytes) :
    (appended a type data).log.lastIndex = a.log.lastIndex + 1 := by
  simp [appended, RaftLog.appendLocal, RaftLog.lastIndex]

theorem append (h : Assigned keys a) (type : EntryType) (data : Bytes) :
    Assigned keys (appended a type data) := by
  intro key hkey
  refine (h key hkey).imp_right fun ⟨heq, hrole, hindex⟩ => ⟨heq, hrole, fun hlead => ?_⟩
  rw [lastIndex_appended]
  exact (hindex hlead).trans (Nat.le_succ _)

theorem move (h : Assigned keys a) (hmove : Move 0 0 a b) : Assigned keys b := by
  cases hmove with
  | volatile hv => exact h.congr hv.hardState hv.role hv.log
  | commit => exact h
  | newTerm hterm => exact h.of_lt hterm
  | stepDown => exact h.of_follower rfl rfl
  | grant => exact h
  | lead hrole =>
    intro key hkey
    exact .inl ((h key hkey).resolve_right fun heq => heq.2.1 hrole)
  | append type data => exact h.append type data
  | store hrole =>
    refine h.of_follower (storeAppend_hardState _ _) ?_
    rw [Node.storeAppend]
    dsimp only
    split <;> exact hrole

theorem moves (h : Assigned keys a) (hmoves : Moves 0 0 a b) : Assigned keys b := by
  induction hmoves with
  | refl => exact h
  | tail _ hmove ih => exact ih.move hmove

theorem tick (h : Assigned keys a) (hterm : a.hardState.term < maxUint64) (rnd : Rand) :
    Assigned keys (a.tick rnd) := by
  rcases Moves.tick rnd a with hmoves | ⟨-, hmoves⟩
  · exact h.moves hmoves
  · refine (h.of_lt ?_).moves hmoves
    show a.hardState.term < (a.hardState.term + 1) % 2 ^ 64
    rw [maxUint64] at hterm
    omega

theorem step (h : Assigned keys a) (m : Option Message) (rnd : Rand) :
    Assigned keys (a.step rnd m) := by
  cases m with
  | none => exact h
  | some m => exact h.moves (Moves.step rnd a (Moves.replacesUpTo_zero a m) (.inl rfl))

/-- A leader assigns a new pair, which it does not assign again. -/
theorem propose (h : Assigned keys a) (hrole : a.role = .leader) (data : Bytes) :
    ⟨a.log.lastIndex + 1, a.hardState.term⟩ ∉ keys ∧
      Assigned (keys ++ [⟨a.log.lastIndex + 1, a.hardState.term⟩]) (a.propose data).1 := by
  have hv := (propose_leader hrole data).2
  refine ⟨fun hmem => ?_, ?_⟩
  · rcases h _ hmem with hlt | ⟨-, -, hindex⟩
    · exact hlt.false
    · exact (Nat.lt_irrefl _ (hindex hrole)).elim
  · refine congr (fun key hkey => ?_) hv.hardState hv.role hv.log
    rcases List.mem_append.mp hkey with hkey | hkey
    · exact h.append .normal data key hkey
    · cases List.mem_singleton.mp hkey
      refine .inr ⟨rfl, ?_, fun _ => (lastIndex_appended a .normal data).ge⟩
      show a.role ≠ .candidate
      rw [hrole]
      decide

end Assigned

/-- Where a host call stands; `failing` is between the error of its Ready and `FailStop`. -/
inductive CallPhase
  | idle
  | stepped
  | saving (ready : Ready)
  | draining (messages : List Message) (committed : List Entry)
  | failing (err : HostError)
  deriving DecidableEq, Repr

/-- `sent` are the messages passed to the transport, `applied` the entries the state machine
has applied with their results, both newest first. -/
structure KVHost where
  node : Node
  store : MemStorage
  sent : List Message
  selfID : NodeID
  leaderHint : NodeID
  stopped : Option HostError
  phase : CallPhase
  table : WaiterTable
  applied : List (Entry × Result)

/-- The outside world decides whether a save or an apply fails, what a failed save leaves
behind, what the state machine answers, and in which order a loop ranges over a map. -/
inductive HostEvent
  | call (input : LocalInput)
  | ready
  | save
  | saveError (err : String) (left : MemStorage)
  | send
  | apply (result : Result) (order : List Nat)
  | applyError (err : String)
  | advance
  | failStop (order : List WaiterKey)
  | cancel (index term : Nat)
  | receive (ch : CallID)

namespace KVHost

def start (node : Node) (store : MemStorage) (selfID : NodeID) : KVHost where
  node
  store
  sent := []
  selfID
  leaderHint := 0
  stopped := none
  phase := .idle
  table := WaiterTable.empty
  applied := []

def take (x : KVHost) : LocalInput → KVHost
  | .tick rnd => { x with node := x.node.tick rnd, phase := .stepped }
  | .step m rnd =>
    { x with
      node := x.node.step rnd m
      leaderHint := (m.map (stepLeaderHint x.leaderHint)).getD x.leaderHint
      phase := .stepped }
  | .propose data =>
    let proposed := (x.node.propose data).2
    let x := { x with node := (x.node.propose data).1, phase := .stepped }
    if proposed.2.2 then
      { x with
        leaderHint := recordLeaderHint x.leaderHint x.selfID
        table := x.table.register proposed.1 proposed.2.1 }
    else x

def call (x : KVHost) (input : LocalInput) : Except HostError KVHost :=
  match x.stopped with
  | some err => .error err
  | none => .ok (x.take input)

def stop (x : KVHost) (err : HostError) : KVHost :=
  { x with stopped := some err, phase := .failing err }

def act (x : KVHost) : HostEvent → Option KVHost
  | .call input =>
    match x.phase with
    | .idle =>
      match x.call input with
      | .ok y => some y
      | .error _ => some x
    | _ => none
  | .ready =>
    match x.phase with
    | .stepped => some { x with node := x.node.ready.2, phase := .saving x.node.ready.1 }
    | _ => none
  | .save =>
    match x.phase with
    | .saving r =>
      some { x with
        store := x.store.save r.hardState r.entries
        phase := .draining r.messages r.committedEntries }
    | _ => none
  | .saveError err left =>
    match x.phase with
    | .saving _ => some ({ x with store := left }.stop (.storageSave err))
    | _ => none
  | .send =>
    match x.phase with
    | .draining (m :: messages) committed =>
      some { x with sent := m :: x.sent, phase := .draining messages committed }
    | _ => none
  | .apply result order =>
    match x.phase with
    | .draining [] (e :: committed) =>
      if Enumerates order ((x.table.byIndex.lookup e.index).getD ∅) then
        some { x with
          table := x.table.fulfill e.index e.term result order
          applied := (e, result) :: x.applied
          phase := .draining [] committed }
      else none
    | _ => none
  | .applyError err =>
    match x.phase with
    | .draining [] (_ :: _) => some (x.stop (.stateMachineApply err))
    | _ => none
  | .advance =>
    match x.phase with
    | .draining [] [] => some { x with node := x.node.advance, phase := .idle }
    | _ => none
  | .failStop order =>
    match x.phase with
    | .failing err =>
      if Enumerates order x.table.waiters.keys then
        some { x with table := x.table.failStop err order, phase := .idle }
      else none
    | _ => none
  | .cancel index term => some { x with table := x.table.cancel index term }
  | .receive ch => some { x with table := x.table.receive ch }

def fresh (x : KVHost) : HostEvent → Bool
  | .call (.propose data) =>
    let proposed := (x.node.propose data).2
    x.stopped.isSome || !proposed.2.2 ||
      (x.table.waiters.lookup ⟨proposed.1, proposed.2.1⟩).isNone
  | _ => true

def Run : KVHost → KVHost → Prop :=
  Relation.ReflTransGen fun x y => ∃ e, x.act e = some y ∧ x.fresh e = true

/-- A run in which terms stay below the last 64-bit value. -/
def RunBelow : KVHost → KVHost → Prop :=
  Relation.ReflTransGen fun x y => (∃ e, x.act e = some y) ∧ x.node.hardState.term < maxUint64

def exec (x : KVHost) : List HostEvent → Option KVHost
  | [] => some x
  | e :: es =>
    if x.node.hardState.term < maxUint64 then (x.act e).bind fun y => y.exec es else none

theorem exec_runBelow {x y : KVHost} {es : List HostEvent} (h : x.exec es = some y) :
    RunBelow x y := by
  induction es generalizing x with
  | nil =>
    cases h
    exact .refl
  | cons e es ih =>
    rw [exec] at h
    split at h
    · rename_i hterm
      obtain ⟨z, hact, hrest⟩ := Option.bind_eq_some_iff.mp h
      exact .head ⟨⟨e, hact⟩, hterm⟩ (ih hrest)
    · cases h

/-- What an event can do to a host in each phase. -/
inductive Transition (x : KVHost) : HostEvent → KVHost → Prop
  | refused {err : HostError} (hphase : x.phase = .idle) (hstopped : x.stopped = some err)
      (input : LocalInput) : Transition x (.call input) x
  | call (hphase : x.phase = .idle) (hstopped : x.stopped = none) (input : LocalInput) :
    Transition x (.call input) (x.take input)
  | ready (hphase : x.phase = .stepped) :
    Transition x .ready { x with node := x.node.ready.2, phase := .saving x.node.ready.1 }
  | save {r : Ready} (hphase : x.phase = .saving r) :
    Transition x .save { x with
      store := x.store.save r.hardState r.entries
      phase := .draining r.messages r.committedEntries }
  | saveError {r : Ready} (hphase : x.phase = .saving r) (err : String) (left : MemStorage) :
    Transition x (.saveError err left) ({ x with store := left }.stop (.storageSave err))
  | send {m : Message} {messages : List Message} {committed : List Entry}
      (hphase : x.phase = .draining (m :: messages) committed) :
    Transition x .send { x with sent := m :: x.sent, phase := .draining messages committed }
  | apply {e : Entry} {committed : List Entry} {order : List Nat}
      (hphase : x.phase = .draining [] (e :: committed))
      (horder : Enumerates order ((x.table.byIndex.lookup e.index).getD ∅)) (result : Result) :
    Transition x (.apply result order) { x with
      table := x.table.fulfill e.index e.term result order
      applied := (e, result) :: x.applied
      phase := .draining [] committed }
  | applyError {e : Entry} {committed : List Entry}
      (hphase : x.phase = .draining [] (e :: committed)) (err : String) :
    Transition x (.applyError err) (x.stop (.stateMachineApply err))
  | advance (hphase : x.phase = .draining [] []) :
    Transition x .advance { x with node := x.node.advance, phase := .idle }
  | failStop {err : HostError} {order : List WaiterKey} (hphase : x.phase = .failing err)
      (horder : Enumerates order x.table.waiters.keys) :
    Transition x (.failStop order) { x with table := x.table.failStop err order, phase := .idle }
  | cancel (index term : Nat) :
    Transition x (.cancel index term) { x with table := x.table.cancel index term }
  | receive (ch : CallID) : Transition x (.receive ch) { x with table := x.table.receive ch }

theorem Transition.of_act {x y : KVHost} {e : HostEvent} (hact : x.act e = some y) :
    Transition x e y := by
  -- Every event but `cancel` and `receive` is possible in one phase only.
  cases e with
  | cancel index term =>
    cases hact
    exact .cancel index term
  | receive ch =>
    cases hact
    exact .receive ch
  | call input =>
    simp only [KVHost.act] at hact
    split at hact
    · next hphase =>
      rw [KVHost.call] at hact
      cases hstopped : x.stopped with
      | some err =>
        rw [hstopped] at hact
        cases hact
        exact .refused hphase hstopped input
      | none =>
        rw [hstopped] at hact
        cases hact
        exact .call hphase hstopped input
    · cases hact
  | apply result order | failStop order =>
    simp only [KVHost.act] at hact
    split at hact
    · next hphase =>
      split at hact
      · next horder =>
        cases hact
        constructor <;> assumption
      · cases hact
    · cases hact
  | ready | save | saveError err left | send | applyError err | advance =>
    simp only [KVHost.act] at hact
    split at hact
    · next hphase =>
      cases hact
      constructor
      exact hphase
    · cases hact

def Justifies (x : KVHost) (key : WaiterKey) : Outcome → Prop
  | .result result => ∃ e, (e, result) ∈ x.applied ∧ e.index = key.index ∧ e.term = key.term
  | .stale => ∃ e result, (e, result) ∈ x.applied ∧ e.index = key.index ∧ e.term ≠ key.term
  | .err err => x.stopped = some err

structure Inv (x : KVHost) : Prop where
  sound : x.table.Sound x.Justifies
  paired : x.table.Paired
  phase : match x.phase with
    | .idle => x.stopped ≠ none → x.table.waiters = ∅
    | .failing err => x.stopped = some err
    | _ => x.stopped = none

variable {x y : KVHost}

theorem Inv.start (node : Node) (store : MemStorage) (selfID : NodeID) :
    (start node store selfID).Inv :=
  ⟨.empty _, .empty, fun h => absurd rfl h⟩

theorem Inv.take (h : x.Inv) (hstopped : x.stopped = none) {input : LocalInput}
    (hfresh : x.fresh (.call input) = true) : (x.take input).Inv := by
  cases input with
  | tick rnd => exact ⟨h.sound, h.paired, hstopped⟩
  | step m rnd => exact ⟨h.sound, h.paired, hstopped⟩
  | propose data =>
    rw [KVHost.take]
    simp only
    split
    · rename_i hleader
      rw [fresh, hstopped] at hfresh
      simp only [Option.isSome_none, hleader, Bool.not_true, Bool.or_false, Bool.false_or,
        Option.isNone_iff_eq_none] at hfresh
      exact ⟨h.sound.register (Finmap.lookup_eq_none.mp hfresh), h.paired.register _ _, hstopped⟩
    · exact ⟨h.sound, h.paired, hstopped⟩

theorem Inv.stop (h : x.Inv) (hstopped : x.stopped = none) (err : HostError) : (x.stop err).Inv where
  sound := h.sound.mono fun key o ho => by
    cases o with
    | err err' => cases hstopped.symm.trans ho
    | _ => exact ho
  paired := h.paired
  phase := rfl

theorem Inv.apply (h : x.Inv) {e : Entry} {committed : List Entry} {result : Result}
    {order : List Nat} (hphase : x.phase = .draining [] (e :: committed))
    (horder : Enumerates order ((x.table.byIndex.lookup e.index).getD ∅)) :
    Inv { x with
      table := x.table.fulfill e.index e.term result order
      applied := (e, result) :: x.applied
      phase := .draining [] committed } := by
  have hstopped := h.phase
  rw [hphase] at hstopped
  refine ⟨?_, h.paired.fulfill horder, hstopped⟩
  refine WaiterTable.Sound.fulfill (h.sound.mono fun key o ho => ?_)
    ⟨e, List.mem_cons_self, rfl, rfl⟩
    (fun registered hne => ⟨e, result, List.mem_cons_self, rfl, hne.symm⟩) order
  cases o with
  | result r =>
    obtain ⟨e', hmem, hkey⟩ := ho
    exact ⟨e', List.mem_cons_of_mem _ hmem, hkey⟩
  | stale =>
    obtain ⟨e', r, hmem, hkey⟩ := ho
    exact ⟨e', r, List.mem_cons_of_mem _ hmem, hkey⟩
  | err err => exact ho

theorem Inv.failStop (h : x.Inv) {err : HostError} {order : List WaiterKey}
    (hphase : x.phase = .failing err) (horder : Enumerates order x.table.waiters.keys) :
    Inv { x with table := x.table.failStop err order, phase := .idle } := by
  have hstopped := h.phase
  rw [hphase] at hstopped
  exact ⟨h.sound.failStop (fun _ => hstopped) order, h.paired.failStop order,
    fun _ => WaiterTable.failStop_waiters horder⟩

theorem cancel_empty {t : WaiterTable} (h : t.waiters = ∅) (index term : Nat) :
    t.cancel index term = t := by
  rw [WaiterTable.cancel, h, Finmap.lookup_empty]

theorem Inv.cancel (h : x.Inv) (index term : Nat) :
    Inv { x with table := x.table.cancel index term } where
  sound := h.sound.cancel index term
  paired := h.paired.cancel index term
  phase := by
    have hphase := h.phase
    cases hx : x.phase with
    | idle =>
      rw [hx] at hphase
      intro hstopped
      show (x.table.cancel index term).waiters = ∅
      rw [cancel_empty (hphase hstopped)]
      exact hphase hstopped
    | _ =>
      rw [hx] at hphase
      exact hphase

theorem Inv.act (h : x.Inv) {e : HostEvent} (hfresh : x.fresh e = true) (hact : x.act e = some y) :
    y.Inv := by
  have hstopped := h.phase
  cases Transition.of_act hact with
  | refused => exact h
  | call _ hnone input => exact h.take hnone hfresh
  | ready hphase | save hphase | send hphase =>
    rw [hphase] at hstopped
    exact ⟨h.sound, h.paired, hstopped⟩
  | saveError hphase err left =>
    rw [hphase] at hstopped
    have hleft : Inv { x with store := left } := ⟨h.sound, h.paired, h.phase⟩
    exact hleft.stop hstopped _
  | apply hphase horder result => exact h.apply hphase horder
  | applyError hphase err =>
    rw [hphase] at hstopped
    exact h.stop hstopped _
  | advance hphase =>
    rw [hphase] at hstopped
    exact ⟨h.sound, h.paired, fun hne => absurd hstopped hne⟩
  | failStop hphase horder => exact h.failStop hphase horder
  | cancel index term => exact h.cancel index term
  | receive ch => exact ⟨h.sound.receive ch, ⟨h.paired.pairs, h.paired.nonempty⟩, h.phase⟩

theorem Inv.run (h : x.Inv) (hrun : Run x y) : y.Inv := by
  induction hrun with
  | refl => exact h
  | tail _ hstep ih =>
    obtain ⟨e, hact, hfresh⟩ := hstep
    exact ih.act hfresh hact

theorem Inv.fresh (h : x.Inv) (ha : Assigned x.table.keys x.node) (e : HostEvent) :
    x.fresh e = true := by
  cases e with
  | call input =>
    cases input with
    | propose data =>
      rw [KVHost.fresh]
      cases hleader : (x.node.propose data).2.2.2 with
      | false => simp
      | true =>
        have hrole := propose_role hleader
        have hnew : ⟨x.node.log.lastIndex + 1, x.node.hardState.term⟩ ∉ x.table.waiters := by
          intro hmem
          obtain ⟨id, hid⟩ := Finmap.mem_iff.mp hmem
          exact (ha.propose hrole data).1 (List.mem_of_getElem? (h.sound.waiting _ id hid).1)
        rw [(propose_leader hrole data).1]
        simp [Finmap.lookup_eq_none.mpr hnew]
    | tick | step => rfl
  | _ => rfl

theorem assigned_take (ha : Assigned x.table.keys x.node)
    (hbelow : x.node.hardState.term < maxUint64) (input : LocalInput) :
    Assigned (x.take input).table.keys (x.take input).node := by
  cases input with
  | tick rnd => exact ha.tick hbelow rnd
  | step m rnd => exact ha.step m rnd
  | propose data =>
    rw [KVHost.take]
    dsimp only
    split
    · next hleader =>
      have hrole := propose_role hleader
      have hassigned := (ha.propose hrole data).2
      rw [(propose_leader hrole data).1]
      exact hassigned
    · exact ha.moves (Moves.propose x.node data)

theorem cancel_keys (t : WaiterTable) (index term : Nat) : (t.cancel index term).keys = t.keys := by
  rw [WaiterTable.cancel]
  split
  · rfl
  · obtain ⟨m, hm⟩ := WaiterTable.removeFromIndex_eq _ index term
    rw [hm]

theorem assigned_act (ha : Assigned x.table.keys x.node)
    (hbelow : x.node.hardState.term < maxUint64) {e : HostEvent} (hact : x.act e = some y) :
    Assigned y.table.keys y.node := by
  cases Transition.of_act hact with
  | call _ _ input => exact assigned_take ha hbelow input
  | @apply e committed order _ _ result =>
    show Assigned (x.table.fulfill e.index e.term result order).keys x.node
    rw [WaiterTable.fulfill, (WaiterTable.answering_fulfillOne _ _ result).keys_foldl]
    exact ha
  | advance =>
    obtain ⟨_, _, _, _, _, heq⟩ := advance_eq x.node
    exact ha.congr (by rw [heq]) (by rw [heq]) (by rw [heq])
  | @failStop err order =>
    show Assigned (x.table.failStop err order).keys x.node
    rw [WaiterTable.failStop, (WaiterTable.answering_failOne err).keys_foldl]
    exact ha
  | cancel index term =>
    show Assigned (x.table.cancel index term).keys x.node
    rw [cancel_keys]
    exact ha
  | refused | ready | save | saveError | send | applyError | receive => exact ha

/-- While terms do not wrap around, every proposal is assigned a fresh pair. -/
theorem RunBelow.run {node : Node} {store : MemStorage} {selfID : NodeID}
    (hrun : RunBelow (KVHost.start node store selfID) x) :
    Run (KVHost.start node store selfID) x ∧ x.Inv ∧ Assigned x.table.keys x.node := by
  induction hrun with
  | refl => exact ⟨.refl, .start node store selfID, by rintro key ⟨⟩⟩
  | tail _ hstep ih =>
    obtain ⟨⟨e, hact⟩, hbelow⟩ := hstep
    obtain ⟨hrun, hinv, hassigned⟩ := ih
    have hfresh := hinv.fresh hassigned e
    exact ⟨hrun.tail ⟨e, hact, hfresh⟩, hinv.act hfresh hact, assigned_act hassigned hbelow hact⟩

/-- What is left of a stopped host: nothing it owns changes any more. -/
structure Halted (err : HostError) (x y : KVHost) : Prop where
  node : y.node = x.node
  store : y.store = x.store
  sent : y.sent = x.sent
  keys : y.table.keys = x.table.keys
  stopped : y.stopped = some err
  phase : y.phase = .idle

theorem Halted.act {err : HostError} {z : KVHost} (h : Halted err x y) {e : HostEvent}
    (hact : y.act e = some z) : Halted err x z := by
  cases e with
  | call input =>
    simp only [KVHost.act, h.phase, KVHost.call, h.stopped] at hact
    cases hact
    exact h
  | cancel index term =>
    cases hact
    exact { h with keys := (cancel_keys _ _ _).trans h.keys }
  | receive ch =>
    cases hact
    exact { h with }
  | _ =>
    simp only [KVHost.act, h.phase] at hact
    cases hact

theorem Halted.run {err : HostError} {z : KVHost} (h : Halted err x y) (hrun : Run y z) :
    Halted err x z := by
  induction hrun with
  | refl => exact h
  | tail _ hstep ih =>
    obtain ⟨e, hact, _⟩ := hstep
    exact ih.act hact

theorem act_apply {e : Entry} {committed : List Entry} (hphase : x.phase = .draining [] (e :: committed))
    {result : Result} {order : List Nat} :
    x.act (.apply result order) = some y ↔
      Enumerates order ((x.table.byIndex.lookup e.index).getD ∅) ∧
        { x with
          table := x.table.fulfill e.index e.term result order
          applied := (e, result) :: x.applied
          phase := .draining [] committed } = y := by
  simp only [act, hphase]
  split <;> simp [*]

end KVHost

/-- Waiters are resolved exactly once and never with a foreign result: each is waiting,
cancelled or has its one outcome, and an Apply gives all waiters at its index theirs.  A host
that has stopped has told every waiter so.  The pairs that proposals are assigned are fresh as
long as terms do not wrap around. -/
theorem waiters_resolved_once (node : Node) (store : MemStorage) (selfID : NodeID) (x : KVHost)
    (hrun : KVHost.Run (KVHost.start node store selfID) x) :
    (x.table.blocked = false ∧ (∀ id, (x.table.outcomes id).length ≤ 1) ∧
      ∀ id key, x.table.keys[id]? = some key →
        x.table.waiters.lookup key = some id ∧ id ∉ x.table.cancelled ∧ x.table.outcomes id = [] ∨
        id ∈ x.table.cancelled ∧ x.table.outcomes id = [] ∨
        id ∉ x.table.cancelled ∧ ∃ o, x.table.outcomes id = [o]) ∧
    (∀ e committed result, x.phase = .draining [] (e :: committed) →
      (∃ order y, x.act (.apply result order) = some y) ∧
      ∀ order y, x.act (.apply result order) = some y →
        ∀ key id, x.table.waiters.lookup key = some id →
          y.table.waiters.lookup key = (if key.index = e.index then none else some id) ∧
          y.table.outcomes id = if key.index = e.index then
            [if key.term = e.term then .result result else .stale] else []) ∧
    (∀ id key, x.table.keys[id]? = some key →
      (∀ result, .result result ∈ x.table.outcomes id →
        ∃ e, (e, result) ∈ x.applied ∧ e.index = key.index ∧ e.term = key.term) ∧
      (.stale ∈ x.table.outcomes id →
        ∃ e result, (e, result) ∈ x.applied ∧ e.index = key.index ∧ e.term ≠ key.term)) ∧
    (∀ index term, ⟨index, term⟩ ∈ x.table.waiters ↔
      ∃ terms, x.table.byIndex.lookup index = some terms ∧ term ∈ terms) ∧
    (∀ err, x.stopped = some err → x.phase = .idle →
      (∀ id key, x.table.keys[id]? = some key → id ∉ x.table.cancelled →
        (∀ result, .result result ∉ x.table.outcomes id) → .stale ∉ x.table.outcomes id →
        x.table.outcomes id = [.err err]) ∧
      x.table.waiters = ∅ ∧ x.table.byIndex = ∅ ∧
      ∀ y, KVHost.Run x y →
        (∀ input, y.call input = .error err ∧ y.act (.call input) = some y) ∧
        y.node = x.node ∧ y.store = x.store ∧ y.sent = x.sent ∧ y.table.keys = x.table.keys) ∧
    (∀ y, KVHost.RunBelow (KVHost.start node store selfID) y →
      KVHost.Run (KVHost.start node store selfID) y ∧ ∀ e, y.fresh e = true) := by
  have h := (KVHost.Inv.start node store selfID).run hrun
  refine ⟨⟨h.sound.unblocked, h.sound.single, fun id key hkey => h.sound.cases hkey⟩,
    fun e committed result hphase => ⟨?_, fun order y hact key id hkey => ?_⟩,
    fun id key hkey => ⟨fun result hmem => ?_, fun hmem => ?_⟩, h.paired.pairs,
    fun err hstopped hidle => ?_, fun y hbelow => ?_⟩
  · exact ⟨_, _, (KVHost.act_apply hphase).mpr ⟨⟨Finset.nodup_toList _, Finset.toList_toFinset _⟩, rfl⟩⟩
  · obtain ⟨horder, rfl⟩ := (KVHost.act_apply hphase).mp hact
    exact ⟨hkey ▸ h.paired.lookup_fulfill horder key, h.sound.outcomes_fulfill horder h.paired hkey⟩
  · exact h.sound.justified id key hkey _ hmem
  · exact h.sound.justified id key hkey _ hmem
  · have hempty := h.phase
    rw [hidle] at hempty
    have hempty : x.table.waiters = ∅ := hempty (by rw [hstopped]; exact Option.some_ne_none _)
    refine ⟨fun id key hkey hcancelled hresult hstale => ?_, hempty, h.paired.byIndex_eq hempty,
      fun y hrun' => ?_⟩
    · rcases h.sound.cases hkey with ⟨hwaiting, -⟩ | ⟨hc, -⟩ | ⟨-, o, ho⟩
      · rw [hempty, Finmap.lookup_empty] at hwaiting
        cases hwaiting
      · exact absurd hc hcancelled
      · have hmem : o ∈ x.table.outcomes id := by simp [ho]
        cases o with
        | result result => exact absurd hmem (hresult result)
        | stale => exact absurd hmem hstale
        | err err' =>
          have herr : x.stopped = some err' := h.sound.justified id key hkey _ hmem
          cases hstopped.symm.trans herr
          exact ho
    · have hhalted : KVHost.Halted err x x := ⟨rfl, rfl, rfl, rfl, hstopped, hidle⟩
      have hy := hhalted.run hrun'
      refine ⟨fun input => ?_, hy.node, hy.store, hy.sent, hy.keys⟩
      have hcall : y.call input = .error err := by rw [KVHost.call, hy.stopped]
      refine ⟨hcall, ?_⟩
      simp only [KVHost.act, hy.phase, hcall]
  · obtain ⟨hrun', hinv, hassigned⟩ := hbelow.run
    exact ⟨hrun', hinv.fresh hassigned⟩

/-! A leader with two waiters is replaced before either entry commits; when it leads again, an
index has a waiter of each of its terms. -/

def hostCall (input : LocalInput) (sends : Nat) : List HostEvent :=
  [.call input, .ready, .save] ++ List.replicate sends .send ++ [.advance]

def ledTwice : List HostEvent :=
  hostCall (.tick none) 2 ++ hostCall (.step (some (voteGrant 2 1 1)) none) 2 ++
  hostCall (.propose [7]) 0 ++ hostCall (.propose [8]) 0 ++
  hostCall (.step (some (appendRequest 2 1 2 0 0 [noopEntry 1 2] 0)) none) 1 ++
  hostCall (.tick none) 2 ++ hostCall (.step (some (voteGrant 2 1 3)) none) 2 ++
  hostCall (.propose [9]) 0 ++ hostCall (.step (some (appendSuccess 2 1 3 1)) none) 1 ++
  [.call (.step (some (appendSuccess 2 1 3 3)) none), .ready, .save, .send,
    .apply ⟨[], false⟩ [], .apply ⟨[], false⟩ [1]]

def answeredThenStopped : List HostEvent :=
  [.apply ⟨[9], true⟩ [3, 1], .advance, .call (.propose [10]), .ready,
    .saveError "disk full" MemStorage.empty, .failStop [⟨4, 3⟩]]

theorem waiters_resolved_once_ledTwice :
    ∃ x y z, KVHost.RunBelow (KVHost.start (newNode (three.config 1) ⟨⟨0, 0⟩, [], ⟨0, 0⟩⟩ none)
        MemStorage.empty 1) x ∧ (∀ e, x.fresh e = true) ∧
      x.table.keys = [⟨2, 1⟩, ⟨3, 1⟩, ⟨3, 3⟩] ∧ x.table.outcomes 0 = [.stale] ∧
      x.act (.apply ⟨[9], true⟩ [3, 1]) = some y ∧
      y.table.outcomes 1 = [.stale] ∧ y.table.outcomes 2 = [.result ⟨[9], true⟩] ∧
      KVHost.RunBelow x z ∧ z.table.outcomes 3 = [.err (.storageSave "disk full")] ∧
      z.table.waiters = ∅ := by
  obtain ⟨x, hexec, hx⟩ := (Option.any_eq_true ..).mp (show (KVHost.exec (KVHost.start
    (newNode (three.config 1) ⟨⟨0, 0⟩, [], ⟨0, 0⟩⟩ none) MemStorage.empty 1) ledTwice).any
      (fun x => x.table.keys == [⟨2, 1⟩, ⟨3, 1⟩, ⟨3, 3⟩] && x.table.outcomes 0 == [.stale] &&
        x.phase == .draining [] [⟨3, 3, .normal, [9]⟩] &&
        x.table.waiters.lookup ⟨3, 1⟩ == some 1 && x.table.waiters.lookup ⟨3, 3⟩ == some 2 &&
        (x.act (.apply ⟨[9], true⟩ [3, 1])).isSome &&
        (x.exec answeredThenStopped).any fun z =>
          z.stopped == some (.storageSave "disk full") && z.phase == .idle &&
          z.table.keys == [⟨2, 1⟩, ⟨3, 1⟩, ⟨3, 3⟩, ⟨4, 3⟩] && z.table.cancelled == [] &&
          (z.table.outcomes 3).all fun o => o matches .err _) = true by decide +kernel)
  simp only [Bool.and_eq_true, beq_iff_eq] at hx
  obtain ⟨⟨⟨⟨⟨⟨hkeys, hfirst⟩, hphase⟩, hold⟩, hnew⟩, hact⟩, hstop⟩ := hx
  have hbelow := KVHost.exec_runBelow hexec
  obtain ⟨-, happly, -, -, -, hfresh⟩ := waiters_resolved_once _ _ _ x hbelow.run.1
  obtain ⟨y, hy⟩ := Option.isSome_iff_exists.mp hact
  have hanswer := (happly _ _ ⟨[9], true⟩ hphase).2 _ y hy
  obtain ⟨z, hexec', hz⟩ := (Option.any_eq_true ..).mp hstop
  simp only [Bool.and_eq_true, beq_iff_eq] at hz
  obtain ⟨⟨⟨⟨hstopped, hidle⟩, hkeys'⟩, hcancelled⟩, hlast⟩ := hz
  have hbelow' := KVHost.exec_runBelow hexec'
  obtain ⟨-, -, -, -, htold, -⟩ := waiters_resolved_once _ _ _ z (hfresh z (hbelow.trans hbelow')).1
  obtain ⟨htold, hempty, -⟩ := htold _ hstopped hidle
  refine ⟨x, y, z, hbelow, (hfresh x hbelow).2, hkeys, hfirst, hy, (hanswer _ _ hold).2,
    (hanswer _ _ hnew).2, hbelow', htold 3 ⟨4, 3⟩ (by rw [hkeys']; rfl)
      (by rw [hcancelled]; simp) (fun result hmem => ?_) (fun hmem => ?_), hempty⟩
  · cases List.all_eq_true.mp hlast _ hmem
  · cases List.all_eq_true.mp hlast _ hmem

end MiniQuorum.Server
