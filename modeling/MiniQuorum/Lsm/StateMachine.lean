import MiniQuorum.Lsm.Engine
import MiniQuorum.Raft.Contiguous
import MiniQuorum.StateMachine.Digest

/-! The replicated state machine over an engine.  The engine keeps the durable state; the
values of the log replayed so far and the deduplication records are kept beside it. -/

namespace MiniQuorum.Lsm

open Codec Program Raft
open MiniQuorum.StateMachine (Command commandWire DedupRecord Hasher Iterates MapStateMachine Op
  Result fnv64a)

structure StateMachine where
  engine : Engine
  values : Finmap fun _ : Bytes => Bytes
  dedup : Finmap fun _ : UInt64 => DedupRecord
  applied : Nat
  replaying : Bool
  replayCeiling : Nat

structure StateStore where
  machine : StateMachine
  fs : SimFS

abbrev StateMachineM := Prog StateStore Err

def onEngine {α : Type} (x : EngineM α) : StateMachineM α :=
  x.zoom (fun s => ⟨s.machine.engine, s.fs⟩) fun store s =>
    ⟨{ s.machine with engine := store.engine }, store.fs⟩

def getMachine : StateMachineM StateMachine := fun s => (.ok s.machine, s)

def modifyMachine (f : StateMachine → StateMachine) : StateMachineM Unit := fun s =>
  (.ok (), { s with machine := f s.machine })

def opString : Op → String
  | .unspecified => "OP_UNSPECIFIED"
  | .put => "PUT"
  | .delete => "DELETE"
  | .get => "GET"
  | .unrecognized value => toString value

def entryTypeString : EntryType → String
  | .unspecified => "ENTRY_TYPE_UNSPECIFIED"
  | .normal => "NORMAL"
  | .noop => "NOOP"
  | .unrecognized value => toString value

namespace StateMachine

def new (engine : Engine) : StateMachine := ⟨engine, ∅, ∅, 0, false, 0⟩

def openStateMachine (m : Marshaler VersionEdit) (dir : Bytes) (options : Options) :
    FSM StateMachine := do
  let engine ← openEngine m dir options
  return new engine

def beginReplay (firstIndex lastIndex : Nat) : StateMachineM Unit :=
  if lastIndex < firstIndex then
    modifyMachine fun machine => { machine with replaying := false, replayCeiling := 0 }
  else do
    Prog.failIf (firstIndex ≠ 1) (.text s!"lsm: pre-snapshot replay starts at {firstIndex}, want 1")
    modifyMachine fun machine => { machine with replaying := true, replayCeiling := lastIndex }

def finishReplay : StateMachineM Unit := modifyMachine fun machine => { machine with replaying := false }

def finishReplayLocked (index : Nat) : StateMachineM Unit :=
  modifyMachine fun machine =>
    if machine.replaying ∧ index ≥ machine.replayCeiling then { machine with replaying := false }
    else machine

def advanceAppliedLocked (index : Nat) : StateMachineM Unit := do
  let machine ← getMachine
  if index ≤ machine.applied then return ()
  else do
    onEngine (advanceAppliedIndexLocked index)
    modifyMachine fun machine => { machine with applied := index }

def getLocked (key : Bytes) : StateMachineM Result := do
  let machine ← getMachine
  if machine.replaying then
    let value := machine.values.lookup key
    return ⟨value.getD [], value.isSome⟩
  else do
    let value ← onEngine (readLocked key)
    return ⟨value.getD [], value.isSome⟩

def executeLocked (m : Marshaler VersionEdit) (command : Command) (index : Nat) : StateMachineM Result :=
  match command.op with
  | .put => do
    onEngine (putLocked m command.key command.value index)
    modifyMachine fun machine =>
      { machine with values := machine.values.insert command.key command.value }
    return .zero
  | .delete => do
    onEngine (deleteLocked m command.key index)
    modifyMachine fun machine => { machine with values := machine.values.erase command.key }
    return .zero
  | .get => do
    let result ← getLocked command.key
    advanceAppliedLocked index
    return result
  | op => throw (.text s!"unsupported command op {opString op}")

def applyCommand (m : Marshaler VersionEdit) (command : Command) (index : Nat) : StateMachineM Result := do
  let machine ← getMachine
  match (machine.dedup.lookup command.clientId).filter fun record => command.seq ≤ record.lastSeq with
  | some record => do
    advanceAppliedLocked index
    finishReplayLocked index
    return record.lastResult
  | none => do
    let result ← executeLocked m command index
    modifyMachine fun machine =>
      { machine with dedup := machine.dedup.insert command.clientId ⟨command.seq, result⟩ }
    modifyMachine fun machine =>
      if index > machine.applied then { machine with applied := index } else machine
    finishReplayLocked index
    return result

def apply (m : Marshaler VersionEdit) (codec : Marshaler Command) : Option Entry → StateMachineM Result
  | none => throw (.text "apply nil entry")
  | some entry => do
    modifyMachine fun machine =>
      if machine.replaying ∧ entry.index > machine.replayCeiling then
        { machine with replaying := false }
      else machine
    match entry.type with
    | .noop => do
      advanceAppliedLocked entry.index
      finishReplayLocked entry.index
      return .zero
    | .normal =>
      match codec.unmarshal entry.data with
      | none => throw (.text "decode command")
      | some command => applyCommand m command entry.index
    | type => throw (.text s!"unsupported entry type {entryTypeString type}")

def read (key : Bytes) : StateMachineM Result := do
  let value ← onEngine (readLocked key)
  return ⟨value.getD [], value.isSome⟩

/-! ### The digest -/

section Writer

variable {W : Type} (write : W → Bytes → W)

def hashStateUint64 (h : W) (value : Nat) : W := write h (bigEndian 8 value)

def hashStateBytes (h : W) (value : Bytes) : W :=
  write (hashStateUint64 write h value.length) value

def hashInto (machine : StateMachine) (keys : List Bytes) (clientIDs : List UInt64) (h : W) : W :=
  let h := hashStateUint64 write h machine.applied
  let keys := keys.insertionSort (· ≤ ·)
  let h := hashStateUint64 write h keys.length
  let h := keys.foldl (fun h key => hashStateBytes write (hashStateBytes write h key)
    ((machine.values.lookup key).getD [])) h
  let clientIDs := clientIDs.insertionSort (· ≤ ·)
  let h := hashStateUint64 write h clientIDs.length
  clientIDs.foldl (fun h clientID =>
    let record := (machine.dedup.lookup clientID).getD ⟨0, .zero⟩
    let h := hashStateUint64 write h clientID.toNat
    let h := hashStateUint64 write h record.lastSeq.toNat
    let h := hashStateBytes write h record.lastResult.value
    if record.lastResult.found then hashStateUint64 write h 1 else hashStateUint64 write h 0) h

end Writer

def hash (hasher : Hasher) (machine : StateMachine) (keys : List Bytes) (clientIDs : List UInt64) :
    UInt64 :=
  hasher.sum64 (machine.hashInto hasher.write keys clientIDs hasher.new)

def hashed (machine : StateMachine) (keys : List Bytes) (clientIDs : List UInt64) : Bytes :=
  machine.hashInto (· ++ ·) keys clientIDs []

def logical (machine : StateMachine) : MapStateMachine :=
  ⟨machine.values, machine.dedup, machine.applied⟩

theorem hashInto_eq {W : Type} (write : W → Bytes → W) {machine : StateMachine}
    {keys keys' : List Bytes} {clientIDs clientIDs' : List UInt64}
    (hkeys : Iterates keys machine.values) (hclients : Iterates clientIDs machine.dedup)
    (hkeys' : Iterates keys' machine.values) (hclients' : Iterates clientIDs' machine.dedup) (h : W) :
    machine.hashInto write keys clientIDs h =
      machine.logical.hashInto write keys' clientIDs' h := by
  rw [hashInto, MapStateMachine.hashInto, hkeys.sort_eq hkeys', hclients.sort_eq hclients']
  rfl

/-- The digest is that of a byte string which tells the whole state, whatever the iteration
orders of the maps are; and a state machine over an engine writes the same one for the same
state. -/
theorem digest_unambiguous {m m' : MapStateMachine} (hm : m.Fits) (hm' : m'.Fits)
    {keys keys' : List Bytes} {clientIDs clientIDs' : List UInt64}
    (hkeys : Iterates keys m.values) (hclients : Iterates clientIDs m.dedup)
    (hkeys' : Iterates keys' m'.values) (hclients' : Iterates clientIDs' m'.dedup) :
    (∀ hasher, m.hash hasher keys clientIDs =
      hasher.sum64 (hasher.write hasher.new (m.hashed keys clientIDs))) ∧
    (m.hashed keys clientIDs = m'.hashed keys' clientIDs' ↔ m = m') ∧
    ∀ (machine : StateMachine) (order : List Bytes) (clients : List UInt64),
      machine.applied = m.applied → machine.values = m.values → machine.dedup = m.dedup →
      Iterates order machine.values → Iterates clients machine.dedup →
      machine.hashed order clients = m.hashed keys clientIDs ∧
        ∀ hasher, machine.hash hasher order clients = m.hash hasher keys clientIDs := by
  refine ⟨fun hasher => m.hash_eq hasher keys clientIDs,
    MapStateMachine.hashed_eq_iff hm hm' hkeys hclients hkeys' hclients', ?_⟩
  intro machine order clients happlied hvalues hdedup horder hclients₂
  have hlogical : machine.logical = m := by
    rw [logical, happlied, hvalues, hdedup]
  subst hlogical
  refine ⟨hashInto_eq _ horder hclients₂ hkeys hclients _, fun hasher => ?_⟩
  rw [hash, MapStateMachine.hash, hashInto_eq _ horder hclients₂ hkeys hclients]

def written (found : Bool) : MapStateMachine :=
  ⟨(Finmap.singleton [1] [7]).insert [2] [],
    (Finmap.singleton 3 ⟨1, .zero⟩).insert 5 ⟨2, ⟨[7], found⟩⟩, 4⟩

theorem written_fits (found : Bool) : (written found).Fits where
  applied := show 4 < 2 ^ 64 by decide
  values := by cases found <;> decide +kernel
  value := by
    intro key value hlookup
    have hall : ∀ key ∈ (written found).values.keys, key.length < 2 ^ 64 ∧
        ((written found).values.lookup key).all (·.length < 2 ^ 64) = true := by
      cases found <;> decide +kernel
    have hkey := hall key (Finmap.mem_of_lookup_eq_some hlookup)
    rw [hlookup] at hkey
    exact ⟨hkey.1, of_decide_eq_true hkey.2⟩
  dedup := by cases found <;> decide +kernel
  result := by
    intro clientID record hlookup
    have hclient : clientID = 5 ∨ clientID = 3 := by
      simpa [written] using Finmap.mem_of_lookup_eq_some hlookup
    have hrecord : ((written found).dedup.lookup clientID).all
        (·.lastResult.value.length < 2 ^ 64) = true := by
      rcases hclient with rfl | rfl <;> cases found <;> decide +kernel
    rw [hlookup] at hrecord
    exact of_decide_eq_true hrecord

theorem iterates_of_keys {K V : Type} [LE K] [DecidableLE K] [DecidableEq K] {order : List K}
    {f : Finmap fun _ : K => V} (hnodup : order.Nodup) (hkeys : order.toFinset = f.keys) :
    Iterates order f :=
  ⟨hnodup, fun key => by rw [← Finmap.mem_keys, ← hkeys, List.mem_toFinset]⟩

theorem digest_unambiguous_written :
    (StateMachine.mk (newEngine (Stream'.const 0)) (written true).values (written true).dedup 4 false
      0).hash fnv64a [[2], [1]] [5, 3] = (written true).hash fnv64a [[1], [2]] [3, 5] ∧
    (written true).hash fnv64a [[1], [2]] [3, 5] = fnv64a.sum64 (fnv64a.write fnv64a.new
      ((written true).hashed [[1], [2]] [3, 5])) ∧
    (written true).hashed [[1], [2]] [3, 5] ≠ (written false).hashed [[2], [1]] [5, 3] := by
  have hkeys (found : Bool) : Iterates [[1], [2]] (written found).values :=
    iterates_of_keys (by decide) (by cases found <;> decide +kernel)
  have hkeys' (found : Bool) : Iterates [[2], [1]] (written found).values :=
    iterates_of_keys (by decide) (by cases found <;> decide +kernel)
  have hclients (found : Bool) : Iterates [3, 5] (written found).dedup :=
    iterates_of_keys (by decide) (by cases found <;> decide +kernel)
  have hclients' (found : Bool) : Iterates [5, 3] (written found).dedup :=
    iterates_of_keys (by decide) (by cases found <;> decide +kernel)
  obtain ⟨hbytes, hstate, hengine⟩ := digest_unambiguous (written_fits true) (written_fits false)
    (hkeys true) (hclients true) (hkeys' false) (hclients' false)
  refine ⟨(hengine _ _ _ rfl rfl rfl (hkeys' true) (hclients' true)).2 _, hbytes _, fun heq => ?_⟩
  have hfound := congrArg (fun m => (m.dedup.lookup 5).map (·.lastResult.found)) (hstate.1 heq)
  exact absurd hfound (by decide +kernel)

/-! ### Replaying the log -/

section Replay

variable {m : Marshaler VersionEdit} {codec : Marshaler Command} {l : MapStateMachine}
  {replaying : Bool} {ceiling index : Nat} {st : StateStore}

theorem wp_getMachine {Q : StateMachine → StateStore → Prop} {E : Err → StateStore → Prop} :
    wp getMachine Q E st ↔ Q st.machine st := Iff.rfl

theorem wp_modifyMachine {Q : Unit → StateStore → Prop} {E : Err → StateStore → Prop}
    (f : StateMachine → StateMachine) :
    wp (modifyMachine f) Q E st ↔ Q () ⟨f st.machine, st.fs⟩ := Iff.rfl

def InState (l : MapStateMachine) (replaying : Bool) (ceiling : Nat) (st : StateStore) : Prop :=
  ∃ engine fs, st = ⟨⟨engine, l.values, l.dedup, l.applied, replaying, ceiling⟩, fs⟩

/-- While the log is replayed from the state `l`, `x` returns only what `r` returns, with its
state, and the replay ends at the ceiling; a failure changes nothing. -/
def Follows (l : MapStateMachine) (ceiling index : Nat) {ε : Type}
    (r : Except ε (MapStateMachine × Result)) (x : StateMachineM Result) : Prop :=
  ∀ st, InState l true ceiling st → wp x
    (fun result st' => ∃ l', r = .ok (l', result) ∧ InState l' (decide (index < ceiling)) ceiling st')
    (fun _ => InState l true ceiling) st

theorem onEngine_inState {α : Type} (x : EngineM α) (h : InState l replaying ceiling st) :
    wp (onEngine x) (fun _ => InState l replaying ceiling) (fun _ => InState l replaying ceiling) st := by
  obtain ⟨engine, fs, rfl⟩ := h
  rw [onEngine, wp_zoom]
  exact wp_iff.2 ⟨fun _ s _ => ⟨s.engine, s.fs, rfl⟩, fun _ s _ => ⟨s.engine, s.fs, rfl⟩⟩

theorem advanceAppliedLocked_inState (h : InState l replaying ceiling st) :
    wp (advanceAppliedLocked index) (fun _ => InState (l.advanceAppliedIndex index) replaying ceiling)
      (fun _ => InState l replaying ceiling) st := by
  obtain ⟨engine, fs, rfl⟩ := h
  rw [advanceAppliedLocked, wp_bind, MapStateMachine.advanceAppliedIndex]
  refine wp_ite (fun hle => ?_) (fun hlt => ?_)
  · rw [if_neg (not_lt.2 hle)]
    exact ⟨engine, fs, rfl⟩
  · rw [if_pos (not_le.1 hlt), wp_bind]
    refine wp_mono (onEngine_inState _ ⟨engine, fs, rfl⟩) ?_ (fun _ _ h => h)
    rintro _ _ ⟨engine, fs, rfl⟩
    exact ⟨engine, fs, rfl⟩

theorem finishReplayLocked_inState (h : InState l true ceiling st) {E : Err → StateStore → Prop} :
    wp (finishReplayLocked index) (fun _ => InState l (decide (index < ceiling)) ceiling) E st := by
  obtain ⟨engine, fs, rfl⟩ := h
  refine ⟨engine, fs, ?_⟩
  by_cases hlt : index < ceiling
  · simp [hlt]
  · simp [hlt, not_lt.1 hlt]

theorem follows_advance (result : Result) {ε : Type} :
    Follows l ceiling index (.ok (l.advanceAppliedIndex index, result) : Except ε _) (do
      advanceAppliedLocked index
      finishReplayLocked index
      return result) := by
  intro st h
  rw [wp_bind]
  refine wp_mono (advanceAppliedLocked_inState h) (fun _ st' h' => ?_) (fun _ _ h => h)
  rw [wp_bind]
  exact wp_mono (finishReplayLocked_inState h') (fun _ _ h => ⟨_, rfl, h⟩) (fun _ _ h => h)

theorem getLocked_replaying {key : Bytes} (h : st.machine.replaying = true) :
    getLocked key st = (.ok (st.machine.logical.read key), st) := by
  refine eq_of_wp ?_
  rw [getLocked, wp_bind, wp_getMachine, if_pos h]
  rfl

theorem getLocked_eq_read {key : Bytes} (h : st.machine.replaying = false) :
    getLocked key st = read key st := by
  refine eq_of_wp ?_
  rw [getLocked, wp_bind, wp_getMachine, if_neg (by rw [h]; decide)]
  exact wp_iff.2 ⟨fun _ _ heq => heq.symm, fun _ _ heq => heq.symm⟩

theorem executeLocked_inState (command : Command) (h : InState l true ceiling st) :
    wp (executeLocked m command index) (fun result st' => ∃ l', l.execute command = .ok (l', result) ∧
      (InState l' true ceiling st' ∨ InState (l'.advanceAppliedIndex index) true ceiling st'))
      (fun _ => InState l true ceiling) st := by
  rw [executeLocked, MapStateMachine.execute]
  cases command.op with
  | put | delete =>
    rw [wp_bind]
    refine wp_mono (onEngine_inState _ h) ?_ (fun _ _ h => h)
    rintro _ _ ⟨engine, fs, rfl⟩
    exact ⟨_, rfl, .inl ⟨engine, fs, rfl⟩⟩
  | get =>
    obtain ⟨engine, fs, rfl⟩ := h
    rw [wp_bind, wp, getLocked_replaying rfl]
    dsimp only
    rw [wp_bind]
    exact wp_mono (advanceAppliedLocked_inState ⟨engine, fs, rfl⟩)
      (fun _ _ h => ⟨l, rfl, .inr h⟩) (fun _ _ h => h)
  | unspecified | unrecognized _ => exact h

theorem applyCommand_follows (command : Command) :
    Follows l ceiling index (l.applyCommand command index) (applyCommand m command index) := by
  intro st h
  have hdedup : st.machine.dedup = l.dedup := by
    obtain ⟨engine, fs, rfl⟩ := h
    rfl
  have hdup : l.duplicate command = ((l.dedup.lookup command.clientId).filter fun record =>
      command.seq ≤ record.lastSeq).map DedupRecord.lastResult := by
    rw [MapStateMachine.duplicate]
    split <;> simp [*, Option.filter, apply_ite]
  rw [applyCommand, wp_bind, wp_getMachine, MapStateMachine.applyCommand, hdup, hdedup]
  cases (l.dedup.lookup command.clientId).filter fun record => command.seq ≤ record.lastSeq with
  | some record => exact follows_advance record.lastResult st h
  | none =>
    rw [wp_bind]
    refine wp_mono (executeLocked_inState command h) ?_ (fun _ _ h => h)
    rintro result st' ⟨l', hexec, hl'⟩
    rw [hexec, wp_bind, wp_modifyMachine, wp_bind, wp_modifyMachine, wp_bind]
    refine wp_mono (finishReplayLocked_inState ?_) (fun _ _ h => ⟨_, rfl, h⟩) (fun _ _ h => h)
    rcases hl' with ⟨engine, fs, rfl⟩ | ⟨engine, fs, rfl⟩
    · refine ⟨engine, fs, ?_⟩
      simp only [MapStateMachine.advanceAppliedIndex]
      split <;> rfl
    · refine ⟨engine, fs, ?_⟩
      simp only [MapStateMachine.advanceAppliedIndex]
      split <;> simp

theorem apply_follows {e : Entry} (he : e.index ≤ ceiling) :
    Follows l ceiling e.index (l.apply codec (some e)) (apply m codec (some e)) := by
  intro st h
  have hkeep : (if st.machine.replaying ∧ e.index > st.machine.replayCeiling then
      { st.machine with replaying := false } else st.machine) = st.machine := by
    obtain ⟨engine, fs, rfl⟩ := h
    exact if_neg fun hpast => absurd hpast.2 (not_lt.2 he)
  rw [apply, wp_bind, wp_modifyMachine, hkeep, MapStateMachine.apply]
  cases e.type with
  | noop => exact follows_advance .zero st h
  | normal =>
    cases codec.unmarshal e.data with
    | none => exact h
    | some command => exact applyCommand_follows command st h
  | unspecified | unrecognized _ => exact h

theorem InState.logical (h : InState l replaying ceiling st) : st.machine.logical = l := by
  obtain ⟨engine, fs, rfl⟩ := h
  rfl

def replay (m : Marshaler VersionEdit) (codec : Marshaler Command) (last : Nat) (log : List Entry) :
    StateMachineM Unit := do
  beginReplay 1 last
  log.forM fun e => discard (apply m codec (some e))

theorem replay_append (last : Nat) (log : List Entry) (e : Entry) :
    replay m codec last (log ++ [e]) = (do
      replay m codec last log
      discard (apply m codec (some e))) := by
  simp [replay, List.forM_append]

theorem replay_inState {engine : Engine} {fs : SimFS} {last : Nat} {log : List Entry}
    (hnum : NumberedFrom 1 log) (hlast : log.length ≤ last) :
    wp (replay m codec last log)
      (fun _ st => ∃ l, MapStateMachine.run codec log = .ok l ∧
        InState l (decide (log.length < last)) last st)
      (fun err st => ∃ done e rest st₀ l, log = done ++ e :: rest ∧
        replay m codec last done ⟨new engine, fs⟩ = (.ok (), st₀) ∧
        apply m codec (some e) st₀ = (.error err, st) ∧
        MapStateMachine.run codec done = .ok l ∧ InState l true last st)
      ⟨new engine, fs⟩ := by
  induction log using List.reverseRecOn with
  | nil =>
    rw [replay, wp_bind, beginReplay]
    refine wp_ite (fun hzero => ?_) (fun hpos => ?_)
    · obtain rfl : last = 0 := Nat.lt_one_iff.1 hzero
      exact ⟨.new, rfl, engine, fs, rfl⟩
    · rw [wp_bind, wp_failIf]
      refine ⟨fun hne => absurd rfl hne, fun _ => ⟨.new, rfl, engine, fs, ?_⟩⟩
      rw [decide_eq_true (show ([] : List Entry).length < last from Nat.not_lt.1 hpos)]
      rfl
  | append_singleton log e ih =>
    obtain ⟨hlog, hindex, -⟩ := numberedFrom_append.1 hnum
    rw [List.length_append, List.length_singleton] at hlast ⊢
    rw [replay_append, wp_bind]
    refine wp_mono (wp_self (ih hlog (by omega))) ?_ ?_
    · rintro _ st ⟨⟨l, hrun, hl⟩, hdone⟩
      rw [decide_eq_true (by omega)] at hl
      refine (wp_map _ _).2 (wp_mono (wp_self (apply_follows (by omega) st hl)) ?_ ?_)
      · rintro result st' ⟨⟨l', happly, hl'⟩, -⟩
        rw [hindex, Nat.add_comm 1] at hl'
        exact ⟨l', foldlM_append_eq_ok.2
          ⟨l, hrun, foldlM_cons_eq_ok.2 ⟨l', by rw [happly]; rfl, rfl⟩⟩, hl'⟩
      · rintro err st' ⟨hl', herr⟩
        exact ⟨log, e, [], st, l, rfl, hdone, herr, hrun, hl'⟩
    · rintro err st ⟨⟨done, e', rest, st₀, l, rfl, hfailed⟩, -⟩
      exact ⟨done, e', rest ++ [e], st₀, l, by simp, hfailed⟩

/-- Over the log that a replay covers, from its start and whatever the engine under it already
holds or fails at, each entry is answered as the map machine answers it after the entries
before, and leaves the state the map machine has.  The replay stops at the first entry that
fails, with the state of exactly the entries before that one. -/
theorem replay_refines_map (m : Marshaler VersionEdit) (codec : Marshaler Command) (engine : Engine)
    (fs : SimFS) (last : Nat) (log : List Entry) (hnum : NumberedFrom 1 log)
    (hlast : log.length ≤ last) :
    wp (replay m codec last log)
      (fun _ st => MapStateMachine.run codec log = .ok st.machine.logical)
      (fun err st => ∃ done e rest st₀, log = done ++ e :: rest ∧
        replay m codec last done ⟨new engine, fs⟩ = (.ok (), st₀) ∧
        apply m codec (some e) st₀ = (.error err, st) ∧
        MapStateMachine.run codec done = .ok st.machine.logical)
      ⟨new engine, fs⟩ ∧
    ∀ done e rest st₀ result st, log = done ++ e :: rest →
      replay m codec last done ⟨new engine, fs⟩ = (.ok (), st₀) →
      apply m codec (some e) st₀ = (.ok result, st) →
      ∃ before, MapStateMachine.run codec done = .ok before ∧
        before.apply codec (some e) = .ok (st.machine.logical, result) ∧
        st.machine.replaying = decide (e.index < last) := by
  refine ⟨wp_mono (replay_inState hnum hlast) ?_ ?_, ?_⟩
  · rintro _ st ⟨l, hrun, hl⟩
    rw [hl.logical, hrun]
  · rintro err st ⟨done, e, rest, st₀, l, hlog, hdone, herr, hrun, hl⟩
    exact ⟨done, e, rest, st₀, hlog, hdone, herr, by rw [hl.logical, hrun]⟩
  · rintro done e rest st₀ result st rfl hdone happly
    obtain ⟨hnum', hindex, -⟩ := numberedFrom_append.1 hnum
    rw [List.length_append, List.length_cons] at hlast
    obtain ⟨l, hrun, hl⟩ := (wp_iff.1 (replay_inState hnum' (by omega))).1 () st₀ hdone
    rw [decide_eq_true (by omega)] at hl
    obtain ⟨l', hl', hst⟩ := (wp_iff.1 (apply_follows (by omega) st₀ hl)).1 result st happly
    refine ⟨l, hrun, by rw [hst.logical, hl'], ?_⟩
    obtain ⟨engine, fs, rfl⟩ := hst
    rfl

theorem openStateMachine_new (m : Marshaler VersionEdit) (dir : Bytes) (options : Options)
    (fs : SimFS) :
    wp (openStateMachine m dir options) (fun machine _ => machine = new machine.engine)
      (fun _ _ => True) fs := by
  rw [openStateMachine, wp_bind]
  exact wp_iff.2 ⟨fun _ _ _ => rfl, fun _ _ _ => trivial⟩

/-- A machine that has been opened answers a `GET` from the log replayed so far; from the last
entry of the replay on, or once the replay is finished early, it answers as `Read` does. -/
theorem get_follows_replay {dir : Bytes} {options : Options} {fs fs' : SimFS}
    {machine : StateMachine} {last : Nat} {log : List Entry}
    (hopen : openStateMachine m dir options fs = (.ok machine, fs')) (hnum : NumberedFrom 1 log)
    (hlast : log.length ≤ last) (hreplay : replay m codec last log ⟨machine, fs'⟩ = (.ok (), st))
    (key : Bytes) :
    getLocked key st =
      (if log.length < last then (.ok (st.machine.logical.read key), st) else read key st) ∧
    wp finishReplay (fun _ st' => st'.machine.logical = st.machine.logical ∧
      getLocked key st' = read key st') (fun _ _ => False) st := by
  have hnew := (wp_iff.1 (openStateMachine_new m dir options fs)).1 machine fs' hopen
  rw [hnew] at hreplay
  obtain ⟨l, -, engine, fs, rfl⟩ := (wp_iff.1 (replay_inState hnum hlast)).1 () st hreplay
  refine ⟨?_, rfl, getLocked_eq_read rfl⟩
  split
  · exact getLocked_replaying (decide_eq_true ‹_›)
  · exact getLocked_eq_read (decide_eq_false ‹_›)

/-! An engine that already holds a later version of the key that the log writes. -/

def aheadEngine : Engine :=
  (putActive (newEngine (Stream'.const 1)) ⟨[5], 7, [9], false⟩).getD (newEngine (Stream'.const 1))

def logged (index : Nat) (command : Command) : Entry :=
  ⟨index, 1, .normal, commandWire.marshaler.marshal command⟩

def writtenAndRead : List Entry :=
  [⟨1, 1, .noop, []⟩, logged 2 ⟨1, 1, .put, [5], [7]⟩, logged 3 ⟨2, 1, .get, [5], []⟩,
    ⟨4, 1, .unspecified, []⟩]

theorem replay_refines_map_ahead :
    (∃ st₀ st, replay editWire.marshaler commandWire.marshaler 4 (writtenAndRead.take 2)
        ⟨new aheadEngine, .newSimFS⟩ = (.ok (), st₀) ∧
      apply editWire.marshaler commandWire.marshaler writtenAndRead[2]? st₀ =
        (.ok ⟨[7], true⟩, st) ∧ st.machine.replaying = true) ∧
    ∃ err st, replay editWire.marshaler commandWire.marshaler 4 writtenAndRead
        ⟨new aheadEngine, .newSimFS⟩ = (.error err, st) ∧
      MapStateMachine.run commandWire.marshaler (writtenAndRead.take 3) =
        .ok st.machine.logical := by
  obtain ⟨hreplay, hanswers⟩ := replay_refines_map editWire.marshaler commandWire.marshaler
    aheadEngine .newSimFS 4 writtenAndRead ⟨rfl, rfl, rfl, rfl, trivial⟩ le_rfl
  refine ⟨?_, ?_⟩
  · obtain ⟨⟨⟩, st₀, hdone⟩ := exists_eq_ok (x := replay editWire.marshaler commandWire.marshaler 4
      (writtenAndRead.take 2)) (s := ⟨new aheadEngine, .newSimFS⟩) (by decide +kernel)
    obtain ⟨result, st, happly⟩ := exists_eq_ok
      (x := apply editWire.marshaler commandWire.marshaler writtenAndRead[2]?) (s := st₀) (by
        rw [show st₀ = (replay editWire.marshaler commandWire.marshaler 4 (writtenAndRead.take 2)
          ⟨new aheadEngine, .newSimFS⟩).2 by rw [hdone]]
        decide +kernel)
    obtain ⟨before, hrun, hanswer, hreplaying⟩ := hanswers _ _ _ st₀ result st rfl hdone happly
    have hget : ((MapStateMachine.run commandWire.marshaler (writtenAndRead.take 2)).toOption.bind
        fun before => (before.apply commandWire.marshaler writtenAndRead[2]?).toOption).map
          Prod.snd = some ⟨[7], true⟩ := by decide +kernel
    rw [hrun, Except.toOption, Option.bind_some] at hget
    rw [show writtenAndRead[2]? = some _ from rfl, hanswer] at hget
    cases hget
    exact ⟨st₀, st, hdone, happly, hreplaying⟩
  · have hstopped : (replay editWire.marshaler commandWire.marshaler 4 writtenAndRead
        ⟨new aheadEngine, .newSimFS⟩).1.isOk = false ∧ (replay editWire.marshaler
          commandWire.marshaler 4 writtenAndRead ⟨new aheadEngine, .newSimFS⟩).2.machine.applied =
            3 := by decide +kernel
    rcases hx : replay editWire.marshaler commandWire.marshaler 4 writtenAndRead
      ⟨new aheadEngine, .newSimFS⟩ with ⟨err | _, st⟩
    · obtain ⟨done, e, rest, -, hlog, -, -, hrun⟩ := (wp_iff.1 hreplay).2 err st hx
      have hfront : done = writtenAndRead.take done.length :=
        List.prefix_iff_eq_take.1 ⟨_, hlog.symm⟩
      have hlen : done.length < 4 := by
        have := congrArg List.length hlog
        simp [writtenAndRead] at this
        omega
      have hcount : ∀ k < 4, (MapStateMachine.run commandWire.marshaler
        (writtenAndRead.take k)).toOption.map (·.applied) = some k := by decide +kernel
      have hk := hcount done.length hlen
      rw [← hfront, hrun] at hk
      have happlied : st.machine.applied = 3 := by
        rw [hx] at hstopped
        exact hstopped.2
      have hthree : done.length = 3 := (Option.some.inj hk).symm.trans happlied
      rw [hthree] at hfront
      exact ⟨err, st, rfl, hfront ▸ hrun⟩
    · rw [hx] at hstopped
      cases hstopped.1

end Replay

end StateMachine

end MiniQuorum.Lsm
