import MiniQuorum.StateMachine.ExactlyOnce

/-! What a state machine answers to each entry of a log, against the sequential map run over
the fresh commands only. -/

namespace MiniQuorum.StateMachine

open Raft Codec Consensus

def Applicable (codec : Marshaler Command) (e : Entry) : Prop :=
  e.type = .noop ∨ ∃ command op, entryCommand codec e = some command ∧ command.mapOp = some op

theorem Applicable.apply_isOk {codec : Marshaler Command} {e : Entry} (h : Applicable codec e)
    (m : MapStateMachine) : ∃ m' r, m.apply codec (some e) = .ok (m', r) := by
  rcases h with hnoop | ⟨command, op, he, hop⟩
  · simp only [MapStateMachine.apply, hnoop]
    exact ⟨_, _, rfl⟩
  · rw [entryCommand] at he
    split at he
    · rename_i ht
      simp only [MapStateMachine.apply, ht, he, MapStateMachine.applyCommand]
      split
      · exact ⟨_, _, rfl⟩
      · obtain ⟨m', r, hexec⟩ := MapStateMachine.execute_isOk (m := m) hop
        simp only [hexec]
        exact ⟨_, _, rfl⟩
    · cases he

def MapStateMachine.transcript (codec : Marshaler Command) (entries : List Entry) :
    Except ApplyError (MapStateMachine × List (Entry × Result)) :=
  entries.foldlM (fun t e => (t.1.apply codec (some e)).map fun x => (x.1, t.2 ++ [(e, x.2)]))
    (new, [])

def IsFresh (fresh : List Command) (command : Command) : Prop :=
  ∀ earlier ∈ fresh, earlier.clientId = command.clientId → earlier.seq < command.seq

instance (fresh : List Command) (command : Command) : Decidable (IsFresh fresh command) :=
  inferInstanceAs (Decidable (∀ earlier ∈ fresh,
    earlier.clientId = command.clientId → earlier.seq < command.seq))

def enrol (codec : Marshaler Command) (fresh : List Command) (e : Entry) : List Command :=
  match entryCommand codec e with
  | none => fresh
  | some command => if IsFresh fresh command then fresh ++ [command] else fresh

def freshCommands (codec : Marshaler Command) (entries : List Entry) : List Command :=
  entries.foldl (enrol codec) []

def plainOps (commands : List Command) : List MapOp := commands.filterMap Command.mapOp

def plainResultsFrom (before : List MapOp) : List Command → List (Command × Result)
  | [] => []
  | command :: rest =>
    match command.mapOp with
    | none => plainResultsFrom before rest
    | some op => (command, mapSpec.answer before op) :: plainResultsFrom (before ++ [op]) rest

def plainResults (commands : List Command) : List (Command × Result) := plainResultsFrom [] commands

def note (codec : Marshaler Command) (fresh : List (Command × Result)) (x : Entry × Result) :
    List (Command × Result) :=
  match entryCommand codec x.1 with
  | none => fresh
  | some command =>
    if IsFresh (fresh.map Prod.fst) command then fresh ++ [(command, x.2)] else fresh

def freshResults (codec : Marshaler Command) (results : List (Entry × Result)) :
    List (Command × Result) :=
  results.foldl (note codec) []

def latest (client : UInt64) (fresh : List (Command × Result)) : Option (Command × Result) :=
  (fresh.filter fun x => x.1.clientId = client).getLast?

/-- `copied` is `entries` with copies of commands already applied put in anywhere later.  The
entries kept may have moved to another index and term. -/
inductive WithDuplicates (codec : Marshaler Command) : List Entry → List Entry → Prop
  | nil : WithDuplicates codec [] []
  | keep {entries copied : List Entry} {e e' : Entry} (h : WithDuplicates codec entries copied)
      (htype : e'.type = e.type) (hdata : e'.data = e.data) :
      WithDuplicates codec (entries ++ [e]) (copied ++ [e'])
  | copy {entries copied : List Entry} {e e' : Entry} {command : Command}
      (h : WithDuplicates codec entries copied) (hmem : e ∈ copied)
      (hcommand : entryCommand codec e = some command)
      (hcopy : entryCommand codec e' = some command) :
      WithDuplicates codec entries (copied ++ [e'])

variable {codec : Marshaler Command} {m m' : MapStateMachine} {r : Result} {command : Command}
  {fresh : List Command}

section Plain

theorem plainOps_concat (commands : List Command) (command : Command) :
    plainOps (commands ++ [command]) = plainOps commands ++ command.mapOp.toList := by
  rw [plainOps, List.filterMap_append]
  cases h : command.mapOp <;> simp [plainOps, h]

theorem plainResultsFrom_concat {op : MapOp} (hop : command.mapOp = some op)
    (before : List MapOp) (commands : List Command) :
    plainResultsFrom before (commands ++ [command]) = plainResultsFrom before commands ++
      [(command, mapSpec.answer (before ++ plainOps commands) op)] := by
  induction commands generalizing before with
  | nil => simp [plainResultsFrom, hop, plainOps]
  | cons c rest ih =>
    cases hc : c.mapOp with
    | none =>
      simp only [List.cons_append, plainResultsFrom, hc, ih]
      rw [plainOps, plainOps, List.filterMap_cons_none hc]
    | some o =>
      simp only [List.cons_append, plainResultsFrom, hc, ih, List.append_assoc]
      rw [plainOps, plainOps, List.filterMap_cons_some hc]
      rfl

theorem plainResults_concat {op : MapOp} (hop : command.mapOp = some op)
    (commands : List Command) :
    plainResults (commands ++ [command]) =
      plainResults commands ++ [(command, mapSpec.answer (plainOps commands) op)] :=
  plainResultsFrom_concat hop [] commands

theorem latest_concat (client : UInt64) (fresh : List (Command × Result)) (x : Command × Result) :
    latest client (fresh ++ [x]) =
      if x.1.clientId = client then some x else latest client fresh := by
  rw [latest, List.filter_append]
  by_cases hx : x.1.clientId = client <;> simp [latest, hx]

theorem latest_eq_none {client : UInt64} {fresh : List (Command × Result)}
    (h : latest client fresh = none) : ∀ x ∈ fresh, x.1.clientId ≠ client := by
  intro x hx hc
  rw [latest, List.getLast?_eq_none_iff, List.filter_eq_nil_iff] at h
  exact h x hx (by simpa using hc)

end Plain

section Fresh

theorem freshCommands_concat (entries : List Entry) (e : Entry) :
    freshCommands codec (entries ++ [e]) = enrol codec (freshCommands codec entries) e := by
  rw [freshCommands, List.foldl_append]
  rfl

theorem freshResults_concat (results : List (Entry × Result)) (x : Entry × Result) :
    freshResults codec (results ++ [x]) = note codec (freshResults codec results) x := by
  rw [freshResults, List.foldl_append]
  rfl

theorem not_isFresh_enrol {e : Entry} (he : entryCommand codec e = some command)
    (fresh : List Command) : ¬ IsFresh (enrol codec fresh e) command := by
  rw [enrol, he]
  simp only
  split
  · intro h
    exact UInt64.lt_irrefl _ (h command (by simp) rfl)
  · assumption

theorem enrol_isPrefix (fresh : List Command) (e : Entry) : fresh <+: enrol codec fresh e := by
  rw [enrol]
  split
  · exact List.prefix_refl _
  · split
    · exact List.prefix_append _ _
    · exact List.prefix_refl _

theorem IsFresh.of_isPrefix {fresh' : List Command} (h : IsFresh fresh' command)
    (hp : fresh <+: fresh') : IsFresh fresh command :=
  fun earlier he => h earlier (hp.subset he)

theorem not_isFresh_of_mem {entries : List Entry} {e : Entry} (hmem : e ∈ entries)
    (he : entryCommand codec e = some command) :
    ¬ IsFresh (freshCommands codec entries) command := by
  induction entries using List.reverseRecOn with
  | nil => cases hmem
  | append_singleton entries last ih =>
    rw [freshCommands_concat]
    rcases List.mem_append.mp hmem with hmem | hmem
    · exact fun h => ih hmem (h.of_isPrefix (enrol_isPrefix _ last))
    · rw [List.mem_singleton] at hmem
      subst hmem
      exact not_isFresh_enrol he _

theorem WithDuplicates.freshCommands_eq {entries copied : List Entry}
    (h : WithDuplicates codec entries copied) :
    freshCommands codec copied = freshCommands codec entries := by
  induction h with
  | nil => rfl
  | keep _ htype hdata ih =>
    rw [freshCommands_concat, freshCommands_concat, ih, enrol, enrol, entryCommand, entryCommand,
      htype, hdata]
  | copy _ hmem hcommand hcopy ih =>
    rw [freshCommands_concat, ← ih, enrol, hcopy]
    exact if_neg (not_isFresh_of_mem hmem hcommand)

theorem WithDuplicates.applicable {entries copied : List Entry}
    (h : WithDuplicates codec entries copied) (ha : ∀ e ∈ entries, Applicable codec e) :
    ∀ e ∈ copied, Applicable codec e := by
  induction h with
  | nil => exact ha
  | keep _ htype hdata ih =>
    rw [List.forall_mem_append, List.forall_mem_singleton] at ha ⊢
    refine ⟨ih ha.1, ?_⟩
    rw [Applicable, entryCommand, htype, hdata]
    exact ha.2
  | copy _ hmem hcommand hcopy ih =>
    rw [List.forall_mem_append, List.forall_mem_singleton]
    refine ⟨ih ha, .inr ?_⟩
    rcases ih ha _ hmem with hnoop | ⟨command', op, hc, hop⟩
    · rw [entryCommand, hnoop] at hcommand
      cases hcommand
    · rw [hcommand] at hc
      cases hc
      exact ⟨_, op, hcopy, hop⟩

end Fresh

/-- A state machine that has run the fresh commands, each once, and remembers for each client
what it answered last. -/
structure Executed (fresh : List Command) (m : MapStateMachine) : Prop where
  store : m.store = mapSpec.run (plainOps fresh)
  commands : (plainResults fresh).map Prod.fst = fresh
  dedup : ∀ client, m.dedup.lookup client =
    (latest client (plainResults fresh)).map fun x => ⟨x.1.seq, x.2⟩
  newest : ∀ {client x}, latest client (plainResults fresh) = some x →
    ∀ command ∈ fresh, command.clientId = client → command.seq ≤ x.1.seq

namespace Executed

theorem new : Executed [] MapStateMachine.new where
  store := rfl
  commands := rfl
  dedup _ := rfl
  newest := by rintro client x ⟨⟩

theorem congr (h : Executed fresh m) (hvalues : m'.values = m.values)
    (hdedup : m'.dedup = m.dedup) : Executed fresh m' :=
  { h with
    store := by
      rw [← h.store]
      funext key
      exact congrArg (Finmap.lookup key) hvalues
    dedup := fun client => by
      rw [hdedup]
      exact h.dedup client }

theorem duplicate_of_isFresh (h : Executed fresh m) (hfresh : IsFresh fresh command) :
    m.duplicate command = none := by
  rw [MapStateMachine.duplicate, h.dedup]
  cases hlast : latest command.clientId (plainResults fresh) with
  | none => rfl
  | some x =>
    have hmem : x ∈ plainResults fresh ∧ x.1.clientId = command.clientId := by
      have := List.mem_of_getLast? hlast
      simpa using this
    have hx : x.1 ∈ fresh := h.commands ▸ List.mem_map_of_mem hmem.1
    exact if_neg (UInt64.not_le.mpr (hfresh x.1 hx hmem.2))

theorem duplicate_of_not_isFresh (h : Executed fresh m) (hfresh : ¬ IsFresh fresh command) :
    ∃ x, latest command.clientId (plainResults fresh) = some x ∧
      m.duplicate command = some x.2 := by
  rw [IsFresh] at hfresh
  push Not at hfresh
  obtain ⟨earlier, hmem, hclient, hseq⟩ := hfresh
  rw [MapStateMachine.duplicate, h.dedup]
  cases hlast : latest command.clientId (plainResults fresh) with
  | none =>
    rw [← h.commands] at hmem
    obtain ⟨x, hx, rfl⟩ := List.mem_map.mp hmem
    exact absurd hclient (latest_eq_none hlast x hx)
  | some x =>
    exact ⟨x, rfl, if_pos (UInt64.le_trans (UInt64.not_lt.mp hseq) (h.newest hlast _ hmem hclient))⟩

theorem applyCommand_fresh (h : Executed fresh m) (hfresh : IsFresh fresh command) {op : MapOp}
    (hop : command.mapOp = some op) (index : Nat) :
    ∃ m', m.applyCommand command index = .ok (m', mapSpec.answer (plainOps fresh) op) ∧
      Executed (fresh ++ [command]) m' := by
  obtain ⟨executed, r, hexec⟩ := MapStateMachine.execute_isOk (m := m) hop
  obtain ⟨op', hop', hstep, hdedup, _⟩ := MapStateMachine.execute_eq_ok hexec
  rw [hop] at hop'
  cases hop'
  rw [h.store] at hstep
  have hr : mapSpec.answer (plainOps fresh) op = r := by rw [SeqSpec.answer, hstep]
  have hops : plainOps (fresh ++ [command]) = plainOps fresh ++ [op] := by
    rw [plainOps_concat, hop]
    rfl
  have hresults := plainResults_concat hop fresh
  rw [hr] at hresults ⊢
  rw [MapStateMachine.applyCommand, h.duplicate_of_isFresh hfresh]
  simp only [hexec]
  refine ⟨_, rfl, congr (m := { executed with
    dedup := executed.dedup.insert command.clientId ⟨command.seq, r⟩ }) ?_ (by simp) (by simp)⟩
  refine ⟨?_, ?_, ?_, ?_⟩
  · rw [hops, SeqSpec.run_concat, hstep]
    rfl
  · rw [hresults, List.map_append, h.commands]
    rfl
  · intro client
    rw [hresults, latest_concat]
    by_cases hc : command.clientId = client
    · rw [if_pos hc, ← hc, Finmap.lookup_insert]
      rfl
    · rw [if_neg hc, Finmap.lookup_insert_of_ne _ (Ne.symm hc), hdedup]
      exact h.dedup client
  · intro client x hx earlier hmem hclient
    rw [hresults, latest_concat] at hx
    split at hx
    · rename_i hc
      cases hx
      rcases List.mem_append.mp hmem with hmem | hmem
      · exact UInt64.le_of_lt (hfresh earlier hmem (hclient.trans hc.symm))
      · rw [List.mem_singleton.mp hmem]
        exact UInt64.le_refl _
    · rename_i hc
      rcases List.mem_append.mp hmem with hmem | hmem
      · exact h.newest hx earlier hmem hclient
      · rw [List.mem_singleton.mp hmem] at hclient
        exact absurd hclient hc

theorem applyCommand_stale (h : Executed fresh m) (hfresh : ¬ IsFresh fresh command)
    (index : Nat) :
    ∃ m' x, m.applyCommand command index = .ok (m', x.2) ∧
      latest command.clientId (plainResults fresh) = some x ∧
      m'.values = m.values ∧ m'.dedup = m.dedup := by
  obtain ⟨x, hx, hdup⟩ := h.duplicate_of_not_isFresh hfresh
  rw [MapStateMachine.applyCommand, hdup]
  exact ⟨_, x, rfl, hx, by simp, by simp⟩

theorem apply_command {e : Entry} (he : entryCommand codec e = some command) (m : MapStateMachine) :
    m.apply codec (some e) = m.applyCommand command e.index := by
  rw [entryCommand] at he
  split at he
  · rename_i ht
    simp only [MapStateMachine.apply, ht, he]
  · cases he

theorem apply (h : Executed fresh m) {e : Entry} (ha : Applicable codec e) :
    ∃ m' r, m.apply codec (some e) = .ok (m', r) ∧ Executed (enrol codec fresh e) m' ∧
      note codec (plainResults fresh) (e, r) = plainResults (enrol codec fresh e) := by
  rcases ha with hnoop | ⟨command, op, he, hop⟩
  · have hnone : entryCommand codec e = none := by rw [entryCommand, hnoop]; rfl
    simp only [MapStateMachine.apply, hnoop, enrol, note, hnone]
    exact ⟨_, _, rfl, h.congr (by simp) (by simp), trivial⟩
  · rw [apply_command he]
    simp only [enrol, note, he, h.commands]
    by_cases hfresh : IsFresh fresh command
    · obtain ⟨m', happly, hexec⟩ := h.applyCommand_fresh hfresh hop e.index
      simp only [if_pos hfresh]
      exact ⟨m', _, happly, hexec, (plainResults_concat hop fresh).symm⟩
    · obtain ⟨m', x, happly, _, hvalues, hdedup⟩ := h.applyCommand_stale hfresh e.index
      simp only [if_neg hfresh]
      exact ⟨m', _, happly, h.congr hvalues hdedup, trivial⟩

end Executed

namespace MapStateMachine

theorem transcript_concat (codec : Marshaler Command) (entries : List Entry) (e : Entry) :
    transcript codec (entries ++ [e]) = (transcript codec entries).bind fun t =>
      (t.1.apply codec (some e)).map fun x => (x.1, t.2 ++ [(e, x.2)]) := by
  rw [transcript, List.foldlM_append]
  simp only [List.foldlM_cons, List.foldlM_nil, bind_pure]
  rfl

theorem transcript_concat_ok {entries : List Entry} {e : Entry}
    {results : List (Entry × Result)} (h : transcript codec entries = .ok (m, results))
    (happly : m.apply codec (some e) = .ok (m', r)) :
    transcript codec (entries ++ [e]) = .ok (m', results ++ [(e, r)]) := by
  rw [transcript_concat, h]
  simp only [Except.bind, happly]
  rfl

theorem transcript_isPrefix {before after : List Entry} {results results' : List (Entry × Result)}
    (h : transcript codec before = .ok (m, results))
    (h' : transcript codec (before ++ after) = .ok (m', results')) : results <+: results' := by
  induction after using List.reverseRecOn generalizing m' results' with
  | nil =>
    rw [List.append_nil, h] at h'
    cases h'
    exact List.prefix_refl _
  | append_singleton after e ih =>
    rw [← List.append_assoc, transcript_concat] at h'
    cases ht : transcript codec (before ++ after) with
    | error err =>
      rw [ht] at h'
      cases h'
    | ok t =>
      rw [ht] at h'
      change (t.1.apply codec (some e)).map _ = _ at h'
      cases ha : t.1.apply codec (some e) with
      | error err =>
        rw [ha] at h'
        cases h'
      | ok x =>
        rw [ha] at h'
        cases h'
        exact (ih ht).trans (List.prefix_append _ _)

theorem transcript_executed (entries : List Entry) (h : ∀ e ∈ entries, Applicable codec e) :
    ∃ m results, transcript codec entries = .ok (m, results) ∧ results.length = entries.length ∧
      Executed (freshCommands codec entries) m ∧
      freshResults codec results = plainResults (freshCommands codec entries) := by
  induction entries using List.reverseRecOn with
  | nil => exact ⟨_, _, rfl, rfl, Executed.new, rfl⟩
  | append_singleton entries e ih =>
    rw [List.forall_mem_append, List.forall_mem_singleton] at h
    obtain ⟨m, results, htranscript, hlen, hexec, hresults⟩ := ih h.1
    obtain ⟨m', r, happly, hexec', hnote⟩ := hexec.apply h.2
    refine ⟨m', _, transcript_concat_ok htranscript happly, ?_, ?_, ?_⟩
    · rw [List.length_append, List.length_append, hlen]
      rfl
    · rw [freshCommands_concat]
      exact hexec'
    · rw [freshResults_concat, freshCommands_concat, hresults, hnote]

theorem transcript_getElem {before after : List Entry} {e : Entry}
    {results results' : List (Entry × Result)} (h : transcript codec before = .ok (m, results))
    (hlen : results.length = before.length) (happly : m.apply codec (some e) = .ok (m', r))
    {last : MapStateMachine}
    (hall : transcript codec (before ++ e :: after) = .ok (last, results')) :
    results'[before.length]? = some (e, r) := by
  rw [List.append_cons] at hall
  obtain ⟨rest, rfl⟩ := transcript_isPrefix (transcript_concat_ok h happly) hall
  rw [← hlen, List.append_assoc, List.getElem?_append_right le_rfl, Nat.sub_self]
  rfl

end MapStateMachine

/-- Exactly-once semantics of a log with retries. -/
theorem exactly_once (codec : Marshaler Command) (entries : List Entry)
    (h : ∀ e ∈ entries, Applicable codec e) :
    ∃ m results, MapStateMachine.transcript codec entries = .ok (m, results) ∧
      m.store = mapSpec.run (plainOps (freshCommands codec entries)) ∧
      (∀ before e after command, entries = before ++ e :: after →
        entryCommand codec e = some command → IsFresh (freshCommands codec before) command →
        ∃ op, command.mapOp = some op ∧ results[before.length]? =
          some (e, mapSpec.answer (plainOps (freshCommands codec before)) op)) ∧
      (∀ before e after command, entries = before ++ e :: after →
        entryCommand codec e = some command → ¬ IsFresh (freshCommands codec before) command →
        ∃ m₀ earlier m₁ command' r, MapStateMachine.transcript codec before = .ok (m₀, earlier) ∧
          m₀.apply codec (some e) = .ok (m₁, r) ∧ m₁.values = m₀.values ∧ m₁.dedup = m₀.dedup ∧
          latest command.clientId (freshResults codec earlier) = some (command', r) ∧
          results[before.length]? = some (e, r)) ∧
      ∀ copied, WithDuplicates codec entries copied → ∃ m' results',
        MapStateMachine.transcript codec copied = .ok (m', results') ∧ m'.values = m.values ∧
          freshResults codec results' = freshResults codec results := by
  obtain ⟨m, results, htranscript, _, hexec, hresults⟩ :=
    MapStateMachine.transcript_executed entries h
  refine ⟨m, results, htranscript, hexec.store, ?_, ?_, ?_⟩
  · rintro before e after command rfl hcommand hfresh
    rw [List.forall_mem_append, List.forall_mem_cons] at h
    obtain ⟨hbefore, hnoop | ⟨_, op, hc, hop⟩, _⟩ := h
    · rw [entryCommand, hnoop] at hcommand
      cases hcommand
    · rw [hcommand] at hc
      cases hc
      obtain ⟨m₀, earlier, hrun, hlen, hexec₀, _⟩ :=
        MapStateMachine.transcript_executed before hbefore
      obtain ⟨m₁, happly, _⟩ := hexec₀.applyCommand_fresh hfresh hop e.index
      rw [← Executed.apply_command hcommand] at happly
      exact ⟨op, hop, MapStateMachine.transcript_getElem hrun hlen happly htranscript⟩
  · rintro before e after command rfl hcommand hfresh
    rw [List.forall_mem_append] at h
    obtain ⟨m₀, earlier, hrun, hlen, hexec₀, hresults₀⟩ :=
      MapStateMachine.transcript_executed before h.1
    obtain ⟨m₁, x, happly, hlatest, hvalues, hdedup⟩ := hexec₀.applyCommand_stale hfresh e.index
    rw [← Executed.apply_command hcommand] at happly
    rw [← hresults₀] at hlatest
    exact ⟨m₀, earlier, m₁, x.1, x.2, hrun, happly, hvalues, hdedup, hlatest,
      MapStateMachine.transcript_getElem hrun hlen happly htranscript⟩
  · intro copied hcopied
    obtain ⟨m', results', htranscript', _, hexec', hresults'⟩ :=
      MapStateMachine.transcript_executed copied (hcopied.applicable h)
    rw [hcopied.freshCommands_eq] at hexec' hresults'
    refine ⟨m', results', htranscript', ?_, hresults'.trans hresults.symm⟩
    apply Finmap.ext_lookup
    exact congrFun (hexec'.store.trans hexec.store.symm)

def byteCodec : Marshaler Command where
  marshal command := [command.seq.toUInt8]
  unmarshal bytes := bytes.head?.map fun b => ⟨1, b.toUInt64, .put, [5], [b]⟩

def retried : List Entry :=
  [⟨1, 1, .noop, []⟩, ⟨2, 1, .normal, [1]⟩, ⟨3, 1, .normal, [2]⟩, ⟨4, 2, .normal, [1]⟩]

theorem exactly_once_retried :
    (∀ e ∈ retried, Applicable byteCodec e) ∧ ∃ m results,
      MapStateMachine.transcript byteCodec retried = .ok (m, results) ∧
        m.store = mapSpec.run [.put [5] [1], .put [5] [2]] := by
  have h : ∀ e ∈ retried, Applicable byteCodec e := by
    simp only [retried, List.forall_mem_cons]
    exact ⟨.inl rfl, .inr ⟨_, _, rfl, rfl⟩, .inr ⟨_, _, rfl, rfl⟩, .inr ⟨_, _, rfl, rfl⟩,
      by rintro e ⟨⟩⟩
  obtain ⟨m, results, hrun, hstore, _⟩ := exactly_once byteCodec retried h
  have hops : plainOps (freshCommands byteCodec retried) = [.put [5] [1], .put [5] [2]] := by
    decide
  exact ⟨h, m, results, hrun, hops ▸ hstore⟩

end MiniQuorum.StateMachine
