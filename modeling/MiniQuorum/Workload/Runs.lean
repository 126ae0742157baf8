import MiniQuorum.Workload.Sequential

/-! Whatever its host delivers, the runner's clients go through their operations one by one. -/

namespace MiniQuorum.Workload

open Checker Program StateMachine

variable {w w' : World} {id : UInt64} {c : Client} {event : Event}
  {source : Int64 → Stream' Nat} {config : Config}

/-! ### Runs -/

def Event.Extra (event : Event) : Prop :=
  event.kind = .retry ∨ event.kind = .deadline ∨ event.kind = .leadershipLost ∨
    event.kind = .applied ∧ event.output.unknown = false

/-- The host delivers an event: one that was scheduled, not too early and once, or another. -/
inductive Step (w : World) : Event → Except RunnerError Unit → World → Prop
  | scheduled {before after due event time outcome w'}
      (hscheduled : w.host.scheduled = before ++ (due, event) :: after) (hdue : due ≤ time)
      (hnow : w.host.now ≤ time)
      (hhandle : handle event
        { w with host := { w.host with now := time, scheduled := before ++ after } } =
          (outcome, w')) :
      Step w event outcome w'
  | extra {event time outcome w'} (hextra : event.Extra) (hnow : w.host.now ≤ time)
      (hhandle : handle event { w with host := { w.host with now := time } } = (outcome, w')) :
      Step w event outcome w'

inductive Arises (source : Int64 → Stream' Nat) (config : Config) : World → Prop
  | started {runner time answers w} (hnew : Runner.new source config = .ok runner)
      (hanswers : Answers answers)
      (hstart : start ⟨runner, ⟨time, answers, [], [], []⟩⟩ = (.ok (), w)) :
      Arises source config w
  | delivered {w event outcome w'} (h : Arises source config w) (hstep : Step w event outcome w') :
      Arises source config w'

/-! ### Handling an event -/

def Recorded (w : World) (event : Event) (w' : World) : Prop :=
  (∃ started, w'.history = w.history ++ started ∧ ∀ o ∈ started, o.returnTime = none) ∨
    Completes w event w'

theorem Recorded.of_eq (h : w'.history = w.history) : Recorded w event w' :=
  .inl ⟨[], by rw [h, List.append_nil], nofun⟩

theorem handle_spec (h : Inv w) (hevent : event.Schedulable ∨ event.Extra)
    (hstart : event.kind = .start → ∀ {c}, w.runner.byID event.attemptID.clientID = some c →
      w.Ready event.attemptID.clientID) :
    wp (handle event) (fun _ w' => Inv w' ∧ Recorded w event w')
      (fun err w' => w' = w ∧ w.runner.byID event.attemptID.clientID = none ∧
        err = .unknownClient event.attemptID.clientID) w := by
  rw [handle, wp_bind]
  cases hc : w.runner.byID event.attemptID.clientID with
  | none =>
    rw [lookupClient, wp_bind, wp_get, hc]
    exact ⟨rfl, rfl, rfl⟩
  | some c =>
    rw [wp_lookupClient hc]
    have hid := h.named hc
    rw [← hid] at hc
    have hkeeps : ∀ {x : RunnerM Unit} {E : RunnerError → World → Prop}, Keeps w.history x w →
        wp x (fun _ w' => Inv w' ∧ Recorded w event w') E w :=
      fun hx => wp_mono hx (fun _ _ hw' => ⟨hw'.1, .of_eq hw'.2⟩) fun _ _ => False.elim
    cases hkind : event.kind with
    | start =>
      have hready := hstart hkind (hid ▸ hc)
      rw [← hid] at hready
      exact wp_mono (handleStart_spec h hc hready) (fun _ _ hw' => ⟨hw'.1, .inl hw'.2⟩)
        fun _ _ => False.elim
    | retry => exact hkeeps (handleRetry_spec h hc)
    | deadline => exact hkeeps (handleDeadline_spec h hc)
    | leadershipLost => exact hkeeps (handleLeadershipLost_spec h hc)
    | applied =>
      have hknown : event.output.unknown = false := by
        simpa [Event.Schedulable, Event.Extra, hkind] using hevent
      refine wp_mono (handleApplied_spec h hc hkind hknown) (fun _ _ hw' => ⟨hw'.1, ?_⟩)
        fun _ _ => False.elim
      exact hw'.2.elim .of_eq .inr
    | unsupported kind => simp [Event.Schedulable, Event.Extra, hkind] at hevent

/-! ### Delivering an event -/

variable {host : Host} {outcome : Except RunnerError Unit} {runner : Runner} {done : History}

theorem Inv.later (h : Inv w) (hnow : w.host.now ≤ host.now)
    (hanswers : host.answers = w.host.answers)
    (hsubmissions : host.submissions = w.host.submissions)
    (hscheduled : host.scheduled.Sublist w.host.scheduled) : Inv { w with host } where
  answers := hanswers.symm ▸ h.answers
  schedulable hmem := h.schedulable (hscheduled.subset hmem)
  think := h.think
  sessions hc := by
    obtain ⟨done, hsession⟩ := h.sessions hc
    exact ⟨done, hsession.later rfl hnow (hscheduled.filterMap _)⟩
  strangers := h.strangers
  submitted := hsubmissions.trans h.submitted
  tried hfew _ _ hc := (h.tried hfew hc).keep rfl rfl fun hactive => ⟨_, hactive, rfl, rfl, rfl⟩
  repeats := h.repeats

theorem Inv.ready {before after : List (Int64 × Event)} {due time : Int64} (h : Inv w)
    (hscheduled : w.host.scheduled = before ++ (due, event) :: after) (hdue : due ≤ time)
    (hnow : w.host.now ≤ time) (hkind : event.kind = .start)
    (hc : w.runner.byID event.attemptID.clientID = some c) :
    ({ w with host := { w.host with now := time, scheduled := before ++ after } } : World).Ready
      event.attemptID.clientID := by
  obtain ⟨done, hsession⟩ := h.sessions hc
  have hstarts : w.starts event.attemptID.clientID =
      startsOf before event.attemptID.clientID ++
        due :: startsOf after event.attemptID.clientID := by
    rw [World.starts, hscheduled, ← List.singleton_append, startsOf_append, startsOf_append]
    simp [hkind]
  cases hsession.phase with
  | busy _ _ _ _ _ _ _ _ unscheduled =>
    rw [unscheduled] at hstarts
    simp at hstarts
  | idle inactive session _ _ single hlater =>
    rw [hstarts, List.length_append, List.length_cons] at single
    refine ⟨fun {c'} hc' => ?_, ?_, fun htimely last hlast time' hreturn => ?_⟩
    · cases hc.symm.trans hc'
      exact inactive
    · rw [World.starts, startsOf_append, List.append_eq_nil_iff, ← List.length_eq_zero_iff,
        ← List.length_eq_zero_iff]
      omega
    · have hle := Int64.le_iff_toInt_le.1 hnow
      refine (hlater ?_ last (session ▸ hlast) time' hreturn due (by simp [hstarts])).trans_le
        (Int64.le_iff_toInt_le.1 hdue)
      rw [World.Timely] at htimely ⊢
      dsimp only at htimely
      omega

/-- What the runner answers to an event, and what becomes of the history. -/
structure Handled (w : World) (event : Event) (outcome : Except RunnerError Unit) (w' : World) :
    Prop where
  answered : outcome = .ok () ∨
    w.runner.byID event.attemptID.clientID = none ∧
      outcome = .error (.unknownClient event.attemptID.clientID)
  recorded : Recorded w event w'

theorem Handled.of_handle (hhandle : handle event { w with host } = (outcome, w'))
    (hinv : Inv { w with host }) (hevent : event.Schedulable ∨ event.Extra)
    (hstart : event.kind = .start → ∀ {c}, w.runner.byID event.attemptID.clientID = some c →
      ({ w with host } : World).Ready event.attemptID.clientID) :
    Inv w' ∧ Handled w event outcome w' := by
  have hspec := handle_spec hinv hevent hstart
  rw [wp, hhandle] at hspec
  cases outcome with
  | ok => exact ⟨hspec.1, .inl rfl, hspec.2⟩
  | error err =>
    obtain ⟨rfl, hunknown, rfl⟩ := hspec
    exact ⟨hinv, .inr ⟨hunknown, rfl⟩, .of_eq rfl⟩

theorem Step.spec (h : Inv w)
    (hstep : Step w event outcome w') : Inv w' ∧ Handled w event outcome w' := by
  cases hstep with
  | @scheduled before after due _ time _ _ hscheduled hdue hnow hhandle =>
    have hmem : (due, event) ∈ w.host.scheduled := by
      rw [hscheduled]
      exact List.mem_append_right _ List.mem_cons_self
    refine Handled.of_handle hhandle (h.later hnow rfl rfl ?_) (.inl (h.schedulable hmem))
      fun hkind _ hc => h.ready hscheduled hdue hnow hkind hc
    rw [hscheduled]
    exact (List.sublist_cons_self _ _).append_left before
  | extra hextra hnow hhandle =>
    refine Handled.of_handle hhandle (h.later hnow rfl rfl (List.Sublist.refl _)) (.inr hextra)
      fun hkind => ?_
    simp [Event.Extra, hkind] at hextra

/-! ### The start -/

structure Config.Valid (config : Config) : Prop where
  think : 0 < config.thinkTime.toInt
  operations : 0 ≤ config.operationsPerClient.toInt
  targets : 0 < config.targets.length

theorem Int64.toInt_nonneg_of_not_neg {x : Int64} (h : ¬x < 0) : 0 ≤ x.toInt := by
  rw [Int64.not_lt, Int64.le_iff_toInt_le] at h
  exact h

theorem ite_error_eq_ok {ε α : Type} {p : Prop} [Decidable p] {err : ε} {x : Except ε α} {a : α} :
    (if p then .error err else x) = .ok a ↔ ¬p ∧ x = .ok a := by
  split <;> simp [*]

theorem Config.check_eq_ok {normalized : Config} (h : config.check = .ok normalized) :
    normalized = config ∧ ¬config.operationsPerClient < 0 ∧ ¬config.thinkTime < 0 ∧
      config.targets ≠ [] := by
  simp only [check, ite_error_eq_ok, Except.ok.injEq] at h
  obtain ⟨-, -, hoperations, -, -, hthink, -, htargets, -, rfl⟩ := h
  exact ⟨rfl, hoperations, hthink, htargets⟩

theorem normalizeConfig_valid {normalized : Config} (h : normalizeConfig config = .ok normalized) :
    normalized.Valid := by
  obtain ⟨rfl, hoperations, hthink, htargets⟩ := Config.check_eq_ok h
  refine ⟨?_, Int64.toInt_nonneg_of_not_neg hoperations, List.length_pos_iff.2 htargets⟩
  have hne : config.withDefaults.thinkTime ≠ 0 := by
    rw [Config.withDefaults]
    dsimp only
    split
    · decide
    · assumption
  have hne' : config.withDefaults.thinkTime.toInt ≠ 0 := fun h => hne (Int64.toInt_inj.1 h)
  have := Int64.toInt_nonneg_of_not_neg hthink
  omega

structure Fresh (runner : Runner) : Prop where
  valid : runner.config.Valid
  clients : runner.clients.Nodup
  byID : ∀ {id c}, runner.byID id = some c → c.id = id ∧ c.nextSeq = 1 ∧ c.generated = 0 ∧
    c.targetCursor < runner.config.targets.length ∧ c.active = none
  recorder : runner.recorder = .new
  attempts : runner.attempts = []

def clientAt (config : Config) (i : Nat) : UInt64 := config.clientIDBase + UInt64.ofNat i

theorem clientAt_nodup (config : Config) {n : Nat} (hn : n ≤ 2 ^ 64) :
    ((List.range n).map (clientAt config)).Nodup := by
  refine List.Nodup.map_on ?_ List.nodup_range
  intro i hi j hj heq
  rw [List.mem_range] at hi hj
  have h := congrArg UInt64.toNat (UInt64.add_right_inj _ |>.1 heq)
  rw [UInt64.toNat_ofNat_of_lt' (hi.trans_le hn), UInt64.toNat_ofNat_of_lt' (hj.trans_le hn)] at h
  exact h

theorem addClient_eq_ok {runner' : Runner} {i : Nat} (hfresh : Fresh runner)
    (hnew : clientAt runner.config i ∉ runner.clients) (h : addClient source runner i = .ok runner') :
    Fresh runner' ∧ runner'.config = runner.config ∧
      runner'.clients = runner.clients ++ [clientAt runner.config i] := by
  rw [addClient, newGenerator] at h
  split at h
  · cases h
  · cases h
    refine ⟨⟨hfresh.valid, ?_, ?_, hfresh.recorder, hfresh.attempts⟩, rfl, rfl⟩
    · rw [List.nodup_append_comm]
      exact List.nodup_cons.2 ⟨hnew, hfresh.clients⟩
    · intro id c hc
      by_cases hid : id = clientAt runner.config i
      · subst hid
        cases (Function.update_self ..).symm.trans hc
        exact ⟨rfl, rfl, rfl, Nat.mod_lt _ hfresh.valid.targets, rfl⟩
      · exact hfresh.byID ((Function.update_of_ne hid ..).symm.trans hc)

theorem addClients_eq_ok {runner' : Runner} {n : Nat} (hfresh : Fresh runner)
    (hclients : runner.clients = []) (hn : n ≤ 2 ^ 64)
    (h : (List.range n).foldlM (addClient source) runner = .ok runner') :
    Fresh runner' ∧ runner'.config = runner.config ∧
      runner'.clients = (List.range n).map (clientAt runner.config) := by
  induction n generalizing runner' with
  | zero =>
    cases h
    exact ⟨hfresh, rfl, hclients⟩
  | succ n ih =>
    rw [List.range_succ, List.foldlM_append] at h
    cases hmid : (List.range n).foldlM (addClient source) runner with
    | error err =>
      rw [hmid] at h
      cases h
    | ok mid =>
      obtain ⟨hfresh', hconfig, hmidclients⟩ := ih (Nat.le_of_succ_le hn) hmid
      rw [hmid] at h
      have hadd : addClient source mid n = .ok runner' := by
        rw [← h]
        simp only [List.foldlM_cons, List.foldlM_nil, bind_pure]
        rfl
      have hnodup := clientAt_nodup runner.config hn
      rw [List.range_succ, List.map_append, List.map_singleton] at hnodup ⊢
      have hnew : clientAt mid.config n ∉ mid.clients := by
        rw [hmidclients, hconfig]
        exact fun hmem => List.disjoint_of_nodup_append hnodup hmem (List.mem_singleton_self _)
      obtain ⟨hfresh'', hconfig', hclients'⟩ := addClient_eq_ok hfresh' hnew hadd
      rw [hmidclients, hconfig] at hclients'
      exact ⟨hfresh'', hconfig'.trans hconfig, hclients'⟩

theorem Runner.new_eq_ok (h : Runner.new source config = .ok runner) :
    Fresh runner ∧ normalizeConfig config = .ok runner.config := by
  rw [Runner.new] at h
  cases hnormalized : normalizeConfig config with
  | error err =>
    rw [hnormalized] at h
    cases h
  | ok normalized =>
    rw [hnormalized] at h
    have hfresh : Fresh ⟨normalized, [], fun _ => none, .new, [], false⟩ :=
      ⟨normalizeConfig_valid hnormalized, List.nodup_nil, nofun, rfl, rfl⟩
    have hlt := normalized.clientCount.toInt_lt
    obtain ⟨hfresh', hconfig, -⟩ := addClients_eq_ok hfresh rfl (by omega) h
    exact ⟨hfresh', by rw [hconfig]⟩

def firstStart (config : Config) (id : UInt64) : Int64 × Event :=
  (config.startTime, { kind := .start, attemptID := ⟨id, 0, 0⟩ })

theorem start_eq (h : start ⟨runner, host⟩ = (outcome, w)) (hok : outcome = .ok ()) :
    w = ⟨{ runner with started := true }, { host with
      scheduled := host.scheduled ++ runner.clients.map (firstStart runner.config) }⟩ := by
  have hspec : wp start (fun _ w => w = ⟨{ runner with started := true }, { host with
      scheduled := host.scheduled ++ runner.clients.map (firstStart runner.config) }⟩)
      (fun _ _ => True) ⟨runner, host⟩ := by
    rw [start, wp_bind, wp_get]
    refine wp_ite (fun _ => trivial) fun _ => wp_ite (fun _ => trivial) fun _ => ?_
    rw [wp_bind, wp_set]
    refine wp_forM (fun done (w : World) => w = ⟨{ runner with started := true }, { host with
      scheduled := host.scheduled ++ done.map (firstStart runner.config) }⟩) (by simp) ?_
    rintro done id rest w - rfl
    rw [schedule, wp_modify]
    simp [firstStart]
  subst hok
  rw [wp, h] at hspec
  exact hspec

theorem startsOf_map_firstStart {clients : List UInt64} (hnodup : clients.Nodup) (config : Config)
    (id : UInt64) : (startsOf (clients.map (firstStart config)) id).length ≤ 1 := by
  have hlength : (startsOf (clients.map (firstStart config)) id).length = clients.count id := by
    induction clients with
    | nil => rfl
    | cons other clients ih =>
      rw [List.map_cons, ← List.singleton_append, startsOf_append, List.length_append,
        ih hnodup.of_cons, List.count_cons, firstStart, startsOf_singleton]
      by_cases h : other = id <;> simp [h, Nat.add_comm]
  rw [hlength]
  exact List.nodup_iff_count_le_one.1 hnodup id

theorem Fresh.inv {time : Int64}
    {answers : Stream' (Except String SubmitStatus)} (h : Fresh runner) (hanswers : Answers answers) :
    Inv ⟨{ runner with started := true },
      ⟨time, answers, runner.clients.map (firstStart runner.config), [], []⟩⟩ where
  answers := hanswers
  schedulable hmem := by
    obtain ⟨id, -, heq⟩ := List.mem_map.1 hmem
    cases heq
    exact .inl rfl
  think := h.valid.think
  sessions {id c} hc := by
    obtain ⟨hid, hnext, hgenerated, hcursor, hactive⟩ := h.byID hc
    refine ⟨[], hid, hcursor, by rw [hnext]; rfl, ?_, ?_, nofun, rfl, fun _ => .nil, ?_⟩
    · rw [hgenerated]
      exact h.valid.operations
    · rw [h.recorder]
      exact nofun
    · exact .idle hactive (by rw [World.history, h.recorder]; rfl) (by rw [h.recorder]; rfl) hgenerated
        (startsOf_map_firstStart h.clients _ _) nofun
  strangers _ := by
    rw [World.history, h.recorder]
    rfl
  submitted := by
    rw [h.attempts]
    rfl
  tried _ id c hc := by
    obtain ⟨-, -, -, -, hactive⟩ := h.byID hc
    refine ⟨?_, ?_, ?_⟩ <;> simp [h.attempts, hactive]
  repeats _ := by
    rw [h.attempts]
    exact .nil

theorem Arises.inv (h : Arises source config w) : Inv w := by
  induction h with
  | started hnew hanswers hstart =>
    rw [start_eq hstart rfl]
    exact (Runner.new_eq_ok hnew).1.inv hanswers
  | delivered _ hstep ih => exact (hstep.spec ih).1

/-! ### The sessions -/

def World.active? (w : World) (id : UInt64) : Option LogicalOperation :=
  (w.runner.byID id).bind Client.active

structure World.Sequential (w : World) : Prop where
  single : ∀ id, ((w.history.session id).filter (·.returnTime.isNone)).map Operation.seq =
    (w.active? id).toList.map LogicalOperation.seq
  sequences : ∀ id, (w.history.session id).map (·.seq.toNat) =
    List.range' 1 (w.history.session id).length
  ordered : w.Timely → ∀ id, (w.history.session id).IsChain Before
  repeats : w.Few → w.runner.attempts.Pairwise Repeats
  submitted : w.host.submissions = w.runner.attempts.map AttemptRecord.submission

theorem Session.single (h : Session w id c done) :
    ((w.history.session id).filter (·.returnTime.isNone)).map Operation.seq =
      c.active.toList.map LogicalOperation.seq := by
  have hdone : done.filter (·.returnTime.isNone) = [] := by
    rw [List.filter_eq_nil_iff]
    intro o ho
    simpa [Option.isSome_iff_ne_none] using h.returned o ho
  cases h.phase with
  | idle inactive session => simp [session, hdone, inactive]
  | busy active outstanding _ session current seq =>
    simp [session, hdone, active, outstanding.unreturned, seq, current]

theorem Session.sequences_session (h : Session w id c done) :
    (w.history.session id).map (·.seq.toNat) = List.range' 1 (w.history.session id).length := by
  cases h.phase with
  | idle _ session =>
    rw [session]
    exact h.sequences
  | busy _ _ _ session _ seq =>
    rw [session, List.map_append, h.sequences, List.length_append, List.length_singleton,
      List.range'_1_concat, List.map_singleton, seq, h.nextSeq, Nat.add_comm]

theorem Session.ordered_session (h : Session w id c done) (htimely : w.Timely) :
    (w.history.session id).IsChain Before := by
  cases h.phase with
  | idle _ session =>
    rw [session]
    exact h.ordered htimely
  | busy _ _ _ session _ _ _ _ _ later =>
    rw [session]
    refine List.isChain_append.2 ⟨h.ordered htimely, List.isChain_singleton _, ?_⟩
    intro last hlast o ho
    rw [List.head?_cons, Option.mem_some_iff] at ho
    subst ho
    exact later htimely last hlast

theorem Inv.session_or_stranger (h : Inv w) (id : UInt64) :
    (w.history.session id = [] ∧ w.active? id = none) ∨
      ∃ c done, Session w id c done ∧ w.active? id = c.active := by
  cases hc : w.runner.byID id with
  | none => exact .inl ⟨h.strangers hc, by rw [World.active?, hc]; rfl⟩
  | some c =>
    obtain ⟨done, hsession⟩ := h.sessions hc
    exact .inr ⟨c, done, hsession, by rw [World.active?, hc]; rfl⟩

theorem Inv.sequential (h : Inv w) : w.Sequential := by
  refine ⟨fun id => ?_, fun id => ?_, fun htimely id => ?_, h.repeats, h.submitted⟩
  · rcases h.session_or_stranger id with ⟨hnil, hnone⟩ | ⟨c, done, hsession, hactive⟩
    · rw [hnil, hnone]
      rfl
    · rw [hactive]
      exact hsession.single
  · rcases h.session_or_stranger id with ⟨hnil, -⟩ | ⟨c, done, hsession, -⟩
    · rw [hnil]
      rfl
    · exact hsession.sequences_session
  · rcases h.session_or_stranger id with ⟨hnil, -⟩ | ⟨c, done, hsession, -⟩
    · rw [hnil]
      exact .nil
    · exact hsession.ordered_session htimely

/-! One client with two operations, of which the first returns at the time 1 -/

def pairConfig (thinkTime : Int64) : Config where
  seed := 0
  clientCount := 1
  clientIDBase := 1
  keyCount := 1
  operationsPerClient := 2
  operationTimeout := 0
  retryDelay := 0
  thinkTime
  startTime := 0
  targets := [1]

def zeros : Int64 → Stream' Nat := fun _ => Stream'.const 0

def pairRunner (thinkTime : Int64) : Runner :=
  match Runner.new zeros (pairConfig thinkTime) with
  | .ok runner => runner
  | .error _ => ⟨pairConfig thinkTime, [], fun _ => none, .new, [], false⟩

def World.deliver (w : World) (event : Event) (time : Int64) (before after : List (Int64 × Event)) :
    World :=
  (handle event { w with host := { w.host with now := time, scheduled := before ++ after } }).2

def startOne : Event := { kind := .start, attemptID := ⟨1, 0, 0⟩ }

def appliedOne : Event :=
  { kind := .applied, attemptID := ⟨1, 1, 1⟩, output := ⟨true, [], false, false⟩ }

def pairStarted (thinkTime : Int64) : World :=
  (start ⟨pairRunner thinkTime, ⟨0, Stream'.const (.ok .accepted), [], [], []⟩⟩).2

def pairInvoked (thinkTime : Int64) : World := (pairStarted thinkTime).deliver startOne 0 [] []

def pairReturned (thinkTime : Int64) : World :=
  let w := pairInvoked thinkTime
  (handle appliedOne { w with host := { w.host with now := 1 } }).2

def pairRun (thinkTime second : Int64) : World :=
  (pairReturned thinkTime).deliver startOne second ((pairReturned thinkTime).host.scheduled.take 1) []

theorem pairRun_arises {thinkTime second due : Int64}
    (hnew : Runner.new zeros (pairConfig thinkTime) = .ok (pairRunner thinkTime))
    (hstart : start ⟨pairRunner thinkTime, ⟨0, Stream'.const (.ok .accepted), [], [], []⟩⟩ =
      (.ok (), pairStarted thinkTime))
    (hfirst : (pairStarted thinkTime).host.scheduled = [] ++ (0, startOne) :: [])
    (hsecond : (pairReturned thinkTime).host.scheduled =
      (pairReturned thinkTime).host.scheduled.take 1 ++ (due, startOne) :: [])
    (hdue : due ≤ second) (hstarted : (pairStarted thinkTime).host.now ≤ 0)
    (hinvoked : (pairInvoked thinkTime).host.now ≤ 1)
    (hreturned : (pairReturned thinkTime).host.now ≤ second) :
    Arises zeros (pairConfig thinkTime) (pairRun thinkTime second) := by
  have h₁ : Arises zeros (pairConfig thinkTime) (pairInvoked thinkTime) :=
    .delivered (.started hnew (fun _ => .inl rfl) hstart)
      (.scheduled hfirst (Int64.le_refl 0) hstarted rfl)
  have h₂ : Arises zeros (pairConfig thinkTime) (pairReturned thinkTime) :=
    .delivered h₁ (.extra (.inr (.inr (.inr ⟨rfl, rfl⟩))) hinvoked rfl)
  exact .delivered h₂ (.scheduled hsecond hdue hreturned rfl)

theorem pairRun_one : Arises zeros (pairConfig 1) (pairRun 1 2) := by
  have hsecond : (pairReturned 1).host.scheduled =
      (pairReturned 1).host.scheduled.take 1 ++ (2, startOne) :: [] := rfl
  exact pairRun_arises rfl rfl rfl hsecond (by decide) (by decide) (by decide) (by decide)

/-! One client whose operation is refused and tried again without end -/

structure World.Retried (w : World) (n : Nat) : Prop where
  client : ∃ c operation, w.runner.byID 1 = some c ∧ c.id = 1 ∧
    c.targetCursor < w.runner.config.targets.length ∧ c.active = some operation ∧
    operation.seq = 1 ∧ operation.waiting = false ∧ operation.timedOut = false
  recorded : w.runner.recorder.retry 1 1 = .ok ()
  answers : w.host.answers = Stream'.const (.ok .notLeader)
  attempts : w.runner.attempts.length = n
  own : ∀ a ∈ w.runner.attempts, a.attemptID.clientID = 1 ∧ a.attemptID.seq = 1
  timely : w.Timely

def retryOne : Event := { kind := .retry, attemptID := ⟨1, 0, 0⟩ }

theorem World.Retried.attempted {n : Nat} (h : w.Retried n) {operation : LogicalOperation}
    {a : AttemptRecord} (hc : w'.runner.byID 1 = some c) (hid : c.id = 1)
    (hcursor : c.targetCursor < w'.runner.config.targets.length)
    (hactive : c.active = some operation) (hseq : operation.seq = 1)
    (hwaiting : operation.waiting = false) (htimedOut : operation.timedOut = false)
    (hrecorder : w'.runner.recorder = w.runner.recorder)
    (hanswers : w'.host.answers = w.host.answers.tail)
    (hattempts : w'.runner.attempts = w.runner.attempts ++ [a])
    (ha : a.attemptID.clientID = 1 ∧ a.attemptID.seq = 1)
    (htimely : w'.Timely ↔ w.Timely) : w'.Retried (n + 1) where
  client := ⟨c, operation, hc, hid, hcursor, hactive, hseq, hwaiting, htimedOut⟩
  recorded := hrecorder ▸ h.recorded
  answers := by
    rw [hanswers, h.answers]
    rfl
  attempts := by rw [hattempts, List.length_append, h.attempts, List.length_singleton]
  own b hb := by
    rw [hattempts, List.mem_append, List.mem_singleton] at hb
    rcases hb with hb | rfl
    · exact h.own b hb
    · exact ha
  timely := htimely.2 h.timely

theorem World.Retried.handle_spec {n : Nat} (h : w.Retried n) :
    wp (handle retryOne) (fun _ w' => w'.Retried (n + 1)) (fun _ _ => False) w := by
  obtain ⟨c, operation, hc, hid, hcursor, hactive, hseq, hwaiting, htimedOut⟩ := h.client
  have hc' : w.runner.byID c.id = some c := hid ▸ hc
  have hretry : w.runner.recorder.retry c.id operation.seq = .ok () := by
    rw [hid, hseq]
    exact h.recorded
  have hanswer : w.host.answers.head = .ok .notLeader := by
    rw [h.answers]
    rfl
  rw [handle, wp_bind]
  refine (wp_lookupClient hc).2 ?_
  show wp (handleRetry c retryOne) _ _ _
  rw [handleRetry, hactive]
  dsimp only
  rw [if_neg (by simp [retryOne]), if_neg (by simp [retryOne]), if_neg (by simp [hwaiting]),
    if_neg (by simp [htimedOut]), submit, wp_bind, wp_activeOperation hc' hactive]
  simp only [if_true, recorder, wp_bind, wp_get, wp_pure]
  rw [wp_recorded hretry, sendAttempt, wp_bind]
  refine wp_nextAttempt hc' hcursor fun target cursor hcursor' => ?_
  rw [wp_bind, wp_attempt]
  refine (wp_hostSubmit (w := w.putClient _) hanswer).2 ?_
  simp only [now, wp_bind, wp_get, wp_pure, wp_modify]
  refine (wp_setWaiting (Function.update_self ..) rfl).2 ?_
  rw [scheduleRetry, wp_bind]
  refine (wp_activeOperation (Function.update_self ..) rfl).2 ?_
  simp only [now, Workload.config, wp_bind, wp_get, wp_pure]
  have hown : c.id = 1 ∧ operation.seq = 1 := ⟨hid, hseq⟩
  have hself : ∀ byID : UInt64 → Option Client, ∀ c' : Client, c'.id = c.id →
      Function.update byID c'.id (some c') 1 = some c' := by
    intro byID c' hid'
    rw [hid', hid, Function.update_self]
  refine wp_ite (fun _ => ?_) fun _ => ?_
  · exact h.attempted (hself _ _ rfl) hid hcursor' rfl hseq rfl htimedOut rfl rfl rfl hown Iff.rfl
  · rw [schedule, wp_modify]
    exact h.attempted (hself _ _ rfl) hid hcursor' rfl hseq rfl htimedOut rfl rfl rfl hown Iff.rfl

theorem World.Retried.again {n : Nat} (h : w.Retried n) :
    ∃ w', Step w retryOne (.ok ()) w' ∧ w'.Retried (n + 1) := by
  have hspec := h.handle_spec
  rw [wp] at hspec
  rcases hhandle : handle retryOne w with ⟨err | _, w'⟩
  · rw [hhandle] at hspec
    exact hspec.elim
  · rw [hhandle] at hspec
    exact ⟨w', .extra (.inl rfl) (Int64.le_refl w.host.now) hhandle, hspec⟩

theorem World.Retried.often {n : Nat} (harises : Arises source config w) (h : w.Retried n)
    (k : Nat) : ∃ w', Arises source config w' ∧ w'.Retried (n + k) := by
  induction k with
  | zero => exact ⟨w, harises, h⟩
  | succ k ih =>
    obtain ⟨mid, hmid, hretried⟩ := ih
    obtain ⟨w', hstep, hw'⟩ := hretried.again
    exact ⟨w', .delivered hmid hstep, hw'⟩

theorem World.Retried.length_le {n : Nat} (h : w.Retried n)
    (hrepeats : w.runner.attempts.Pairwise Repeats) : n ≤ 2 ^ 64 := by
  have hnodup : (w.runner.attempts.map (·.attemptID.attempt.toNat)).Nodup := by
    refine List.pairwise_map.2 (hrepeats.imp_of_mem fun {a b} ha hb hab heq => ?_)
    obtain ⟨hclient, hseq⟩ := h.own a ha
    obtain ⟨hclient', hseq'⟩ := h.own b hb
    exact (hab ⟨hclient.trans hclient'.symm, hseq.trans hseq'.symm⟩).2 (UInt64.toNat_inj.1 heq)
  have hsub : w.runner.attempts.map (·.attemptID.attempt.toNat) ⊆ List.range (2 ^ 64) := by
    intro x hx
    obtain ⟨a, -, rfl⟩ := List.mem_map.1 hx
    exact List.mem_range.2 a.attemptID.attempt.toNat_lt
  have hle := (hnodup.subperm hsub).length_le
  rwa [List.length_map, List.length_range, h.attempts] at hle

def refusedStarted : World :=
  (start ⟨pairRunner 1, ⟨0, Stream'.const (.ok .notLeader), [], [], []⟩⟩).2

def refusedOnce : World := refusedStarted.deliver startOne 0 [] []

theorem arises_refusedOnce : Arises zeros (pairConfig 1) refusedOnce := by
  have hnew : Runner.new zeros (pairConfig 1) = .ok (pairRunner 1) := rfl
  have hstart : start ⟨pairRunner 1, ⟨0, Stream'.const (.ok .notLeader), [], [], []⟩⟩ =
      (.ok (), refusedStarted) := rfl
  have hfirst : refusedStarted.host.scheduled = [] ++ (0, startOne) :: [] := rfl
  exact .delivered (.started hnew (fun _ => .inr rfl) hstart)
    (.scheduled hfirst (Int64.le_refl 0) (by decide) rfl)

theorem retried_refusedOnce : refusedOnce.Retried 1 where
  client := ⟨_, _, rfl, rfl, by decide, rfl, rfl, rfl, rfl⟩
  recorded := rfl
  answers := rfl
  attempts := rfl
  own a ha := by
    rw [List.mem_singleton.1 ha]
    exact ⟨rfl, rfl⟩
  timely := by
    rw [World.Timely]
    decide +kernel

/-- Whatever events are delivered in whatever order, the sessions are sequential, in time as long as
a time to think after the present fits, and with attempts of different numbers as long as there are
numbers for them.  No event leads to an error, unless there is no such client, and only the response
to the attempt a client waits for completes its operation. -/
theorem sessions_sequential (h : Arises source config w) :
    w.Sequential ∧ ∀ {event outcome w'}, Step w event outcome w' → Handled w event outcome w' :=
  ⟨h.inv.sequential, fun hstep => (hstep.spec h.inv).2⟩

theorem sessions_sequential_pair :
    (pairRun 1 2).Sequential ∧ (pairRun 1 2).Timely ∧ (pairRun 1 2).Few ∧
      ∀ {event outcome w'}, Step (pairRun 1 2) event outcome w' →
        Handled (pairRun 1 2) event outcome w' := by
  obtain ⟨hsequential, hhandled⟩ := sessions_sequential pairRun_one
  refine ⟨hsequential, ?_, ?_, hhandled⟩
  · rw [World.Timely]
    decide +kernel
  · rw [World.Few]
    decide +kernel

/-- A time to think that does not fit puts the next start into the past, and the number of an
operation's attempt returns when there are more than there are numbers. -/
theorem sessions_sequential_overflow :
    (Arises zeros (pairConfig Int64.maxValue) (pairRun Int64.maxValue 1) ∧
      (pairRun Int64.maxValue 1).Few ∧
      ((pairRun Int64.maxValue 1).history.session 1).map
        (fun o => (o.invokeTime, o.returnTime)) = [(0, some 1), (1, none)] ∧
      ¬((pairRun Int64.maxValue 1).history.session 1).IsChain Before) ∧
    ∃ w, Arises zeros (pairConfig 1) w ∧ w.Timely ∧ ¬ w.runner.attempts.Pairwise Repeats := by
  have hsecond : (pairReturned Int64.maxValue).host.scheduled =
      (pairReturned Int64.maxValue).host.scheduled.take 1 ++ (Int64.minValue, startOne) :: [] := rfl
  refine ⟨⟨pairRun_arises rfl rfl rfl hsecond (by decide) (by decide) (by decide) (by decide),
    by rw [World.Few]; decide +kernel, by decide +kernel, fun hchain => ?_⟩, ?_⟩
  · obtain ⟨⟨time, htime, hlt⟩, -⟩ := List.isChain_cons_cons.1 hchain
    cases htime
    exact absurd hlt (by decide +kernel)
  · obtain ⟨w, harises, hretried⟩ := retried_refusedOnce.often arises_refusedOnce (2 ^ 64)
    refine ⟨w, harises, hretried.timely, fun hrepeats => ?_⟩
    have := hretried.length_le hrepeats
    omega

end MiniQuorum.Workload
