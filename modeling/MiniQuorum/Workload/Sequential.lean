import MiniQuorum.Workload.Sessions

/-! The handlers keep what holds for the clients, and so does any sequence of events. -/

namespace MiniQuorum.Workload

open Checker Program StateMachine

variable {w w' : World} {id : UInt64} {c c' : Client} {done : History}

def AttemptRecord.submission (a : AttemptRecord) : Submission := ⟨a.attemptID, a.target, a.command⟩

def Answers (answers : Stream' (Except String SubmitStatus)) : Prop :=
  ∀ n, answers.get n = .ok .accepted ∨ answers.get n = .ok .notLeader

def Event.Schedulable (event : Event) : Prop :=
  event.kind = .start ∨ event.kind = .retry ∨ event.kind = .deadline

structure Inv (w : World) : Prop where
  answers : Answers w.host.answers
  schedulable : ∀ {due event}, (due, event) ∈ w.host.scheduled → event.Schedulable
  think : 0 < w.runner.config.thinkTime.toInt
  sessions : ∀ {id c}, w.runner.byID id = some c → ∃ done, Session w id c done
  strangers : ∀ {id}, w.runner.byID id = none → w.history.session id = []
  submitted : w.host.submissions = w.runner.attempts.map AttemptRecord.submission
  tried : w.Few → ∀ {id c}, w.runner.byID id = some c → Tried w id c
  repeats : w.Few → w.runner.attempts.Pairwise Repeats

theorem Inv.named (h : Inv w) (hc : w.runner.byID id = some c) : c.id = id := by
  obtain ⟨done, hsession⟩ := h.sessions hc
  exact hsession.named

structure Changes (id : UInt64) (c : Client) (w w' : World) : Prop where
  client : w'.runner.byID = Function.update w.runner.byID id (some c)
  others : ∀ {other}, other ≠ id → Unaffected other w w'
  config : w'.runner.config = w.runner.config
  answers : Answers w.host.answers → Answers w'.host.answers
  schedulable : ∀ {due event}, (due, event) ∈ w'.host.scheduled →
    (due, event) ∈ w.host.scheduled ∨ event.Schedulable

namespace Changes

theorem byID_self (h : Changes id c w w') : w'.runner.byID id = some c := by
  rw [h.client, Function.update_self]

theorem byID_of_ne {other : UInt64} (h : Changes id c w w') (hne : other ≠ id) :
    w'.runner.byID other = w.runner.byID other := by
  rw [h.client, Function.update_of_ne hne]

theorem sessions (h : Changes id c' w w') (hinv : Inv w) (hself : Session w' id c' done)
    {other : UInt64} {d : Client} (hd : w'.runner.byID other = some d) :
    ∃ done, Session w' other d done := by
  by_cases hne : other = id
  · subst hne
    cases h.byID_self.symm.trans hd
    exact ⟨done, hself⟩
  · rw [h.byID_of_ne hne] at hd
    obtain ⟨done, hother⟩ := hinv.sessions hd
    exact ⟨done, hother.transfer (h.others hne) hother.sameClient⟩

theorem strangers (h : Changes id c' w w') (hinv : Inv w) {other : UInt64}
    (hother : w'.runner.byID other = none) : w'.history.session other = [] := by
  by_cases hne : other = id
  · subst hne
    cases h.byID_self.symm.trans hother
  · rw [h.byID_of_ne hne] at hother
    rw [(h.others hne).session]
    exact hinv.strangers hother

theorem schedulable_of_mem (h : Changes id c' w w') (hinv : Inv w) {due : Int64} {event : Event}
    (hmem : (due, event) ∈ w'.host.scheduled) : event.Schedulable :=
  (h.schedulable hmem).elim hinv.schedulable fun h => h

theorem inv (h : Changes id c' w w') (hinv : Inv w) (hc : w.runner.byID id = some c)
    (hself : Session w' id c' done) (hattempts : w'.runner.attempts = w.runner.attempts)
    (hsubmissions : w'.host.submissions = w.host.submissions)
    (htried : Tried w id c → Tried w' id c') : Inv w' where
  answers := h.answers hinv.answers
  schedulable := h.schedulable_of_mem hinv
  think := h.config.symm ▸ hinv.think
  sessions := h.sessions hinv hself
  strangers := h.strangers hinv
  submitted := by
    rw [hsubmissions, hattempts]
    exact hinv.submitted
  tried hfew other d hd := by
    rw [World.Few, hattempts] at hfew
    by_cases hne : other = id
    · subst hne
      cases h.byID_self.symm.trans hd
      exact htried (hinv.tried hfew hc)
    · rw [h.byID_of_ne hne] at hd
      exact (hinv.tried hfew hd).keep hattempts rfl fun hactive => ⟨_, hactive, rfl, rfl, rfl⟩
  repeats hfew := by
    rw [World.Few, hattempts] at hfew
    rw [hattempts]
    exact hinv.repeats hfew

theorem inv_attempted {operation operation' : LogicalOperation} {a : AttemptRecord}
    (h : Changes id c' w w') (hinv : Inv w) (hc : w.runner.byID id = some c)
    (hself : Session w' id c' done)
    (hattempts : w'.runner.attempts = w.runner.attempts ++ [a])
    (hsubmissions : w'.host.submissions = w.host.submissions ++ [a.submission])
    (hactive : c.active = some operation) (hgenerated : c'.generated = c.generated)
    (hactive' : c'.active = some operation') (hseq : operation'.seq = operation.seq)
    (hcommand : operation'.command = operation.command)
    (hattempt : operation'.attempt = operation.attempt + 1)
    (hid : a.attemptID = ⟨id, operation.seq, operation.attempt + 1⟩)
    (ha : a.command = operation.command) (hcurrent : operation.seq.toNat ≤ c.generated) :
    Inv w' := by
  have hfew : w'.Few → w.Few ∧ w.runner.attempts.length + 1 < 2 ^ 64 := by
    intro hfew
    rw [World.Few, hattempts, List.length_append, List.length_singleton] at hfew
    exact ⟨Nat.lt_of_succ_lt hfew, hfew⟩
  have htried := fun hf : w'.Few => (hinv.tried (hfew hf).1 hc).attempted (hfew hf).2 hactive
    hattempts hgenerated hactive' hseq hcommand hattempt hid ha hcurrent
  refine ⟨h.answers hinv.answers, h.schedulable_of_mem hinv, h.config.symm ▸ hinv.think,
    h.sessions hinv hself, h.strangers hinv, ?_, ?_, ?_⟩
  · rw [hsubmissions, hattempts, hinv.submitted, List.map_append, List.map_singleton]
  · intro hf other d hd
    by_cases hne : other = id
    · subst hne
      cases h.byID_self.symm.trans hd
      exact (htried hf).1
    · rw [h.byID_of_ne hne] at hd
      refine (hinv.tried (hfew hf).1 hd).append hattempts ?_
      rw [hid]
      exact Ne.symm hne
  · intro hf
    rw [hattempts, List.pairwise_append]
    refine ⟨hinv.repeats (hfew hf).1, List.pairwise_singleton _ _, fun b hb a' ha' => ?_⟩
    rw [List.mem_singleton.1 ha']
    exact (htried hf).2 b hb

end Changes

/-! ### What the handlers are made of -/

theorem startsOf_append (a b : List (Int64 × Event)) (id : UInt64) :
    startsOf (a ++ b) id = startsOf a id ++ startsOf b id := List.filterMap_append

@[simp] theorem startsOf_singleton (due : Int64) (event : Event) (id : UInt64) :
    startsOf [(due, event)] id =
      if event.kind = .start ∧ event.attemptID.clientID = id then [due] else [] := by
  rw [startsOf, List.filterMap_cons]
  split <;> simp_all

section Rules

variable {α : Type} {E : RunnerError → World → Prop} {operation : LogicalOperation}

theorem wp_lookupClient {Q : Client → World → Prop} (hc : w.runner.byID id = some c) :
    wp (lookupClient id) Q E w ↔ Q c w := by
  rw [lookupClient, wp_bind, wp_get, hc]
  exact Iff.rfl

theorem wp_activeOperation {Q : LogicalOperation → World → Prop}
    (hc : w.runner.byID id = some c) (hactive : c.active = some operation) :
    wp (activeOperation id) Q E w ↔ Q operation w := by
  rw [activeOperation, wp_bind, wp_lookupClient hc, hactive]
  exact Iff.rfl

theorem wp_setOperation {Q : Unit → World → Prop} (hc : w.runner.byID id = some c) :
    wp (setOperation id operation) Q E w ↔
      Q () (w.putClient { c with active := some operation }) := by
  rw [setOperation, wp_bind, wp_lookupClient hc]
  exact Iff.rfl

theorem wp_setWaiting {Q : Unit → World → Prop} {waiting : Bool}
    (hc : w.runner.byID id = some c) (hactive : c.active = some operation) :
    wp (setWaiting id waiting) Q E w ↔
      Q () (w.putClient { c with active := some { operation with waiting } }) := by
  rw [setWaiting, wp_bind, wp_activeOperation hc hactive, wp_setOperation hc]

theorem wp_recorded {Q : α → World → Prop} {r : Except RecorderError α} {a : α} (h : r = .ok a) :
    wp (recorded r) Q E w ↔ Q a w := by
  subst h
  exact Iff.rfl

theorem wp_nextTarget {Q : UInt64 → World → Prop} (hc : w.runner.byID id = some c)
    (hcursor : c.targetCursor < w.runner.config.targets.length)
    (hQ : ∀ target, Q target (w.putClient { c with
      targetCursor := (c.targetCursor + 1) % w.runner.config.targets.length })) :
    wp (nextTarget id) Q E w := by
  rw [nextTarget, wp_bind, wp_lookupClient hc, config, wp_bind, wp_bind, wp_get, wp_pure]
  dsimp only
  rw [List.getElem?_eq_getElem hcursor]
  exact hQ _

theorem wp_hostSubmit {Q : SubmitStatus → World → Prop} {submission : Submission}
    {status : SubmitStatus} (hanswer : w.host.answers.head = .ok status) :
    wp (hostSubmit submission) Q E w ↔
      Q status { w with host := { w.host with
        answers := w.host.answers.tail
        submissions := w.host.submissions ++ [submission] } } := by
  rw [hostSubmit, wp_bind, wp_get, wp_bind, wp_modify, hanswer]
  exact Iff.rfl

end Rules

@[simp] theorem World.byID_putClient (w : World) (c : Client) :
    (w.putClient c).runner.byID c.id = some c := Function.update_self ..

theorem Answers.tail {answers : Stream' (Except String SubmitStatus)} (h : Answers answers) :
    Answers answers.tail := fun n => h (n + 1)

theorem Unaffected.of_recorder (hconfig : w'.runner.config = w.runner.config)
    (hnow : w'.host.now = w.host.now) (hstarts : w'.starts id = w.starts id)
    (hrecorder : w'.runner.recorder = w.runner.recorder) : Unaffected id w w' where
  config := hconfig
  now := hnow
  starts := hstarts
  session := by rw [World.history, hrecorder]
  active := by rw [hrecorder]
  lastSeq := by rw [hrecorder]
  outstanding _ h := hrecorder ▸ h

variable {operation : LogicalOperation} {event : Event}

theorem Inv.putOperation {operation' : LogicalOperation} (h : Inv w)
    (hc : w.runner.byID c.id = some c) (hactive : c.active = some operation)
    (hseq : operation'.seq = operation.seq) (hcommand : operation'.command = operation.command)
    (hattempt : operation'.attempt = operation.attempt) :
    Inv (w.putClient { c with active := some operation' }) := by
  obtain ⟨done, hsession⟩ := h.sessions hc
  have hchanges : Changes c.id { c with active := some operation' } w
      (w.putClient { c with active := some operation' }) :=
    ⟨rfl, fun _ => .of_recorder rfl rfl rfl rfl, rfl, fun h => h, .inl⟩
  refine hchanges.inv h hc (hsession.transfer (.of_recorder rfl rfl rfl rfl) ⟨rfl, rfl, rfl,
    hsession.cursor, ?_⟩) rfl rfl fun htried => htried.keep rfl rfl ?_
  · simp [hactive, hseq]
  · rintro _ ⟨⟩
    exact ⟨operation, hactive, hseq, hcommand, hattempt⟩

theorem Inv.host {host : Host} (h : Inv w) (hnow : host.now = w.host.now)
    (hanswers : host.answers = w.host.answers) (hsubmissions : host.submissions = w.host.submissions)
    (hstarts : ∀ id, ({ w with host } : World).starts id = w.starts id)
    (hschedulable : ∀ {due event}, (due, event) ∈ host.scheduled →
      (due, event) ∈ w.host.scheduled ∨ event.Schedulable) :
    Inv { w with host } where
  answers := hanswers.symm ▸ h.answers
  schedulable hmem := (hschedulable hmem).elim h.schedulable fun h => h
  think := h.think
  sessions hc := by
    obtain ⟨done, hsession⟩ := h.sessions hc
    exact ⟨done, hsession.transfer (.of_recorder rfl hnow (hstarts _) rfl) hsession.sameClient⟩
  strangers := h.strangers
  submitted := hsubmissions.trans h.submitted
  tried hfew _ _ hc := (h.tried hfew hc).keep rfl rfl fun hactive => ⟨_, hactive, rfl, rfl, rfl⟩
  repeats := h.repeats

theorem Inv.schedule {time : Int64} (h : Inv w)
    (hkind : event.kind = .retry ∨ event.kind = .deadline) :
    Inv { w with host := { w.host with scheduled := w.host.scheduled ++ [(time, event)] } } := by
  refine h.host rfl rfl rfl (fun id => ?_) fun hmem => ?_
  · have hstart : event.kind ≠ .start := by
      rcases hkind with hkind | hkind <;> simp [hkind]
    simp [World.starts, startsOf_append, hstart]
  · rw [List.mem_append, List.mem_singleton] at hmem
    rcases hmem with hmem | hmem
    · exact .inl hmem
    · cases hmem
      exact .inr (.inr hkind)

/-! ### The handlers -/

abbrev Keeps (history : History) (x : RunnerM Unit) (w : World) : Prop :=
  wp x (fun _ w' => Inv w' ∧ w'.history = history) (fun _ _ => False) w

theorem scheduleRetry_spec (h : Inv w)
    (hc : w.runner.byID id = some c) (hactive : c.active = some operation) :
    Keeps w.history (scheduleRetry id) w := by
  rw [Keeps, scheduleRetry, wp_bind, wp_activeOperation hc hactive, now, config]
  simp only [wp_bind, wp_get, wp_pure]
  refine wp_ite (fun _ => ?_) fun _ => ?_
  · exact ⟨h, rfl⟩
  · rw [schedule, wp_modify]
    exact ⟨h.schedule (by simp), rfl⟩

theorem scheduleDeadline_spec {Q : Unit → World → Prop}
    {E : RunnerError → World → Prop} (h : Inv w)
    (hc : w.runner.byID id = some c) (hactive : c.active = some operation)
    (hQ : ∀ w' operation', Inv w' → w'.history = w.history →
      w'.runner.byID id = some { c with active := some operation' } → Q () w') :
    wp (scheduleDeadline id) Q E w := by
  obtain rfl := h.named hc
  rw [scheduleDeadline, wp_bind, wp_activeOperation hc hactive, wp_bind, wp_setOperation hc,
    schedule, wp_modify]
  have hput : Inv (w.putClient { c with active := some { operation with
      deadlineGeneration := operation.deadlineGeneration + 1 } }) :=
    h.putOperation hc hactive rfl rfl rfl
  exact hQ _ _ (hput.schedule (by simp)) rfl (World.byID_putClient ..)

theorem wp_nextAttempt {operation : LogicalOperation} {Q : UInt64 → World → Prop}
    {E : RunnerError → World → Prop} (hc : w.runner.byID c.id = some c)
    (hcursor : c.targetCursor < w.runner.config.targets.length)
    (hQ : ∀ target cursor, cursor < w.runner.config.targets.length →
      Q target (w.putClient { c with
        targetCursor := cursor
        active := some { operation with attempt := operation.attempt + 1, waiting := true } })) :
    wp (nextAttempt c.id operation) Q E w := by
  rw [nextAttempt, wp_bind, wp_setOperation hc, wp_bind]
  refine wp_nextTarget (Function.update_self ..) hcursor fun target => ?_
  rw [wp_bind]
  refine (wp_setWaiting (Function.update_self ..) rfl).2 ?_
  have := hQ target ((c.targetCursor + 1) % w.runner.config.targets.length)
    (Nat.mod_lt _ (Nat.zero_lt_of_lt hcursor))
  simpa [World.putClient] using this

def World.attempted (w : World) (c : Client) (a : AttemptRecord) : World where
  runner := { (w.putClient c).runner with attempts := w.runner.attempts ++ [a] }
  host := { w.host with
    answers := w.host.answers.tail
    submissions := w.host.submissions ++ [a.submission] }

theorem Inv.attempted {cursor : Nat} (h : Inv w)
    (hc : w.runner.byID c.id = some c) (hactive : c.active = some operation)
    (hcursor : cursor < w.runner.config.targets.length) (time : Int64) (target : UInt64)
    (status : SubmitStatus) :
    Inv (w.attempted
      { c with
        targetCursor := cursor
        active := some { operation with attempt := operation.attempt + 1, waiting := true } }
      ⟨time, ⟨c.id, operation.seq, operation.attempt + 1⟩, target, status, operation.command⟩) := by
  obtain ⟨done, hsession⟩ := h.sessions hc
  have hcurrent : operation.seq.toNat ≤ c.generated := by
    cases hsession.phase with
    | idle inactive => cases hactive.symm.trans inactive
    | busy active _ _ _ current _ generated =>
      cases hactive.symm.trans active
      rw [current, hsession.nextSeq, generated]
  refine Changes.inv_attempted ⟨rfl, fun _ => .of_recorder rfl rfl rfl rfl, rfl, fun h => h.tail, .inl⟩
    h hc (hsession.transfer (.of_recorder rfl rfl rfl rfl) ⟨rfl, rfl, rfl, hcursor, ?_⟩)
    rfl rfl hactive rfl rfl rfl rfl rfl rfl rfl hcurrent
  rw [hactive]
  rfl

theorem sendAttempt_spec (h : Inv w)
    (hc : w.runner.byID c.id = some c) (hactive : c.active = some operation) :
    Keeps w.history (sendAttempt c.id operation) w := by
  obtain ⟨done, hsession⟩ := h.sessions hc
  rw [Keeps, sendAttempt, wp_bind]
  refine wp_nextAttempt hc hsession.cursor fun target cursor hcursor => ?_
  rw [wp_bind, wp_attempt]
  have hinv := h.attempted hc hactive hcursor w.host.now target
  rcases h.answers 0 with hanswer | hanswer
  · exact (wp_hostSubmit (w := w.putClient _) hanswer).2 ⟨hinv .accepted, rfl⟩
  · refine (wp_hostSubmit (w := w.putClient _) hanswer).2 ?_
    simp only [now, wp_bind, wp_get, wp_pure, wp_modify]
    refine (wp_setWaiting (Function.update_self ..) rfl).2 ?_
    exact scheduleRetry_spec ((hinv .notLeader).putOperation (Function.update_self ..) rfl rfl rfl rfl)
      (Function.update_self ..) rfl

theorem submit_spec {retry : Bool} (h : Inv w)
    (hc : w.runner.byID id = some c) (hactive : c.active = some operation) :
    Keeps w.history (submit id retry) w := by
  obtain rfl := h.named hc
  obtain ⟨done, hsession⟩ := h.sessions hc
  rw [Keeps, submit, wp_bind, wp_activeOperation hc hactive]
  refine wp_ite (fun _ => ?_) fun _ => sendAttempt_spec h hc hactive
  rw [recorder, wp_bind, wp_bind, wp_get, wp_pure, wp_bind]
  cases hsession.phase with
  | idle inactive => cases hactive.symm.trans inactive
  | busy active outstanding client _ current seq =>
    cases hactive.symm.trans active
    have hretry := outstanding.retry_eq
    rw [client, seq, ← current] at hretry
    exact (wp_recorded hretry).2 (sendAttempt_spec h hc hactive)

theorem handleRetry_spec (h : Inv w) (hc : w.runner.byID c.id = some c) :
    Keeps w.history (handleRetry c event) w := by
  rw [Keeps, handleRetry]
  split
  · exact ⟨h, rfl⟩
  · next operation hactive =>
    refine wp_ite (fun _ => ⟨h, rfl⟩) fun _ => wp_ite (fun _ => ⟨h, rfl⟩) fun _ =>
      wp_ite (fun _ => ⟨h, rfl⟩) fun _ => wp_ite (fun _ => ?_) fun _ => submit_spec h hc hactive
    simp only [now, Workload.config, wp_bind, wp_get, wp_pure]
    rw [wp_setOperation hc]
    refine scheduleDeadline_spec (h.putOperation hc hactive rfl rfl rfl) (Function.update_self ..)
      rfl fun w' operation' hinv hhistory hc' => ?_
    have hsubmit : Keeps w'.history (submit c.id true) w' := submit_spec hinv hc' rfl
    rw [hhistory] at hsubmit
    exact hsubmit

theorem expire_spec (h : Inv w) (hc : w.runner.byID c.id = some c)
    (hactive : c.active = some operation) : Keeps w.history (expire c.id operation) w := by
  obtain ⟨done, hsession⟩ := h.sessions hc
  rw [Keeps, expire]
  simp only [recorder, now, wp_bind, wp_get, wp_pure]
  cases hsession.phase with
  | idle inactive => cases hactive.symm.trans inactive
  | busy active outstanding client _ current seq _ invoked =>
    cases hactive.symm.trans active
    have htimeout := outstanding.timeout_eq invoked
    rw [client, seq, ← current] at htimeout
    rw [wp_recorded htimeout, wp_setOperation hc]
    exact ⟨h.putOperation hc hactive rfl rfl rfl, rfl⟩

theorem handleDeadline_spec (h : Inv w) (hc : w.runner.byID c.id = some c) :
    Keeps w.history (handleDeadline c event) w := by
  rw [Keeps, handleDeadline]
  split
  · exact ⟨h, rfl⟩
  · next operation hactive =>
    refine wp_ite (fun _ => ⟨h, rfl⟩) fun _ => wp_ite (fun _ => ?_) fun _ => expire_spec h hc hactive
    rw [cancel, wp_bind, wp_modify]
    exact expire_spec (h.host rfl rfl rfl (fun _ => rfl) .inl) hc hactive

theorem handleLeadershipLost_spec (h : Inv w) (hc : w.runner.byID c.id = some c) :
    Keeps w.history (handleLeadershipLost c event) w := by
  rw [Keeps, handleLeadershipLost]
  split
  · exact ⟨h, rfl⟩
  · next operation hmatch =>
    have hactive := (Option.filter_eq_some_iff.1 hmatch).1
    rw [wp_bind]
    refine (wp_setWaiting hc hactive).2 ?_
    exact scheduleRetry_spec (h.putOperation hc hactive rfl rfl rfl) (Function.update_self ..) rfl

theorem Session.invoke_eq {input : Input} (h : Session w id c done) (hactive : c.active = none) :
    w.runner.recorder.invoke id c.nextSeq w.host.now.toInt input =
      .ok (w.runner.recorder.begin
        ⟨id, c.nextSeq, w.host.now.toInt, none, input, ⟨false, [], false, false⟩⟩) := by
  cases h.phase with
  | busy active => cases hactive.symm.trans active
  | idle _ _ unoccupied generated =>
    refine Recorder.invoke_eq unoccupied fun last hlast => ?_
    rw [UInt64.lt_iff_toNat_lt, h.nextSeq, ← generated]
    exact Nat.lt_succ_of_le (h.lastSeq last hlast)

theorem Unaffected.of_begin {operation : Operation} (hne : operation.clientId ≠ id)
    (hconfig : w'.runner.config = w.runner.config) (hhost : w'.host = w.host)
    (hrecorder : w'.runner.recorder = w.runner.recorder.begin operation) : Unaffected id w w' where
  config := hconfig
  now := by rw [hhost]
  starts := by rw [World.starts, hhost, World.starts]
  session := by
    rw [World.history, hrecorder]
    exact Recorder.session_begin_of_ne hne
  active := by
    rw [hrecorder]
    exact Function.update_of_ne hne.symm ..
  lastSeq := by
    rw [hrecorder]
    exact Function.update_of_ne hne.symm ..
  outstanding hclient hout := by
    rw [hrecorder]
    exact hout.begin (hclient.symm ▸ hne)

theorem Inv.invoked {input : Input} {output : Output} (h : Inv w)
    (hc : w.runner.byID c.id = some c) (hready : w.Ready c.id)
    (hlimit : (c.generated : Int) < w.runner.config.operationsPerClient.toInt)
    (hclient : w'.runner.byID = Function.update w.runner.byID c.id (some c'))
    (hconfig : w'.runner.config = w.runner.config) (hhost : w'.host = w.host)
    (hattempts : w'.runner.attempts = w.runner.attempts)
    (hrecorder : w'.runner.recorder = w.runner.recorder.begin
      ⟨c.id, c.nextSeq, w.host.now.toInt, none, input, output⟩)
    (hnamed : c'.id = c.id) (hcursor : c'.targetCursor = c.targetCursor)
    (hnext : c'.nextSeq = c.nextSeq) (hgenerated : c'.generated = c.generated + 1)
    (hactive : c'.active = some operation) (hseq : operation.seq = c.nextSeq)
    (hattempt : operation.attempt = 0) : Inv w' := by
  obtain ⟨done, hsession⟩ := h.sessions hc
  have hinactive := hready.inactive hc
  have hchanges : Changes c.id c' w w' := by
    refine ⟨hclient, fun hne => .of_begin hne.symm hconfig hhost hrecorder, hconfig, ?_, ?_⟩
    · rw [hhost]
      exact id
    · rw [hhost]
      exact .inl
  refine hchanges.inv h hc (hsession.invoked hinactive hready hconfig (by rw [hhost])
    (by rw [World.starts, hhost, World.starts]) hrecorder hlimit hnamed hcursor hnext hgenerated hactive
    hseq) hattempts (by rw [hhost]) fun htried => ?_
  refine htried.invoked hattempts hgenerated hactive ?_ hattempt
  cases hsession.phase with
  | busy active => cases hinactive.symm.trans active
  | idle _ _ _ generated => rw [hseq, hsession.nextSeq, generated]

theorem handleStart_spec (h : Inv w) (hc : w.runner.byID c.id = some c) (hready : w.Ready c.id) :
    wp (handleStart c) (fun _ w' => Inv w' ∧
      ∃ started, w'.history = w.history ++ started ∧ ∀ o ∈ started, o.returnTime = none)
      (fun _ _ => False) w := by
  obtain ⟨done, hsession⟩ := h.sessions hc
  have hactive := hready.inactive hc
  rw [handleStart, hactive]
  simp only [Workload.config, wp_bind, wp_get, wp_pure]
  refine wp_ite (fun _ => ⟨h, [], (List.append_nil _).symm, by simp⟩) fun hlimit => ?_
  simp only [setClient, now, recorder, setRecorder, wp_bind, wp_modify, wp_get, wp_pure]
  refine (wp_recorded (hsession.invoke_eq hactive)).2 ?_
  refine scheduleDeadline_spec (h.invoked hc hready (Int.not_le.1 hlimit) (Function.update_idem ..)
    rfl rfl rfl rfl rfl rfl rfl rfl rfl rfl rfl) (Function.update_self ..) rfl
    fun w' operation hinv hhistory hc' => ?_
  refine wp_mono (submit_spec hinv hc' rfl) (fun _ w'' hw'' => ⟨hw''.1, ?_⟩) fun _ _ h => h
  exact ⟨_, hw''.2.trans hhistory, by simp⟩

theorem Unaffected.of_finish {index : Nat} {before after : Operation}
    (hout : w.runner.recorder.Outstanding index before)
    (hrecorder : w'.runner.recorder = w.runner.recorder.finish index after)
    (hsame : after.clientId = before.clientId) (hne : before.clientId ≠ id)
    (hconfig : w'.runner.config = w.runner.config) (hnow : w'.host.now = w.host.now)
    (hstarts : w'.starts id = w.starts id) :
    Unaffected id w w' where
  config := hconfig
  now := hnow
  starts := hstarts
  session := by
    rw [World.history, hrecorder]
    exact hout.session_finish_of_ne hsame hne
  active := by
    rw [hrecorder]
    exact Function.update_of_ne (hsame.trans_ne hne).symm ..
  lastSeq := by rw [hrecorder]; rfl
  outstanding hclient h := by
    rw [hrecorder]
    exact h.finish hout.recorded hsame (hclient.symm ▸ hne)

def Completes (w : World) (event : Event) (w' : World) : Prop :=
  ∃ index record c operation, w.history[index]? = some record ∧ record.returnTime = none ∧
    w.runner.byID record.clientId = some c ∧ c.active = some operation ∧
    operation.waiting = true ∧ operation.seq = record.seq ∧ event.kind = .applied ∧
    event.attemptID = ⟨record.clientId, operation.seq, operation.attempt⟩ ∧
    w'.history = w.history.set index
      { record with returnTime := some w'.host.now.toInt, output := event.output }

theorem Session.complete_eq {output : Output}
    (h : Session w id c done) (hactive : c.active = some operation)
    (hknown : output.unknown = false) :
    ∃ index record, w.runner.recorder.Outstanding index record ∧ record.clientId = id ∧
      record.seq = operation.seq ∧ w.starts id = [] ∧
      w.runner.recorder.complete id operation.seq w.host.now.toInt output =
        .ok (w.runner.recorder.finish index
          { record with returnTime := some w.host.now.toInt, output }) := by
  cases h.phase with
  | idle inactive => cases hactive.symm.trans inactive
  | busy active outstanding client _ current seq _ invoked unscheduled =>
    cases hactive.symm.trans active
    refine ⟨_, _, outstanding, client, seq.trans current.symm, unscheduled, ?_⟩
    rw [← client, current, ← seq]
    exact outstanding.complete_eq invoked hknown

theorem Inv.completed {index : Nat} {record : Operation}
    {output : Output} (h : Inv w) (hc : w.runner.byID c.id = some c)
    (hactive : c.active = some operation) (hout : w.runner.recorder.Outstanding index record)
    (hrecord : record.clientId = c.id)
    (hclient : w'.runner.byID = Function.update w.runner.byID c.id (some c'))
    (hconfig : w'.runner.config = w.runner.config)
    (hattempts : w'.runner.attempts = w.runner.attempts) (hnow : w'.host.now = w.host.now)
    (hanswers : w'.host.answers = w.host.answers)
    (hsubmissions : w'.host.submissions = w.host.submissions)
    (hstarts : w'.starts c.id = [] ∨ w'.starts c.id = [w.host.now + w.runner.config.thinkTime])
    (hothers : ∀ {other}, other ≠ c.id → w'.starts other = w.starts other)
    (hschedulable : ∀ {due event}, (due, event) ∈ w'.host.scheduled →
      (due, event) ∈ w.host.scheduled ∨ event.Schedulable)
    (hrecorder : w'.runner.recorder = w.runner.recorder.finish index
      { record with returnTime := some w.host.now.toInt, output })
    (hnamed : c'.id = c.id) (hcursor : c'.targetCursor = c.targetCursor)
    (hnext : c'.nextSeq = c.nextSeq + 1) (hgenerated : c'.generated = c.generated)
    (hactive' : c'.active = none) : Inv w' := by
  obtain ⟨done, hsession⟩ := h.sessions hc
  have hchanges : Changes c.id c' w w' := by
    refine ⟨hclient, fun hne => .of_finish hout hrecorder rfl (hrecord.trans_ne hne.symm) hconfig
      hnow (hothers hne), hconfig, ?_, hschedulable⟩
    rw [hanswers]
    exact id
  refine hchanges.inv h hc (hsession.completed hactive hout hrecord hconfig hnow hrecorder hstarts
    h.think hnamed hcursor hnext hgenerated hactive') hattempts hsubmissions fun htried => ?_
  refine htried.keep hattempts hgenerated fun hsome => ?_
  cases hactive'.symm.trans hsome

theorem handleApplied_spec (h : Inv w) (hc : w.runner.byID c.id = some c)
    (hkind : event.kind = .applied) (hknown : event.output.unknown = false) :
    wp (handleApplied c event)
      (fun _ w' => Inv w' ∧ (w'.history = w.history ∨ Completes w event w'))
      (fun _ _ => False) w := by
  obtain ⟨done, hsession⟩ := h.sessions hc
  rw [handleApplied]
  split
  · exact ⟨h, .inl rfl⟩
  · next operation hmatch =>
    obtain ⟨hactive, hwaiting⟩ := Option.filter_eq_some_iff.1 hmatch
    obtain ⟨hwaiting, hid, hseq, hattempt⟩ := of_decide_eq_true hwaiting
    obtain ⟨index, record, hout, hrecord, hcurrent, hstarts, hcomplete⟩ :=
      hsession.complete_eq hactive hknown
    simp only [now, recorder, setRecorder, setClient, Workload.config, wp_bind, wp_get, wp_pure,
      wp_modify]
    refine (wp_recorded hcomplete).2 ?_
    have hcompletes : ∀ {w' : World}, w'.host.now = w.host.now → w'.history = w.history.set index
        { record with returnTime := some w.host.now.toInt, output := event.output } →
        Completes w event w' := by
      intro w' hnow hw'
      refine ⟨index, record, c, operation, hout.recorded, hout.unreturned, hrecord.symm ▸ hc, hactive,
        hwaiting, hcurrent.symm, hkind, ?_, hnow.symm ▸ hw'⟩
      rw [hrecord, ← hid, ← hseq, ← hattempt]
    refine wp_ite (fun _ => ?_) fun _ => ?_
    · refine ⟨h.completed hc hactive hout hrecord rfl rfl rfl rfl rfl rfl (.inr ?_) (fun hne => ?_)
        (fun hmem => ?_) rfl rfl rfl rfl rfl rfl, .inr (hcompletes rfl rfl)⟩
      · rw [World.starts] at hstarts
        simp [World.starts, World.putClient, startsOf_append, hstarts]
      · simp [World.starts, World.putClient, startsOf_append, hne.symm]
      · rcases List.mem_append.1 hmem with hmem | hmem
        · exact .inl hmem
        · cases List.mem_singleton.1 hmem
          exact .inr (.inl rfl)
    · exact ⟨h.completed hc hactive hout hrecord rfl rfl rfl rfl rfl rfl (.inl hstarts) (fun _ => rfl)
        .inl rfl rfl rfl rfl rfl rfl, .inr (hcompletes rfl rfl)⟩

end MiniQuorum.Workload
