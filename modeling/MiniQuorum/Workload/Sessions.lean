import MiniQuorum.Workload.Runner

/-! The runner under any order of events.  Each client's operations follow one another,
whatever else is delivered than what the runner scheduled. -/

namespace MiniQuorum.Workload

open Checker Program StateMachine

abbrev World.history (w : World) : History := w.runner.recorder.history

def startsOf (scheduled : List (Int64 × Event)) (id : UInt64) : List Int64 :=
  scheduled.filterMap fun (due, event) =>
    if event.kind = .start ∧ event.attemptID.clientID = id then some due else none

def World.starts (w : World) (id : UInt64) : List Int64 := startsOf w.host.scheduled id

def Before (first second : Operation) : Prop :=
  ∃ time, first.returnTime = some time ∧ time < second.invokeTime

/-! ### Sessions -/

def World.Timely (w : World) : Prop :=
  w.host.now.toInt + w.runner.config.thinkTime.toInt < 2 ^ 63

/-- What a client is about: it has an operation that is open, or none. -/
inductive Phase (w : World) (id : UInt64) (c : Client) (done : History) : Prop
  | idle (inactive : c.active = none) (session : w.history.session id = done)
      (unoccupied : w.runner.recorder.active id = none) (generated : c.generated = done.length)
      (single : (w.starts id).length ≤ 1)
      (due : w.Timely → ∀ last ∈ done.getLast?, ∀ time, last.returnTime = some time →
        ∀ due ∈ w.starts id, time < due.toInt)
  | busy {operation : LogicalOperation} {index : Nat} {record : Operation}
      (active : c.active = some operation)
      (outstanding : w.runner.recorder.Outstanding index record)
      (client : record.clientId = id) (session : w.history.session id = done ++ [record])
      (current : operation.seq = c.nextSeq) (seq : record.seq = c.nextSeq)
      (generated : c.generated = done.length + 1)
      (invoked : record.invokeTime ≤ w.host.now.toInt) (unscheduled : w.starts id = [])
      (later : w.Timely → ∀ last ∈ done.getLast?, Before last record)

/-- What holds for a client, of whose operations `done` have returned. -/
structure Session (w : World) (id : UInt64) (c : Client) (done : History) : Prop where
  named : c.id = id
  cursor : c.targetCursor < w.runner.config.targets.length
  nextSeq : c.nextSeq.toNat = done.length + 1
  limit : (c.generated : Int) ≤ w.runner.config.operationsPerClient.toInt
  lastSeq : ∀ last, w.runner.recorder.lastSeq id = some last → last.toNat ≤ c.generated
  returned : ∀ o ∈ done, o.returnTime.isSome
  sequences : done.map (·.seq.toNat) = List.range' 1 done.length
  ordered : w.Timely → done.IsChain Before
  phase : Phase w id c done

structure Unaffected (id : UInt64) (w w' : World) : Prop where
  config : w'.runner.config = w.runner.config
  now : w'.host.now = w.host.now
  starts : w'.starts id = w.starts id
  session : w'.history.session id = w.history.session id
  active : w'.runner.recorder.active id = w.runner.recorder.active id
  lastSeq : w'.runner.recorder.lastSeq id = w.runner.recorder.lastSeq id
  outstanding : ∀ {index record}, record.clientId = id →
    w.runner.recorder.Outstanding index record → w'.runner.recorder.Outstanding index record

structure SameClient (w : World) (c c' : Client) : Prop where
  id : c'.id = c.id
  nextSeq : c'.nextSeq = c.nextSeq
  generated : c'.generated = c.generated
  cursor : c'.targetCursor < w.runner.config.targets.length
  active : c'.active.map LogicalOperation.seq = c.active.map LogicalOperation.seq

variable {w w' : World} {id : UInt64} {c c' : Client} {done : History}

theorem World.Timely.congr (h : Unaffected id w w') : w'.Timely ↔ w.Timely := by
  rw [Timely, Timely, h.now, h.config]

theorem Phase.transfer (h : Phase w id c done) (hw : Unaffected id w w')
    (hc : SameClient w c c') : Phase w' id c' done := by
  cases h with
  | idle inactive session unoccupied generated single due =>
    refine .idle ?_ (hw.session.trans session) (hw.active.trans unoccupied)
      (hc.generated.trans generated) (hw.starts.symm ▸ single) ?_
    · simpa [inactive] using hc.active
    · rw [World.Timely.congr hw, hw.starts]
      exact due
  | @busy operation index record active outstanding client session current seq generated invoked
      unscheduled later =>
    have hactive := hc.active
    rw [active, Option.map_some, Option.map_eq_some_iff] at hactive
    obtain ⟨operation', hactive', hseq⟩ := hactive
    refine .busy hactive' (hw.outstanding client outstanding) client (hw.session.trans session)
      (hseq.trans (current.trans hc.nextSeq.symm)) (seq.trans hc.nextSeq.symm)
      (hc.generated.trans generated) (hw.now.symm ▸ invoked) (hw.starts.trans unscheduled) ?_
    rw [World.Timely.congr hw]
    exact later

theorem Session.transfer (h : Session w id c done) (hw : Unaffected id w w')
    (hc : SameClient w c c') : Session w' id c' done where
  named := hc.id.trans h.named
  cursor := hw.config.symm ▸ hc.cursor
  nextSeq := hc.nextSeq.symm ▸ h.nextSeq
  limit := by
    rw [hw.config, hc.generated]
    exact h.limit
  lastSeq := by
    rw [hw.lastSeq, hc.generated]
    exact h.lastSeq
  returned := h.returned
  sequences := h.sequences
  ordered := by
    rw [World.Timely.congr hw]
    exact h.ordered
  phase := h.phase.transfer hw hc

theorem Session.sameClient (h : Session w id c done) : SameClient w c c :=
  ⟨rfl, rfl, rfl, h.cursor, rfl⟩

theorem Session.later (h : Session w id c done) (hrunner : w'.runner = w.runner)
    (hnow : w.host.now ≤ w'.host.now) (hstarts : (w'.starts id).Sublist (w.starts id)) :
    Session w' id c done := by
  have htimely : w'.Timely → w.Timely := by
    intro ht
    have := Int64.le_iff_toInt_le.1 hnow
    rw [World.Timely, hrunner] at ht
    rw [World.Timely]
    omega
  have hphase : Phase w' id c done := by
    cases h.phase with
    | idle inactive session unoccupied generated single due =>
      rw [World.history, ← hrunner] at session
      rw [← hrunner] at unoccupied
      exact .idle inactive session unoccupied generated (hstarts.length_le.trans single)
        fun ht last hlast time hreturn t hmem =>
          due (htimely ht) last hlast time hreturn t (hstarts.subset hmem)
    | busy active outstanding client session current seq generated invoked unscheduled later =>
      rw [World.history, ← hrunner] at session
      rw [← hrunner] at outstanding
      rw [unscheduled, List.sublist_nil] at hstarts
      exact .busy active outstanding client session current seq generated
        (invoked.trans (Int64.le_iff_toInt_le.1 hnow)) hstarts fun ht => later (htimely ht)
  refine ⟨h.named, ?_, h.nextSeq, ?_, ?_, h.returned, h.sequences, fun ht => h.ordered (htimely ht),
    hphase⟩
  · rw [hrunner]
    exact h.cursor
  · rw [hrunner]
    exact h.limit
  · rw [hrunner]
    exact h.lastSeq

structure World.Ready (w : World) (id : UInt64) : Prop where
  inactive : ∀ {c}, w.runner.byID id = some c → c.active = none
  unscheduled : w.starts id = []
  due : w.Timely → ∀ last ∈ (w.history.session id).getLast?, ∀ time,
    last.returnTime = some time → time < w.host.now.toInt

theorem Session.invoked {operation : LogicalOperation} {input : Input} {output : Output}
    (h : Session w id c done) (hactive : c.active = none) (hready : w.Ready id)
    (hconfig : w'.runner.config = w.runner.config) (hnow : w'.host.now = w.host.now)
    (hstarts : w'.starts id = w.starts id)
    (hrecorder : w'.runner.recorder = w.runner.recorder.begin
      ⟨id, c.nextSeq, w.host.now.toInt, none, input, output⟩)
    (hlimit : (c.generated : Int) < w.runner.config.operationsPerClient.toInt)
    (hnamed : c'.id = c.id) (hcursor : c'.targetCursor = c.targetCursor)
    (hnext : c'.nextSeq = c.nextSeq) (hgenerated : c'.generated = c.generated + 1)
    (hactive' : c'.active = some operation) (hseq : operation.seq = c.nextSeq) :
    Session w' id c' done := by
  have htimely : w'.Timely ↔ w.Timely := by rw [World.Timely, World.Timely, hnow, hconfig]
  cases h.phase with
  | busy active => cases hactive.symm.trans active
  | idle inactive session unoccupied generated single due =>
    have hphase : Phase w' id c' done := by
      refine .busy hactive' (hrecorder ▸ Recorder.outstanding_begin _ rfl) rfl ?_
        (hseq.trans hnext.symm) hnext.symm (hgenerated.trans (congrArg (· + 1) generated))
        (by rw [hnow]) (hstarts.trans hready.unscheduled) ?_
      · rw [World.history, hrecorder, Recorder.session_begin_self, ← session]
      · intro ht last hlast
        obtain ⟨time, htime⟩ := Option.isSome_iff_exists.1
          (h.returned last (List.mem_of_mem_getLast? hlast))
        exact ⟨time, htime, hready.due (htimely.1 ht) last (session ▸ hlast) time htime⟩
    refine ⟨hnamed.trans h.named, ?_, hnext.symm ▸ h.nextSeq, ?_, ?_, h.returned, h.sequences,
      fun ht => h.ordered (htimely.1 ht), hphase⟩
    · rw [hconfig, hcursor]
      exact h.cursor
    · rw [hconfig, hgenerated]
      push_cast
      omega
    · intro last hlast
      rw [hrecorder] at hlast
      cases (Function.update_self ..).symm.trans hlast
      rw [h.nextSeq, hgenerated, generated]

theorem toInt_add_of_timely {now think : Int64} (hthink : 0 < think.toInt)
    (htimely : now.toInt + think.toInt < 2 ^ 63) : (now + think).toInt = now.toInt + think.toInt := by
  have := now.le_toInt
  rw [Int64.toInt_add, Int.bmod_eq_of_le]
  · omega
  · omega

theorem Session.completed {operation : LogicalOperation} {index : Nat} {record : Operation}
    {output : Output} (h : Session w id c done) (hactive : c.active = some operation)
    (hout : w.runner.recorder.Outstanding index record) (hclient : record.clientId = id)
    (hconfig : w'.runner.config = w.runner.config) (hnow : w'.host.now = w.host.now)
    (hrecorder : w'.runner.recorder = w.runner.recorder.finish index
      { record with returnTime := some w.host.now.toInt, output })
    (hstarts : w'.starts id = [] ∨
      w'.starts id = [w.host.now + w.runner.config.thinkTime])
    (hthink : 0 < w.runner.config.thinkTime.toInt)
    (hnamed : c'.id = c.id) (hcursor : c'.targetCursor = c.targetCursor)
    (hnext : c'.nextSeq = c.nextSeq + 1) (hgenerated : c'.generated = c.generated)
    (hactive' : c'.active = none) :
    Session w' id c'
      (done ++ [{ record with returnTime := some w.host.now.toInt, output }]) := by
  have htimely : w'.Timely ↔ w.Timely := by rw [World.Timely, World.Timely, hnow, hconfig]
  cases h.phase with
  | idle inactive => cases hactive.symm.trans inactive
  | @busy _ index' record' active outstanding client session current seq generated invoked
      unscheduled later =>
    subst client
    obtain rfl : index' = index :=
      Option.some.inj (outstanding.active.symm.trans (hclient ▸ hout.active))
    obtain rfl : record' = record :=
      Option.some.inj (outstanding.recorded.symm.trans hout.recorded)
    have hlt := w.runner.config.operationsPerClient.toInt_lt
    have hlimit := h.limit
    rw [generated] at hlimit
    have hphase : Phase w' record'.clientId c'
        (done ++ [{ record' with returnTime := some w.host.now.toInt, output }]) := by
      obtain ⟨earlier, hearlier, hfinish⟩ :=
        outstanding.session_finish { record' with
          returnTime := some w.host.now.toInt, output } rfl
      rw [session, List.append_left_inj] at hearlier
      rw [← hearlier] at hfinish
      refine .idle hactive' ?_ ?_ ?_ ?_ ?_
      · rw [World.history, hrecorder]
        exact hfinish
      · rw [hrecorder]
        exact Function.update_self ..
      · rw [hgenerated, generated, List.length_append, List.length_singleton]
      · rcases hstarts with hstarts | hstarts <;> simp [hstarts]
      · intro ht last hlast time htime due hdue
        rw [List.getLast?_concat, Option.mem_some_iff] at hlast
        subst hlast
        cases htime
        rcases hstarts with hstarts | hstarts
        · rw [hstarts] at hdue
          cases hdue
        · rw [hstarts, List.mem_singleton] at hdue
          subst hdue
          rw [toInt_add_of_timely hthink (htimely.1 ht)]
          omega
    have hseqs : record'.seq.toNat = 1 + done.length := by
      rw [seq, h.nextSeq, Nat.add_comm]
    refine ⟨hnamed.trans h.named, ?_, ?_, ?_, ?_, ?_, ?_, ?_, hphase⟩
    · rw [hconfig, hcursor]
      exact h.cursor
    · rw [hnext, UInt64.toNat_add, h.nextSeq, List.length_append, List.length_singleton]
      simp only [UInt64.reduceToNat]
      omega
    · rw [hconfig, hgenerated]
      exact h.limit
    · rw [hgenerated, hrecorder]
      exact h.lastSeq
    · intro o ho
      rcases List.mem_append.1 ho with ho | ho
      · exact h.returned o ho
      · rw [List.mem_singleton] at ho
        subst ho
        rfl
    · rw [List.map_append, h.sequences, List.length_append, List.length_singleton,
        List.range'_1_concat, List.map_singleton, hseqs]
    · intro ht
      refine List.isChain_append.2 ⟨h.ordered (htimely.1 ht), List.isChain_singleton _, ?_⟩
      intro last hlast o ho
      rw [List.head?_cons, Option.mem_some_iff] at ho
      subst ho
      exact later (htimely.1 ht) last hlast

/-! ### Attempts -/

def AttemptRecord.SameOperation (a b : AttemptRecord) : Prop :=
  a.attemptID.clientID = b.attemptID.clientID ∧ a.attemptID.seq = b.attemptID.seq

def Repeats (a b : AttemptRecord) : Prop :=
  a.SameOperation b → a.command = b.command ∧ a.attemptID.attempt ≠ b.attemptID.attempt

structure Tried (w : World) (id : UInt64) (c : Client) : Prop where
  generated : ∀ a ∈ w.runner.attempts, a.attemptID.clientID = id →
    a.attemptID.seq.toNat ≤ c.generated
  current : ∀ {operation}, c.active = some operation → ∀ a ∈ w.runner.attempts,
    a.attemptID.clientID = id → a.attemptID.seq = operation.seq →
    a.command = operation.command ∧ a.attemptID.attempt.toNat ≤ operation.attempt.toNat
  counted : ∀ {operation}, c.active = some operation →
    operation.attempt.toNat ≤ w.runner.attempts.length

def World.Few (w : World) : Prop := w.runner.attempts.length < 2 ^ 64

theorem Tried.keep (h : Tried w id c) (hattempts : w'.runner.attempts = w.runner.attempts)
    (hgenerated : c'.generated = c.generated)
    (hactive : ∀ {operation'}, c'.active = some operation' → ∃ operation,
      c.active = some operation ∧ operation'.seq = operation.seq ∧
      operation'.command = operation.command ∧ operation'.attempt = operation.attempt) :
    Tried w' id c' := by
  refine ⟨?_, ?_, ?_⟩
  · rw [hattempts, hgenerated]
    exact h.generated
  · intro operation' hactive'
    obtain ⟨operation, hop, hseq, hcommand, hattempt⟩ := hactive hactive'
    rw [hattempts, hseq, hcommand, hattempt]
    exact h.current hop
  · intro operation' hactive'
    obtain ⟨operation, hop, -, -, hattempt⟩ := hactive hactive'
    rw [hattempts, hattempt]
    exact h.counted hop

theorem Tried.invoked {operation : LogicalOperation} (h : Tried w id c)
    (hattempts : w'.runner.attempts = w.runner.attempts)
    (hgenerated : c'.generated = c.generated + 1) (hactive : c'.active = some operation)
    (hseq : operation.seq.toNat = c.generated + 1) (hattempt : operation.attempt = 0) :
    Tried w' id c' := by
  refine ⟨?_, ?_, ?_⟩
  · intro a ha hid
    rw [hgenerated]
    exact Nat.le_succ_of_le (h.generated a (hattempts ▸ ha) hid)
  · intro _ hactive' a ha hid hseq'
    cases hactive.symm.trans hactive'
    have := h.generated a (hattempts ▸ ha) hid
    rw [hseq', hseq] at this
    omega
  · intro _ hactive'
    cases hactive.symm.trans hactive'
    rw [hattempt]
    exact Nat.zero_le _

theorem Tried.append {a : AttemptRecord} (h : Tried w id c)
    (hattempts : w'.runner.attempts = w.runner.attempts ++ [a]) (ha : a.attemptID.clientID ≠ id) :
    Tried w' id c := by
  have hmem : ∀ b ∈ w'.runner.attempts, b.attemptID.clientID = id → b ∈ w.runner.attempts := by
    intro b hb hid
    rw [hattempts, List.mem_append, List.mem_singleton] at hb
    rcases hb with hb | rfl
    · exact hb
    · exact absurd hid ha
  refine ⟨fun b hb hid => h.generated b (hmem b hb hid) hid,
    fun hactive b hb hid => h.current hactive b (hmem b hb hid) hid, fun hactive => ?_⟩
  rw [hattempts, List.length_append]
  exact Nat.le_add_right_of_le (h.counted hactive)

theorem Tried.toNat_next {operation : LogicalOperation} (h : Tried w id c)
    (hactive : c.active = some operation) (hfew : w.runner.attempts.length + 1 < 2 ^ 64) :
    (operation.attempt + 1).toNat = operation.attempt.toNat + 1 := by
  have := h.counted hactive
  rw [UInt64.toNat_add]
  exact Nat.mod_eq_of_lt (by simp only [UInt64.reduceToNat]; omega)

theorem Tried.attempted {operation operation' : LogicalOperation} {a : AttemptRecord}
    (h : Tried w id c) (hfew : w.runner.attempts.length + 1 < 2 ^ 64)
    (hactive : c.active = some operation)
    (hattempts : w'.runner.attempts = w.runner.attempts ++ [a])
    (hgenerated : c'.generated = c.generated) (hactive' : c'.active = some operation')
    (hseq : operation'.seq = operation.seq) (hcommand : operation'.command = operation.command)
    (hattempt : operation'.attempt = operation.attempt + 1)
    (hid : a.attemptID = ⟨id, operation.seq, operation.attempt + 1⟩)
    (ha : a.command = operation.command) (hcurrent : operation.seq.toNat ≤ c.generated) :
    Tried w' id c' ∧ ∀ b ∈ w.runner.attempts, Repeats b a := by
  have hnext := h.toNat_next hactive hfew
  refine ⟨⟨?_, ?_, ?_⟩, ?_⟩
  · intro b hb hclient
    rw [hattempts, List.mem_append, List.mem_singleton] at hb
    rw [hgenerated]
    rcases hb with hb | rfl
    · exact h.generated b hb hclient
    · rw [hid]
      exact hcurrent
  · intro _ hop b hb hclient hbseq
    cases hactive'.symm.trans hop
    rw [hattempts, List.mem_append, List.mem_singleton] at hb
    rw [hcommand, hattempt, hnext]
    rcases hb with hb | rfl
    · obtain ⟨hbc, hba⟩ := h.current hactive b hb hclient (hbseq.trans hseq)
      exact ⟨hbc, Nat.le_succ_of_le hba⟩
    · rw [hid]
      exact ⟨ha, hnext.le⟩
  · intro _ hop
    cases hactive'.symm.trans hop
    rw [hattempt, hnext, hattempts, List.length_append, List.length_singleton]
    exact Nat.succ_le_succ (h.counted hactive)
  · rintro b hb ⟨hclient, hbseq⟩
    rw [hid] at hclient hbseq
    obtain ⟨hbc, hba⟩ := h.current hactive b hb hclient hbseq
    refine ⟨hbc.trans ha.symm, fun heq => ?_⟩
    rw [heq, hid, hnext] at hba
    omega

end MiniQuorum.Workload
