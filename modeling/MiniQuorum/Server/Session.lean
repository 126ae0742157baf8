import MiniQuorum.Server.Inputs
import MiniQuorum.Server.ReadyBatch

/-! One host with its node and its storage, fed any messages at all. -/

namespace MiniQuorum.Server

open Raft Storage

inductive LocalInput
  | tick (rnd : Rand)
  | step (m : Option Message) (rnd : Rand)
  | propose (data : Bytes)

def LocalInput.run (a : Node) : LocalInput → Node
  | .tick rnd => a.tick rnd
  | .step m rnd => a.step rnd m
  | .propose data => (a.propose data).1

def LocalInput.replacesUpTo (a : Node) (index : Nat) : LocalInput → Bool
  | .step (some m) _ => a.replacesUpTo index m
  | _ => false

def electionDue (a : Node) : Bool :=
  a.role ≠ .leader && a.electionElapsed + 1 ≥ a.electionTimeout

def votesGranted (candidate : NodeID) (answers : List Message) : List (Nat × NodeID) :=
  answers.filterMap fun m =>
    match m.body with
    | .requestVoteResp resp => if resp.voteGranted then some (resp.term, candidate) else none
    | _ => none

def LocalInput.votes (a : Node) : LocalInput → List (Nat × NodeID)
  | .tick rnd => if electionDue a then [((a.tick rnd).hardState.term, a.config.id)] else []
  | .step (some m) rnd =>
    match m.body with
    | .requestVote req => votesGranted req.candidateId (a.step rnd (some m)).messages
    | _ => []
  | _ => []

/-- `votes` records every vote the node ever cast, over all its restarts. -/
structure Session where
  node : Node
  disk : MemStorage
  stopped : Bool
  votes : List (Nat × NodeID)

namespace Session

def start (cfg : Config) (disk : MemStorage) (rnd : Rand) : Option Session :=
  (newRecoveredNode cfg disk rnd).map fun node => ⟨node, disk, false, []⟩

/-- One host call whose save succeeds.  When an `Apply` fails the batch is not acknowledged
and the host stops. -/
def call (x : Session) (input : LocalInput) (applies : Bool) : Session :=
  if x.stopped then x
  else
    let a := input.run x.node
    let r := a.ready.1
    { node := if applies then a.ready.2.advance else a.ready.2
      disk := x.disk.save r.hardState r.entries
      stopped := !applies
      votes := x.votes ++ input.votes x.node }

def restart (x : Session) (cfg : Config) (rnd : Rand) : Option Session :=
  (newRecoveredNode cfg x.disk rnd).map fun node => { x with node, stopped := false }

def calls (x : Session) (inputs : List LocalInput) : Session :=
  inputs.foldl (fun x input => x.call input true) x

end Session

section Current

variable {a b : Node} {disk : MemStorage}

theorem Writes.behind {j : Nat} (h : Writes j a b) (hb : Behind disk a) : Behind disk b where
  contiguous := h.contiguous
  numbered := hb.numbered
  hard hd := by
    obtain ⟨ha, heq⟩ := h.dirty hd
    exact heq.trans (hb.hard ha)
  log := by
    obtain ⟨k, hk, hu, htake, hlast⟩ := hb.log
    rcases h.log with ⟨hlog, hu'⟩ | ⟨k', hk', hlt, hpre, hu'⟩
    · rw [hlog, hu']
      exact ⟨k, hk, hu, htake, hlast⟩
    · refine ⟨min k k', (min_le_left k k').trans hk, by omega, ?_, .inr (by omega)⟩
      -- Below both cuts the new log is still the old one, and that is what the storage holds.
      have hold : b.log.entries.take k' = a.log.entries.take k' := by
        rw [← List.prefix_iff_eq_take.mp hpre |>.symm]
        rw [List.length_take, min_eq_left hk']
      calc b.log.entries.take (min k k')
          = (b.log.entries.take k').take k := by rw [List.take_take]
        _ = (a.log.entries.take k).take k' := by rw [hold, List.take_take, List.take_take, min_comm]
        _ = disk.entries.take (min k k') := by rw [htake, List.take_take, min_comm]

theorem LocalInput.writes {input : LocalInput} {j : Nat} (h : a.log.Contiguous)
    (hj : input.replacesUpTo a j = false) : Writes j a (input.run a) := by
  cases input with
  | tick rnd =>
    rcases Moves.tick (i := 0) rnd a with hmoves | ⟨_, hmoves⟩
    · exact hmoves.writes h
    · exact (campaigned_writes j h).trans (hmoves.writes h)
  | step m rnd =>
    cases m with
    | none => exact Writes.refl j h
    | some m => exact (Moves.step (i := 0) rnd a hj (.inl rfl)).writes h
  | propose data => exact (Moves.propose (i := 0) a data).writes h

theorem LocalInput.replacesUpTo_zero (a : Node) (input : LocalInput) :
    input.replacesUpTo a 0 = false := by
  cases input with
  | step m rnd =>
    cases m with
    | none => rfl
    | some m => exact Moves.replacesUpTo_zero a m
  | _ => rfl

theorem LocalInput.clean (input : LocalInput) (h : (input.run a).hardStateDirty = false) :
    a.hardStateDirty = false ∧ (input.run a).hardState = a.hardState := by
  cases input with
  | tick rnd =>
    rcases Moves.tick (j := 0) (i := 0) rnd a with hmoves | ⟨_, hmoves⟩
    · exact hmoves.clean h
    · cases (hmoves.clean h).1
  | step m rnd =>
    cases m with
    | none => exact ⟨h, rfl⟩
    | some m => exact (Moves.step rnd a (Moves.replacesUpTo_zero a m) (.inl rfl)).clean h
  | propose data => exact (Moves.propose (j := 0) (i := 0) a data).clean h

structure Session.Current (x : Session) : Prop where
  contiguous : x.node.log.Contiguous
  disk : x.disk = ⟨x.node.hardState, x.node.log.entries⟩
  dirty : x.node.hardStateDirty = false
  unstable : x.node.unstableIndex = x.node.log.entries.length + 1

namespace Session

variable {x y : Session}

theorem Current.behind (h : x.Current) : Behind x.disk x.node where
  contiguous := h.contiguous
  numbered := by
    rw [h.disk]
    exact h.contiguous.numbered
  hard _ := by rw [h.disk]
  log := by
    rw [h.disk]
    exact ⟨_, le_rfl, h.unstable, rfl, .inl rfl⟩

theorem Current.call (h : x.Current) (hstopped : x.stopped = false) (input : LocalInput) :
    (x.call input true).Current ∧ (x.call input true).stopped = false := by
  have hbehind :=
    (LocalInput.writes h.contiguous (input.replacesUpTo_zero x.node)).behind h.behind
  obtain ⟨k, hk, hu⟩ := hbehind.unstable
  rw [Session.call, if_neg (by simp [hstopped])]
  exact ⟨⟨hbehind.contiguous, hbehind.save_eq, advance_dirty _,
    advance_unstable hbehind.contiguous hk hu⟩, rfl⟩

theorem Current.calls (h : x.Current) (hstopped : x.stopped = false) (inputs : List LocalInput) :
    (x.calls inputs).Current := by
  induction inputs generalizing x with
  | nil => exact h
  | cons input inputs ih =>
    obtain ⟨h', hstopped'⟩ := h.call hstopped input
    exact ih h' hstopped'

theorem start_current {cfg : Config} {rnd : Rand} (hnum : NumberedFrom 1 disk.entries)
    (h : Session.start cfg disk rnd = some x) : x.Current ∧ x.stopped = false := by
  obtain ⟨node, hnode, rfl⟩ := Option.map_eq_some_iff.mp h
  cases newRecoveredNode_eq hnum hnode
  have hlog : RaftLog.Contiguous (newRaftLog ⟨0, 0⟩ disk.entries) := ⟨rfl, hnum⟩
  exact ⟨⟨hlog, rfl, rfl, congrArg (· + 1) hlog.lastIndex⟩, rfl⟩

end Session

/-- After every successful host call the storage holds exactly the node's term, vote and log,
and a node recovered from it starts with them. -/
theorem host_keeps_storage_current {cfg : Config} {disk : MemStorage} {rnd : Rand} {x : Session}
    (hnum : NumberedFrom 1 disk.entries) (hstart : Session.start cfg disk rnd = some x)
    (inputs : List LocalInput) :
    (x.calls inputs).disk.hard = (x.calls inputs).node.hardState ∧
    (x.calls inputs).disk.entries = (x.calls inputs).node.log.entries ∧
    ∀ (cfg' : Config) (rnd' : Rand), (x.calls inputs).disk.entries.length ≠ maxUint64 →
      ∃ b, newRecoveredNode cfg' (x.calls inputs).disk rnd' = some b ∧
        b.hardState = (x.calls inputs).node.hardState ∧ b.log = (x.calls inputs).node.log := by
  obtain ⟨hcur, hstopped⟩ := Session.start_current hnum hstart
  have h := hcur.calls hstopped inputs
  refine ⟨by rw [h.disk], by rw [h.disk], fun cfg' rnd' hlen => ?_⟩
  refine ⟨_, newRecoveredNode_some h.behind.numbered hlen cfg' rnd', by rw [h.disk]; rfl, ?_⟩
  have hsnap : (x.calls inputs).node.log = ⟨⟨0, 0⟩, (x.calls inputs).node.log.entries⟩ := by
    rw [← h.contiguous.snapshot]
  rw [hsnap, h.disk]
  rfl

def voter : Config := ⟨1, [1, 2, 3], 1, 1, 1⟩

def longStorage : MemStorage := ⟨⟨1, 0⟩, [⟨1, 1, .noop, []⟩, ⟨2, 1, .noop, []⟩]⟩

def shorterLog : List LocalInput :=
  [.step (some ⟨2, 1, 2, .appendEntries ⟨2, 2, 0, 0, [some ⟨1, 2, .noop, []⟩], 0⟩⟩) none]

theorem host_keeps_storage_current_shorter :
    ∃ x, Session.start voter longStorage none = some x ∧
      (x.calls shorterLog).disk = ⟨⟨2, 0⟩, [⟨1, 2, .noop, []⟩]⟩ ∧
      (x.calls shorterLog).node.hardState = ⟨2, 0⟩ ∧
      (x.calls shorterLog).node.log.entries = [⟨1, 2, .noop, []⟩] := by
  have hstart : Session.start voter longStorage none =
      some ((Session.start voter longStorage none).get (by decide)) := (Option.some_get _).symm
  have hdisk : (((Session.start voter longStorage none).get (by decide)).calls shorterLog).disk =
      ⟨⟨2, 0⟩, [⟨1, 2, .noop, []⟩]⟩ := by decide +kernel
  obtain ⟨hhard, hentries, _⟩ := host_keeps_storage_current
    (show NumberedFrom 1 longStorage.entries from ⟨rfl, rfl, trivial⟩) hstart shorterLog
  refine ⟨_, hstart, hdisk, ?_, ?_⟩
  · rw [← hhard, hdisk]
  · rw [← hentries, hdisk]

end Current

section Votes

def Succeeds (h h' : HardState) : Prop :=
  h.term < h'.term ∨ h.term = h'.term ∧ (h.votedFor = 0 ∨ h.votedFor = h'.votedFor)

namespace Succeeds

variable {h h' h'' : HardState}

theorem refl (h : HardState) : Succeeds h h := .inr ⟨rfl, .inr rfl⟩

theorem trans (hs : Succeeds h h') (hs' : Succeeds h' h'') : Succeeds h h'' := by
  rcases hs with hlt | ⟨heq, hvote⟩
  · exact .inl (hlt.trans_le (hs'.elim le_of_lt fun h => h.1.le))
  · rcases hs' with hlt' | ⟨heq', hvote'⟩
    · exact .inl (heq ▸ hlt')
    · refine .inr ⟨heq.trans heq', ?_⟩
      rcases hvote with hzero | hsame
      · exact .inl hzero
      · rw [hsame]
        exact hvote'

theorem term_le (hs : Succeeds h h') : h.term ≤ h'.term := hs.elim le_of_lt fun h => h.1.le

end Succeeds

def Backs (h : HardState) (v : Nat × NodeID) : Prop :=
  v.1 < h.term ∨ v.1 = h.term ∧ (v.2 = 0 ∨ v.2 = h.votedFor)

theorem Succeeds.backs {h h' : HardState} {v : Nat × NodeID} (hs : Succeeds h h')
    (hv : Backs h v) : Backs h' v := by
  rcases hv with hlt | ⟨heq, hvote⟩
  · exact .inl (hlt.trans_le hs.term_le)
  · rcases hs with hlt | ⟨hterm, hkeep⟩
    · exact .inl (heq ▸ hlt)
    · refine .inr ⟨heq.trans hterm, ?_⟩
      rcases hvote with hzero | hvote
      · exact .inl hzero
      · rw [hvote]
        exact hkeep

variable {a b : Node}

theorem Move.succeeds {j i : Nat} (h : Move j i a b) : Succeeds a.hardState b.hardState := by
  cases h with
  | volatile h =>
    rw [h.hardState]
    exact .refl _
  | commit h => exact .refl _
  | newTerm h => exact .inl h
  | stepDown => exact .refl _
  | grant h => exact .inr ⟨rfl, .inl h⟩
  | lead h => exact .refl _
  | append type data h => exact .refl _
  | store hrole hmatch hnum hj =>
    rw [storeAppend_hardState]
    exact .refl _

theorem Moves.succeeds {j i : Nat} (h : Moves j i a b) : Succeeds a.hardState b.hardState := by
  induction h with
  | refl => exact .refl _
  | tail _ hmove ih => exact ih.trans hmove.succeeds

theorem tick_eq (a : Node) (rnd : Rand) (h : electionDue a = true) :
    a.tick rnd = { a with electionElapsed := a.electionElapsed + 1 }.startElection rnd := by
  obtain ⟨hrole, hdue⟩ := Bool.and_eq_true_iff.mp h
  rw [Node.tick, if_neg (of_decide_eq_true hrole)]
  exact if_pos (of_decide_eq_true hdue)

theorem tick_hardState (a : Node) (rnd : Rand) (h : electionDue a = true) :
    (a.tick rnd).hardState = ⟨(a.hardState.term + 1) % 2 ^ 64, a.config.id⟩ := by
  rw [tick_eq a rnd h, Node.startElection]
  split
  · rw [becomeLeader_hardState]
    rfl
  · rw [(Volatile.requestVotes _).hardState]
    rfl

theorem tick_hardState_of_not_due (a : Node) (rnd : Rand) (h : electionDue a = false) :
    (a.tick rnd).hardState = a.hardState := by
  rw [Node.tick]
  split
  · simp only
    split
    · exact (Volatile.broadcastAppend _ _).hardState
    · rfl
  · rename_i hrole
    simp only [electionDue, decide_not, hrole, decide_false, Bool.not_false, Bool.true_and,
      decide_eq_false_iff_not] at h
    simp only [if_neg h]

theorem handleRequestVote_eq (a : Node) (m : Message) (req : RequestVoteReq) :
    ∃ (b : Node) (granted : Bool),
      a.handleRequestVote m req = b.sendRequestVoteResponse m.fromID granted ∧
      b.messages = a.messages ∧
      (granted = true → b.hardState.votedFor = req.candidateId) := by
  refine ⟨_, _, rfl, ?_, ?_⟩
  · split
    · split <;> rfl
    · rfl
  · intro hgrant
    rw [if_pos hgrant]
    obtain ⟨hcan, _⟩ := Bool.and_eq_true_iff.mp hgrant
    rw [Bool.or_eq_true, beq_iff_eq, beq_iff_eq] at hcan
    by_cases hzero : a.hardState.votedFor = 0
    · simp only [if_pos hzero]
    · simp only [if_neg hzero]
      exact hcan.resolve_left hzero

theorem handleRequestVote_votes {m : Message} {req : RequestVoteReq} (hm : a.messages = [])
    {v : Nat × NodeID}
    (hv : v ∈ votesGranted req.candidateId (a.handleRequestVote m req).messages) :
    v = ((a.handleRequestVote m req).hardState.term,
      (a.handleRequestVote m req).hardState.votedFor) := by
  obtain ⟨b, granted, heq, hmessages, hvote⟩ := handleRequestVote_eq a m req
  rw [heq] at hv ⊢
  rw [Node.sendRequestVoteResponse, Node.emit, hmessages, hm] at hv
  cases granted with
  | false => cases hv
  | true =>
    rw [List.mem_singleton.mp hv]
    exact congrArg (Prod.mk _) (hvote rfl).symm

theorem LocalInput.votes_held {input : LocalInput} (hm : a.messages = []) {v : Nat × NodeID}
    (hv : v ∈ input.votes a) :
    v = ((input.run a).hardState.term, (input.run a).hardState.votedFor) := by
  cases input with
  | tick rnd =>
    simp only [LocalInput.votes] at hv
    split at hv
    · rename_i hdue
      rw [List.mem_singleton.mp hv, LocalInput.run, tick_hardState a rnd hdue]
    · cases hv
  | step m rnd =>
    cases m with
    | none => cases hv
    | some m =>
      cases hbody : m.body with
      | requestVote req =>
        simp only [LocalInput.votes, hbody, LocalInput.run, Node.step, Node.handle] at hv ⊢
        split at hv
        · rename_i hlt
          rw [if_pos hlt]
          refine handleRequestVote_votes ?_ hv
          rw [Node.becomeFollower, if_pos hlt.ne']
          exact hm
        · rename_i hle
          rw [if_neg hle]
          split at hv
          · simp only [Node.rejectLowerTermRequest, hbody, Node.sendRequestVoteResponse, Node.emit,
              hm] at hv
            cases hv
          · rename_i hge
            rw [if_neg hge]
            exact handleRequestVote_votes hm hv
      | _ => simp only [LocalInput.votes, hbody, List.not_mem_nil] at hv
  | propose data => cases hv

def LocalInput.wraps (a : Node) : LocalInput → Bool
  | .tick _ => electionDue a && a.hardState.term ≥ maxUint64
  | _ => false

theorem LocalInput.succeeds {input : LocalInput} (h : input.wraps a = false) :
    Succeeds a.hardState (input.run a).hardState := by
  cases input with
  | tick rnd =>
    cases hdue : electionDue a with
    | false =>
      rw [LocalInput.run, tick_hardState_of_not_due a rnd hdue]
      exact .refl _
    | true =>
      have hbelow : a.hardState.term < maxUint64 := by
        simpa [LocalInput.wraps, hdue] using h
      rw [maxUint64] at hbelow
      rw [LocalInput.run, tick_hardState a rnd hdue, Nat.mod_eq_of_lt (by omega)]
      exact .inl (Nat.lt_succ_self _)
  | step m rnd =>
    cases m with
    | none => exact .refl _
    | some m => exact (Moves.step rnd a (Moves.replacesUpTo_zero a m) (.inl rfl)).succeeds
  | propose data => exact (Moves.propose (j := 0) (i := 0) a data).succeeds

inductive SessionEvent
  | call (input : LocalInput) (applies : Bool)
  | restart (cfg : Config) (rnd : Rand)

namespace Session

def act (x : Session) : SessionEvent → Option Session
  | .call input applies => some (x.call input applies)
  | .restart cfg rnd => x.restart cfg rnd

def wraps (x : Session) : SessionEvent → Bool
  | .call input _ => !x.stopped && input.wraps x.node
  | .restart _ _ => false

def Run : Session → Session → Prop := Relation.ReflTransGen fun x y => ∃ e, x.act e = some y

def RunBelow : Session → Session → Prop :=
  Relation.ReflTransGen fun x y => ∃ e, x.act e = some y ∧ x.wraps e = false

/-- The storage backs the node's hard state, and that backs every vote it cast. -/
structure Voted (x : Session) : Prop where
  hard : x.disk.hard = x.node.hardState
  clean : x.stopped = false → x.node.hardStateDirty = false ∧ x.node.messages = []
  backed : ∀ v ∈ x.votes, Backs x.node.hardState v
  once : ∀ v ∈ x.votes, ∀ v' ∈ x.votes, v.1 = v'.1 → v.2 ≠ 0 → v'.2 ≠ 0 → v.2 = v'.2

theorem start_voted {cfg : Config} {disk : MemStorage} {rnd : Rand} {x : Session}
    (h : Session.start cfg disk rnd = some x) : x.Voted := by
  obtain ⟨node, hnode, rfl⟩ := Option.map_eq_some_iff.mp h
  obtain ⟨entries, rfl⟩ := newRecoveredNode_cases hnode
  exact ⟨rfl, fun _ => ⟨rfl, rfl⟩, by rintro v ⟨⟩, by rintro v ⟨⟩⟩

variable {x y : Session}

theorem Voted.restart (h : x.Voted) {cfg : Config} {rnd : Rand}
    (hy : x.restart cfg rnd = some y) : y.Voted ∧ y.node.hardState = x.node.hardState := by
  obtain ⟨node, hnode, rfl⟩ := Option.map_eq_some_iff.mp hy
  obtain ⟨entries, rfl⟩ := newRecoveredNode_cases hnode
  have hsame : (newNode cfg ⟨x.disk.hard, entries, ⟨0, 0⟩⟩ rnd).hardState = x.node.hardState :=
    h.hard
  refine ⟨⟨rfl, fun _ => ⟨rfl, rfl⟩, ?_, h.once⟩, hsame⟩
  intro v hv
  rw [hsame]
  exact h.backed v hv

theorem Voted.call (h : x.Voted) (hstopped : x.stopped = false) {input : LocalInput}
    (hwraps : input.wraps x.node = false) (applies : Bool) :
    (x.call input applies).Voted ∧
      (x.call input applies).node.hardState = (input.run x.node).hardState := by
  obtain ⟨hdirty, hmessages⟩ := h.clean hstopped
  have hsucc := LocalInput.succeeds hwraps
  have hhard : (input.run x.node).readyWithoutCapture.hardState.getD x.disk.hard =
      (input.run x.node).hardState := by
    rw [Node.readyWithoutCapture]
    simp only
    split
    · rfl
    · rename_i hd
      rw [(input.clean (Bool.eq_false_iff.mpr hd)).2]
      exact h.hard
  have hnode : (x.call input applies).node.hardState = (input.run x.node).hardState := by
    rw [Session.call, if_neg (by simp [hstopped])]
    cases applies <;> rfl
  have hvotes : (x.call input applies).votes = x.votes ++ input.votes x.node := by
    rw [Session.call, if_neg (by simp [hstopped])]
  have hbacked : ∀ v ∈ x.votes, Backs (input.run x.node).hardState v :=
    fun v hv => hsucc.backs (h.backed v hv)
  have hnew : ∀ v ∈ input.votes x.node,
      v = ((input.run x.node).hardState.term, (input.run x.node).hardState.votedFor) :=
    fun v hv => LocalInput.votes_held hmessages hv
  refine ⟨⟨?_, ?_, ?_, ?_⟩, hnode⟩
  · rw [hnode, Session.call, if_neg (by simp [hstopped])]
    exact hhard
  · intro hs
    rw [Session.call, if_neg (by simp [hstopped])] at hs ⊢
    cases applies with
    | false => cases hs
    | true => exact ⟨advance_dirty _, if_pos le_rfl⟩
  · rw [hnode, hvotes]
    intro v hv
    rcases List.mem_append.mp hv with hv | hv
    · exact hbacked v hv
    · rw [hnew v hv]
      exact .inr ⟨rfl, .inr rfl⟩
  · rw [hvotes]
    intro v hv v' hv' hterm hne hne'
    have hcurrent : ∀ w ∈ x.votes, w.1 = (input.run x.node).hardState.term → w.2 ≠ 0 →
        w.2 = (input.run x.node).hardState.votedFor := by
      intro w hw heq hzero
      rcases hbacked w hw with hlt | ⟨_, hvote⟩
      · exact absurd heq hlt.ne
      · exact hvote.resolve_left hzero
    rcases List.mem_append.mp hv with hv | hv <;> rcases List.mem_append.mp hv' with hv' | hv'
    · exact h.once v hv v' hv' hterm hne hne'
    · rw [hnew v' hv'] at hterm ⊢
      exact hcurrent v hv hterm hne
    · rw [hnew v hv] at hterm ⊢
      exact (hcurrent v' hv' hterm.symm hne').symm
    · rw [hnew v hv, hnew v' hv']

theorem Voted.act (h : x.Voted) {e : SessionEvent} (hwraps : x.wraps e = false)
    (hy : x.act e = some y) : y.Voted ∧ x.node.hardState.term ≤ y.node.hardState.term := by
  cases e with
  | call input applies =>
    cases hy
    cases hstopped : x.stopped with
    | true =>
      rw [Session.call, if_pos hstopped]
      exact ⟨h, le_rfl⟩
    | false =>
      have hinput : input.wraps x.node = false := by
        simpa [Session.wraps, hstopped] using hwraps
      obtain ⟨h', hnode⟩ := h.call hstopped hinput applies
      rw [hnode]
      exact ⟨h', (LocalInput.succeeds hinput).term_le⟩
  | restart cfg rnd =>
    obtain ⟨h', hnode⟩ := h.restart hy
    rw [hnode]
    exact ⟨h', le_rfl⟩

theorem Voted.run (h : x.Voted) (hrun : RunBelow x y) :
    y.Voted ∧ x.node.hardState.term ≤ y.node.hardState.term := by
  induction hrun with
  | refl => exact ⟨h, le_rfl⟩
  | tail _ hstep ih =>
    obtain ⟨e, he, hwraps⟩ := hstep
    obtain ⟨h', hle⟩ := ih.1.act hwraps he
    exact ⟨h', ih.2.trans hle⟩

/-- Whatever a node is sent, its term never gets smaller and it votes at most once in a term,
as long as no election is started at the last term. -/
theorem term_and_vote_safety {cfg : Config} {disk : MemStorage} {rnd : Rand} {x y z : Session}
    (hstart : Session.start cfg disk rnd = some x) (hxy : RunBelow x y) (hyz : RunBelow y z) :
    y.node.hardState.term ≤ z.node.hardState.term ∧
    ∀ term c c', (term, c) ∈ z.votes → (term, c') ∈ z.votes → c ≠ 0 → c' ≠ 0 → c = c' := by
  have hy := ((start_voted hstart).run hxy).1
  obtain ⟨hz, hle⟩ := hy.run hyz
  exact ⟨hle, fun term c c' hc hc' => hz.once (term, c) hc (term, c') hc' rfl⟩

theorem run_calls (x : Session) (inputs : List LocalInput) : Run x (x.calls inputs) := by
  induction inputs generalizing x with
  | nil => exact .refl
  | cons input inputs ih => exact .head ⟨.call input true, rfl⟩ (ih _)

def fresh : Session := (Session.start voter MemStorage.empty none).get (by decide)

def voteRequest (candidate term : Nat) : LocalInput :=
  .step (some ⟨candidate, 1, term, .requestVote ⟨term, candidate, 0, 0⟩⟩) none

theorem term_and_vote_safety_two_candidates :
    (fresh.call (voteRequest 2 1) true).node.hardState.term ≤
      ((fresh.call (voteRequest 2 1) true).call (voteRequest 3 1) true).node.hardState.term ∧
    (1, 2) ∈ ((fresh.call (voteRequest 2 1) true).call (voteRequest 3 1) true).votes ∧
    (1, 3) ∉ ((fresh.call (voteRequest 2 1) true).call (voteRequest 3 1) true).votes := by
  have h := term_and_vote_safety (x := fresh) (Option.some_get _).symm
    (.single ⟨.call (voteRequest 2 1) true, rfl, by decide +kernel⟩)
    (.single ⟨.call (voteRequest 3 1) true, rfl, by decide +kernel⟩)
  have hmem : (1, 2) ∈ ((fresh.call (voteRequest 2 1) true).call (voteRequest 3 1) true).votes := by
    decide +kernel
  exact ⟨h.1, hmem, fun hmem' => absurd (h.2 1 2 3 hmem hmem') (by decide)⟩

def lastTerm : List LocalInput :=
  [voteRequest 2 1, .step (some ⟨2, 1, maxUint64, .appendEntries ⟨maxUint64, 2, 0, 0, [], 0⟩⟩) none]

def pastLastTerm : List LocalInput := [.tick none, voteRequest 3 1]

theorem term_and_vote_safety_wraps : ∃ x y z : Session,
    Session.start voter MemStorage.empty none = some x ∧ Run x y ∧ Run y z ∧
    z.node.hardState.term < y.node.hardState.term ∧ (1, 2) ∈ z.votes ∧ (1, 3) ∈ z.votes :=
  ⟨fresh, fresh.calls lastTerm, (fresh.calls lastTerm).calls pastLastTerm,
    (Option.some_get _).symm, run_calls _ _, run_calls _ _, by decide +kernel, by decide +kernel,
    by decide +kernel⟩

end Session

end Votes

end MiniQuorum.Server
