import MiniQuorum.Raft.Node

/-! A node's protocol state apart from what it still owes its host.  Inputs act on the
protocol state alone, and only add to what is owed. -/

namespace MiniQuorum.Raft

/-- What Ready reports and Advance settles. -/
structure Owed where
  messages : List Message
  unstableIndex : Nat
  hardStateDirty : Bool
  lastApplied : Nat
  readyAck : ReadyAck

namespace Node

def owing (o : Owed) (a : Node) : Node :=
  { a with
    messages := o.messages ++ a.messages
    unstableIndex := min o.unstableIndex a.unstableIndex
    hardStateDirty := o.hardStateDirty || a.hardStateDirty
    lastApplied := o.lastApplied
    readyAck := o.readyAck }

def owed (a : Node) : Owed :=
  ⟨a.messages, a.unstableIndex, a.hardStateDirty, a.lastApplied, a.readyAck⟩

def core (a : Node) : Node :=
  { a with
    messages := [], unstableIndex := 0, hardStateDirty := false, lastApplied := 0
    readyAck := ReadyAck.zero }

variable (o : Owed) (a : Node)

theorem owing_ite {c : Prop} [Decidable c] (a b : Node) :
    (if c then a else b).owing o = if c then a.owing o else b.owing o :=
  apply_ite (owing o) c a b

theorem emit_owing (dest : NodeID) (body : Body) :
    (a.owing o).emit dest body = (a.emit dest body).owing o := by
  simp [emit, owing]

theorem setNextIndex_owing (peer : NodeID) (index : Nat) :
    (a.owing o).setNextIndex peer index = (a.setNextIndex peer index).owing o := by
  rw [setNextIndex, setNextIndex, show (a.owing o).nextIndex = a.nextIndex from rfl]
  cases a.nextIndex <;> rfl

theorem setMatchIndex_owing (peer : NodeID) (index : Nat) :
    (a.owing o).setMatchIndex peer index = (a.setMatchIndex peer index).owing o := by
  rw [setMatchIndex, setMatchIndex, show (a.owing o).matchIndex = a.matchIndex from rfl]
  cases a.matchIndex <;> rfl

theorem setInflight_owing (peer : NodeID) (pending : Option AppendInflight) :
    (a.owing o).setInflight peer pending = (a.setInflight peer pending).owing o := by
  rw [setInflight, setInflight, show (a.owing o).inflight = a.inflight from rfl]
  cases a.inflight <;> rfl

theorem emitAppend_owing (peer : NodeID) (pending : AppendInflight) :
    (a.owing o).emitAppend peer pending = (a.emitAppend peer pending).owing o :=
  emit_owing o a _ _

theorem sendAppend_owing (peer : NodeID) (probe : Bool) :
    (a.owing o).sendAppend peer probe = (a.sendAppend peer probe).owing o := by
  rw [sendAppend, sendAppend, show (a.owing o).inflightOf peer = a.inflightOf peer from rfl,
    show (a.owing o).clampNext peer = a.clampNext peer from rfl,
    show (a.owing o).log = a.log from rfl]
  split
  · exact emitAppend_owing o a _ _
  · simp only [setNextIndex_owing]
    rw [show ∀ b : Node, (b.owing o).log = b.log from fun _ => rfl]
    split
    · rfl
    · rw [setInflight_owing, emitAppend_owing]
      rfl

theorem broadcastAppend_owing (probe : Bool) :
    (a.owing o).broadcastAppend probe = (a.broadcastAppend probe).owing o := by
  refine List.foldl_hom (owing o) fun b peer => ?_
  rw [owing_ite, sendAppend_owing]
  rfl

theorem sendHeartbeats_owing : (a.owing o).sendHeartbeats = a.sendHeartbeats.owing o :=
  broadcastAppend_owing o a false

theorem broadcastAvailableAppend_owing :
    (a.owing o).broadcastAvailableAppend = a.broadcastAvailableAppend.owing o := by
  refine List.foldl_hom (owing o) fun b peer => ?_
  rw [owing_ite, sendAppend_owing]
  rfl

theorem lower_owing (index : Nat) :
    (if index < (a.owing o).unstableIndex then { a.owing o with unstableIndex := index }
      else a.owing o) =
      (if index < a.unstableIndex then { a with unstableIndex := index } else a).owing o := by
  have hu : (a.owing o).unstableIndex = min o.unstableIndex a.unstableIndex := rfl
  rw [hu]
  by_cases ha : index < a.unstableIndex
  · rw [if_pos ha]
    split
    · rename_i ho
      simp [owing, min_eq_right (ho.le.trans (min_le_left _ _))]
    · simp only [owing, mk.injEq, true_and, and_true]
      omega
  · rw [if_neg ha, if_neg fun ho => ha (ho.trans_le (min_le_right _ _))]

theorem appendLocal_owing (type : EntryType) (data : Bytes) :
    (a.owing o).appendLocal type data =
      ((a.appendLocal type data).1.owing o, (a.appendLocal type data).2) := by
  have hlow := lower_owing o { a with log := (a.log.appendLocal a.hardState.term type data).1 }
    (a.log.appendLocal a.hardState.term type data).2
  have hmatched : ∀ (b : Node) (index : Nat),
      (if (b.owing o).matchIndex.isSome then
        ((b.owing o).setMatchIndex (b.owing o).config.id index).setNextIndex (b.owing o).config.id
          (index + 1) else b.owing o) =
      (if b.matchIndex.isSome then
        (b.setMatchIndex b.config.id index).setNextIndex b.config.id (index + 1) else b).owing o := by
    intro b index
    rw [owing_ite, setMatchIndex_owing, setNextIndex_owing]
    rfl
  rw [appendLocal, appendLocal, Prod.mk.injEq]
  refine ⟨?_, rfl⟩
  rw [← hmatched, ← hlow]
  rfl

theorem commitCandidate_owing (index : Nat) :
    (a.owing o).commitCandidate index = a.commitCandidate index := by
  induction index with
  | zero => rfl
  | succ index ih =>
    rw [commitCandidate, commitCandidate, ih]
    rfl

theorem advanceCommit_owing :
    (a.owing o).advanceCommit = (a.advanceCommit.1.owing o, a.advanceCommit.2) := by
  rw [advanceCommit, advanceCommit, commitCandidate_owing, show (a.owing o).role = a.role from rfl,
    show (a.owing o).log = a.log from rfl]
  split
  · rfl
  · split <;> rfl

theorem becomeLeader_owing : (a.owing o).becomeLeader = a.becomeLeader.owing o := by
  rw [becomeLeader, becomeLeader, show (a.owing o).takeLead = a.takeLead.owing o from rfl,
    appendLocal_owing, advanceCommit_owing, broadcastAppend_owing]

theorem campaign_owing (rnd : Rand) :
    (a.owing o).campaign rnd = (a.campaign rnd).owing o := by
  simp [campaign, owing, resetElectionTimeout]

theorem requestVotes_owing : (a.owing o).requestVotes = a.requestVotes.owing o := by
  refine List.foldl_hom (owing o) fun b peer => ?_
  rw [owing_ite, ← emit_owing]
  rfl

theorem startElection_owing (rnd : Rand) :
    (a.owing o).startElection rnd = (a.startElection rnd).owing o := by
  rw [startElection, startElection, campaign_owing, becomeLeader_owing, requestVotes_owing, owing_ite]
  rfl

theorem handleRequestVote_owing (m : Message) (req : RequestVoteReq) :
    (a.owing o).handleRequestVote m req = (a.handleRequestVote m req).owing o := by
  rw [handleRequestVote, handleRequestVote, show (a.owing o).hardState = a.hardState from rfl,
    show (a.owing o).candidateLogIsUpToDate = a.candidateLogIsUpToDate from rfl]
  simp only
  rw [sendRequestVoteResponse, sendRequestVoteResponse]
  split
  · split
    · simp [emit, owing]
    · exact emit_owing o { a with electionElapsed := 0 } m.fromID _
  · exact emit_owing o a m.fromID _

theorem handleRequestVoteResponse_owing (m : Message) (resp : RequestVoteResp) :
    (a.owing o).handleRequestVoteResponse m resp = (a.handleRequestVoteResponse m resp).owing o := by
  rw [handleRequestVoteResponse, handleRequestVoteResponse,
    show (a.owing o).role = a.role from rfl, show (a.owing o).isPeer = a.isPeer from rfl,
    show (a.owing o).votes = a.votes from rfl]
  split
  · rfl
  · split <;> rw [owing_ite, ← becomeLeader_owing] <;> rfl

theorem storeAppend_owing (entries : List (Option Entry)) :
    (a.owing o).storeAppend entries = (a.storeAppend entries).owing o := by
  have hlow := lower_owing o { a with log := (a.log.appendFromLeader entries).1 }
    (a.log.appendFromLeader entries).2
  rw [storeAppend, storeAppend]
  by_cases hchanged : (a.log.appendFromLeader entries).2 = 0
  · simp [hchanged, owing]
  · have hlog : (a.owing o).log = a.log := rfl
    simp only [hlog, hchanged, ne_eq, not_false_eq_true, decide_true, Bool.true_and,
      decide_eq_true_eq]
    exact hlow

theorem acceptAppend_owing (m : Message) (req : AppendEntriesReq) (index : Nat) :
    (a.owing o).acceptAppend m req index = (a.acceptAppend m req index).owing o := by
  have hcommit : ∀ b : Node,
      (if req.leaderCommit > (b.owing o).commitIndex then
        { b.owing o with commitIndex := min req.leaderCommit index } else b.owing o) =
      (if req.leaderCommit > b.commitIndex then
        { b with commitIndex := min req.leaderCommit index } else b).owing o := by
    intro b
    rw [owing_ite]
    rfl
  rw [acceptAppend, acceptAppend, storeAppend_owing, hcommit]
  exact emit_owing o _ _ _

theorem heedLeader_owing : (a.owing o).heedLeader = a.heedLeader.owing o := by
  rw [heedLeader, heedLeader, show (a.owing o).role = a.role from rfl]
  split <;> rfl

theorem handleAppendEntries_owing (m : Message) (req : AppendEntriesReq) :
    (a.owing o).handleAppendEntries m req = (a.handleAppendEntries m req).owing o := by
  rw [handleAppendEntries, handleAppendEntries, heedLeader_owing]
  split
  · exact emit_owing o _ _ _
  · rw [owing_ite, ← acceptAppend_owing]
    refine if_congr Iff.rfl rfl ?_
    exact emit_owing o _ _ _

theorem acknowledge_owing (peer : NodeID) (index : Nat) :
    (a.owing o).acknowledge peer index = (a.acknowledge peer index).owing o := by
  have hmatched : ∀ b : Node, (b.owing o).matchIndexOf peer = b.matchIndexOf peer := fun _ => rfl
  have hnext : ∀ b : Node, (b.owing o).nextIndexOf peer = b.nextIndexOf peer := fun _ => rfl
  have hlog : ∀ b : Node, (b.owing o).log = b.log := fun _ => rfl
  simp only [acknowledge, setInflight_owing, hmatched, setMatchIndex_owing, ← owing_ite,
    setNextIndex_owing, advanceCommit_owing, hnext, hlog, sendAppend_owing]

theorem backOff_owing (peer : NodeID) :
    (a.owing o).backOff peer = (a.backOff peer).owing o := by
  have hmatched : ∀ b : Node, (b.owing o).matchIndexOf peer = b.matchIndexOf peer := fun _ => rfl
  have hnext : ∀ b : Node, (b.owing o).nextIndexOf peer = b.nextIndexOf peer := fun _ => rfl
  have hlog : ∀ b : Node, (b.owing o).log = b.log := fun _ => rfl
  simp only [backOff, setInflight_owing, hmatched, hnext, hlog, setNextIndex_owing, ← owing_ite,
    sendAppend_owing]

theorem handleAppendEntriesResponse_owing (m : Message) (resp : AppendEntriesResp) :
    (a.owing o).handleAppendEntriesResponse m resp =
      (a.handleAppendEntriesResponse m resp).owing o := by
  rw [handleAppendEntriesResponse, handleAppendEntriesResponse,
    show (a.owing o).inflightOf m.fromID = a.inflightOf m.fromID from rfl, owing_ite]
  refine if_congr Iff.rfl rfl ?_
  split
  · rfl
  · simp only [owing_ite, acknowledge_owing, backOff_owing]
    rfl

theorem becomeFollower_owing (rnd : Rand) (term : Nat) :
    (a.owing o).becomeFollower rnd term = (a.becomeFollower rnd term).owing o := by
  rw [becomeFollower, becomeFollower, show (a.owing o).hardState = a.hardState from rfl]
  split
  · simp [owing, resetElectionTimeout]
  · rfl

theorem handle_owing (m : Message) : (a.owing o).handle m = (a.handle m).owing o := by
  rw [handle, handle]
  split
  · exact handleRequestVote_owing o a m _
  · exact handleAppendEntries_owing o a m _
  · exact handleRequestVoteResponse_owing o a m _
  · exact handleAppendEntriesResponse_owing o a m _
  · rfl

theorem rejectLowerTermRequest_owing (m : Message) :
    (a.owing o).rejectLowerTermRequest m = (a.rejectLowerTermRequest m).owing o := by
  rw [rejectLowerTermRequest, rejectLowerTermRequest]
  split
  · exact emit_owing o a _ _
  · exact emit_owing o a _ _
  · rfl

theorem tick_owing (rnd : Rand) : (a.owing o).tick rnd = (a.tick rnd).owing o := by
  rw [tick, tick, show (a.owing o).role = a.role from rfl]
  split
  · simp only [owing_ite]
    rw [← sendHeartbeats_owing]
    rfl
  · simp only [owing_ite]
    rw [← startElection_owing]
    rfl

theorem step_owing (rnd : Rand) (m : Option Message) :
    (a.owing o).step rnd m = (a.step rnd m).owing o := by
  cases m with
  | none => rfl
  | some m =>
    simp only [step, owing_ite, becomeFollower_owing, handle_owing, rejectLowerTermRequest_owing]
    rfl

theorem propose_owing (data : Bytes) :
    ((a.owing o).propose data).1 = (a.propose data).1.owing o := by
  rw [propose, propose, show (a.owing o).role = a.role from rfl]
  split
  · rfl
  · simp only [appendLocal_owing, advanceCommit_owing, broadcastAvailableAppend_owing]

end Node

section Alike

variable {a b : Node} {f : Node → Node}

theorem Node.eq_owing {u : Nat} (h : a.unstableIndex ≤ u) :
    a = { a.core with unstableIndex := u }.owing a.owed := by
  cases a
  simpa [core, owing, owed] using h

theorem Node.run_alike (hf : ∀ (o : Owed) (a : Node), f (a.owing o) = (f a).owing o)
    (h : a.core = b.core) :
    (f a).core = (f b).core ∧
      ∃ out, (f a).messages = a.messages ++ out ∧ (f b).messages = b.messages ++ out := by
  have ha := Node.eq_owing (le_max_left a.unstableIndex b.unstableIndex)
  have hb := Node.eq_owing (le_max_right a.unstableIndex b.unstableIndex)
  rw [← h] at hb
  generalize { a.core with unstableIndex := max a.unstableIndex b.unstableIndex } = z at ha hb
  have hfa : f a = (f z).owing a.owed := by rw [← hf, ← ha]
  have hfb : f b = (f z).owing b.owed := by rw [← hf, ← hb]
  rw [hfa, hfb]
  exact ⟨rfl, (f z).messages, rfl, rfl⟩

theorem Node.hardState_eq_of_core (h : a.core = b.core) : a.hardState = b.hardState := by
  rw [show a.hardState = a.core.hardState from rfl, h]
  rfl

theorem Node.log_eq_of_core (h : a.core = b.core) : a.log = b.log := by
  rw [show a.log = a.core.log from rfl, h]
  rfl

theorem Node.commitIndex_eq_of_core (h : a.core = b.core) : a.commitIndex = b.commitIndex := by
  rw [show a.commitIndex = a.core.commitIndex from rfl, h]
  rfl

theorem Node.lastApplied_run (hf : ∀ (o : Owed) (a : Node), f (a.owing o) = (f a).owing o) :
    (f a).lastApplied = a.lastApplied := by
  have h := hf a.owed { a.core with unstableIndex := a.unstableIndex }
  rw [← Node.eq_owing le_rfl] at h
  rw [h]
  rfl

end Alike

end MiniQuorum.Raft
