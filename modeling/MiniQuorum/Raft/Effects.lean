import MiniQuorum.Raft.Node
import Mathlib.Logic.Relation

/-! What a node does with any input at all, as a sequence of effects.  The handlers are taken
apart here once. -/

namespace MiniQuorum.Raft

namespace Node

def recordVote (a : Node) (id : NodeID) : Node :=
  match a.votes with
  | none => { a with panicked := true }
  | some votes => { a with votes := some (insert id votes) }

def accepted (a : Node) (req : AppendEntriesReq) : Node :=
  let n := a.storeAppend req.entries
  if req.leaderCommit > n.commitIndex then
    { n with commitIndex := min req.leaderCommit (req.prevLogIndex + req.entries.length) }
  else n

end Node

/-- One effect of an input.  The leader's own entries are `fresh`, and the requests a follower
accepts are `taken`. -/
inductive Effect (fresh : EntryType → Bytes → Prop) (taken : Node → AppendEntriesReq → Prop) :
    Node → Node → Prop
  | timers {a} (election heartbeat : Int) :
    Effect fresh taken a { a with electionElapsed := election, heartbeatElapsed := heartbeat }
  | emit {a body} (dest : NodeID) (hbody : ∀ req, body = .appendEntries req →
      ∀ e, some e ∈ req.entries → e ∈ a.log.entries) :
    Effect fresh taken a (a.emit dest body)
  | next {a} (hrole : a.role = .leader) (peer : NodeID) (index : Nat) :
    Effect fresh taken a (a.setNextIndex peer index)
  | matched {a} (hrole : a.role = .leader) (peer : NodeID) (index : Nat) :
    Effect fresh taken a (a.setMatchIndex peer index)
  | inflight {a} (hrole : a.role = .leader) (peer : NodeID) (pending : Option AppendInflight) :
    Effect fresh taken a (a.setInflight peer pending)
  | commit {a index} (hrole : a.role = .leader) (hindex : a.commitIndex < index) :
    Effect fresh taken a { a with commitIndex := index }
  | newTerm {a term} (rnd : Rand) (hterm : a.hardState.term < term) :
    Effect fresh taken a (a.becomeFollower rnd term)
  | heed {a} : Effect fresh taken a a.heedLeader
  | grant {a candidate} (hvoted : a.hardState.votedFor = 0) :
    Effect fresh taken a
      { a with hardState := ⟨a.hardState.term, candidate⟩, hardStateDirty := true }
  | vote {a} (hrole : a.role = .candidate) (id : NodeID) : Effect fresh taken a (a.recordVote id)
  | lead {a} (hrole : a.role = .candidate) : Effect fresh taken a a.takeLead
  | append {a type data} (hrole : a.role = .leader) (hfresh : fresh type data) :
    Effect fresh taken a (a.appendLocal type data).1
  | accept {a req} (hrole : a.role = .follower)
    (hmatch : a.log.matchesAt req.prevLogIndex req.prevLogTerm = true)
    (hlast : appendRequestLastIndex req = some (req.prevLogIndex + req.entries.length))
    (hnum : contiguousFrom (req.prevLogIndex + 1) req.entries = true) (htaken : taken a req) :
    Effect fresh taken a (a.accepted req)

def Effects (fresh : EntryType → Bytes → Prop) (taken : Node → AppendEntriesReq → Prop) :
    Node → Node → Prop :=
  Relation.ReflTransGen (Effect fresh taken)

theorem RaftLog.mem_of_entry {l : RaftLog} {index : Nat} {e : Entry}
    (h : l.entry index = some e) : e ∈ l.entries := by
  rw [RaftLog.entry] at h
  split at h
  · cases h
  · split at h
    · cases h
    · split at h
      · cases h
      · next e' he' =>
        split at h
        · cases h
        · cases h
          exact List.mem_of_getElem? he'

theorem RaftLog.mem_of_rangeEntries {l : RaftLog} {lo hi : Nat} {e : Entry}
    (h : e ∈ l.rangeEntries lo hi) : e ∈ l.entries := by
  rw [RaftLog.rangeEntries] at h
  generalize hi - lo = count at h
  induction count generalizing lo with
  | zero => cases h
  | succ count ih =>
    rw [RaftLog.rangeLoop] at h
    split at h
    · cases h
    · next e' he' =>
      rcases List.mem_cons.mp h with rfl | h
      · exact RaftLog.mem_of_entry he'
      · exact ih h

theorem appendRequestLastIndex_eq_some {req : AppendEntriesReq} {last : Nat}
    (h : appendRequestLastIndex req = some last) :
    contiguousFrom (req.prevLogIndex + 1) req.entries = true ∧
      last = req.prevLogIndex + req.entries.length := by
  rw [appendRequestLastIndex] at h
  split at h
  · cases h
  · split at h
    · next hnum => exact ⟨hnum, (Option.some.inj h).symm⟩
    · cases h

theorem commitCandidate_eq_some {a : Node} {k i : Nat} (h : a.commitCandidate k = some i) :
    a.commitIndex < i ∧ a.commitEligible i = true := by
  induction k with
  | zero => cases h
  | succ k ih =>
    rw [Node.commitCandidate] at h
    split at h
    · next hlt =>
      split at h
      · next helig =>
        cases h
        exact ⟨hlt, helig⟩
      · exact ih h
    · cases h

theorem heedLeader_role (a : Node) : a.heedLeader.role = .follower := by
  rw [Node.heedLeader]
  by_cases h : a.role = .follower
  · rw [if_neg (not_not.mpr h)]
    exact h
  · rw [if_pos h]
    rfl

theorem heedLeader_commitIndex (a : Node) : a.heedLeader.commitIndex = a.commitIndex := by
  rw [Node.heedLeader]
  split <;> rfl

theorem heedLeader_log (a : Node) : a.heedLeader.log = a.log := by
  rw [Node.heedLeader]
  split <;> rfl

theorem appendLocal_role (a : Node) (type : EntryType) (data : Bytes) :
    (a.appendLocal type data).1.role = a.role := by
  simp only [Node.appendLocal, Node.setMatchIndex, Node.setNextIndex]
  split_ifs <;> (try split) <;> (try split) <;> rfl

namespace Effects

variable {fresh : EntryType → Bytes → Prop} {taken : Node → AppendEntriesReq → Prop} {a b c : Node}

theorem ite {p : Prop} [Decidable p] (h : p → Effects fresh taken a b)
    (h' : ¬p → Effects fresh taken a c) : Effects fresh taken a (if p then b else c) := by
  split
  · exact h ‹_›
  · exact h' ‹_›

theorem emit_response (h : Effects fresh taken a b) (dest : NodeID) {body : Body}
    (hbody : ∀ req, body ≠ .appendEntries req) : Effects fresh taken a (b.emit dest body) :=
  h.tail (.emit dest fun req hreq => absurd hreq (hbody req))

/-! ### Leaders -/

def Leads (fresh : EntryType → Bytes → Prop) (taken : Node → AppendEntriesReq → Prop)
    (a b : Node) : Prop :=
  Effects fresh taken a b ∧ b.role = .leader

namespace Leads

theorem refl (h : a.role = .leader) : Leads fresh taken a a := ⟨.refl, h⟩

theorem setNextIndex (h : Leads fresh taken a b) (peer : NodeID) (index : Nat) :
    Leads fresh taken a (b.setNextIndex peer index) := by
  refine ⟨h.1.tail (.next h.2 peer index), ?_⟩
  rw [Node.setNextIndex]
  split <;> exact h.2

theorem setMatchIndex (h : Leads fresh taken a b) (peer : NodeID) (index : Nat) :
    Leads fresh taken a (b.setMatchIndex peer index) := by
  refine ⟨h.1.tail (.matched h.2 peer index), ?_⟩
  rw [Node.setMatchIndex]
  split <;> exact h.2

theorem setInflight (h : Leads fresh taken a b) (peer : NodeID) (pending : Option AppendInflight) :
    Leads fresh taken a (b.setInflight peer pending) := by
  refine ⟨h.1.tail (.inflight h.2 peer pending), ?_⟩
  rw [Node.setInflight]
  split <;> exact h.2

theorem ite {p : Prop} [Decidable p] (h : Leads fresh taken a b) (h' : Leads fresh taken a c) :
    Leads fresh taken a (if p then b else c) := by
  split
  · exact h
  · exact h'

theorem emitAppend (h : Leads fresh taken a b) (peer : NodeID) (pending : AppendInflight) :
    Leads fresh taken a (b.emitAppend peer pending) := by
  refine ⟨h.1.tail (.emit peer ?_), h.2⟩
  rintro req ⟨⟩ e he
  obtain ⟨e', he', heq⟩ := List.mem_map.mp he
  cases heq
  split at he'
  · exact RaftLog.mem_of_rangeEntries he'
  · cases he'

theorem sendAppend (h : Leads fresh taken a b) (peer : NodeID) (probe : Bool) :
    Leads fresh taken a (b.sendAppend peer probe) := by
  rw [Node.sendAppend]
  split
  · exact h.emitAppend peer _
  · dsimp only
    split
    · exact h.setNextIndex peer _
    · exact ((h.setNextIndex peer _).setInflight peer _).emitAppend peer _

theorem broadcastAppend (h : Leads fresh taken a b) (probe : Bool) :
    Leads fresh taken a (b.broadcastAppend probe) :=
  List.foldlRecOn b.peers _ h fun _ hn peer _ => ite hn (hn.sendAppend peer probe)

theorem broadcastAvailableAppend (h : Leads fresh taken a b) :
    Leads fresh taken a b.broadcastAvailableAppend :=
  List.foldlRecOn b.peers _ h fun _ hn peer _ => ite hn (hn.sendAppend peer false)

theorem advanceCommit (h : Leads fresh taken a b) : Leads fresh taken a b.advanceCommit.1 := by
  rw [Node.advanceCommit]
  split
  · exact h
  · split
    · exact h
    · next index hindex => exact ⟨h.1.tail (.commit h.2 (commitCandidate_eq_some hindex).1), h.2⟩

theorem appendLocal (h : Leads fresh taken a b) {type : EntryType} {data : Bytes}
    (hfresh : fresh type data) : Leads fresh taken a (b.appendLocal type data).1 :=
  ⟨h.1.tail (.append h.2 hfresh), (appendLocal_role b type data).trans h.2⟩

theorem acknowledge (h : Leads fresh taken a b) (peer : NodeID) (acknowledged : Nat) :
    Leads fresh taken a (b.acknowledge peer acknowledged) := by
  have hcleared := h.setInflight peer none
  have hmatched := fun i => ((ite (p := acknowledged > (b.setInflight peer none).matchIndexOf peer)
    (hcleared.setMatchIndex peer acknowledged) hcleared).setNextIndex peer i).advanceCommit
  exact ite ((hmatched _).sendAppend peer false) (hmatched _)

theorem backOff (h : Leads fresh taken a b) (peer : NodeID) :
    Leads fresh taken a (b.backOff peer) := by
  have hcleared := h.setInflight peer none
  exact (ite (hcleared.setNextIndex peer _) hcleared).sendAppend peer false

end Leads

theorem becomeLeader (h : Effects fresh taken a b) (hrole : b.role = .candidate)
    (hnoop : fresh .noop []) : Effects fresh taken a b.becomeLeader := by
  have hlead : Leads fresh taken a b.takeLead := ⟨h.tail (.lead hrole), rfl⟩
  exact ((hlead.appendLocal hnoop).advanceCommit.broadcastAppend true).1

theorem startElection (rnd : Rand) (hnoop : fresh .noop []) :
    Effects fresh taken (a.campaign rnd) (a.startElection rnd) := by
  refine ite (fun _ => becomeLeader .refl rfl hnoop) fun _ => ?_
  refine List.foldlRecOn (motive := Effects fresh taken (a.campaign rnd)) _ _ .refl ?_
  exact fun _ hn peer _ => ite (fun _ => hn) fun _ => hn.emit_response peer nofun

theorem tick (rnd : Rand) (hnoop : fresh .noop []) :
    Effects fresh taken a (a.tick rnd) ∨ a.role ≠ .leader ∧
      ∃ election, Effects fresh taken
        (Node.campaign rnd { a with electionElapsed := election }) (a.tick rnd) := by
  rw [Node.tick]
  split
  · next hrole =>
    refine .inl (ite (fun _ => ?_) fun _ => .single (.timers ..))
    have hbeat : Leads fresh taken a { a with heartbeatElapsed := 0 } :=
      ⟨.single (.timers ..), hrole⟩
    exact (hbeat.broadcastAppend false).1
  · next hrole =>
    dsimp only
    split
    · exact .inr ⟨hrole, _, startElection rnd hnoop⟩
    · exact .inl (.single (.timers ..))

theorem handleRequestVote (m : Message) (req : RequestVoteReq) :
    Effects fresh taken a (a.handleRequestVote m req) := by
  refine emit_response (ite (fun _ => ?_) fun _ => .refl) _ nofun
  split
  · next hvoted => exact .tail (.single (.grant hvoted)) (.timers ..)
  · exact .single (.timers ..)

theorem handleRequestVoteResponse (hnoop : fresh .noop []) (m : Message) (resp : RequestVoteResp) :
    Effects fresh taken a (a.handleRequestVoteResponse m resp) := by
  rw [Node.handleRequestVoteResponse]
  refine ite (fun _ => .refl) fun hguard => ?_
  have hrole : a.role = .candidate := by
    simp only [Bool.or_eq_true, decide_eq_true_eq, not_or, not_not] at hguard
    exact hguard.1.1
  have hvote : Effects fresh taken a (a.recordVote m.fromID) := .single (.vote hrole m.fromID)
  have hrole' : (a.recordVote m.fromID).role = .candidate := by
    rw [Node.recordVote]
    split <;> exact hrole
  exact ite (fun _ => hvote.becomeLeader hrole' hnoop) fun _ => hvote

theorem handleAppendEntries (m : Message) {req : AppendEntriesReq}
    (htaken : ∀ b, b.log = a.log → b.commitIndex = a.commitIndex → taken b req) :
    Effects fresh taken a (a.handleAppendEntries m req) := by
  have hheed : Effects fresh taken a a.heedLeader := .single .heed
  rw [Node.handleAppendEntries]
  split
  · exact hheed.emit_response _ nofun
  · next last hlast =>
    refine ite (fun hmatch => ?_) fun _ => hheed.emit_response _ nofun
    obtain ⟨hnum, rfl⟩ := appendRequestLastIndex_eq_some hlast
    exact emit_response (hheed.tail (.accept (heedLeader_role a) hmatch hlast hnum
      (htaken _ (heedLeader_log a) (heedLeader_commitIndex a)))) _ nofun

theorem handleAppendEntriesResponse (m : Message) (resp : AppendEntriesResp) :
    Effects fresh taken a (a.handleAppendEntriesResponse m resp) := by
  rw [Node.handleAppendEntriesResponse]
  refine ite (fun _ => .refl) fun hguard => ?_
  have hlead : Leads fresh taken a a := by
    simp only [Bool.or_eq_true, decide_eq_true_eq, not_or, not_not] at hguard
    exact .refl hguard.1.1
  split
  · exact .refl
  · exact ite (fun _ => ite (fun _ => .refl) fun _ => (hlead.acknowledge _ _).1)
      fun _ => (hlead.backOff _).1

theorem handle (hnoop : fresh .noop []) {m : Message}
    (htaken : ∀ req, m.body = .appendEntries req →
      ∀ b, b.log = a.log → b.commitIndex = a.commitIndex → taken b req) :
    Effects fresh taken a (a.handle m) := by
  rw [Node.handle]
  split
  · exact handleRequestVote m _
  · next req hbody => exact handleAppendEntries m (htaken req hbody)
  · exact handleRequestVoteResponse hnoop m _
  · exact handleAppendEntriesResponse m _
  · exact .refl

theorem step (rnd : Rand) (hnoop : fresh .noop []) {m : Message}
    (htaken : ∀ req, m.body = .appendEntries req → ¬messageTerm m < a.hardState.term →
      ∀ b, b.log = a.log → b.commitIndex = a.commitIndex → taken b req) :
    Effects fresh taken a (a.step rnd (some m)) := by
  rw [Node.step]
  refine ite (fun hlt => ?_) fun _ => ite (fun _ => ?_) fun hge =>
    handle hnoop fun req hbody => htaken req hbody hge
  · refine .head (.newTerm rnd hlt) (handle hnoop fun req hbody b hlog hcommit => ?_)
    rw [Node.becomeFollower, if_pos hlt.ne'] at hlog hcommit
    exact htaken req hbody (Nat.not_lt_of_gt hlt) b hlog hcommit
  · rw [Node.rejectLowerTermRequest]
    split
    · exact emit_response .refl _ nofun
    · exact emit_response .refl _ nofun
    · exact .refl

theorem propose {data : Bytes} (hfresh : fresh .normal data) :
    Effects fresh taken a (a.propose data).1 := by
  rw [Node.propose]
  split
  · exact .refl
  · next hrole =>
    exact ((Leads.refl (not_not.mp hrole)).appendLocal hfresh).advanceCommit.broadcastAvailableAppend.1

end Effects

end MiniQuorum.Raft
