import MiniQuorum.Consensus.Safety
import MiniQuorum.Raft.Contiguous
import MiniQuorum.Server.Cluster

/-! What ties disks, messages and running nodes to the abstract replicated log.  The
abstract term, ballot and log of a node are the durable ones. -/

namespace MiniQuorum.Server

open Raft Storage Consensus Consensus.Replog

abbrev Global := Replog NodeID Entry

def Group.members (g : Group) : Finset NodeID := g.peers.toFinset

structure LogInv (g : Group) (s : Global) : Prop extends Inv g.members Entry.term s where
  numbered : ∀ t, NumberedFrom 1 (s.leaderLog t)
  own : ∀ {t}, s.leader t ≠ none → ∃ k, s.OwnAt Entry.term t k

def Agrees (g : Group) (s : Global) (b : Nat) (l : List Entry) (k : Nat) : Prop :=
  Agreed g.members Entry.term s b l k

def ballotOf (votedFor : NodeID) : Option NodeID :=
  if votedFor = 0 then none else some votedFor

structure DiskInv (s : Global) (n : NodeID) (disk : MemStorage) : Prop where
  term : s.term n = disk.hard.term
  ballot : s.ballot n disk.hard.term = ballotOf disk.hard.votedFor
  log : s.log n = disk.entries

structure AppendInv (g : Group) (s : Global) (m : Message) (req : AppendEntriesReq) : Prop where
  leads : s.leader m.term = some m.fromID
  prev : termAt (s.leaderLog m.term) req.prevLogIndex = some req.prevLogTerm
  window : ∃ es, req.entries = es.map some ∧
    (s.leaderLog m.term).take req.prevLogIndex ++ es <+: s.leaderLog m.term
  commit : Agrees g s m.term (s.leaderLog m.term) req.leaderCommit
  commit_le : req.leaderCommit ≤ req.prevLogIndex + req.entries.length

def BodyInv (g : Group) (s : Global) (m : Message) : Body → Prop
  | .requestVote req =>
    req.term = m.term ∧ req.candidateId = m.fromID ∧
      ∃ L, s.candLog m.term m.fromID = some L ∧ L.length = req.lastLogIndex ∧
        lastTerm Entry.term L = req.lastLogTerm
  | .requestVoteResp resp =>
    resp.term = m.term ∧ (resp.voteGranted = true → s.ballot m.fromID m.term = some m.toID)
  | .appendEntries req => req.term = m.term ∧ AppendInv g s m req
  | .appendEntriesResp resp =>
    resp.term = m.term ∧ (resp.success = true → resp.matchIndex ≤ s.acked m.fromID m.term)
  | .other => True

structure MsgInv (g : Group) (s : Global) (m : Message) : Prop where
  sender : m.fromID ∈ g.peers
  term : m.term ≤ s.term m.fromID
  body : BodyInv g s m m.body

/-- A request in flight describes a window of the leader's log. -/
structure PendingInv (g : Group) (s : Global) (term : Nat) (log : List Entry)
    (w : AppendInflight) : Prop where
  prev : termAt log w.prevIndex = some w.prevTerm
  prev_le : w.prevIndex ≤ w.lastIndex
  last_le : w.lastIndex ≤ log.length
  empty : w.hasEntries = false → w.lastIndex = w.prevIndex
  commit : Agrees g s term log w.leaderCommit
  commit_le : w.leaderCommit ≤ w.lastIndex

structure CandidateInv (g : Group) (s : Global) (n : NodeID) (term : Nat) (log : List Entry)
    (votes : Option (Finset NodeID)) : Prop where
  leads : s.leader term ≠ some n
  candLog : s.candLog term n = some log
  voters : ∃ V, votes = some V ∧ ∀ p ∈ V, p ∈ g.peers ∧ s.ballot p term = some n

structure LeaderInv (g : Group) (s : Global) (n : NodeID) (node : Node) : Prop where
  leads : s.leader node.hardState.term = some n
  leaderLog : s.leaderLog node.hardState.term = node.log.entries
  next : node.nextIndex.isSome
  matched : node.matchIndex.isSome
  inflight : node.inflight.isSome
  acked : ∀ p, node.matchIndexOf p ≤ s.acked p node.hardState.term
  pending : ∀ p w, node.inflightOf p = some w →
    PendingInv g s node.hardState.term node.log.entries w

def Message.isAppend (m : Message) : Prop := ∃ req, m.body = .appendEntries req

structure NodeInv (g : Group) (s : Global) (n : NodeID) (node : Node) : Prop where
  id : node.config.id = n
  member : n ∈ g.peers
  peers : node.peers = orderedPeers g.peers
  sound : node.panicked = false
  contiguous : node.log.Contiguous
  term : s.term n = node.hardState.term
  ballot : s.ballot n node.hardState.term = ballotOf node.hardState.votedFor
  log : s.log n = node.log.entries
  commit : Agrees g s node.hardState.term node.log.entries node.commitIndex
  applied : node.lastApplied ≤ node.commitIndex
  self : node.role ≠ .follower → node.hardState.votedFor = n
  candidate : node.role = .candidate →
    CandidateInv g s n node.hardState.term node.log.entries node.votes
  leader : node.role = .leader → LeaderInv g s n node
  messages : ∀ m ∈ node.messages, m.fromID = n ∧ m.term = node.hardState.term ∧
    MsgInv g s m ∧ (Message.isAppend m → node.role = .leader)

section Monotone

variable {g : Group} {s s' : Global} {n : NodeID}

theorem Agrees.mono (h : Grows s s') {b b' : Nat} {l : List Entry} {k : Nat}
    (ha : Agrees g s b l k) (hb : b ≤ b') : Agrees g s' b' l k :=
  Agreed.mono h ha hb

theorem Agrees.congr {b : Nat} {l l' : List Entry} {k k' : Nat} (ha : Agrees g s b l k)
    (hk : k' ≤ k) (hl : l.take k' <+: l') : Agrees g s b l' k' :=
  Agreed.congr ha hk hl

theorem Agrees.extend {b : Nat} {l l' : List Entry} {k : Nat} (ha : Agrees g s b l k)
    (hl : l <+: l') : Agrees g s b l' k :=
  ha.congr le_rfl <| List.take_prefix _ _ |>.trans hl

theorem AppendInv.mono (h : Grows s s') {m : Message} {req : AppendEntriesReq}
    (ha : AppendInv g s m req) : AppendInv g s' m req where
  leads := h.leader ha.leads
  prev := by
    rw [termAt_isPrefix (h.leaderLog _) (termAt_le_length ha.prev)]
    exact ha.prev
  window := by
    obtain ⟨es, hes, hw⟩ := ha.window
    refine ⟨es, hes, ?_⟩
    rw [take_prefix_mono (h.leaderLog _) (termAt_le_length ha.prev)]
    exact hw.trans (h.leaderLog _)
  commit := (ha.commit.mono h le_rfl).extend (h.leaderLog _)
  commit_le := ha.commit_le

theorem MsgInv.mono (h : Grows s s') {m : Message} (hm : MsgInv g s m) : MsgInv g s' m where
  sender := hm.sender
  term := hm.term.trans (h.term _)
  body := by
    have hbody := hm.body
    cases hb : m.body with
    | requestVote req =>
      rw [hb] at hbody
      obtain ⟨ht, hc, L, hL, hrest⟩ := hbody
      exact ⟨ht, hc, L, h.candLog hL, hrest⟩
    | requestVoteResp resp =>
      rw [hb] at hbody
      exact ⟨hbody.1, fun hg => h.ballot (hbody.2 hg)⟩
    | appendEntries req =>
      rw [hb] at hbody
      exact ⟨hbody.1, hbody.2.mono h⟩
    | appendEntriesResp resp =>
      rw [hb] at hbody
      exact ⟨hbody.1, fun hs => (hbody.2 hs).trans (h.acked _ _)⟩
    | other => trivial

theorem PendingInv.mono (h : Grows s s') {t : Nat} {l l' : List Entry} {w : AppendInflight}
    (hw : PendingInv g s t l w) (hl : l <+: l') : PendingInv g s' t l' w where
  prev := by
    rw [termAt_isPrefix hl (hw.prev_le.trans hw.last_le)]
    exact hw.prev
  __ := hw
  last_le := hw.last_le.trans hl.length_le
  commit := (hw.commit.mono h le_rfl).extend hl

theorem DiskInv.frame {m : NodeID} (h : Acts n s s') (hm : m ≠ n) {disk : MemStorage}
    (hd : DiskInv s m disk) : DiskInv s' m disk where
  term := (h.term_other hm).trans hd.term
  ballot := (h.ballot_other hm).trans hd.ballot
  log := (h.log_other hm).trans hd.log

theorem NodeInv.frame {m : NodeID} (h : Acts n s s') (hm : m ≠ n) {node : Node}
    (hn : NodeInv g s m node) : NodeInv g s' m node where
  __ := hn
  term := (h.term_other hm).trans hn.term
  ballot := (h.ballot_other hm).trans hn.ballot
  log := (h.log_other hm).trans hn.log
  commit := hn.commit.mono h.toGrows le_rfl
  candidate hrole := by
    have hc := hn.candidate hrole
    obtain ⟨V, hV, hvotes⟩ := hc.voters
    refine ⟨?_, h.candLog hc.candLog, V, hV, ?_⟩
    swap
    · exact fun p hp => ⟨(hvotes p hp).1, h.ballot (hvotes p hp).2⟩
    intro hl
    have hne : s'.leader node.hardState.term ≠ s.leader node.hardState.term := by
      rw [hl]
      exact hc.leads.symm
    rw [h.leader_own hne] at hl
    exact hm (Option.some.inj hl).symm
  leader hrole := by
    have hl := hn.leader hrole
    exact { hl with
      leads := h.leader hl.leads
      leaderLog := (h.leaderLog_eq hl.leads hm).trans hl.leaderLog
      acked := fun p => (hl.acked p).trans (h.acked _ _)
      pending := fun p w hw => (hl.pending p w hw).mono h.toGrows (List.prefix_refl _) }
  messages msg hmsg := by
    obtain ⟨hfrom, hterm, hinv, happ⟩ := hn.messages msg hmsg
    exact ⟨hfrom, hterm, hinv.mono h.toGrows, happ⟩

end Monotone

namespace LogInv

variable {g : Group} {s : Global} {n : NodeID}

theorem numbered_of_valid (hi : LogInv g s) {l : List Entry} (hv : s.Valid Entry.term l) :
    NumberedFrom 1 l := by
  rw [numberedFrom_iff]
  intro k e he
  apply (hi.numbered e.term).getElem?
  apply prefix_getElem? (hv k e he)
  rw [List.getElem?_take, if_pos (Nat.lt_succ_self k)]
  exact he

theorem numbered_log (hi : LogInv g s) (n : NodeID) : NumberedFrom 1 (s.log n) :=
  hi.numbered_of_valid (hi.log_valid n)

theorem bump (hi : LogInv g s) {t : Nat} (h : s.term n ≤ t) : LogInv g (s.bump n t) where
  toInv := hi.toInv.bump h
  __ := hi

theorem vote (hi : LogInv g s) {c : NodeID}
    (h : s.ballot n (s.term n) = none ∨ s.ballot n (s.term n) = some c)
    (hc : s.term n ≤ s.term c)
    (hu : ∀ L, s.candLog (s.term n) c = some L → UpToDate Entry.term L (s.log n)) :
    LogInv g (s.vote n c) where
  toInv := hi.toInv.vote h hc hu
  __ := hi

theorem stand (hi : LogInv g s) (hb : ∀ m, s.ballot m (s.term n) ≠ some n) :
    LogInv g (s.stand n) where
  toInv := hi.toInv.stand hb
  __ := hi

theorem follow (hi : LogInv g s) {l : List Entry} (hlead : s.leader (s.term n) ≠ none)
    (hl : l <+: s.leaderLog (s.term n))
    (hkeep : ∀ p, p <+: s.log n → p <+: s.leaderLog (s.term n) → p <+: l) :
    LogInv g (s.follow n l) where
  toInv := hi.toInv.follow hlead hl hkeep
  __ := hi

theorem ack (hi : LogInv g s) {k : Nat} (hk : k ≤ (s.leaderLog (s.term n)).length)
    (hp : (s.leaderLog (s.term n)).take k <+: s.log n) : LogInv g (s.ack n k) where
  toInv := hi.toInv.ack hk hp
  __ := hi

theorem elect (hi : LogInv g s) {t : Nat} {L : List Entry} {e : Entry} (h : s.leader t = none)
    (hw : s.Won g.members n t) (hL : s.candLog t n = some L) (he : e.term = t)
    (hindex : e.index = L.length + 1) : LogInv g (s.elect n t L e) where
  toInv := hi.toInv.elect h hw hL he
  numbered u := by
    rw [elect_leaderLog]
    split
    · rw [numberedFrom_append]
      refine ⟨hi.numbered_of_valid (hi.cand_valid hL), ?_, trivial⟩
      rw [hindex, Nat.add_comm]
    · exact hi.numbered u
  own {u} hu := by
    by_cases hut : u = t
    · refine ⟨L.length, e, ?_, by rw [hut, he]⟩
      rw [elect_leaderLog, if_pos hut, List.getElem?_concat_length]
    · rw [elect_leader, if_neg hut] at hu
      obtain ⟨k, ho⟩ := hi.own hu
      exact ⟨k, ho.mono (elect_grows hi.toInv h)⟩

theorem extend (hi : LogInv g s) {t : Nat} {e : Entry} (h : s.leader t = some n)
    (he : e.term = t) (hindex : e.index = (s.leaderLog t).length + 1) :
    LogInv g (s.extend t e) where
  toInv := hi.toInv.extend h he
  numbered u := by
    rw [extend_leaderLog]
    split
    · rw [numberedFrom_append]
      refine ⟨hi.numbered t, ?_, trivial⟩
      rw [hindex, Nat.add_comm]
    · exact hi.numbered u
  own {u} hu := by
    obtain ⟨k, ho⟩ := hi.own hu
    exact ⟨k, ho.mono (extend_grows s t e)⟩

theorem agrees_leaderLog (hi : LogInv g s) {b k t : Nat} {l : List Entry}
    (ha : Agrees g s b l k) (hb : b ≤ t) (hl : s.leader t ≠ none) :
    l.take k <+: s.leaderLog t :=
  Agreed.leader_complete hi.toInv ha hb hl

end LogInv

theorem Group.isQuorum {g : Group} {Q : Finset NodeID} (hQ : ∀ p ∈ Q, p ∈ g.peers)
    (hcard : g.peers.length / 2 + 1 ≤ Q.card) : IsQuorum g.members Q where
  subset p hp := List.mem_toFinset.mpr (hQ p hp)
  majority := by
    rw [Group.members, List.toFinset_card_of_nodup g.nodup]
    omega

end MiniQuorum.Server
