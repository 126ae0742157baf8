import MiniQuorum.Server.Leader

/-! One host call as a run of the abstract log.  `s₀` is the durable state the call starts
from and `s` the state that a completed save makes durable. -/

namespace MiniQuorum.Server

open Raft Storage Consensus Consensus.Replog

def Reach (g : Group) (s₀ : Global) (n : NodeID) (disk : MemStorage) : Prop :=
  ∃ s, Acts n s₀ s ∧ LogInv g s ∧ DiskInv s n disk

def SelfVoted (g : Group) (s₀ : Global) (n : NodeID) (term : Nat) : Prop :=
  s₀.ballot n term = some n ∨ g.peers.length ≤ 1

/-- A call before it changed the log or sent anything. -/
structure Fresh (g : Group) (s₀ : Global) (disk : MemStorage) (n : NodeID) (s : Global)
    (node : Node) : Prop where
  acts : Acts n s₀ s
  global : LogInv g s
  inv : NodeInv g s n node
  dirty : node.hardStateDirty = false → node.hardState = disk.hard
  entries : node.log.entries = disk.entries
  unstable : node.unstableIndex = disk.entries.length + 1
  messages : node.messages = []

/-- A call at any later point.  `torn` covers the saves a crash cuts short: after the hard
state, and after the truncation. -/
structure Called (g : Group) (s₀ : Global) (disk : MemStorage) (n : NodeID) (s : Global)
    (node : Node) : Prop where
  acts : Acts n s₀ s
  global : LogInv g s
  inv : NodeInv g s n node
  dirty : node.hardStateDirty = false → node.hardState = disk.hard
  lead : node.role = .leader → SelfVoted g s₀ n node.hardState.term
  hard : Reach g s₀ n ⟨node.hardState, disk.entries⟩
  torn : ∃ k ≤ disk.entries.length, node.unstableIndex = k + 1 ∧
    node.log.entries.take k = disk.entries.take k ∧
    (k = disk.entries.length ∨ k < node.log.entries.length) ∧
    Reach g s₀ n ⟨node.hardState, disk.entries.take k⟩

variable {g : Group} {s₀ s s' : Global} {disk : MemStorage} {n : NodeID} {a b : Node}

theorem NodeInv.diskInv (h : NodeInv g s n a) : DiskInv s n ⟨a.hardState, a.log.entries⟩ :=
  ⟨h.term, h.ballot, h.log⟩

theorem NodeInv.id_ne_zero (h : NodeInv g s n a) : n ≠ 0 := by
  rintro rfl
  exact g.nonzero h.member

theorem NodeInv.ballot_self (h : NodeInv g s n a) (hr : a.role ≠ .follower) :
    s.ballot n a.hardState.term = some n := by
  rw [h.ballot, h.self hr, ballotOf, if_neg h.id_ne_zero]

theorem NodeInv.ballot_leader (h : NodeInv g s n a) (hr : a.role = .leader) :
    s.ballot n a.hardState.term = some n :=
  h.ballot_self (by simp [hr])

theorem Fresh.not_mem (h : Fresh g s₀ disk n s a) {m : Message} : m ∉ a.messages := by
  rw [h.messages]
  exact List.not_mem_nil

theorem Fresh.diskInv (h : Fresh g s₀ disk n s a) : DiskInv s n ⟨a.hardState, disk.entries⟩ := by
  rw [← h.entries]
  exact h.inv.diskInv

theorem Fresh.called (h : Fresh g s₀ disk n s a)
    (hlead : a.role = .leader → SelfVoted g s₀ n a.hardState.term) :
    Called g s₀ disk n s a where
  acts := h.acts
  global := h.global
  inv := h.inv
  dirty := h.dirty
  lead := hlead
  hard := ⟨s, h.acts, h.global, h.diskInv⟩
  torn := by
    refine ⟨_, le_rfl, h.unstable, by rw [h.entries], .inl rfl, ?_⟩
    rw [List.take_length]
    exact ⟨s, h.acts, h.global, h.diskInv⟩

theorem Called.volatile (h : Called g s₀ disk n s a) (hv : Volatile a b) (hb : NodeInv g s n b) :
    Called g s₀ disk n s b where
  acts := h.acts
  global := h.global
  inv := hb
  dirty hd := by
    rw [hv.hardState]
    rw [hv.hardStateDirty] at hd
    exact h.dirty hd
  lead hr := by
    rw [hv.hardState]
    rw [hv.role] at hr
    exact h.lead hr
  hard := by
    rw [hv.hardState]
    exact h.hard
  torn := by
    rw [hv.hardState, hv.unstableIndex, hv.log]
    exact h.torn

theorem Called.emit (h : Called g s₀ disk n s a) {dest : NodeID} {body : Body}
    (hbody : BodyInv g s ⟨n, dest, a.hardState.term, body⟩ body)
    (happ : (∃ req, body = .appendEntries req) → a.role = .leader) :
    Called g s₀ disk n s (a.emit dest body) :=
  h.volatile (Volatile.emit a dest body) (h.inv.emit hbody happ)

section Terms

theorem Fresh.becomeFollower (h : Fresh g s₀ disk n s a) (rnd : Rand) {term : Nat}
    (ht : a.hardState.term < term) :
    ∃ s', Fresh g s₀ disk n s' (a.becomeFollower rnd term) ∧
      (a.becomeFollower rnd term).role = .follower ∧
      (a.becomeFollower rnd term).hardState.term = term ∧ Grows s s' := by
  have hle : s.term n ≤ term := h.inv.term.le.trans ht.le
  refine ⟨s.bump n term, ?_, rfl, ?_, bump_grows hle⟩
  · simp only [Node.becomeFollower, if_pos ht.ne', Node.resetElectionTimeout]
    exact {
      acts := h.acts.trans (bump_acts hle)
      global := h.global.bump hle
      inv := { h.inv with
        term := by simp [Replog.bump]
        ballot := by
          rw [ballotOf, if_pos rfl, Option.eq_none_iff_forall_ne_some]
          intro c hc
          have hterm : term ≤ s.term n := h.global.ballot_term hc
          rw [h.inv.term] at hterm
          omega
        commit := h.inv.commit.mono (bump_grows hle) ht.le
        self := fun hr => absurd rfl hr
        candidate := by rintro ⟨⟩
        leader := by rintro ⟨⟩
        messages := fun _ hm => (h.not_mem hm).elim }
      dirty := by rintro ⟨⟩
      entries := h.entries
      unstable := h.unstable
      messages := h.messages }
  · simp only [Node.becomeFollower, if_pos ht.ne', Node.resetElectionTimeout]

theorem candidateLogIsUpToDate_iff (h : NodeInv g s n a) {L : List Entry} :
    a.candidateLogIsUpToDate L.length (lastTerm Entry.term L) = true ↔
      UpToDate Entry.term L (s.log n) := by
  rw [Node.candidateLogIsUpToDate, h.contiguous.lastTerm, h.contiguous.lastIndex, UpToDate, h.log]
  simp only [Bool.or_eq_true, Bool.and_eq_true, decide_eq_true_eq, beq_iff_eq, gt_iff_lt, ge_iff_le]

theorem Fresh.castVote (h : Fresh g s₀ disk n s a) {c : NodeID} (hc : c ≠ 0)
    (hr : a.role = .follower) (hnone : a.hardState.votedFor = 0)
    (hterm : a.hardState.term ≤ s.term c)
    (hup : ∀ L, s.candLog a.hardState.term c = some L → UpToDate Entry.term L (s.log n)) :
    ∃ s', Fresh g s₀ disk n s'
        { a with hardState := ⟨a.hardState.term, c⟩, hardStateDirty := true } ∧
      s'.ballot n a.hardState.term = some c ∧ Grows s s' := by
  have hfree : s.ballot n (s.term n) = none ∨ s.ballot n (s.term n) = some c := by
    left
    rw [h.inv.term, h.inv.ballot, ballotOf, if_pos hnone]
  have hballot : (s.vote n c).ballot n a.hardState.term = some c := by
    rw [vote_ballot, if_pos ⟨rfl, h.inv.term.symm⟩]
  rw [← h.inv.term] at hterm hup
  refine ⟨s.vote n c, ?_, hballot, vote_grows hfree⟩
  exact {
    acts := h.acts.trans (vote_acts hfree)
    global := h.global.vote hfree hterm hup
    inv := { h.inv with
      ballot := by
        rw [ballotOf, if_neg hc]
        exact hballot
      commit := h.inv.commit.mono (vote_grows hfree) le_rfl
      self := fun hne => absurd hr hne
      candidate := fun hcand => by
        rw [show a.role = .candidate from hcand] at hr
        cases hr
      leader := fun hlead => by
        rw [show a.role = .leader from hlead] at hr
        cases hr
      messages := fun _ hm => (h.not_mem hm).elim }
    dirty := by rintro ⟨⟩
    entries := h.entries
    unstable := h.unstable
    messages := h.messages }

theorem NodeInv.electionElapsed (h : NodeInv g s n a) (ticks : Int) :
    NodeInv g s n { a with electionElapsed := ticks } :=
  { h with leader := fun hr => { h.leader hr with } }

theorem Called.electionElapsed (h : Called g s₀ disk n s a) (ticks : Int) :
    Called g s₀ disk n s { a with electionElapsed := ticks } :=
  h.volatile ⟨rfl, rfl, rfl, rfl, rfl, rfl, rfl, rfl, rfl, le_rfl⟩ (h.inv.electionElapsed ticks)

theorem Called.sendRequestVoteResponse (h : Called g s₀ disk n s a) {dest : NodeID}
    {granted : Bool} (hg : granted = true → s.ballot n a.hardState.term = some dest) :
    Called g s₀ disk n s (a.sendRequestVoteResponse dest granted) :=
  h.emit ⟨rfl, hg⟩ (by rintro ⟨_, ⟨⟩⟩)

theorem Called.sendAppendEntriesResponse (h : Called g s₀ disk n s a) {dest : NodeID}
    {success : Bool} {index : Nat} (hs : success = true → index ≤ s.acked n a.hardState.term) :
    Called g s₀ disk n s (a.sendAppendEntriesResponse dest success index) :=
  h.emit ⟨rfl, hs⟩ (by rintro ⟨_, ⟨⟩⟩)

theorem Fresh.handleRequestVote (h : Fresh g s₀ disk n s a)
    (hlead : a.role = .leader → SelfVoted g s₀ n a.hardState.term) {m : Message}
    {req : RequestVoteReq} (hm : MsgInv g s m) (hbody : m.body = .requestVote req)
    (ht : m.term = a.hardState.term) :
    ∃ s', Called g s₀ disk n s' (a.handleRequestVote m req) := by
  have hb := hm.body
  rw [hbody] at hb
  obtain ⟨_, hcand, L, hL, hlen, hlast⟩ := hb
  have hfrom : m.fromID ≠ 0 := by
    intro hz
    exact g.nonzero (hz ▸ hm.sender)
  simp only [Node.handleRequestVote]
  split
  · rename_i hg
    rw [hg]
    rw [Bool.and_eq_true, Bool.or_eq_true, beq_iff_eq, beq_iff_eq, ← hlen, ← hlast,
      candidateLogIsUpToDate_iff h.inv, hcand] at hg
    obtain ⟨hvoted, hup⟩ := hg
    by_cases hz : a.hardState.votedFor = 0
    · have hr : a.role = .follower := by
        by_contra hr
        exact h.inv.id_ne_zero ((h.inv.self hr).symm.trans hz)
      rw [if_pos hz, hcand]
      obtain ⟨s', hs', hballot, hgrows⟩ := h.castVote hfrom hr hz (ht ▸ hm.term) (by
        intro L' hL'
        rw [← ht, hL] at hL'
        cases hL'
        exact hup)
      refine ⟨s', ((hs'.called ?_).electionElapsed 0).sendRequestVoteResponse fun _ => hballot⟩
      intro hr'
      rw [show a.role = .leader from hr'] at hr
      cases hr
    · rw [if_neg hz]
      refine ⟨s, ((h.called hlead).electionElapsed 0).sendRequestVoteResponse fun _ => ?_⟩
      show s.ballot n a.hardState.term = some m.fromID
      rw [h.inv.ballot, ballotOf, if_neg hz, hvoted.resolve_left hz]
  · rename_i hg
    refine ⟨s, (h.called hlead).sendRequestVoteResponse fun hg' => absurd hg' hg⟩

end Terms

section OwnAppend

theorem LogInv.ownAppend (hi : LogInv g s) {t : Nat} {L : List Entry} (hlead : s.leader t = some n)
    (hterm : s.term n = t) (hlog : s.leaderLog t = L) :
    LogInv g ((s.follow n L).ack n L.length) ∧ Acts n s ((s.follow n L).ack n L.length) := by
  subst hterm
  have hfollow : LogInv g (s.follow n L) :=
    hi.follow (by simp [hlead]) (by rw [hlog]) (by rw [hlog]; exact fun _ _ hp => hp)
  have hlog' : (s.follow n L).leaderLog ((s.follow n L).term n) = L := hlog
  refine ⟨hfollow.ack (by rw [hlog']) ?_, (follow_acts s n L).trans (ack_acts _ n _)⟩
  rw [hlog', List.take_length, follow_log, if_pos rfl]

def localEntry (a : Node) (type : EntryType) (data : Bytes) : Entry :=
  ⟨a.log.entries.length + 1, a.hardState.term, type, data⟩

def pushEntry (a : Node) (e : Entry) : Node :=
  { a with log := { a.log with entries := a.log.entries ++ [e] } }

theorem appendLocal_eq (h : a.log.Contiguous) (hu : a.unstableIndex = a.log.entries.length + 1)
    (hm : a.matchIndex.isSome) (type : EntryType) (data : Bytes) :
    (a.appendLocal type data).1 =
      ((pushEntry a (localEntry a type data)).setMatchIndex a.config.id
        (a.log.entries.length + 1)).setNextIndex a.config.id (a.log.entries.length + 1 + 1) := by
  have hindex : ¬ a.log.entries.length + 1 < a.unstableIndex := by omega
  have hid : ∀ (b : Node) i, (b.setMatchIndex a.config.id i).config = b.config :=
    fun b i => (Volatile.setMatchIndex b a.config.id i).config
  simp only [Node.appendLocal, h.toNumbered.appendLocal, if_neg hindex, if_pos hm]
  rfl

theorem Fresh.lead (h : Fresh g s₀ disk n s a) (hself : SelfVoted g s₀ n a.hardState.term)
    (hvoted : a.hardState.votedFor = n) (hv : Volatile { a with role := .leader } b)
    (hsound : b.panicked = false) (hcommit : b.commitIndex = a.commitIndex)
    (hmsg : b.messages = []) (hacts : Acts n s s') (hi : LogInv g s')
    (hterm : s'.term = s.term) (hballot : s'.ballot = s.ballot) {e : Entry}
    (hindex : e.index = a.log.entries.length + 1)
    (hl : LeaderInv g s' n (pushEntry b e)) :
    Called g s₀ disk n ((s'.follow n (a.log.entries ++ [e])).ack n (a.log.entries ++ [e]).length)
      (pushEntry b e) := by
  have hhard : b.hardState = a.hardState := hv.hardState
  have hlog : b.log = a.log := hv.log
  have hleads : s'.leader a.hardState.term = some n := hhard ▸ hl.leads
  have hentries : (pushEntry b e).log.entries = a.log.entries ++ [e] := by
    rw [pushEntry, hlog]
  have hleaderLog : s'.leaderLog a.hardState.term = a.log.entries ++ [e] := by
    rw [← hentries, ← hl.leaderLog]
    show s'.leaderLog a.hardState.term = s'.leaderLog b.hardState.term
    rw [hhard]
  have hsterm : s'.term n = a.hardState.term := by rw [hterm, h.inv.term]
  obtain ⟨hglobal, howns⟩ := hi.ownAppend hleads hsterm hleaderLog
  refine {
    acts := (h.acts.trans hacts).trans howns
    global := hglobal
    inv := ?_
    dirty := ?_
    lead := ?_
    hard := ?_
    torn := ?_ }
  · exact {
      id := (congrArg Config.id hv.config).trans h.inv.id
      member := h.inv.member
      peers := hv.peers.trans h.inv.peers
      sound := hsound
      contiguous := by
        refine ⟨?_, ?_⟩
        · rw [pushEntry, hlog]
          exact h.inv.contiguous.snapshot
        · rw [hentries, numberedFrom_append]
          exact ⟨h.inv.contiguous.numbered, by rw [hindex, Nat.add_comm], trivial⟩
      term := by
        show s'.term n = b.hardState.term
        rw [hhard, hsterm]
      ballot := by
        show s'.ballot n b.hardState.term = ballotOf b.hardState.votedFor
        rw [hballot, hhard, h.inv.ballot]
      log := by
        rw [hentries]
        exact follow_log.trans (if_pos rfl)
      commit := by
        show Agrees g _ b.hardState.term _ b.commitIndex
        rw [hentries, hhard, hcommit]
        exact (h.inv.commit.mono (hacts.trans howns).toGrows le_rfl).extend
          (List.prefix_append _ _)
      applied := by
        show b.lastApplied ≤ b.commitIndex
        rw [hcommit, hv.lastApplied]
        exact h.inv.applied
      self := by
        intro _
        show b.hardState.votedFor = n
        rw [hhard, hvoted]
      candidate := by
        intro hr
        cases hv.role.symm.trans hr
      leader := by
        intro _
        exact { hl with
          acked := fun p => (hl.acked p).trans (howns.acked _ _)
          pending := fun p w hw => (hl.pending p w hw).mono howns.toGrows (List.prefix_refl _) }
      messages := by
        intro m hm
        rw [show (pushEntry b e).messages = [] from hmsg] at hm
        cases hm }
  · intro hd
    show b.hardState = disk.hard
    rw [hhard]
    exact h.dirty (hv.hardStateDirty.symm.trans hd)
  · intro _
    show SelfVoted g s₀ n b.hardState.term
    rw [hhard]
    exact hself
  · show Reach g s₀ n ⟨b.hardState, disk.entries⟩
    rw [hhard]
    exact ⟨s, h.acts, h.global, h.diskInv⟩
  · refine ⟨_, le_rfl, hv.unstableIndex.trans h.unstable, ?_, ?_, ?_⟩
    · rw [hentries, h.entries, List.take_append_of_le_length le_rfl]
    · right
      rw [hentries, h.entries, List.length_append]
      exact Nat.lt_succ_self _
    · show Reach g s₀ n ⟨b.hardState, disk.entries.take disk.entries.length⟩
      rw [hhard, List.take_length]
      exact ⟨s, h.acts, h.global, h.diskInv⟩

theorem Fresh.appendLocal (h : Fresh g s₀ disk n s a) (b : Node)
    (hself : SelfVoted g s₀ n a.hardState.term) (hvoted : a.hardState.votedFor = n)
    (hv : Volatile { a with role := .leader } b) (hsound : b.panicked = false)
    (hcommit : b.commitIndex = a.commitIndex) (hmsg : b.messages = []) (hacts : Acts n s s')
    (hi : LogInv g s') (hterm : s'.term = s.term) (hballot : s'.ballot = s.ballot) (type : EntryType) (data : Bytes)
    (hl : LeaderInv g s' n (pushEntry b (localEntry a type data))) :
    ∃ s'', Called g s₀ disk n s'' (b.appendLocal type data).1 ∧
      (b.appendLocal type data).1.role = .leader := by
  have hcall := h.lead hself hvoted hv hsound hcommit hmsg hacts hi hterm hballot rfl hl
  have hlog : b.log = a.log := hv.log
  have hhard : b.hardState = a.hardState := hv.hardState
  have hid : b.config.id = n := (congrArg Config.id hv.config).trans h.inv.id
  have hentry : localEntry b type data = localEntry a type data := by
    rw [localEntry, localEntry, hlog, hhard]
  have hlead : Leading g _ n (pushEntry b (localEntry a type data)) := ⟨hcall.inv, hv.role⟩
  have hcontiguous : b.log.Contiguous := hlog ▸ h.inv.contiguous
  have hunstable : b.unstableIndex = b.log.entries.length + 1 := by
    rw [hlog, h.entries]
    exact hv.unstableIndex.trans h.unstable
  have hmatched : b.matchIndex.isSome := hl.matched
  rw [appendLocal_eq hcontiguous hunstable hmatched, hentry, hlog, hid]
  have hack : a.log.entries.length + 1 ≤
      ((s'.follow n (a.log.entries ++ [localEntry a type data])).ack n
        (a.log.entries ++ [localEntry a type data]).length).acked n
          (pushEntry b (localEntry a type data)).hardState.term := by
    rw [ack_acked, if_pos, List.length_append, List.length_singleton]
    · exact le_max_right _ _
    · refine ⟨rfl, ?_⟩
      show b.hardState.term = s'.term n
      rw [hhard, hterm, h.inv.term]
  have hv' := (Volatile.setMatchIndex (pushEntry b (localEntry a type data)) n
    (a.log.entries.length + 1)).trans (Volatile.setNextIndex _ n (a.log.entries.length + 1 + 1))
  exact ⟨_, hcall.volatile hv' ((hlead.setMatchIndex hack).setNextIndex n _).inv,
    hv'.role.trans hv.role⟩

theorem Fresh.propose (h : Fresh g s₀ disk n s a)
    (hself : a.role = .leader → SelfVoted g s₀ n a.hardState.term) (data : Bytes) :
    ∃ s', Called g s₀ disk n s' (a.propose data).1 := by
  rw [Node.propose]
  by_cases hr : a.role = .leader
  · rw [if_neg (not_not.mpr hr)]
    have hl := h.inv.leader hr
    have hext : (s.extend a.hardState.term (localEntry a .normal data)).leaderLog
        a.hardState.term = a.log.entries ++ [localEntry a .normal data] := by
      rw [extend_leaderLog, if_pos rfl, hl.leaderLog]
    obtain ⟨s', hcall, hrole⟩ := h.appendLocal a (hself hr) (h.inv.self (by simp [hr]))
      ⟨rfl, rfl, rfl, hr, rfl, rfl, rfl, rfl, rfl, le_rfl⟩ h.inv.sound rfl h.messages
      (extend_acts hl.leads _) (h.global.extend hl.leads rfl (by rw [hl.leaderLog]; rfl)) rfl rfl
      .normal data
      { hl with
        leaderLog := hext
        pending := fun p w hw =>
          (hl.pending p w hw).mono (extend_grows _ _ _) (List.prefix_append _ _) }
    have hlead : Leading g s' n _ := ⟨hcall.inv, hrole⟩
    exact ⟨s', hcall.volatile ((Volatile.advanceCommit _).trans (Volatile.broadcastAvailableAppend _))
      hlead.advanceCommit.broadcastAvailableAppend.inv⟩
  · rw [if_pos hr]
    exact ⟨s, h.called hself⟩

theorem takeLead_appendLocal (h : a.log.Contiguous)
    (hu : a.unstableIndex = a.log.entries.length + 1) (type : EntryType) (data : Bytes) :
    (a.takeLead.appendLocal type data).1.commitIndex = a.commitIndex ∧
      ∀ p ∈ a.peers, p ≠ a.config.id →
        (a.takeLead.appendLocal type data).1.matchIndexOf p = 0 ∧
        (a.takeLead.appendLocal type data).1.nextIndexOf p = a.log.entries.length + 1 := by
  have heq := appendLocal_eq (a := a.takeLead) h hu rfl type data
  rw [heq]
  refine ⟨rfl, ?_⟩
  intro p hp hne
  rw [nextIndexOf_setNextIndex rfl]
  have hne' : p ≠ a.takeLead.config.id := hne
  constructor
  · show Node.matchIndexOf (Node.setMatchIndex _ _ _) p = 0
    rw [matchIndexOf_setMatchIndex rfl, if_neg hne']
    rfl
  · rw [if_neg hne', ← h.lastIndex]
    exact if_pos hp

theorem Fresh.becomeLeader (h : Fresh g s₀ disk n s a) (hr : a.role = .candidate)
    (hself : SelfVoted g s₀ n a.hardState.term) (hmaj : a.hasMajority = true) :
    ∃ s', Called g s₀ disk n s' a.becomeLeader := by
  have hc := h.inv.candidate hr
  obtain ⟨V, hV, hvotes⟩ := hc.voters
  have hwon : s.Won g.members n a.hardState.term := by
    refine ⟨V, Group.isQuorum (fun p hp => (hvotes p hp).1) ?_, fun p hp => (hvotes p hp).2⟩
    rw [Node.hasMajority, hV, h.inv.peers, length_orderedPeers] at hmaj
    exact of_decide_eq_true hmaj
  have hnone : s.leader a.hardState.term = none := by
    rw [Option.eq_none_iff_forall_ne_some]
    intro c hlead
    exact hc.leads ((h.global.leader_won hlead).unique hwon ▸ hlead)
  have hu : a.unstableIndex = a.log.entries.length + 1 := by rw [h.unstable, h.entries]
  obtain ⟨s', hcall, hrole⟩ := h.appendLocal a.takeLead hself (h.inv.self (by simp [hr]))
    ⟨rfl, rfl, rfl, rfl, rfl, rfl, rfl, rfl, rfl, le_rfl⟩ h.inv.sound rfl h.messages
    (elect_acts h.global.toInv hnone)
    (h.global.elect (e := localEntry a .noop []) hnone hwon hc.candLog rfl rfl) rfl rfl .noop []
    { leads := elect_leader.trans (if_pos rfl)
      leaderLog := elect_leaderLog.trans (if_pos rfl)
      next := rfl
      matched := rfl
      inflight := rfl
      acked := fun p => Nat.zero_le _
      pending := by rintro p w ⟨⟩ }
  have hlead : Leading g s' n _ := ⟨hcall.inv, hrole⟩
  obtain ⟨hcommit, hprogress⟩ := takeLead_appendLocal h.inv.contiguous hu .noop []
  rw [h.inv.peers, h.inv.id] at hprogress
  refine ⟨s', hcall.volatile ((Volatile.advanceCommit _).trans (Volatile.broadcastAppend _ _))
    (hlead.advanceCommit.broadcastProbe ?_).inv⟩
  intro q hq hqn
  rw [hlead.advanceCommit_alone hq hqn fun p hp hpn =>
    (hprogress p (mem_orderedPeers.mpr hp) hpn).1, hcommit,
    (hprogress q (mem_orderedPeers.mpr hq) hqn).2]
  exact Nat.lt_succ_of_le h.inv.commit.1

end OwnAppend

section Elections

theorem Fresh.campaign (h : Fresh g s₀ disk n s a) (rnd : Rand)
    (hbelow : a.hardState.term < maxUint64) :
    ∃ s', Fresh g s₀ disk n s' (a.campaign rnd) := by
  have hwrap : (a.hardState.term + 1) % 2 ^ 64 = a.hardState.term + 1 := by
    apply Nat.mod_eq_of_lt
    rw [maxUint64] at hbelow
    omega
  have hlt : ∀ {t}, t ≤ s.term n → t ≠ a.hardState.term + 1 := by
    rw [h.inv.term]
    omega
  have hle : s.term n ≤ a.hardState.term + 1 := by
    rw [h.inv.term]
    omega
  have hterm : (s.bump n (a.hardState.term + 1)).term n = a.hardState.term + 1 := by
    simp [Replog.bump]
  have hcand : (s.bump n (a.hardState.term + 1)).candLog
      ((s.bump n (a.hardState.term + 1)).term n) n = none := by
    rw [hterm, Option.eq_none_iff_forall_ne_some]
    exact fun L hL => hlt (h.global.cand_term hL) rfl
  have hballots : ∀ m, (s.bump n (a.hardState.term + 1)).ballot m
      ((s.bump n (a.hardState.term + 1)).term n) ≠ some n := by
    rw [hterm]
    exact fun m hm => hlt (h.global.ballot_cand hm) rfl
  have hleads : s.leader (a.hardState.term + 1) ≠ some n := by
    intro hl
    obtain ⟨Q, hQ, hq⟩ := h.global.leader_won hl
    obtain ⟨m, hm⟩ := hQ.nonempty
    exact hlt (h.global.ballot_cand (hq m hm)) rfl
  have hstand := (h.global.bump hle).stand hballots
  have hfree : ((s.bump n (a.hardState.term + 1)).stand n).ballot n
      (((s.bump n (a.hardState.term + 1)).stand n).term n) = none := by
    show s.ballot n ((s.bump n (a.hardState.term + 1)).term n) = none
    rw [hterm, Option.eq_none_iff_forall_ne_some]
    exact fun c hc => hlt (h.global.ballot_term hc) rfl
  have hacts := ((bump_acts hle).trans (stand_acts hcand)).trans (vote_acts (c := n) (.inl hfree))
  refine ⟨((s.bump n (a.hardState.term + 1)).stand n).vote n n, ?_⟩
  have hballot : (((s.bump n (a.hardState.term + 1)).stand n).vote n n).ballot n
      (a.hardState.term + 1) = some n := by
    rw [vote_ballot, if_pos ⟨rfl, hterm.symm⟩]
  simp only [Node.campaign, Node.resetElectionTimeout, hwrap, h.inv.id]
  exact {
    acts := h.acts.trans hacts
    global := hstand.vote (.inl hfree) le_rfl fun L hL => by
      rw [stand_candLog, if_pos ⟨rfl, rfl⟩] at hL
      cases hL
      exact .inr ⟨rfl, le_rfl⟩
    inv := { h.inv with
      term := hterm
      ballot := by
        rw [ballotOf, if_neg h.inv.id_ne_zero]
        exact hballot
      commit := h.inv.commit.mono hacts.toGrows (Nat.le_succ _)
      self := fun _ => rfl
      candidate := fun _ => {
        leads := hleads
        candLog := by
          show ((s.bump n (a.hardState.term + 1)).stand n).candLog (a.hardState.term + 1) n = _
          rw [stand_candLog, if_pos ⟨hterm.symm, rfl⟩]
          exact congrArg some h.inv.log
        voters := by
          refine ⟨{n}, rfl, ?_⟩
          intro p hp
          rw [Finset.mem_singleton] at hp
          rw [hp]
          exact ⟨h.inv.member, hballot⟩ }
      leader := by rintro ⟨⟩
      messages := fun _ hm => (h.not_mem hm).elim }
    dirty := by rintro ⟨⟩
    entries := h.entries
    unstable := h.unstable
    messages := h.messages }

theorem Called.requestVotes (h : Called g s₀ disk n s a) (hr : a.role = .candidate) :
    Called g s₀ disk n s a.requestVotes := by
  refine (List.foldlRecOn (motive := fun b => Called g s₀ disk n s b ∧ b.role = .candidate)
    _ _ ⟨h, hr⟩ ?_).1
  rintro b ⟨hb, hrb⟩ peer _
  split
  · exact ⟨hb, hrb⟩
  · refine ⟨hb.emit ⟨rfl, hb.inv.id, _, (hb.inv.candidate hrb).candLog, ?_, ?_⟩ ?_, hrb⟩
    · exact hb.inv.contiguous.lastIndex.symm
    · exact hb.inv.contiguous.lastTerm.symm
    · rintro ⟨_, ⟨⟩⟩

theorem Fresh.startElection (h : Fresh g s₀ disk n s a) (rnd : Rand)
    (hbelow : a.hardState.term < maxUint64) :
    ∃ s', Called g s₀ disk n s' (a.startElection rnd) := by
  obtain ⟨s', hs'⟩ := h.campaign rnd hbelow
  rw [Node.startElection]
  split
  · rename_i hmaj
    refine hs'.becomeLeader rfl (.inr ?_) hmaj
    rw [Node.hasMajority, hs'.inv.peers, length_orderedPeers] at hmaj
    have hcard : g.peers.length / 2 + 1 ≤ 1 := of_decide_eq_true hmaj
    omega
  · exact ⟨s', (hs'.called (by rintro ⟨⟩)).requestVotes rfl⟩

theorem Fresh.addVote (h : Fresh g s₀ disk n s a) (hr : a.role = .candidate) {V : Finset NodeID}
    (hV : a.votes = some V) {p : NodeID} (hp : p ∈ g.peers)
    (hballot : s.ballot p a.hardState.term = some n) :
    Fresh g s₀ disk n s { a with votes := some (insert p V) } :=
  { h with
    inv := { h.inv with
      candidate := by
        intro _
        obtain ⟨W, hW, hvotes⟩ := (h.inv.candidate hr).voters
        rw [hV] at hW
        cases hW
        refine { h.inv.candidate hr with voters := ⟨_, rfl, ?_⟩ }
        intro q hq
        rcases Finset.mem_insert.mp hq with rfl | hq
        · exact ⟨hp, hballot⟩
        · exact hvotes q hq
      leader := fun hl => by
        rw [show a.role = .leader from hl] at hr
        cases hr } }

theorem Fresh.handleRequestVoteResponse (h : Fresh g s₀ disk n s a)
    (hself : a.role ≠ .follower → SelfVoted g s₀ n a.hardState.term) {m : Message}
    {resp : RequestVoteResp} (hm : MsgInv g s m) (hbody : m.body = .requestVoteResp resp)
    (ht : m.term = a.hardState.term) (hdest : m.toID = n) :
    ∃ s', Called g s₀ disk n s' (a.handleRequestVoteResponse m resp) := by
  have hlead : a.role = .leader → SelfVoted g s₀ n a.hardState.term :=
    fun hr => hself (by simp [hr])
  have hb := hm.body
  rw [hbody] at hb
  rw [Node.handleRequestVoteResponse]
  split
  · exact ⟨s, h.called hlead⟩
  · rename_i hguard
    simp only [Bool.or_eq_true, decide_eq_true_eq, not_or, not_not, Bool.not_eq_true',
      Bool.not_eq_false] at hguard
    obtain ⟨⟨hr, hgranted⟩, _⟩ := hguard
    obtain ⟨V, hV, _⟩ := (h.inv.candidate hr).voters
    have hballot := hb.2 hgranted
    rw [ht, hdest] at hballot
    have hvote := h.addVote hr hV hm.sender hballot
    simp only [hV]
    split
    · rename_i hmaj
      exact hvote.becomeLeader hr (hself (by simp [hr])) hmaj
    · exact ⟨s, hvote.called hlead⟩

theorem NodeInv.heartbeatElapsed (h : NodeInv g s n a) (ticks : Int) :
    NodeInv g s n { a with heartbeatElapsed := ticks } :=
  { h with leader := fun hr => { h.leader hr with } }

theorem Called.heartbeatElapsed (h : Called g s₀ disk n s a) (ticks : Int) :
    Called g s₀ disk n s { a with heartbeatElapsed := ticks } :=
  h.volatile ⟨rfl, rfl, rfl, rfl, rfl, rfl, rfl, rfl, rfl, le_rfl⟩ (h.inv.heartbeatElapsed ticks)

theorem Fresh.tick (h : Fresh g s₀ disk n s a)
    (hself : a.role ≠ .follower → SelfVoted g s₀ n a.hardState.term) (rnd : Rand)
    (hbelow : a.hardState.term < maxUint64) : ∃ s', Called g s₀ disk n s' (a.tick rnd) := by
  have hlead : a.role = .leader → SelfVoted g s₀ n a.hardState.term :=
    fun hr => hself (by simp [hr])
  rw [Node.tick]
  split
  · rename_i hr
    simp only
    split
    · have hcall := (h.called hlead).heartbeatElapsed 0
      have hlead' : Leading g s n { a with heartbeatElapsed := 0 } := ⟨hcall.inv, hr⟩
      exact ⟨s, hcall.volatile (Volatile.broadcastAppend _ _) hlead'.sendHeartbeats.inv⟩
    · exact ⟨s, (h.called hlead).heartbeatElapsed _⟩
  · simp only
    have hticked : Fresh g s₀ disk n s { a with electionElapsed := a.electionElapsed + 1 } :=
      { h with inv := h.inv.electionElapsed _ }
    split
    · exact hticked.startElection rnd hbelow
    · exact ⟨s, hticked.called hlead⟩

end Elections

section Replication

variable {m : Message} {req : AppendEntriesReq}

theorem Fresh.stepDown (h : Fresh g s₀ disk n s a) :
    Fresh g s₀ disk n s a.becomeFollowerSameTerm :=
  { h with
    inv := { h.inv with
      self := fun hr => absurd rfl hr
      candidate := by rintro ⟨⟩
      leader := by rintro ⟨⟩
      messages := fun _ hm => (h.not_mem hm).elim } }

theorem Fresh.electionElapsed (h : Fresh g s₀ disk n s a) (ticks : Int) :
    Fresh g s₀ disk n s { a with electionElapsed := ticks } :=
  { h with inv := h.inv.electionElapsed ticks }

theorem Fresh.heedLeader (h : Fresh g s₀ disk n s a) :
    Fresh g s₀ disk n s a.heedLeader ∧ a.heedLeader.role = .follower ∧
      a.heedLeader.hardState.term = a.hardState.term := by
  rw [Node.heedLeader]
  by_cases hr : a.role = .follower
  · rw [if_neg (not_not.mpr hr)]
    exact ⟨h.electionElapsed 0, hr, rfl⟩
  · rw [if_pos hr]
    exact ⟨h.stepDown.electionElapsed 0, rfl, rfl⟩

theorem NodeInv.ack (h : NodeInv g s n a) (hr : a.role = .follower) (k : Nat) :
    NodeInv g (s.ack n k) n a :=
  { h with
    commit := h.commit.mono (ack_grows s n k) le_rfl
    candidate := fun hc => by rw [hr] at hc; cases hc
    leader := fun hl => by rw [hr] at hl; cases hl
    messages := fun m hm => by
      obtain ⟨hfrom, hterm, hinv, happ⟩ := h.messages m hm
      exact ⟨hfrom, hterm, hinv.mono (ack_grows s n k), happ⟩ }

theorem Called.commitTo (h : Called g s₀ disk n s a) (hr : a.role = .follower) {k : Nat}
    (ha : Agrees g s a.hardState.term a.log.entries k) (hk : a.commitIndex ≤ k) :
    Called g s₀ disk n s { a with commitIndex := k } :=
  h.volatile ⟨rfl, rfl, rfl, rfl, rfl, rfl, rfl, rfl, rfl, hk⟩
    { h.inv with
      commit := ha
      applied := h.inv.applied.trans hk
      leader := fun hl => by
        rw [show a.role = .leader from hl] at hr
        cases hr }

theorem take_prevLogIndex (hi : LogInv g s) (hv : s.Valid Entry.term a.log.entries) {t prev : Nat}
    {prevTerm : Nat} (hown : termAt a.log.entries prev = some prevTerm)
    (hlead : termAt (s.leaderLog t) prev = some prevTerm) :
    a.log.entries.take prev = (s.leaderLog t).take prev := by
  cases prev with
  | zero => rw [List.take_zero, List.take_zero]
  | succ k =>
    rw [termAt_succ] at hown hlead
    obtain ⟨e, he, het⟩ := Option.map_eq_some_iff.mp hown
    obtain ⟨e', he', het'⟩ := Option.map_eq_some_iff.mp hlead
    exact hv.matching (hi.leader_valid t) he he' (het.trans het'.symm)

theorem common_prefix_le {l l' p : List Entry} {k : Nat} (hp : p <+: l) (hp' : p <+: l')
    (hne : ∀ e e', l[k]? = some e → l'[k]? = some e' → e.term ≠ e'.term) : p.length ≤ k := by
  by_contra hk
  have he := List.getElem?_eq_getElem (Nat.lt_of_not_le hk)
  exact hne _ _ (prefix_getElem? hp he) (prefix_getElem? hp' he) rfl

theorem Fresh.overwrite (h : Fresh g s₀ disk n s a) (hr : a.role = .follower)
    (hlead : s.leader a.hardState.term ≠ none) {l : List Entry}
    (hl : l <+: s.leaderLog a.hardState.term) {k : Nat} (hk : k < l.length)
    (hkl : k ≤ a.log.entries.length)
    (htake : a.log.entries.take k = (s.leaderLog a.hardState.term).take k)
    (hne : ∀ e e', a.log.entries[k]? = some e → (s.leaderLog a.hardState.term)[k]? = some e' →
      e.term ≠ e'.term) :
    Called g s₀ disk n ((s.follow n l).ack n l.length)
      { a with log := { a.log with entries := l }, unstableIndex := k + 1 } := by
  have hterm := h.inv.term
  have hlog := h.inv.log
  have hcut : ∀ p, p <+: a.log.entries → p <+: s.leaderLog a.hardState.term →
      p <+: a.log.entries.take k := by
    intro p hp hp'
    exact List.prefix_take_iff.mpr ⟨hp, common_prefix_le hp hp' hne⟩
  have hltake : l.take k = a.log.entries.take k := by
    rw [htake, take_prefix_mono hl hk.le]
  have hkeep : ∀ p, p <+: a.log.entries → p <+: s.leaderLog a.hardState.term → p <+: l := by
    intro p hp hp'
    refine (hcut p hp hp').trans ?_
    rw [← hltake]
    exact List.take_prefix _ _
  have hfollow : LogInv g (s.follow n l) := by
    apply h.global.follow
    · rw [hterm]
      exact hlead
    · rw [hterm]
      exact hl
    · rw [hterm, hlog]
      exact hkeep
  have hglobal : LogInv g ((s.follow n l).ack n l.length) := by
    have hll : (s.follow n l).leaderLog ((s.follow n l).term n) =
        s.leaderLog a.hardState.term := by
      rw [← hterm]
      rfl
    apply hfollow.ack
    · rw [hll]
      exact hl.length_le
    · rw [hll, follow_log, if_pos rfl, ← List.prefix_iff_eq_take.mp hl]
  have hacts : Acts n s ((s.follow n l).ack n l.length) :=
    (follow_acts s n l).trans (ack_acts _ n _)
  have hfront := List.take_prefix a.commitIndex a.log.entries
  have hcommit : a.log.entries.take a.commitIndex <+: l :=
    hkeep _ hfront (h.global.agrees_leaderLog h.inv.commit le_rfl hlead)
  have hdisk : disk.entries.take k = a.log.entries.take k := by rw [h.entries]
  refine {
    acts := h.acts.trans hacts
    global := hglobal
    inv := { h.inv with
      contiguous := ⟨h.inv.contiguous.snapshot, (h.global.numbered _).mono hl⟩
      log := follow_log.trans (if_pos rfl)
      commit := (h.inv.commit.mono hacts.toGrows le_rfl).congr le_rfl hcommit
      candidate := fun hc => by
        rw [show a.role = .candidate from hc] at hr
        cases hr
      leader := fun hl => by
        rw [show a.role = .leader from hl] at hr
        cases hr
      messages := fun _ hm => (h.not_mem hm).elim }
    dirty := h.dirty
    lead := fun hl => by
      rw [show a.role = .leader from hl] at hr
      cases hr
    hard := ⟨s, h.acts, h.global, h.diskInv⟩
    torn := ⟨k, h.entries ▸ hkl, rfl, hltake.trans hdisk.symm, .inr hk, ?_⟩ }
  refine ⟨s.follow n (a.log.entries.take k), h.acts.trans (follow_acts s n _), ?_, ?_⟩
  · apply h.global.follow
    · rw [hterm]
      exact hlead
    · rw [hterm, htake]
      exact List.take_prefix _ _
    · rw [hterm, hlog]
      exact hcut
  · refine ⟨hterm, h.inv.ballot, ?_⟩
    rw [hdisk]
    exact follow_log.trans (if_pos rfl)

theorem Fresh.appendFromLeader (h : Fresh g s₀ disk n s a) (hr : a.role = .follower)
    {es : List Entry} {prev : Nat} (hlead : s.leader a.hardState.term ≠ none)
    (hwindow : (s.leaderLog a.hardState.term).take prev ++ es <+: s.leaderLog a.hardState.term)
    (hprev : prev ≤ (s.leaderLog a.hardState.term).length)
    (hagree : a.log.entries.take prev = (s.leaderLog a.hardState.term).take prev)
    (hle : prev ≤ a.log.entries.length) :
    ∃ s', Called g s₀ disk n s' (a.storeAppend (es.map some)) ∧ Grows s s' ∧
      (s.leaderLog a.hardState.term).take prev ++ es <+:
        (a.log.appendFromLeader (es.map some)).1.entries ∧
      prev + es.length ≤ s'.acked n a.hardState.term := by
  have hterm := h.inv.term
  have hlen : ((s.leaderLog a.hardState.term).take prev).length = prev := by
    rw [List.length_take, min_eq_left hprev]
  have htotal : ((s.leaderLog a.hardState.term).take prev ++ es).length = prev + es.length := by
    rw [List.length_append, hlen]
  have htake : (s.leaderLog a.hardState.term).take (prev + es.length) =
      (s.leaderLog a.hardState.term).take prev ++ es := by
    rw [← htotal]
    exact (List.prefix_iff_eq_take.mp hwindow).symm
  have hbound : prev + es.length ≤ (s.leaderLog a.hardState.term).length :=
    htotal ▸ hwindow.length_le
  have hvalid : s.Valid Entry.term a.log.entries := h.inv.log ▸ h.global.log_valid n
  have hnum : NumberedFrom (prev + 1) es := by
    have := (numberedFrom_append.mp ((h.global.numbered _).mono hwindow)).2
    rwa [hlen, Nat.add_comm] at this
  have hack : ∀ s : Global, s.term n = a.hardState.term →
      prev + es.length ≤ (s.ack n (prev + es.length)).acked n a.hardState.term := by
    intro s hs
    rw [ack_acked, if_pos ⟨rfl, hs.symm⟩]
    exact le_max_right _ _
  rcases h.inv.contiguous.appendFromLeader hle hagree hwindow hnum
      (fun k e e' he he' => hvalid.matching (h.global.leader_valid _) he he') with
    ⟨hsame, hpre⟩ | ⟨k, hpk, hk, hkl, htk, hne, hnew⟩
  · -- Everything was there already: only the acknowledgement is new.
    rw [Node.storeAppend, hsame]
    have hfresh : Fresh g s₀ disk n (s.ack n (prev + es.length)) a :=
      { h with
        acts := h.acts.trans (ack_acts s n _)
        global := h.global.ack (by rw [hterm]; exact hbound) (by
          rw [hterm, htake, h.inv.log]
          exact hpre)
        inv := h.inv.ack hr _ }
    refine ⟨_, ?_, ack_grows s n _, hpre, hack s hterm⟩
    exact hfresh.called fun hl => by
      rw [hr] at hl
      cases hl
  · have hcall := h.overwrite hr hlead hwindow (by rw [htotal]; exact hk) hkl htk hne
    have hstore : a.storeAppend (es.map some) =
        { a with
          log := { a.log with entries := (s.leaderLog a.hardState.term).take prev ++ es }
          unstableIndex := k + 1 } := by
      have hunstable : a.unstableIndex = a.log.entries.length + 1 := by
        rw [h.unstable, h.entries]
      rw [Node.storeAppend, hnew]
      simp only
      split
      · rfl
      · rename_i hguard
        have hlast : a.unstableIndex = k + 1 := by
          simp only [ne_eq, Nat.succ_ne_zero, not_false_eq_true, decide_true, Bool.true_and,
            decide_eq_true_eq] at hguard
          omega
        rw [hlast]
    rw [hstore, hnew]
    refine ⟨_, hcall, ((follow_acts s n _).trans (ack_acts _ n _)).toGrows,
      List.prefix_refl _, ?_⟩
    rw [htotal]
    exact hack _ hterm

theorem Fresh.acceptAppend (h : Fresh g s₀ disk n s a) (hr : a.role = .follower)
    (hreq : AppendInv g s m req) (ht : m.term = a.hardState.term)
    (hmatch : a.log.matchesAt req.prevLogIndex req.prevLogTerm = true) :
    ∃ s', Called g s₀ disk n s'
      (a.acceptAppend m req (req.prevLogIndex + req.entries.length)) := by
  obtain ⟨hleads, hprev, ⟨es, hes, hwindow⟩, hcommit, hcommit_le⟩ := hreq
  rw [ht] at hleads hprev hwindow hcommit
  have hown : termAt a.log.entries req.prevLogIndex = some req.prevLogTerm := by
    rw [← h.inv.contiguous.term]
    exact beq_iff_eq.mp hmatch
  have hvalid : s.Valid Entry.term a.log.entries := h.inv.log ▸ h.global.log_valid n
  have hagree := take_prevLogIndex h.global hvalid hown hprev
  have hlen : req.entries.length = es.length := by rw [hes, List.length_map]
  obtain ⟨s', hcall, hgrows, hpre, hacked⟩ := h.appendFromLeader hr
    (by simp [hleads]) hwindow (termAt_le_length hprev) hagree (termAt_le_length hown)
  have hhard : (a.storeAppend (es.map some)).hardState = a.hardState := storeAppend_hardState a _
  have hrole : (a.storeAppend (es.map some)).role = .follower := (storeAppend_role a _).trans hr
  have hlog : (a.storeAppend (es.map some)).log.entries =
      (a.log.appendFromLeader (es.map some)).1.entries := storeAppend_entries a _
  have hlast : ((s.leaderLog a.hardState.term).take req.prevLogIndex ++ es).length =
      req.prevLogIndex + es.length := by
    rw [List.length_append, List.length_take, min_eq_left (termAt_le_length hprev)]
  rw [Node.acceptAppend, hes, List.length_map, min_eq_left (by rw [← hlen]; exact hcommit_le)]
  rw [← hhard] at hacked
  split
  · rename_i hlt
    refine ⟨s', (hcall.commitTo hrole ?_ hlt.le).sendAppendEntriesResponse fun _ => hacked⟩
    rw [hlog, hhard]
    refine (hcommit.mono hgrows le_rfl).congr le_rfl (List.IsPrefix.trans ?_ hpre)
    rw [← List.take_append_drop req.leaderCommit
      ((s.leaderLog a.hardState.term).take req.prevLogIndex ++ es),
      ← take_prefix_mono hwindow (by rw [hlast, ← hlen]; exact hcommit_le)]
    exact List.prefix_append _ _
  · exact ⟨s', hcall.sendAppendEntriesResponse fun _ => hacked⟩

theorem Fresh.handleAppendEntries (h : Fresh g s₀ disk n s a) (hm : MsgInv g s m)
    (hbody : m.body = .appendEntries req) (ht : m.term = a.hardState.term) :
    ∃ s', Called g s₀ disk n s' (a.handleAppendEntries m req) := by
  have hb := hm.body
  rw [hbody] at hb
  obtain ⟨_, hreq⟩ := hb
  obtain ⟨hfresh, hrole, hterm⟩ := h.heedLeader
  have hlead : a.heedLeader.role = .leader → SelfVoted g s₀ n a.heedLeader.hardState.term := by
    intro hl
    rw [hrole] at hl
    cases hl
  rw [Node.handleAppendEntries]
  split
  · exact ⟨s, (hfresh.called hlead).sendAppendEntriesResponse (by rintro ⟨⟩)⟩
  · rename_i last hlast
    have hlast : last = req.prevLogIndex + req.entries.length := by
      rw [appendRequestLastIndex] at hlast
      split at hlast
      · cases hlast
      · split at hlast
        · exact (Option.some.inj hlast).symm
        · cases hlast
    split
    · rename_i hmatch
      rw [hlast]
      exact hfresh.acceptAppend hrole hreq (ht.trans hterm.symm) hmatch
    · exact ⟨s, (hfresh.called hlead).sendAppendEntriesResponse (by rintro ⟨⟩)⟩

end Replication

theorem messageTerm_eq {m : Message} (hm : MsgInv g s m) : messageTerm m = m.term := by
  have hb := hm.body
  rw [messageTerm]
  cases hbody : m.body with
  | requestVote req =>
    rw [hbody] at hb
    simp only [hb.1, gt_iff_lt, lt_self_iff_false, if_false]
  | requestVoteResp resp =>
    rw [hbody] at hb
    simp only [hb.1, gt_iff_lt, lt_self_iff_false, if_false]
  | appendEntries req =>
    rw [hbody] at hb
    simp only [hb.1, gt_iff_lt, lt_self_iff_false, if_false]
  | appendEntriesResp resp =>
    rw [hbody] at hb
    simp only [hb.1, gt_iff_lt, lt_self_iff_false, if_false]
  | other => rfl

theorem Fresh.handle (h : Fresh g s₀ disk n s a)
    (hself : a.role ≠ .follower → SelfVoted g s₀ n a.hardState.term) {m : Message}
    (hm : MsgInv g s m) (ht : m.term = a.hardState.term) (hdest : m.toID = n) :
    ∃ s', Called g s₀ disk n s' (a.handle m) := by
  have hlead : a.role = .leader → SelfVoted g s₀ n a.hardState.term :=
    fun hr => hself (by simp [hr])
  rw [Node.handle]
  cases hbody : m.body with
  | requestVote req => exact h.handleRequestVote hlead hm hbody ht
  | requestVoteResp resp => exact h.handleRequestVoteResponse hself hm hbody ht hdest
  | appendEntries req => exact h.handleAppendEntries hm hbody ht
  | appendEntriesResp resp =>
    exact ⟨s, (h.called hlead).volatile (Volatile.handleAppendEntriesResponse _ _ _)
      (h.inv.handleAppendEntriesResponse hm hbody ht)⟩
  | other => exact ⟨s, h.called hlead⟩

theorem Fresh.step (h : Fresh g s₀ disk n s a)
    (hself : a.role ≠ .follower → SelfVoted g s₀ n a.hardState.term) (rnd : Rand) {m : Message}
    (hm : MsgInv g s m) (hdest : m.toID = n) :
    ∃ s', Called g s₀ disk n s' (a.step rnd (some m)) := by
  have hlead : a.role = .leader → SelfVoted g s₀ n a.hardState.term :=
    fun hr => hself (by simp [hr])
  rw [Node.step, messageTerm_eq hm]
  split
  · rename_i hlt
    obtain ⟨s', hs', hrole, hterm, hgrows⟩ := h.becomeFollower rnd hlt
    refine hs'.handle (fun hr => absurd hrole hr) (hm.mono hgrows) hterm.symm hdest
  · split
    · rw [Node.rejectLowerTermRequest]
      split
      · exact ⟨s, (h.called hlead).sendRequestVoteResponse (by rintro ⟨⟩)⟩
      · exact ⟨s, (h.called hlead).sendAppendEntriesResponse (by rintro ⟨⟩)⟩
      · exact ⟨s, h.called hlead⟩
    · exact h.handle hself hm (by omega) hdest

end MiniQuorum.Server
