import MiniQuorum.Server.ClusterInvariant

/-! Building runs: action lists, and the wraparound of a 64-bit term. -/

namespace MiniQuorum.Server

open Raft Storage Consensus Consensus.Replog

namespace Cluster

variable {g : Group} {c c' : Cluster}

theorem exec_run {as : List Action} (h : c.exec g as = some c') : Run g c c' := by
  induction as generalizing c with
  | nil =>
    cases h
    exact .refl
  | cons a as ih =>
    obtain ⟨d, hd, hrest⟩ := Option.bind_eq_some_iff.mp h
    exact .head ⟨a, hd⟩ (ih hrest)

theorem any_exists {x : Option Cluster} {p : Cluster → Bool} (h : x.any p = true) :
    ∃ c, x = some c ∧ p c = true := by
  cases x with
  | none => cases h
  | some c => exact ⟨c, rfl, h⟩

theorem exec_any (g : Group) (c : Cluster) (as : List Action) (p : Cluster → Bool) (h : (c.exec g as).any p = true) :
    ∃ c', Run g c c' ∧ p c' = true := by
  obtain ⟨c', hc', hp⟩ := any_exists h
  exact ⟨c', exec_run hc', hp⟩

def execBelow (g : Group) (c : Cluster) : List Action → Option Cluster
  | [] => some c
  | a :: as =>
    match c.act g a with
    | none => none
    | some d =>
      if g.peers.all (fun n => ((d.hosts n).map (·.node.hardState.term)).getD 0 < maxUint64) then
        execBelow g d as
      else none

end Cluster

theorem HostInv.member {g : Group} {s : Global} {disk : MemStorage} {n : NodeID} {h : Host}
    (hh : HostInv g s disk n h) : n ∈ g.peers := by
  obtain ⟨node, phase, hint⟩ := h
  cases phase with
  | idle =>
    have hs : Settled g s disk n node := hh
    exact hs.inv.member
  | stepped =>
    obtain ⟨base, _, hs, _⟩ := hh
    exact hs.inv.member
  | saving r =>
    obtain ⟨_, ⟨base, _, hs, _⟩, _⟩ := hh
    exact hs.inv.member
  | draining messages committed =>
    obtain ⟨base, hs, _⟩ := hh
    exact hs.inv.member

theorem ClusterInv.execBelow {g : Group} {c c' : Cluster} {s : Global} (h : ClusterInv g c s)
    (hbelow : c.TermsBelow) {as : List Action} (hexec : c.execBelow g as = some c') :
    Cluster.RunBelow g c c' := by
  induction as generalizing c s with
  | nil =>
    cases hexec
    exact .refl
  | cons a as ih =>
    rw [Cluster.execBelow] at hexec
    split at hexec
    · cases hexec
    · rename_i d hd
      split at hexec
      · rename_i hall
        obtain ⟨s', _, h'⟩ := h.act hbelow hd
        have hbelow' : d.TermsBelow := by
          intro n host hhost
          have hn := List.all_eq_true.mp hall n (h'.hosts n host hhost).member
          rw [hhost] at hn
          exact of_decide_eq_true hn
        exact .head ⟨⟨a, hd⟩, hbelow'⟩ (ih h' hbelow' hexec)
      · cases hexec

theorem execBelow_init {g : Group} {c : Cluster} {as : List Action}
    (hexec : Cluster.init.execBelow g as = some c) : Cluster.RunBelow g Cluster.init c :=
  (ClusterInv.init g).execBelow (by rintro n h ⟨⟩) hexec

theorem execBelow_any (g : Group) (as : List Action) (p : Cluster → Bool)
    (h : (Cluster.init.execBelow g as).any p = true) :
    ∃ c, Cluster.RunBelow g Cluster.init c ∧ p c = true := by
  obtain ⟨c, hc, hp⟩ := Cluster.any_exists h
  exact ⟨c, execBelow_init hc, hp⟩

section Wraparound

variable {g : Group} {c : Cluster} {n : NodeID}

theorem startElection_eq {a : Node} (hsize : 2 ≤ a.peers.length) (rnd : Rand) :
    a.startElection rnd = (a.campaign rnd).requestVotes := by
  have hvotes : (a.campaign rnd).hasMajority = false := by
    simp only [Node.hasMajority, Node.campaign, Node.resetElectionTimeout, Option.map_some,
      Option.getD_some, Finset.card_singleton, decide_eq_false_iff_not]
    omega
  rw [Node.startElection, if_neg (by simp [hvotes])]

theorem tick_newNode (hsize : 2 ≤ g.peers.length) (hticks : g.electionTickMin n = 1)
    (init : InitialState) :
    ∃ a : Node, (newNode (g.config n) init none).tick none = a ∧
      a.hardState = ⟨(init.hardState.term + 1) % 2 ^ 64, n⟩ ∧ a.hardStateDirty = true ∧
      a.log = newRaftLog init.snapshot init.entries ∧
      a.unstableIndex = (newRaftLog init.snapshot init.entries).lastIndex + 1 := by
  refine ⟨_, rfl, ?_⟩
  have htimeout : (newNode (g.config n) init none).electionElapsed + 1 ≥
      (newNode (g.config n) init none).electionTimeout := by
    simp [newNode, Node.resetElectionTimeout, Config.withDefaults, Group.config, hticks]
  rw [Node.tick, if_neg (by simp [newNode, Node.resetElectionTimeout])]
  simp only
  rw [if_pos htimeout, startElection_eq ((length_orderedPeers _).symm ▸ hsize)]
  have hv := Volatile.requestVotes (Node.campaign none
    { newNode (g.config n) init none with
      electionElapsed := (newNode (g.config n) init none).electionElapsed + 1 })
  exact ⟨hv.hardState, hv.hardStateDirty, hv.log, hv.unstableIndex⟩

def Cluster.campaigned (c : Cluster) (n : NodeID) (k : Nat) : Cluster :=
  { c with
    disks := Function.update c.disks n
      ⟨⟨((c.disks n).hard.term + k) % 2 ^ 64, n⟩, (c.disks n).entries⟩
    incarnation := Function.update c.incarnation n (c.incarnation n + k) }

theorem campaign_and_crash (hn : n ∈ g.peers) (hsize : 2 ≤ g.peers.length)
    (hticks : g.electionTickMin n = 1) (hdown : c.hosts n = none)
    (hnum : NumberedFrom 1 (c.disks n).entries) (hlen : (c.disks n).entries.length < maxUint64) :
    c.exec g [.recover n none, .tick n none, .ready n, .crash n 1] = some (c.campaigned n 1) := by
  obtain ⟨a, ha, hhard, hdirty, hlog, hunstable⟩ := tick_newNode hsize hticks
    ⟨(c.disks n).hard, (c.disks n).entries, ⟨0, 0⟩⟩
  have hready : a.readyWithoutCapture.entries = [] := by
    rw [Node.readyWithoutCapture, hunstable, hlog]
    exact if_neg (by omega)
  have hhs : a.readyWithoutCapture.hardState = some a.hardState := by
    rw [Node.readyWithoutCapture]
    exact if_pos hdirty
  have hhosts : Function.update c.hosts n none = c.hosts := by
    rw [← hdown, Function.update_eq_self]
  simp [Cluster.exec, Cluster.act, hdown, hn, newRecoveredNode_some hnum hlen.ne, Cluster.setHost, ha,
    Cluster.setDisk, Cluster.crashDisk, Node.ready, hready, hhs, hhosts, MemStorage.tornSave,
    batchRecords, entryRecords, replay, LogRecord.apply, hhard, Cluster.campaigned]

def campaigns (n : NodeID) (k : Nat) : List Action :=
  (List.replicate k [.recover n none, .tick n none, .ready n, .crash n 1]).flatten

theorem exec_append {as as' : List Action} {c' : Cluster} (h : c.exec g as = some c') :
    c.exec g (as ++ as') = c'.exec g as' := by
  rw [Cluster.exec, List.foldlM_append]
  exact congrArg (· >>= _) h

theorem exec_campaigns (hn : n ∈ g.peers) (hsize : 2 ≤ g.peers.length)
    (hticks : g.electionTickMin n = 1) (hdown : c.hosts n = none)
    (hnum : NumberedFrom 1 (c.disks n).entries) (hlen : (c.disks n).entries.length < maxUint64)
    (k : Nat) : c.exec g (campaigns n (k + 1)) = some (c.campaigned n (k + 1)) := by
  induction k with
  | zero => exact campaign_and_crash hn hsize hticks hdown hnum hlen
  | succ k ih =>
    have hnext := campaign_and_crash (c := c.campaigned n (k + 1)) hn hsize hticks hdown
      (by simpa [Cluster.campaigned] using hnum) (by simpa [Cluster.campaigned] using hlen)
    have heq : (c.campaigned n (k + 1)).campaigned n 1 = c.campaigned n (k + 1 + 1) := by
      simp only [Cluster.campaigned, Function.update_self, Function.update_idem, Nat.mod_add_mod,
        Nat.add_assoc]
    rw [campaigns, List.replicate_succ', List.flatten_append, ← campaigns, exec_append ih,
      List.flatten_singleton, hnext, heq]

theorem rewind (hn : n ∈ g.peers) (hsize : 2 ≤ g.peers.length) (hticks : g.electionTickMin n = 1)
    (hdown : c.hosts n = none) (hnum : NumberedFrom 1 (c.disks n).entries)
    (hlen : (c.disks n).entries.length < maxUint64) (hterm : (c.disks n).hard.term < 2 ^ 64)
    {term : Nat} (ht : term < 2 ^ 64) :
    ∃ c', c.exec g (campaigns n (2 ^ 64 - (c.disks n).hard.term + term)) = some c' ∧
      c' = c.campaigned n (2 ^ 64 - (c.disks n).hard.term + term) ∧
      c'.disks n = ⟨⟨term, n⟩, (c.disks n).entries⟩ := by
  have hexec := exec_campaigns hn hsize hticks hdown hnum hlen
    (2 ^ 64 - (c.disks n).hard.term + term - 1)
  rw [Nat.sub_add_cancel (by omega)] at hexec
  refine ⟨_, hexec, rfl, ?_⟩
  have hsum : (c.disks n).hard.term + (2 ^ 64 - (c.disks n).hard.term + term) =
      term + 2 ^ 64 := by omega
  simp only [Cluster.campaigned, Function.update_self, hsum, Nat.add_mod_right,
    Nat.mod_eq_of_lt ht]

end Wraparound

section Scripts

def three : Group where
  peers := [1, 2, 3]
  nodup := by decide
  nonzero := by decide
  electionTickMin _ := 1
  electionTickMax _ := 1
  heartbeatTicks _ := 1

def drive (n : NodeID) (sends applies : Nat) : List Action :=
  [.ready n, .save n] ++ List.replicate sends (.send n) ++ List.replicate applies (.apply n) ++
    [.advance n]

def voteRequest (candidate dest term lastIndex lastTerm : Nat) : Message :=
  ⟨candidate, dest, term, .requestVote ⟨term, candidate, lastIndex, lastTerm⟩⟩

def voteGrant (voter dest term : Nat) : Message :=
  ⟨voter, dest, term, .requestVoteResp ⟨term, true⟩⟩

def appendRequest (leader dest term prevIndex prevTerm : Nat) (entries : List Entry)
    (commit : Nat) : Message :=
  ⟨leader, dest, term,
    .appendEntries ⟨term, leader, prevIndex, prevTerm, entries.map some, commit⟩⟩

def appendSuccess (follower dest term index : Nat) : Message :=
  ⟨follower, dest, term, .appendEntriesResp ⟨term, true, index⟩⟩

def noopEntry (index term : Nat) : Entry := ⟨index, term, .noop, []⟩

def elect (leader voter term lastIndex lastTerm : Nat) : List Action :=
  [.tick leader none] ++ drive leader 2 0 ++
  [.step voter (voteRequest leader voter term lastIndex lastTerm) none] ++ drive voter 1 0 ++
  [.step leader (voteGrant voter leader term) none] ++ drive leader 2 0

def replicateFirst (leader follower term : Nat) : List Action :=
  [.step follower (appendRequest leader follower term 0 0 [] 0) none] ++ drive follower 1 0 ++
  [.step leader (appendSuccess follower leader term 0) none] ++ drive leader 1 0 ++
  [.step follower (appendRequest leader follower term 0 0 [noopEntry 1 term] 0) none] ++
  drive follower 1 0

def replicated : List Action :=
  [.recover 1 none, .recover 2 none, .recover 3 none] ++ elect 1 2 1 0 0 ++
  replicateFirst 1 2 1 ++
  [.step 1 (appendSuccess 2 1 1 1) none] ++ drive 1 1 1 ++
  [.step 2 (appendRequest 1 2 1 1 1 [] 1) none] ++ drive 2 1 1

def firstLeader : List Action :=
  [.recover 1 none, .recover 2 none] ++ elect 1 2 1 0 0 ++
  [.propose 1 [7]] ++ drive 1 0 0 ++ [.crash 2 0]

def secondLeader : List Action :=
  [.recover 2 none, .recover 3 none] ++ elect 2 3 1 0 0 ++ [.propose 2 [8]] ++ drive 2 0 0

def afterFirstLeader : Cluster := (Cluster.init.exec three firstLeader).get (by decide +kernel)

def leadsWith (c : Cluster) (n : NodeID) (term : Nat) (log : List Entry) : Bool :=
  (c.hosts n).any fun h =>
    h.node.role == .leader && h.node.hardState.term == term && h.node.log.entries == log

theorem two_leaders : ∃ c, Cluster.Run three Cluster.init c ∧
    leadsWith c 1 1 [noopEntry 1 1, ⟨2, 1, .normal, [7]⟩] = true ∧
    leadsWith c 2 1 [noopEntry 1 1, ⟨2, 1, .normal, [8]⟩] = true := by
  have hfirst : Cluster.Run three Cluster.init afterFirstLeader :=
    Cluster.exec_run (Option.some_get _).symm
  have hdisk : afterFirstLeader.disks 2 = ⟨⟨1, 1⟩, []⟩ := by decide +kernel
  have hdown : afterFirstLeader.hosts 2 = none := Option.isNone_iff_eq_none.mp (by decide +kernel)
  obtain ⟨_, hrewind, rfl, _⟩ := rewind (g := three) (c := afterFirstLeader) (n := 2)
    (by decide) (by decide) rfl hdown (by rw [hdisk]; trivial) (by rw [hdisk]; decide)
    (by rw [hdisk]; decide) (show 0 < 2 ^ 64 by decide)
  obtain ⟨c, hsecond, hp⟩ := Cluster.exec_any three
    (afterFirstLeader.campaigned 2 (2 ^ 64 - (afterFirstLeader.disks 2).hard.term + 0))
    secondLeader (fun c =>
      leadsWith c 1 1 [noopEntry 1 1, ⟨2, 1, .normal, [7]⟩] &&
        leadsWith c 2 1 [noopEntry 1 1, ⟨2, 1, .normal, [8]⟩]) (by decide +kernel)
  exact ⟨c, (hfirst.trans (Cluster.exec_run hrewind)).trans hsecond, Bool.and_eq_true_iff.mp hp⟩

def committedAtTwo : List Action :=
  [.recover 1 none, .recover 2 none, .recover 3 none] ++ elect 3 1 1 0 0 ++ elect 1 2 2 0 0 ++
  replicateFirst 1 2 2 ++ [.step 1 (appendSuccess 2 1 2 1) none] ++ drive 1 1 1

def overwritten : List Action := [.recover 2 none] ++ replicateFirst 3 2 1

def afterCommit : Cluster := (Cluster.init.exec three committedAtTwo).get (by decide +kernel)

def afterCrash : Cluster := (afterCommit.exec three [.crash 2 0]).get (by decide +kernel)

theorem commit_overwritten : ∃ c, Cluster.Run three afterCommit c ∧
    (c.disks 1).entries = [noopEntry 1 2] ∧ (c.disks 2).entries = [noopEntry 1 1] ∧
    (c.disks 3).entries = [noopEntry 1 1] := by
  have hcrash : Cluster.Run three afterCommit afterCrash :=
    Cluster.exec_run (Option.some_get _).symm
  have hdisk : afterCrash.disks 2 = ⟨⟨2, 1⟩, [noopEntry 1 2]⟩ := by decide +kernel
  have hdown : afterCrash.hosts 2 = none := Option.isNone_iff_eq_none.mp (by decide +kernel)
  obtain ⟨_, hrewind, rfl, _⟩ := rewind (g := three) (c := afterCrash) (n := 2)
    (by decide) (by decide) rfl hdown (by rw [hdisk]; exact ⟨rfl, trivial⟩)
    (by rw [hdisk]; decide) (by rw [hdisk]; decide) (show 1 < 2 ^ 64 by decide)
  obtain ⟨c, hrest, hp⟩ := Cluster.exec_any three
    (afterCrash.campaigned 2 (2 ^ 64 - (afterCrash.disks 2).hard.term + 1)) overwritten (fun c =>
      (c.disks 1).entries == [noopEntry 1 2] && (c.disks 2).entries == [noopEntry 1 1] &&
        (c.disks 3).entries == [noopEntry 1 1]) (by decide +kernel)
  simp only [Bool.and_eq_true, beq_iff_eq] at hp
  exact ⟨c, (hcrash.trans (Cluster.exec_run hrewind)).trans hrest, hp.1.1, hp.1.2, hp.2⟩

end Scripts

end MiniQuorum.Server
