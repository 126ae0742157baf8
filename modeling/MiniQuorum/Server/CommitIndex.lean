import MiniQuorum.Server.Safety
import MiniQuorum.Server.Inputs

/-! What changes within one incarnation of a node, and how its commit index moves. -/

namespace MiniQuorum.Server

open Raft Storage Consensus Consensus.Replog

variable {g : Group} {c c' : Cluster} {s s' : Global} {n : NodeID}

def Input.Delivered (c : Cluster) (n : NodeID) : Input → Prop
  | .step m _ => m ∈ c.network ∧ m.toID = n
  | _ => True

/-- What one action does to a running host. -/
inductive HostStep (c : Cluster) (n : NodeID) : Host → Host → Prop
  | input {node : Node} {hint hint' : NodeID} (input : Input) (hin : input.Delivered c n) :
    HostStep c n ⟨node, .idle, hint⟩ ⟨input.run node, .stepped, hint'⟩
  | ready {node : Node} {hint : NodeID} :
    HostStep c n ⟨node, .stepped, hint⟩ ⟨node.ready.2, .saving node.ready.1, hint⟩
  | save {node : Node} {hint : NodeID} {r : Ready} :
    HostStep c n ⟨node, .saving r, hint⟩ ⟨node, .draining r.messages r.committedEntries, hint⟩
  | send {node : Node} {hint : NodeID} {m : Message} {messages : List Message}
    {committed : List Entry} :
    HostStep c n ⟨node, .draining (m :: messages) committed, hint⟩
      ⟨node, .draining messages committed, hint⟩
  | apply {node : Node} {hint : NodeID} {e : Entry} {committed : List Entry} :
    HostStep c n ⟨node, .draining [] (e :: committed), hint⟩ ⟨node, .draining [] committed, hint⟩
  | advance {node : Node} {hint : NodeID} :
    HostStep c n ⟨node, .draining [] [], hint⟩ ⟨node.advance, .idle, hint⟩

inductive MemberStep (g : Group) (c c' : Cluster) (n : NodeID) : Prop
  | same (hosts : c'.hosts n = c.hosts n) (inc : c'.incarnation n = c.incarnation n)
  | step {h h' : Host} (before : c.hosts n = some h) (after : c'.hosts n = some h')
    (step : HostStep c n h h') (inc : c'.incarnation n = c.incarnation n)
  | crash (after : c'.hosts n = none) (inc : c'.incarnation n = c.incarnation n)
  | recover {node : Node} {rnd : Rand} (before : c.hosts n = none)
    (after : c'.hosts n = some ⟨node, .idle, 0⟩)
    (node : newRecoveredNode (g.config n) (c.disks n) rnd = some node)
    (inc : c'.incarnation n = c.incarnation n + 1)

theorem MemberStep.setHost {m : NodeID} {h h' : Host} (hhost : c.hosts m = some h)
    (hstep : HostStep c m h h') (hhosts : c'.hosts = Function.update c.hosts m (some h'))
    (hinc : c'.incarnation = c.incarnation) : MemberStep g c c' n := by
  by_cases hn : n = m
  · subst hn
    refine .step hhost ?_ hstep (congrFun hinc n)
    rw [hhosts, Function.update_self]
  · refine .same ?_ (congrFun hinc n)
    rw [hhosts, Function.update_of_ne hn]

theorem Cluster.act_member {a : Action} (hact : c.act g a = some c') (n : NodeID) :
    MemberStep g c c' n := by
  cases Cluster.acted hact with
  | tick rnd hhost => exact .setHost hhost (.input (.tick rnd) trivial) rfl rfl
  | step rnd hhost hm => exact .setHost hhost (.input (.step _ rnd) hm) rfl rfl
  | propose data hhost => exact .setHost hhost (.input (.propose data) trivial) rfl rfl
  | ready hhost => exact .setHost hhost .ready rfl rfl
  | save hhost => exact .setHost hhost .save rfl rfl
  | send hhost => exact .setHost hhost .send rfl rfl
  | apply hhost => exact .setHost hhost .apply rfl rfl
  | advance hhost => exact .setHost hhost .advance rfl rfl
  | @crash m =>
    by_cases hn : n = m
    · subst hn
      exact .crash (Function.update_self ..) rfl
    · exact .same (Function.update_of_ne hn ..) rfl
  | @recover m _ _ hhost _ hnode =>
    by_cases hn : n = m
    · subst hn
      exact .recover hhost (Function.update_self ..) hnode (Function.update_self ..)
    · exact .same (Function.update_of_ne hn ..) (Function.update_of_ne hn ..)

theorem ClusterInv.within_incarnation {R : Host → Host → Prop} (hrefl : ∀ h, R h h)
    (htrans : ∀ {h₁ h₂ h₃}, R h₁ h₂ → R h₂ h₃ → R h₁ h₃)
    (hstep : ∀ {c₁ s₁ h₁ h₂}, Cluster.RunBelow g c c₁ → ClusterInv g c₁ s₁ → c₁.TermsBelow →
      c₁.hosts n = some h₁ → HostStep c₁ n h₁ h₂ → R h₁ h₂)
    (h : ClusterInv g c s) (hbelow : c.TermsBelow) (hrun : Cluster.RunBelow g c c')
    {host host' : Host} (hhost : c.hosts n = some host) (hhost' : c'.hosts n = some host')
    (hinc : c'.incarnation n = c.incarnation n) : R host host' := by
  suffices hall : c.incarnation n ≤ c'.incarnation n ∧
      (c'.incarnation n = c.incarnation n → ∀ x, c'.hosts n = some x → R host x) from
    hall.2 hinc host' hhost'
  clear hhost' hinc
  induction hrun with
  | refl =>
    refine ⟨le_rfl, fun _ x hx => ?_⟩
    cases hhost.symm.trans hx
    exact hrefl host
  | @tail c₁ c₂ hrun₁ hnext ih =>
    obtain ⟨⟨a, hact⟩, _⟩ := hnext
    obtain ⟨s₁, _, h₁, hbelow₁⟩ := h.run hbelow hrun₁
    cases Cluster.act_member hact n with
    | same hsame hinc =>
      rw [hsame, hinc]
      exact ih
    | step hb ha hs hinc =>
      rw [hinc]
      refine ⟨ih.1, fun heq x hx => ?_⟩
      cases ha.symm.trans hx
      exact htrans (ih.2 heq _ hb) (hstep hrun₁ h₁ hbelow₁ hb hs)
    | crash ha hinc =>
      rw [hinc]
      refine ⟨ih.1, fun _ x hx => ?_⟩
      cases ha.symm.trans hx
    | recover _ _ _ hinc =>
      rw [hinc]
      exact ⟨ih.1.trans (Nat.le_succ _), fun heq => absurd heq (Nat.lt_succ_of_le ih.1).ne'⟩

theorem MsgInv.commitCovered {m : Message} (h : MsgInv g s m) : CommitCovered m := by
  intro req hbody
  have hb := h.body
  rw [hbody] at hb
  exact hb.2.commit_le

theorem Input.commitIndex_le {node : Node} {input : Input}
    (h : ∀ m rnd, input = .step m rnd → CommitCovered m) :
    node.commitIndex ≤ (input.run node).commitIndex := by
  cases input with
  | tick rnd =>
    rcases Moves.tick (j := 0) (i := node.commitIndex) rnd node with hmoves | ⟨_, hmoves⟩
    · exact hmoves.commitIndex_ge le_rfl
    · exact hmoves.commitIndex_ge le_rfl
  | step m rnd =>
    have hmoves := Moves.step rnd node (Moves.replacesUpTo_zero node m)
      (.inr ⟨le_rfl, h m rnd rfl⟩)
    exact hmoves.commitIndex_ge le_rfl
  | propose data =>
    exact (Moves.propose (j := 0) (i := node.commitIndex) node data).commitIndex_ge le_rfl

theorem HostStep.commitIndex_le {h h' : Host} (hinv : ClusterInv g c s)
    (hs : HostStep c n h h') : h.node.commitIndex ≤ h'.node.commitIndex := by
  cases hs with
  | input input hin =>
    apply Input.commitIndex_le
    rintro m rnd rfl
    exact (hinv.network m hin.1).commitCovered
  | @advance node =>
    obtain ⟨_, _, _, _, _, heq⟩ := advance_eq node
    rw [heq]
  | _ => exact Nat.le_refl _

/-- The commit index never moves backwards: no append announces a commit beyond its own
entries, and so within an incarnation the commit index only grows and stays between what is
applied and the end of the log. -/
theorem commit_index_monotone (g : Group) (c c' : Cluster)
    (hrun : Cluster.RunBelow g Cluster.init c) (hrun' : Cluster.RunBelow g c c') :
    (∀ m ∈ c.network, ∀ req, m.body = .appendEntries req →
      req.leaderCommit ≤ req.prevLogIndex + req.entries.length) ∧
    (∀ n h h', c.hosts n = some h → c'.hosts n = some h' → c'.incarnation n = c.incarnation n →
      h.node.commitIndex ≤ h'.node.commitIndex) ∧
    ∀ n h, c.hosts n = some h →
      h.node.lastApplied ≤ h.node.commitIndex ∧ h.node.commitIndex ≤ h.node.log.lastIndex := by
  obtain ⟨s, hinv, hbelow⟩ := ClusterInv.reachable hrun
  refine ⟨fun m hm req hbody => (hinv.network m hm).commitCovered req hbody, ?_, ?_⟩
  · intro n h h' hh hh' hinc
    exact hinv.within_incarnation (R := fun h h' => h.node.commitIndex ≤ h'.node.commitIndex)
      (fun h => Nat.le_refl h.node.commitIndex) Nat.le_trans
      (fun _ hc _ _ hs => hs.commitIndex_le hc)
      hbelow hrun' hh hh' hinc
  · intro n h hh
    obtain ⟨s', _, _, hnode, _⟩ := (hinv.hosts n h hh).complete hinv.global
    rw [hnode.contiguous.lastIndex]
    exact ⟨hnode.applied, hnode.commit.1⟩

theorem commit_index_monotone_replicated :
    ∃ c h, Cluster.RunBelow three Cluster.init c ∧ c.hosts 2 = some h ∧ h.node.commitIndex = 1 ∧
      h.node.lastApplied ≤ h.node.commitIndex ∧ h.node.commitIndex ≤ h.node.log.lastIndex := by
  obtain ⟨c, hrun, hp⟩ := execBelow_any three replicated
    (fun c => (c.hosts 2).any fun h => h.node.commitIndex == 1) (by decide +kernel)
  obtain ⟨h, hh, hp⟩ := Option.any_eq_true .. |>.mp hp
  exact ⟨c, h, hrun, hh, beq_iff_eq.mp hp, (commit_index_monotone three c c hrun .refl).2.2 2 h hh⟩

def committedThree : List Action :=
  [.recover 1 none, .recover 2 none, .recover 3 none] ++ elect 3 1 1 0 0 ++ elect 1 2 2 0 0 ++
  [.propose 1 [7]] ++ drive 1 0 0 ++ [.propose 1 [8]] ++ drive 1 0 0 ++
  [.step 2 (appendRequest 1 2 2 0 0 [] 0) none] ++ drive 2 1 0 ++
  [.step 1 (appendSuccess 2 1 2 0) none] ++ drive 1 1 0 ++
  [.step 2 (appendRequest 1 2 2 0 0
    [noopEntry 1 2, ⟨2, 2, .normal, [7]⟩, ⟨3, 2, .normal, [8]⟩] 0) none] ++ drive 2 1 0 ++
  [.step 1 (appendSuccess 2 1 2 3) none] ++ drive 1 1 3 ++ [.crash 2 0]

def afterThree : Cluster := (Cluster.init.exec three committedThree).get (by decide +kernel)

theorem run_rewound (as : List Action) (p : Cluster → Bool)
    (h : ((afterThree.campaigned 2 (2 ^ 64 - (afterThree.disks 2).hard.term + 1)).exec three as).any p =
      true) :
    ∃ c, Cluster.Run three Cluster.init c ∧ p c = true := by
  have hfirst : Cluster.Run three Cluster.init afterThree :=
    Cluster.exec_run (Option.some_get _).symm
  have hdisk : afterThree.disks 2 =
      ⟨⟨2, 1⟩, [noopEntry 1 2, ⟨2, 2, .normal, [7]⟩, ⟨3, 2, .normal, [8]⟩]⟩ := by decide +kernel
  have hdown : afterThree.hosts 2 = none := Option.isNone_iff_eq_none.mp (by decide +kernel)
  obtain ⟨_, hrewind, rfl, _⟩ := rewind (g := three) (c := afterThree) (n := 2)
    (by decide) (by decide) rfl hdown (by rw [hdisk]; exact ⟨rfl, rfl, rfl, trivial⟩)
    (by rw [hdisk]; decide) (by rw [hdisk]; decide) (show 1 < 2 ^ 64 by decide)
  obtain ⟨c, hrest, hp⟩ := Cluster.exec_any three _ as p h
  exact ⟨c, (hfirst.trans (Cluster.exec_run hrewind)).trans hrest, hp⟩

def shorterLeader : List Action :=
  overwritten ++ [.tick 2 none] ++ drive 2 2 0 ++ [.tick 2 none] ++ drive 2 2 0 ++
  [.step 3 (voteRequest 2 3 3 1 1) none] ++ drive 3 1 0 ++
  [.step 2 (voteGrant 3 2 3) none] ++ drive 2 2 0 ++
  [.step 1 (appendRequest 2 1 3 1 1 [] 0) none] ++ drive 1 1 0 ++
  [.step 2 ⟨1, 2, 3, .appendEntriesResp ⟨3, false, 0⟩⟩ none] ++ drive 2 1 0 ++
  [.step 1 (appendRequest 2 1 3 0 0 [noopEntry 1 1, noopEntry 2 3] 0) none]

/-- Without the bound on terms a running node's log becomes shorter than what it applied. -/
theorem commit_index_monotone_wraps :
    ∃ c h, Cluster.Run three Cluster.init c ∧ c.hosts 1 = some h ∧
      h.node.log.lastIndex < h.node.commitIndex := by
  obtain ⟨c, hrun, hp⟩ := run_rewound shorterLeader
    (fun c => (c.hosts 1).any fun h => h.node.log.lastIndex < h.node.commitIndex)
    (by decide +kernel)
  obtain ⟨h, hh, hp⟩ := Option.any_eq_true .. |>.mp hp
  exact ⟨c, h, hrun, hh, of_decide_eq_true hp⟩

end MiniQuorum.Server
