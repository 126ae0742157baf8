import MiniQuorum.Server.Inputs
import MiniQuorum.Server.KVInvariant

/-! Every step of a system keeps the invariant. -/

namespace MiniQuorum.Server

open Raft Storage Codec StateMachine Consensus Consensus.Replog

variable {codec : Marshaler Command} {g : Group} {s s' : Global} {G G' : List Entry}
  {issued issued' : List Command} {history history' : List KVEvent} {h h' : Host} {p p' : Process}
  {cmd : Command} {n : NodeID}

namespace ProcessInv

theorem mono (hp : ProcessInv codec s G issued history h p) (hs : Grows s s') (hG : G <+: G')
    (hissued : ∀ cmd ∈ issued, cmd ∈ issued') (hhistory : history <+: history') :
    ProcessInv codec s' G' issued' history' h p where
  count_le := hp.count_le.trans hG.length_le
  run := by
    rw [take_prefix_mono hG hp.count_le]
    exact hp.run
  entering hcmd := hissued _ (hp.entering hcmd)
  calls hcall := hissued _ (hp.calls hcall)
  waiters hw := ⟨(hp.waiters hw).1, fun hcall => ((hp.waiters hw).2 hcall).mono hs⟩
  outcomes hcall hr := (hp.outcomes hcall hr).mono hhistory (Order.ofLog_isPrefix hG)

theorem continues (hp : ProcessInv codec s G issued history h p) (hc : Continues codec s h h') :
    ProcessInv codec s G issued history h' p where
  count_le := hc.count ▸ hp.count_le
  run := hc.count ▸ hp.run
  entering := hp.entering
  calls := hp.calls
  waiters hw := ⟨(hp.waiters hw).1, fun hcall => hc.owned ((hp.waiters hw).2 hcall)⟩
  outcomes := hp.outcomes

theorem start (hzero : h.appliedCount = 0) :
    ProcessInv codec s G issued history h Process.start where
  count_le := hzero ▸ Nat.zero_le _
  run := by
    rw [hzero]
    rfl
  entering := by rintro cmd ⟨⟩
  calls := by rintro id call ⟨⟩
  waiters := by rintro w ⟨⟩
  outcomes := by rintro id call r ⟨⟩

theorem withEntering (hp : ProcessInv codec s G issued history h p) {entering : List Command}
    (hsub : ∀ cmd ∈ entering, cmd ∈ issued) :
    ProcessInv codec s G issued history h { p with entering } where
  count_le := hp.count_le
  run := hp.run
  entering hcmd := hsub _ hcmd
  calls := hp.calls
  waiters := hp.waiters
  outcomes := hp.outcomes

theorem leave_eq_some {id id' : CallID} {call : Call} (h : (p.leave id).calls id' = some call) :
    p.calls id' = some call := by
  by_cases hid : id' = id
  · simp [Process.leave, hid] at h
  · simpa [Process.leave, hid] using h

theorem leave (hp : ProcessInv codec s G issued history h p) (id : CallID) :
    ProcessInv codec s G issued history h (p.leave id) where
  count_le := hp.count_le
  run := hp.run
  entering := hp.entering
  calls hcall := hp.calls (leave_eq_some hcall)
  waiters hw := ⟨(hp.waiters hw).1, fun hcall => (hp.waiters hw).2 (leave_eq_some hcall)⟩
  outcomes hcall hr := hp.outcomes (leave_eq_some hcall) hr

theorem withApplier (hp : ProcessInv codec s G issued history h p) {applier : KVApplier}
    (hsm : applier.sm = p.applier.sm) (hsub : ∀ w ∈ applier.waiters, w ∈ p.applier.waiters) :
    ProcessInv codec s G issued history h { p with applier } where
  count_le := hp.count_le
  run := by
    show _ = Except.ok applier.sm
    rw [hsm]
    exact hp.run
  entering := hp.entering
  calls := hp.calls
  waiters hw := hp.waiters (hsub _ hw)
  outcomes := hp.outcomes

theorem mem_deliver {deliveries : Deliveries} {id : CallID} {outcome : WaiterOutcome}
    (h : outcome ∈ (p.deliver deliveries).channels id) :
    outcome ∈ p.channels id ∨ (id, outcome) ∈ deliveries := by
  refine (List.mem_append.mp h).imp_right fun h => ?_
  obtain ⟨d, hd, heq⟩ := List.mem_filterMap.mp h
  split at heq
  · rename_i hid
    cases heq
    rw [← hid]
    exact hd
  · cases heq

theorem deliver (hp : ProcessInv codec s G issued history h p) {deliveries : Deliveries}
    (hd : ∀ {id call result}, (id, .result result) ∈ deliveries → p.calls id = some call →
      Answered history (Order.ofLog codec G) call.cmd.id result) :
    ProcessInv codec s G issued history h (p.deliver deliveries) where
  count_le := hp.count_le
  run := hp.run
  entering := hp.entering
  calls := hp.calls
  waiters := hp.waiters
  outcomes hcall hr := (mem_deliver hr).elim (hp.outcomes hcall) fun hmem => hd hmem hcall

theorem failStop (hp : ProcessInv codec s G issued history h p) :
    ProcessInv codec s G issued history h p.failStop := by
  have hdrained : ProcessInv codec s G issued history h
      { p with applier := p.applier.failStop.1 } :=
    hp.withApplier rfl (by rintro w ⟨⟩)
  have hsent : ProcessInv codec s G issued history h
      ({ p with applier := p.applier.failStop.1 }.deliver p.applier.failStop.2) := by
    apply hdrained.deliver
    intro id call result hmem
    obtain ⟨w, _, heq⟩ := List.mem_map.mp hmem
    cases heq
  exact { hsent with }

theorem cancel (hp : ProcessInv codec s G issued history h p) (id : CallID) (index term : Nat) :
    ProcessInv codec s G issued history h
      { p.leave id with applier := p.applier.cancel index term } := by
  apply (hp.leave id).withApplier
  · rw [KVApplier.cancel]
    split <;> rfl
  · intro w hw
    rw [KVApplier.cancel] at hw
    split at hw
    · exact List.mem_of_mem_filter hw
    · exact hw

theorem await (hp : ProcessInv codec s G issued history h p) (hcmd : cmd ∈ issued)
    {index term : Nat} (howned : Owned codec s h cmd ⟨index, term⟩) :
    ProcessInv codec s G issued history h (p.await cmd index term) where
  count_le := hp.count_le
  run := hp.run
  entering := hp.entering
  calls {id call} hcall := by
    by_cases hid : id = p.nextCall
    · simp only [Process.await, hid, Function.update_self, Option.some.injEq] at hcall
      rw [← hcall]
      exact hcmd
    · simp only [Process.await, Function.update_of_ne hid] at hcall
      exact hp.calls hcall
  waiters {w} hw := by
    simp only [Process.await]
    rcases List.mem_cons.mp hw with rfl | hw
    · refine ⟨Nat.lt_succ_self _, fun {call} hcall => ?_⟩
      rw [Function.update_self] at hcall
      cases hcall
      exact howned
    · obtain ⟨hlt, hold⟩ := hp.waiters (List.mem_of_mem_filter hw)
      refine ⟨Nat.lt_succ_of_lt hlt, fun {call} hcall => ?_⟩
      rw [Function.update_of_ne hlt.ne] at hcall
      exact hold hcall
  outcomes {id call result} hcall hr := by
    by_cases hid : id = p.nextCall
    · simp [Process.await, hid] at hr
    · simp only [Process.await, Function.update_of_ne hid] at hcall hr
      exact hp.outcomes hcall hr

end ProcessInv

section Apply

variable {disk : MemStorage} {node : Node} {e : Entry} {rest : List Entry} {hint : NodeID}

theorem HostInv.next (hi : LogInv g s)
    (hh : HostInv g s disk n ⟨node, .draining [] (e :: rest), hint⟩) :
    ∃ k, Host.appliedCount ⟨node, .draining [] (e :: rest), hint⟩ = k ∧
      Host.appliedCount ⟨node, .draining [] rest, hint⟩ = k + 1 ∧ e.index = k + 1 ∧
      (s.leaderLog e.term)[k]? = some e ∧
      ∃ b l, Agrees g s b l (k + 1) ∧ l[k]? = some e := by
  obtain ⟨base, hsaved, heq, _, j, _, hcommitted⟩ := hh
  cases heq
  have hlength := congrArg List.length hcommitted
  have hcommit := hsaved.inv.commit.1
  rw [List.length_drop, List.length_take, List.length_cons, min_eq_left hcommit] at hlength
  have htake := List.take_prefix base.commitIndex base.log.entries
  have hget : base.log.entries[j]? = some e := by
    apply prefix_getElem? htake
    rw [← List.head?_drop, ← hcommitted]
    rfl
  have hvalid : s.Valid Entry.term base.log.entries := hsaved.inv.log ▸ hi.log_valid n
  have hlead : (s.leaderLog e.term)[j]? = some e := by
    apply prefix_getElem? (hvalid j e hget)
    rw [List.getElem?_take_of_lt (Nat.lt_succ_self j), hget]
  have hfront := List.take_prefix (j + 1) base.log.entries
  refine ⟨j, ?_, ?_, ?_, hlead, _, _, hsaved.inv.commit.congr ?_ hfront, hget⟩
  · show base.commitIndex - (rest.length + 1) = j
    omega
  · show base.commitIndex - rest.length = j + 1
    omega
  · rw [hsaved.inv.contiguous.numbered.getElem? hget, Nat.add_comm]
  · omega

theorem LogInv.applied_extends (hi : LogInv g s) {b b' k : Nat} {l : List Entry}
    (hG : Agrees g s b G G.length) (hl : Agrees g s b' l (k + 1)) (he : l[k]? = some e)
    (hk : k ≤ G.length) :
    ∃ G', (G' = G ∨ G' = G ++ [e]) ∧ (∃ b, Agrees g s b G' G'.length) ∧ k + 1 ≤ G'.length ∧
      G'.take (k + 1) = G.take k ++ [e] := by
  have hsplit : l.take (k + 1) = l.take k ++ [e] := by
    rw [List.take_add_one, he]
    rfl
  have hlen : (l.take (k + 1)).length = k + 1 := by
    rw [List.length_take, min_eq_left hl.1]
  by_cases hlt : k < G.length
  · have hp : l.take (k + 1) <+: G := by
      rcases Agreed.unique hi.toInv hl hG with hp | hp
      · rwa [List.take_length] at hp
      · rw [List.take_length] at hp
        have := hp.length_le
        rw [hlen] at this
        rw [hp.eq_of_length (by rw [hlen]; omega)]
    have htake := take_prefix_mono hp (k := k) (by omega)
    rw [List.take_take, min_eq_left (Nat.le_succ k)] at htake
    refine ⟨G, .inl rfl, ⟨b, hG⟩, hlt, ?_⟩
    rw [take_prefix_mono hp (by omega), List.take_take, min_self, hsplit, htake]
  · have hkG : k = G.length := by omega
    have hp : G <+: l.take (k + 1) := by
      rcases Agreed.unique hi.toInv hl hG with hp | hp
      · have := hp.length_le
        rw [List.take_length, hlen] at this
        omega
      · rwa [List.take_length] at hp
    have hGl : G = l.take k := by
      rw [hkG, take_prefix_mono (hp.trans <| List.take_prefix _ _) le_rfl, List.take_length]
    refine ⟨G ++ [e], .inr rfl, ⟨b', ?_⟩, by simp [hkG], ?_⟩
    · rw [hGl, ← hsplit, hlen]
      exact hl.congr le_rfl (by simp)
    · rw [List.take_of_length_le (by simp [hkG]), hkG, List.take_length]

theorem ClientInv.linearize (hclients : ClientInv issued history) (hcodec : codec.RoundTrips)
    (hissued : Issued codec issued e)
    (hl : Linearizes mapSpec history (Order.ofLog codec G)) :
    Linearizes mapSpec history (Order.ofLog codec (G ++ [e])) := by
  rw [Order.ofLog_concat, Order.enter]
  split
  · exact hl
  · rename_i cmd hcmd
    have hmem := hissued.entryCommand hcodec hcmd
    obtain ⟨op, hop, hinvoked⟩ := hclients.invoked hmem
    rw [Order.enlist, hop]
    simp only
    split
    · exact hl
    · rename_i hcovers
      refine hl.linearize hinvoked fun hin => hcovers ?_
      obtain ⟨x, hx, hid⟩ := List.mem_map.mp hin
      rw [Order.covers_iff]
      refine ⟨x, hx, ?_, ?_⟩
      · rw [hid]
        rfl
      · rw [hid]
        exact UInt64.le_refl _

theorem KVApplier.apply_eq_ok {a a' : KVApplier} {deliveries : Deliveries}
    (h : a.apply codec e = .ok (a', deliveries)) :
    ∃ r, a.sm.apply codec (some e) = .ok (a'.sm, r) ∧
      (∀ w ∈ a'.waiters, w ∈ a.waiters) ∧
      ∀ {id result}, (id, .result result) ∈ deliveries → result = r ∧
        ∃ w ∈ a.waiters, w.channel = id ∧ w.key = ⟨e.index, e.term⟩ := by
  rw [KVApplier.apply] at h
  split at h
  · cases h
  · rename_i sm r hsm
    cases h
    refine ⟨r, hsm, fun w hw => List.mem_of_mem_filter hw, ?_⟩
    intro id result hmem
    obtain ⟨w, hw, heq⟩ := List.mem_map.mp hmem
    obtain ⟨hwait, hres⟩ := List.mem_filter.mp hw
    obtain ⟨hid, hout⟩ := Prod.mk.inj heq
    split at hout
    · rename_i hterm
      cases hout
      refine ⟨rfl, w, hwait, hid, ?_⟩
      have hindex := of_decide_eq_true (Bool.and_eq_true_iff.mp hres).1
      rw [← hindex, ← hterm]
    · cases hout

theorem ClientInv.answered (hclients : ClientInv issued history) (hcodec : codec.RoundTrips)
    (hl : Linearizes mapSpec history (Order.ofLog codec G')) {m m' : MapStateMachine} {r : Result}
    {k : Nat} (hrun : MapStateMachine.run codec (G.take k) = .ok m)
    (happly : m.apply codec (some e) = .ok (m', r)) (hG : G.take k ++ [e] <+: G')
    (hcmd : cmd ∈ issued) {key : WaiterKey} (he : e = key.entry codec cmd) :
    Answered history (Order.ofLog codec G') cmd.id r := by
  have hdecode : entryCommand codec e = some cmd := by
    rw [he, entryCommand, WaiterKey.entry, if_pos rfl, hcodec cmd]
  have happly' : m.applyCommand cmd e.index = .ok (m', r) := by
    rw [MapStateMachine.apply] at happly
    subst he
    simp only [WaiterKey.entry, hcodec cmd] at happly
    exact happly
  obtain ⟨_, seq, hle, hans⟩ := (MapStateMachine.run_represents hrun).applyCommand happly'
  have hprefix : (Order.ofLog codec (G.take k)).enlist cmd <+: Order.ofLog codec G' := by
    have hlog : Order.ofLog codec (G.take k ++ [e]) <+: Order.ofLog codec G' :=
      Order.ofLog_isPrefix hG
    rwa [Order.ofLog_concat, Order.enter, hdecode] at hlog
  have hans' := hans.mono hprefix
  by_cases hseq : seq = cmd.seq
  · right
    rw [hseq] at hans'
    exact hans'
  · -- a later operation of the client has been invoked, so this one was completed
    left
    obtain ⟨op, hinvoked⟩ := hl.mem_invoked hans'.mem
    obtain ⟨later, hlater, hid, _⟩ := hclients.origin hinvoked
    obtain ⟨hclient, hlseq⟩ := OpID.mk.inj hid
    refine hclients.one hcmd hlater hclient.symm ?_
    rw [hlseq]
    exact UInt64.lt_of_le_of_ne hle (Ne.symm hseq)

end Apply

section Restart

variable {sys sys' : System} {a : Action}

theorem System.raft_eq_some (h : sys.raft g a = some sys') :
    ∃ c', sys.cluster.act g a = some c' ∧
      ((a.isInternal = true ∧ sys' = { sys with cluster := c' }) ∨
        ((∀ n data, a ≠ .propose n data) ∧ ∃ n, (∀ m ≠ n, c'.hosts m = sys.cluster.hosts m) ∧
          (∀ host, c'.hosts n = some host → host.appliedCount = 0) ∧
          sys' = { sys with cluster := c' }.setProcess n Process.start)) := by
  rw [System.raft.eq_def] at h
  split at h
  · rename_i hinternal
    split at h
    · cases h
    · obtain ⟨c', hact, rfl⟩ := Option.map_eq_some_iff.mp h
      exact ⟨c', hact, .inl ⟨hinternal, rfl⟩⟩
  · split at h
    · rename_i n records _
      obtain ⟨c', hact, rfl⟩ := Option.map_eq_some_iff.mp h
      refine ⟨c', hact, .inr ⟨by rintro _ _ ⟨⟩, n, ?_, ?_, rfl⟩⟩ <;> cases Cluster.acted hact
      · exact fun m hm => Function.update_of_ne hm ..
      · intro host hhost
        simp [Cluster.setHost] at hhost
    · rename_i n rnd _
      obtain ⟨c', hact, rfl⟩ := Option.map_eq_some_iff.mp h
      obtain ⟨node, hnode, hhosts⟩ : ∃ node : Node, node.lastApplied = 0 ∧
          c'.hosts = Function.update sys.cluster.hosts n (some ⟨node, .idle, 0⟩) := by
        cases Cluster.acted hact with
        | recover _ _ hnode =>
          obtain ⟨_, _, rfl⟩ := newRecoveredNode_eq_some hnode
          exact ⟨_, rfl, rfl⟩
      refine ⟨c', hact, .inr ⟨by rintro _ _ ⟨⟩, n, ?_, ?_, rfl⟩⟩
      · intro m hm
        rw [hhosts, Function.update_of_ne hm]
      · intro host hhost
        rw [hhosts, Function.update_self] at hhost
        cases hhost
        exact hnode
    · cases h

end Restart

theorem propose_accepted {a : Node} (hlog : a.log.Contiguous) {data : Bytes}
    (h : (a.propose data).2.2.2 = true) :
    (a.propose data).1.role = .leader ∧
      (a.propose data).1.hardState.term = (a.propose data).2.2.1 ∧
      ∃ k, (a.propose data).2.1 = k + 1 ∧ (a.propose data).1.log.entries[k]? =
        some ⟨(a.propose data).2.1, (a.propose data).2.2.1, .normal, data⟩ := by
  have hrole := propose_role h
  obtain ⟨hassigned, hv⟩ := propose_leader hrole data
  rw [hassigned]
  refine ⟨hv.role.trans hrole, congrArg HardState.term hv.hardState, a.log.lastIndex, rfl, ?_⟩
  rw [hv.log]
  simp [appended, RaftLog.appendLocal, hlog.lastIndex]

namespace KVInv

variable {sys sys' : System} {c' : Cluster}

theorem init (codec : Marshaler Command) (g : Group) :
    KVInv codec g System.init Replog.init [] where
  cluster := ClusterInv.init g
  carries := Cluster.Carries.init
  agreed := ⟨0, Agreed.zero _ _ _⟩
  clients := {
    invoked := by rintro cmd ⟨⟩
    origin := by rintro id op ⟨⟩
    unique := by rintro cmd cmd' ⟨⟩
    one := by rintro cmd cmd' ⟨⟩ }
  linear := Linearizes.nil mapSpec
  processes := by rintro n h ⟨⟩

theorem setProcess (h : KVInv codec g sys s G)
    (hp : ∀ {host}, sys.cluster.hosts n = some host →
      ProcessInv codec s G sys.issued sys.history host p) :
    KVInv codec g (sys.setProcess n p) s G where
  cluster := h.cluster
  carries := h.carries
  agreed := h.agreed
  clients := h.clients
  linear := h.linear
  processes {m host} hhost := by
    by_cases hm : m = n
    · subst hm
      simp only [System.setProcess, Function.update_self]
      exact hp hhost
    · simp only [System.setProcess, Function.update_of_ne hm]
      exact h.processes hhost

theorem act_cluster (h : KVInv codec g sys s G) (hbelow : sys.cluster.TermsBelow) {a : Action}
    (hact : sys.cluster.act g a = some c')
    (hdata : ∀ n data, a = .propose n data → ∃ cmd ∈ sys.issued, data = codec.marshal cmd) :
    ∃ s', Grows s s' ∧ ClusterInv g c' s' ∧ c'.Carries (Issued codec sys.issued) := by
  obtain ⟨s', hgrows, hc'⟩ := h.cluster.act hbelow hact
  refine ⟨s', hgrows, hc', h.carries.act (fun _ _ => .inl rfl) ?_ hact⟩
  intro n data ha index term
  obtain ⟨cmd, hcmd, hmarshal⟩ := hdata n data ha
  exact .inr ⟨rfl, cmd, hcmd, hmarshal⟩

theorem raft (h : KVInv codec g sys s G) (hbelow : sys.cluster.TermsBelow) {a : Action}
    (hraft : sys.raft g a = some sys') : ∃ s' G', KVInv codec g sys' s' G' := by
  obtain ⟨c', hact, hcases⟩ := System.raft_eq_some hraft
  have hown : ∀ n data, a ≠ .propose n data := by
    rintro n data rfl
    rcases hcases with ⟨hinternal, _⟩ | ⟨hne, _⟩
    · cases hinternal
    · exact hne n data rfl
  obtain ⟨s', hgrows, hc', hcarries⟩ := h.act_cluster hbelow hact
    fun n data ha => absurd ha (hown n data)
  obtain ⟨b, hb⟩ := h.agreed
  have hagreed : ∃ b, Agrees g s' b G G.length := ⟨b, hb.mono hgrows le_rfl⟩
  have hmono : ∀ {host : Host} {p : Process}, ProcessInv codec s G sys.issued sys.history host p →
      ProcessInv codec s' G sys.issued sys.history host p := fun hp =>
    hp.mono hgrows (List.prefix_refl _) (fun _ hc => hc) (List.prefix_refl _)
  refine ⟨s', G, ?_⟩
  rcases hcases with ⟨hinternal, rfl⟩ | ⟨_, n, hothers, hzero, rfl⟩
  · refine ⟨hc', hcarries, hagreed, h.clients, h.linear, ?_⟩
    intro m host' hhost'
    obtain ⟨host, hhost, hcont⟩ := h.cluster.continues hc' hact hinternal hhost'
    exact (hmono (h.processes hhost)).continues hcont
  · refine ⟨hc', hcarries, hagreed, h.clients, h.linear, ?_⟩
    intro m host hhost
    by_cases hm : m = n
    · subst hm
      simp only [System.setProcess, Function.update_self]
      exact ProcessInv.start (hzero host hhost)
    · simp only [System.setProcess, Function.update_of_ne hm] at hhost ⊢
      rw [hothers m hm] at hhost
      exact hmono (h.processes hhost)

theorem execute (h : KVInv codec g sys s G) {req : Option Command}
    (hact : sys.execute n req = some sys') : KVInv codec g sys' s G := by
  rw [System.execute.eq_def] at hact
  split at hact
  · cases hact
  · cases hact
    exact h
  · rename_i cmd _ hvalid
    split at hact
    swap
    · cases hact
    rename_i hmay
    cases hact
    obtain ⟨op, hop⟩ := validateCommand_eq_ok hvalid
    by_cases hmem : cmd ∈ sys.issued
    · rw [System.invoke, if_pos hmem]
      refine h.setProcess fun hhost => (h.processes hhost).withEntering ?_
      rintro c (⟨⟩ | ⟨_, hc⟩)
      · exact hmem
      · exact (h.processes hhost).entering hc
    · have hnext : ∀ earlier ∈ sys.issued, earlier.clientId = cmd.clientId →
          earlier.seq < cmd.seq ∧ completed sys.history earlier.id = true := by
        intro earlier hearlier hclient
        simpa [hclient] using List.all_eq_true.mp
          ((Bool.or_eq_true_iff.mp hmay).resolve_left (by simp [hmem])) earlier hearlier
      have hsub : ∀ c ∈ sys.issued, c ∈ cmd :: sys.issued := fun c hc => List.mem_cons_of_mem _ hc
      have hinvoked : KVInv codec g
          { sys with issued := cmd :: sys.issued
                     history := sys.history ++ [.invoke cmd.id op] } s G := by
        refine ⟨h.cluster, h.carries.mono (Issued.mono hsub), h.agreed, h.clients.invoke hop hnext,
          h.linear.invoke ?_, fun hhost => ?_⟩
        · intro i hi
          obtain ⟨c, hc, hid, _⟩ := h.clients.origin hi
          obtain ⟨hclient, hseq⟩ := OpID.mk.inj hid
          have := (hnext c hc hclient).1
          rw [hseq] at this
          exact UInt64.lt_irrefl _ this
        · exact (h.processes hhost).mono (Grows.refl s) (List.prefix_refl _) hsub
            (List.prefix_append _ _)
      rw [System.invoke, if_neg hmem, hop]
      refine hinvoked.setProcess fun hhost => (hinvoked.processes hhost).withEntering ?_
      rintro c (⟨⟩ | ⟨_, hc⟩)
      · exact List.mem_cons_self
      · exact hsub c ((h.processes hhost).entering hc)

theorem propose (h : KVInv codec g sys s G) (hbelow : sys.cluster.TermsBelow)
    (hpropose : sys.propose codec g n cmd = some sys') : ∃ s' G', KVInv codec g sys' s' G' := by
  rw [System.propose] at hpropose
  dsimp only at hpropose
  split at hpropose
  · cases hpropose
  rename_i hentering
  have hentering : cmd ∈ (sys.processes n).entering := not_not.mp hentering
  have herase : ∀ {host}, sys.cluster.hosts n = some host →
      ∀ c ∈ (sys.processes n).entering.erase cmd, c ∈ sys.issued := fun hhost c hc =>
    (h.processes hhost).entering (List.mem_of_mem_erase hc)
  split at hpropose
  · cases hpropose
    exact ⟨s, G, h.setProcess fun hhost => (h.processes hhost).withEntering (herase hhost)⟩
  · split at hpropose
    swap
    · cases hpropose
    rename_i node hint hhost
    obtain ⟨c', hact, rfl⟩ := Option.map_eq_some_iff.mp hpropose
    have hcmd : cmd ∈ sys.issued := (h.processes hhost).entering hentering
    obtain ⟨s', hgrows, hc', hcarries⟩ := h.act_cluster hbelow hact (by
      rintro _ _ ⟨⟩
      exact ⟨cmd, hcmd, rfl⟩)
    obtain ⟨hint', rfl⟩ : ∃ hint', c' = sys.cluster.setHost n
        (some ⟨(node.propose (codec.marshal cmd)).1, .stepped, hint'⟩) := by
      rw [Cluster.act, hhost] at hact
      exact ⟨_, (Option.some.inj hact).symm⟩
    have hmono : ∀ {host : Host} {p : Process},
        ProcessInv codec s G sys.issued sys.history host p →
        ProcessInv codec s' G sys.issued sys.history host p := fun hp =>
      hp.mono hgrows (List.prefix_refl _) (fun _ hc => hc) (List.prefix_refl _)
    obtain ⟨b, hb⟩ := h.agreed
    refine ⟨s', G, hc', hcarries, ⟨b, hb.mono hgrows le_rfl⟩, h.clients, h.linear, ?_⟩
    intro m host' hhost'
    by_cases hm : m = n
    swap
    · simp only [System.setProcess, Cluster.setHost, Function.update_of_ne hm] at hhost' ⊢
      exact hmono (h.processes hhost')
    · subst hm
      simp only [Cluster.setHost, System.setProcess, Function.update_self, Option.some.injEq]
        at hhost' ⊢
      subst hhost'
      have hstep : Continues codec s' ⟨node, .idle, hint⟩
          ⟨(node.propose (codec.marshal cmd)).1, .stepped, hint'⟩ :=
        Continues.input (Derives.propose node fun _ _ => trivial)
      have hleft := ((hmono (h.processes hhost)).withEntering (herase hhost)).continues hstep
      split
      · rename_i haccepted
        have hset : Settled g s (sys.cluster.disks m) m node := h.cluster.hosts m _ hhost
        obtain ⟨hrole, hterm, k, hk, hget⟩ := propose_accepted hset.inv.contiguous haccepted
        exact hleft.await hcmd ⟨k, hk, .inr ⟨trivial, hrole, hterm, hget⟩⟩
      · exact hleft

theorem completeOp (h : KVInv codec g sys s G) {op : OpID} {r : Result}
    (ha : Answered sys.history (Order.ofLog codec G) op r) : KVInv codec g (sys.complete op r) s G := by
  rw [System.complete]
  split
  · exact h
  · rename_i hopen
    exact {
      cluster := h.cluster
      carries := h.carries
      agreed := h.agreed
      clients := h.clients.respond op r
      linear := h.linear.respond (ha.resolve_left hopen)
      processes := fun hhost => (h.processes hhost).mono (Grows.refl s) (List.prefix_refl _)
        (fun _ hc => hc) (List.prefix_append _ _) }

theorem respond (h : KVInv codec g sys s G) {id : CallID}
    (hact : sys.respond n id = some sys') : KVInv codec g sys' s G := by
  rw [System.respond] at hact
  dsimp only at hact
  split at hact
  swap
  · cases hact
  rename_i host call outcome rest hhost hcall hchannel
  have hleft : KVInv codec g (sys.setProcess n ((sys.processes n).leave id)) s G :=
    h.setProcess fun hhost => (h.processes hhost).leave id
  split at hact
  · cases hact
    refine hleft.completeOp ((h.processes hhost).outcomes hcall ?_)
    rw [hchannel]
    exact List.mem_cons_self
  · cases hact
    exact hleft
  · cases hact
    exact hleft

theorem cancel (h : KVInv codec g sys s G) {id : CallID} (hact : sys.cancel n id = some sys') :
    KVInv codec g sys' s G := by
  obtain ⟨call, _, rfl⟩ := Option.map_eq_some_iff.mp hact
  exact h.setProcess fun hhost => (h.processes hhost).cancel id _ _

theorem saveError (h : KVInv codec g sys s G) (hact : sys.saveError n = some sys') :
    KVInv codec g sys' s G := by
  rw [System.saveError] at hact
  split at hact
  · split at hact
    · cases hact
    · cases hact
      exact h.setProcess fun hhost => (h.processes hhost).failStop
  · cases hact

theorem apply (h : KVInv codec g sys s G) (hcodec : codec.RoundTrips)
    (hbelow : sys.cluster.TermsBelow) (happly : sys.apply codec g n = some sys') :
    ∃ s' G', KVInv codec g sys' s' G' := by
  rw [System.apply] at happly
  split at happly
  · cases happly
  split at happly
  swap
  · cases happly
  rename_i node e rest hint hhost
  split at happly
  · cases happly
    exact ⟨s, G, h.setProcess fun hhost => (h.processes hhost).failStop⟩
  rename_i applier deliveries happlied
  obtain ⟨c', hact, rfl⟩ := Option.map_eq_some_iff.mp happly
  have hp := h.processes hhost
  obtain ⟨r, hsm, hwaiters, hdeliveries⟩ := KVApplier.apply_eq_ok happlied
  obtain ⟨k, hcount, hcount', hindex, hlead, b', l, hl, hget⟩ :=
    (h.cluster.hosts n _ hhost).next h.cluster.global
  obtain ⟨b, hb⟩ := h.agreed
  obtain ⟨G', hG', hagreed', hlt, htake⟩ :=
    h.cluster.global.applied_extends hb hl hget (hcount ▸ hp.count_le)
  have hGG' : G <+: G' := by
    rcases hG' with rfl | rfl
    · exact List.prefix_refl _
    · exact List.prefix_append _ _
  have hissued : Issued codec sys.issued e :=
    (h.carries.hosts n _ hhost).phase.1 e List.mem_cons_self
  have hlinear : Linearizes mapSpec sys.history (Order.ofLog codec G') := by
    rcases hG' with rfl | rfl
    · exact h.linear
    · exact h.clients.linearize hcodec hissued h.linear
  obtain ⟨s', hgrows, hc', hcarries⟩ := h.act_cluster hbelow hact (by rintro _ _ ⟨⟩)
  have hhosts' : c'.hosts = Function.update sys.cluster.hosts n
      (some ⟨node, .draining [] rest, hint⟩) := by
    simp only [Cluster.act, hhost, Option.some.injEq] at hact
    rw [← hact]
    rfl
  have hrun : MapStateMachine.run codec (G.take k) = .ok (sys.processes n).applier.sm :=
    hcount ▸ hp.run
  obtain ⟨b'', hb''⟩ := hagreed'
  refine ⟨s', G', hc', hcarries, ⟨b'', hb''.mono hgrows le_rfl⟩, h.clients, hlinear, ?_⟩
  intro m host' hhost'
  rw [System.setProcess] at hhost' ⊢
  dsimp only at hhost' ⊢
  rw [hhosts'] at hhost'
  by_cases hm : m = n
  swap
  · rw [Function.update_of_ne hm] at hhost' ⊢
    exact (h.processes hhost').mono hgrows hGG' (fun _ hc => hc) (List.prefix_refl _)
  · subst hm
    rw [Function.update_self] at hhost' ⊢
    cases hhost'
    have hmono := hp.mono hgrows hGG' (fun _ hc => hc) (List.prefix_refl sys.history)
    have hbase : ProcessInv codec s' G' sys.issued sys.history ⟨node, .draining [] rest, hint⟩
        { sys.processes m with applier } := {
      count_le := hcount' ▸ hlt
      run := by
        rw [hcount', htake, MapStateMachine.run_concat, hrun]
        show ((sys.processes m).applier.sm.apply codec (some e)).map Prod.fst = _
        rw [hsm]
        rfl
      entering := hmono.entering
      calls := hmono.calls
      waiters := fun hw => ⟨(hmono.waiters (hwaiters _ hw)).1, fun hcall =>
        ((hmono.waiters (hwaiters _ hw)).2 hcall).of_saved id _⟩
      outcomes := hmono.outcomes }
    refine hbase.deliver fun {id call result} hmem hcall => ?_
    obtain ⟨rfl, w, hw, rfl, hkey⟩ := hdeliveries hmem
    obtain ⟨k', hk', howned⟩ := ((hp.waiters hw).2 hcall).saved id
    rw [hkey] at hk' howned
    -- the committed entry is the one this call proposed
    obtain rfl : k = k' := by
      simp only at hk'
      omega
    have he := Option.some.inj (hlead.symm.trans howned)
    exact h.clients.answered hcodec hlinear hrun hsm (htake ▸ List.take_prefix _ _)
      (hp.calls hcall) he

theorem act (h : KVInv codec g sys s G) (hcodec : codec.RoundTrips)
    (hbelow : sys.cluster.TermsBelow) {a : KVAction} (hact : sys.act codec g a = some sys') :
    ∃ s' G', KVInv codec g sys' s' G' := by
  cases a with
  | raft a => exact h.raft hbelow hact
  | execute n cmd => exact ⟨s, G, h.execute hact⟩
  | propose n cmd => exact h.propose hbelow hact
  | apply n => exact h.apply hcodec hbelow hact
  | respond n id => exact ⟨s, G, h.respond hact⟩
  | cancel n id => exact ⟨s, G, h.cancel hact⟩
  | saveError n => exact ⟨s, G, h.saveError hact⟩

theorem reachable (hcodec : codec.RoundTrips) (hrun : System.RunBelow codec g System.init sys) :
    ∃ s G, KVInv codec g sys s G ∧ sys.cluster.TermsBelow := by
  induction hrun with
  | refl => exact ⟨_, _, init codec g, by rintro n h ⟨⟩⟩
  | tail _ hstep ih =>
    obtain ⟨s, G, h, hbelow⟩ := ih
    obtain ⟨⟨a, hact⟩, hnext⟩ := hstep
    obtain ⟨s', G', h'⟩ := h.act hcodec hbelow hact
    exact ⟨s', G', h', hnext⟩

end KVInv

end MiniQuorum.Server
