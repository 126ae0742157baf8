import MiniQuorum.Server.ClusterInvariant
import MiniQuorum.Server.KV
import MiniQuorum.Server.Provenance
import MiniQuorum.StateMachine.ExactlyOnce

/-! The invariant behind linearizability.  `G` is the longest log prefix that any state
machine has applied; operations take effect when their first entry joins it. -/

namespace MiniQuorum.Server

open Raft Storage Codec StateMachine Consensus Consensus.Replog

def Host.appliedCount (h : Host) : Nat :=
  match h.phase with
  | .draining _ committed => h.node.commitIndex - committed.length
  | _ => h.node.lastApplied

def Phase.Unsaved : Phase → Prop
  | .stepped => True
  | .saving _ => True
  | _ => False

def WaiterKey.entry (codec : Marshaler Command) (key : WaiterKey) (cmd : Command) : Entry :=
  ⟨key.index, key.term, .normal, codec.marshal cmd⟩

/-- The leader of `key.term` put `cmd` at `key.index`: the abstract log has it, or the node
holds it as that leader and is about to save it. -/
def Owned (codec : Marshaler Command) (s : Global) (h : Host) (cmd : Command) (key : WaiterKey) :
    Prop :=
  ∃ k, key.index = k + 1 ∧ ((s.leaderLog key.term)[k]? = some (key.entry codec cmd) ∨
    h.phase.Unsaved ∧ h.node.role = .leader ∧ h.node.hardState.term = key.term ∧
      h.node.log.entries[k]? = some (key.entry codec cmd))

section Hosts

variable {codec : Marshaler Command} {g : Group} {c c' : Cluster} {s s' : Global} {n : NodeID}
  {disk : MemStorage} {h h' : Host} {cmd : Command} {key : WaiterKey}

theorem Owned.mono (hg : Grows s s') (ho : Owned codec s h cmd key) : Owned codec s' h cmd key := by
  obtain ⟨k, hk, ho⟩ := ho
  exact ⟨k, hk, ho.imp_left (prefix_getElem? (hg.leaderLog _))⟩

theorem Owned.saved (ho : Owned codec s h cmd key) (hsaved : ¬ h.phase.Unsaved) :
    ∃ k, key.index = k + 1 ∧ (s.leaderLog key.term)[k]? = some (key.entry codec cmd) := by
  obtain ⟨k, hk, ho⟩ := ho
  exact ⟨k, hk, ho.resolve_right fun h => hsaved h.1⟩

theorem Owned.of_saved (ho : Owned codec s h cmd key) (hsaved : ¬ h.phase.Unsaved) (h' : Host) :
    Owned codec s h' cmd key := by
  obtain ⟨k, hk, ho⟩ := ho.saved hsaved
  exact ⟨k, hk, .inl ho⟩

structure Continues (codec : Marshaler Command) (s : Global) (h h' : Host) : Prop where
  count : h'.appliedCount = h.appliedCount
  owned : ∀ {cmd key}, Owned codec s h cmd key → Owned codec s h' cmd key

theorem Continues.input {node node' : Node} {hint hint' : NodeID}
    (hd : Derives (fun _ => True) node node') :
    Continues codec s ⟨node, .idle, hint⟩ ⟨node', .stepped, hint'⟩ where
  count := hd.lastApplied
  owned ho := ho.of_saved id _

theorem Continues.ready {node : Node} {hint : NodeID} :
    Continues codec s ⟨node, .stepped, hint⟩ ⟨node.ready.2, .saving node.ready.1, hint⟩ where
  count := rfl
  owned ho := ho

theorem Stepped.committed_length {a : Node} (hs : Stepped g s disk n a) (hi : LogInv g s) :
    a.commitIndex - a.readyWithoutCapture.committedEntries.length = a.lastApplied := by
  obtain ⟨s', hcall⟩ := hs.called hi
  have hcommit := hcall.inv.commit.1
  have happlied := hcall.inv.applied
  rw [ready_committedEntries hcall.inv.contiguous, List.length_drop, List.length_take]
  omega

theorem Continues.save {node : Node} {r : Ready} {hint : NodeID} (hi : LogInv g s)
    (hold : HostInv g s disk n ⟨node, .saving r, hint⟩) {disk' : MemStorage}
    (hnew : HostInv g s' disk' n ⟨node, .draining r.messages r.committedEntries, hint⟩) :
    Continues codec s' ⟨node, .saving r, hint⟩
      ⟨node, .draining r.messages r.committedEntries, hint⟩ where
  count := by
    obtain ⟨base, hstep, heq⟩ := hold
    cases heq
    exact hstep.committed_length hi
  owned {cmd key} ho := by
    obtain ⟨base, hsaved, heq, _⟩ := hnew
    cases heq
    obtain ⟨k, hk, ho | ⟨_, hrole, hterm, hget⟩⟩ := ho
    · exact ⟨k, hk, .inl ho⟩
    · refine ⟨k, hk, .inl ?_⟩
      have hlog := (hsaved.inv.leader hrole).leaderLog
      rw [← hterm]
      exact hlog ▸ hget

theorem Continues.send {node : Node} {messages messages' : List Message} {committed : List Entry}
    {hint : NodeID} : Continues codec s ⟨node, .draining messages committed, hint⟩
      ⟨node, .draining messages' committed, hint⟩ where
  count := rfl
  owned ho := ho

theorem Continues.advance {node : Node} {hint : NodeID}
    (hold : HostInv g s disk n ⟨node, .draining [] [], hint⟩) :
    Continues codec s' ⟨node, .draining [] [], hint⟩ ⟨node.advance, .idle, hint⟩ where
  count := by
    obtain ⟨base, hsaved, heq, _⟩ := hold
    cases heq
    exact advance_lastApplied hsaved.inv.contiguous hsaved.inv.commit.1 hsaved.inv.applied
  owned ho := ho.of_saved id _

theorem ClusterInv.continues (hc : ClusterInv g c s) (hc' : ClusterInv g c' s') {a : Action}
    (hact : c.act g a = some c') (hinternal : a.isInternal = true) {m : NodeID} {h' : Host}
    (hh' : c'.hosts m = some h') :
    ∃ h, c.hosts m = some h ∧ Continues codec s' h h' := by
  have hrefl : ∀ h : Host, Continues codec s' h h := fun h => ⟨rfl, id⟩
  -- the one host that moved against all others
  have key : ∀ {n : NodeID} {h h'' : Host}, c.hosts n = some h → Continues codec s' h h'' →
      c'.hosts = Function.update c.hosts n (some h'') →
      ∃ h, c.hosts m = some h ∧ Continues codec s' h h' := by
    intro n h h'' hh hcont heq
    by_cases hm : m = n
    · subst hm
      rw [heq, Function.update_self] at hh'
      cases hh'
      exact ⟨h, hh, hcont⟩
    · rw [heq, Function.update_of_ne hm] at hh'
      exact ⟨h', hh', hrefl h'⟩
  cases Cluster.acted hact with
  | tick rnd hhost =>
    exact key hhost (Continues.input (Derives.tick (fun _ _ => trivial) rnd _)) rfl
  | step rnd hhost _ =>
    exact key hhost (Continues.input
      (Derives.step (fun _ _ => trivial) rnd _ fun _ _ _ _ => trivial)) rfl
  | ready hhost => exact key hhost Continues.ready rfl
  | save hhost =>
    refine key hhost (Continues.save hc.global (hc.hosts _ _ hhost) (hc'.hosts _ _ ?_)) rfl
    exact Function.update_self ..
  | send hhost => exact key hhost Continues.send rfl
  | advance hhost => exact key hhost (Continues.advance (hc.hosts _ _ hhost)) rfl
  | propose | apply | crash | recover => cases hinternal

end Hosts

section Statements

variable (codec : Marshaler Command)

def Issued (issued : List Command) (e : Entry) : Prop :=
  e.type = .noop ∨ e.type = .normal ∧ ∃ cmd ∈ issued, e.data = codec.marshal cmd

/-- The discipline the clients keep. -/
structure ClientInv (issued : List Command) (history : List KVEvent) : Prop where
  invoked : ∀ {cmd}, cmd ∈ issued → ∃ op, cmd.mapOp = some op ∧ .invoke cmd.id op ∈ history
  origin : ∀ {id op}, .invoke id op ∈ history → ∃ cmd ∈ issued, cmd.id = id ∧ cmd.mapOp = some op
  unique : ∀ {cmd cmd'}, cmd ∈ issued → cmd' ∈ issued → cmd.id = cmd'.id → cmd = cmd'
  one : ∀ {cmd cmd'}, cmd ∈ issued → cmd' ∈ issued → cmd.clientId = cmd'.clientId →
    cmd.seq < cmd'.seq → completed history cmd.id = true

def Answered (history : List KVEvent) (order : Order) (op : OpID) (result : Result) : Prop :=
  completed history op = true ∨ AnswersIn mapSpec order op result

/-- The process of host `h` while the applied log is `G`. -/
structure ProcessInv (s : Global) (G : List Entry) (issued : List Command)
    (history : List KVEvent) (h : Host) (p : Process) : Prop where
  count_le : h.appliedCount ≤ G.length
  run : MapStateMachine.run codec (G.take h.appliedCount) = .ok p.applier.sm
  entering : ∀ {cmd}, cmd ∈ p.entering → cmd ∈ issued
  calls : ∀ {id call}, p.calls id = some call → call.cmd ∈ issued
  waiters : ∀ {w}, w ∈ p.applier.waiters → w.channel < p.nextCall ∧
    ∀ {call}, p.calls w.channel = some call → Owned codec s h call.cmd w.key
  outcomes : ∀ {id call result}, p.calls id = some call → .result result ∈ p.channels id →
    Answered history (Order.ofLog codec G) call.cmd.id result

structure KVInv (g : Group) (sys : System) (s : Global) (G : List Entry) : Prop where
  cluster : ClusterInv g sys.cluster s
  carries : sys.cluster.Carries (Issued codec sys.issued)
  agreed : ∃ b, Agrees g s b G G.length
  clients : ClientInv sys.issued sys.history
  linear : Linearizes mapSpec sys.history (Order.ofLog codec G)
  processes : ∀ {n h}, sys.cluster.hosts n = some h →
    ProcessInv codec s G sys.issued sys.history h (sys.processes n)

end Statements

section Histories

variable {codec : Marshaler Command} {issued issued' : List Command}
  {history history' : List KVEvent} {cmd : Command}

theorem completed_iff {op : OpID} :
    completed history op = true ↔ ∃ r, .respond op r ∈ history := by
  rw [completed, List.any_eq_true]
  constructor
  · rintro ⟨e, he, hop⟩
    cases e with
    | invoke op' i => cases hop
    | respond op' r =>
      obtain rfl := of_decide_eq_true hop
      exact ⟨r, he⟩
  · rintro ⟨r, hr⟩
    exact ⟨_, hr, decide_eq_true rfl⟩

theorem completed_mono (hsub : history <+: history') {op : OpID}
    (h : completed history op = true) : completed history' op = true := by
  obtain ⟨r, hr⟩ := completed_iff.mp h
  exact completed_iff.mpr ⟨r, hsub.subset hr⟩

theorem Issued.mono (hsub : ∀ cmd ∈ issued, cmd ∈ issued') (e : Entry)
    (h : Issued codec issued e) : Issued codec issued' e := by
  refine h.imp_right (And.imp_right ?_)
  rintro ⟨cmd, hcmd, hdata⟩
  exact ⟨cmd, hsub cmd hcmd, hdata⟩

theorem Issued.entryCommand (hcodec : codec.RoundTrips) {e : Entry} (h : Issued codec issued e)
    (hcmd : entryCommand codec e = some cmd) : cmd ∈ issued := by
  rw [StateMachine.entryCommand] at hcmd
  split at hcmd
  · rename_i htype
    rcases h with h | ⟨_, cmd', hmem, hdata⟩
    · rw [htype] at h
      cases h
    · rw [hdata, hcodec cmd'] at hcmd
      cases hcmd
      exact hmem
  · cases hcmd

theorem Answered.mono (hsub : history <+: history') {order order' : Order}
    (hord : order <+: order') {op : OpID} {r : Result} (h : Answered history order op r) :
    Answered history' order' op r :=
  h.imp (completed_mono hsub) fun ha => ha.mono hord

theorem validateCommand_eq_ok {req : Option Command} (h : validateCommand req = .ok cmd) :
    ∃ op, cmd.mapOp = some op := by
  rw [validateCommand.eq_def] at h
  split at h
  · cases h
  · split at h
    · rename_i hop
      cases h
      exact ⟨_, by rw [Command.mapOp, hop]⟩
    · rename_i hop
      cases h
      exact ⟨_, by rw [Command.mapOp, hop]⟩
    · rename_i hop
      cases h
      exact ⟨_, by rw [Command.mapOp, hop]⟩
    · cases h

theorem ClientInv.respond (h : ClientInv issued history) (op : OpID) (r : Result) :
    ClientInv issued (history ++ [.respond op r]) where
  invoked hcmd := by
    obtain ⟨op, hop, hmem⟩ := h.invoked hcmd
    exact ⟨op, hop, List.mem_append_left _ hmem⟩
  origin hmem := h.origin (by simpa using hmem)
  unique := h.unique
  one hc hc' hclient hseq := completed_mono (List.prefix_append _ _) (h.one hc hc' hclient hseq)

theorem ClientInv.invoke (h : ClientInv issued history) {op : MapOp} (hop : cmd.mapOp = some op)
    (hnext : ∀ earlier ∈ issued, earlier.clientId = cmd.clientId →
      earlier.seq < cmd.seq ∧ completed history earlier.id = true) :
    ClientInv (cmd :: issued) (history ++ [.invoke cmd.id op]) where
  invoked {c} hc := by
    rcases List.mem_cons.mp hc with rfl | hc
    · exact ⟨op, hop, by simp⟩
    · obtain ⟨op, hop, hmem⟩ := h.invoked hc
      exact ⟨op, hop, List.mem_append_left _ hmem⟩
  origin {id op'} hmem := by
    rcases List.mem_append.mp hmem with hmem | hmem
    · obtain ⟨c, hc, hid⟩ := h.origin hmem
      exact ⟨c, List.mem_cons_of_mem _ hc, hid⟩
    · cases List.mem_singleton.mp hmem
      exact ⟨cmd, List.mem_cons_self, rfl, hop⟩
  unique {c c'} hc hc' hid := by
    have hne : ∀ c ∈ issued, c.id ≠ cmd.id := by
      intro c hc hid
      obtain ⟨hclient, hseq⟩ := OpID.mk.inj hid
      have := (hnext c hc hclient).1
      rw [hseq] at this
      exact UInt64.lt_irrefl _ this
    rcases List.mem_cons.mp hc with rfl | hold <;> rcases List.mem_cons.mp hc' with rfl | hold'
    · rfl
    · exact absurd hid.symm (hne _ hold')
    · exact absurd hid (hne _ hold)
    · exact h.unique hold hold' hid
  one {c c'} hc hc' hclient hseq := by
    apply completed_mono (List.prefix_append _ _)
    rcases List.mem_cons.mp hc with rfl | hold <;> rcases List.mem_cons.mp hc' with rfl | hold'
    · exact absurd hseq (UInt64.lt_irrefl _)
    · exact absurd (UInt64.lt_trans hseq (hnext c' hold' hclient.symm).1) (UInt64.lt_irrefl _)
    · exact (hnext c hold hclient).2
    · exact h.one hold hold' hclient hseq

end Histories

end MiniQuorum.Server
