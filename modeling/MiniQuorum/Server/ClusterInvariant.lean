import MiniQuorum.Server.HostCall
import MiniQuorum.Server.ReadyBatch

/-! The cluster invariant.  The abstract log moves exactly when a save completes or is cut
short by a crash, so it always describes the disks. -/

namespace MiniQuorum.Server

open Raft Storage Consensus Consensus.Replog

section Saving

variable {g : Group} {s₀ s : Global} {disk : MemStorage} {n : NodeID} {a : Node}

theorem DiskInv.numbered (h : DiskInv s n disk) (hi : LogInv g s) : NumberedFrom 1 disk.entries :=
  h.log ▸ hi.numbered_log n

theorem Called.behind (h : Called g s₀ disk n s a) (hnum : NumberedFrom 1 disk.entries) :
    Behind disk a := by
  obtain ⟨k, hk, hu, htake, hlast, _⟩ := h.torn
  exact ⟨h.inv.contiguous, hnum, h.dirty, k, hk, hu, htake, hlast⟩

theorem Called.reach_tornSave (h : Called g s₀ disk n s a) (hdisk : DiskInv s₀ n disk)
    (hi : LogInv g s₀) (k : Nat) :
    Reach g s₀ n
      (disk.tornSave a.readyWithoutCapture.hardState a.readyWithoutCapture.entries k) := by
  have hnum := hdisk.numbered hi
  rcases disk.tornSave_cases a.readyWithoutCapture.hardState a.readyWithoutCapture.entries k with
    heq | heq | ⟨e, he, _, heq⟩ | heq
  · rw [heq]
    exact ⟨s₀, Acts.refl n s₀, hi, hdisk⟩
  · rw [heq, (h.behind hnum).hardState_getD]
    exact h.hard
  · obtain ⟨j, _, hu, _, _, hreach⟩ := h.torn
    rw [heq, (h.behind hnum).hardState_getD, ready_head h.inv.contiguous hu he, cut_eq_take hnum]
    exact hreach
  · rw [heq, (h.behind hnum).save_eq]
    exact ⟨s, h.acts, h.global, h.inv.diskInv⟩

end Saving

/-- A node between two host calls. -/
structure Settled (g : Group) (s : Global) (disk : MemStorage) (n : NodeID) (node : Node) :
    Prop where
  inv : NodeInv g s n node
  disk_eq : disk = ⟨node.hardState, node.log.entries⟩
  dirty : node.hardStateDirty = false
  unstable : node.unstableIndex = node.log.entries.length + 1
  messages : node.messages = []
  applied : node.lastApplied = node.commitIndex

/-- A node whose Ready batch is on disk but not yet acknowledged. -/
structure Saved (g : Group) (s : Global) (disk : MemStorage) (n : NodeID) (node : Node) :
    Prop where
  inv : NodeInv g s n node
  disk_eq : disk = ⟨node.hardState, node.log.entries⟩
  unstable : ∃ k ≤ node.log.entries.length, node.unstableIndex = k + 1

inductive Input
  | tick (rnd : Rand)
  | step (m : Message) (rnd : Rand)
  | propose (data : Bytes)

def Input.run (node : Node) : Input → Node
  | .tick rnd => node.tick rnd
  | .step m rnd => node.step rnd (some m)
  | .propose data => (node.propose data).1

def Input.Sound (g : Group) (s : Global) (n : NodeID) : Input → Prop
  | .step m _ => MsgInv g s m ∧ m.toID = n
  | _ => True

def Stepped (g : Group) (s : Global) (disk : MemStorage) (n : NodeID) (node : Node) : Prop :=
  ∃ base input, Settled g s disk n base ∧ base.hardState.term < maxUint64 ∧
    Input.Sound g s n input ∧ node = input.run base

def Draining (node : Node) (messages : List Message) (committed : List Entry) : Prop :=
  messages <:+ node.messages ∧
    ∃ j, node.lastApplied ≤ j ∧ committed = (node.log.entries.take node.commitIndex).drop j

def HostInv (g : Group) (s : Global) (disk : MemStorage) (n : NodeID) (h : Host) : Prop :=
  match h.phase with
  | .idle => Settled g s disk n h.node
  | .stepped => Stepped g s disk n h.node
  | .saving r => ∃ node, Stepped g s disk n node ∧ node.ready = (r, h.node)
  | .draining messages committed => ∃ node, Saved g s disk n node ∧ node.ready.2 = h.node ∧
      Draining node messages committed

structure ClusterInv (g : Group) (c : Cluster) (s : Global) : Prop where
  global : LogInv g s
  disks : ∀ n, DiskInv s n (c.disks n)
  network : ∀ m ∈ c.network, MsgInv g s m
  hosts : ∀ n h, c.hosts n = some h → HostInv g s (c.disks n) n h
  applied : ∀ x ∈ c.applied, ∃ b l k, Agrees g s b l (k + 1) ∧ l[k]? = some x.entry ∧
    x.entry.index = k + 1

section Frame

variable {g : Group} {s s' : Global} {disk : MemStorage} {n m : NodeID} {a : Node} {h : Host}

theorem Settled.frame (hacts : Acts n s s') (hm : m ≠ n) (hs : Settled g s disk m a) :
    Settled g s' disk m a :=
  { hs with inv := hs.inv.frame hacts hm }

theorem Saved.frame (hacts : Acts n s s') (hm : m ≠ n) (hs : Saved g s disk m a) :
    Saved g s' disk m a :=
  { hs with inv := hs.inv.frame hacts hm }

theorem Input.Sound.mono (hg : Grows s s') {input : Input} (hi : Input.Sound g s n input) :
    Input.Sound g s' n input := by
  cases input with
  | tick rnd => trivial
  | step m rnd => exact ⟨hi.1.mono hg, hi.2⟩
  | propose data => trivial

theorem Stepped.frame (hacts : Acts n s s') (hm : m ≠ n) (hs : Stepped g s disk m a) :
    Stepped g s' disk m a := by
  obtain ⟨base, input, hset, hbelow, hin, heq⟩ := hs
  exact ⟨base, input, hset.frame hacts hm, hbelow, hin.mono hacts.toGrows, heq⟩

theorem HostInv.frame (hacts : Acts n s s') (hm : m ≠ n) (hh : HostInv g s disk m h) :
    HostInv g s' disk m h := by
  obtain ⟨node, phase, hint⟩ := h
  cases phase with
  | idle => exact Settled.frame hacts hm hh
  | stepped => exact Stepped.frame hacts hm hh
  | saving r =>
    obtain ⟨base, hstep, heq⟩ := hh
    exact ⟨base, hstep.frame hacts hm, heq⟩
  | draining messages committed =>
    obtain ⟨base, hsaved, heq, hrest⟩ := hh
    exact ⟨base, hsaved.frame hacts hm, heq, hrest⟩

theorem Settled.fresh (hs : Settled g s disk n a) (hi : LogInv g s) : Fresh g s disk n s a where
  acts := Acts.refl n s
  global := hi
  inv := hs.inv
  dirty _ := by rw [hs.disk_eq]
  entries := by rw [hs.disk_eq]
  unstable := by rw [hs.unstable, hs.disk_eq]
  messages := hs.messages

theorem Stepped.called (hs : Stepped g s disk n a) (hi : LogInv g s) :
    ∃ s', Called g s disk n s' a := by
  obtain ⟨base, input, hset, hbelow, hin, rfl⟩ := hs
  have hfresh := hset.fresh hi
  have hself : base.role ≠ .follower → SelfVoted g s n base.hardState.term :=
    fun hr => .inl (hset.inv.ballot_self hr)
  cases input with
  | tick rnd => exact hfresh.tick hself rnd hbelow
  | step m rnd => exact hfresh.step hself rnd hin.1 hin.2
  | propose data => exact hfresh.propose (fun hr => hself (by simp [hr])) data

end Frame

section Advance

variable {g : Group} {s : Global} {disk : MemStorage} {n : NodeID} {a : Node}

theorem Saved.advance (h : Saved g s disk n a) : Settled g s disk n a.ready.2.advance := by
  obtain ⟨k, hk, hu⟩ := h.unstable
  have hlast := advance_lastApplied h.inv.contiguous h.inv.commit.1 h.inv.applied
  have hmessages : a.ready.2.advance.messages = [] := by
    rw [advance_ready]
    exact if_pos le_rfl
  exact {
    inv := { h.inv with
      applied := hlast.le
      leader := fun hl => { h.inv.leader hl with }
      messages := fun m hm => by
        rw [hmessages] at hm
        cases hm }
    disk_eq := h.disk_eq
    dirty := advance_dirty a
    unstable := advance_unstable h.inv.contiguous hk hu
    messages := hmessages
    applied := hlast }

theorem DiskInv.recovered (hd : DiskInv s n disk) (hi : LogInv g s) (hn : n ∈ g.peers)
    {rnd : Rand} (h : newRecoveredNode (g.config n) disk rnd = some a) :
    Settled g s disk n a := by
  have hnum := hd.numbered hi
  rw [newRecoveredNode_eq hnum h]
  have hcontiguous : (newRaftLog ⟨0, 0⟩ disk.entries).Contiguous := ⟨rfl, hnum⟩
  exact {
    inv := {
      id := rfl
      member := hn
      peers := rfl
      sound := rfl
      contiguous := hcontiguous
      term := hd.term
      ballot := hd.ballot
      log := hd.log
      commit := Agreed.zero s _ _
      applied := le_rfl
      self := fun hr => absurd rfl hr
      candidate := by rintro ⟨⟩
      leader := by rintro ⟨⟩
      messages := by rintro m ⟨⟩ }
    disk_eq := rfl
    dirty := rfl
    unstable := congrArg (· + 1) hcontiguous.lastIndex
    messages := rfl
    applied := rfl }

end Advance

namespace ClusterInv

variable {g : Group} {c c' : Cluster} {s s' : Global} {n : NodeID} {disk : MemStorage}

theorem replace (h : ClusterInv g c s) (hacts : Acts n s s') (hi : LogInv g s')
    (hdisk : DiskInv s' n disk) {host : Option Host}
    (hhost : ∀ x, host = some x → HostInv g s' disk n x) :
    ClusterInv g ((c.setDisk n disk).setHost n host) s' where
  global := hi
  disks m := by
    by_cases hm : m = n
    · subst hm
      simpa [Cluster.setHost, Cluster.setDisk] using hdisk
    · simpa [Cluster.setHost, Cluster.setDisk, hm] using (h.disks m).frame hacts hm
  network m hm := (h.network m hm).mono hacts.toGrows
  hosts m x hx := by
    by_cases hm : m = n
    · subst hm
      simp only [Cluster.setHost, Cluster.setDisk, Function.update_self] at hx ⊢
      exact hhost x hx
    · simp only [Cluster.setHost, Cluster.setDisk, Function.update_of_ne hm] at hx ⊢
      exact (h.hosts m x hx).frame hacts hm
  applied x hx := by
    obtain ⟨b, l, k, ha, hl, hindex⟩ := h.applied x hx
    exact ⟨b, l, k, ha.mono hacts.toGrows le_rfl, hl, hindex⟩

theorem setHost (h : ClusterInv g c s) {host : Option Host}
    (hhost : ∀ x, host = some x → HostInv g s (c.disks n) n x) :
    ClusterInv g (c.setHost n host) s := by
  have := h.replace (Acts.refl n s) h.global (h.disks n) hhost
  rwa [Cluster.setDisk, Function.update_eq_self] at this

theorem host (h : ClusterInv g c s) {node : Node} {phase : Phase} {hint : NodeID}
    (hx : HostInv g s (c.disks n) n ⟨node, phase, hint⟩) :
    ClusterInv g (c.setHost n (some ⟨node, phase, hint⟩)) s := by
  apply h.setHost
  rintro x ⟨⟩
  exact hx

theorem input (h : ClusterInv g c s) (hbelow : c.TermsBelow) {node : Node} {hint : NodeID}
    (hhost : c.hosts n = some ⟨node, .idle, hint⟩) (input : Input)
    (hin : Input.Sound g s n input) (hint' : NodeID) :
    ClusterInv g (c.setHost n (some ⟨input.run node, .stepped, hint'⟩)) s :=
  h.host ⟨node, input, h.hosts n _ hhost, hbelow n _ hhost, hin, rfl⟩

theorem save (h : ClusterInv g c s) {node : Node} {r : Ready} {hint : NodeID}
    (hhost : c.hosts n = some ⟨node, .saving r, hint⟩) :
    ∃ s', Grows s s' ∧ ClusterInv g ((c.setDisk n ((c.disks n).save r.hardState r.entries)).setHost n
      (some ⟨node, .draining r.messages r.committedEntries, hint⟩)) s' := by
  obtain ⟨base, hstep, heq⟩ := h.hosts n _ hhost
  cases heq
  obtain ⟨s', hcall⟩ := hstep.called h.global
  have hsave := (hcall.behind ((h.disks n).numbered h.global)).save_eq
  refine ⟨s', hcall.acts.toGrows, h.replace hcall.acts hcall.global ?_ ?_⟩
  · rw [hsave]
    exact hcall.inv.diskInv
  · rintro x ⟨⟩
    obtain ⟨k, hk, hu, htake, _⟩ := hcall.torn
    refine ⟨base, ⟨hcall.inv, hsave, k, ?_, hu⟩, rfl, List.suffix_refl _, base.lastApplied, le_rfl,
      ready_committedEntries hcall.inv.contiguous⟩
    have hlen := congrArg List.length htake
    rw [List.length_take, List.length_take] at hlen
    omega

theorem send (h : ClusterInv g c s) {node : Node} {m : Message} {messages : List Message}
    {committed : List Entry} {hint : NodeID}
    (hhost : c.hosts n = some ⟨node, .draining (m :: messages) committed, hint⟩) :
    ClusterInv g { c.setHost n (some ⟨node, .draining messages committed, hint⟩) with
      network := m :: c.network } s := by
  obtain ⟨base, hsaved, heq, hsuffix, hrest⟩ := h.hosts n _ hhost
  have hdrain : ClusterInv g (c.setHost n (some ⟨node, .draining messages committed, hint⟩)) s :=
    h.host ⟨base, hsaved, heq, (List.suffix_cons m messages).trans hsuffix, hrest⟩
  refine { hdrain with network := ?_ }
  intro m' hm'
  rcases List.mem_cons.mp hm' with rfl | hm'
  · exact (hsaved.inv.messages _ (hsuffix.subset List.mem_cons_self)).2.2.1
  · exact h.network m' hm'

theorem apply (h : ClusterInv g c s) {node : Node} {e : Entry} {committed : List Entry}
    {hint : NodeID} (hhost : c.hosts n = some ⟨node, .draining [] (e :: committed), hint⟩) :
    ClusterInv g { c.setHost n (some ⟨node, .draining [] committed, hint⟩) with
      applied := ⟨n, e⟩ :: c.applied } s := by
  obtain ⟨base, hsaved, heq, hsuffix, j, hj, hcommitted⟩ := h.hosts n _ hhost
  have htail : committed = (base.log.entries.take base.commitIndex).drop (j + 1) := by
    rw [← List.drop_drop, ← hcommitted]
    rfl
  have hget : (base.log.entries.take base.commitIndex)[j]? = some e := by
    rw [← List.head?_drop, ← hcommitted]
    rfl
  have hlt : j < base.commitIndex := by
    have := (List.getElem?_eq_some_iff.mp hget).1
    rw [List.length_take] at this
    omega
  have htake := List.take_prefix base.commitIndex base.log.entries
  have hentry : base.log.entries[j]? = some e := prefix_getElem? htake hget
  have hdrain : ClusterInv g (c.setHost n (some ⟨node, .draining [] committed, hint⟩)) s :=
    h.host ⟨base, hsaved, heq, hsuffix, j + 1, hj.trans (Nat.le_succ j), htail⟩
  refine { hdrain with applied := ?_ }
  intro x hx
  rcases List.mem_cons.mp hx with rfl | hx
  · have hfront := List.take_prefix (j + 1) base.log.entries
    refine ⟨_, _, j, hsaved.inv.commit.congr hlt hfront, hentry, ?_⟩
    rw [hsaved.inv.contiguous.numbered.getElem? hentry, Nat.add_comm]
  · exact h.applied x hx

theorem crash (h : ClusterInv g c s) {host : Host} (hhost : c.hosts n = some host)
    (records : Nat) :
    ∃ s', Grows s s' ∧
      ClusterInv g ((c.setDisk n (c.crashDisk n host records)).setHost n none) s' := by
  obtain ⟨node, phase, hint⟩ := host
  have hsame : ∃ s', Grows s s' ∧
      ClusterInv g ((c.setDisk n (c.disks n)).setHost n none) s' :=
    ⟨s, Grows.refl s, h.replace (Acts.refl n s) h.global (h.disks n) (by rintro x ⟨⟩)⟩
  cases phase with
  | idle => exact hsame
  | stepped => exact hsame
  | draining messages committed => exact hsame
  | saving r =>
    obtain ⟨base, hstep, heq⟩ := h.hosts n _ hhost
    cases heq
    obtain ⟨s', hcall⟩ := hstep.called h.global
    obtain ⟨s'', hacts, hi, hdisk⟩ := hcall.reach_tornSave (h.disks n) h.global records
    exact ⟨s'', hacts.toGrows, h.replace hacts hi hdisk (by rintro x ⟨⟩)⟩

theorem act (h : ClusterInv g c s) (hbelow : c.TermsBelow) {a : Action}
    (hact : c.act g a = some c') : ∃ s', Grows s s' ∧ ClusterInv g c' s' := by
  cases Cluster.acted hact with
  | tick rnd hhost => exact ⟨s, Grows.refl s, h.input hbelow hhost (.tick rnd) trivial _⟩
  | step rnd hhost hm =>
    exact ⟨s, Grows.refl s, h.input hbelow hhost (.step _ rnd) ⟨h.network _ hm.1, hm.2⟩ _⟩
  | propose data hhost =>
    exact ⟨s, Grows.refl s, h.input hbelow hhost (.propose data) trivial _⟩
  | ready hhost => exact ⟨s, Grows.refl s, h.host ⟨_, h.hosts _ _ hhost, rfl⟩⟩
  | save hhost => exact h.save hhost
  | send hhost => exact ⟨s, Grows.refl s, h.send hhost⟩
  | apply hhost => exact ⟨s, Grows.refl s, h.apply hhost⟩
  | advance hhost =>
    obtain ⟨base, hsaved, heq, _⟩ := h.hosts _ _ hhost
    cases heq
    exact ⟨s, Grows.refl s, h.host hsaved.advance⟩
  | crash records hhost => exact h.crash hhost records
  | @recover n node _ hhost hn hnode =>
    have hidle : ClusterInv g (c.setHost n (some ⟨node, .idle, 0⟩)) s :=
      h.host ((h.disks n).recovered h.global hn hnode)
    exact ⟨s, Grows.refl s, { hidle with }⟩

theorem init (g : Group) : ClusterInv g Cluster.init Replog.init where
  global := { Inv.init with
    numbered := fun _ => trivial
    own := fun hl => absurd rfl hl }
  disks _ := ⟨rfl, rfl, rfl⟩
  network := by rintro m ⟨⟩
  hosts := by rintro n h ⟨⟩
  applied := by rintro x ⟨⟩

theorem run (h : ClusterInv g c s) (hbelow : c.TermsBelow) (hrun : Cluster.RunBelow g c c') :
    ∃ s', Grows s s' ∧ ClusterInv g c' s' ∧ c'.TermsBelow := by
  induction hrun with
  | refl => exact ⟨s, Grows.refl s, h, hbelow⟩
  | tail _ hstep ih =>
    obtain ⟨s', hgrows, h', hbelow'⟩ := ih
    obtain ⟨⟨a, hact⟩, hnext⟩ := hstep
    obtain ⟨s'', hgrows', h''⟩ := h'.act hbelow' hact
    exact ⟨s'', hgrows.trans hgrows', h'', hnext⟩

theorem reachable (hrun : Cluster.RunBelow g Cluster.init c) :
    ∃ s, ClusterInv g c s ∧ c.TermsBelow := by
  obtain ⟨s, _, h⟩ := (init g).run (by rintro n h ⟨⟩) hrun
  exact ⟨s, h⟩

end ClusterInv

end MiniQuorum.Server
