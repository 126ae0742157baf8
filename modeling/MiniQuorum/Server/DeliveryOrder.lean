import MiniQuorum.Server.Interleaved
import MiniQuorum.Server.Replay

/-! Interleaved nodes deliver their committed entries in order and once.  A host-driven cluster
simulates the interleaved one: it takes a node's inputs when the Ready that reports them is
saved, so a crash loses in both what was not saved. -/

namespace MiniQuorum.Server

open Raft Storage Consensus Consensus.Replog

namespace Interleaving

def Action.node : Action → NodeID
  | .event n _ | .save n | .send n _ | .crash n | .recover n _ => n

def keeps (c : Interleaving) : Action → Bool
  | .event n e => (c.members n).all fun h => h.driver.keeps e
  | _ => true

def TermsBelow (c : Interleaving) : Prop :=
  ∀ n h, c.members n = some h → h.driver.node.hardState.term < maxUint64

def RunWhile (g : Group) (P : Interleaving → Action → Interleaving → Prop) :
    Interleaving → Interleaving → Prop :=
  Relation.ReflTransGen fun c c' => ∃ a, c.act g a = some c' ∧ P c a c'

/-- A run in which no Advance acknowledges a Ready of which an entry was replaced, and terms
stay below the last 64-bit value. -/
def RunKept (g : Group) : Interleaving → Interleaving → Prop :=
  RunWhile g fun c a c' => c.keeps a = true ∧ c'.TermsBelow

variable {g : Group} {c c' : Interleaving}

theorem act_members {a : Action} (hact : c.act g a = some c') :
    ∃ h, c'.members = Function.update c.members a.node h := by
  cases a with
  | event n e =>
    simp only [act] at hact
    split at hact
    · split at hact
      · obtain ⟨d, _, rfl⟩ := Option.map_eq_some_iff.mp hact
        exact ⟨_, rfl⟩
      · cases hact
    · cases hact
  | save n =>
    simp only [act] at hact
    split at hact
    · obtain ⟨r, _, rfl⟩ := Option.map_eq_some_iff.mp hact
      exact ⟨_, rfl⟩
    · cases hact
  | send n m =>
    simp only [act] at hact
    split at hact
    · split at hact
      · cases hact
        exact ⟨c.members n, (Function.update_eq_self ..).symm⟩
      · cases hact
    · cases hact
  | crash n =>
    simp only [act] at hact
    split at hact
    · cases hact
      exact ⟨_, rfl⟩
    · cases hact
  | recover n rnd =>
    simp only [act] at hact
    split at hact
    · cases hact
    · split at hact
      · obtain ⟨d, _, rfl⟩ := Option.map_eq_some_iff.mp hact
        exact ⟨_, rfl⟩
      · cases hact

def execWhile (g : Group) (p : Interleaving → Action → Interleaving → Bool) (c : Interleaving) :
    List Action → Option Interleaving
  | [] => some c
  | a :: as => (c.act g a).bind fun c' => if p c a c' then c'.execWhile g p as else none

theorem execWhile_run {p : Interleaving → Action → Interleaving → Bool}
    {P : Interleaving → Action → Interleaving → Prop} {I : Interleaving → Prop}
    (hp : ∀ {c a c'}, c.act g a = some c' → I c → p c a c' = true → P c a c' ∧ I c')
    {l : List Action} (hI : I c) (h : c.execWhile g p l = some c') : RunWhile g P c c' := by
  induction l generalizing c with
  | nil =>
    cases h
    exact .refl
  | cons a l ih =>
    obtain ⟨d, hact, hrest⟩ := Option.bind_eq_some_iff.mp h
    split at hrest
    · obtain ⟨hP, hI'⟩ := hp hact hI ‹_›
      exact .head ⟨a, hact, hP⟩ (ih hI' hrest)
    · cases hrest

theorem execWhile_any {p : Interleaving → Action → Interleaving → Bool}
    {P : Interleaving → Action → Interleaving → Prop} {I : Interleaving → Prop}
    (hp : ∀ {c a c'}, c.act g a = some c' → I c → p c a c' = true → P c a c' ∧ I c') (hI : I c)
    {l : List Action} {n : NodeID} {q : Member → Bool}
    (h : (c.execWhile g p l).any (fun c' => (c'.members n).any q) = true) :
    ∃ c' x, RunWhile g P c c' ∧ c'.members n = some x ∧ q x = true := by
  obtain ⟨c', hexec, hq⟩ := (Option.any_eq_true ..).mp h
  obtain ⟨x, hx, hq⟩ := (Option.any_eq_true ..).mp hq
  exact ⟨c', x, execWhile_run hp hI hexec, hx, hq⟩

def staysBelow (_ : Interleaving) (a : Action) (c' : Interleaving) : Bool :=
  (c'.members a.node).all fun h => h.driver.node.hardState.term < maxUint64

theorem TermsBelow.act {a : Action} (hbelow : c.TermsBelow) (hact : c.act g a = some c')
    (h : staysBelow c a c' = true) : c'.TermsBelow := by
  obtain ⟨x, hx⟩ := act_members hact
  intro n m hm
  by_cases hn : n = a.node
  · subst hn
    rw [staysBelow, hm] at h
    exact of_decide_eq_true h
  · rw [hx, Function.update_of_ne hn] at hm
    exact hbelow n m hm

theorem TermsBelow.init : TermsBelow init := by
  rintro n h ⟨⟩

end Interleaving

section Committed

variable {g : Group} {c c' : Cluster} {s : Global} {n : NodeID} {a b : Node}

def CommitExtends (a b : Node) : Prop :=
  a.commitIndex ≤ b.commitIndex ∧
    a.log.entries.take a.commitIndex <+: b.log.entries.take b.commitIndex

theorem CommitExtends.trans {d : Node} (h : CommitExtends a b) (h' : CommitExtends b d) :
    CommitExtends a d :=
  ⟨h.1.trans h'.1, h.2.trans h'.2⟩

theorem Mirrors.settled (h : Mirrors c n a) (hinv : ClusterInv g c s) :
    ∃ base, Settled g s (c.disks n) n base ∧ base.core = a.core := by
  obtain ⟨base, hint, hhost, hcore⟩ := h.host
  exact ⟨base, hinv.hosts n _ hhost, hcore⟩

theorem Mirrors.agrees (h : Mirrors c n a) (hinv : ClusterInv g c s) :
    Agrees g s a.hardState.term a.log.entries a.commitIndex := by
  obtain ⟨base, hsettled, hcore⟩ := h.settled hinv
  rw [← Node.hardState_eq_of_core hcore, ← Node.log_eq_of_core hcore,
    ← Node.commitIndex_eq_of_core hcore]
  exact hsettled.inv.commit

theorem Mirrors.disk_eq (h : Mirrors c n a) (hinv : ClusterInv g c s) :
    c.disks n = ⟨a.hardState, a.log.entries⟩ := by
  obtain ⟨base, hsettled, hcore⟩ := h.settled hinv
  rw [hsettled.disk_eq, Node.hardState_eq_of_core hcore, Node.log_eq_of_core hcore]

theorem Ahead.commit_le (h : Ahead c n a) (hinv : ClusterInv g c s) (hbelow : c.TermsBelow) :
    a.commitIndex ≤ a.log.entries.length := by
  obtain ⟨c', _, hd, hm⟩ := h.catchUp hinv hbelow
  obtain ⟨s', _, hinv', _⟩ := hinv.run hbelow hd.run
  exact (hm.agrees hinv').1

theorem Takes.commitIndex_le (h : Takes c n a b) (hinv : ClusterInv g c s) :
    a.commitIndex ≤ b.commitIndex := by
  obtain ⟨input, hin, rfl, _⟩ := h
  apply Input.commitIndex_le
  rintro m rnd rfl
  exact (hinv.network m hin.1).commitCovered

theorem Ahead.takes (h : Ahead c n a) (hinv : ClusterInv g c s) (hbelow : c.TermsBelow)
    (ht : Takes c n a b) : CommitExtends a b := by
  obtain ⟨c₁, _, hd₁, hm₁⟩ := h.catchUp hinv hbelow
  obtain ⟨s₁, _, hinv₁, hbelow₁⟩ := hinv.run hbelow hd₁.run
  have hall : TakesAll c n a b := .single ht
  obtain ⟨c₂, _, hd₂, hm₂⟩ :=
    (hm₁.ahead.takesAll (hall.mono hd₁.network)).catchUp hinv₁ hbelow₁
  obtain ⟨s₂, hgrows, hinv₂, _⟩ := hinv₁.run hbelow₁ hd₂.run
  have ha := (hm₁.agrees hinv₁).mono hgrows le_rfl
  have hb := hm₂.agrees hinv₂
  have hle := ht.commitIndex_le hinv
  refine ⟨hle, ?_⟩
  rcases Agreed.unique hinv₂.global.toInv ha hb with hpre | hpre
  · exact hpre
  · have hlen := hpre.length_le
    rw [List.length_take, List.length_take, min_eq_left ha.1, min_eq_left hb.1] at hlen
    have heq := hpre.eq_of_length (by
      rw [List.length_take, List.length_take, min_eq_left ha.1, min_eq_left hb.1]
      omega)
    rw [heq]

theorem Ahead.takesAll_commit (h : Ahead c n a) (hinv : ClusterInv g c s) (hbelow : c.TermsBelow)
    (ht : TakesAll c n a b) : CommitExtends a b := by
  induction ht with
  | refl => exact ⟨le_rfl, List.prefix_rfl⟩
  | tail hall hstep ih => exact ih.trans ((h.takesAll hall).takes hinv hbelow hstep)

theorem CommitExtends.take_eq (h : CommitExtends a b) (hcommit : a.commitIndex ≤ a.log.entries.length)
    {k : Nat} (hk : k ≤ a.commitIndex) : b.log.entries.take k = a.log.entries.take k := by
  have hlen : k ≤ (a.log.entries.take a.commitIndex).length := by
    rwa [List.length_take, min_eq_left hcommit]
  rw [take_prefix_mono (h.2.trans <| List.take_prefix _ _) hlen, List.take_take, min_eq_left hk]

theorem TakesAll.lastApplied (h : TakesAll c n a b) : b.lastApplied = a.lastApplied := by
  induction h with
  | refl => rfl
  | tail _ hstep ih =>
    obtain ⟨input, _, rfl, _⟩ := hstep
    exact (Node.lastApplied_run (f := fun a => input.run a) input.run_owing).trans ih

end Committed

section Simulation

variable {g : Group} {v v' : Cluster} {s : Global} {c c' : Interleaving} {n : NodeID}
  {disk : MemStorage} {h : Member} {a b : Node} {r : Ready}

/-- The last Ready was taken at node `a`, and `b` is what inputs have made of it since. -/
structure Reported (v : Cluster) (disk : MemStorage) (n : NodeID) (saved : Bool) (r : Ready)
    (a b : Node) : Prop where
  ready : a.ready.1 = r
  ahead : Ahead v n a
  since : TakesAll v n a.ready.2 b
  writes : Writes 0 a.ready.2 b
  applied : a.lastApplied ≤ a.commitIndex
  behind : ∃ disk, Behind disk a
  unsaved : saved = false → Behind disk a
  saved : saved = true → disk = ⟨a.hardState, a.log.entries⟩ ∧ ∀ m ∈ a.messages, m ∈ v.network

structure MemberSim (v : Cluster) (disk : MemStorage) (n : NodeID) (h : Member) : Prop where
  ahead : Ahead v n h.driver.node
  behind : Behind disk h.driver.node
  reported : ∀ r, h.driver.pending = some r → ∃ a, Reported v disk n h.saved r a h.driver.node ∧
    (h.driver.replaced = false → Writes a.ready.2.readyAck.stableTo a.ready.2 h.driver.node)
  idle : h.driver.pending = none → h.driver.node.readyAck = ReadyAck.zero
  delivered : h.driver.delivered = h.driver.node.log.entries.take h.driver.node.lastApplied
  applied : h.driver.node.lastApplied ≤ h.driver.node.commitIndex

structure Simulates (g : Group) (v : Cluster) (c : Interleaving) : Prop where
  run : Cluster.RunBelow g Cluster.init v
  disks : v.disks = c.disks
  network : ∀ m ∈ c.network, m ∈ v.network
  down : ∀ n, c.members n = none → v.hosts n = none
  members : ∀ n h, c.members n = some h → MemberSim v (c.disks n) n h

theorem Ahead.captureReady (ha : Ahead v n a) : Ahead v n a.ready.2 :=
  ha.alike rfl fun _ hm => hm

theorem Reported.mono {saved : Bool} (hr : Reported v disk n saved r a b)
    (hhost : v'.hosts n = v.hosts n) (hnet : ∀ m ∈ v.network, m ∈ v'.network) :
    Reported v' disk n saved r a b :=
  { hr with
    ahead := hr.ahead.mono hhost hnet
    since := hr.since.mono hnet
    saved := fun hs => ⟨(hr.saved hs).1, fun m hm => hnet m ((hr.saved hs).2 m hm)⟩ }

theorem MemberSim.mono (hm : MemberSim v disk n h) (hhost : v'.hosts n = v.hosts n)
    (hnet : ∀ m ∈ v.network, m ∈ v'.network) : MemberSim v' disk n h :=
  { hm with
    ahead := hm.ahead.mono hhost hnet
    reported := fun r hr => by
      obtain ⟨a, ha, hkept⟩ := hm.reported r hr
      exact ⟨a, ha.mono hhost hnet, hkept⟩ }

theorem Reported.commitExtends {saved : Bool} (hr : Reported v disk n saved r a b)
    (hinv : ClusterInv g v s) (hbelow : v.TermsBelow) : CommitExtends a b :=
  hr.ahead.captureReady.takesAll_commit hinv hbelow hr.since

theorem MemberSim.input (hm : MemberSim v disk n h) (hinv : ClusterInv g v s)
    (hbelow : v.TermsBelow) {input : LocalInput}
    (htakes : TakesAll v n h.driver.node (input.run h.driver.node)) :
    MemberSim v disk n
      ⟨{ h.driver with
          node := input.run h.driver.node
          replaced := h.driver.replaced ||
            input.replacesUpTo h.driver.node h.driver.node.readyAck.stableTo }, h.saved⟩ := by
  have hw : Writes 0 h.driver.node (input.run h.driver.node) :=
    LocalInput.writes hm.behind.contiguous (input.replacesUpTo_zero h.driver.node)
  have hextends := hm.ahead.takesAll_commit hinv hbelow htakes
  refine ⟨hm.ahead.takesAll htakes, hw.behind hm.behind, fun r hr => ?_,
    fun hp => hw.readyAck.trans (hm.idle hp), ?_, ?_⟩
  · obtain ⟨a, ha, hwrites⟩ := hm.reported r hr
    refine ⟨a, { ha with since := ha.since.trans htakes, writes := ha.writes.trans hw }, fun hnone => ?_⟩
    obtain ⟨hbefore, hinput⟩ := Bool.or_eq_false_iff.mp hnone
    rw [ha.writes.readyAck] at hinput
    exact (hwrites hbefore).trans (LocalInput.writes hm.behind.contiguous hinput)
  · show h.driver.delivered = _
    rw [htakes.lastApplied, hm.delivered,
      hextends.take_eq (hm.ahead.commit_le hinv hbelow) hm.applied]
  · show (input.run h.driver.node).lastApplied ≤ _
    rw [htakes.lastApplied]
    exact hm.applied.trans hextends.1

theorem MemberSim.ready (hm : MemberSim v disk n h) :
    MemberSim v disk n
      ⟨{ h.driver with
          node := h.driver.node.ready.2
          pending := some h.driver.node.ready.1
          replaced := false }, false⟩ := by
  refine ⟨hm.ahead.captureReady, hm.behind.captureReady _, ?_, by rintro ⟨⟩, hm.delivered,
    hm.applied⟩
  rintro r ⟨⟩
  exact ⟨h.driver.node, {
    ready := rfl
    ahead := hm.ahead
    since := .refl
    writes := Writes.refl _ hm.behind.contiguous
    applied := hm.applied
    behind := ⟨disk, hm.behind⟩
    unsaved := fun _ => hm.behind
    saved := by rintro ⟨⟩ }, fun _ => Writes.refl _ hm.behind.contiguous⟩

theorem advance_messages_subset (b : Node) : ∀ m ∈ b.advance.messages, m ∈ b.messages := by
  intro m hm
  rw [Node.advance] at hm
  split at hm
  all_goals
    simp only at hm
    split at hm
    · cases hm
    · exact List.mem_of_mem_drop hm

theorem Reported.advance_lastApplied {saved : Bool} (hr : Reported v disk n saved r a b)
    (hinv : ClusterInv g v s) (hbelow : v.TermsBelow) : b.advance.lastApplied = a.commitIndex := by
  obtain ⟨disk, hbehind⟩ := hr.behind
  have hack : b.readyAck = a.ready.2.readyAck := hr.writes.readyAck
  rw [← Server.advance_lastApplied hbehind.contiguous (hr.ahead.commit_le hinv hbelow) hr.applied,
    advance_of_valid (by rw [hack]; rfl), advance_of_valid (b := a.ready.2) rfl]
  simp only [hack, hr.since.lastApplied]

theorem MemberSim.advance (hm : MemberSim v disk n h) (hinv : ClusterInv g v s)
    (hbelow : v.TermsBelow) (hsaved : h.saved = true) (hr : h.driver.pending = some r)
    (hkept : h.driver.replaced = false) :
    MemberSim v disk n
      ⟨{ node := h.driver.node.advance, pending := none, replaced := false,
          acknowledged := h.driver.acknowledged.save r.hardState r.entries,
          delivered := h.driver.delivered ++ r.committedEntries }, false⟩ := by
  obtain ⟨a, ha, hwrites⟩ := hm.reported r hr
  obtain ⟨disk₀, hbehind⟩ := ha.behind
  obtain ⟨hdisk, _⟩ := ha.saved hsaved
  have hextends := ha.commitExtends hinv hbelow
  have hcommit := ha.ahead.commit_le hinv hbelow
  have hlast := ha.advance_lastApplied hinv hbelow
  obtain ⟨_, _, _, _, _, heq⟩ := advance_eq h.driver.node
  have hlog : h.driver.node.advance.log = h.driver.node.log := by rw [heq]
  have hindex : h.driver.node.advance.commitIndex = h.driver.node.commitIndex := by rw [heq]
  refine ⟨hm.ahead.alike (advance_core _) (advance_messages_subset _),
    hdisk ▸ hbehind.advance (hwrites hkept), by rintro r ⟨⟩, fun _ => rfl, ?_, ?_⟩
  · show h.driver.delivered ++ r.committedEntries = _
    rw [hlog, hlast, hm.delivered, ← ha.ready, show a.ready.1 = a.readyWithoutCapture from rfl,
      ready_committedEntries hbehind.contiguous, ha.since.lastApplied]
    show h.driver.node.log.entries.take a.lastApplied ++
      (a.log.entries.take a.commitIndex).drop a.lastApplied = _
    rw [← hextends.take_eq hcommit le_rfl, ← min_eq_left ha.applied, ← List.take_take,
      min_eq_left ha.applied, List.take_append_drop]
  · show h.driver.node.advance.lastApplied ≤ h.driver.node.advance.commitIndex
    rw [hlast, hindex]
    exact hextends.1

theorem MemberSim.save (hm : MemberSim v disk n h) (hinv : ClusterInv g v s)
    (hbelow : v.TermsBelow) (hsaved : h.saved = false) (hr : h.driver.pending = some r) :
    ∃ v' host, Drives g n v host v' ∧ v'.disks n = disk.save r.hardState r.entries ∧
      MemberSim v' (disk.save r.hardState r.entries) n ⟨h.driver, true⟩ := by
  obtain ⟨a, ha, hwrites⟩ := hm.reported r hr
  have hbehind := ha.unsaved hsaved
  obtain ⟨v', host, hd, hmirror⟩ := ha.ahead.catchUp hinv hbelow
  obtain ⟨s', _, hinv', _⟩ := hinv.run hbelow hd.run
  have hsave : disk.save r.hardState r.entries = ⟨a.hardState, a.log.entries⟩ := by
    rw [← ha.ready]
    exact hbehind.save_eq
  rw [hsave]
  have hsince := ha.since.mono hd.network
  refine ⟨v', host, hd, hmirror.disk_eq hinv', { hm with
    ahead := hmirror.ahead.captureReady.takesAll hsince
    behind := ha.writes.behind (hbehind.self.captureReady _)
    reported := fun r' hr' => ?_ }⟩
  cases hr.symm.trans hr'
  exact ⟨a, {
    ready := ha.ready
    ahead := hmirror.ahead
    since := hsince
    writes := ha.writes
    applied := ha.applied
    behind := ha.behind
    unsaved := by rintro ⟨⟩
    saved := fun _ => ⟨rfl, hmirror.sent⟩ }, hwrites⟩

theorem MemberSim.start {d : Driver} {cfg : Config} {rnd : Rand} {hint : NodeID}
    (hnum : NumberedFrom 1 disk.entries) (hd : Driver.start cfg disk rnd = some d)
    (hhost : v.hosts n = some ⟨d.node, .idle, hint⟩) : MemberSim v disk n ⟨d, false⟩ := by
  have hbehind := (Driver.Inv.start hnum hd).behind
  obtain ⟨node, hnode, rfl⟩ := Option.map_eq_some_iff.mp hd
  cases newRecoveredNode_eq hnum hnode
  exact {
    ahead := ⟨_, hint, _, hhost, .refl, rfl, by rintro m ⟨⟩⟩
    behind := hbehind
    reported := by rintro r ⟨⟩
    idle := fun _ => rfl
    delivered := rfl
    applied := le_rfl }

namespace Simulates

theorem init (g : Group) : Simulates g Cluster.init Interleaving.init where
  run := .refl
  disks := rfl
  network := by rintro m ⟨⟩
  down _ _ := rfl
  members := by rintro n h ⟨⟩

theorem update (hs : Simulates g v c) {x : Option Member} (hrun : Cluster.RunBelow g v v')
    (hhosts : ∀ p, p ≠ n → v'.hosts p = v.hosts p) (hdisks : ∀ p, p ≠ n → v'.disks p = v.disks p)
    (hnet : ∀ m ∈ v.network, m ∈ v'.network)
    (hmembers : c'.members = Function.update c.members n x)
    (hdisks' : c'.disks = Function.update c.disks n (v'.disks n))
    (hnet' : ∀ m ∈ c'.network, m ∈ v'.network) (hdown : x = none → v'.hosts n = none)
    (hmember : ∀ h, x = some h → MemberSim v' (v'.disks n) n h) : Simulates g v' c' where
  run := hs.run.trans hrun
  disks := by
    funext p
    rw [hdisks']
    by_cases hp : p = n
    · subst hp
      rw [Function.update_self]
    · rw [Function.update_of_ne hp, hdisks p hp, hs.disks]
  network := hnet'
  down p hp := by
    rw [hmembers] at hp
    by_cases hpn : p = n
    · subst hpn
      rw [Function.update_self] at hp
      exact hdown hp
    · rw [Function.update_of_ne hpn] at hp
      rw [hhosts p hpn]
      exact hs.down p hp
  members p h hh := by
    rw [hmembers] at hh
    rw [hdisks']
    by_cases hpn : p = n
    · subst hpn
      rw [Function.update_self] at hh ⊢
      exact hmember h hh
    · rw [Function.update_of_ne hpn] at hh ⊢
      exact (hs.members p h hh).mono (hhosts p hpn) hnet

theorem setMember (hs : Simulates g v c) {h : Member} (hm : MemberSim v (c.disks n) n h) :
    Simulates g v (c.setMember n (some h)) := by
  refine hs.update .refl (fun _ _ => rfl) (fun _ _ => rfl) (fun _ hm => hm) rfl ?_ hs.network
    (by rintro ⟨⟩) ?_
  · rw [hs.disks, Function.update_eq_self]
    rfl
  · rintro h ⟨⟩
    rwa [hs.disks]

theorem takesAll (hs : Simulates g v c) {input : LocalInput} {x : Member}
    (hallows : c.allows n x (.input input) = true)
    (hterm : (input.run a).hardState.term < maxUint64) : TakesAll v n a (input.run a) := by
  cases input with
  | tick rnd => exact .single ⟨.tick rnd, trivial, rfl, hterm⟩
  | step m rnd =>
    cases m with
    | none => exact .refl
    | some m =>
      obtain ⟨hm, hto⟩ := of_decide_eq_true hallows
      exact .single ⟨.step m rnd, ⟨hs.network m hm, hto⟩, rfl, hterm⟩
  | propose data => exact .single ⟨.propose data, trivial, rfl, hterm⟩

theorem event (hs : Simulates g v c) {e : DriverEvent} (hbelow : c'.TermsBelow)
    (hact : c.act g (.event n e) = some c') (hkept : c.keeps (.event n e) = true) :
    Simulates g v c' := by
  obtain ⟨s, hinv, hvbelow⟩ := ClusterInv.reachable hs.run
  simp only [Interleaving.act] at hact
  split at hact
  · rename_i h hh
    split at hact
    · rename_i hallows
      obtain ⟨d, hd, rfl⟩ := Option.map_eq_some_iff.mp hact
      have hm := hs.members n h hh
      have hkept : h.driver.keeps e = true := by
        rwa [Interleaving.keeps, hh] at hkept
      apply hs.setMember
      cases e with
      | input input =>
        cases hd
        have hterm := hbelow n _ (Function.update_self ..)
        exact hm.input hinv hvbelow (hs.takesAll hallows hterm)
      | ready =>
        cases hd
        exact hm.ready
      | advance =>
        obtain ⟨r, hr, rfl⟩ := Option.map_eq_some_iff.mp hd
        exact hm.advance hinv hvbelow hallows hr (Bool.not_eq_true' _ |>.mp hkept)
    · cases hact
  · cases hact

theorem save (hs : Simulates g v c) (hact : c.act g (.save n) = some c') :
    ∃ v', Simulates g v' c' := by
  obtain ⟨s, hinv, hvbelow⟩ := ClusterInv.reachable hs.run
  simp only [Interleaving.act] at hact
  split at hact
  · rename_i d hh
    obtain ⟨r, hr, rfl⟩ := Option.map_eq_some_iff.mp hact
    obtain ⟨v', host, hd, hdisk, hm⟩ := (hs.members n _ hh).save hinv hvbelow rfl hr
    refine ⟨v', hs.update hd.run hd.hosts hd.disks hd.network rfl ?_
      (fun m hmem => hd.network m (hs.network m hmem)) (by rintro ⟨⟩) ?_⟩
    · rw [hdisk]
    · rintro h ⟨⟩
      rwa [hdisk]
  · cases hact

theorem send (hs : Simulates g v c) {m : Message} (hact : c.act g (.send n m) = some c') :
    Simulates g v c' := by
  simp only [Interleaving.act] at hact
  split at hact
  · rename_i d hh
    split at hact
    · rename_i hany
      cases hact
      obtain ⟨r, hr, hmem⟩ := (Option.any_eq_true ..).mp hany
      obtain ⟨a, ha, _⟩ := (hs.members n _ hh).reported r hr
      have hsent : m ∈ v.network := by
        refine (ha.saved rfl).2 m ?_
        rw [← ha.ready] at hmem
        exact of_decide_eq_true hmem
      refine { hs with network := fun m' hm' => ?_ }
      rcases List.mem_cons.mp hm' with rfl | hm'
      · exact hsent
      · exact hs.network m' hm'
    · cases hact
  · cases hact

theorem crash (hs : Simulates g v c) (hact : c.act g (.crash n) = some c') :
    ∃ v', Simulates g v' c' := by
  obtain ⟨s, hinv, hvbelow⟩ := ClusterInv.reachable hs.run
  simp only [Interleaving.act] at hact
  split at hact
  · rename_i h hh
    cases hact
    obtain ⟨base, hint, _, hhost, _⟩ := (hs.members n h hh).ahead.host
    have hcrash : v.act g (.crash n 0) = some ((v.setDisk n (v.disks n)).setHost n none) := by
      simp only [Cluster.act, hhost]
      rfl
    have hbelow : ((v.setDisk n (v.disks n)).setHost n none).TermsBelow := by
      intro p x hx
      by_cases hp : p = n
      · subst hp
        cases (Function.update_self ..).symm.trans hx
      · exact hvbelow p x ((Function.update_of_ne hp ..).symm.trans hx)
    refine ⟨_, hs.update (.single ⟨⟨_, hcrash⟩, hbelow⟩) (fun p hp => Function.update_of_ne hp ..)
      (fun p hp => Function.update_of_ne hp ..) (fun _ hm => hm) rfl ?_ hs.network
      (fun _ => Function.update_self ..) (by rintro h ⟨⟩)⟩
    show c.disks = Function.update c.disks n (Function.update v.disks n (v.disks n) n)
    rw [Function.update_eq_self, hs.disks, Function.update_eq_self]
  · cases hact

theorem recover (hs : Simulates g v c) {rnd : Rand} (hbelow : c'.TermsBelow)
    (hact : c.act g (.recover n rnd) = some c') : ∃ v', Simulates g v' c' := by
  obtain ⟨s, hinv, hvbelow⟩ := ClusterInv.reachable hs.run
  simp only [Interleaving.act] at hact
  split at hact
  · cases hact
  · rename_i hdown
    split at hact
    · rename_i hn
      obtain ⟨d, hd, rfl⟩ := Option.map_eq_some_iff.mp hact
      have hnode : newRecoveredNode (g.config n) (v.disks n) rnd = some d.node := by
        obtain ⟨node, hnode, rfl⟩ := Option.map_eq_some_iff.mp hd
        rwa [hs.disks]
      have hrecover : v.act g (.recover n rnd) = some
          { v.setHost n (some ⟨d.node, .idle, 0⟩) with
            incarnation := Function.update v.incarnation n (v.incarnation n + 1) } := by
        simp only [Cluster.act, hs.down n hdown, if_pos hn, hnode, Option.map_some]
      have hterm : d.node.hardState.term < maxUint64 := hbelow n _ (Function.update_self ..)
      have hvbelow' : (v.setHost n (some ⟨d.node, .idle, 0⟩)).TermsBelow := by
        intro p x hx
        by_cases hp : p = n
        · subst hp
          cases (Function.update_self ..).symm.trans hx
          exact hterm
        · exact hvbelow p x ((Function.update_of_ne hp ..).symm.trans hx)
      refine ⟨_, hs.update (.single ⟨⟨_, hrecover⟩, hvbelow'⟩)
        (fun p hp => Function.update_of_ne hp ..) (fun _ _ => rfl) (fun _ hm => hm) rfl ?_
        hs.network (by rintro ⟨⟩) ?_⟩
      · show c.disks = Function.update c.disks n (v.disks n)
        rw [hs.disks, Function.update_eq_self]
      · rintro h ⟨⟩
        show MemberSim _ (v.disks n) n _
        rw [← hs.disks] at hd
        exact MemberSim.start ((hinv.disks n).numbered hinv.global) hd (Function.update_self ..)
    · cases hact

theorem act (hs : Simulates g v c) {a : Interleaving.Action} (hact : c.act g a = some c')
    (hkept : c.keeps a = true) (hbelow : c'.TermsBelow) : ∃ v', Simulates g v' c' := by
  cases a with
  | event n e => exact ⟨v, hs.event hbelow hact hkept⟩
  | save n => exact hs.save hact
  | send n m => exact ⟨v, hs.send hact⟩
  | crash n => exact hs.crash hact
  | recover n rnd => exact hs.recover hbelow hact

theorem reachable (hrun : Interleaving.RunKept g Interleaving.init c) :
    ∃ v, Simulates g v c := by
  induction hrun with
  | refl => exact ⟨Cluster.init, init g⟩
  | tail _ hstep ih =>
    obtain ⟨v, hs⟩ := ih
    obtain ⟨a, hact, hkept, hbelow⟩ := hstep
    exact hs.act hact hkept hbelow

end Simulates

end Simulation

theorem map_index_eq {l : List Entry} {i : Nat} (h : NumberedFrom i l) :
    l.map Entry.index = List.range' i l.length := by
  induction l generalizing i with
  | nil => rfl
  | cons e l ih =>
    rw [List.map_cons, h.1, ih h.2, List.length_cons, List.range'_succ]

/-- Committed entries are delivered in order, once each: the acknowledged Readys of an
incarnation report exactly the log up to `lastApplied`, and a Ready that is not acknowledged
is reported again, possibly extended. -/
theorem committed_delivered_in_order (g : Group) (c : Interleaving) (n : NodeID) (h : Member)
    (hrun : Interleaving.RunKept g Interleaving.init c) (hh : c.members n = some h) :
    h.driver.delivered = h.driver.node.log.entries.take h.driver.node.lastApplied ∧
    h.driver.delivered.map Entry.index = List.range' 1 h.driver.node.lastApplied ∧
    ∀ r, h.driver.pending = some r →
      r.committedEntries <+: h.driver.node.ready.1.committedEntries := by
  obtain ⟨v, hs⟩ := Simulates.reachable hrun
  obtain ⟨s, hinv, hbelow⟩ := ClusterInv.reachable hs.run
  have hm := hs.members n h hh
  have hlog := hm.behind.contiguous
  refine ⟨hm.delivered, ?_, fun r hr => ?_⟩
  · have hlen := hm.applied.trans (hm.ahead.commit_le hinv hbelow)
    rw [hm.delivered, map_index_eq (hlog.numbered.mono <| List.take_prefix _ _), List.length_take,
      min_eq_left hlen]
  · obtain ⟨a, ha, _⟩ := hm.reported r hr
    obtain ⟨_, hbehind⟩ := ha.behind
    rw [← ha.ready, show a.ready.1 = a.readyWithoutCapture from rfl,
      show h.driver.node.ready.1 = h.driver.node.readyWithoutCapture from rfl,
      ready_committedEntries hbehind.contiguous, ready_committedEntries hlog, ha.since.lastApplied]
    exact (ha.commitExtends hinv hbelow).2.drop _

/-- Node 1 leads term 1 and commits its first entry with node 2; a tick falls between the Ready
that reports the entry and its Advance. -/
def tickBeforeAdvance : List Interleaving.Action :=
  [.recover 1 none, .recover 2 none, tickOf 1] ++ settle 1 [voteRequest 1 2 1 0 0] ++
  [deliver 2 (voteRequest 1 2 1 0 0)] ++ settle 2 [voteGrant 2 1 1] ++
  [deliver 1 (voteGrant 2 1 1)] ++ settle 1 [appendRequest 1 2 1 0 0 [] 0] ++
  [deliver 2 (appendRequest 1 2 1 0 0 [] 0)] ++ settle 2 [appendSuccess 2 1 1 0] ++
  [deliver 1 (appendSuccess 2 1 1 0)] ++ settle 1 [appendRequest 1 2 1 0 0 [noopEntry 1 1] 0] ++
  [deliver 2 (appendRequest 1 2 1 0 0 [noopEntry 1 1] 0)] ++ settle 2 [appendSuccess 2 1 1 1] ++
  [deliver 1 (appendSuccess 2 1 1 1), .event 1 .ready, tickOf 1, .save 1, .event 1 .advance]

theorem committed_delivered_in_order_ticked :
    ∃ c h, Interleaving.RunKept three Interleaving.init c ∧ c.members 1 = some h ∧
      h.driver.node.lastApplied = 1 ∧ h.driver.delivered.map Entry.index = List.range' 1 1 := by
  obtain ⟨c, h, hrun, hh, hlast⟩ := Interleaving.execWhile_any (g := three) (n := 1)
    (c := Interleaving.init) (l := tickBeforeAdvance) (I := Interleaving.TermsBelow)
    (p := fun c a c' => c.keeps a && Interleaving.staysBelow c a c')
    (P := fun c a c' => c.keeps a = true ∧ c'.TermsBelow)
    (q := fun h => h.driver.node.lastApplied == 1)
    (fun hact hbelow hp => by
      obtain ⟨hkept, hterm⟩ := Bool.and_eq_true_iff.mp hp
      have hbelow' := hbelow.act hact hterm
      exact ⟨⟨hkept, hbelow'⟩, hbelow'⟩)
    Interleaving.TermsBelow.init (by decide +kernel)
  have hlast := beq_iff_eq.mp hlast
  refine ⟨c, h, hrun, hh, hlast, ?_⟩
  rw [(committed_delivered_in_order three c 1 h hrun hh).2.1, hlast]

section Wraparound

variable {g : Group} {c : Interleaving} {n : NodeID}

def Interleaving.campaigned (c : Interleaving) (n : NodeID) (k : Nat) : Interleaving :=
  { c with
    disks := Function.update c.disks n
      ⟨⟨((c.disks n).hard.term + k) % 2 ^ 64, n⟩, (c.disks n).entries⟩ }

def campaignOf (n : NodeID) : List Interleaving.Action :=
  [.recover n none, tickOf n, .event n .ready, .save n, .crash n]

theorem exec_campaignOf (hn : n ∈ g.peers) (hsize : 2 ≤ g.peers.length)
    (hticks : g.electionTickMin n = 1) (hdown : c.members n = none)
    (hnum : NumberedFrom 1 (c.disks n).entries) (hlen : (c.disks n).entries.length < maxUint64) :
    c.execWhile g (fun c a _ => c.keeps a) (campaignOf n) = some (c.campaigned n 1) := by
  obtain ⟨a, ha, hhard, hdirty, hlog, hunstable⟩ := tick_newNode hsize hticks
    ⟨(c.disks n).hard, (c.disks n).entries, ⟨0, 0⟩⟩
  have hready : a.readyWithoutCapture.entries = [] := by
    rw [Node.readyWithoutCapture, hunstable, hlog]
    exact if_neg (by omega)
  have hhs : a.readyWithoutCapture.hardState = some a.hardState := by
    rw [Node.readyWithoutCapture]
    exact if_pos hdirty
  have hmembers : Function.update c.members n none = c.members := by
    rw [← hdown, Function.update_eq_self]
  simp [campaignOf, tickOf, Interleaving.execWhile, Interleaving.act, Interleaving.keeps,
    Driver.keeps, hdown, hn,
    Driver.start, newRecoveredNode_some hnum hlen.ne, Interleaving.setMember, Interleaving.allows,
    Driver.act, LocalInput.run, ha, Node.ready, hready, hhs, hmembers, Interleaving.savedAfter,
    MemStorage.save, hhard, Interleaving.campaigned]

namespace Interleaving

theorem keeps_run {c' : Interleaving} {l : List Action}
    (h : c.execWhile g (fun c a _ => c.keeps a) l = some c') :
    RunWhile g (fun c a _ => c.keeps a = true) c c' :=
  execWhile_run (I := fun _ => True) (fun _ _ hkept => ⟨hkept, trivial⟩) trivial h

theorem rewind (hn : n ∈ g.peers) (hsize : 2 ≤ g.peers.length) (hticks : g.electionTickMin n = 1)
    (hdown : c.members n = none) (hnum : NumberedFrom 1 (c.disks n).entries)
    (hlen : (c.disks n).entries.length < maxUint64) (k : Nat) :
    RunWhile g (fun c a _ => c.keeps a = true) c (c.campaigned n (k + 1)) := by
  induction k with
  | zero => exact keeps_run (exec_campaignOf hn hsize hticks hdown hnum hlen)
  | succ k ih =>
    have hnext := exec_campaignOf (c := c.campaigned n (k + 1)) hn hsize hticks hdown
      (by simpa [campaigned] using hnum) (by simpa [campaigned] using hlen)
    have heq : (c.campaigned n (k + 1)).campaigned n 1 = c.campaigned n (k + 1 + 1) := by
      simp only [campaigned, Function.update_self, Function.update_idem, Nat.mod_add_mod,
        Nat.add_assoc]
    rw [heq] at hnext
    exact ih.trans (keeps_run hnext)

end Interleaving

end Wraparound

/-- Node 3 delivers an entry that node 1 acknowledged without ever saving it; node 1 restarts
without the entry and replaces it at node 3. -/
def lostAcknowledgement : List Interleaving.Action :=
  twoTerms ++ replacedBeforeAdvance ++ settle 1 [appendSuccess 1 3 2 1] ++
  [deliver 3 (appendSuccess 1 3 2 1)] ++ settle 3 [] ++ [.crash 1, .recover 1 none, tickOf 1] ++
  settle 1 [voteRequest 1 2 3 2 1] ++ [deliver 2 (voteRequest 1 2 3 2 1)] ++
  settle 2 [voteGrant 2 1 3] ++ [deliver 1 (voteGrant 2 1 3)] ++
  settle 1 [appendRequest 1 3 3 2 1 [] 0] ++ [deliver 3 (appendRequest 1 3 3 2 1 [] 0)] ++
  settle 3 [⟨3, 1, 3, .appendEntriesResp ⟨3, false, 0⟩⟩] ++
  [deliver 1 ⟨3, 1, 3, .appendEntriesResp ⟨3, false, 0⟩⟩] ++ settle 1 [] ++
  [deliver 1 ⟨3, 1, 3, .appendEntriesResp ⟨3, false, 0⟩⟩] ++
  settle 1 [appendRequest 1 3 3 0 0 [noopEntry 1 1, ⟨2, 1, .normal, [7]⟩, noopEntry 3 3] 0] ++
  [deliver 3 (appendRequest 1 3 3 0 0 [noopEntry 1 1, ⟨2, 1, .normal, [7]⟩, noopEntry 3 3] 0)]

/-- Node 3 leads term 1 with an entry nobody else has.  Node 1 leads term 2, commits its first
entry with node 2 and delivers it; node 2 crashes. -/
def deliveredAtTwo : List Interleaving.Action :=
  [.recover 1 none, .recover 2 none, .recover 3 none, tickOf 3] ++
  settle 3 [voteRequest 3 1 1 0 0] ++ [deliver 1 (voteRequest 3 1 1 0 0)] ++
  settle 1 [voteGrant 1 3 1] ++ [deliver 3 (voteGrant 1 3 1)] ++
  settle 3 [appendRequest 3 2 1 0 0 [] 0] ++ [tickOf 1] ++ settle 1 [voteRequest 1 2 2 0 0] ++
  [deliver 2 (voteRequest 1 2 2 0 0)] ++ settle 2 [voteGrant 2 1 2] ++
  [deliver 1 (voteGrant 2 1 2)] ++ settle 1 [appendRequest 1 2 2 0 0 [] 0] ++
  [deliver 2 (appendRequest 1 2 2 0 0 [] 0)] ++ settle 2 [appendSuccess 2 1 2 0] ++
  [deliver 1 (appendSuccess 2 1 2 0)] ++ settle 1 [appendRequest 1 2 2 0 0 [noopEntry 1 2] 0] ++
  [deliver 2 (appendRequest 1 2 2 0 0 [noopEntry 1 2] 0)] ++ settle 2 [appendSuccess 2 1 2 1] ++
  [deliver 1 (appendSuccess 2 1 2 1)] ++ settle 1 [] ++ [.crash 2]

/-- Node 2, back at term 1, follows the leader of term 1, wins term 3 with that log and
replaces the log of node 1 by it. -/
def deliveredReplaced : List Interleaving.Action :=
  [.recover 2 none, deliver 2 (appendRequest 3 2 1 0 0 [] 0)] ++ settle 2 [appendSuccess 2 3 1 0] ++
  [deliver 3 (appendSuccess 2 3 1 0)] ++ settle 3 [appendRequest 3 2 1 0 0 [noopEntry 1 1] 0] ++
  [deliver 2 (appendRequest 3 2 1 0 0 [noopEntry 1 1] 0)] ++ settle 2 [] ++
  [tickOf 2] ++ settle 2 [] ++ [tickOf 2] ++ settle 2 [voteRequest 2 3 3 1 1] ++
  [deliver 3 (voteRequest 2 3 3 1 1)] ++ settle 3 [voteGrant 3 2 3] ++
  [deliver 2 (voteGrant 3 2 3)] ++ settle 2 [appendRequest 2 1 3 1 1 [] 0] ++
  [deliver 1 (appendRequest 2 1 3 1 1 [] 0)] ++
  settle 1 [⟨1, 2, 3, .appendEntriesResp ⟨3, false, 0⟩⟩] ++
  [deliver 2 ⟨1, 2, 3, .appendEntriesResp ⟨3, false, 0⟩⟩] ++
  settle 2 [appendRequest 2 1 3 0 0 [noopEntry 1 1, noopEntry 2 3] 0] ++
  [deliver 1 (appendRequest 2 1 3 0 0 [noopEntry 1 1, noopEntry 2 3] 0)]

def afterDelivery : Interleaving :=
  (Interleaving.init.execWhile three (fun c a _ => c.keeps a) deliveredAtTwo).get (by decide +kernel)

def misdelivered (h : Member) : Bool :=
  h.driver.delivered != h.driver.node.log.entries.take h.driver.node.lastApplied

/-- Both conditions are needed: a replaced report loses an acknowledged entry although terms
stay small, and a term that wraps around brings back an old leader although no report is
replaced. -/
theorem delivered_entries_replaced :
    (∃ c h, Interleaving.RunWhile three (fun _ _ c' => c'.TermsBelow) Interleaving.init c ∧
      c.members 3 = some h ∧
      h.driver.delivered ≠ h.driver.node.log.entries.take h.driver.node.lastApplied) ∧
    ∃ c h, Interleaving.RunWhile three (fun c a _ => c.keeps a = true)
        Interleaving.init c ∧ c.members 1 = some h ∧
      h.driver.delivered ≠ h.driver.node.log.entries.take h.driver.node.lastApplied := by
  constructor
  · obtain ⟨c, h, hrun, hh, hne⟩ := Interleaving.execWhile_any (g := three) (n := 3)
      (c := Interleaving.init) (l := lostAcknowledgement) (I := Interleaving.TermsBelow)
      (p := Interleaving.staysBelow) (P := fun _ _ c' => c'.TermsBelow) (q := misdelivered)
      (fun hact hbelow hterm => ⟨hbelow.act hact hterm, hbelow.act hact hterm⟩)
      Interleaving.TermsBelow.init (by decide +kernel)
    exact ⟨c, h, hrun, hh, bne_iff_ne.mp hne⟩
  · have hdisk : afterDelivery.disks 2 = ⟨⟨2, 1⟩, [noopEntry 1 2]⟩ := by decide +kernel
    have hdown : afterDelivery.members 2 = none := Option.isNone_iff_eq_none.mp (by decide +kernel)
    have hfirst : Interleaving.RunWhile three (fun c a _ => c.keeps a = true)
        Interleaving.init afterDelivery :=
      Interleaving.keeps_run (l := deliveredAtTwo) (Option.some_get _).symm
    have hrewind := Interleaving.rewind (g := three) (c := afterDelivery) (n := 2) (by decide)
      (by decide) rfl hdown (by rw [hdisk]; exact ⟨rfl, trivial⟩) (by rw [hdisk]; decide) (2 ^ 64 - 2)
    obtain ⟨c, h, hrest, hh, hne⟩ := Interleaving.execWhile_any (g := three) (n := 1)
      (c := afterDelivery.campaigned 2 (2 ^ 64 - 2 + 1)) (l := deliveredReplaced) (I := fun _ => True)
      (p := fun c a _ => c.keeps a) (P := fun c a _ => c.keeps a = true) (q := misdelivered)
      (fun _ _ hkept => ⟨hkept, trivial⟩) trivial (by decide +kernel)
    exact ⟨c, h, (hfirst.trans hrewind).trans hrest, hh, bne_iff_ne.mp hne⟩

end MiniQuorum.Server
