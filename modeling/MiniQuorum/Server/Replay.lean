import MiniQuorum.Raft.Owed
import MiniQuorum.Server.CommitIndex

/-! A host-driven cluster takes inputs one call at a time.  Here a host is driven through
whole calls, until its node has taken inputs that another node took without reporting. -/

namespace MiniQuorum.Server

open Raft Storage Consensus Consensus.Replog

variable {g : Group} {c c' : Cluster} {s : Global} {n : NodeID} {a b : Node}

theorem Input.run_owing (input : Input) (o : Owed) (a : Node) :
    input.run (a.owing o) = (input.run a).owing o := by
  cases input with
  | tick rnd => exact Node.tick_owing o a rnd
  | step m rnd => exact Node.step_owing o a rnd m
  | propose data => exact Node.propose_owing o a data

theorem advance_core (a : Node) : a.advance.core = a.core := by
  obtain ⟨_, _, _, _, _, heq⟩ := advance_eq a
  rw [heq]
  rfl

theorem Input.Delivered.mono {input : Input} (h : input.Delivered c n)
    (hnet : ∀ m ∈ c.network, m ∈ c'.network) : input.Delivered c' n := by
  cases input with
  | step m rnd => exact ⟨hnet m h.1, h.2⟩
  | _ => trivial

structure Drives (g : Group) (n : NodeID) (c : Cluster) (h : Host) (c' : Cluster) : Prop where
  run : Cluster.RunBelow g c c'
  below : c'.TermsBelow
  host : c'.hosts n = some h
  hosts : ∀ p, p ≠ n → c'.hosts p = c.hosts p
  disks : ∀ p, p ≠ n → c'.disks p = c.disks p
  network : ∀ m ∈ c.network, m ∈ c'.network

namespace Drives

variable {c₁ c₂ : Cluster} {h h' : Host} {hint : NodeID} {messages : List Message}
  {committed : List Entry}

theorem refl (hbelow : c.TermsBelow) (hhost : c.hosts n = some h) : Drives g n c h c :=
  ⟨.refl, hbelow, hhost, fun _ _ => rfl, fun _ _ => rfl, fun _ hm => hm⟩

theorem trans (hd : Drives g n c h c₁) (hd' : Drives g n c₁ h' c₂) : Drives g n c h' c₂ where
  run := hd.run.trans hd'.run
  below := hd'.below
  host := hd'.host
  hosts p hp := (hd'.hosts p hp).trans (hd.hosts p hp)
  disks p hp := (hd'.disks p hp).trans (hd.disks p hp)
  network m hm := hd'.network m (hd.network m hm)

theorem step (hd : Drives g n c h c₁) {act : Action} (hact : c₁.act g act = some c₂)
    (hhosts : c₂.hosts = Function.update c₁.hosts n (some h'))
    (hdisks : ∀ p, p ≠ n → c₂.disks p = c₁.disks p)
    (hnet : ∀ m ∈ c₁.network, m ∈ c₂.network) (hterm : h'.node.hardState.term < maxUint64) :
    Drives g n c h' c₂ := by
  have hbelow : c₂.TermsBelow := by
    intro p x hx
    rw [hhosts] at hx
    by_cases hp : p = n
    · subst hp
      rw [Function.update_self] at hx
      cases hx
      exact hterm
    · rw [Function.update_of_ne hp] at hx
      exact hd.below p x hx
  refine ⟨hd.run.tail ⟨⟨act, hact⟩, hbelow⟩, hbelow, ?_, fun p hp => ?_, fun p hp => ?_,
    fun m hm => hnet m (hd.network m hm)⟩
  · rw [hhosts, Function.update_self]
  · rw [hhosts, Function.update_of_ne hp]
    exact hd.hosts p hp
  · rw [hdisks p hp]
    exact hd.disks p hp

theorem send (hd : Drives g n c ⟨a, .draining messages committed, hint⟩ c₁) :
    ∃ c₂, Drives g n c ⟨a, .draining [] committed, hint⟩ c₂ ∧ (∀ m ∈ c₁.network, m ∈ c₂.network) ∧
      ∀ m ∈ messages, m ∈ c₂.network := by
  induction messages generalizing c₁ with
  | nil => exact ⟨c₁, hd, fun _ hm => hm, by rintro m ⟨⟩⟩
  | cons m messages ih =>
    have hact : c₁.act g (.send n) = some
        { c₁.setHost n (some ⟨a, .draining messages committed, hint⟩) with
          network := m :: c₁.network } := by
      simp only [Cluster.act, hd.host]
    have hterm : a.hardState.term < maxUint64 := hd.below n _ hd.host
    obtain ⟨c₂, hd', hnet, hsent⟩ := ih (hd.step hact rfl (fun _ _ => rfl)
      (fun _ hm => List.mem_cons_of_mem _ hm) hterm)
    refine ⟨c₂, hd', fun m' hm' => hnet m' (List.mem_cons_of_mem _ hm'), fun m' hm' => ?_⟩
    rcases List.mem_cons.mp hm' with rfl | hm'
    · exact hnet _ List.mem_cons_self
    · exact hsent m' hm'

theorem apply (hd : Drives g n c ⟨a, .draining [] committed, hint⟩ c₁) :
    ∃ c₂, Drives g n c ⟨a, .draining [] [], hint⟩ c₂ ∧ c₂.network = c₁.network := by
  induction committed generalizing c₁ with
  | nil => exact ⟨c₁, hd, rfl⟩
  | cons e committed ih =>
    have hact : c₁.act g (.apply n) = some
        { c₁.setHost n (some ⟨a, .draining [] committed, hint⟩) with
          applied := ⟨n, e⟩ :: c₁.applied } := by
      simp only [Cluster.act, hd.host]
    have hterm : a.hardState.term < maxUint64 := hd.below n _ hd.host
    obtain ⟨c₂, hd', hnet⟩ := ih (hd.step hact rfl (fun _ _ => rfl) (fun _ hm => hm) hterm)
    exact ⟨c₂, hd', hnet⟩

theorem input (hd : Drives g n c ⟨a, .idle, hint⟩ c₁) (input : Input) (hin : input.Delivered c₁ n)
    (hterm : (input.run a).hardState.term < maxUint64) :
    ∃ c₂ hint', Drives g n c ⟨input.run a, .stepped, hint'⟩ c₂ := by
  have hact : ∃ act hint', c₁.act g act =
      some (c₁.setHost n (some ⟨input.run a, .stepped, hint'⟩)) := by
    cases input with
    | tick rnd => exact ⟨.tick n rnd, _, by simp only [Cluster.act, hd.host]; rfl⟩
    | step m rnd =>
      refine ⟨.step n m rnd, stepLeaderHint hint m, ?_⟩
      simp only [Cluster.act, hd.host]
      exact if_pos hin
    | propose data => exact ⟨.propose n data, _, by simp only [Cluster.act, hd.host]; rfl⟩
  obtain ⟨act, hint', hact⟩ := hact
  exact ⟨_, hint', hd.step hact rfl (fun _ _ => rfl) (fun _ hm => hm) hterm⟩

theorem ready (hd : Drives g n c ⟨a, .stepped, hint⟩ c₁) :
    ∃ c₂, Drives g n c ⟨a.ready.2, .saving a.ready.1, hint⟩ c₂ := by
  have hact : c₁.act g (.ready n) = some (c₁.setHost n
      (some ⟨a.ready.2, .saving a.ready.1, hint⟩)) := by
    simp only [Cluster.act, hd.host]
  have hterm : a.hardState.term < maxUint64 := hd.below n _ hd.host
  exact ⟨_, hd.step hact rfl (fun _ _ => rfl) (fun _ hm => hm) hterm⟩

theorem save {r : Ready} (hd : Drives g n c ⟨a, .saving r, hint⟩ c₁) :
    ∃ c₂, Drives g n c ⟨a, .draining r.messages r.committedEntries, hint⟩ c₂ := by
  have hact : c₁.act g (.save n) = some
      ((c₁.setDisk n ((c₁.disks n).save r.hardState r.entries)).setHost n
        (some ⟨a, .draining r.messages r.committedEntries, hint⟩)) := by
    simp only [Cluster.act, hd.host]
  have hterm : a.hardState.term < maxUint64 := hd.below n _ hd.host
  exact ⟨_, hd.step hact rfl (fun p hp => Function.update_of_ne hp ..) (fun _ hm => hm) hterm⟩

theorem advance (hd : Drives g n c ⟨a, .draining [] [], hint⟩ c₁) :
    ∃ c₂, Drives g n c ⟨a.advance, .idle, hint⟩ c₂ ∧ c₂.network = c₁.network := by
  have hact : c₁.act g (.advance n) = some (c₁.setHost n (some ⟨a.advance, .idle, hint⟩)) := by
    simp only [Cluster.act, hd.host]
  have hterm : a.advance.hardState.term < maxUint64 := by
    obtain ⟨_, _, _, _, _, heq⟩ := advance_eq a
    rw [heq]
    exact hd.below n _ hd.host
  exact ⟨_, hd.step hact rfl (fun _ _ => rfl) (fun _ hm => hm) hterm, rfl⟩

theorem call (hbelow : c.TermsBelow) (hhost : c.hosts n = some ⟨a, .idle, hint⟩) (input : Input)
    (hin : input.Delivered c n) (hterm : (input.run a).hardState.term < maxUint64) :
    ∃ c₂ hint', Drives g n c ⟨(input.run a).ready.2.advance, .idle, hint'⟩ c₂ ∧
      ∀ m ∈ (input.run a).messages, m ∈ c₂.network := by
  obtain ⟨c₂, hint', hd⟩ := (refl (g := g) hbelow hhost).input input hin hterm
  obtain ⟨c₃, hd⟩ := hd.ready
  obtain ⟨c₄, hd⟩ := hd.save
  obtain ⟨c₅, hd, _, hsent⟩ := hd.send
  obtain ⟨c₆, hd, happlied⟩ := hd.apply
  obtain ⟨c₇, hd, hadvanced⟩ := hd.advance
  refine ⟨c₇, hint', hd, fun m hm => ?_⟩
  rw [hadvanced, happlied]
  exact hsent m hm

end Drives

def Takes (c : Cluster) (n : NodeID) (a b : Node) : Prop :=
  ∃ input : Input, input.Delivered c n ∧ b = input.run a ∧ b.hardState.term < maxUint64

def TakesAll (c : Cluster) (n : NodeID) : Node → Node → Prop := Relation.ReflTransGen (Takes c n)

theorem TakesAll.mono (h : TakesAll c n a b) (hnet : ∀ m ∈ c.network, m ∈ c'.network) :
    TakesAll c' n a b := by
  induction h with
  | refl => exact .refl
  | tail _ hstep ih =>
    obtain ⟨input, hin, hrest⟩ := hstep
    exact ih.tail ⟨input, hin.mono hnet, hrest⟩

theorem Takes.alike {a' : Node} (h : Takes c n a b) (hcore : a'.core = a.core) :
    ∃ b' out, Takes c n a' b' ∧ b'.core = b.core ∧ b'.messages = a'.messages ++ out ∧
      b.messages = a.messages ++ out := by
  obtain ⟨input, hin, rfl, hterm⟩ := h
  obtain ⟨hrun, out, hout', hout⟩ := Node.run_alike (f := fun a => input.run a) input.run_owing hcore
  refine ⟨_, out, ⟨input, hin, rfl, ?_⟩, hrun, hout', hout⟩
  rwa [Node.hardState_eq_of_core hrun]

theorem TakesAll.alike {a' : Node} (h : TakesAll c n a b) (hcore : a'.core = a.core) :
    ∃ b' out, TakesAll c n a' b' ∧ b'.core = b.core ∧ b'.messages = a'.messages ++ out ∧
      b.messages = a.messages ++ out := by
  induction h with
  | refl => exact ⟨a', [], .refl, hcore, (List.append_nil _).symm, (List.append_nil _).symm⟩
  | tail _ hstep ih =>
    obtain ⟨b', out, hall, hcore', hout', hout⟩ := ih
    obtain ⟨d', more, hstep', hcore'', hmore', hmore⟩ := hstep.alike hcore'
    refine ⟨d', out ++ more, hall.tail hstep', hcore'', ?_, ?_⟩
    · rw [hmore', hout', List.append_assoc]
    · rw [hmore, hout, List.append_assoc]

/-- The idle host of `n` has the protocol state of `a`, which owes no message that was not
sent. -/
structure Mirrors (c : Cluster) (n : NodeID) (a : Node) : Prop where
  host : ∃ base hint, c.hosts n = some ⟨base, .idle, hint⟩ ∧ base.core = a.core
  sent : ∀ m ∈ a.messages, m ∈ c.network

/-- Node `a` has taken inputs that the idle host of `n` has not yet taken. -/
structure Ahead (c : Cluster) (n : NodeID) (a : Node) : Prop where
  host : ∃ base hint x, c.hosts n = some ⟨base, .idle, hint⟩ ∧ TakesAll c n base x ∧
    x.core = a.core ∧ ∀ m ∈ a.messages, m ∈ c.network ∨ m ∈ x.messages

theorem Ahead.alike (h : Ahead c n a) (hcore : b.core = a.core)
    (hmessages : ∀ m ∈ b.messages, m ∈ a.messages) : Ahead c n b := by
  obtain ⟨base, hint, x, hhost, hall, hx, hm⟩ := h.host
  exact ⟨base, hint, x, hhost, hall, hx.trans hcore.symm, fun m hb => hm m (hmessages m hb)⟩

theorem Ahead.takesAll (h : Ahead c n a) (hall : TakesAll c n a b) : Ahead c n b := by
  obtain ⟨base, hint, x, hhost, hbase, hx, hm⟩ := h.host
  obtain ⟨y, out, hall', hy, hout', hout⟩ := hall.alike hx
  refine ⟨base, hint, y, hhost, hbase.trans hall', hy, fun m hb => ?_⟩
  rw [hout] at hb
  rw [hout']
  rcases List.mem_append.mp hb with hb | hb
  · exact (hm m hb).imp_right (List.mem_append_left _)
  · exact .inr (List.mem_append_right _ hb)

theorem Mirrors.ahead (h : Mirrors c n a) : Ahead c n a := by
  obtain ⟨base, hint, hhost, hcore⟩ := h.host
  exact ⟨base, hint, base, hhost, .refl, hcore, fun m hm => .inl (h.sent m hm)⟩

theorem Ahead.mono (h : Ahead c n a) (hhost : c'.hosts n = c.hosts n)
    (hnet : ∀ m ∈ c.network, m ∈ c'.network) : Ahead c' n a := by
  obtain ⟨base, hint, x, hidle, hall, hx, hm⟩ := h.host
  exact ⟨base, hint, x, hhost.trans hidle, hall.mono hnet, hx, fun m ha =>
    (hm m ha).imp_left (hnet m)⟩

theorem Ahead.catchUp (h : Ahead c n a) (hinv : ClusterInv g c s) (hbelow : c.TermsBelow) :
    ∃ c' h', Drives g n c h' c' ∧ Mirrors c' n a := by
  obtain ⟨base, hint, x, hhost, hall, hx, hm⟩ := h.host
  have hsettled : Settled g s (c.disks n) n base := hinv.hosts n _ hhost
  suffices hdrive : ∃ c' y hint', Drives g n c ⟨y, .idle, hint'⟩ c' ∧ y.core = x.core ∧
      ∀ m ∈ x.messages, m ∈ c'.network by
    obtain ⟨c', y, hint', hd, hy, hsent⟩ := hdrive
    refine ⟨c', _, hd, ⟨y, hint', hd.host, hy.trans hx⟩, fun m hmem => ?_⟩
    exact (hm m hmem).elim (hd.network m) (hsent m)
  clear hx hm
  induction hall with
  | refl =>
    refine ⟨c, base, hint, .refl hbelow hhost, rfl, ?_⟩
    rw [hsettled.messages]
    rintro m ⟨⟩
  | tail _ hstep ih =>
    obtain ⟨c₁, y, hint₁, hd, hy, hsent⟩ := ih
    obtain ⟨y', out, ⟨input, hin, rfl, hterm⟩, hy', hout', hout⟩ := hstep.alike hy
    obtain ⟨c₂, hint₂, hd', hsent'⟩ := Drives.call hd.below hd.host input (hin.mono hd.network) hterm
    refine ⟨c₂, _, hint₂, hd.trans hd', (advance_core _).trans hy', fun m hm => ?_⟩
    rw [hout] at hm
    rcases List.mem_append.mp hm with hm | hm
    · exact hd'.network m (hsent m hm)
    · exact hsent' m (hout' ▸ List.mem_append_right _ hm)

end MiniQuorum.Server
