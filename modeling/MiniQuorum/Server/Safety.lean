import MiniQuorum.Server.Runs

namespace MiniQuorum.Server

open Raft Storage Consensus Consensus.Replog

def entryAt (l : List Entry) (index : Nat) : Option Entry := l.find? (fun e => e.index == index)

theorem entryAt_from {l : List Entry} {i : Nat} (h : NumberedFrom i l) (k : Nat) :
    entryAt l (i + k) = l[k]? := by
  induction l generalizing i k with
  | nil => rfl
  | cons a l ih =>
    obtain ⟨ha, hl⟩ := h
    cases k with
    | zero => simp [entryAt, ha]
    | succ k =>
      have hne : (a.index == i + (k + 1)) = false := by
        rw [beq_eq_false_iff_ne]
        omega
      rw [entryAt, List.find?_cons_of_neg (by simp [hne]), List.getElem?_cons_succ, ← ih hl k,
        entryAt, show i + (k + 1) = i + 1 + k by omega]

theorem entryAt_succ {l : List Entry} (h : NumberedFrom 1 l) (k : Nat) :
    entryAt l (k + 1) = l[k]? := by
  rw [Nat.add_comm]
  exact entryAt_from h k

theorem entryAt_zero {l : List Entry} (h : NumberedFrom 1 l) : entryAt l 0 = none := by
  rw [entryAt, List.find?_eq_none]
  intro e he
  obtain ⟨k, hk⟩ := List.getElem?_of_mem he
  have := h.getElem? hk
  simp only [beq_iff_eq]
  omega

theorem entryAt_take {l l' : List Entry} (h : NumberedFrom 1 l) (h' : NumberedFrom 1 l') {k i : Nat}
    (ht : l.take k = l'.take k) (hi : i ≤ k) : entryAt l i = entryAt l' i := by
  cases i with
  | zero => rw [entryAt_zero h, entryAt_zero h']
  | succ i =>
    rw [entryAt_succ h, entryAt_succ h', ← List.getElem?_take_of_lt hi, ht,
      List.getElem?_take_of_lt hi]

theorem index_of_mem {l : List Entry} (h : NumberedFrom 1 l) {e : Entry} (he : e ∈ l) :
    ∃ k, l[k]? = some e ∧ e.index = k + 1 := by
  obtain ⟨k, hk⟩ := List.getElem?_of_mem he
  exact ⟨k, hk, by rw [h.getElem? hk, Nat.add_comm]⟩

inductive Cluster.HasLog (c : Cluster) : List Entry → Prop
  | memory {n : NodeID} {h : Host} (hh : c.hosts n = some h) : HasLog c h.node.log.entries
  | disk (n : NodeID) : HasLog c (c.disks n).entries

section Completion

variable {g : Group} {c c' : Cluster} {s s' : Global} {n : NodeID} {disk : MemStorage}

theorem NodeInv.captureReady {a : Node} (h : NodeInv g s n a) (r : Ready) :
    NodeInv g s n (a.captureReady r) :=
  { h with leader := fun hl => { h.leader hl with } }

theorem HostInv.complete {host : Host} (h : HostInv g s disk n host) (hi : LogInv g s) :
    ∃ s', Acts n s s' ∧ LogInv g s' ∧ NodeInv g s' n host.node ∧
      (host.node.role = .leader → SelfVoted g s n host.node.hardState.term) := by
  obtain ⟨node, phase, hint⟩ := host
  cases phase with
  | idle =>
    have hs : Settled g s disk n node := h
    exact ⟨s, Acts.refl n s, hi, hs.inv, fun hr => .inl (hs.inv.ballot_leader hr)⟩
  | stepped =>
    have hs : Stepped g s disk n node := h
    obtain ⟨s', hcall⟩ := hs.called hi
    exact ⟨s', hcall.acts, hcall.global, hcall.inv, hcall.lead⟩
  | saving r =>
    obtain ⟨base, hs, heq⟩ := h
    cases heq
    obtain ⟨s', hcall⟩ := hs.called hi
    exact ⟨s', hcall.acts, hcall.global, hcall.inv.captureReady _, hcall.lead⟩
  | draining messages committed =>
    obtain ⟨base, hs, heq, _⟩ := h
    cases heq
    exact ⟨s, Acts.refl n s, hi, hs.inv.captureReady _,
      fun hr => .inl (hs.inv.ballot_leader hr)⟩

end Completion

/-- State machine safety: entries applied at one index anywhere are the same entry. -/
theorem state_machine_safety (g : Group) (c : Cluster)
    (hrun : Cluster.RunBelow g Cluster.init c) :
    ∀ x ∈ c.applied, ∀ y ∈ c.applied, x.entry.index = y.entry.index →
      x.entry.term = y.entry.term ∧ x.entry.type = y.entry.type ∧
        x.entry.data = y.entry.data := by
  intro x hx y hy hindex
  obtain ⟨s, h, _⟩ := ClusterInv.reachable hrun
  obtain ⟨b, l, k, hl, hlk, hxk⟩ := h.applied x hx
  obtain ⟨b', l', k', hl', hlk', hyk'⟩ := h.applied y hy
  obtain rfl : k = k' := by omega
  have hget : ∀ {m : List Entry} {e : Entry}, m[k]? = some e → (m.take (k + 1))[k]? = some e := by
    intro m e he
    rw [List.getElem?_take_of_lt (Nat.lt_succ_self k), he]
  have heq : x.entry = y.entry := by
    rcases Agreed.unique h.global.toInv hl hl' with hp | hp
    · exact Option.some.inj ((prefix_getElem? hp (hget hlk)).symm.trans (hget hlk'))
    · exact Option.some.inj ((hget hlk).symm.trans (prefix_getElem? hp (hget hlk')))
  rw [heq]
  exact ⟨rfl, rfl, rfl⟩

theorem state_machine_safety_replicated :
    ∃ c, Cluster.RunBelow three Cluster.init c ∧
      ∃ x ∈ c.applied, ∃ y ∈ c.applied, x.node = 1 ∧ y.node = 2 ∧ x.entry.index = y.entry.index ∧
        x.entry.data = y.entry.data := by
  obtain ⟨c, hrun, hp⟩ := execBelow_any three replicated
    (fun c => c.applied == [⟨2, noopEntry 1 1⟩, ⟨1, noopEntry 1 1⟩]) (by decide +kernel)
  have happlied := beq_iff_eq.mp hp
  have hx : ⟨1, noopEntry 1 1⟩ ∈ c.applied := by rw [happlied]; decide
  have hy : ⟨2, noopEntry 1 1⟩ ∈ c.applied := by rw [happlied]; decide
  exact ⟨c, hrun, _, hx, _, hy, rfl, rfl, rfl,
    (state_machine_safety three c hrun _ hx _ hy rfl).2.2⟩

section ElectionSafety

variable {g : Group} {c c' : Cluster} {s s' : Global} {n n' : NodeID} {term : Nat}

def Cluster.InLeaderRole (c : Cluster) (n : NodeID) (term : Nat) : Prop :=
  ∃ h, c.hosts n = some h ∧ h.node.role = .leader ∧ h.node.hardState.term = term

def Cluster.EmitsAppend (c : Cluster) (n : NodeID) (term : Nat) : Prop :=
  ∃ m req, m.body = .appendEntries req ∧ req.term = term ∧
    ((m ∈ c.network ∧ m.fromID = n) ∨ ∃ h, c.hosts n = some h ∧ m ∈ h.node.messages)

def Elected (g : Group) (s : Global) (n : NodeID) (term : Nat) : Prop :=
  n ∈ g.peers ∧ (s.Won g.members n term ∨ g.peers.length ≤ 1)

theorem Elected.unique (h : Elected g s n term) (h' : Elected g s n' term) : n = n' := by
  obtain ⟨hn, hwon⟩ := h
  obtain ⟨hn', hwon'⟩ := h'
  by_cases hsize : g.peers.length ≤ 1
  · rw [← List.toFinset_card_of_nodup g.nodup, Finset.card_le_one] at hsize
    exact hsize n (List.mem_toFinset.mpr hn) n' (List.mem_toFinset.mpr hn')
  · exact (hwon.resolve_right hsize).unique (hwon'.resolve_right hsize)

theorem Elected.mono (hg : Grows s s') (h : Elected g s n term) : Elected g s' n term :=
  ⟨h.1, h.2.imp_left fun hw => hw.mono hg⟩

theorem ClusterInv.elected_of_inLeaderRole (h : ClusterInv g c s)
    (hl : c.InLeaderRole n term) : Elected g s n term := by
  obtain ⟨host, hhost, hrole, rfl⟩ := hl
  obtain ⟨s', hacts, hi, hinv, hself⟩ := (h.hosts n host hhost).complete h.global
  refine ⟨hinv.member, ?_⟩
  rcases hself hrole with hballot | hsize
  · obtain ⟨Q, hQ, hq⟩ := hi.leader_won (hinv.leader hrole).leads
    refine .inl ⟨Q, hQ, fun p hp => ?_⟩
    by_cases hpn : p = n
    · rw [hpn]
      exact hballot
    · rw [← hacts.ballot_other hpn]
      exact hq p hp
  · exact .inr hsize

theorem ClusterInv.elected_of_emitsAppend (h : ClusterInv g c s)
    (he : c.EmitsAppend n term) : Elected g s n term := by
  obtain ⟨m, req, hbody, rfl, ⟨hm, rfl⟩ | ⟨host, hhost, hm⟩⟩ := he
  · have hinv := h.network m hm
    have hb := hinv.body
    rw [hbody] at hb
    rw [hb.1]
    exact ⟨hinv.sender, .inl (h.global.leader_won hb.2.leads)⟩
  · obtain ⟨s', _, _, hinv, _⟩ := (h.hosts n host hhost).complete h.global
    obtain ⟨_, hterm, hmsg, happ⟩ := hinv.messages m hm
    have hb := hmsg.body
    rw [hbody] at hb
    rw [hb.1, hterm]
    exact h.elected_of_inLeaderRole ⟨host, hhost, happ ⟨req, hbody⟩, rfl⟩

/-- Election safety: two nodes that ever lead one term, at whatever two moments of a run,
are the same node. -/
theorem election_safety (g : Group) (c c' : Cluster) (n n' : NodeID) (term : Nat)
    (hrun : Cluster.RunBelow g Cluster.init c) (hrun' : Cluster.RunBelow g c c')
    (hlead : c.InLeaderRole n term ∨ c.EmitsAppend n term)
    (hlead' : c'.InLeaderRole n' term ∨ c'.EmitsAppend n' term) : n = n' := by
  obtain ⟨s, h, hbelow⟩ := ClusterInv.reachable hrun
  obtain ⟨s', hgrows, h', _⟩ := h.run hbelow hrun'
  have he : Elected g s n term := hlead.elim h.elected_of_inLeaderRole h.elected_of_emitsAppend
  have he' : Elected g s' n' term :=
    hlead'.elim h'.elected_of_inLeaderRole h'.elected_of_emitsAppend
  exact (he.mono hgrows).unique he'

theorem inLeaderRole_of_leadsWith {log : List Entry} (h : leadsWith c n term log = true) :
    c.InLeaderRole n term ∧ c.HasLog log := by
  rw [leadsWith, Option.any_eq_true] at h
  obtain ⟨host, hhost, hp⟩ := h
  simp only [Bool.and_eq_true, beq_iff_eq] at hp
  obtain ⟨⟨hrole, hterm⟩, rfl⟩ := hp
  exact ⟨⟨host, hhost, hrole, hterm⟩, .memory hhost⟩

theorem election_safety_replicated :
    ∃ c, Cluster.RunBelow three Cluster.init c ∧ c.InLeaderRole 1 1 ∧
      ∀ n, c.InLeaderRole n 1 ∨ c.EmitsAppend n 1 → 1 = n := by
  obtain ⟨c, hrun, hp⟩ := execBelow_any three replicated
    (fun c => leadsWith c 1 1 [noopEntry 1 1]) (by decide +kernel)
  have hlead := (inLeaderRole_of_leadsWith hp).1
  exact ⟨c, hrun, hlead, fun n hn => election_safety three c c 1 n 1 hrun .refl (.inl hlead) hn⟩

/-- Without the bound on terms two nodes lead term 1. -/
theorem election_safety_wraps :
    ∃ c, Cluster.Run three Cluster.init c ∧ 1 < maxUint64 ∧ c.InLeaderRole 1 1 ∧
      c.InLeaderRole 2 1 := by
  obtain ⟨c, hrun, h, h'⟩ := two_leaders
  exact ⟨c, hrun, by decide, (inLeaderRole_of_leadsWith h).1, (inLeaderRole_of_leadsWith h').1⟩

end ElectionSafety

section LogMatching

variable {g : Group} {c : Cluster} {s : Global}

theorem ClusterInv.valid_disk (h : ClusterInv g c s) (n : NodeID) :
    s.Valid Entry.term (c.disks n).entries :=
  (h.disks n).log ▸ h.global.log_valid n

theorem HostInv.valid {disk : MemStorage} {n : NodeID} {host : Host}
    (h : HostInv g s disk n host) (hi : LogInv g s) :
    ∃ s', Acts n s s' ∧ LogInv g s' ∧ s'.Valid Entry.term host.node.log.entries := by
  obtain ⟨s', hacts, hi', hinv, _⟩ := h.complete hi
  exact ⟨s', hacts, hi', hinv.log ▸ hi'.log_valid n⟩

theorem ClusterInv.valid_pair (h : ClusterInv g c s) {l l' : List Entry} (hl : c.HasLog l)
    (hl' : c.HasLog l') :
    ∃ s', LogInv g s' ∧ s'.Valid Entry.term l ∧ s'.Valid Entry.term l' := by
  cases hl with
  | disk n =>
    cases hl' with
    | disk m => exact ⟨s, h.global, h.valid_disk n, h.valid_disk m⟩
    | memory hm =>
      obtain ⟨s', hacts, hi, hv⟩ := (h.hosts _ _ hm).valid h.global
      exact ⟨s', hi, (h.valid_disk n).mono hacts.toGrows, hv⟩
  | @memory n host hn =>
    obtain ⟨s', hacts, hi, hv⟩ := (h.hosts _ _ hn).valid h.global
    cases hl' with
    | disk m => exact ⟨s', hi, hv, (h.valid_disk m).mono hacts.toGrows⟩
    | @memory m host' hm =>
      by_cases hmn : m = n
      · subst hmn
        obtain rfl : host = host' := Option.some.inj (hn.symm.trans hm)
        exact ⟨s', hi, hv, hv⟩
      · obtain ⟨s'', hacts', hi', hv'⟩ := ((h.hosts _ _ hm).frame hacts hmn).valid hi
        exact ⟨s'', hi', hv.mono hacts'.toGrows, hv'⟩

/-- Log matching: logs with a common index and term agree up to there. -/
theorem log_matching (g : Group) (c : Cluster) (hrun : Cluster.RunBelow g Cluster.init c)
    (l l' : List Entry) (hl : c.HasLog l) (hl' : c.HasLog l') (e e' : Entry) (he : e ∈ l)
    (he' : e' ∈ l') (hindex : e.index = e'.index) (hterm : e.term = e'.term) :
    ∀ i ≤ e.index, entryAt l i = entryAt l' i := by
  obtain ⟨s, h, _⟩ := ClusterInv.reachable hrun
  obtain ⟨s', hi, hv, hv'⟩ := h.valid_pair hl hl'
  have hnum := hi.numbered_of_valid hv
  have hnum' := hi.numbered_of_valid hv'
  obtain ⟨k, hk, hek⟩ := index_of_mem hnum he
  obtain ⟨k', hk', hek'⟩ := index_of_mem hnum' he'
  obtain rfl : k = k' := by omega
  intro i hi'
  exact entryAt_take hnum hnum' (hv.matching hv' hk hk' hterm) (hek ▸ hi')

theorem log_matching_replicated :
    ∃ c, Cluster.RunBelow three Cluster.init c ∧ c.HasLog [noopEntry 1 1] ∧
      entryAt [noopEntry 1 1] 1 = entryAt (c.disks 2).entries 1 := by
  obtain ⟨c, hrun, hp⟩ := execBelow_any three replicated
    (fun c => leadsWith c 1 1 [noopEntry 1 1] && (c.disks 2).entries == [noopEntry 1 1])
    (by decide +kernel)
  simp only [Bool.and_eq_true, beq_iff_eq] at hp
  have hlog := (inLeaderRole_of_leadsWith hp.1).2
  exact ⟨c, hrun, hlog, log_matching three c hrun _ _ hlog (.disk 2) (noopEntry 1 1)
    (noopEntry 1 1) (by decide) (by rw [hp.2]; decide) rfl rfl 1 le_rfl⟩

/-- Without the bound on terms two logs hold different entries of one index and term. -/
theorem log_matching_wraps :
    ∃ c, Cluster.Run three Cluster.init c ∧ ∃ l l', c.HasLog l ∧ c.HasLog l' ∧
      ∃ e ∈ l, ∃ e' ∈ l', e.index = e'.index ∧ e.term = e'.term ∧
        entryAt l e.index ≠ entryAt l' e.index := by
  obtain ⟨c, hrun, h, h'⟩ := two_leaders
  exact ⟨c, hrun, _, _, (inLeaderRole_of_leadsWith h).2, (inLeaderRole_of_leadsWith h').2,
    ⟨2, 1, .normal, [7]⟩, by decide, ⟨2, 1, .normal, [8]⟩, by decide, rfl, rfl, by decide⟩

end LogMatching

section LeaderCompleteness

variable {g : Group} {c c' : Cluster} {s : Global} {n : NodeID}

def Host.BatchSaved (h : Host) : Prop :=
  match h.phase with
  | .idle => True
  | .draining _ _ => True
  | _ => False

def Cluster.CommittedBy (c : Cluster) (n : NodeID) (term index : Nat) (e : Entry) : Prop :=
  ∃ h, c.hosts n = some h ∧ h.BatchSaved ∧ h.node.role = .leader ∧
    h.node.hardState.term = term ∧ index ≤ h.node.commitIndex ∧
    entryAt h.node.log.entries index = some e

theorem HostInv.saved {disk : MemStorage} {host : Host} (h : HostInv g s disk n host)
    (hs : host.BatchSaved) : NodeInv g s n host.node := by
  obtain ⟨node, phase, hint⟩ := host
  cases phase with
  | idle =>
    have hset : Settled g s disk n node := h
    exact hset.inv
  | stepped => cases hs
  | saving r => cases hs
  | draining messages committed =>
    obtain ⟨base, hsaved, heq, _⟩ := h
    cases heq
    exact hsaved.inv.captureReady _

theorem count_of_quorum {Q : Finset NodeID} (hQ : IsQuorum g.members Q) {f : NodeID → Bool}
    (hf : ∀ p ∈ Q, f p = true) : g.peers.length < 2 * (g.peers.filter f).length := by
  have hcard := hQ.majority
  rw [Group.members, List.toFinset_card_of_nodup g.nodup] at hcard
  have hle : Q.card ≤ (g.peers.filter f).toFinset.card := by
    apply Finset.card_le_card
    intro p hp
    rw [List.mem_toFinset, List.mem_filter]
    exact ⟨List.mem_toFinset.mp (hQ.subset hp), hf p hp⟩
  rw [List.toFinset_card_of_nodup (g.nodup.filter f)] at hle
  omega

/-- Leader completeness: an entry a saved leader has committed is in the log of every later
leader and on the disks of a majority from then on. -/
theorem leader_completeness (g : Group) (c c' : Cluster) (n : NodeID) (term index : Nat)
    (e : Entry) (hrun : Cluster.RunBelow g Cluster.init c)
    (hcommit : c.CommittedBy n term index e) (hrun' : Cluster.RunBelow g c c') :
    (∀ n' h', c'.hosts n' = some h' → h'.node.role = .leader → term < h'.node.hardState.term →
      entryAt h'.node.log.entries index = some e) ∧
    g.peers.length <
      2 * (g.peers.filter fun p => entryAt (c'.disks p).entries index = some e).length := by
  obtain ⟨s, h, hbelow⟩ := ClusterInv.reachable hrun
  obtain ⟨s', hgrows, h', _⟩ := h.run hbelow hrun'
  obtain ⟨host, hhost, hsaved, hrole, rfl, hindex, hentry⟩ := hcommit
  have hinv := (h.hosts n host hhost).saved hsaved
  have hnum := hinv.contiguous.numbered
  have hagree : Agrees g s' host.node.hardState.term host.node.log.entries host.node.commitIndex :=
    hinv.commit.mono hgrows le_rfl
  -- Any log that starts with the committed prefix holds the entry.
  have hcarry : ∀ l, NumberedFrom 1 l → host.node.log.entries.take host.node.commitIndex <+: l →
      entryAt l index = some e := by
    intro l hl hp
    rw [← hentry]
    refine entryAt_take hl hnum (k := host.node.commitIndex) ?_ hindex
    rw [take_prefix_mono hp (by simp [hagree.1]), List.take_take, min_self]
  have hpos : 0 < host.node.commitIndex := by
    rcases Nat.eq_zero_or_pos index with rfl | hpos
    · rw [entryAt_zero hnum] at hentry
      cases hentry
    · omega
  refine ⟨?_, ?_⟩
  · intro n' host' hhost' hrole' hlt
    obtain ⟨s'', hacts, hi, hinv', _⟩ := (h'.hosts n' host' hhost').complete h'.global
    have hlead := hinv'.leader hrole'
    apply hcarry _ hinv'.contiguous.numbered
    rw [← hlead.leaderLog]
    exact hi.agrees_leaderLog (hagree.mono hacts.toGrows le_rfl) hlt.le (by simp [hlead.leads])
  · obtain ⟨Q, hQ, hq⟩ := Agreed.quorum_log h'.global.toInv hagree hpos
    apply count_of_quorum hQ
    intro p hp
    rw [decide_eq_true_eq]
    apply hcarry _ ((h'.disks p).numbered h'.global)
    rw [← (h'.disks p).log]
    exact hq p hp

def committedCheck (c : Cluster) (n : NodeID) (term index : Nat) (e : Entry) : Bool :=
  (c.hosts n).any fun h => h.phase == .idle && h.node.role == .leader &&
    h.node.hardState.term == term && decide (index ≤ h.node.commitIndex) &&
      entryAt h.node.log.entries index == some e

theorem committedBy_of_check {term index : Nat} {e : Entry}
    (h : committedCheck c n term index e = true) : c.CommittedBy n term index e := by
  rw [committedCheck, Option.any_eq_true] at h
  obtain ⟨host, hhost, hp⟩ := h
  simp only [Bool.and_eq_true, beq_iff_eq, decide_eq_true_eq] at hp
  obtain ⟨⟨⟨⟨hphase, hrole⟩, hterm⟩, hindex⟩, hentry⟩ := hp
  exact ⟨host, hhost, by rw [Host.BatchSaved, hphase]; trivial, hrole, hterm, hindex, hentry⟩

theorem leader_completeness_replicated :
    ∃ c, Cluster.RunBelow three Cluster.init c ∧ c.CommittedBy 1 1 1 (noopEntry 1 1) ∧
      three.peers.length < 2 * (three.peers.filter fun p =>
        entryAt (c.disks p).entries 1 = some (noopEntry 1 1)).length := by
  obtain ⟨c, hrun, hp⟩ := execBelow_any three replicated
    (fun c => committedCheck c 1 1 1 (noopEntry 1 1)) (by decide +kernel)
  have hcommit := committedBy_of_check hp
  exact ⟨c, hrun, hcommit, (leader_completeness three c c 1 1 1 _ hrun hcommit .refl).2⟩

/-- Without the bound on terms a committed entry is lost from a majority of the disks. -/
theorem leader_completeness_wraps :
    ∃ c c' n term index e, Cluster.Run three Cluster.init c ∧ c.CommittedBy n term index e ∧
      Cluster.Run three c c' ∧
      ¬ three.peers.length < 2 * (three.peers.filter fun p =>
        entryAt (c'.disks p).entries index = some e).length := by
  obtain ⟨c, hrun, h1, h2, h3⟩ := commit_overwritten
  refine ⟨afterCommit, c, 1, 2, 1, noopEntry 1 2, Cluster.exec_run (Option.some_get _).symm,
    committedBy_of_check (by decide +kernel), hrun, ?_⟩
  have hfilter : (three.peers.filter fun p =>
      entryAt (c.disks p).entries 1 = some (noopEntry 1 2)) = [1] := by
    simp only [three, List.filter_cons, h1, h2, h3, List.filter_nil]
    decide
  rw [hfilter]
  decide

/-- Leader append-only: whoever leads a term later still has the log that a saved leader of the
term had, and only more after it. -/
theorem leader_append_only (g : Group) (c c' : Cluster) (n n' : NodeID) (host host' : Host)
    (hrun : Cluster.RunBelow g Cluster.init c) (hrun' : Cluster.RunBelow g c c')
    (hhost : c.hosts n = some host) (hsaved : host.BatchSaved) (hrole : host.node.role = .leader)
    (hhost' : c'.hosts n' = some host') (hrole' : host'.node.role = .leader)
    (hterm : host'.node.hardState.term = host.node.hardState.term) :
    host.node.log.entries <+: host'.node.log.entries := by
  obtain ⟨s, h, hbelow⟩ := ClusterInv.reachable hrun
  obtain ⟨s', hgrows, h', -⟩ := h.run hbelow hrun'
  have hlead := ((h.hosts n host hhost).saved hsaved).leader hrole
  obtain ⟨s'', hacts, -, hinv', -⟩ := (h'.hosts n' host' hhost').complete h'.global
  rw [← hlead.leaderLog, ← (hinv'.leader hrole').leaderLog, hterm]
  exact (hgrows.leaderLog _).trans (hacts.toGrows.leaderLog _)

theorem leader_append_only_replicated :
    ∃ c host, Cluster.RunBelow three Cluster.init c ∧ c.hosts 1 = some host ∧
      ∀ c' n' host', Cluster.RunBelow three c c' → c'.hosts n' = some host' →
        host'.node.role = .leader → host'.node.hardState.term = host.node.hardState.term →
        host.node.log.entries <+: host'.node.log.entries := by
  obtain ⟨c, hrun, hp⟩ := execBelow_any three replicated
    (fun c => committedCheck c 1 1 1 (noopEntry 1 1)) (by decide +kernel)
  obtain ⟨host, hhost, hsaved, hrole, -⟩ := committedBy_of_check hp
  exact ⟨c, host, hrun, hhost, fun c' n' host' hrun' =>
    leader_append_only three c c' 1 n' host host' hrun hrun' hhost hsaved hrole⟩

end LeaderCompleteness

end MiniQuorum.Server
