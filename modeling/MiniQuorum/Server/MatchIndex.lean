import MiniQuorum.Server.Progress

/-! A leader's match indexes are what its followers acknowledged and still hold. -/

namespace MiniQuorum.Server

open Raft Storage Consensus Consensus.Replog

variable {g : Group} {c c₁ c' : Cluster} {s s' : Global} {n p : NodeID}

theorem Cluster.act_network {a : Action} (hact : c.act g a = some c') :
    c'.network = c.network ∨ ∃ n m, a = .send n ∧ c'.network = m :: c.network := by
  cases Cluster.acted hact with
  | @send n _ m => exact .inr ⟨n, m, rfl, rfl⟩
  | _ => exact .inl rfl

theorem Cluster.act_network_subset {a : Action} (hact : c.act g a = some c') {m : Message}
    (hm : m ∈ c.network) : m ∈ c'.network := by
  rcases Cluster.act_network hact with heq | ⟨_, _, _, heq⟩
  · rwa [heq]
  · rw [heq]
    exact List.mem_cons_of_mem _ hm

theorem sent_at (hrun : Cluster.RunBelow g Cluster.init c) {m : Message} (hm : m ∈ c.network) :
    ∃ c₀, Cluster.RunBelow g Cluster.init c₀ ∧ Cluster.RunBelow g c₀ c ∧ m ∈ c₀.network ∧
      (c₀.disks m.fromID).hard.term = m.term := by
  induction hrun with
  | refl => cases hm
  | @tail c₁ c₂ hrun₁ hstep ih =>
    obtain ⟨⟨a, hact⟩, hbelow⟩ := hstep
    have hlast : Cluster.RunBelow g c₁ c₂ := .single ⟨⟨a, hact⟩, hbelow⟩
    by_cases hold : m ∈ c₁.network
    · obtain ⟨c₀, hc₀, hrest, hmem, hterm⟩ := ih hold
      exact ⟨c₀, hc₀, hrest.trans hlast, hmem, hterm⟩
    · rcases Cluster.act_network hact with heq | ⟨n, m', rfl, heq⟩
      · rw [heq] at hm
        exact absurd hm hold
      · obtain ⟨s, h, _⟩ := ClusterInv.reachable hrun₁
        obtain ⟨node, m'', messages, committed, hint, hhost, hc₂⟩ := Cluster.act_send hact
        obtain rfl : m = m'' := by
          rw [hc₂] at hm
          exact (List.mem_cons.mp hm).resolve_right hold
        obtain ⟨hfrom, hterm, _⟩ := h.sending hhost
        refine ⟨c₂, hrun₁.trans hlast, .refl, hm, ?_⟩
        rw [hc₂, hfrom, hterm]
        rfl

def Acknowledged (c : Cluster) (term : Nat) (p : NodeID) (k : Nat) : Prop :=
  ∃ m ∈ c.network, m.fromID = p ∧ m.term = term ∧
    ∃ resp, m.body = .appendEntriesResp resp ∧ resp.success = true ∧ resp.matchIndex = k

structure LeaderView (c : Cluster) (n : NodeID) (a : Node) : Prop where
  tracked : Tracked a
  acknowledged : ∀ p, p ≠ n → 0 < a.matchIndexOf p →
    Acknowledged c a.hardState.term p (a.matchIndexOf p)

theorem LeaderView.act {act : Action} (hact : c.act g act = some c') {a : Node}
    (h : LeaderView c n a) : LeaderView c' n a where
  tracked := h.tracked
  acknowledged q hq hpos := by
    obtain ⟨m, hm, hrest⟩ := h.acknowledged q hq hpos
    exact ⟨m, Cluster.act_network_subset hact hm, hrest⟩

theorem HostInv.contiguous {disk : MemStorage} {host : Host} (h : HostInv g s disk n host)
    (hi : LogInv g s) : host.node.log.Contiguous ∧ host.node.config.id = n := by
  obtain ⟨s', _, _, hinv, _⟩ := h.complete hi
  exact ⟨hinv.contiguous, hinv.id⟩

theorem LeaderView.input (hinv : ClusterInv g c s) {node : Node} {hint : NodeID}
    (hhost : c.hosts n = some ⟨node, .idle, hint⟩)
    (ih : node.role = .leader → LeaderView c n node) {input : Input}
    (hin : input.Delivered c n) (hb : (input.run node).role = .leader) :
    LeaderView c n (input.run node) := by
  obtain ⟨hlog, hid⟩ := (hinv.hosts n _ hhost).contiguous hinv.global
  rcases Input.leadsOn hlog hb with ⟨hrole, hterm, htracks⟩ | ⟨_, htracked, hzero⟩
  · have hview := ih hrole
    have ht := htracks hview.tracked
    refine ⟨ht.tracked, fun q hq hpos => ?_⟩
    rw [hterm]
    rcases ht.credited q (hid ▸ hq) with heq | hcredit
    · rw [heq] at hpos ⊢
      exact hview.acknowledged q hq hpos
    · cases input with
      | step m rnd =>
        obtain ⟨hfrom, hmterm, resp, hbody, hsuccess, hindex⟩ := hcredit
        rw [messageTerm_eq (hinv.network m hin.1)] at hmterm
        exact ⟨m, hin.1, hfrom.symm, hmterm, resp, hbody, hsuccess, hindex.symm⟩
      | tick rnd => exact hcredit.elim
      | propose data => exact hcredit.elim
  · refine ⟨htracked, fun q hq hpos => ?_⟩
    rw [hzero q (hid ▸ hq)] at hpos
    exact absurd hpos (lt_irrefl 0)

theorem LeaderView.hostStep (hinv : ClusterInv g c s) {h h' : Host} (hhost : c.hosts n = some h)
    (hs : HostStep c n h h') (ih : h.node.role = .leader → LeaderView c n h.node)
    (hb : h'.node.role = .leader) : LeaderView c n h'.node := by
  cases hs with
  | input input hin => exact LeaderView.input hinv hhost ih hin hb
  | ready =>
    have hview := ih hb
    exact ⟨{ hview.tracked with }, hview.acknowledged⟩
  | @advance node =>
    obtain ⟨_, _, _, _, _, heq⟩ := advance_eq node
    simp only [heq] at hb ⊢
    have hview := ih hb
    exact ⟨{ hview.tracked with }, hview.acknowledged⟩
  | save => exact ih hb
  | send => exact ih hb
  | apply => exact ih hb

theorem leader_view (hrun : Cluster.RunBelow g Cluster.init c) {h : Host}
    (hh : c.hosts n = some h) (hrole : h.node.role = .leader) : LeaderView c n h.node := by
  induction hrun generalizing h with
  | refl => cases hh
  | @tail c₁ c₂ hrun₁ hstep ih =>
    obtain ⟨⟨a, hact⟩, _⟩ := hstep
    obtain ⟨s, hinv, _⟩ := ClusterInv.reachable hrun₁
    refine LeaderView.act hact ?_
    cases Cluster.act_member hact n with
    | same hsame _ => exact ih (hsame ▸ hh) hrole
    | step hb ha hs _ =>
      cases ha.symm.trans hh
      exact LeaderView.hostStep hinv hb hs (ih hb) hrole
    | crash ha _ => cases ha.symm.trans hh
    | recover _ ha hnode _ =>
      cases ha.symm.trans hh
      obtain ⟨entries, rfl⟩ := newRecoveredNode_cases hnode
      cases hrole

section Roles

def rank : Role → Nat
  | .candidate => 0
  | .leader => 1
  | .follower => 2

def MovesOn (a b : Node) : Prop :=
  a.hardState.term < b.hardState.term ∨
    a.hardState.term = b.hardState.term ∧ rank a.role ≤ rank b.role

variable {a b d : Node}

theorem MovesOn.refl (a : Node) : MovesOn a a := .inr ⟨rfl, le_rfl⟩

theorem MovesOn.trans (h : MovesOn a b) (h' : MovesOn b d) : MovesOn a d := by
  rcases h with hlt | ⟨heq, hrank⟩
  · exact .inl (hlt.trans_le (h'.elim le_of_lt fun h => h.1.le))
  · rcases h' with hlt' | ⟨heq', hrank'⟩
    · exact .inl (heq ▸ hlt')
    · exact .inr ⟨heq.trans heq', hrank.trans hrank'⟩

theorem rank_le_follower (role : Role) : rank role ≤ rank .follower := by
  cases role <;> decide

theorem Move.movesOn {j i : Nat} (h : Move j i a b) : MovesOn a b := by
  cases h with
  | volatile h =>
    refine .inr ⟨by rw [h.hardState], ?_⟩
    rw [h.role]
  | newTerm h => exact .inl h
  | stepDown => exact .inr ⟨rfl, rank_le_follower _⟩
  | lead h =>
    refine .inr ⟨rfl, ?_⟩
    rw [h]
    exact Nat.zero_le _
  | store hrole hmatch hnum hj =>
    refine .inr ⟨by rw [storeAppend_hardState], ?_⟩
    rw [storeAppend_role]
  | _ => exact .inr ⟨rfl, le_rfl⟩

theorem Moves.movesOn {j i : Nat} (h : Moves j i a b) : MovesOn a b := by
  induction h with
  | refl => exact .refl a
  | tail _ hmove ih => exact ih.trans hmove.movesOn

theorem Input.movesOn (input : Input) (hbelow : a.hardState.term < maxUint64) :
    MovesOn a (input.run a) := by
  cases input with
  | tick rnd =>
    rcases Moves.tick (j := 0) (i := 0) rnd a with hmoves | ⟨_, hmoves⟩
    · exact hmoves.movesOn
    · refine MovesOn.trans (.inl ?_) hmoves.movesOn
      rw [maxUint64] at hbelow
      show _ < (a.hardState.term + 1) % 2 ^ 64
      rw [Nat.mod_eq_of_lt (by omega)]
      exact Nat.lt_succ_self _
  | step m rnd =>
    exact (Moves.step (i := 0) rnd a (Moves.replacesUpTo_zero a m) (.inl rfl)).movesOn
  | propose data => exact (Moves.propose (j := 0) (i := 0) a data).movesOn

def KeepsMatch (n : NodeID) (h h' : Host) : Prop :=
  MovesOn h.node h'.node ∧
    (h.node.hardState.term = h'.node.hardState.term → h.node.role = .leader →
      h'.node.role = .leader → ∀ p, p ≠ n → h.node.matchIndexOf p ≤ h'.node.matchIndexOf p)

theorem KeepsMatch.refl (n : NodeID) (h : Host) : KeepsMatch n h h :=
  ⟨.refl _, fun _ _ _ _ _ => le_rfl⟩

theorem KeepsMatch.trans {h₁ h₂ h₃ : Host} (h : KeepsMatch n h₁ h₂) (h' : KeepsMatch n h₂ h₃) :
    KeepsMatch n h₁ h₃ := by
  refine ⟨h.1.trans h'.1, fun hterm hl hl' p hp => ?_⟩
  have hle : h₁.node.hardState.term ≤ h₂.node.hardState.term :=
    h.1.elim le_of_lt fun h => h.1.le
  have hle' : h₂.node.hardState.term ≤ h₃.node.hardState.term :=
    h'.1.elim le_of_lt fun h => h.1.le
  have hterm₁ : h₁.node.hardState.term = h₂.node.hardState.term := by omega
  have hterm₂ : h₂.node.hardState.term = h₃.node.hardState.term := by omega
  -- In between the node is neither candidate again nor already follower.
  have hmid : h₂.node.role = .leader := by
    have hlow := (h.1.resolve_left (by omega)).2
    have hhigh := (h'.1.resolve_left (by omega)).2
    rw [hl] at hlow
    rw [hl'] at hhigh
    revert hlow hhigh
    cases h₂.node.role <;> decide
  exact (h.2 hterm₁ hl hmid p hp).trans (h'.2 hterm₂ hmid hl' p hp)

theorem HostStep.movesOn {h h' : Host} (hs : HostStep c n h h')
    (hbelow : h.node.hardState.term < maxUint64) : MovesOn h.node h'.node := by
  cases hs with
  | input input hin => exact input.movesOn hbelow
  | @advance node =>
    obtain ⟨_, _, _, _, _, heq⟩ := advance_eq node
    rw [heq]
    exact .inr ⟨rfl, le_rfl⟩
  | _ => exact .inr ⟨rfl, le_rfl⟩

theorem HostStep.keepsMatch (hrun : Cluster.RunBelow g Cluster.init c) {h h' : Host}
    (hhost : c.hosts n = some h) (hs : HostStep c n h h') : KeepsMatch n h h' := by
  obtain ⟨s, hinv, hbelow⟩ := ClusterInv.reachable hrun
  refine ⟨hs.movesOn (hbelow n _ hhost), fun _ hl hl' p hp => ?_⟩
  cases hs with
  | input input hin =>
    obtain ⟨hlog, hid⟩ := (hinv.hosts n _ hhost).contiguous hinv.global
    rcases Input.leadsOn hlog hl' with ⟨_, _, htracks⟩ | ⟨hne, _⟩
    · exact (htracks (leader_view hrun hhost hl).tracked).grows p (hid ▸ hp)
    · exact absurd hl hne
  | @advance node =>
    obtain ⟨_, _, _, _, _, heq⟩ := advance_eq node
    rw [heq]
    exact le_rfl
  | _ => exact Nat.le_refl _

theorem restarted_follows (hinv : ClusterInv g c s) (hbelow : c.TermsBelow) {term : Nat}
    (hterm : term ≤ s.term n) (hrun : Cluster.RunBelow g c c') {h' : Host}
    (hh' : c'.hosts n = some h') (hinc : c'.incarnation n ≠ c.incarnation n) :
    term < h'.node.hardState.term ∨
      term = h'.node.hardState.term ∧ h'.node.role = .follower := by
  induction hrun generalizing h' with
  | refl => exact absurd rfl hinc
  | @tail c₁ c₂ hrun₁ hstep ih =>
    obtain ⟨⟨a, hact⟩, _⟩ := hstep
    obtain ⟨s₁, hgrows, hinv₁, hbelow₁⟩ := hinv.run hbelow hrun₁
    cases Cluster.act_member hact n with
    | same hsame hi => exact ih (hsame ▸ hh') (hi ▸ hinc)
    | step hb ha hs hi =>
      cases ha.symm.trans hh'
      have hmoves := hs.movesOn (hbelow₁ n _ hb)
      rcases ih hb (hi ▸ hinc) with hlt | ⟨heq, hrole⟩
      · exact .inl (hlt.trans_le (hmoves.elim le_of_lt fun h => h.1.le))
      · rcases hmoves with hlt | ⟨heq', hrank⟩
        · exact .inl (heq ▸ hlt)
        · refine .inr ⟨heq.trans heq', ?_⟩
          rw [hrole] at hrank
          revert hrank
          cases h'.node.role <;> decide
    | crash ha _ => cases ha.symm.trans hh'
    | recover _ ha hnode _ =>
      cases ha.symm.trans hh'
      obtain ⟨entries, rfl⟩ := newRecoveredNode_cases hnode
      have hle : term ≤ (c₁.disks n).hard.term := by
        rw [← (hinv₁.disks n).term]
        exact hterm.trans (hgrows.term n)
      exact hle.lt_or_eq.imp_right fun heq => ⟨heq, rfl⟩

end Roles

theorem match_index_monotone (hrun : Cluster.RunBelow g Cluster.init c) {h h' : Host}
    (hh : c.hosts n = some h) (hrole : h.node.role = .leader) (hp : p ∈ g.peers) (hpn : p ≠ n)
    (hrun' : Cluster.RunBelow g c c') (hh' : c'.hosts n = some h') (hrole' : h'.node.role = .leader)
    (hterm : h'.node.hardState.term = h.node.hardState.term) :
    h.node.matchIndexOf p ≤ h'.node.matchIndexOf p := by
  obtain ⟨s, hinv, hbelow⟩ := ClusterInv.reachable hrun
  by_cases hinc : c'.incarnation n = c.incarnation n
  · have hkeep := hinv.within_incarnation (R := KeepsMatch n) (KeepsMatch.refl n) KeepsMatch.trans
      (fun hrun₁ _ _ hhost hs => hs.keepsMatch (hrun.trans hrun₁) hhost) hbelow hrun' hh hh' hinc
    exact hkeep.2 hterm.symm hrole hrole' p hpn
  · -- With another member around the leader's own vote is on disk, so it survives the crash.
    obtain ⟨_, _, _, hnode, hself⟩ := (hinv.hosts n h hh).complete hinv.global
    have hballot : s.ballot n h.node.hardState.term = some n := by
      refine (hself hrole).resolve_right fun hsize => hpn ?_
      rw [← List.toFinset_card_of_nodup g.nodup, Finset.card_le_one] at hsize
      exact hsize p (List.mem_toFinset.mpr hp) n (List.mem_toFinset.mpr hnode.member)
    rcases restarted_follows hinv hbelow (hinv.global.ballot_term hballot) hrun' hh' hinc with
      hlt | ⟨_, hfollower⟩
    · exact absurd hterm hlt.ne'
    · rw [hfollower] at hrole'
      cases hrole'

theorem match_index_held (hrun : Cluster.RunBelow g Cluster.init c) {h : Host}
    (hh : c.hosts n = some h) (hrole : h.node.role = .leader) (hpn : p ≠ n)
    (hpos : 0 < h.node.matchIndexOf p) :
    (∃ c₀, Cluster.RunBelow g Cluster.init c₀ ∧ Cluster.RunBelow g c₀ c ∧
      (c₀.disks p).hard.term = h.node.hardState.term ∧
      h.node.matchIndexOf p ≤ (c₀.disks p).entries.length ∧
      (c₀.disks p).entries.take (h.node.matchIndexOf p) =
        h.node.log.entries.take (h.node.matchIndexOf p)) ∧
    ((c.disks p).hard.term = h.node.hardState.term →
      h.node.matchIndexOf p ≤ (c.disks p).entries.length ∧
      (c.disks p).entries.take (h.node.matchIndexOf p) =
        h.node.log.entries.take (h.node.matchIndexOf p)) := by
  obtain ⟨m, hm, hfrom, hmterm, resp, hbody, hsuccess, hindex⟩ :=
    (leader_view hrun hh hrole).acknowledged p hpn hpos
  obtain ⟨c₀, hrun₀, hrest, hm₀, hterm₀⟩ := sent_at hrun hm
  rw [hfrom, hmterm] at hterm₀
  obtain ⟨s₀, hinv₀, hbelow₀⟩ := ClusterInv.reachable hrun₀
  obtain ⟨s, hgrows, hinv, _⟩ := hinv₀.run hbelow₀ hrest
  obtain ⟨s', hacts, _, hnode, _⟩ := (hinv.hosts n h hh).complete hinv.global
  have hlog := (hnode.leader hrole).leaderLog
  -- The message bounds what its sender acknowledged, at both moments.
  have hacked : ∀ {t : Global}, MsgInv g t m →
      h.node.matchIndexOf p ≤ t.acked p h.node.hardState.term := by
    intro t ht
    have hb := ht.body
    rw [hbody] at hb
    have := hb.2 hsuccess
    rwa [hfrom, hmterm, hindex] at this
  have hacked₀ := hacked (hinv₀.network m hm₀)
  have hacked₁ := hacked (hinv.network m hm)
  have hlen₀ := hacked₀.trans (hinv₀.global.acked_length p _)
  have hlen₁ := hacked₁.trans (hinv.global.acked_length p _)
  refine ⟨⟨c₀, hrun₀, hrest, hterm₀, ?_⟩, fun hterm => ?_⟩
  · rw [← hterm₀] at hacked₀
    obtain ⟨hle, htake⟩ := hinv₀.acked_entries hacked₀
    refine ⟨hle, ?_⟩
    rw [htake, hterm₀, ← hlog,
      take_prefix_mono ((hgrows.leaderLog _).trans (hacts.toGrows.leaderLog _)) hlen₀]
  · rw [← hterm] at hacked₁
    obtain ⟨hle, htake⟩ := hinv.acked_entries hacked₁
    refine ⟨hle, ?_⟩
    rw [htake, hterm, ← hlog, take_prefix_mono (hacts.toGrows.leaderLog _) hlen₁]

/-- A leader's tracking of its followers is truthful: its indexes stay within its log, each
request in flight is a window of that log, and a match index was acknowledged by the follower,
is held by its disk for the rest of the term, and never decreases. -/
theorem leader_progress_truthful (g : Group) (c : Cluster) (n p : NodeID) (h : Host)
    (hrun : Cluster.RunBelow g Cluster.init c) (hh : c.hosts n = some h)
    (hrole : h.node.role = .leader) (hp : p ∈ g.peers) (hpn : p ≠ n) :
    (h.node.matchIndexOf p < h.node.nextIndexOf p ∧
      h.node.nextIndexOf p ≤ h.node.log.lastIndex + 1 ∧
      h.node.matchIndexOf p ≤ h.node.log.lastIndex) ∧
    (∀ w, h.node.inflightOf p = some w → w.prevIndex ≤ w.lastIndex ∧
      w.lastIndex ≤ h.node.log.lastIndex ∧ h.node.log.term w.prevIndex = some w.prevTerm) ∧
    (∃ c₀, Cluster.RunBelow g Cluster.init c₀ ∧ Cluster.RunBelow g c₀ c ∧
      (0 < h.node.matchIndexOf p → (c₀.disks p).hard.term = h.node.hardState.term) ∧
      h.node.matchIndexOf p ≤ (c₀.disks p).entries.length ∧
      (c₀.disks p).entries.take (h.node.matchIndexOf p) =
        h.node.log.entries.take (h.node.matchIndexOf p)) ∧
    ((c.disks p).hard.term = h.node.hardState.term →
      h.node.matchIndexOf p ≤ (c.disks p).entries.length ∧
      (c.disks p).entries.take (h.node.matchIndexOf p) =
        h.node.log.entries.take (h.node.matchIndexOf p)) ∧
    (∀ c' h', Cluster.RunBelow g c c' → c'.hosts n = some h' → h'.node.role = .leader →
      h'.node.hardState.term = h.node.hardState.term →
      h.node.matchIndexOf p ≤ h'.node.matchIndexOf p) := by
  obtain ⟨s, hinv, _⟩ := ClusterInv.reachable hrun
  obtain ⟨s', _, _, hnode, _⟩ := (hinv.hosts n h hh).complete hinv.global
  have hlast := hnode.contiguous.lastIndex
  have htracked := (leader_view hrun hh hrole).tracked
  have hbounds := htracked.bounds p (hnode.peers ▸ mem_orderedPeers.mpr hp) (hnode.id ▸ hpn)
  refine ⟨?_, fun w hw => ?_, ?_, ?_, fun _ _ => match_index_monotone hrun hh hrole hp hpn⟩
  · rw [hlast]
    omega
  · have hpending := (hnode.leader hrole).pending p w hw
    rw [hlast, hnode.contiguous.term]
    exact ⟨hpending.prev_le, hpending.last_le, hpending.prev⟩
  · rcases Nat.eq_zero_or_pos (h.node.matchIndexOf p) with hzero | hpos
    · rw [hzero]
      exact ⟨c, hrun, .refl, fun h => absurd h (lt_irrefl 0), Nat.zero_le _, rfl⟩
    · obtain ⟨⟨c₀, hrun₀, hrest, hterm, hheld⟩, _⟩ := match_index_held hrun hh hrole hpn hpos
      exact ⟨c₀, hrun₀, hrest, fun _ => hterm, hheld⟩
  · rcases Nat.eq_zero_or_pos (h.node.matchIndexOf p) with hzero | hpos
    · rw [hzero]
      exact fun _ => ⟨Nat.zero_le _, rfl⟩
    · exact (match_index_held hrun hh hrole hpn hpos).2

theorem leader_progress_truthful_replicated :
    ∃ c h, Cluster.RunBelow three Cluster.init c ∧ c.hosts 1 = some h ∧
      h.node.role = .leader ∧ h.node.matchIndexOf 2 = 1 ∧
      h.node.nextIndexOf 2 ≤ h.node.log.lastIndex + 1 ∧
      (c.disks 2).entries.take 1 = h.node.log.entries.take 1 := by
  obtain ⟨c, hrun, hp⟩ := execBelow_any three replicated
    (fun c => (c.disks 2).hard.term == 1 && (c.hosts 1).any fun h =>
      h.node.role == .leader && h.node.hardState.term == 1 && h.node.matchIndexOf 2 == 1)
    (by decide +kernel)
  obtain ⟨hdisk, hp⟩ := Bool.and_eq_true_iff.mp hp
  obtain ⟨h, hh, hp⟩ := Option.any_eq_true .. |>.mp hp
  simp only [Bool.and_eq_true, beq_iff_eq] at hp hdisk
  obtain ⟨⟨hrole, hterm⟩, hmatch⟩ := hp
  obtain ⟨hbounds, _, _, hheld, _⟩ := leader_progress_truthful three c 1 2 h hrun hh hrole
    (by decide) (by decide)
  rw [hmatch] at hheld
  exact ⟨c, h, hrun, hh, hrole, hmatch, hbounds.2.1, (hheld (hdisk.trans hterm.symm)).2⟩

def forgotten : List Action := overwritten ++ [.tick 2 none] ++ drive 2 2 0

/-- Without the bound on terms a follower loses what its leader counts on, within the term. -/
theorem leader_progress_truthful_wraps :
    ∃ c h, Cluster.Run three Cluster.init c ∧ c.hosts 1 = some h ∧ h.node.role = .leader ∧
      (c.disks 2).hard.term = h.node.hardState.term ∧
      (c.disks 2).entries.take (h.node.matchIndexOf 2) ≠
        h.node.log.entries.take (h.node.matchIndexOf 2) := by
  obtain ⟨c, hrun, hp⟩ := run_rewound forgotten
    (fun c => (c.hosts 1).any fun h => h.node.role == .leader &&
      (c.disks 2).hard.term == h.node.hardState.term &&
      (c.disks 2).entries.take (h.node.matchIndexOf 2) !=
        h.node.log.entries.take (h.node.matchIndexOf 2))
    (by decide +kernel)
  obtain ⟨h, hh, hp⟩ := Option.any_eq_true .. |>.mp hp
  simp only [Bool.and_eq_true, beq_iff_eq, bne_iff_ne] at hp
  exact ⟨c, h, hrun, hh, hp.1.1, hp.1.2, hp.2⟩

end MiniQuorum.Server
