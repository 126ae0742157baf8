import MiniQuorum.Raft.Effects
import MiniQuorum.Server.Invariant

/-! The steps a leader takes without touching its term, vote or log. -/

namespace MiniQuorum.Server

open Raft Storage Consensus Consensus.Replog

variable {g : Group} {s : Global} {n : NodeID} {a b c : Node} {peer : NodeID}

theorem mem_orderedPeers {l : List NodeID} {p : NodeID} : p ∈ orderedPeers l ↔ p ∈ l :=
  (List.perm_insertionSort _ l).mem_iff

theorem length_orderedPeers (l : List NodeID) : (orderedPeers l).length = l.length :=
  (List.perm_insertionSort _ l).length_eq

theorem countP_orderedPeers (l : List NodeID) (f : NodeID → Bool) :
    (orderedPeers l).countP f = l.countP f :=
  (List.perm_insertionSort _ l).countP_eq f

/-- `b` is `a` up to timers, replication progress, a higher commit index and messages. -/
structure Volatile (a b : Node) : Prop where
  config : b.config = a.config
  peers : b.peers = a.peers
  hardState : b.hardState = a.hardState
  role : b.role = a.role
  log : b.log = a.log
  unstableIndex : b.unstableIndex = a.unstableIndex
  hardStateDirty : b.hardStateDirty = a.hardStateDirty
  lastApplied : b.lastApplied = a.lastApplied
  readyAck : b.readyAck = a.readyAck
  commit : a.commitIndex ≤ b.commitIndex

namespace Volatile

theorem refl (a : Node) : Volatile a a := ⟨rfl, rfl, rfl, rfl, rfl, rfl, rfl, rfl, rfl, le_rfl⟩

theorem trans (h : Volatile a b) (h' : Volatile b c) : Volatile a c where
  config := h'.config.trans h.config
  peers := h'.peers.trans h.peers
  hardState := h'.hardState.trans h.hardState
  role := h'.role.trans h.role
  log := h'.log.trans h.log
  unstableIndex := h'.unstableIndex.trans h.unstableIndex
  hardStateDirty := h'.hardStateDirty.trans h.hardStateDirty
  lastApplied := h'.lastApplied.trans h.lastApplied
  readyAck := h'.readyAck.trans h.readyAck
  commit := h.commit.trans h'.commit

theorem setNextIndex (a : Node) (peer : NodeID) (index : Nat) :
    Volatile a (a.setNextIndex peer index) := by
  rw [Node.setNextIndex]
  split <;> exact ⟨rfl, rfl, rfl, rfl, rfl, rfl, rfl, rfl, rfl, le_rfl⟩

theorem setMatchIndex (a : Node) (peer : NodeID) (index : Nat) :
    Volatile a (a.setMatchIndex peer index) := by
  rw [Node.setMatchIndex]
  split <;> exact ⟨rfl, rfl, rfl, rfl, rfl, rfl, rfl, rfl, rfl, le_rfl⟩

theorem setInflight (a : Node) (peer : NodeID) (w : Option AppendInflight) :
    Volatile a (a.setInflight peer w) := by
  rw [Node.setInflight]
  split <;> exact ⟨rfl, rfl, rfl, rfl, rfl, rfl, rfl, rfl, rfl, le_rfl⟩

theorem emit (a : Node) (dest : NodeID) (body : Body) : Volatile a (a.emit dest body) :=
  ⟨rfl, rfl, rfl, rfl, rfl, rfl, rfl, rfl, rfl, le_rfl⟩

theorem sendAppend (a : Node) (peer : NodeID) (probe : Bool) :
    Volatile a (a.sendAppend peer probe) := by
  rw [Node.sendAppend]
  split
  · exact emit _ _ _
  · dsimp only
    split
    · exact setNextIndex _ _ _
    · exact ((setNextIndex _ _ _).trans (setInflight _ _ _)).trans (emit _ _ _)

theorem advanceCommit (a : Node) : Volatile a a.advanceCommit.1 := by
  rw [Node.advanceCommit]
  split
  · exact refl a
  · split
    · exact refl a
    · rename_i index hindex
      exact ⟨rfl, rfl, rfl, rfl, rfl, rfl, rfl, rfl, rfl, (commitCandidate_eq_some hindex).1.le⟩

theorem foldl {f : Node → NodeID → Node} (hf : ∀ a p, Volatile a (f a p)) (l : List NodeID)
    (a : Node) : Volatile a (l.foldl f a) := by
  induction l generalizing a with
  | nil => exact refl a
  | cons p l ih => exact (hf a p).trans (ih _)

theorem broadcastAppend (a : Node) (probe : Bool) : Volatile a (a.broadcastAppend probe) := by
  apply foldl
  intro a p
  split
  · exact refl a
  · exact sendAppend _ _ _

theorem broadcastAvailableAppend (a : Node) : Volatile a a.broadcastAvailableAppend := by
  apply foldl
  intro a p
  split
  · exact refl a
  · exact sendAppend _ _ _

theorem requestVotes (a : Node) : Volatile a a.requestVotes := by
  apply foldl
  intro a p
  split
  · exact refl a
  · exact emit _ _ _

theorem ite {p : Prop} [Decidable p] (h : Volatile a b) (h' : Volatile a c) :
    Volatile a (if p then b else c) := by
  split
  · exact h
  · exact h'

theorem acknowledge (a : Node) (peer : NodeID) (index : Nat) :
    Volatile a (a.acknowledge peer index) := by
  have hcommit := fun i => (((setInflight a peer none).trans
    (ite (p := index > (a.setInflight peer none).matchIndexOf peer)
      (setMatchIndex _ peer index) (refl _))).trans (setNextIndex _ peer i)).trans (advanceCommit _)
  exact ite ((hcommit _).trans (sendAppend _ _ _)) (hcommit _)

theorem backOff (a : Node) (peer : NodeID) : Volatile a (a.backOff peer) :=
  ((setInflight _ _ _).trans (ite (setNextIndex _ _ _) (refl _))).trans (sendAppend _ _ _)

theorem handleAppendEntriesResponse (a : Node) (m : Message) (resp : AppendEntriesResp) :
    Volatile a (a.handleAppendEntriesResponse m resp) := by
  rw [Node.handleAppendEntriesResponse]
  split
  · exact refl a
  · split
    · exact refl a
    · exact ite (ite (refl a) (acknowledge _ _ _)) (backOff _ _)

end Volatile

theorem storeAppend_hardState (a : Node) (entries : List (Option Entry)) :
    (a.storeAppend entries).hardState = a.hardState := by
  rw [Node.storeAppend]
  split <;> rfl

theorem storeAppend_hardStateDirty (a : Node) (entries : List (Option Entry)) :
    (a.storeAppend entries).hardStateDirty = a.hardStateDirty := by
  rw [Node.storeAppend]
  split <;> rfl

theorem storeAppend_commitIndex (a : Node) (entries : List (Option Entry)) :
    (a.storeAppend entries).commitIndex = a.commitIndex := by
  rw [Node.storeAppend]
  split <;> rfl

theorem storeAppend_role (a : Node) (entries : List (Option Entry)) :
    (a.storeAppend entries).role = a.role := by
  rw [Node.storeAppend]
  split <;> rfl

theorem storeAppend_entries (a : Node) (entries : List (Option Entry)) :
    (a.storeAppend entries).log.entries = (a.log.appendFromLeader entries).1.entries := by
  rw [Node.storeAppend]
  split <;> rfl

theorem NodeInv.emit (h : NodeInv g s n a) {dest : NodeID} {body : Body}
    (hbody : BodyInv g s ⟨n, dest, a.hardState.term, body⟩ body)
    (happ : (∃ req, body = .appendEntries req) → a.role = .leader) :
    NodeInv g s n (a.emit dest body) :=
  { h with
    leader := fun hr => { h.leader hr with }
    messages := by
      intro m hm
      rcases List.mem_append.mp hm with hm | hm
      · exact h.messages m hm
      · rw [List.mem_singleton] at hm
        subst hm
        have hid := h.id
        subst hid
        exact ⟨rfl, rfl, ⟨h.member, h.term.ge, hbody⟩, happ⟩ }

structure Leading (g : Group) (s : Global) (n : NodeID) (node : Node) : Prop where
  inv : NodeInv g s n node
  role : node.role = .leader

theorem Leading.lead (h : Leading g s n a) : LeaderInv g s n a := h.inv.leader h.role

theorem matchIndexOf_setMatchIndex (h : a.matchIndex.isSome) (peer : NodeID) (index : Nat)
    (p : NodeID) :
    (a.setMatchIndex peer index).matchIndexOf p = if p = peer then index else a.matchIndexOf p := by
  obtain ⟨f, hf⟩ := Option.isSome_iff_exists.mp h
  simp [Node.setMatchIndex, Node.matchIndexOf, hf, Function.update_apply]

theorem nextIndexOf_setNextIndex (h : a.nextIndex.isSome) (peer : NodeID) (index : Nat)
    (p : NodeID) :
    (a.setNextIndex peer index).nextIndexOf p = if p = peer then index else a.nextIndexOf p := by
  obtain ⟨f, hf⟩ := Option.isSome_iff_exists.mp h
  simp [Node.setNextIndex, Node.nextIndexOf, hf, Function.update_apply]

theorem inflightOf_setInflight (h : a.inflight.isSome) (peer : NodeID)
    (w : Option AppendInflight) (p : NodeID) :
    (a.setInflight peer w).inflightOf p = if p = peer then w else a.inflightOf p := by
  obtain ⟨f, hf⟩ := Option.isSome_iff_exists.mp h
  simp [Node.setInflight, Node.inflightOf, hf, Function.update_apply]

namespace Leading

theorem ite {p : Prop} [Decidable p] (h : Leading g s n a) (h' : Leading g s n b) :
    Leading g s n (if p then a else b) := by
  split
  · exact h
  · exact h'

theorem setNextIndex (h : Leading g s n a) (peer : NodeID) (index : Nat) :
    Leading g s n (a.setNextIndex peer index) := by
  obtain ⟨f, hf⟩ := Option.isSome_iff_exists.mp h.lead.next
  simp only [Node.setNextIndex, hf]
  exact ⟨{ h.inv with leader := fun _ => { h.lead with next := rfl } }, h.role⟩

theorem setMatchIndex (h : Leading g s n a) {peer : NodeID} {index : Nat}
    (hack : index ≤ s.acked peer a.hardState.term) :
    Leading g s n (a.setMatchIndex peer index) := by
  have hof := matchIndexOf_setMatchIndex h.lead.matched peer index
  obtain ⟨f, hf⟩ := Option.isSome_iff_exists.mp h.lead.matched
  simp only [Node.setMatchIndex, hf] at hof ⊢
  refine ⟨{ h.inv with leader := fun _ => { h.lead with matched := rfl, acked := ?_ } }, h.role⟩
  intro p
  rw [hof]
  split
  · rename_i hp
    rw [hp]
    exact hack
  · exact h.lead.acked p

theorem setInflight (h : Leading g s n a) {peer : NodeID} {w : Option AppendInflight}
    (hw : ∀ v, w = some v → PendingInv g s a.hardState.term a.log.entries v) :
    Leading g s n (a.setInflight peer w) := by
  have hof := inflightOf_setInflight h.lead.inflight peer w
  obtain ⟨f, hf⟩ := Option.isSome_iff_exists.mp h.lead.inflight
  simp only [Node.setInflight, hf] at hof ⊢
  refine ⟨{ h.inv with leader := fun _ => { h.lead with inflight := rfl, pending := ?_ } }, h.role⟩
  intro p v hv
  rw [hof] at hv
  split at hv
  · exact hw v hv
  · exact h.lead.pending p v hv

theorem emitAppend (h : Leading g s n a) {w : AppendInflight}
    (hw : PendingInv g s a.hardState.term a.log.entries w) :
    Leading g s n (a.emitAppend peer w) := by
  have hentries : (if w.hasEntries then
      a.log.rangeEntries (w.prevIndex + 1) (w.lastIndex + 1) else []) =
      (a.log.entries.drop w.prevIndex).take (w.lastIndex - w.prevIndex) := by
    split
    · rw [h.inv.contiguous.rangeEntries, Nat.add_sub_add_right]
    · rename_i hempty
      rw [hw.empty (Bool.eq_false_iff.mpr hempty), Nat.sub_self, List.take_zero]
  have hlen : ((a.log.entries.drop w.prevIndex).take (w.lastIndex - w.prevIndex)).length =
      w.lastIndex - w.prevIndex := by
    have := hw.last_le
    rw [List.length_take, List.length_drop]
    omega
  refine ⟨?_, h.role⟩
  rw [Node.emitAppend]
  refine h.inv.emit ⟨rfl, ?_⟩ (fun _ => h.role)
  rw [hentries]
  refine ⟨h.lead.leads, ?_, ⟨_, rfl, ?_⟩, ?_, ?_⟩
  · rw [h.lead.leaderLog]
    exact hw.prev
  · rw [h.lead.leaderLog, ← List.take_add, Nat.add_sub_cancel' hw.prev_le]
    exact List.take_prefix _ _
  · rw [h.lead.leaderLog]
    exact hw.commit
  · dsimp only
    have := hw.prev_le
    rw [List.length_map, hlen, Nat.add_sub_cancel' hw.prev_le]
    exact hw.commit_le

theorem clampNext_pos (h : Leading g s n a) (peer : NodeID) : 0 < a.clampNext peer := by
  rw [Node.clampNext, h.inv.contiguous.firstIndex]
  split <;> split <;> omega

theorem lt_clampNext (h : Leading g s n a) (hlt : a.commitIndex < a.nextIndexOf peer) :
    a.commitIndex < a.clampNext peer := by
  have := h.inv.commit.1
  rw [Node.clampNext, h.inv.contiguous.firstIndex, h.inv.contiguous.lastIndex]
  split <;> split <;> omega

theorem pendingInv (h : Leading g s n a) {next prevTerm : Nat} {hasEntries : Bool}
    (hpos : 0 < next) (hterm : termAt a.log.entries (next - 1) = some prevTerm)
    (hfull : hasEntries = true → next ≤ a.log.entries.length)
    (hempty : hasEntries = false → a.commitIndex < next) :
    PendingInv g s a.hardState.term a.log.entries {
      prevIndex := next - 1
      prevTerm
      lastIndex := if hasEntries then a.log.entries.length else next - 1
      leaderCommit := a.commitIndex
      hasEntries } where
  prev := hterm
  prev_le := by
    dsimp only
    split
    · have := hfull ‹_›
      omega
    · exact le_rfl
  last_le := by
    dsimp only
    split
    · exact le_rfl
    · exact termAt_le_length hterm
  empty he := if_neg (Bool.eq_false_iff.mp he)
  commit := h.inv.commit
  commit_le := by
    dsimp only
    split
    · exact h.inv.commit.1
    · have := hempty (Bool.eq_false_iff.mpr ‹_›)
      omega

theorem request (h : Leading g s n a) {w : AppendInflight} (next : Nat)
    (hw : PendingInv g s a.hardState.term a.log.entries w) :
    Leading g s n (((a.setNextIndex peer next).setInflight peer (some w)).emitAppend peer w) := by
  have hnext := Volatile.setNextIndex a peer next
  have hflight := hnext.trans (Volatile.setInflight _ peer (some w))
  apply emitAppend
  · apply setInflight (h.setNextIndex peer next)
    rintro v ⟨⟩
    rw [hnext.hardState, hnext.log]
    exact hw
  · rw [hflight.hardState, hflight.log]
    exact hw

theorem setNextIndex_commitIndex (a : Node) (peer : NodeID) (index : Nat) :
    (a.setNextIndex peer index).commitIndex = a.commitIndex := by
  rw [Node.setNextIndex]
  split <;> rfl

theorem sendAppend (h : Leading g s n a) {probe : Bool}
    (hprobe : probe = true → a.commitIndex < a.nextIndexOf peer) :
    Leading g s n (a.sendAppend peer probe) := by
  rw [Node.sendAppend]
  cases hw : a.inflightOf peer with
  | some w => exact h.emitAppend (h.lead.pending _ _ hw)
  | none =>
    simp only
    rw [(Volatile.setNextIndex a peer _).log, h.inv.contiguous.term, h.inv.contiguous.lastIndex,
      setNextIndex_commitIndex]
    cases hterm : termAt a.log.entries (a.clampNext peer - 1) with
    | none => exact h.setNextIndex peer _
    | some prevTerm =>
      refine h.request _ (h.pendingInv (h.clampNext_pos peer) hterm ?_ ?_)
      · intro hfull
        exact of_decide_eq_true (Bool.and_eq_true_iff.mp hfull).2
      · intro hempty
        rcases Bool.and_eq_false_iff.mp hempty with hp | hlast
        · exact h.lt_clampNext (hprobe (by simpa using hp))
        · exact Nat.lt_of_le_of_lt h.inv.commit.1 (Nat.lt_of_not_le (of_decide_eq_false hlast))

theorem agrees_of_eligible (h : Leading g s n a) {k : Nat}
    (helig : a.commitEligible (k + 1) = true) :
    Agrees g s a.hardState.term a.log.entries (k + 1) := by
  rw [Node.commitEligible, h.inv.contiguous.term, termAt_succ] at helig
  cases hk : a.log.entries[k]? with
  | none => simp [hk] at helig
  | some e =>
    simp only [hk, Option.map_some, commitTermEligible, Bool.and_eq_true, beq_iff_eq,
      decide_eq_true_eq] at helig
    obtain ⟨hterm, hcount⟩ := helig
    have hlt := (List.getElem?_eq_some_iff.mp hk).1
    refine ⟨hlt, .inr ⟨_, le_rfl, k, ⟨?_, ?_⟩, le_rfl, ?_⟩⟩
    · rw [OwnAt, h.lead.leaderLog]
      exact ⟨e, hk, hterm⟩
    · refine ⟨(g.peers.filter (fun p => a.matchIndexOf p ≥ k + 1)).toFinset, Group.isQuorum ?_ ?_, ?_⟩
      · intro p hp
        exact (List.mem_filter.mp (List.mem_toFinset.mp hp)).1
      · rw [List.toFinset_card_of_nodup (g.nodup.filter _), ← List.countP_eq_length_filter]
        rw [Node.replicas, h.inv.peers, countP_orderedPeers, length_orderedPeers] at hcount
        exact hcount
      · intro p hp
        have hp := (List.mem_filter.mp (List.mem_toFinset.mp hp)).2
        exact (Nat.lt_of_succ_le (of_decide_eq_true hp)).trans_le (h.lead.acked p)
    · rw [h.lead.leaderLog]
      exact List.take_prefix _ _

theorem advanceCommit (h : Leading g s n a) : Leading g s n a.advanceCommit.1 := by
  rw [Node.advanceCommit, if_neg (by simp [h.role])]
  cases hc : a.commitCandidate a.log.lastIndex with
  | none => exact h
  | some i =>
    obtain ⟨hlt, helig⟩ := commitCandidate_eq_some hc
    obtain ⟨k, rfl⟩ : ∃ k, i = k + 1 := ⟨i - 1, by omega⟩
    refine ⟨{ h.inv with
      commit := h.agrees_of_eligible helig
      applied := h.inv.applied.trans hlt.le
      candidate := fun hr => by rw [h.role] at hr; cases hr
      leader := fun _ => { h.lead with } }, h.role⟩

theorem sendHeartbeats (h : Leading g s n a) : Leading g s n a.sendHeartbeats := by
  rw [Node.sendHeartbeats, Node.broadcastAppend]
  apply List.foldlRecOn _ _ h
  intro b hb p _
  split
  · exact hb
  · exact hb.sendAppend (by simp)

theorem broadcastAvailableAppend (h : Leading g s n a) :
    Leading g s n a.broadcastAvailableAppend := by
  rw [Node.broadcastAvailableAppend]
  apply List.foldlRecOn _ _ h
  intro b hb p _
  split
  · exact hb
  · exact hb.sendAppend (by simp)

theorem setInflight_commitIndex (a : Node) (peer : NodeID) (w : Option AppendInflight) :
    (a.setInflight peer w).commitIndex = a.commitIndex := by
  rw [Node.setInflight]
  split <;> rfl

theorem setInflight_nextIndexOf (a : Node) (peer : NodeID) (w : Option AppendInflight)
    (p : NodeID) : (a.setInflight peer w).nextIndexOf p = a.nextIndexOf p := by
  rw [Node.setInflight]
  split <;> rfl

theorem sendAppend_commitIndex (a : Node) (peer : NodeID) (probe : Bool) :
    (a.sendAppend peer probe).commitIndex = a.commitIndex := by
  rw [Node.sendAppend]
  split
  · rfl
  · simp only
    split
    · exact setNextIndex_commitIndex _ _ _
    · exact (setInflight_commitIndex _ _ _).trans (setNextIndex_commitIndex _ _ _)

theorem lt_nextIndexOf_sendAppend (h : Leading g s n a) {p : NodeID} (probe : Bool)
    (hp : a.commitIndex < a.nextIndexOf p) (peer : NodeID) :
    a.commitIndex < (a.sendAppend peer probe).nextIndexOf p := by
  have hset : a.commitIndex < (a.setNextIndex peer (a.clampNext peer)).nextIndexOf p := by
    rw [nextIndexOf_setNextIndex h.lead.next]
    split
    · rename_i heq
      rw [heq] at hp
      exact h.lt_clampNext hp
    · exact hp
  rw [Node.sendAppend]
  split
  · exact hp
  · simp only
    split
    · exact hset
    · exact hset.trans_eq (setInflight_nextIndexOf _ _ _ _).symm

theorem broadcastProbe (h : Leading g s n a)
    (hnext : ∀ p ∈ g.peers, p ≠ n → a.commitIndex < a.nextIndexOf p) :
    Leading g s n (a.broadcastAppend true) := by
  refine (List.foldlRecOn (motive := fun b => Leading g s n b ∧
    ∀ p ∈ g.peers, p ≠ n → b.commitIndex < b.nextIndexOf p) _ _ ⟨h, hnext⟩ ?_).1
  intro b hb peer hpeer
  rw [h.inv.peers, mem_orderedPeers] at hpeer
  obtain ⟨hb, hbnext⟩ := hb
  split
  · exact ⟨hb, hbnext⟩
  · rename_i hne
    rw [hb.inv.id] at hne
    refine ⟨hb.sendAppend fun _ => hbnext peer hpeer hne, ?_⟩
    intro p hp hpn
    rw [sendAppend_commitIndex]
    exact hb.lt_nextIndexOf_sendAppend true (hbnext p hp hpn) peer

theorem advanceCommit_alone (h : Leading g s n a) {q : NodeID} (hq : q ∈ g.peers) (hqn : q ≠ n)
    (hzero : ∀ p ∈ g.peers, p ≠ n → a.matchIndexOf p = 0) : a.advanceCommit.1 = a := by
  rw [Node.advanceCommit, if_neg (by simp [h.role])]
  cases hc : a.commitCandidate a.log.lastIndex with
  | none => rfl
  | some i =>
    obtain ⟨hlt, helig⟩ := commitCandidate_eq_some hc
    have hcount : a.peers.length / 2 + 1 ≤ a.replicas i := by
      rw [Node.commitEligible] at helig
      split at helig
      · cases helig
      · exact of_decide_eq_true (Bool.and_eq_true_iff.mp helig).2
    rw [Node.replicas, h.inv.peers, countP_orderedPeers, length_orderedPeers] at hcount
    have hone : g.peers.countP (fun p => a.matchIndexOf p ≥ i) ≤ g.peers.count n := by
      apply List.countP_mono_left
      intro p hp hi
      by_contra hpn
      have hz := hzero p hp (by simpa using hpn)
      have := of_decide_eq_true hi
      omega
    have htwo : 2 ≤ g.peers.length := by
      rw [← List.toFinset_card_of_nodup g.nodup, ← Finset.card_pair hqn]
      apply Finset.card_le_card
      intro p hp
      rw [Finset.mem_insert, Finset.mem_singleton] at hp
      rw [List.mem_toFinset]
      rcases hp with rfl | rfl
      · exact hq
      · exact h.inv.member
    have := List.nodup_iff_count_le_one.mp g.nodup n
    omega

theorem acknowledge (h : Leading g s n a) {index : Nat}
    (hack : index ≤ s.acked peer a.hardState.term) : Leading g s n (a.acknowledge peer index) := by
  have hflight : Leading g s n (a.setInflight peer none) := h.setInflight (by rintro v ⟨⟩)
  rw [← (Volatile.setInflight a peer none).hardState] at hack
  have hmatch := ite (p := index > (a.setInflight peer none).matchIndexOf peer)
    (hflight.setMatchIndex hack) hflight
  have hcommit := fun i => (hmatch.setNextIndex peer i).advanceCommit
  exact ite ((hcommit _).sendAppend (by simp)) (hcommit _)

theorem backOff (h : Leading g s n a) (peer : NodeID) : Leading g s n (a.backOff peer) := by
  have hflight : Leading g s n (a.setInflight peer none) := h.setInflight (by rintro v ⟨⟩)
  exact sendAppend (ite (hflight.setNextIndex peer _) hflight) (by simp)

end Leading

theorem NodeInv.handleAppendEntriesResponse (h : NodeInv g s n a) {m : Message}
    {resp : AppendEntriesResp} (hm : MsgInv g s m) (hbody : m.body = .appendEntriesResp resp)
    (hterm : m.term = a.hardState.term) :
    NodeInv g s n (a.handleAppendEntriesResponse m resp) := by
  have hb := hm.body
  rw [hbody] at hb
  rw [Node.handleAppendEntriesResponse]
  simp only
  split
  · exact h
  · rename_i hguard
    simp only [Bool.or_eq_true, decide_eq_true_eq, not_or, not_not, beq_iff_eq, h.id] at hguard
    have hlead : Leading g s n a := ⟨h, hguard.1.1⟩
    split
    · exact h
    · split
      · rename_i hsuccess
        split
        · exact h
        · apply (hlead.acknowledge _).inv
          rw [← hterm]
          exact hb.2 hsuccess
      · exact (hlead.backOff _).inv

end MiniQuorum.Server
