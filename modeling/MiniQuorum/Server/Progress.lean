import MiniQuorum.Server.CommitIndex
import MiniQuorum.Server.Justified

/-! A leader's bookkeeping of its followers, for any messages at all. -/

namespace MiniQuorum.Server

open Raft Storage Consensus Consensus.Replog

section Local

variable {a b c : Node} {peer : NodeID}

theorem setNextIndex_matchIndex (a : Node) (peer : NodeID) (index : Nat) :
    (a.setNextIndex peer index).matchIndex = a.matchIndex := by
  rw [Node.setNextIndex]
  split <;> rfl

theorem setInflight_matchIndex (a : Node) (peer : NodeID) (w : Option AppendInflight) :
    (a.setInflight peer w).matchIndex = a.matchIndex := by
  rw [Node.setInflight]
  split <;> rfl

theorem sendAppend_matchIndex (a : Node) (peer : NodeID) (probe : Bool) :
    (a.sendAppend peer probe).matchIndex = a.matchIndex := by
  rw [Node.sendAppend]
  split
  · rfl
  · dsimp only
    split
    · exact setNextIndex_matchIndex _ _ _
    · exact (setInflight_matchIndex _ _ _).trans (setNextIndex_matchIndex _ _ _)

theorem advanceCommit_matchIndex (a : Node) : a.advanceCommit.1.matchIndex = a.matchIndex := by
  rw [Node.advanceCommit]
  split
  · rfl
  · split <;> rfl

structure Tracked (a : Node) : Prop where
  contiguous : a.log.Contiguous
  next : a.nextIndex.isSome
  matched : a.matchIndex.isSome
  inflight : a.inflight.isSome
  bounds : ∀ p ∈ a.peers, p ≠ a.config.id → a.matchIndexOf p < a.nextIndexOf p ∧
    a.nextIndexOf p ≤ a.log.entries.length + 1 ∧ a.matchIndexOf p ≠ maxUint64

namespace Tracked

theorem clampNext (h : Tracked a) {p : NodeID} (hp : p ∈ a.peers) (hid : p ≠ a.config.id) :
    a.clampNext p = a.nextIndexOf p := by
  obtain ⟨hlt, hle, _⟩ := h.bounds p hp hid
  have hfirst : ¬ a.nextIndexOf p < 1 := by omega
  rw [Node.clampNext, h.contiguous.firstIndex, h.contiguous.lastIndex, if_neg hfirst,
    if_neg (by omega)]

theorem setNextIndex (h : Tracked a) {index : Nat}
    (hindex : peer ∈ a.peers → peer ≠ a.config.id →
      a.matchIndexOf peer < index ∧ index ≤ a.log.entries.length + 1) :
    Tracked (a.setNextIndex peer index) := by
  have hof := nextIndexOf_setNextIndex h.next peer index
  obtain ⟨f, hf⟩ := Option.isSome_iff_exists.mp h.next
  simp only [Node.setNextIndex, hf] at hof ⊢
  refine { h with next := rfl, bounds := fun p hp hid => ?_ }
  rw [hof]
  split
  · rename_i heq
    subst heq
    exact ⟨(hindex hp hid).1, (hindex hp hid).2, (h.bounds p hp hid).2.2⟩
  · exact h.bounds p hp hid

theorem setInflight (h : Tracked a) (peer : NodeID) (w : Option AppendInflight) :
    Tracked (a.setInflight peer w) := by
  obtain ⟨f, hf⟩ := Option.isSome_iff_exists.mp h.inflight
  simp only [Node.setInflight, hf]
  exact { h with inflight := rfl }

theorem setMatchIndex_setNextIndex (h : Tracked a) {index : Nat}
    (hle : index ≤ a.log.entries.length) (hmax : peer ≠ a.config.id → index ≠ maxUint64) :
    Tracked ((a.setMatchIndex peer index).setNextIndex peer (index + 1)) := by
  obtain ⟨f, hf⟩ := Option.isSome_iff_exists.mp h.next
  obtain ⟨f', hf'⟩ := Option.isSome_iff_exists.mp h.matched
  simp only [Node.setMatchIndex, Node.setNextIndex, hf, hf']
  refine { h with next := rfl, matched := rfl, bounds := fun p hp hid => ?_ }
  have hb := h.bounds p hp hid
  simp only [Node.matchIndexOf, Node.nextIndexOf, hf, hf', Option.map_some, Option.getD_some,
    Function.update_apply] at hb ⊢
  split
  · rename_i heq
    subst heq
    exact ⟨Nat.lt_succ_self _, Nat.succ_le_succ hle, hmax hid⟩
  · exact hb

theorem emit (h : Tracked a) (dest : NodeID) (body : Body) : Tracked (a.emit dest body) :=
  { h with }

theorem sendAppend (h : Tracked a) (peer : NodeID) (probe : Bool) :
    Tracked (a.sendAppend peer probe) := by
  have hset : Tracked (a.setNextIndex peer (a.clampNext peer)) := by
    refine h.setNextIndex fun hp hid => ?_
    rw [h.clampNext hp hid]
    exact ⟨(h.bounds peer hp hid).1, (h.bounds peer hp hid).2.1⟩
  rw [Node.sendAppend]
  split
  · exact h.emit _ _
  · dsimp only
    split
    · exact hset
    · exact (hset.setInflight _ _).emit _ _

theorem advanceCommit (h : Tracked a) : Tracked a.advanceCommit.1 := by
  rw [Node.advanceCommit]
  split
  · exact h
  · split
    · exact h
    · exact { h with }

end Tracked

/-- How a leader's bookkeeping may change.  `credit` says which match indexes may be new. -/
structure Tracks (credit : NodeID → Nat → Prop) (a b : Node) : Prop where
  config : b.config = a.config
  tracked : Tracked b
  grows : ∀ p, p ≠ a.config.id → a.matchIndexOf p ≤ b.matchIndexOf p
  credited : ∀ p, p ≠ a.config.id →
    b.matchIndexOf p = a.matchIndexOf p ∨ credit p (b.matchIndexOf p)

namespace Tracks

variable {credit : NodeID → Nat → Prop}

theorem of_matchIndexOf (h : Tracked b) (hconfig : b.config = a.config)
    (hof : ∀ p, p ≠ a.config.id → b.matchIndexOf p = a.matchIndexOf p) : Tracks credit a b :=
  ⟨hconfig, h, fun p hp => (hof p hp).ge, fun p hp => .inl (hof p hp)⟩

theorem of_matchIndex (h : Tracked b) (hconfig : b.config = a.config)
    (hmatch : b.matchIndex = a.matchIndex) : Tracks credit a b :=
  of_matchIndexOf h hconfig fun p _ => by rw [Node.matchIndexOf, Node.matchIndexOf, hmatch]

theorem refl (h : Tracked a) : Tracks credit a a := of_matchIndex h rfl rfl

theorem trans (h : Tracks credit a b) (h' : Tracks credit b c) : Tracks credit a c where
  config := h'.config.trans h.config
  tracked := h'.tracked
  grows p hp := (h.grows p hp).trans (h'.grows p (h.config ▸ hp))
  credited p hp := by
    rcases h'.credited p (h.config ▸ hp) with heq | hcredit
    · rw [heq]
      exact h.credited p hp
    · exact .inr hcredit

theorem ite {p : Prop} [Decidable p] (h : p → Tracks credit a b) (h' : ¬ p → Tracks credit a c) :
    Tracks credit a (if p then b else c) := by
  split
  · exact h ‹_›
  · exact h' ‹_›

theorem foldl {f : Node → NodeID → Node} (hf : ∀ a p, Tracked a → Tracks credit a (f a p))
    (l : List NodeID) (h : Tracked a) : Tracks credit a (l.foldl f a) := by
  induction l generalizing a with
  | nil => exact refl h
  | cons p l ih => exact (hf a p h).trans (ih (hf a p h).tracked)

theorem sendAppend (h : Tracked a) (peer : NodeID) (probe : Bool) :
    Tracks credit a (a.sendAppend peer probe) :=
  of_matchIndex (h.sendAppend peer probe) (Volatile.sendAppend a peer probe).config
    (sendAppend_matchIndex a peer probe)

theorem advanceCommit (h : Tracked a) : Tracks credit a a.advanceCommit.1 :=
  of_matchIndex h.advanceCommit (Volatile.advanceCommit a).config (advanceCommit_matchIndex a)

theorem broadcastAppend (h : Tracked a) (probe : Bool) :
    Tracks credit a (a.broadcastAppend probe) :=
  foldl (fun _ _ hb => ite (fun _ => refl hb) fun _ => sendAppend hb _ _) _ h

theorem broadcastAvailableAppend (h : Tracked a) :
    Tracks credit a a.broadcastAvailableAppend :=
  foldl (fun _ _ hb => ite (fun _ => refl hb) fun _ => sendAppend hb _ _) _ h

theorem appendLocal (h : Tracked a) (type : EntryType) (data : Bytes) :
    Tracks credit a (a.appendLocal type data).1 := by
  have hlen : (appended a type data).log.entries.length = a.log.lastIndex + 1 := by
    rw [appended, h.contiguous.toNumbered.appendLocal, h.contiguous.lastIndex, List.length_append,
      List.length_singleton]
  have hlog : Tracked (appended a type data) := by
    refine { h with
      contiguous := h.contiguous.append _ _ _
      bounds := fun p hp hid => ?_ }
    obtain ⟨hlt, hle, hmax⟩ := h.bounds p hp hid
    refine ⟨hlt, ?_, hmax⟩
    rw [hlen, h.contiguous.lastIndex]
    exact hle.trans (Nat.le_succ _)
  rw [appendLocal_fst, if_pos h.matched]
  refine of_matchIndexOf (hlog.setMatchIndex_setNextIndex hlen.ge fun hid => absurd rfl hid)
    ((Volatile.setMatchIndex _ _ _).trans (Volatile.setNextIndex _ _ _)).config fun p hp => ?_
  rw [Node.matchIndexOf, setNextIndex_matchIndex, ← Node.matchIndexOf,
    matchIndexOf_setMatchIndex hlog.matched, if_neg hp]
  rfl

theorem setInflight (h : Tracked a) (peer : NodeID) (w : Option AppendInflight) :
    Tracks credit a (a.setInflight peer w) :=
  of_matchIndex (h.setInflight peer w) (Volatile.setInflight a peer w).config
    (setInflight_matchIndex a peer w)

theorem setNextIndex (h : Tracked a) {index : Nat}
    (hindex : peer ∈ a.peers → peer ≠ a.config.id →
      a.matchIndexOf peer < index ∧ index ≤ a.log.entries.length + 1) :
    Tracks credit a (a.setNextIndex peer index) :=
  of_matchIndex (h.setNextIndex hindex) (Volatile.setNextIndex a peer index).config
    (setNextIndex_matchIndex a peer index)

theorem matchUpTo (h : Tracked a) {index : Nat} (hlast : index ≤ a.log.lastIndex)
    (hmax : index ≠ maxUint64) :
    Tracks (fun p i => p = peer ∧ i = index) a
      ((if index > a.matchIndexOf peer then a.setMatchIndex peer index else a).setNextIndex peer
        ((if index > a.matchIndexOf peer then a.setMatchIndex peer index else a).matchIndexOf peer +
          1)) := by
  by_cases hgt : index > a.matchIndexOf peer
  · have hof := matchIndexOf_setMatchIndex h.matched peer index
    rw [if_pos hgt, hof peer, if_pos rfl]
    have hof' : ∀ p, ((a.setMatchIndex peer index).setNextIndex peer (index + 1)).matchIndexOf p =
        if p = peer then index else a.matchIndexOf p := fun p => by
      rw [Node.matchIndexOf, setNextIndex_matchIndex, ← Node.matchIndexOf, hof]
    refine ⟨((Volatile.setMatchIndex _ _ _).trans (Volatile.setNextIndex _ _ _)).config,
      h.setMatchIndex_setNextIndex (h.contiguous.lastIndex ▸ hlast) fun _ => hmax, ?_, ?_⟩
    · intro p _
      rw [hof']
      split
      · rename_i hp
        rw [hp]
        exact Nat.le_of_lt hgt
      · exact le_rfl
    · intro p _
      rw [hof']
      split
      · rename_i hp
        exact .inr ⟨hp, rfl⟩
      · exact .inl rfl
  · rw [if_neg hgt]
    refine setNextIndex h fun hp hid => ⟨Nat.lt_succ_self _, ?_⟩
    obtain ⟨hlt, hle, _⟩ := h.bounds peer hp hid
    omega

theorem acknowledge (h : Tracked a) {index : Nat} (hlast : index ≤ a.log.lastIndex)
    (hmax : index ≠ maxUint64) :
    Tracks (fun p i => p = peer ∧ i = index) a (a.acknowledge peer index) := by
  have hflight : Tracks (fun p i => p = peer ∧ i = index) a (a.setInflight peer none) :=
    setInflight h peer none
  rw [← (Volatile.setInflight a peer none).log] at hlast
  have hmatch := hflight.trans (matchUpTo hflight.tracked hlast hmax)
  have hcommit := hmatch.trans (advanceCommit hmatch.tracked)
  exact ite (fun _ => hcommit.trans (sendAppend hcommit.tracked _ _)) fun _ => hcommit

theorem retryFloor (h : Tracked a) (hpeer : peer ∈ a.peers) (hid : peer ≠ a.config.id) :
    (if a.matchIndexOf peer ≠ maxUint64 && a.matchIndexOf peer + 1 > a.log.firstIndex then
      a.matchIndexOf peer + 1 else a.log.firstIndex) = a.matchIndexOf peer + 1 := by
  have hmax := (h.bounds peer hpeer hid).2.2
  rw [h.contiguous.firstIndex]
  split
  · rfl
  · rename_i hfloor
    simp only [ne_eq, hmax, not_false_eq_true, decide_true, Bool.true_and, decide_eq_true_eq] at hfloor
    omega

theorem backOff (h : Tracked a) (peer : NodeID) : Tracks credit a (a.backOff peer) := by
  have hflight : Tracks credit a (a.setInflight peer none) := setInflight h peer none
  have hback : Tracks credit a (if (a.setInflight peer none).nextIndexOf peer >
      (if (a.setInflight peer none).matchIndexOf peer ≠ maxUint64 &&
          (a.setInflight peer none).matchIndexOf peer + 1 > (a.setInflight peer none).log.firstIndex then
        (a.setInflight peer none).matchIndexOf peer + 1
      else (a.setInflight peer none).log.firstIndex) then
      (a.setInflight peer none).setNextIndex peer ((a.setInflight peer none).nextIndexOf peer - 1)
    else a.setInflight peer none) := by
    refine ite (fun hgt => ?_) fun _ => hflight
    refine hflight.trans (setNextIndex hflight.tracked fun hp hid => ?_)
    rw [retryFloor hflight.tracked hp hid] at hgt
    have hle := (hflight.tracked.bounds peer hp hid).2.1
    omega
  exact hback.trans (sendAppend hback.tracked _ _)

theorem handleAppendEntriesResponse (h : Tracked a) (m : Message) (resp : AppendEntriesResp) :
    Tracks (fun p i => p = m.fromID ∧ resp.success = true ∧ i = resp.matchIndex) a
      (a.handleAppendEntriesResponse m resp) := by
  rw [Node.handleAppendEntriesResponse]
  refine ite (fun _ => refl h) fun _ => ?_
  split
  · exact refl h
  · refine ite (fun hsuccess => ite (fun _ => refl h) fun hguard => ?_) fun _ => backOff h _
    simp only [Bool.or_eq_true, decide_eq_true_eq, beq_iff_eq, not_or, not_lt] at hguard
    have hack : Tracks (fun p i => p = m.fromID ∧ i = resp.matchIndex) a
        (a.acknowledge m.fromID resp.matchIndex) := acknowledge h hguard.1.2 hguard.2
    exact { hack with
      credited := fun p hp => (hack.credited p hp).imp_right fun hc => ⟨hc.1, hsuccess, hc.2⟩ }

end Tracks

theorem becomeLeader_tracked (h : a.log.Contiguous) :
    Tracked a.becomeLeader ∧ ∀ p, p ≠ a.config.id → a.becomeLeader.matchIndexOf p = 0 := by
  have hlead : Tracked a.takeLead := by
    refine ⟨h, rfl, rfl, rfl, fun p hp _ => ?_⟩
    have hnext : a.takeLead.nextIndexOf p = a.log.entries.length + 1 := by
      rw [← h.lastIndex]
      exact if_pos hp
    rw [hnext]
    exact ⟨Nat.succ_pos _, le_rfl, show 0 ≠ maxUint64 by decide⟩
  have hlog : Tracks (fun _ _ => False) _ _ := Tracks.appendLocal hlead .noop []
  have hcommit := hlog.trans (Tracks.advanceCommit hlog.tracked)
  have hall := hcommit.trans (Tracks.broadcastAppend hcommit.tracked true)
  exact ⟨hall.tracked, fun p hp => (hall.credited p hp).resolve_right id⟩

def Credits (a : Node) (m : Message) (p : NodeID) (i : Nat) : Prop :=
  p = m.fromID ∧ messageTerm m = a.hardState.term ∧
    ∃ resp, m.body = .appendEntriesResp resp ∧ resp.success = true ∧ i = resp.matchIndex

def LeadsOn (credit : NodeID → Nat → Prop) (a b : Node) : Prop :=
  (a.role = .leader ∧ b.hardState.term = a.hardState.term ∧ (Tracked a → Tracks credit a b)) ∨
    (a.role ≠ .leader ∧ Tracked b ∧ ∀ p, p ≠ a.config.id → b.matchIndexOf p = 0)

variable {credit : NodeID → Nat → Prop} {m : Message}

theorem LeadsOn.refl (h : a.role = .leader) : LeadsOn credit a a :=
  .inl ⟨h, rfl, Tracks.refl⟩

theorem handleRequestVote_role (a : Node) (m : Message) (req : RequestVoteReq) :
    (a.handleRequestVote m req).role = a.role := by
  rw [Node.handleRequestVote]
  split
  · split <;> rfl
  · rfl

theorem handleRequestVote_leadsOn {req : RequestVoteReq} (h : a.role = .leader) :
    LeadsOn credit a (a.handleRequestVote m req) := by
  refine .inl ⟨h, ?_, fun ht => ?_⟩
  · rw [Node.handleRequestVote]
    split
    · split <;> rfl
    · rfl
  · rw [Node.handleRequestVote]
    split
    · split <;> exact Tracks.of_matchIndex { ht with } rfl rfl
    · exact Tracks.of_matchIndex { ht with } rfl rfl

theorem handleAppendEntries_role (a : Node) (m : Message) (req : AppendEntriesReq) :
    (a.handleAppendEntries m req).role = .follower := by
  rw [Node.handleAppendEntries]
  split
  · exact heedLeader_role a
  · split
    · rw [Node.acceptAppend]
      have hrole : (a.heedLeader.storeAppend req.entries).role = .follower :=
        (storeAppend_role _ _).trans (heedLeader_role a)
      split <;> exact hrole
    · exact heedLeader_role a

theorem handle_follower (h : a.role = .follower) :
    (a.handle m).role = .follower := by
  rw [Node.handle]
  split
  · rw [handleRequestVote_role, h]
  · exact handleAppendEntries_role _ _ _
  · rw [Node.handleRequestVoteResponse, if_pos (by simp [h])]
    exact h
  · rw [(Volatile.handleAppendEntriesResponse _ _ _).role, h]
  · exact h

theorem handleRequestVoteResponse_leadsOn {resp : RequestVoteResp} (hlog : a.log.Contiguous)
    (hb : (a.handleRequestVoteResponse m resp).role = .leader) :
    LeadsOn credit a (a.handleRequestVoteResponse m resp) := by
  rw [Node.handleRequestVoteResponse] at hb ⊢
  by_cases hguard : (a.role ≠ .candidate || !resp.voteGranted || !a.isPeer m.fromID) = true
  · rw [if_pos hguard] at hb ⊢
    exact .refl hb
  · rw [if_neg hguard] at hb ⊢
    have hrole : a.role = .candidate := by
      simp only [Bool.or_eq_true, decide_eq_true_eq, not_or, not_not] at hguard
      exact hguard.1.1
    cases hvotes : a.votes with
    | none =>
      simp only [hvotes] at hb ⊢
      split at hb
      · rw [if_pos ‹_›]
        exact .inr ⟨by simp [hrole], becomeLeader_tracked hlog⟩
      · rw [show a.role = .leader from hb] at hrole
        cases hrole
    | some votes =>
      simp only [hvotes] at hb ⊢
      split at hb
      · rw [if_pos ‹_›]
        exact .inr ⟨by simp [hrole], becomeLeader_tracked hlog⟩
      · rw [show a.role = .leader from hb] at hrole
        cases hrole

theorem handle_leadsOn (hlog : a.log.Contiguous)
    (hterm : messageTerm m = a.hardState.term) (hb : (a.handle m).role = .leader) :
    LeadsOn (Credits a m) a (a.handle m) := by
  rw [Node.handle] at hb ⊢
  split at hb
  · rw [handleRequestVote_role] at hb
    exact handleRequestVote_leadsOn hb
  · rw [handleAppendEntries_role] at hb
    cases hb
  · exact handleRequestVoteResponse_leadsOn hlog hb
  · rename_i resp hbody
    have hv := Volatile.handleAppendEntriesResponse a m resp
    rw [hv.role] at hb
    refine .inl ⟨hb, by rw [hv.hardState], fun ht => ?_⟩
    have htracks := Tracks.handleAppendEntriesResponse ht m resp
    exact { htracks with
      credited := fun p hp => (htracks.credited p hp).imp_right fun hc =>
        ⟨hc.1, hterm, resp, hbody, hc.2⟩ }
  · exact .refl hb

theorem step_leadsOn (hlog : a.log.Contiguous) (rnd : Rand)
    (hb : (a.step rnd (some m)).role = .leader) :
    LeadsOn (Credits a m) a (a.step rnd (some m)) := by
  rw [Node.step] at hb ⊢
  by_cases hgt : messageTerm m > a.hardState.term
  · rw [if_pos hgt, handle_follower rfl] at hb
    cases hb
  · rw [if_neg hgt] at hb ⊢
    by_cases hlt : messageTerm m < a.hardState.term
    · rw [if_pos hlt, Node.rejectLowerTermRequest] at hb ⊢
      split at hb
      · exact .inl ⟨hb, rfl, fun ht => Tracks.of_matchIndex (ht.emit _ _) rfl rfl⟩
      · exact .inl ⟨hb, rfl, fun ht => Tracks.of_matchIndex (ht.emit _ _) rfl rfl⟩
      · exact .refl hb
    · rw [if_neg hlt] at hb ⊢
      exact handle_leadsOn hlog (by omega) hb

theorem tick_leadsOn (hlog : a.log.Contiguous) (rnd : Rand)
    (hb : (a.tick rnd).role = .leader) : LeadsOn credit a (a.tick rnd) := by
  rw [Node.tick] at hb ⊢
  by_cases hrole : a.role = .leader
  · rw [if_pos hrole]
    dsimp only
    refine .inl ⟨hrole, ?_, fun ht => ?_⟩
    · split
      · exact congrArg HardState.term (Volatile.broadcastAppend _ _).hardState
      · rfl
    · have hbeat : Tracked { a with heartbeatElapsed := 0 } := { ht with }
      have hreset : Tracks credit a { a with heartbeatElapsed := 0 } :=
        Tracks.of_matchIndex hbeat rfl rfl
      split
      · exact hreset.trans (Tracks.broadcastAppend hbeat false)
      · exact Tracks.of_matchIndex { ht with } rfl rfl
  · rw [if_neg hrole] at hb ⊢
    dsimp only at hb ⊢
    split at hb
    · rw [if_pos ‹_›]
      rw [Node.startElection] at hb ⊢
      split at hb
      · rw [if_pos ‹_›]
        exact .inr ⟨hrole, becomeLeader_tracked hlog⟩
      · rw [(Volatile.requestVotes _).role] at hb
        cases hb
    · exact absurd hb hrole

theorem propose_leadsOn (data : Bytes)
    (hb : (a.propose data).1.role = .leader) : LeadsOn credit a (a.propose data).1 := by
  rw [Node.propose] at hb ⊢
  by_cases hrole : a.role = .leader
  · rw [if_neg (not_not.mpr hrole)]
    refine .inl ⟨hrole, ?_, fun ht => ?_⟩
    · exact congrArg HardState.term (((Volatile.advanceCommit _).trans
        (Volatile.broadcastAvailableAppend _)).hardState.trans (appendLocal_hardState a .normal data))
    · have hlog : Tracks credit _ _ := Tracks.appendLocal ht .normal data
      have hcommit := hlog.trans (Tracks.advanceCommit hlog.tracked)
      exact hcommit.trans (Tracks.broadcastAvailableAppend hcommit.tracked)
  · rw [if_pos hrole] at hb
    exact absurd hb hrole

def Input.Credits (a : Node) : Input → NodeID → Nat → Prop
  | .step m _ => Server.Credits a m
  | _ => fun _ _ => False

theorem Input.leadsOn {input : Input} (hlog : a.log.Contiguous)
    (hb : (input.run a).role = .leader) : LeadsOn (input.Credits a) a (input.run a) := by
  cases input with
  | tick rnd => exact tick_leadsOn hlog rnd hb
  | step m rnd => exact step_leadsOn hlog rnd hb
  | propose data => exact propose_leadsOn data hb

end Local

end MiniQuorum.Server
