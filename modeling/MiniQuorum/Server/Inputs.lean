import MiniQuorum.Server.Leader

/-! What a node does with any input at all, as a sequence of moves.  Nothing is assumed of
the messages here. -/

namespace MiniQuorum.Raft

/-- The message is a well-formed append of a current leader that fits the log, and it brings
an entry for some index up to `index` that the log has not. -/
def Node.replacesUpTo (a : Node) (index : Nat) (m : Message) : Bool :=
  match m.body with
  | .appendEntries req =>
    messageTerm m ≥ a.hardState.term && (appendRequestLastIndex req).isSome &&
      a.log.matchesAt req.prevLogIndex req.prevLogTerm &&
      req.entries.any fun
        | none => false
        | some e => e.index ≤ index && a.log.term e.index ≠ some e.term
  | _ => false

end MiniQuorum.Raft

namespace MiniQuorum.Server

open Raft Storage

def CommitCovered (m : Message) : Prop :=
  ∀ req, m.body = .appendEntries req → req.leaderCommit ≤ req.prevLogIndex + req.entries.length

def campaigned (a : Node) : Node :=
  { a with
    hardState := ⟨(a.hardState.term + 1) % 2 ^ 64, a.config.id⟩
    hardStateDirty := true
    role := .candidate }

def appended (a : Node) (type : EntryType) (data : Bytes) : Node :=
  { a with
    log := (a.log.appendLocal a.hardState.term type data).1
    unstableIndex := min a.unstableIndex (a.log.lastIndex + 1) }

theorem appendLocal_fst (a : Node) (type : EntryType) (data : Bytes) :
    (a.appendLocal type data).1 =
      if a.matchIndex.isSome then
        ((appended a type data).setMatchIndex a.config.id (a.log.lastIndex + 1)).setNextIndex
          a.config.id (a.log.lastIndex + 1 + 1)
      else appended a type data := by
  by_cases hlt : a.log.lastIndex + 1 < a.unstableIndex
  · rw [appended, min_eq_right hlt.le]
    simp only [Node.appendLocal, RaftLog.appendLocal, hlt, if_true]
  · rw [appended, min_eq_left (Nat.le_of_not_lt hlt)]
    simp only [Node.appendLocal, RaftLog.appendLocal, hlt, if_false]

theorem Volatile.appendLocal (a : Node) (type : EntryType) (data : Bytes) :
    Volatile (appended a type data) (a.appendLocal type data).1 := by
  rw [appendLocal_fst]
  split
  · exact (Volatile.setMatchIndex _ _ _).trans (Volatile.setNextIndex _ _ _)
  · exact .refl _

theorem appendLocal_hardState (a : Node) (type : EntryType) (data : Bytes) :
    (a.appendLocal type data).1.hardState = a.hardState :=
  (Volatile.appendLocal a type data).hardState

theorem propose_leader {a : Node} (hrole : a.role = .leader) (data : Bytes) :
    (a.propose data).2 = (a.log.lastIndex + 1, a.hardState.term, true) ∧
      Volatile (appended a .normal data) (a.propose data).1 := by
  have hv := ((Volatile.appendLocal a .normal data).trans (Volatile.advanceCommit _)).trans
    (Volatile.broadcastAvailableAppend _)
  rw [Node.propose, if_neg (not_not.mpr hrole)]
  refine ⟨?_, hv⟩
  dsimp only
  rw [hv.hardState]
  rfl

theorem propose_role {a : Node} {data : Bytes} (h : (a.propose data).2.2.2 = true) :
    a.role = .leader := by
  by_contra hrole
  rw [Node.propose, if_pos hrole] at h
  cases h

theorem becomeLeader_hardState (a : Node) : a.becomeLeader.hardState = a.hardState := by
  rw [Node.becomeLeader, (Volatile.broadcastAppend _ _).hardState,
    (Volatile.advanceCommit _).hardState, appendLocal_hardState]
  rfl

/-- A move that leaves the first `j` entries of the log alone and does not bring the commit
index below `i`.  Elections are kept apart:
they are the only place where a term can wrap around. -/
inductive Move (j i : Nat) : Node → Node → Prop
  | volatile {a b : Node} (h : Volatile a b) : Move j i a b
  | commit {a : Node} {k : Nat} (h : i ≤ k) : Move j i a { a with commitIndex := k }
  | newTerm {a : Node} {term : Nat} (h : a.hardState.term < term) :
    Move j i a { a with hardState := ⟨term, 0⟩, hardStateDirty := true, role := .follower }
  | stepDown {a : Node} : Move j i a { a with role := .follower }
  | grant {a : Node} {c : NodeID} (h : a.hardState.votedFor = 0) :
    Move j i a { a with hardState := ⟨a.hardState.term, c⟩, hardStateDirty := true }
  | lead {a : Node} (h : a.role = .candidate) : Move j i a { a with role := .leader }
  | append {a : Node} (type : EntryType) (data : Bytes) (h : a.role = .leader) :
    Move j i a (appended a type data)
  | store {a : Node} {prev prevTerm : Nat} {entries : List (Option Entry)}
    (hrole : a.role = .follower) (hmatch : a.log.matchesAt prev prevTerm = true)
    (hnum : contiguousFrom (prev + 1) entries = true)
    (hj : (a.log.appendFromLeader entries).2 = 0 ∨ j < (a.log.appendFromLeader entries).2) :
    Move j i a (a.storeAppend entries)

def Moves (j i : Nat) : Node → Node → Prop := Relation.ReflTransGen (Move j i)

namespace Moves

variable {j i : Nat} {a b c : Node}

theorem refl (j i : Nat) (a : Node) : Moves j i a a := Relation.ReflTransGen.refl

theorem trans (h : Moves j i a b) (h' : Moves j i b c) : Moves j i a c := Relation.ReflTransGen.trans h h'

theorem of_move (h : Move j i a b) : Moves j i a b := Relation.ReflTransGen.single h

theorem of_volatile (h : Volatile a b) : Moves j i a b := of_move (.volatile h)

theorem becomeFollower (rnd : Rand) {term : Nat} (h : a.hardState.term < term) :
    Moves j i a (a.becomeFollower rnd term) := by
  refine (of_move (.newTerm h)).trans (of_volatile ?_)
  rw [Node.becomeFollower, if_pos h.ne']
  exact ⟨rfl, rfl, rfl, rfl, rfl, rfl, rfl, rfl, rfl, le_rfl⟩

theorem heedLeader (a : Node) : Moves j i a a.heedLeader := by
  rw [Node.heedLeader]
  split
  · exact (of_move .stepDown).trans (of_volatile ⟨rfl, rfl, rfl, rfl, rfl, rfl, rfl, rfl, rfl, le_rfl⟩)
  · exact of_volatile ⟨rfl, rfl, rfl, rfl, rfl, rfl, rfl, rfl, rfl, le_rfl⟩

theorem recordVote (a : Node) (id : NodeID) : Moves j i a (a.recordVote id) := by
  rw [Node.recordVote]
  split <;> exact of_volatile ⟨rfl, rfl, rfl, rfl, rfl, rfl, rfl, rfl, rfl, le_rfl⟩

theorem appendLocal (h : a.role = .leader) (type : EntryType) (data : Bytes) :
    Moves j i a (a.appendLocal type data).1 := by
  refine (of_move (.append type data h)).trans (of_volatile ?_)
  rw [appendLocal_fst]
  exact Volatile.ite ((Volatile.setMatchIndex _ _ _).trans (Volatile.setNextIndex _ _ _))
    (Volatile.refl _)

theorem lt_appendFromLeader {l : RaftLog} {entries : List (Option Entry)}
    (h : (entries.any fun
      | none => false
      | some e => e.index ≤ j && l.term e.index ≠ some e.term) = false) :
    (l.appendFromLeader entries).2 = 0 ∨ j < (l.appendFromLeader entries).2 := by
  induction entries with
  | nil => exact .inl rfl
  | cons x rest ih =>
    rw [List.any_cons, Bool.or_eq_false_iff] at h
    cases x with
    | none => exact ih h.2
    | some e =>
      rw [RaftLog.appendFromLeader]
      split
      · exact ih h.2
      · split
        · exact ih h.2
        · rename_i hterm
          right
          rcases Bool.and_eq_false_iff.mp h.1 with hindex | hsame
          · exact Nat.lt_of_not_le (of_decide_eq_false hindex)
          · exact absurd hterm (of_decide_eq_false hsame)

def Spares (j i : Nat) (a : Node) (req : AppendEntriesReq) : Prop :=
  ((appendRequestLastIndex req).isSome → a.log.matchesAt req.prevLogIndex req.prevLogTerm = true →
    (a.log.appendFromLeader req.entries).2 = 0 ∨ j < (a.log.appendFromLeader req.entries).2) ∧
  (i = 0 ∨ i ≤ a.commitIndex ∧ req.leaderCommit ≤ req.prevLogIndex + req.entries.length)

theorem accepted {req : AppendEntriesReq} (hrole : a.role = .follower)
    (hmatch : a.log.matchesAt req.prevLogIndex req.prevLogTerm = true)
    (hnum : contiguousFrom (req.prevLogIndex + 1) req.entries = true)
    (hj : (a.log.appendFromLeader req.entries).2 = 0 ∨ j < (a.log.appendFromLeader req.entries).2)
    (hi : i = 0 ∨ i ≤ a.commitIndex ∧ req.leaderCommit ≤ req.prevLogIndex + req.entries.length) :
    Moves j i a (a.accepted req) := by
  refine (of_move (.store hrole hmatch hnum hj)).trans ?_
  rw [Node.accepted]
  split
  · next hlt =>
    refine of_move (.commit ?_)
    rcases hi with rfl | ⟨hcommit, hwithin⟩
    · exact Nat.zero_le _
    · rw [min_eq_left hwithin]
      rw [storeAppend_commitIndex] at hlt
      exact hcommit.trans hlt.le
  · exact refl j i _

theorem of_effects (h : Effects (fun _ _ => True) (Spares j i) a b) : Moves j i a b := by
  induction h with
  | refl => exact refl j i a
  | tail _ heffect ih =>
    refine ih.trans ?_
    cases heffect with
    | timers => exact of_volatile ⟨rfl, rfl, rfl, rfl, rfl, rfl, rfl, rfl, rfl, le_rfl⟩
    | emit => exact of_volatile (Volatile.emit _ _ _)
    | next => exact of_volatile (Volatile.setNextIndex _ _ _)
    | matched => exact of_volatile (Volatile.setMatchIndex _ _ _)
    | inflight => exact of_volatile (Volatile.setInflight _ _ _)
    | commit _ hindex =>
      exact of_volatile ⟨rfl, rfl, rfl, rfl, rfl, rfl, rfl, rfl, rfl, hindex.le⟩
    | newTerm rnd hterm => exact becomeFollower rnd hterm
    | heed => exact heedLeader _
    | grant hvoted => exact of_move (.grant hvoted)
    | vote _ id => exact recordVote _ id
    | lead hrole =>
      exact (of_move (.lead hrole)).trans
        (of_volatile ⟨rfl, rfl, rfl, rfl, rfl, rfl, rfl, rfl, rfl, le_rfl⟩)
    | append hrole => exact appendLocal hrole _ _
    | accept hrole hmatch hlast hnum htaken =>
      exact accepted hrole hmatch hnum (htaken.1 (by simp [hlast]) hmatch) htaken.2

theorem tick (rnd : Rand) (a : Node) :
    Moves j i a (a.tick rnd) ∨ a.role ≠ .leader ∧ Moves j i (campaigned a) (a.tick rnd) := by
  have hticks : Effects (fun _ _ => True) (Spares j i) a (a.tick rnd) ∨ _ :=
    Effects.tick rnd trivial
  rcases hticks with heffects | ⟨hrole, election, heffects⟩
  · exact .inl (of_effects heffects)
  · refine .inr ⟨hrole, trans (of_volatile ?_) (of_effects heffects)⟩
    exact ⟨rfl, rfl, rfl, rfl, rfl, rfl, rfl, rfl, rfl, le_rfl⟩

theorem replacesUpTo_zero (a : Node) (m : Message) : a.replacesUpTo 0 m = false := by
  rw [Node.replacesUpTo]
  split
  · rename_i req _
    rw [Bool.eq_false_iff]
    intro h
    simp only [Bool.and_eq_true] at h
    obtain ⟨last, hlast⟩ := Option.isSome_iff_exists.mp h.1.1.2
    obtain ⟨es, hes, hnum⟩ := exists_of_contiguousFrom (appendRequestLastIndex_eq_some hlast).1
    rw [hes] at h
    obtain ⟨x, hx, hindex⟩ := List.any_eq_true.mp h.2
    obtain ⟨e, he, rfl⟩ := List.mem_map.mp hx
    obtain ⟨k, hk⟩ := List.mem_iff_getElem?.mp he
    have hzero := of_decide_eq_true (Bool.and_eq_true_iff.mp hindex).1
    have := hnum.getElem? hk
    omega
  · rfl

theorem step (rnd : Rand) (a : Node) {m : Message} (hj : a.replacesUpTo j m = false)
    (hi : i = 0 ∨ i ≤ a.commitIndex ∧ CommitCovered m) : Moves j i a (a.step rnd (some m)) := by
  refine of_effects (.step rnd trivial fun req hbody hterm b hlog hcommit => ⟨?_, ?_⟩)
  · rw [hlog]
    intro hlast hmatch
    refine lt_appendFromLeader ?_
    simpa only [Node.replacesUpTo, hbody, hlast, hmatch, Nat.le_of_not_lt hterm, ge_iff_le,
      decide_true, Bool.true_and] using hj
  · rw [hcommit]
    exact hi.imp_right fun h => ⟨h.1, h.2 req hbody⟩

theorem propose (a : Node) (data : Bytes) : Moves j i a (a.propose data).1 :=
  of_effects (.propose trivial)

end Moves

theorem Moves.clean {j i : Nat} {a b : Node} (h : Moves j i a b) (hb : b.hardStateDirty = false) :
    a.hardStateDirty = false ∧ b.hardState = a.hardState := by
  induction h with
  | refl => exact ⟨hb, rfl⟩
  | @tail b c _ hmove ih =>
    have hstep : b.hardStateDirty = false ∧ c.hardState = b.hardState := by
      cases hmove with
      | volatile h => exact ⟨h.hardStateDirty ▸ hb, h.hardState⟩
      | commit h => exact ⟨hb, rfl⟩
      | newTerm h => cases hb
      | stepDown => exact ⟨hb, rfl⟩
      | grant h => cases hb
      | lead h => exact ⟨hb, rfl⟩
      | append type data h => exact ⟨hb, rfl⟩
      | store hrole hmatch hnum hj =>
        exact ⟨storeAppend_hardStateDirty b _ ▸ hb, storeAppend_hardState b _⟩
    obtain ⟨ha, heq⟩ := ih hstep.1
    exact ⟨ha, hstep.2.trans heq⟩

theorem Moves.commitIndex_ge {j i : Nat} {a b : Node} (h : Moves j i a b) (ha : i ≤ a.commitIndex) :
    i ≤ b.commitIndex := by
  induction h with
  | refl => exact ha
  | tail _ hmove ih =>
    cases hmove with
    | volatile h => exact ih.trans h.commit
    | commit h => exact h
    | store hrole hmatch hnum hj =>
      rw [storeAppend_commitIndex]
      exact ih
    | _ => exact ih

/-- What moves do to the state that a storage has to hold.  An entry from `unstableIndex` on
may be new, none below it is; and a log never gets shorter without a new entry. -/
structure Writes (j : Nat) (a b : Node) : Prop where
  dirty : b.hardStateDirty = false → a.hardStateDirty = false ∧ b.hardState = a.hardState
  readyAck : b.readyAck = a.readyAck
  contiguous : b.log.Contiguous
  keep : a.log.entries.take j <+: b.log.entries
  log : (b.log = a.log ∧ b.unstableIndex = a.unstableIndex) ∨
    ∃ k ≤ a.log.entries.length, k < b.log.entries.length ∧
      a.log.entries.take k <+: b.log.entries ∧ b.unstableIndex = min a.unstableIndex (k + 1)

namespace Writes

variable {j : Nat} {a b c : Node}

theorem refl (j : Nat) (h : a.log.Contiguous) : Writes j a a where
  dirty hd := ⟨hd, rfl⟩
  readyAck := rfl
  contiguous := h
  keep := List.take_prefix _ _
  log := .inl ⟨rfl, rfl⟩

theorem isPrefix_take {l l' l'' : List Entry} {k : Nat} (h : l.take k <+: l')
    (h' : l'.take k <+: l'') : l.take k <+: l'' :=
  (List.prefix_take_iff.mpr ⟨h, by simp⟩).trans h'

theorem trans (h : Writes j a b) (h' : Writes j b c) : Writes j a c where
  dirty hd := by
    obtain ⟨hb, hc⟩ := h'.dirty hd
    obtain ⟨ha, hab⟩ := h.dirty hb
    exact ⟨ha, hc.trans hab⟩
  readyAck := h'.readyAck.trans h.readyAck
  contiguous := h'.contiguous
  keep := isPrefix_take h.keep h'.keep
  log := by
    rcases h.log with ⟨hlog, hu⟩ | ⟨k, hk, hkb, hp, hu⟩
    · rw [← hlog, ← hu]
      exact h'.log
    · right
      rcases h'.log with ⟨hlog', hu'⟩ | ⟨k', hk', hkc, hp', hu'⟩
      · rw [hlog', hu']
        exact ⟨k, hk, hkb, hp, hu⟩
      · refine ⟨min k k', (min_le_left _ _).trans hk, (min_le_right _ _).trans_lt hkc, ?_, ?_⟩
        · refine isPrefix_take ((List.take_prefix_take_left (min_le_left _ _)).trans hp) ?_
          exact (List.take_prefix_take_left (min_le_right _ _)).trans hp'
        · rw [hu', hu]
          omega

theorem of_move {i : Nat} (h : Move j i a b) (hlog : a.log.Contiguous) : Writes j a b := by
  have hclean := (Moves.of_move h).clean
  cases h with
  | volatile h =>
    refine ⟨hclean, h.readyAck, h.log ▸ hlog, ?_, .inl ⟨h.log, h.unstableIndex⟩⟩
    rw [h.log]
    exact List.take_prefix _ _
  | commit h => exact { refl j hlog with dirty := hclean }
  | newTerm h => exact { refl j hlog with dirty := hclean }
  | stepDown => exact { refl j hlog with dirty := hclean }
  | grant h => exact { refl j hlog with dirty := hclean }
  | lead h => exact { refl j hlog with dirty := hclean }
  | append type data h =>
    have happend := hlog.append a.hardState.term type data
    rw [hlog.toNumbered.appendLocal] at happend
    rw [appended, hlog.toNumbered.appendLocal, hlog.lastIndex] at hclean ⊢
    refine ⟨hclean, rfl, happend, ?_, .inr ⟨_, le_rfl, ?_, ?_, rfl⟩⟩
    · exact List.take_prefix _ _ |>.trans (List.prefix_append _ _)
    · rw [List.length_append]
      exact Nat.lt_succ_self _
    · rw [List.take_length]
      exact List.prefix_append _ _
  | @store prev prevTerm entries hrole hmatch hnum hj =>
    obtain ⟨es, rfl, hes⟩ := exists_of_contiguousFrom hnum
    rcases hlog.toNumbered.appendFromLeader_cases (hlog.toNumbered.matchesAt_le hmatch) hes with
      heq | ⟨k, es', hk, hne, hes', heq⟩
    · rw [Node.storeAppend, heq]
      exact refl j hlog
    · rw [heq] at hj
      have hjk : j ≤ k := Nat.le_of_lt_succ (hj.resolve_left (Nat.succ_ne_zero k))
      have hpre : a.log.entries.take k <+: a.log.entries.take k ++ es' := List.prefix_append _ _
      have hlen : k < (a.log.entries.take k ++ es').length := by
        have := List.length_pos_iff.mpr hne
        rw [List.length_append, List.length_take]
        omega
      have hstore : a.storeAppend (es.map some) = { a with
          log := { a.log with entries := a.log.entries.take k ++ es' }
          unstableIndex := min a.unstableIndex (k + 1) } := by
        rw [Node.storeAppend, heq]
        simp only [ne_eq, Nat.succ_ne_zero, not_false_eq_true, decide_true, Bool.true_and,
          decide_eq_true_eq]
        split
        · rename_i hlt
          rw [min_eq_right hlt.le]
        · rename_i hlt
          rw [min_eq_left (Nat.le_of_not_lt hlt)]
      rw [hstore] at hclean ⊢
      exact ⟨hclean, rfl, hlog.cut hk hes',
        (List.take_prefix_take_left hjk).trans hpre, .inr ⟨k, hk, hlen, hpre, rfl⟩⟩

end Writes

theorem Moves.writes {j i : Nat} {a b : Node} (h : Moves j i a b) (hlog : a.log.Contiguous) :
    Writes j a b := by
  induction h with
  | refl => exact Writes.refl j hlog
  | tail _ hmove ih => exact ih.trans (Writes.of_move hmove ih.contiguous)

theorem campaigned_writes (j : Nat) {a : Node} (hlog : a.log.Contiguous) :
    Writes j a (campaigned a) :=
  { Writes.refl j hlog with dirty := by rintro ⟨⟩ }

end MiniQuorum.Server
