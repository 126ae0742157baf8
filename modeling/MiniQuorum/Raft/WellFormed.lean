import MiniQuorum.Program.Checked
import MiniQuorum.Raft.Contiguous
import MiniQuorum.Raft.Effects

/-! A node that is called in any order and with any messages keeps its maps to its role and its log
without gaps. -/

namespace MiniQuorum.Raft

open Program

/-! ### Accesses to the log -/

namespace RaftLog

variable (l : RaftLog)

def lastIndexAt : Except (Halt Empty) Nat :=
  if l.entries.length = 0 then .ok l.snapshot.index
  else do
    let last ← Checked.index l.entries (l.entries.length - 1)
    return last.index

def entryAt (index : Nat) : Except (Halt Empty) (Option Entry) :=
  if l.entries.length = 0 then .ok none
  else do
    let first ← Checked.index l.entries 0
    if index < first.index then return none
    else
      let offset := index - first.index
      if offset ≥ l.entries.length then return none
      else
        let e ← Checked.index l.entries offset
        if e.index ≠ index then return none else return some e

def termOf (index : Nat) : Except (Halt Empty) (Option Nat) :=
  if index = l.snapshot.index then .ok (some l.snapshot.term)
  else do
    let e ← l.entryAt index
    return e.map Entry.term

def rangeLoopAt : Nat → Nat → Except (Halt Empty) (List Entry)
  | _, 0 => .ok []
  | index, count + 1 => do
    match ← l.entryAt index with
    | none => return []
    | some e => return e :: (← rangeLoopAt (index + 1) count)

def rangeEntriesAt (lo hi : Nat) : Except (Halt Empty) (List Entry) := l.rangeLoopAt lo (hi - lo)

def findCut (index : Nat) : Nat → Nat → Except (Halt Empty) Nat
  | 0, _ => .ok l.entries.length
  | count + 1, i => do
    let e ← Checked.index l.entries i
    if e.index ≥ index then return i else findCut index count (i + 1)

def clearFrom : Nat → Nat → Except (Halt Empty) Unit
  | 0, _ => .ok ()
  | count + 1, i => do
    let _ ← Checked.index l.entries i
    clearFrom count (i + 1)

def truncateFromAt (index : Nat) : Except (Halt Empty) RaftLog := do
  let cut ← l.findCut index l.entries.length 0
  l.clearFrom (l.entries.length - cut) cut
  return { l with entries := ← Checked.slice l.entries 0 cut }

def appendFromLeaderAt (entries : List (Option Entry)) :
    Nat → Nat → Except (Halt Empty) (RaftLog × Nat)
  | 0, _ => .ok (l, 0)
  | count + 1, i => do
    match ← Checked.index entries i with
    | none => appendFromLeaderAt entries count (i + 1)
    | some e =>
      if e.index ≤ l.snapshot.index then appendFromLeaderAt entries count (i + 1)
      else if (← l.termOf e.index) = some e.term then appendFromLeaderAt entries count (i + 1)
      else
        let cut ← l.truncateFromAt e.index
        let remaining ← Checked.sliceFrom entries i
        return ({ cut with entries := cut.entries ++ cut.incoming remaining }, e.index)

variable {l}

theorem lastIndexAt_eq : l.lastIndexAt = .ok l.lastIndex := by
  rw [lastIndexAt, lastIndex, List.getLast?_eq_getElem?]
  split
  · next hempty => rw [List.getElem?_eq_none (by omega)]
  · next hne =>
    have hget := List.getElem?_eq_getElem (l := l.entries) (i := l.entries.length - 1) (by omega)
    rw [hget, Checked.index_of_getElem? hget]
    rfl

theorem entryAt_eq (index : Nat) : l.entryAt index = .ok (l.entry index) := by
  rw [entryAt, entry]
  cases hl : l.entries with
  | nil => rfl
  | cons first rest =>
    rw [if_neg (by simp), Checked.index_of_getElem? (x := first) rfl]
    show (if index < first.index then pure none else _) =
      Except.ok (if index < first.index then none else _)
    by_cases hlow : index < first.index
    · rw [if_pos hlow, if_pos hlow]
      rfl
    · rw [if_neg hlow, if_neg hlow]
      by_cases hbeyond : index - first.index ≥ (first :: rest).length
      · rw [if_pos hbeyond, List.getElem?_eq_none hbeyond]
        rfl
      · have hget := List.getElem?_eq_getElem (l := first :: rest) (not_le.1 hbeyond)
        rw [if_neg hbeyond, hget, Checked.index_of_getElem? hget]
        show (if _ then pure none else pure (some _)) = Except.ok (if _ then none else some _)
        split <;> rfl

theorem termOf_eq (index : Nat) : l.termOf index = .ok (l.term index) := by
  rw [termOf, term, entryAt_eq]
  split <;> rfl

theorem rangeLoopAt_eq (index count : Nat) :
    l.rangeLoopAt index count = .ok (l.rangeLoop index count) := by
  induction count generalizing index with
  | zero => rfl
  | succ count ih =>
    rw [rangeLoopAt, rangeLoop, entryAt_eq]
    cases l.entry index with
    | none => rfl
    | some e =>
      show (l.rangeLoopAt (index + 1) count >>= _) = _
      rw [ih]
      rfl

theorem findCut_eq (index : Nat) {count i : Nat} (hi : i + count = l.entries.length) :
    l.findCut index count i =
      .ok (i + ((l.entries.drop i).takeWhile (fun e => e.index < index)).length) := by
  induction count generalizing i with
  | zero =>
    rw [findCut, List.drop_of_length_le (by omega)]
    exact congrArg Except.ok hi.symm
  | succ count ih =>
    have hlt : i < l.entries.length := by omega
    rw [findCut, Checked.index_of_getElem? (List.getElem?_eq_getElem hlt),
      List.drop_eq_getElem_cons hlt]
    show (if l.entries[i].index ≥ index then pure i else l.findCut index count (i + 1)) = _
    by_cases hcut : l.entries[i].index ≥ index
    · rw [if_pos hcut, List.takeWhile_cons_of_neg (by simpa using hcut)]
      rfl
    · rw [if_neg hcut, ih (by omega), List.takeWhile_cons_of_pos (by simpa using hcut),
        List.length_cons]
      congr 1
      omega

theorem clearFrom_eq {count i : Nat} (hi : i + count ≤ l.entries.length) :
    l.clearFrom count i = .ok () := by
  induction count generalizing i with
  | zero => rfl
  | succ count ih =>
    have hlt : i < l.entries.length := by omega
    rw [clearFrom, Checked.index_of_getElem? (List.getElem?_eq_getElem hlt)]
    exact ih (by omega)

theorem truncateFromAt_eq (index : Nat) : l.truncateFromAt index = .ok (l.truncateFrom index) := by
  have hle : (l.entries.takeWhile (fun e => e.index < index)).length ≤ l.entries.length :=
    (List.takeWhile_prefix _).length_le
  have hcut := findCut_eq index (l := l) (Nat.zero_add _)
  rw [List.drop_zero, Nat.zero_add] at hcut
  rw [truncateFromAt, hcut]
  show (l.clearFrom _ _ >>= _) = _
  rw [clearFrom_eq (by omega)]
  show (Checked.slice l.entries 0 _ >>= _) = _
  rw [Checked.slice_front hle, ← List.prefix_iff_eq_take.1 (List.takeWhile_prefix _)]
  rfl

theorem appendFromLeaderAt_eq {entries : List (Option Entry)} {count i : Nat}
    (hi : i + count = entries.length) :
    l.appendFromLeaderAt entries count i = .ok (l.appendFromLeader (entries.drop i)) := by
  induction count generalizing i with
  | zero =>
    rw [appendFromLeaderAt, List.drop_of_length_le (by omega)]
    rfl
  | succ count ih =>
    have hlt : i < entries.length := by omega
    have hnext := ih (i := i + 1) (by omega)
    have hdrop := List.drop_eq_getElem_cons hlt
    rw [appendFromLeaderAt, Checked.index_of_getElem? (List.getElem?_eq_getElem hlt), hdrop]
    cases hentry : entries[i] with
    | none => exact hnext
    | some e =>
      rw [appendFromLeader]
      show (if e.index ≤ l.snapshot.index then _ else _) = _
      by_cases hold : e.index ≤ l.snapshot.index
      · rw [if_pos hold, if_pos hold]
        exact hnext
      · rw [if_neg hold, if_neg hold, termOf_eq]
        show (if l.term e.index = some e.term then _ else _) = _
        by_cases hterm : l.term e.index = some e.term
        · rw [if_pos hterm, if_pos hterm]
          exact hnext
        · rw [if_neg hterm, if_neg hterm, truncateFromAt_eq, Checked.sliceFrom_of_le hlt.le, hdrop,
            hentry]
          rfl

end RaftLog

/-! ### Roles -/

/-- The log has no gaps, each map is there in the role that uses it, and none was written to while
it was not. -/
structure Node.WellFormed (n : Node) : Prop where
  log : n.log.Numbered
  votes : n.votes.isSome = true ↔ n.role = .candidate
  nextIndex : n.nextIndex.isSome = true ↔ n.role = .leader
  matchIndex : n.matchIndex.isSome = true ↔ n.role = .leader
  inflight : n.inflight.isSome = true ↔ n.role = .leader
  safe : n.panicked = false

namespace Node

namespace WellFormed

variable {n b : Node}

theorem setNextIndex (h : n.WellFormed) (hrole : n.role = .leader) (peer : NodeID) (index : Nat) :
    (n.setNextIndex peer index).WellFormed ∧ (n.setNextIndex peer index).role = .leader := by
  obtain ⟨next, hnext⟩ := Option.isSome_iff_exists.1 (h.nextIndex.2 hrole)
  rw [Node.setNextIndex, hnext]
  exact ⟨{ h with nextIndex := by simp [hrole] }, hrole⟩

theorem setMatchIndex (h : n.WellFormed) (hrole : n.role = .leader) (peer : NodeID) (index : Nat) :
    (n.setMatchIndex peer index).WellFormed ∧ (n.setMatchIndex peer index).role = .leader := by
  obtain ⟨matched, hmatched⟩ := Option.isSome_iff_exists.1 (h.matchIndex.2 hrole)
  rw [Node.setMatchIndex, hmatched]
  exact ⟨{ h with matchIndex := by simp [hrole] }, hrole⟩

theorem setInflight (h : n.WellFormed) (hrole : n.role = .leader) (peer : NodeID)
    (pending : Option AppendInflight) : (n.setInflight peer pending).WellFormed := by
  obtain ⟨inflight, hinflight⟩ := Option.isSome_iff_exists.1 (h.inflight.2 hrole)
  rw [Node.setInflight, hinflight]
  exact { h with inflight := by simp [hrole] }

theorem appendLocal (h : n.WellFormed) (hrole : n.role = .leader) (type : EntryType)
    (data : Bytes) : (n.appendLocal type data).1.WellFormed := by
  have happended (unstableIndex : Nat) : WellFormed
      { n with
        log := (n.log.appendLocal n.hardState.term type data).1
        unstableIndex := unstableIndex } :=
    { h with log := h.log.append _ _ _ }
  have htracked (unstableIndex : Nat) (id : NodeID) (index : Nat) :=
    ((happended unstableIndex).setMatchIndex hrole id index)
  rw [Node.appendLocal]
  dsimp only
  split
  · split
    · exact ((htracked _ _ _).1.setNextIndex (htracked _ _ _).2 _ _).1
    · exact happended _
  · split
    · exact ((htracked _ _ _).1.setNextIndex (htracked _ _ _).2 _ _).1
    · exact happended _

theorem becomeFollower (h : n.WellFormed) (rnd : Rand) (term : Nat) :
    (becomeFollower rnd n term).WellFormed := by
  rw [Node.becomeFollower]
  split <;> exact ⟨h.log, by simp, by simp, by simp, by simp, h.safe⟩

theorem heedLeader (h : n.WellFormed) : n.heedLeader.WellFormed := by
  rw [Node.heedLeader]
  split
  · exact ⟨h.log, by simp [becomeFollowerSameTerm], by simp [becomeFollowerSameTerm],
      by simp [becomeFollowerSameTerm], by simp [becomeFollowerSameTerm], h.safe⟩
  · exact { h with }

theorem recordVote (h : n.WellFormed) (hrole : n.role = .candidate) (id : NodeID) :
    (n.recordVote id).WellFormed := by
  obtain ⟨votes, hvotes⟩ := Option.isSome_iff_exists.1 (h.votes.2 hrole)
  rw [Node.recordVote, hvotes]
  exact { h with votes := by simp [hrole] }

theorem takeLead (h : n.WellFormed) : n.takeLead.WellFormed :=
  ⟨h.log, by simp [Node.takeLead], by simp [Node.takeLead], by simp [Node.takeLead],
    by simp [Node.takeLead], h.safe⟩

theorem accepted (h : n.WellFormed) {req : AppendEntriesReq}
    (hmatch : n.log.matchesAt req.prevLogIndex req.prevLogTerm = true)
    (hnum : contiguousFrom (req.prevLogIndex + 1) req.entries = true) :
    (n.accepted req).WellFormed := by
  obtain ⟨es, hes, hnumbered⟩ := exists_of_contiguousFrom hnum
  have hlog : (n.log.appendFromLeader req.entries).1.Numbered := by
    rw [hes]
    rcases h.log.appendFromLeader_cases (h.log.matchesAt_le hmatch) hnumbered with
      hsame | ⟨k, es', hk, -, hes', hcut⟩
    · rw [hsame]
      exact h.log
    · rw [hcut]
      exact h.log.cut hk hes'
  have hstored : (n.storeAppend req.entries).WellFormed := by
    rw [Node.storeAppend]
    dsimp only
    split <;> exact { h with log := hlog }
  rw [Node.accepted]
  split
  · exact { hstored with }
  · exact hstored

variable {fresh : EntryType → Bytes → Prop} {taken : Node → AppendEntriesReq → Prop}

theorem effect (h : n.WellFormed) (heffect : Effect fresh taken n b) : b.WellFormed := by
  cases heffect with
  | timers | emit | commit | grant => exact { h with }
  | next hrole => exact (h.setNextIndex hrole _ _).1
  | matched hrole => exact (h.setMatchIndex hrole _ _).1
  | inflight hrole => exact h.setInflight hrole _ _
  | newTerm rnd => exact h.becomeFollower rnd _
  | heed => exact h.heedLeader
  | vote hrole id => exact h.recordVote hrole id
  | lead => exact h.takeLead
  | append hrole => exact h.appendLocal hrole _ _
  | accept _ hmatch _ hnum => exact h.accepted hmatch hnum

theorem effects (h : n.WellFormed) (heffects : Effects fresh taken n b) : b.WellFormed := by
  induction heffects with
  | refl => exact h
  | tail _ heffect ih => exact ih.effect heffect

theorem campaign (h : n.WellFormed) (rnd : Rand) (hrole : n.role ≠ .leader) :
    (n.campaign rnd).WellFormed where
  log := h.log
  votes := by simp [Node.campaign, Node.resetElectionTimeout]
  nextIndex := by simpa [Node.campaign, Node.resetElectionTimeout, hrole] using h.nextIndex
  matchIndex := by simpa [Node.campaign, Node.resetElectionTimeout, hrole] using h.matchIndex
  inflight := by simpa [Node.campaign, Node.resetElectionTimeout, hrole] using h.inflight
  safe := h.safe

theorem tick (h : n.WellFormed) (rnd : Rand) : (n.tick rnd).WellFormed := by
  have hticks : Effects (fun _ _ => True) (fun _ _ => True) n (n.tick rnd) ∨ _ :=
    Effects.tick rnd trivial
  rcases hticks with heffects | ⟨hrole, election, heffects⟩
  · exact h.effects heffects
  · have hticked : WellFormed { n with electionElapsed := election } := { h with }
    exact (hticked.campaign rnd hrole).effects heffects

theorem step (h : n.WellFormed) (rnd : Rand) (m : Option Message) : (n.step rnd m).WellFormed := by
  cases m with
  | none => exact h
  | some m =>
    have heffects : Effects (fun _ _ => True) (fun _ _ => True) n (n.step rnd (some m)) :=
      .step rnd trivial fun _ _ _ _ _ _ => trivial
    exact h.effects heffects

theorem propose (h : n.WellFormed) (data : Bytes) : (n.propose data).1.WellFormed := by
  have heffects : Effects (fun _ _ => True) (fun _ _ => True) n (n.propose data).1 :=
    .propose trivial
  exact h.effects heffects

theorem advance (h : n.WellFormed) : n.advance.WellFormed := by
  rw [Node.advance]
  split <;> exact { h with }

end WellFormed

theorem step_rejected (rnd : Rand) (n : Node) {m : Message} {req : AppendEntriesReq}
    (hbody : m.body = .appendEntries req)
    (hfails : appendRequestLastIndex req = none ∨
      n.log.matchesAt req.prevLogIndex req.prevLogTerm = false) :
    (n.step rnd (some m)).log = n.log ∧ (n.step rnd (some m)).unstableIndex = n.unstableIndex ∧
      (n.step rnd (some m)).commitIndex = n.commitIndex := by
  have hhandle (a : Node) (hlog : a.log = n.log) (hunstable : a.unstableIndex = n.unstableIndex)
      (hcommit : a.commitIndex = n.commitIndex) :
      (a.handle m).log = n.log ∧ (a.handle m).unstableIndex = n.unstableIndex ∧
        (a.handle m).commitIndex = n.commitIndex := by
    have hheed : a.heedLeader.log = n.log ∧ a.heedLeader.unstableIndex = n.unstableIndex ∧
        a.heedLeader.commitIndex = n.commitIndex := by
      rw [heedLeader]
      dsimp only
      split
      · exact ⟨hlog, hunstable, hcommit⟩
      · exact ⟨hlog, hunstable, hcommit⟩
    rw [handle, hbody]
    dsimp only
    rw [handleAppendEntries]
    cases hlast : appendRequestLastIndex req with
    | none => exact hheed
    | some last =>
      have hmatch : a.heedLeader.log.matchesAt req.prevLogIndex req.prevLogTerm = false := by
        rw [hheed.1]
        exact hfails.resolve_left (by simp [hlast])
      dsimp only
      rw [if_neg (by simp [hmatch])]
      exact hheed
  rw [step]
  split
  · refine hhandle _ ?_ ?_ ?_
    all_goals
      rw [becomeFollower]
      split <;> rfl
  · split
    · rw [rejectLowerTermRequest, hbody]
      exact ⟨rfl, rfl, rfl⟩
    · exact hhandle n rfl rfl rfl

end Node

/-! ### Calls -/

inductive NodeCall
  | tick (rnd : Rand)
  | step (rnd : Rand) (m : Option Message)
  | propose (data : Bytes)
  | ready
  | advance

def Node.call (n : Node) : NodeCall → Node
  | .tick rnd => n.tick rnd
  | .step rnd m => n.step rnd m
  | .propose data => (n.propose data).1
  | .ready => n.ready.2
  | .advance => n.advance

theorem Node.WellFormed.call {n : Node} (h : n.WellFormed) (c : NodeCall) :
    (n.call c).WellFormed := by
  cases c with
  | tick rnd => exact h.tick rnd
  | step rnd m => exact h.step rnd m
  | propose data => exact h.propose data
  | ready => exact { h with }
  | advance => exact h.advance

theorem newNode_wellFormed (cfg : Config) {init : InitialState} (rnd : Rand)
    (hsnapshot : init.snapshot.index = 0) (hentries : NumberedFrom 1 init.entries) :
    (newNode cfg init rnd).WellFormed :=
  ⟨⟨hsnapshot, hentries⟩, by simp [newNode, Node.resetElectionTimeout],
    by simp [newNode, Node.resetElectionTimeout], by simp [newNode, Node.resetElectionTimeout],
    by simp [newNode, Node.resetElectionTimeout], rfl⟩

theorem Node.WellFormed.calls {n : Node} (h : n.WellFormed) (calls : List NodeCall) :
    (calls.foldl Node.call n).WellFormed := by
  induction calls generalizing n with
  | nil => exact h
  | cons c calls ih => exact ih (h.call c)

/-- A node that started from the entries `1, 2, ..., n` stays well-formed. -/
theorem node_wellFormed (cfg : Config) (init : InitialState) (rnd : Rand)
    (hsnapshot : init.snapshot.index = 0) (hentries : NumberedFrom 1 init.entries)
    (calls : List NodeCall) :
    let n := calls.foldl Node.call (newNode cfg init rnd)
    NumberedFrom 1 n.log.entries ∧
    -- No map was written to while it was nil.
    n.panicked = false ∧
    (n.votes.isSome = true ↔ n.role = .candidate) ∧
    (n.nextIndex.isSome = true ↔ n.role = .leader) ∧
    (n.matchIndex.isSome = true ↔ n.role = .leader) ∧
    (n.inflight.isSome = true ↔ n.role = .leader) ∧
    -- The accesses of the log's methods stay in range.
    n.log.lastIndexAt = .ok n.log.lastIndex ∧
    (∀ index, n.log.entryAt index = .ok (n.log.entry index)) ∧
    (∀ lo hi, n.log.rangeEntriesAt lo hi = .ok (n.log.rangeEntries lo hi)) ∧
    (∀ index, n.log.truncateFromAt index = .ok (n.log.truncateFrom index)) ∧
    (∀ entries, n.log.appendFromLeaderAt entries entries.length 0 =
      .ok (n.log.appendFromLeader entries)) ∧
    -- A request that fails a check changes nothing that is stored.
    ∀ rnd m req, m.body = .appendEntries req →
      (appendRequestLastIndex req = none ∨
        n.log.matchesAt req.prevLogIndex req.prevLogTerm = false) →
      (n.step rnd (some m)).log = n.log ∧ (n.step rnd (some m)).unstableIndex = n.unstableIndex ∧
        (n.step rnd (some m)).commitIndex = n.commitIndex := by
  intro n
  have h : n.WellFormed := (newNode_wellFormed cfg rnd hsnapshot hentries).calls calls
  refine ⟨h.log.numbered, h.safe, h.votes, h.nextIndex, h.matchIndex, h.inflight,
    RaftLog.lastIndexAt_eq, RaftLog.entryAt_eq, fun lo hi => RaftLog.rangeLoopAt_eq lo (hi - lo),
    RaftLog.truncateFromAt_eq, ?_, ?_⟩
  · intro entries
    exact RaftLog.appendFromLeaderAt_eq (Nat.zero_add _)
  · intro rnd m req hbody hfails
    exact n.step_rejected rnd hbody hfails

/-- A leader of one entry, deposed by a request that overwrites it. -/
theorem node_wellFormed_deposed :
    let init : InitialState := ⟨⟨1, 0⟩, [⟨1, 1, .normal, [7]⟩], ⟨0, 0⟩⟩
    let overwrite : Message := ⟨2, 1, 9, .appendEntries ⟨9, 2, 0, 0, [some ⟨1, 9, .noop, []⟩], 1⟩⟩
    let calls : List NodeCall :=
      [.tick none, .step none none, .propose [3], .ready, .step none (some overwrite), .advance]
    let n := calls.foldl Node.call (newNode ⟨1, [1], 1, 1, 1⟩ init none)
    NumberedFrom 1 n.log.entries ∧ n.panicked = false ∧ n.nextIndex.isSome = false ∧
      n.log.entries.length = 1 := by
  intro init overwrite calls n
  have h := node_wellFormed ⟨1, [1], 1, 1, 1⟩ init none rfl ⟨rfl, trivial⟩ calls
  exact ⟨h.1, h.2.1, by decide, by decide⟩

end MiniQuorum.Raft
