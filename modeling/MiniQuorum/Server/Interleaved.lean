import MiniQuorum.Server.Session
import MiniQuorum.Server.Runs

/-! Nodes whose inputs may arrive at any time, also between a Ready and its Advance. -/

namespace MiniQuorum.Server

open Raft Storage

/-- A node with the last Ready since its last Advance.  `replaced` tells whether an input has
since then brought another entry for an index that this Ready reported.  `acknowledged` is the
storage that saves each acknowledged Ready, `delivered` lists their committed entries. -/
structure Driver where
  node : Node
  pending : Option Ready
  replaced : Bool
  acknowledged : MemStorage
  delivered : List Entry

inductive DriverEvent
  | input (input : LocalInput)
  | ready
  | advance

namespace Driver

def start (cfg : Config) (disk : MemStorage) (rnd : Rand) : Option Driver :=
  (newRecoveredNode cfg disk rnd).map fun node => ⟨node, none, false, disk, []⟩

def act (d : Driver) : DriverEvent → Option Driver
  | .input input => some { d with
      node := input.run d.node
      replaced := d.replaced || input.replacesUpTo d.node d.node.readyAck.stableTo }
  | .ready => some { d with
      node := d.node.ready.2
      pending := some d.node.ready.1
      replaced := false }
  | .advance => d.pending.map fun r =>
    { node := d.node.advance
      pending := none
      replaced := false
      acknowledged := d.acknowledged.save r.hardState r.entries
      delivered := d.delivered ++ r.committedEntries }

/-- The event does not acknowledge a Ready of which an entry was replaced. -/
def keeps (d : Driver) : DriverEvent → Bool
  | .advance => !d.replaced
  | _ => true

def RunKept : Driver → Driver → Prop :=
  Relation.ReflTransGen fun d d' => ∃ e, d.act e = some d' ∧ d.keeps e = true

def execKept (d : Driver) : List DriverEvent → Option Driver
  | [] => some d
  | e :: es => if d.keeps e then (d.act e).bind fun d' => d'.execKept es else none

theorem execKept_run {d d' : Driver} {es : List DriverEvent} (h : d.execKept es = some d') :
    RunKept d d' := by
  induction es generalizing d with
  | nil =>
    cases h
    exact .refl
  | cons e es ih =>
    rw [execKept] at h
    split at h
    · rename_i hkept
      obtain ⟨d₁, hd₁, hrest⟩ := Option.bind_eq_some_iff.mp h
      exact .head ⟨e, hd₁, hkept⟩ (ih hrest)
    · cases h

end Driver

/-- A member of an interleaved cluster.  `saved` tells whether its pending Ready is on disk. -/
structure Member where
  driver : Driver
  saved : Bool

structure Interleaving where
  members : NodeID → Option Member
  disks : NodeID → MemStorage
  network : List Message

inductive Interleaving.Action
  | event (n : NodeID) (e : DriverEvent)
  | save (n : NodeID)
  | send (n : NodeID) (m : Message)
  | crash (n : NodeID)
  | recover (n : NodeID) (rnd : Rand)

namespace Interleaving

def init : Interleaving where
  members _ := none
  disks _ := MemStorage.empty
  network := []

def setMember (c : Interleaving) (n : NodeID) (h : Option Member) : Interleaving :=
  { c with members := Function.update c.members n h }

def allows (c : Interleaving) (n : NodeID) (h : Member) : DriverEvent → Bool
  | .input (.step (some m) _) => m ∈ c.network ∧ m.toID = n
  | .advance => h.saved
  | _ => true

def savedAfter (h : Member) : DriverEvent → Bool
  | .input _ => h.saved
  | _ => false

def act (g : Group) (c : Interleaving) : Action → Option Interleaving
  | .event n e =>
    match c.members n with
    | some h =>
      if c.allows n h e then
        (h.driver.act e).map fun d => c.setMember n (some ⟨d, savedAfter h e⟩)
      else none
    | none => none
  | .save n =>
    match c.members n with
    | some ⟨d, false⟩ => d.pending.map fun r =>
      { c.setMember n (some ⟨d, true⟩) with
        disks := Function.update c.disks n ((c.disks n).save r.hardState r.entries) }
    | _ => none
  | .send n m =>
    match c.members n with
    | some ⟨d, true⟩ =>
      if d.pending.any (fun r => m ∈ r.messages) then some { c with network := m :: c.network }
      else none
    | _ => none
  | .crash n =>
    match c.members n with
    | some _ => some (c.setMember n none)
    | none => none
  | .recover n rnd =>
    match c.members n with
    | some _ => none
    | none =>
      if n ∈ g.peers then
        (Driver.start (g.config n) (c.disks n) rnd).map fun d => c.setMember n (some ⟨d, false⟩)
      else none

def Run (g : Group) : Interleaving → Interleaving → Prop :=
  Relation.ReflTransGen fun c c' => ∃ a, c.act g a = some c'

def exec (g : Group) (c : Interleaving) (as : List Action) : Option Interleaving :=
  as.foldlM (act g) c

theorem exec_run {g : Group} {c c' : Interleaving} {as : List Action}
    (h : c.exec g as = some c') : Run g c c' := by
  induction as generalizing c with
  | nil =>
    cases h
    exact .refl
  | cons a as ih =>
    obtain ⟨d, hd, hrest⟩ := Option.bind_eq_some_iff.mp h
    exact .head ⟨a, hd⟩ (ih hrest)

end Interleaving

section Acknowledged

variable {a b : Node} {disk : MemStorage}

theorem Behind.self (h : Behind disk a) : Behind ⟨a.hardState, a.log.entries⟩ a where
  contiguous := h.contiguous
  numbered := h.contiguous.numbered
  hard _ := rfl
  log := by
    obtain ⟨k, hk, hu⟩ := h.unstable
    exact ⟨k, hk, hu, rfl, hk.eq_or_lt⟩

theorem Behind.captureReady (h : Behind disk a) (r : Ready) : Behind disk (a.captureReady r) :=
  { h with }

theorem ready_stableTo (h : a.log.Contiguous) {k : Nat} (hk : k ≤ a.log.entries.length)
    (hu : a.unstableIndex = k + 1) :
    (a.ready.2.readyAck.entries = false ∧ k = a.log.entries.length) ∨
      (a.ready.2.readyAck.entries = true ∧ k < a.log.entries.length ∧
        a.ready.2.readyAck.stableTo = a.log.entries.length) := by
  have hentries : a.ready.2.readyAck.entries = !(a.log.entries.drop k).isEmpty := by
    rw [← ready_entries h hu]
    rfl
  have hstable : a.ready.2.readyAck.stableTo =
      ((a.log.entries.drop k).getLast?.map Entry.index).getD 0 := by
    rw [← ready_entries h hu]
    rfl
  rw [hentries, hstable]
  rcases hk.lt_or_eq with hlt | rfl
  · refine .inr ⟨?_, hlt, getLast_drop h.numbered hlt⟩
    simpa using hlt
  · refine .inl ⟨?_, rfl⟩
    simp

theorem advance_of_valid (h : b.readyAck.valid = true) :
    b.advance = { b with
      hardStateDirty :=
        if b.readyAck.hardState && b.hardStateDirty && b.hardState == b.readyAck.hard then false
        else b.hardStateDirty
      messages :=
        if b.readyAck.messageCount ≥ b.messages.length then []
        else b.messages.drop b.readyAck.messageCount
      unstableIndex :=
        if b.readyAck.entries && b.unstableIndex ≤ b.readyAck.stableTo then b.readyAck.stableTo + 1
        else b.unstableIndex
      lastApplied :=
        if b.readyAck.committed && b.readyAck.appliedTo > b.lastApplied then b.readyAck.appliedTo
        else b.lastApplied
      readyAck := ReadyAck.zero } := by
  rw [Node.advance, if_pos h]

theorem Writes.unstableIndex_le {j : Nat} (h : Writes j a b) : b.unstableIndex ≤ a.unstableIndex := by
  rcases h.log with ⟨_, hu⟩ | ⟨k, _, _, _, hu⟩
  · exact hu.le
  · rw [hu]
    exact min_le_left _ _

theorem Behind.advance (ha : Behind disk a)
    (hw : Writes a.ready.2.readyAck.stableTo a.ready.2 b) :
    Behind ⟨a.hardState, a.log.entries⟩ b.advance := by
  obtain ⟨k, hk, hu⟩ := ha.unstable
  have hb : Behind ⟨a.hardState, a.log.entries⟩ b := hw.behind (ha.self.captureReady _)
  have hack : b.readyAck = a.ready.2.readyAck := hw.readyAck
  rw [advance_of_valid (by rw [hack]; rfl)]
  refine ⟨hb.contiguous, hb.numbered, fun hd => ?_, ?_⟩
  · simp only at hd
    split at hd
    · rename_i hsame
      simp only [Bool.and_eq_true, beq_iff_eq] at hsame
      obtain ⟨⟨hreported, _⟩, heq⟩ := hsame
      rw [hack] at heq hreported
      have hdirty : a.hardStateDirty = true := by
        by_contra hd
        rw [show a.ready.2.readyAck.hardState =
          (if a.hardStateDirty then some a.hardState else none).isSome from rfl, if_neg hd] at hreported
        cases hreported
      rw [show a.ready.2.readyAck.hard =
        (if a.hardStateDirty then some a.hardState else none).getD ⟨0, 0⟩ from rfl,
        if_pos hdirty] at heq
      exact heq
    · exact hb.hard hd
  · rcases ready_stableTo ha.contiguous hk hu with ⟨hnone, _⟩ | ⟨hsome, hlt, hstable⟩
    · simp only [hack, hnone, Bool.false_and, if_neg Bool.false_ne_true]
      exact hb.log
    · have hle : b.unstableIndex ≤ k + 1 := hu ▸ hw.unstableIndex_le
      refine ⟨a.log.entries.length, le_rfl, ?_, ?_, .inl rfl⟩
      · simp only [hack, hsome, hstable, Bool.true_and]
        rw [if_pos (decide_eq_true (by omega))]
      · have hkeep := hw.keep
        rw [hstable, show a.ready.2.log = a.log from rfl, List.take_length] at hkeep
        rw [List.take_length]
        exact (List.prefix_iff_eq_take.mp hkeep).symm

namespace Driver

variable {d d' : Driver}

/-- The acknowledged storage lacks only what the next Ready reports.  A Ready that is still
pending was taken at a node `a`, of which the inputs since then have made the node. -/
structure Inv (d : Driver) : Prop where
  behind : Behind d.acknowledged d.node
  idle : d.pending = none → d.node.readyAck = ReadyAck.zero
  reported : ∀ r, d.pending = some r → ∃ a, Behind d.acknowledged a ∧ a.ready.1 = r ∧
    d.node.readyAck = a.ready.2.readyAck ∧
    (d.replaced = false → Writes a.ready.2.readyAck.stableTo a.ready.2 d.node)

theorem Inv.start {cfg : Config} {rnd : Rand} (hnum : NumberedFrom 1 disk.entries)
    (h : Driver.start cfg disk rnd = some d) : d.Inv := by
  obtain ⟨node, hnode, rfl⟩ := Option.map_eq_some_iff.mp h
  cases newRecoveredNode_eq hnum hnode
  have hlog : RaftLog.Contiguous (newRaftLog ⟨0, 0⟩ disk.entries) := ⟨rfl, hnum⟩
  refine ⟨⟨hlog, hnum, fun _ => rfl, ?_⟩, fun _ => rfl, by rintro r ⟨⟩⟩
  exact ⟨_, le_rfl, congrArg (· + 1) hlog.lastIndex, rfl, .inl rfl⟩

theorem Inv.act (h : d.Inv) {e : DriverEvent} (hkept : d.keeps e = true)
    (hd' : d.act e = some d') : d'.Inv := by
  cases e with
  | input input =>
    cases hd'
    have hw : Writes 0 d.node (input.run d.node) :=
      LocalInput.writes h.behind.contiguous (input.replacesUpTo_zero d.node)
    refine ⟨hw.behind h.behind, fun hp => hw.readyAck.trans (h.idle hp), fun r hr => ?_⟩
    obtain ⟨a, ha, hready, hack, hwrites⟩ := h.reported r hr
    refine ⟨a, ha, hready, hw.readyAck.trans hack, fun hnone => ?_⟩
    obtain ⟨hbefore, hinput⟩ := Bool.or_eq_false_iff.mp hnone
    rw [hack] at hinput
    exact (hwrites hbefore).trans (LocalInput.writes h.behind.contiguous hinput)
  | ready =>
    cases hd'
    refine ⟨h.behind.captureReady _, by rintro ⟨⟩, ?_⟩
    rintro r ⟨⟩
    exact ⟨d.node, h.behind, rfl, rfl, fun _ => Writes.refl _ h.behind.contiguous⟩
  | advance =>
    obtain ⟨r, hr, rfl⟩ := Option.map_eq_some_iff.mp hd'
    obtain ⟨a, ha, rfl, _, hwrites⟩ := h.reported r hr
    refine ⟨?_, fun _ => rfl, by rintro r ⟨⟩⟩
    show Behind (d.acknowledged.save a.readyWithoutCapture.hardState
      a.readyWithoutCapture.entries) d.node.advance
    rw [ha.save_eq]
    exact ha.advance (hwrites (Bool.not_eq_true' _ |>.mp hkept))

theorem Inv.run (h : d.Inv) (hrun : RunKept d d') : d'.Inv := by
  induction hrun with
  | refl => exact h
  | tail _ hstep ih =>
    obtain ⟨e, he, hkept⟩ := hstep
    exact ih.act hkept he

end Driver

/-- As long as nothing that a Ready reported is replaced before its Advance, the acknowledged
storage agrees with the log below `unstableIndex`, and every other entry is reported next. -/
theorem advance_acknowledges_reported {cfg : Config} {disk : MemStorage} {rnd : Rand}
    {d d' : Driver} (hnum : NumberedFrom 1 disk.entries) (hstart : Driver.start cfg disk rnd = some d)
    (hrun : Driver.RunKept d d') :
    (∀ i, i + 1 < d'.node.unstableIndex → d'.acknowledged.entries[i]? = d'.node.log.entries[i]?) ∧
    d'.node.unstableIndex ≤ d'.node.log.lastIndex + 1 ∧
    ∀ e ∈ d'.node.log.entries, e ∈ d'.acknowledged.entries ∨ e ∈ d'.node.ready.1.entries := by
  have h := ((Driver.Inv.start hnum hstart).run hrun).behind
  obtain ⟨k, hk, hu, htake, _⟩ := h.log
  obtain ⟨k', hk', hu'⟩ := h.unstable
  refine ⟨fun i hi => ?_, ?_, fun e he => ?_⟩
  · rw [hu, Nat.add_lt_add_iff_right] at hi
    rw [← List.getElem?_take_of_lt hi, ← htake, List.getElem?_take_of_lt hi]
  · rw [h.contiguous.lastIndex, hu']
    exact Nat.succ_le_succ hk'
  · rw [← List.take_append_drop k d'.node.log.entries] at he
    rcases List.mem_append.mp he with he | he
    · left
      rw [htake] at he
      exact List.mem_of_mem_take he
    · right
      rwa [← ready_entries h.contiguous hu] at he

/-- A conflicting append, its report, an append that replaces it and is reported instead,
another append, and only then the Advance. -/
def appendBeforeAdvance : List DriverEvent :=
  [.input (.step (some (appendRequest 2 1 2 0 0 [noopEntry 1 2] 0)) none), .ready,
    .input (.step (some (appendRequest 3 1 3 0 0 [noopEntry 1 3] 0)) none), .ready,
    .input (.step (some (appendRequest 3 1 3 1 3 [noopEntry 2 3] 0)) none), .advance]

def afterAppend : Option Driver :=
  (Driver.start voter longStorage none).bind fun d => d.execKept appendBeforeAdvance

theorem advance_acknowledges_reported_appended :
    ∃ d d', Driver.start voter longStorage none = some d ∧ Driver.RunKept d d' ∧
      d'.node.unstableIndex = 2 ∧ d'.acknowledged.entries = [noopEntry 1 3] ∧
      ∀ e ∈ d'.node.log.entries, e ∈ d'.acknowledged.entries ∨ e ∈ d'.node.ready.1.entries := by
  have hsome : afterAppend = some (afterAppend.get (by decide +kernel)) := (Option.some_get _).symm
  obtain ⟨d, hstart, hexec⟩ := Option.bind_eq_some_iff.mp hsome
  have hrun := Driver.execKept_run hexec
  refine ⟨d, _, hstart, hrun, by decide +kernel, by decide +kernel, ?_⟩
  exact (advance_acknowledges_reported
    (show NumberedFrom 1 longStorage.entries from ⟨rfl, rfl, trivial⟩) hstart hrun).2.2

def settle (n : NodeID) (ms : List Message) : List Interleaving.Action :=
  [.event n .ready, .save n] ++ ms.map (.send n) ++ [.event n .advance]

def tickOf (n : NodeID) : Interleaving.Action := .event n (.input (.tick none))

def deliver (n : NodeID) (m : Message) : Interleaving.Action :=
  .event n (.input (.step (some m) none))

def twoTerms : List Interleaving.Action :=
  [.recover 1 none, .recover 2 none, .recover 3 none] ++
  [tickOf 1] ++ settle 1 [voteRequest 1 2 1 0 0] ++
  [deliver 2 (voteRequest 1 2 1 0 0)] ++ settle 2 [voteGrant 2 1 1] ++
  [deliver 1 (voteGrant 2 1 1), .event 1 (.input (.propose [7]))] ++
  [tickOf 3, tickOf 3] ++ settle 3 [voteRequest 3 2 2 0 0] ++
  [deliver 2 (voteRequest 3 2 2 0 0)] ++ settle 2 [voteGrant 2 3 2] ++
  [deliver 3 (voteGrant 2 3 2)] ++ settle 3 [appendRequest 3 1 2 0 0 [] 0]

def replacedBeforeAdvance : List Interleaving.Action :=
  [deliver 1 (appendRequest 3 1 2 0 0 [] 0), .event 1 .ready, .save 1,
    .send 1 (appendSuccess 1 3 2 0), deliver 3 (appendSuccess 1 3 2 0)] ++
  settle 3 [appendRequest 3 1 2 0 0 [noopEntry 1 2] 0] ++
  [deliver 1 (appendRequest 3 1 2 0 0 [noopEntry 1 2] 0), .event 1 .advance]

/-- The log's only entry counts as stable, but no Ready has reported it or ever will. -/
theorem advance_drops_unreported : ∃ c h, Interleaving.Run three Interleaving.init c ∧
    c.members 1 = some h ∧ h.driver.node.log.entries = [noopEntry 1 2] ∧
    h.driver.node.unstableIndex = 3 ∧ noopEntry 1 2 ∉ h.driver.acknowledged.entries ∧
    noopEntry 1 2 ∉ h.driver.node.ready.1.entries := by
  have hexec : Interleaving.init.exec three (twoTerms ++ replacedBeforeAdvance) =
      some ((Interleaving.init.exec three (twoTerms ++ replacedBeforeAdvance)).get
        (by decide +kernel)) := (Option.some_get _).symm
  refine ⟨_, (Interleaving.members _ 1).get (by decide +kernel), Interleaving.exec_run hexec,
    (Option.some_get _).symm, ?_⟩
  decide +kernel

end Acknowledged

end MiniQuorum.Server
