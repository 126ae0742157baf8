import Mathlib.Data.List.Sort
import MiniQuorum.Program.Draws
import MiniQuorum.Sim.FaultSchedule

/-! The generator of fault schedules.  A schedule's stateful faults are drawn as pairs that open
and close, and are laid out one behind the other. -/

namespace MiniQuorum.Sim

open Program Program.Draw Raft

/-! ### The generator -/

def randVirtualTime (horizon : VirtualTime) : Draw VirtualTime :=
  if horizon ≤ 0 then return 0
  else do
    let t ← intn horizon.toNat
    return t

def randTimePair (horizon : VirtualTime) : Draw (VirtualTime × VirtualTime) := do
  let t1 ← randVirtualTime horizon
  let remaining := horizon - t1 - 1
  if remaining ≤ 0 then return (t1, t1)
  else do
    let t ← intn remaining.toNat
    return (t1, t1 + 1 + t)

def randomDistinctPair (order : List NodeID) : Draw (NodeID × NodeID) := do
  let i ← intn order.length
  let j ← intn (order.length - 1)
  let j := if j ≥ i then j + 1 else j
  return (← elementAt order i, ← elementAt order j)

def randomGroupSplit (order : List NodeID) : Draw (List (List NodeID)) := do
  let shuffled ← shuffle order
  let split ← intn (shuffled.length - 1)
  let split := 1 + split
  return [shuffled.take split, shuffled.drop split]

inductive PairKind
  | pauseResume | partitionHeal | groupsHealGroups | crashRestart
  deriving DecidableEq, Repr

def pairKinds (order : List NodeID) : List PairKind :=
  [.pauseResume, .crashRestart] ++
    if order.length ≥ 2 then [.partitionHeal, .groupsHealGroups] else []

def randomPair (order : List NodeID) (horizon : VirtualTime) : Draw (FaultEvent × FaultEvent) := do
  let (t1, t2) ← randTimePair horizon
  match ← pick (pairKinds order) with
  | .pauseResume => do
    let node ← pick order
    return (⟨t1, .pause node⟩, ⟨t2, .resume node⟩)
  | .partitionHeal => do
    let (source, dest) ← randomDistinctPair order
    return (⟨t1, .partition source dest⟩, ⟨t2, .heal source dest⟩)
  | .groupsHealGroups => do
    let groups ← randomGroupSplit order
    return (⟨t1, .partitionGroups groups⟩, ⟨t2, .healGroups groups⟩)
  | .crashRestart => do
    let node ← pick order
    return (⟨t1, .crash node⟩, ⟨t2, .restart node⟩)

def assignTimes : List (FaultEvent × FaultEvent) → List VirtualTime → List (FaultEvent × FaultEvent)
  | pair :: pairs, first :: second :: times =>
    ({ pair.1 with time := first }, { pair.2 with time := second }) :: assignTimes pairs times
  | _, _ => []

def normalizeFaultPairTimes (pairs : List (FaultEvent × FaultEvent)) :
    List (FaultEvent × FaultEvent) :=
  assignTimes pairs
    ((pairs.flatMap fun pair => [pair.1.time, pair.2.time]).insertionSort (· ≤ ·))

def unpaired (pairs : List (FaultEvent × FaultEvent)) : List FaultEvent :=
  pairs.flatMap fun pair => [pair.1, pair.2]

inductive SoloKind
  | dropRate | duplicateRate | clockSkew
  deriving DecidableEq, Repr

def soloKinds : List SoloKind := [.dropRate, .duplicateRate, .clockSkew]

def randomSolo (fma : Float → Float → Float → Float) (order : List NodeID) (horizon : VirtualTime) :
    Draw FaultEvent := do
  let kind ← pick soloKinds
  let time ← randVirtualTime horizon
  match kind with
  | .dropRate => do
    let rate ← float64
    return ⟨time, .dropRate (rate * 0.3)⟩
  | .duplicateRate => do
    let rate ← float64
    return ⟨time, .duplicateRate (rate * 0.3)⟩
  | .clockSkew => do
    let node ← pick order
    let x ← float64
    return ⟨time, .clockSkew node
      (fma x (maxClockMultiplier - minClockMultiplier) minClockMultiplier)⟩

def maxGeneratedPartialRetention : Nat := 24

def generatedUnsyncedRetention (point : CrashPoint) : Draw Retain :=
  if point ≠ .beforeSync then return none
  else do
    match ← intn 3 with
    | 0 => return some 0
    | 1 => do
      let extra ← intn maxGeneratedPartialRetention
      return some (1 + extra)
    | _ => return none

def crashPoints : List CrashPoint := [.beforeSync, .afterSyncBeforeSend, .afterSend]

def randomCrash (order : List NodeID) (i : Nat) : Draw CrashDirective := do
  let node ← elementAt order (i % order.length)
  let save ← intn 20
  let point ← pick crashPoints
  let retainUnsynced ← generatedUnsyncedRetention point
  return ⟨node, 5 + i * 25 + save, point, retainUnsynced, true⟩

def pairCount : Nat := 6

def soloCount : Nat := 6

def crashCount : Nat := 2

def recoveryTail (order : List NodeID) (horizon : VirtualTime) : List FaultEvent :=
  [⟨horizon, .dropRate 0⟩, ⟨horizon, .duplicateRate 0⟩] ++
    order.map fun node => ⟨horizon, .clockSkew node 1⟩

def generateFaultSchedule (fma : Float → Float → Float → Float) (nodeIDs : List NodeID)
    (horizon : VirtualTime) : Draw (Except String FaultSchedule) :=
  if nodeIDs = [] then
    return .error "sim: GenerateFaultSchedule: nodeIDs must not be empty"
  else do
    let pairs ← times pairCount (randomPair nodeIDs horizon)
    let solos ← times soloCount (randomSolo fma nodeIDs horizon)
    let crashes ← (List.range crashCount).mapM (randomCrash nodeIDs)
    return .ok {
      version := faultScheduleGeneratorVersion
      crashes := crashes
      events := sortFaultEvents
        (unpaired (normalizeFaultPairTimes pairs) ++ solos ++ recoveryTail nodeIDs horizon)
      lsmCrashes := [] }

/-! ### What a schedule looks like -/

def Fault.undo : Fault → Option Fault
  | .pause node => some (.resume node)
  | .partition source dest => some (.heal source dest)
  | .partitionGroups groups => some (.healGroups groups)
  | .crash node => some (.restart node)
  | _ => none

def Fault.stateful : Fault → Bool
  | .pause _ | .resume _ | .partition _ _ | .heal _ _ => true
  | .partitionGroups _ | .healGroups _ | .crash _ | .restart _ => true
  | _ => false

/-- The faults in their order, while the first argument is open: one opens only if none is
open, and the next one undoes it. -/
def Alternates : Option Fault → List Fault → Prop
  | none, [] => True
  | some _, [] => False
  | none, fault :: rest => fault.undo.isSome ∧ Alternates (some fault) rest
  | some opened, fault :: rest => opened.undo = some fault ∧ Alternates none rest

def Fault.SplitsAll (nodeIDs : List NodeID) (fault : Fault) : Prop :=
  ∀ groups, fault = .partitionGroups groups ∨ fault = .healGroups groups →
    ∃ left right, groups = [left, right] ∧ left ≠ [] ∧ right ≠ [] ∧ left.Disjoint right ∧
      ∀ node, node ∈ left ∨ node ∈ right ↔ node ∈ nodeIDs

def FaultEvent.Within (horizon : VirtualTime) (e : FaultEvent) : Prop :=
  0 ≤ e.time ∧ e.time ≤ horizon

structure Matched (nodeIDs : List NodeID) (horizon : VirtualTime) (pair : FaultEvent × FaultEvent) :
    Prop where
  undo : pair.1.fault.undo = some pair.2.fault
  stateful : pair.1.fault.stateful = true ∧ pair.2.fault.stateful = true
  groups : pair.1.fault.SplitsAll nodeIDs ∧ pair.2.fault.SplitsAll nodeIDs
  within : pair.1.Within horizon ∧ pair.2.Within horizon

section Draws

variable {nodeIDs : List NodeID} {horizon : VirtualTime}

theorem always_randVirtualTime (h : 0 ≤ horizon) :
    Always (randVirtualTime horizon) fun t => 0 ≤ t ∧ t ≤ horizon := by
  refine .ite (fun _ => .pure ⟨le_rfl, h⟩) fun hpos => ?_
  have hn : 0 < horizon.toNat := Int.lt_toNat.2 (not_le.1 hpos)
  refine (always_intn hn).bind fun t ht => .pure ?_
  exact ⟨Int.natCast_nonneg t, (Int.lt_toNat.1 ht).le⟩

theorem always_randTimePair (h : 0 ≤ horizon) : Always (randTimePair horizon) fun t =>
    (0 ≤ t.1 ∧ t.1 ≤ horizon) ∧ 0 ≤ t.2 ∧ t.2 ≤ horizon := by
  refine (always_randVirtualTime h).bind fun t1 ht1 => ?_
  obtain ⟨hlow, hhigh⟩ := ht1
  refine .ite (fun _ => .pure ⟨⟨hlow, hhigh⟩, hlow, hhigh⟩) fun hpos => ?_
  have hn : 0 < (horizon - t1 - 1).toNat := Int.lt_toNat.2 (not_le.1 hpos)
  refine (always_intn hn).bind fun t ht => .pure ⟨⟨hlow, hhigh⟩, ?_⟩
  have hroom (a b c : Int) (hc : c < b - a - 1) : a + 1 + c ≤ b := by omega
  exact ⟨Int.add_nonneg (Int.add_nonneg hlow (by decide)) (Int.natCast_nonneg t),
    hroom t1 horizon t (Int.lt_toNat.1 ht)⟩

theorem always_randomGroupSplit (hlen : 2 ≤ nodeIDs.length) (hdistinct : nodeIDs.Nodup) :
    Always (randomGroupSplit nodeIDs) fun groups => (Fault.partitionGroups groups).SplitsAll nodeIDs ∧
      (Fault.healGroups groups).SplitsAll nodeIDs := by
  refine (always_shuffle nodeIDs).bind fun shuffled hperm => ?_
  have hlength := hperm.length_eq
  refine (always_intn (by omega)).bind fun split hsplit => .pure ?_
  have hgroups : ∃ left right, [shuffled.take (1 + split), shuffled.drop (1 + split)] = [left, right] ∧
      left ≠ [] ∧ right ≠ [] ∧ left.Disjoint right ∧
      ∀ node, node ∈ left ∨ node ∈ right ↔ node ∈ nodeIDs := by
    refine ⟨_, _, rfl, ?_, ?_, ?_, ?_⟩
    · rw [← List.length_pos_iff, List.length_take]
      omega
    · rw [← List.length_pos_iff, List.length_drop]
      omega
    · exact List.disjoint_take_drop (hperm.nodup_iff.2 hdistinct) le_rfl
    · intro node
      rw [← List.mem_append, List.take_append_drop, hperm.mem_iff]
  constructor
  · rintro groups (heq | heq)
    · cases heq
      exact hgroups
    · cases heq
  · rintro groups (heq | heq)
    · cases heq
    · cases heq
      exact hgroups

theorem Fault.splitsAll_of_ne {fault : Fault} (h : ∀ groups, fault ≠ .partitionGroups groups)
    (h' : ∀ groups, fault ≠ .healGroups groups) : fault.SplitsAll nodeIDs := by
  rintro groups (heq | heq)
  · exact absurd heq (h groups)
  · exact absurd heq (h' groups)

theorem always_randomDistinctPair (hlen : 2 ≤ nodeIDs.length) :
    Always (randomDistinctPair nodeIDs) fun _ => True := by
  refine (always_intn (show 0 < nodeIDs.length by omega)).bind fun i hi => ?_
  refine (always_intn (show 0 < nodeIDs.length - 1 by omega)).bind fun j hj => ?_
  have hj' : (if j ≥ i then j + 1 else j) < nodeIDs.length := by
    have : j < nodeIDs.length - 1 := hj
    split <;> omega
  exact (always_elementAt hi).bind fun _ _ => (always_elementAt hj').bind fun _ _ => .pure trivial

theorem always_randomPair (hne : nodeIDs ≠ []) (hdistinct : nodeIDs.Nodup) (h : 0 ≤ horizon) :
    Always (randomPair nodeIDs horizon) (Matched nodeIDs horizon) := by
  refine (always_randTimePair h).bind ?_
  rintro ⟨t1, t2⟩ hwithin
  refine (always_pick (show pairKinds nodeIDs ≠ [] by simp [pairKinds])).bind fun kind hkind => ?_
  have hlen (hpartition : kind = .partitionHeal ∨ kind = .groupsHealGroups) :
      2 ≤ nodeIDs.length := by
    by_contra hshort
    rcases hpartition with rfl | rfl
    · simp [pairKinds, hshort] at hkind
    · simp [pairKinds, hshort] at hkind
  cases kind with
  | pauseResume =>
    refine (always_pick hne).bind fun node _ => .pure ⟨rfl, ⟨rfl, rfl⟩, ⟨?_, ?_⟩, hwithin⟩
    · exact Fault.splitsAll_of_ne nofun nofun
    · exact Fault.splitsAll_of_ne nofun nofun
  | partitionHeal =>
    refine (always_randomDistinctPair (hlen (.inl rfl))).bind ?_
    rintro ⟨source, dest⟩ -
    refine .pure ⟨rfl, ⟨rfl, rfl⟩, ⟨?_, ?_⟩, hwithin⟩
    · exact Fault.splitsAll_of_ne nofun nofun
    · exact Fault.splitsAll_of_ne nofun nofun
  | groupsHealGroups =>
    exact (always_randomGroupSplit (hlen (.inr rfl)) hdistinct).bind fun groups hgroups =>
      .pure ⟨rfl, ⟨rfl, rfl⟩, hgroups, hwithin⟩
  | crashRestart =>
    refine (always_pick hne).bind fun node _ => .pure ⟨rfl, ⟨rfl, rfl⟩, ⟨?_, ?_⟩, hwithin⟩
    · exact Fault.splitsAll_of_ne nofun nofun
    · exact Fault.splitsAll_of_ne nofun nofun

theorem always_randomSolo (fma : Float → Float → Float → Float) (hne : nodeIDs ≠ [])
    (h : 0 ≤ horizon) : Always (randomSolo fma nodeIDs horizon) fun e =>
      e.Within horizon ∧ e.fault.stateful = false := by
  refine (always_pick (show soloKinds ≠ [] by decide)).bind fun kind _ =>
    (always_randVirtualTime h).bind fun time htime => ?_
  cases kind with
  | dropRate => exact always_float64.bind fun _ _ => .pure ⟨htime, rfl⟩
  | duplicateRate => exact always_float64.bind fun _ _ => .pure ⟨htime, rfl⟩
  | clockSkew =>
    exact (always_pick hne).bind fun _ _ => always_float64.bind fun _ _ => .pure ⟨htime, rfl⟩

theorem always_generatedUnsyncedRetention (point : CrashPoint) :
    Always (generatedUnsyncedRetention point) fun _ => True := by
  refine .ite (fun _ => .pure trivial) fun _ => (always_intn (by decide)).bind fun n _ => ?_
  match n with
  | 0 => exact .pure trivial
  | 1 => exact (always_intn (by decide)).bind fun _ _ => .pure trivial
  | _ + 2 => exact .pure trivial

theorem always_randomCrash (hne : nodeIDs ≠ []) (i : Nat) :
    Always (randomCrash nodeIDs i) fun d =>
      5 + i * 25 ≤ d.save ∧ d.save < 5 + i * 25 + 20 ∧ d.point ≠ .hostInitiated := by
  refine (always_elementAt (Nat.mod_lt i (List.length_pos_iff.2 hne))).bind fun node _ =>
    (always_intn (show 0 < 20 by decide)).bind fun save hsave =>
    (always_pick (show crashPoints ≠ [] by decide)).bind fun point hpoint =>
    (always_generatedUnsyncedRetention point).bind fun _ _ => .pure ⟨Nat.le_add_right _ _, ?_, ?_⟩
  · exact Nat.add_lt_add_left hsave _
  · rintro rfl
    exact absurd hpoint (by decide)

end Draws

/-! ### The layout of the pairs -/

section Layout

variable {nodeIDs : List NodeID} {horizon : VirtualTime} {pairs : List (FaultEvent × FaultEvent)}
  {times : List VirtualTime}

theorem assignTimes_spec (h : times.length = 2 * pairs.length) :
    (unpaired (assignTimes pairs times)).map FaultEvent.time = times ∧
      (unpaired (assignTimes pairs times)).map FaultEvent.fault =
        (unpaired pairs).map FaultEvent.fault := by
  induction pairs generalizing times with
  | nil => exact ⟨(List.length_eq_zero_iff.1 h).symm, rfl⟩
  | cons pair pairs ih =>
    match times, h with
    | first :: second :: times, h =>
      have hlength : times.length = 2 * pairs.length := by
        simp only [List.length_cons] at h
        omega
      have htail := ih hlength
      simp only [unpaired] at htail
      simp [unpaired, assignTimes, htail]
    | [_], h =>
      simp only [List.length_cons, List.length_nil] at h
      omega
    | [], h =>
      simp only [List.length_cons, List.length_nil] at h
      omega

theorem length_times (pairs : List (FaultEvent × FaultEvent)) :
    (pairs.flatMap fun pair => [pair.1.time, pair.2.time]).length = 2 * pairs.length := by
  induction pairs with
  | nil => rfl
  | cons pair pairs ih =>
    rw [List.flatMap_cons, List.length_append, ih, List.length_cons, List.length_cons,
      List.length_cons, List.length_nil]
    omega

theorem mem_unpaired {e : FaultEvent} : e ∈ unpaired pairs ↔ ∃ pair ∈ pairs, e = pair.1 ∨ e = pair.2 := by
  simp [unpaired, List.mem_flatMap]

theorem normalizeFaultPairTimes_spec (hpairs : ∀ pair ∈ pairs, Matched nodeIDs horizon pair) :
    (unpaired (normalizeFaultPairTimes pairs)).Pairwise (·.time ≤ ·.time) ∧
      (∀ e ∈ unpaired (normalizeFaultPairTimes pairs), e.Within horizon ∧
        e.fault.stateful = true ∧ e.fault.SplitsAll nodeIDs) ∧
      (unpaired (normalizeFaultPairTimes pairs)).map FaultEvent.fault =
        (unpaired pairs).map FaultEvent.fault := by
  have hlength : ((pairs.flatMap fun pair => [pair.1.time, pair.2.time]).insertionSort
      (· ≤ ·)).length = 2 * pairs.length := by
    rw [List.length_insertionSort, length_times]
  obtain ⟨htimes, hfaults⟩ := assignTimes_spec hlength
  rw [← normalizeFaultPairTimes] at htimes hfaults
  refine ⟨?_, ?_, hfaults⟩
  · rw [← List.pairwise_map (f := FaultEvent.time) (R := (· ≤ ·)), htimes]
    exact List.pairwise_insertionSort (· ≤ ·) _
  · intro e he
    refine ⟨?_, ?_⟩
    · have hmem := List.mem_map_of_mem (f := FaultEvent.time) he
      rw [htimes, List.mem_insertionSort, List.mem_flatMap] at hmem
      obtain ⟨pair, hpair, htime⟩ := hmem
      have hwithin := (hpairs pair hpair).within
      rcases List.mem_cons.1 htime with heq | heq
      · rw [FaultEvent.Within, heq]
        exact hwithin.1
      · rw [FaultEvent.Within, List.mem_singleton.1 heq]
        exact hwithin.2
    · have hmem := List.mem_map_of_mem (f := FaultEvent.fault) he
      rw [hfaults] at hmem
      obtain ⟨e', he', heq⟩ := List.mem_map.1 hmem
      rw [← heq]
      obtain ⟨pair, hpair, rfl | rfl⟩ := mem_unpaired.1 he'
      · exact ⟨(hpairs pair hpair).stateful.1, (hpairs pair hpair).groups.1⟩
      · exact ⟨(hpairs pair hpair).stateful.2, (hpairs pair hpair).groups.2⟩

theorem alternates_unpaired (hpairs : ∀ pair ∈ pairs, Matched nodeIDs horizon pair) :
    Alternates none ((unpaired pairs).map FaultEvent.fault) := by
  induction pairs with
  | nil => trivial
  | cons pair pairs ih =>
    rw [List.forall_mem_cons] at hpairs
    have hundo := hpairs.1.undo
    exact ⟨by rw [hundo]; rfl, hundo, ih hpairs.2⟩

theorem filter_sortFaultEvents {stateful others : List FaultEvent}
    (hsorted : stateful.Pairwise (·.time ≤ ·.time)) (hstateful : ∀ e ∈ stateful, e.fault.stateful = true)
    (hothers : ∀ e ∈ others, e.fault.stateful = false) :
    (sortFaultEvents (stateful ++ others)).filter (·.fault.stateful) = stateful := by
  have hfilter : (stateful ++ others).filter (·.fault.stateful) = stateful := by
    rw [List.filter_append, List.filter_eq_self.2 hstateful, List.filter_eq_nil_iff.2, List.append_nil]
    intro e he
    rw [hothers e he]
    exact Bool.false_ne_true
  have hsub : stateful.Sublist (sortFaultEvents (stateful ++ others)) :=
    List.sublist_insertionSort hsorted (List.sublist_append_left _ _)
  have hsub' := hsub.filter (·.fault.stateful)
  rw [List.filter_eq_self.2 hstateful] at hsub'
  refine (hsub'.eq_of_length ?_).symm
  have hperm := (List.perm_insertionSort (fun a b : FaultEvent => a.time ≤ b.time)
    (stateful ++ others)).filter (·.fault.stateful)
  rw [hfilter] at hperm
  exact hperm.length_eq.symm

theorem crashes_valid {crashes : List CrashDirective}
    (h : List.Forall₂ (fun i d => 5 + i * 25 ≤ d.save ∧ d.save < 5 + i * 25 + 20 ∧
      d.point ≠ .hostInitiated) (List.range crashCount) crashes) :
    crashes.Nodup ∧ validateCrashDirectives crashes = .ok () := by
  rw [crashCount, show List.range 2 = [0, 1] from rfl] at h
  obtain ⟨first, second, rfl, ⟨hlow, hhigh, hpoint⟩, hlow', -, hpoint'⟩ :
      ∃ first second, crashes = [first, second] ∧
        (5 + 0 * 25 ≤ first.save ∧ first.save < 5 + 0 * 25 + 20 ∧ first.point ≠ .hostInitiated) ∧
        5 + 1 * 25 ≤ second.save ∧ second.save < 5 + 1 * 25 + 20 ∧
          second.point ≠ .hostInitiated := by
    rcases h with _ | ⟨hfirst, _ | ⟨hsecond, _ | _⟩⟩
    exact ⟨_, _, rfl, hfirst, hsecond⟩
  have hne : first.save ≠ second.save := by omega
  constructor
  · simp only [List.nodup_cons, List.mem_singleton, List.not_mem_nil, not_false_eq_true,
      List.nodup_nil, and_true]
    rintro rfl
    exact hne rfl
  · simp [validateCrashDirectives, validateCrashDirectivesFrom, hpoint, hpoint', hne.symm,
      Nat.ne_of_gt (show 0 < first.save by omega), Nat.ne_of_gt (show 0 < second.save by omega)]

end Layout

/-- In the order in which the events fire every stateful fault opens while nothing is open and
is undone by the next one, all times are in the range, groups split all the nodes, and the crash
directives are distinct and valid. -/
structure FaultSchedule.WellFormed (nodeIDs : List NodeID) (horizon : VirtualTime)
    (schedule : FaultSchedule) : Prop where
  sorted : sortFaultEvents schedule.events = schedule.events
  alternates : Alternates none ((schedule.events.map FaultEvent.fault).filter Fault.stateful)
  times : ∀ e ∈ schedule.events, 0 ≤ e.time ∧ e.time ≤ horizon
  groups : ∀ e ∈ schedule.events, e.fault.SplitsAll nodeIDs
  distinct : schedule.crashes.Nodup
  valid : validateCrashDirectives schedule.crashes = .ok ()

theorem sortFaultEvents_idem (events : List FaultEvent) :
    sortFaultEvents (sortFaultEvents events) = sortFaultEvents events := by
  have : Std.Total fun a b : FaultEvent => a.time ≤ b.time := ⟨fun a b => le_total a.time b.time⟩
  have : IsTrans FaultEvent fun a b => a.time ≤ b.time := ⟨fun _ _ _ => le_trans⟩
  exact (List.pairwise_insertionSort _ _).insertionSort_eq

theorem mem_sortFaultEvents {events : List FaultEvent} {e : FaultEvent} :
    e ∈ sortFaultEvents events ↔ e ∈ events := List.mem_insertionSort _

theorem Fault.splitsAll_of_stateless {nodeIDs : List NodeID} {fault : Fault}
    (h : fault.stateful = false) : fault.SplitsAll nodeIDs := by
  refine splitsAll_of_ne ?_ ?_
  · rintro groups rfl
    cases h
  · rintro groups rfl
    cases h

theorem recoveryTail_spec {nodeIDs : List NodeID} {horizon : VirtualTime} (h : 0 ≤ horizon) :
    ∀ e ∈ recoveryTail nodeIDs horizon, e.Within horizon ∧ e.fault.stateful = false := by
  intro e he
  simp only [recoveryTail, List.cons_append, List.nil_append, List.mem_cons, List.mem_map] at he
  rcases he with rfl | rfl | ⟨node, -, rfl⟩
  · exact ⟨⟨h, le_rfl⟩, rfl⟩
  · exact ⟨⟨h, le_rfl⟩, rfl⟩
  · exact ⟨⟨h, le_rfl⟩, rfl⟩

theorem wellFormed_of_parts {nodeIDs : List NodeID} {horizon : VirtualTime}
    {pairs : List (FaultEvent × FaultEvent)} {others : List FaultEvent} {schedule : FaultSchedule}
    (hpairs : ∀ pair ∈ pairs, Matched nodeIDs horizon pair)
    (hothers : ∀ e ∈ others, e.Within horizon ∧ e.fault.stateful = false)
    (hevents : schedule.events =
      sortFaultEvents (unpaired (normalizeFaultPairTimes pairs) ++ others))
    (hcrashes : schedule.crashes.Nodup ∧ validateCrashDirectives schedule.crashes = .ok ()) :
    schedule.WellFormed nodeIDs horizon := by
  obtain ⟨hsorted, hpaired, hfaults⟩ := normalizeFaultPairTimes_spec hpairs
  have hmem {e : FaultEvent} (he : e ∈ schedule.events) :
      e ∈ unpaired (normalizeFaultPairTimes pairs) ∨ e ∈ others := by
    rw [hevents] at he
    exact List.mem_append.1 (mem_sortFaultEvents.1 he)
  refine ⟨?_, ?_, ?_, ?_, hcrashes.1, hcrashes.2⟩
  · rw [hevents, sortFaultEvents_idem]
  · have hstateful := filter_sortFaultEvents hsorted (fun e he => (hpaired e he).2.1)
      fun e he => (hothers e he).2
    rw [List.filter_map, hevents]
    change Alternates none (List.map FaultEvent.fault (List.filter (·.fault.stateful) _))
    rw [hstateful, hfaults]
    exact alternates_unpaired hpairs
  · intro e he
    rcases hmem he with he | he
    · exact (hpaired e he).1
    · exact (hothers e he).1
  · intro e he
    rcases hmem he with he | he
    · exact (hpaired e he).2.2
    · exact Fault.splitsAll_of_stateless (hothers e he).2

/-- Whatever is drawn, the generator returns a well formed schedule. -/
theorem generateFaultSchedule_wellFormed (fma : Float → Float → Float → Float)
    (nodeIDs : List NodeID) (horizon : VirtualTime) (hne : nodeIDs ≠ []) (hdistinct : nodeIDs.Nodup)
    (hhorizon : 0 ≤ horizon) (r : RandomSource) :
    ∃ schedule r', generateFaultSchedule fma nodeIDs horizon r = some (.ok schedule, r') ∧
      schedule.WellFormed nodeIDs horizon := by
  have halways : Always (generateFaultSchedule fma nodeIDs horizon) fun result =>
      ∃ schedule : FaultSchedule, result = .ok schedule ∧ schedule.WellFormed nodeIDs horizon := by
    refine .ite (fun hempty => absurd hempty hne) fun _ => ?_
    refine ((always_randomPair hne hdistinct hhorizon).times _).bind fun pairs hpairs =>
      ((always_randomSolo fma hne hhorizon).times _).bind fun solos hsolos =>
      (Always.mapM fun i _ => always_randomCrash hne i).bind fun crashes hcrashes => .pure ?_
    have hothers : ∀ e ∈ solos ++ recoveryTail nodeIDs horizon,
        e.Within horizon ∧ e.fault.stateful = false :=
      List.forall_mem_append.2 ⟨hsolos, recoveryTail_spec hhorizon⟩
    refine ⟨_, rfl, wellFormed_of_parts hpairs hothers ?_ (crashes_valid hcrashes)⟩
    rw [List.append_assoc]
  obtain ⟨result, r', hrun, schedule, rfl, hschedule⟩ := halways r
  exact ⟨schedule, r', hrun, hschedule⟩

theorem generateFaultSchedule_wellFormed_threeNodes :
    ∃ schedule r', generateFaultSchedule (fun x y z => x * y + z) [1, 2, 3] 250
        ⟨Stream'.const 7, Stream'.const 0⟩ = some (.ok schedule, r') ∧
      schedule.WellFormed [1, 2, 3] 250 :=
  generateFaultSchedule_wellFormed _ [1, 2, 3] 250 (by decide) (by decide) (by decide) _

end MiniQuorum.Sim
