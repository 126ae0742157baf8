import MiniQuorum.Sim.Simulator
import MiniQuorum.Program.Reading

/-! Each live process of the simulator has one tick of its generation in the queue, and no
other process has one. -/

namespace MiniQuorum.Sim

open Raft Storage StateMachine Collections Program

variable {env : Env}

def EventKind.isTick (kind : EventKind) (id : NodeID) (generation : Nat) : Bool :=
  match kind with
  | .tick node g => node == id && g == generation
  | _ => false

def SimState.queuedTicks (s : SimState env) (id : NodeID) (generation : Nat) : Nat :=
  s.queue.toList.countP fun e => e.kind.isTick id generation

/-- Each node has one queued tick of its generation if it is live and not among `owed`, and no
tick of a later one. -/
structure Streams (owed : List NodeID) (s : SimState env) : Prop where
  current : ∀ id sn, s.nodes id = some sn →
    s.queuedTicks id sn.generation = if sn.live = true ∧ id ∉ owed then 1 else 0
  later : ∀ id sn, s.nodes id = some sn → ∀ g, sn.generation < g → s.queuedTicks id g = 0

structure Down (owed : List NodeID) (id : NodeID) (s : SimState env) : Prop where
  streams : Streams owed s
  down : ∀ sn, s.nodes id = some sn → sn.live = false

variable {owed : List NodeID} {s s' : SimState env} {id : NodeID}

theorem queuedTicks_push (e : Event) (id : NodeID) (g : Nat) (seq : Nat) :
    SimState.queuedTicks { s with queue := BinaryHeap.push Event.less s.queue e, seq := seq } id g =
      s.queuedTicks id g + if e.kind.isTick id g then 1 else 0 := by
  have hperm : (BinaryHeap.push Event.less s.queue e).toList.Perm (s.queue.push e).toList :=
    Array.perm_iff_toList_perm.1 (BinaryHeap.siftUp_perm _ _ _)
  rw [SimState.queuedTicks, hperm.countP_eq, Array.toList_push, List.countP_append]
  simp only [List.countP_singleton, SimState.queuedTicks]

namespace Streams

theorem of_eq (h : Streams owed s) (hqueue : s'.queue = s.queue) (hnodes : s'.nodes = s.nodes) :
    Streams owed s' := by
  have hticks (id : NodeID) (g : Nat) : s'.queuedTicks id g = s.queuedTicks id g := by
    rw [SimState.queuedTicks, SimState.queuedTicks, hqueue]
  refine ⟨?_, ?_⟩
  · intro id sn hid
    rw [hticks]
    exact h.current id sn (hnodes ▸ hid)
  · intro id sn hid g hg
    rw [hticks]
    exact h.later id sn (hnodes ▸ hid) g hg

theorem settle (h : Streams (id :: owed) s)
    (hdown : ∀ sn, s.nodes id = some sn → sn.live = false) : Streams owed s := by
  refine ⟨?_, h.later⟩
  intro node sn hnode
  rw [h.current node sn hnode]
  rcases eq_or_ne node id with rfl | hne
  · simp [hdown sn hnode]
  · simp [hne]

theorem tick (h : Streams (id :: owed) s) (howed : id ∉ owed) {sn : SimNode env}
    (hid : s.nodes id = some sn) (hlive : sn.live = true) (time : VirtualTime) :
    Streams owed { s with
      queue := BinaryHeap.push Event.less s.queue ⟨time, s.seq, .tick id sn.generation⟩
      seq := s.seq + 1 } := by
  refine ⟨?_, ?_⟩
  · intro node sn' hnode
    rw [queuedTicks_push, h.current node sn' hnode]
    rcases eq_or_ne node id with rfl | hne
    · obtain rfl : sn = sn' := Option.some.inj (hid.symm.trans hnode)
      simp [EventKind.isTick, hlive, howed]
    · have hother : (id == node) = false := by simpa using hne.symm
      simp [EventKind.isTick, hne, hother]
  · intro node sn' hnode g hg
    rw [queuedTicks_push, h.later node sn' hnode g hg]
    rcases eq_or_ne node id with rfl | hne
    · obtain rfl : sn = sn' := Option.some.inj (hid.symm.trans hnode)
      have hother : (sn.generation == g) = false := by simpa using hg.ne
      simp [EventKind.isTick, hother]
    · have hother : (id == node) = false := by simpa using hne.symm
      simp [EventKind.isTick, hother]

section Replace

variable (h : Streams owed s) {sn sn' : SimNode env} (hid : s.nodes id = some sn)
  (hqueue : s'.queue = s.queue) (hnodes : s'.nodes = Function.update s.nodes id (some sn'))

include h hid hqueue hnodes

theorem same (hgen : sn'.generation = sn.generation) (hlive : sn'.live = sn.live) :
    Streams owed s' := by
  have hticks (id : NodeID) (g : Nat) : s'.queuedTicks id g = s.queuedTicks id g := by
    rw [SimState.queuedTicks, SimState.queuedTicks, hqueue]
  refine ⟨?_, ?_⟩
  · intro node x hnode
    rw [hnodes, Function.update_apply] at hnode
    rw [hticks]
    split at hnode
    · next heq =>
      cases hnode
      rw [heq, hgen, hlive]
      exact h.current id sn hid
    · exact h.current node x hnode
  · intro node x hnode g hg
    rw [hnodes, Function.update_apply] at hnode
    rw [hticks]
    split at hnode
    · next heq =>
      cases hnode
      rw [heq]
      exact h.later id sn hid g (hgen ▸ hg)
    · exact h.later node x hnode g hg

theorem fresh (hgen : sn.generation < sn'.generation) : Streams (id :: owed) s' := by
  have hticks (id : NodeID) (g : Nat) : s'.queuedTicks id g = s.queuedTicks id g := by
    rw [SimState.queuedTicks, SimState.queuedTicks, hqueue]
  refine ⟨?_, ?_⟩
  · intro node x hnode
    rw [hnodes, Function.update_apply] at hnode
    rw [hticks]
    split at hnode
    · next heq =>
      cases hnode
      rw [heq, h.later id sn hid _ hgen]
      simp
    · next hne =>
      rw [h.current node x hnode]
      simp [hne]
  · intro node x hnode g hg
    rw [hnodes, Function.update_apply] at hnode
    rw [hticks]
    split at hnode
    · next heq =>
      cases hnode
      rw [heq]
      exact h.later id sn hid g (hgen.trans hg)
    · exact h.later node x hnode g hg

theorem down (hgen : sn.generation < sn'.generation) (hdown : sn'.live = false) :
    Down owed id s' := by
  have hid' : ∀ x, s'.nodes id = some x → x.live = false := by
    intro x hx
    rw [hnodes, Function.update_self] at hx
    cases hx
    exact hdown
  exact ⟨(h.fresh hid hqueue hnodes hgen).settle hid', hid'⟩

end Replace

end Streams

/-! ### Nodes and the queue -/

theorem wp_getNode {Q : SimNode env → SimState env → Prop} {E : Panic → SimState env → Prop} :
    wp (getNode id) Q E s ↔
      (∀ sn, s.nodes id = some sn → Q sn s) ∧ (s.nodes id = none → E .nilNode s) := by
  rw [getNode, wp_bind, wp_get]
  cases s.nodes id with
  | none => simp
  | some sn => simp

theorem wp_modifyNode {f : SimNode env → SimNode env} {Q : Unit → SimState env → Prop}
    {E : Panic → SimState env → Prop} :
    wp (modifyNode id f) Q E s ↔
      (∀ sn, s.nodes id = some sn →
        Q () { s with nodes := Function.update s.nodes id (some (f sn)) }) ∧
      (s.nodes id = none → E .nilNode s) := by
  rw [modifyNode, wp_bind, wp_getNode]
  rfl

theorem getNode_maintains (I : SimState env → Prop) (id : NodeID) :
    Maintains I (getNode id : SimM env _) := by
  intro s h
  rw [wp_getNode]
  exact ⟨fun _ _ => h, fun _ => trivial⟩

theorem modifyNode_maintains (id : NodeID) {f : SimNode env → SimNode env}
    (hf : ∀ sn, (f sn).generation = sn.generation ∧ (f sn).live = sn.live) :
    Maintains (Streams owed) (modifyNode id f) := by
  intro s h
  rw [wp_modifyNode]
  exact ⟨fun sn hsn => h.same hsn rfl rfl (hf sn).1 (hf sn).2, fun _ => trivial⟩

theorem modify_maintains {f : SimState env → SimState env}
    (hf : ∀ s, (f s).queue = s.queue ∧ (f s).nodes = s.nodes) :
    Maintains (Streams owed) (modify f : SimM env Unit) :=
  .modify fun s h => h.of_eq (hf s).1 (hf s).2

theorem pushAt_maintains (time : VirtualTime) {kind : EventKind}
    (hkind : ∀ id g, kind.isTick id g = false) :
    Maintains (Streams owed) (pushAt time kind : SimM env _) := by
  refine .modify ?_
  intro s h
  refine ⟨?_, ?_⟩
  · intro id sn hid
    rw [queuedTicks_push, hkind]
    exact h.current id sn hid
  · intro id sn hid g hg
    rw [queuedTicks_push, hkind]
    exact h.later id sn hid g hg

theorem scheduleNextTick_streams (howed : id ∉ owed) (h : Streams (id :: owed) s)
    (hlive : ∀ sn, s.nodes id = some sn → sn.live = true) :
    wp (scheduleNextTick id) (fun _ => Streams owed) (fun _ _ => True) s := by
  rw [scheduleNextTick, wp_bind, wp_get, wp_bind, wp_getNode]
  refine ⟨?_, fun _ => trivial⟩
  intro sn hsn
  rw [scheduleTick, wp_bind, wp_getNode]
  refine ⟨?_, fun _ => trivial⟩
  intro sn' hsn'
  exact h.tick howed hsn' (hlive sn' hsn') _

theorem drawJitter_maintains (id : NodeID) :
    Maintains (Streams owed) (drawJitter id : SimM env _) :=
  .get_bind fun _ h => h.of_eq rfl rfl

theorem enqueueMessage_maintains (m : Message) :
    Maintains (Streams owed) (enqueueMessage m : SimM env _) := by
  refine .get_bind fun s h => ?_
  rw [wp_bind, wp_set]
  exact pushAt_maintains _ (fun _ _ => rfl) _ (h.of_eq rfl rfl)

theorem happens_maintains (rate : Float) :
    Maintains (Streams owed) (happens rate : SimM env _) := by
  refine .ite ?_ (.pure _)
  exact .get_bind fun s h => h.of_eq rfl rfl

theorem scheduleMessage_maintains (m : Message) :
    Maintains (Streams owed) (scheduleMessage m : SimM env _) := by
  refine .bind .get fun s => .bind (happens_maintains _) fun dropped => ?_
  refine .ite (.pure _) (.bind (enqueueMessage_maintains m) fun _ => ?_)
  refine .bind .get fun s => .bind (happens_maintains _) fun duplicated => ?_
  exact .ite (enqueueMessage_maintains m) (.pure _)

theorem scheduleMessages_maintains (ms : List Message) :
    Maintains (Streams owed) (scheduleMessages ms : SimM env _) := by
  induction ms with
  | nil => exact .pure _
  | cons m ms ih => exact .bind (scheduleMessage_maintains m) fun _ => ih

/-! ### Processes -/

theorem crashStateMachine_maintains (id : NodeID) :
    Maintains (Streams owed) (crashStateMachine id : SimM env _) := by
  refine .bind (getNode_maintains _ id) fun sn => ?_
  cases sn.sm with
  | none => exact .pure _
  | some machine => exact modify_maintains fun _ => ⟨rfl, rfl⟩

theorem markProcessCrashed_down (h : Streams owed s) :
    wp (markProcessCrashed id) (fun _ => Down owed id) (fun _ _ => True) s := by
  rw [markProcessCrashed, wp_bind]
  refine wp_mono (crashStateMachine_maintains id s h) ?_ (fun _ _ h => h)
  intro _ t ht
  simp only [wp_bind, invalidateTickStream, wp_modifyNode]
  refine ⟨?_, fun _ => trivial⟩
  intro sn hsn
  simp only [Function.update_self, Function.update_idem, Option.some.injEq, forall_eq',
    implies_true, and_true]
  exact ht.down hsn rfl rfl (Nat.lt_succ_self _) rfl

theorem markProcessHalted_down (h : Streams owed s) :
    wp (markProcessHalted id) (fun _ => Down owed id) (fun _ _ => True) s := by
  rw [markProcessHalted, wp_bind, wp_getNode]
  refine ⟨?_, fun _ => trivial⟩
  intro sn hsn
  cases hhalted : sn.halted with
  | true =>
    have hdown : sn.live = false := by simp [SimNode.live, hhalted]
    have hhalt : ({ sn with halted := true } : SimNode env).live = false := by simp [SimNode.live]
    simp only [Bool.not_true, Bool.false_eq_true, if_false, wp_modifyNode]
    refine ⟨?_, fun _ => trivial⟩
    intro sn' hsn'
    cases hsn.symm.trans hsn'
    refine ⟨h.same hsn rfl rfl rfl (hhalt.trans hdown.symm), ?_⟩
    intro x hx
    cases (Function.update_self id _ s.nodes).symm.trans hx
    exact hhalt
  | false =>
    simp only [Bool.not_false, if_true, wp_bind, invalidateTickStream, wp_modifyNode]
    refine ⟨?_, fun _ => trivial⟩
    intro sn' hsn'
    cases hsn.symm.trans hsn'
    simp only [Function.update_self, Function.update_idem, Option.some.injEq, forall_eq',
      implies_true, and_true]
    exact h.down hsn rfl rfl (Nat.lt_succ_self _) (by simp [SimNode.live])

theorem replaceProcess_streams (h : Streams owed s) (node : Node) :
    wp (replaceProcess id node) (fun _ s' => Streams (id :: owed) s' ∧
      ∀ sn, s'.nodes id = some sn → sn.live = true) (fun _ _ => True) s := by
  rw [replaceProcess, wp_bind, invalidateTickStream, wp_modifyNode]
  refine ⟨?_, fun _ => trivial⟩
  intro sn hsn
  rw [wp_modifyNode]
  simp only [Function.update_self, Function.update_idem, Option.some.injEq, forall_eq',
    implies_true, and_true]
  exact ⟨h.fresh hsn rfl rfl (Nat.lt_succ_self _), rfl⟩

theorem Down.maintains (id : NodeID) {x : SimM env Unit}
    (h : ∀ s, Streams owed s → wp x (fun _ => Down owed id) (fun _ _ => True) s) :
    Maintains (Streams owed) x :=
  fun s hs => wp_mono (h s hs) (fun _ _ hd => hd.streams) (fun _ _ h => h)

theorem Down.of_eq (h : Down owed id s) (hqueue : s'.queue = s.queue) (hnodes : s'.nodes = s.nodes) :
    Down owed id s' :=
  ⟨h.streams.of_eq hqueue hnodes, fun sn hsn => h.down sn (hnodes ▸ hsn)⟩

theorem pushAt_down (time : VirtualTime) {kind : EventKind}
    (hkind : ∀ id g, kind.isTick id g = false) :
    Maintains (Down owed id) (pushAt time kind : SimM env _) := by
  refine .modify ?_
  intro s h
  exact ⟨pushAt_maintains time hkind s h.streams, h.down⟩

theorem scheduleRestartAfterLSMCrash_down (node : NodeID) :
    Maintains (Down owed id) (scheduleRestartAfterLSMCrash node : SimM env _) := by
  refine .get_bind fun s h => ?_
  split
  · exact h
  · split
    · exact h
    · rw [wp_bind, wp_set]
      refine wp_ite (fun _ => ?_) (fun _ => h.of_eq rfl rfl)
      exact pushAt_down s.now (fun _ _ => rfl) _ (h.of_eq rfl rfl)

theorem scheduleRestartAfterStorageCrash_down (node : NodeID) (info : CrashInfo) :
    Maintains (Down owed id) (scheduleRestartAfterStorageCrash node info : SimM env _) := by
  refine .get_bind fun s h => ?_
  refine wp_ite (fun _ => ?_) (fun _ => h)
  rw [wp_bind, wp_set]
  exact pushAt_down s.now (fun _ _ => rfl) _ (h.of_eq rfl rfl)

theorem handleLSMProcessCrash_down (h : Streams owed s) :
    wp (handleLSMProcessCrash id) (fun _ => Down owed id) (fun _ _ => True) s := by
  rw [handleLSMProcessCrash, wp_bind]
  exact wp_mono (markProcessCrashed_down h)
    (fun _ t ht => scheduleRestartAfterLSMCrash_down id t ht) (fun _ _ h => h)

/-! ### Ready -/

theorem notifyAttempts_maintains (entry : Entry) (result : Result)
    (ps : List PendingWorkloadAttempt) :
    Maintains (Streams owed) (notifyAttempts entry result ps : SimM env _) := by
  induction ps with
  | nil => exact .pure _
  | cons p ps ih =>
    refine .bind (.get_bind fun s h => ?_) fun _ => ih
    cases s.workload with
    | none => exact h
    | some w =>
      dsimp only
      rw [wp_bind, wp_set]
      refine wp_ite (fun _ => ?_) (fun _ => ?_)
      · exact pushAt_maintains s.now (fun _ _ => rfl) _ (h.of_eq rfl rfl)
      · exact pushAt_maintains s.now (fun _ _ => rfl) _ (h.of_eq rfl rfl)

theorem observeWorkloadApply_maintains (id : NodeID) (entry : Entry) (result : Result) :
    Maintains (Streams owed) (observeWorkloadApply id entry result : SimM env _) := by
  refine .get_bind fun s h => ?_
  cases s.workload with
  | none => exact h
  | some w =>
    dsimp only
    rw [wp_bind, wp_set]
    exact notifyAttempts_maintains entry result _ _ (h.of_eq rfl rfl)

theorem applyEntry_maintains (id : NodeID) (entry : Entry) :
    Maintains (Streams owed) (applyEntry id entry : SimM env _) := by
  refine .bind (getNode_maintains _ id) fun sn => ?_
  cases sn.sm with
  | none => exact .pure _
  | some machine =>
    refine .get_bind fun s h => ?_
    rw [wp_bind, wp_set]
    refine Maintains.bind ?_ (fun _ => .pure _) _ (h.of_eq rfl rfl)
    exact modifyNode_maintains id fun _ => ⟨rfl, rfl⟩

theorem applyCommitted_maintains (id : NodeID) (entries : List Entry) :
    Maintains (Streams owed) (applyCommitted id entries : SimM env _) := by
  induction entries with
  | nil => exact .pure _
  | cons entry entries ih =>
    refine .bind (applyEntry_maintains id entry) fun r => ?_
    cases r with
    | error e =>
      cases e with
      | simulatedCrash =>
        exact .bind (Down.maintains id fun _ => handleLSMProcessCrash_down) fun _ => .pure _
      | failed => exact .bind (Down.maintains id fun _ => markProcessHalted_down) fun _ => .pure _
    | ok result =>
      refine .bind (observeWorkloadApply_maintains id entry result) fun _ => ?_
      exact .bind (modifyNode_maintains id fun _ => ⟨rfl, rfl⟩) fun _ => ih

theorem saveReady_maintains (id : NodeID) (rd : Ready) :
    Maintains (Streams owed) (saveReady id rd : SimM env _) := by
  refine .bind (getNode_maintains _ id) fun sn => .bind (.liftExcept _) fun r => ?_
  exact .bind (modifyNode_maintains id fun _ => ⟨rfl, rfl⟩) fun _ => .pure _

theorem crashIfArmed_maintains (id : NodeID) :
    Maintains (Streams owed) (crashIfArmed id : SimM env _) := by
  refine .bind (getNode_maintains _ id) fun sn => .bind (.liftExcept _) fun r => ?_
  exact .bind (modifyNode_maintains id fun _ => ⟨rfl, rfl⟩) fun _ => .pure _

theorem handleStorageCrash_maintains (id : NodeID) :
    Maintains (Streams owed) (handleStorageCrash id : SimM env _) := by
  refine .bind (getNode_maintains _ id) fun sn => ?_
  refine Down.maintains id fun s h => ?_
  rw [wp_bind]
  exact wp_mono (markProcessCrashed_down h)
    (fun _ t ht => scheduleRestartAfterStorageCrash_down id _ t ht) (fun _ _ h => h)

theorem setNode_streams (h : Streams owed s) {sn : SimNode env} (hsn : s.nodes id = some sn)
    (hnode : sn.node.isSome = true) (node : Node) :
    Streams owed { s with
      nodes := Function.update s.nodes id (some { sn with node := some node }) } :=
  h.same hsn rfl rfl rfl (by simp [SimNode.live, hnode])

theorem advanceNode_maintains (id : NodeID) :
    Maintains (Streams owed) (advanceNode id : SimM env _) := by
  intro s h
  rw [advanceNode, wp_bind, wp_getNode]
  refine ⟨?_, fun _ => trivial⟩
  intro sn hsn
  cases hnode : sn.node with
  | none => trivial
  | some node =>
    dsimp only
    rw [wp_modifyNode]
    refine ⟨?_, fun _ => trivial⟩
    intro sn' hsn'
    cases hsn.symm.trans hsn'
    exact setNode_streams h hsn (by rw [hnode]; rfl) _

theorem processReady_maintains (id : NodeID) (rd : Ready) :
    Maintains (Streams owed) (processReady id rd : SimM env _) := by
  refine .bind (saveReady_maintains id rd) fun r => ?_
  cases r with
  | error e =>
    cases e with
    | crashed => exact handleStorageCrash_maintains id
    | failed => exact Down.maintains id fun _ => markProcessHalted_down
  | ok _ =>
    refine .bind (scheduleMessages_maintains _) fun _ => .bind (crashIfArmed_maintains id) fun _ => ?_
    refine .ite (handleStorageCrash_maintains id) (.bind (applyCommitted_maintains id _) fun _ => ?_)
    exact .ite (advanceNode_maintains id) (.pure _)

/-! ### Handlers -/

theorem driveNode_maintains (id : NodeID) (operate : Node → Node) :
    Maintains (Streams owed) (driveNode id operate : SimM env _) := by
  intro s h
  rw [driveNode, wp_bind, wp_getNode]
  refine ⟨?_, fun _ => trivial⟩
  intro sn hsn
  cases hnode : sn.node with
  | none => trivial
  | some node =>
    dsimp only
    rw [wp_bind, wp_modifyNode]
    refine ⟨?_, fun _ => trivial⟩
    intro sn' hsn'
    cases hsn.symm.trans hsn'
    exact processReady_maintains id _ _ (setNode_streams h hsn (by rw [hnode]; rfl) _)

theorem handleTick_streams (h : Streams [id] s) :
    wp (handleTick id) (fun _ => Streams []) (fun _ _ => True) s := by
  rw [handleTick, wp_bind, wp_getNode]
  refine ⟨?_, fun _ => trivial⟩
  intro sn hsn
  refine wp_ite (fun hdown => ?_) (fun hlive => wp_ite (fun _ => ?_) (fun _ => ?_))
  · refine h.settle fun sn' hsn' => ?_
    cases hsn.symm.trans hsn'
    simpa using hdown
  · refine scheduleNextTick_streams (by simp) h fun sn' hsn' => ?_
    cases hsn.symm.trans hsn'
    simpa using hlive
  · rw [wp_bind]
    refine wp_mono (drawJitter_maintains id s h) ?_ (fun _ _ h => h)
    intro rnd t ht
    rw [wp_bind]
    refine wp_mono (driveNode_maintains id _ t ht) ?_ (fun _ _ h => h)
    intro _ u hu
    rw [wp_bind, wp_getNode]
    refine ⟨?_, fun _ => trivial⟩
    intro sn' hsn'
    refine wp_ite (fun hlive => ?_) (fun hdown => ?_)
    · refine scheduleNextTick_streams (by simp) hu fun x hx => ?_
      cases hsn'.symm.trans hx
      exact hlive
    · refine hu.settle fun x hx => ?_
      cases hsn'.symm.trans hx
      simpa using hdown

theorem handleMessage_maintains (m : Message) :
    Maintains (Streams owed) (handleMessage m : SimM env _) := by
  refine .bind .get fun s => .ite (.pure _) ?_
  cases s.nodes m.toID with
  | none => exact .pure _
  | some sn =>
    refine .ite (.pure _) (.bind (drawJitter_maintains _) fun rnd => ?_)
    exact driveNode_maintains _ _

theorem handleCrash_maintains (id : NodeID) :
    Maintains (Streams owed) (handleCrash id : SimM env _) := by
  refine .bind (getNode_maintains _ id) fun sn => .bind (.liftExcept _) fun store => ?_
  refine .bind (modifyNode_maintains id fun _ => ⟨rfl, rfl⟩) fun _ => ?_
  exact Down.maintains id fun _ => markProcessCrashed_down

structure Up (id : NodeID) (s : SimState env) : Prop where
  streams : Streams [id] s
  live : ∀ sn, s.nodes id = some sn → sn.live = true

theorem restartStateMachine_up (h : Up id s) :
    wp (restartStateMachine id)
      (fun survived s' => if survived then Up id s' else Down [id] id s') (fun _ _ => True) s := by
  rw [restartStateMachine, wp_bind, wp_getNode]
  refine ⟨?_, fun _ => trivial⟩
  intro sn hsn
  refine wp_ite (fun _ => h) (fun _ => ?_)
  rw [wp_bind, wp_get, wp_bind, wp_set]
  have hworld (world : env.machines.World) : Up id { s with world := world } :=
    ⟨h.streams.of_eq rfl rfl, h.live⟩
  cases (env.machines.reopen s.world id).2 with
  | error e =>
    cases e with
    | simulatedCrash =>
      dsimp only
      rw [wp_bind]
      exact handleLSMProcessCrash_down (hworld _).streams
    | failed =>
      dsimp only
      rw [wp_bind]
      exact markProcessHalted_down (hworld _).streams
  | ok machine =>
    dsimp only
    rw [wp_bind, wp_get, wp_bind, wp_set]
    cases (env.machines.beginReplay _ machine _ _).2 with
    | none =>
      dsimp only
      rw [wp_bind]
      exact markProcessHalted_down (hworld _).streams
    | some machine =>
      dsimp only
      rw [wp_bind, wp_modifyNode]
      refine ⟨?_, fun _ => trivial⟩
      intro sn' hsn'
      have hlive := h.live sn' hsn'
      refine ⟨(hworld _).streams.same hsn' rfl rfl rfl rfl, ?_⟩
      intro x hx
      cases (Function.update_self id _ s.nodes).symm.trans hx
      exact hlive

theorem handleRestart_maintains (id : NodeID) :
    Maintains (Streams []) (handleRestart id : SimM env _) := by
  refine .bind (getNode_maintains _ id) fun sn => .ite (.pure _) ?_
  cases sn.storage.recover with
  | none => exact Down.maintains id fun _ => markProcessHalted_down
  | some store =>
    refine .bind (modifyNode_maintains id fun _ => ⟨rfl, rfl⟩) fun _ => ?_
    cases store.recoveredInitialState with
    | none => exact Down.maintains id fun _ => markProcessHalted_down
    | some init =>
      refine .bind (drawJitter_maintains id) fun rnd => ?_
      intro s h
      rw [wp_bind]
      refine wp_mono (replaceProcess_streams h _) ?_ (fun _ _ h => h)
      rintro _ t ⟨ht, hlive⟩
      rw [wp_bind]
      refine wp_mono (restartStateMachine_up ⟨ht, hlive⟩) ?_ (fun _ _ h => h)
      intro survived u hu
      cases survived with
      | true => exact scheduleNextTick_streams (by simp) hu.streams hu.live
      | false => exact hu.streams.settle hu.down

/-! ### Host calls -/

theorem modifyKnown_maintains (id : NodeID) {f : SimNode env → SimNode env}
    (hf : ∀ sn, (f sn).generation = sn.generation ∧ (f sn).live = sn.live) :
    Maintains (Streams owed) (modifyKnown id f) :=
  .bind .get fun _ => .ite (modifyNode_maintains id hf) (.pure _)

theorem setClockSkew_maintains (id : NodeID) (multiplier : Float) :
    Maintains (Streams owed) (setClockSkew id multiplier : SimM env _) := by
  rw [setClockSkew]
  split
  · exact .pure _
  · exact modifyKnown_maintains id fun _ => ⟨rfl, rfl⟩

theorem applyFault_maintains (fault : Fault) :
    Maintains (Streams []) (applyFault fault : SimM env _) := by
  cases fault with
  | pause id => exact modifyKnown_maintains id fun _ => ⟨rfl, rfl⟩
  | resume id => exact modifyKnown_maintains id fun _ => ⟨rfl, rfl⟩
  | clockSkew id multiplier => exact setClockSkew_maintains id multiplier
  | crash id => exact .bind .get fun _ => .ite (handleCrash_maintains id) (.pure _)
  | restart id => exact .bind .get fun _ => .ite (handleRestart_maintains id) (.pure _)
  | unknown kind => exact .pure _
  | _ => exact modify_maintains fun _ => ⟨rfl, rfl⟩

theorem propose_maintains (id : NodeID) (data : Bytes) {onProposed : Nat → Nat → SimM env Unit}
    (hon : ∀ index term, Maintains (Streams owed) (onProposed index term)) :
    Maintains (Streams owed) (propose id data onProposed) := by
  refine .get_bind fun s h => ?_
  cases hsn : s.nodes id with
  | none => exact h
  | some sn =>
    cases hnode : sn.node with
    | none =>
      dsimp only
      rw [hnode]
      exact h
    | some node =>
      dsimp only
      rw [hnode]
      dsimp only
      refine wp_ite (fun _ => h) (fun _ => ?_)
      rw [wp_bind, wp_modifyNode]
      refine ⟨?_, fun _ => trivial⟩
      intro sn' hsn'
      cases hsn.symm.trans hsn'
      have hdrive (r : Nat × Nat × Bool) : Maintains (Streams owed) (do
          driveNode id fun node => node
          return r : SimM env _) := .bind (driveNode_maintains id _) fun _ => .pure _
      refine Maintains.ite ?_ (hdrive _) _ (setNode_streams h hsn (by rw [hnode]; rfl) _)
      exact .bind (hon _ _) fun _ => hdrive _

theorem submit_maintains (submission : Workload.Submission) :
    Maintains (Streams owed) (submit submission : SimM env _) := by
  rw [submit]
  split
  · exact .pure _
  · refine .bind (propose_maintains _ _ fun index term => ?_) fun _ => .pure _
    exact modify_maintains fun _ => ⟨rfl, rfl⟩

theorem serve_maintains {α : Type} (calls : HostCalls α) :
    Maintains (Streams owed) (serve calls : SimM env α) := by
  induction calls with
  | done result => exact .pure _
  | now next ih => exact .bind .get fun s => ih s.now
  | schedule time event next ih => exact .bind (pushAt_maintains time fun _ _ => rfl) fun _ => ih
  | submit submission next ih => exact .bind (submit_maintains submission) fun r => ih r
  | cancel attempt next ih => exact .bind (modify_maintains fun _ => ⟨rfl, rfl⟩) fun _ => ih

theorem handleWorkloadEvent_maintains (event : Workload.Event) :
    Maintains (Streams owed) (handleWorkloadEvent event : SimM env _) := by
  refine .bind .get fun s => ?_
  cases s.workload with
  | none => exact .pure _
  | some w =>
    refine .ite (.pure _) (.bind (serve_maintains _) fun r => ?_)
    refine .bind (modify_maintains fun _ => ⟨rfl, rfl⟩) fun _ => ?_
    cases r.2 with
    | none => exact .pure _
    | some failure => exact modify_maintains fun _ => ⟨rfl, rfl⟩

theorem installStateMachines_maintains (ids : List NodeID) :
    Maintains (Streams owed) (installStateMachines ids : SimM env _) := by
  induction ids with
  | nil => exact .pure _
  | cons id ids ih =>
    refine .get_bind fun s h => ?_
    rw [wp_bind, wp_set]
    cases (env.machines.install s.world id _).2 with
    | none => exact h.of_eq rfl rfl
    | some machine =>
      refine Maintains.bind ?_ (fun _ => ih) _ (h.of_eq rfl rfl)
      exact modifyNode_maintains id fun _ => ⟨rfl, rfl⟩

theorem removeStateMachines_maintains (ids : List NodeID) :
    Maintains (Streams owed) (removeStateMachines ids : SimM env _) := by
  induction ids with
  | nil => exact .pure _
  | cons id ids ih => exact .bind (modifyNode_maintains id fun _ => ⟨rfl, rfl⟩) fun _ => ih

theorem setStateMachineFactory_maintains (factory : Bool) :
    Maintains (Streams owed) (setStateMachineFactory factory : SimM env _) :=
  .bind .get fun _ => .ite (.bind (installStateMachines_maintains _) fun _ => .pure _)
    (removeStateMachines_maintains _)

theorem startWorkload_maintains (runner : env.runner.Runner) :
    Maintains (Streams owed) (startWorkload runner) := by
  refine .bind .get fun s => .ite (.pure _) (.bind (installStateMachines_maintains _) fun _ => ?_)
  refine .ite (.bind (modify_maintains fun _ => ⟨rfl, rfl⟩) fun _ => ?_) (.pure _)
  exact .bind (serve_maintains _) fun r => modify_maintains fun _ => ⟨rfl, rfl⟩

theorem scheduleWorkloadRetry_maintains (client : UInt64) (time : VirtualTime) :
    Maintains (Streams owed) (scheduleWorkloadRetry client time : SimM env _) := by
  refine .bind .get fun s => ?_
  cases s.workload with
  | none => exact .pure _
  | some w =>
    refine .ite (.pure _) ?_
    cases env.runner.retryEvent w.runner client with
    | none => exact .pure _
    | some event => exact pushAt_maintains time fun _ _ => rfl

/-! ### Events -/

theorem queuedTicks_pop {e : Event} {rest : Array Event}
    (hpop : BinaryHeap.pop Event.less s.queue = some (e, rest)) (now : VirtualTime) (id : NodeID)
    (g : Nat) :
    s.queuedTicks id g = SimState.queuedTicks { s with queue := rest, now := now } id g +
      if e.kind.isTick id g then 1 else 0 := by
  have hperm : (rest.push e).toList.Perm s.queue.toList :=
    Array.perm_iff_toList_perm.1 (BinaryHeap.pop_perm hpop)
  rw [SimState.queuedTicks, ← hperm.countP_eq, Array.toList_push, List.countP_append]
  simp only [List.countP_singleton, SimState.queuedTicks]

theorem Streams.pop (h : Streams [] s) {e : Event} {rest : Array Event}
    (hpop : BinaryHeap.pop Event.less s.queue = some (e, rest)) (now : VirtualTime)
    (howed : ∀ id sn, s.nodes id = some sn → e.kind.isTick id sn.generation = true → id ∈ owed)
    (hback : ∀ id ∈ owed, ∀ sn, s.nodes id = some sn → e.kind.isTick id sn.generation = true) :
    Streams owed { s with queue := rest, now := now } := by
  refine ⟨?_, ?_⟩
  · intro id sn hid
    have hcurrent := h.current id sn hid
    rw [queuedTicks_pop hpop now] at hcurrent
    by_cases htick : e.kind.isTick id sn.generation = true
    · have hmem := howed id sn hid htick
      rw [if_pos htick] at hcurrent
      rw [if_neg (by simp [hmem])]
      split at hcurrent <;> omega
    · have hmem : id ∉ owed := fun hmem => htick (hback id hmem sn hid)
      rw [if_neg htick, Nat.add_zero] at hcurrent
      rw [hcurrent]
      simp [hmem]
  · intro id sn hid g hg
    have hlater := h.later id sn hid g hg
    rw [queuedTicks_pop hpop now] at hlater
    omega

theorem handleEvent_maintains {kind : EventKind} (hkind : ∀ id g, kind.isTick id g = false) :
    Maintains (Streams []) (handleEvent kind : SimM env _) := by
  cases kind with
  | tick id g => simp [EventKind.isTick] at hkind
  | message m => exact handleMessage_maintains m
  | crash id => exact handleCrash_maintains id
  | restart id => exact handleRestart_maintains id
  | workload event => exact handleWorkloadEvent_maintains event
  | fault fault => exact applyFault_maintains fault

theorem runEvent_maintains (limit : VirtualTime) :
    Maintains (Streams []) (runEvent limit : SimM env _) := by
  refine .get_bind fun s h => ?_
  cases hpop : BinaryHeap.pop Event.less s.queue with
  | none => exact h
  | some popped =>
    obtain ⟨e, rest⟩ := popped
    dsimp only
    refine wp_ite (fun _ => h) (fun _ => ?_)
    rw [wp_bind, wp_set, wp_bind]
    suffices hevent : wp (handleEvent e.kind) (fun _ => Streams []) (fun _ _ => True)
        { s with queue := rest, now := e.time } from hevent
    have hother (hkind : ∀ id sn, s.nodes id = some sn → e.kind.isTick id sn.generation = false) :
        Streams [] { s with queue := rest, now := e.time } := by
      refine h.pop hpop e.time ?_ (by simp)
      intro id sn hid htick
      rw [hkind id sn hid] at htick
      cases htick
    cases hkind : e.kind with
    | tick id g =>
      rw [handleEvent, wp_bind, wp_get]
      refine wp_ite (fun hstale => ?_) (fun hcurrent => ?_)
      · -- a stale tick is of no node's generation
        refine Maintains.bind (getNode_maintains _ id) (fun _ => .pure _) _ (hother ?_)
        intro node sn hnode
        rw [hkind, EventKind.isTick, Bool.and_eq_false_iff]
        rcases eq_or_ne id node with rfl | hne
        · right
          simpa [tickIsStale, hnode] using hstale
        · exact .inl (by simpa using hne)
      · refine handleTick_streams (h.pop hpop e.time ?_ ?_)
        · intro node sn hnode htick
          rw [hkind, EventKind.isTick, Bool.and_eq_true] at htick
          rw [List.mem_singleton]
          exact (by simpa using htick.1 : id = node).symm
        · intro node hmem sn hnode
          obtain rfl := List.mem_singleton.1 hmem
          have hgen : g = sn.generation := by simpa [tickIsStale, hnode] using hcurrent
          simp [hkind, EventKind.isTick, hgen]
    | _ =>
      rw [← hkind]
      refine handleEvent_maintains (fun _ _ => by rw [hkind]; rfl) _ (hother ?_)
      intro id sn _
      rw [hkind]
      rfl

theorem Call.exec_maintains (c : Call env) : Maintains (Streams []) c.exec := by
  cases c with
  | event limit => exact .bind (runEvent_maintains limit) fun _ => .pure _
  | scheduleCrash id time => exact pushAt_maintains time fun _ _ => rfl
  | scheduleRestart id time => exact pushAt_maintains time fun _ _ => rfl
  | propose id data => exact .bind (propose_maintains id data fun _ _ => .pure _) fun _ => .pure _
  | pause id => exact modifyKnown_maintains id fun _ => ⟨rfl, rfl⟩
  | resume id => exact modifyKnown_maintains id fun _ => ⟨rfl, rfl⟩
  | setClockSkew id multiplier => exact setClockSkew_maintains id multiplier
  | setStateMachineFactory factory => exact setStateMachineFactory_maintains factory
  | startWorkload runner => exact startWorkload_maintains runner
  | scheduleWorkloadRetry client time => exact scheduleWorkloadRetry_maintains client time
  | _ => exact modify_maintains fun _ => ⟨rfl, rfl⟩

/-! ### Construction -/

theorem nodup_of_firstDuplicate {seen ids : List NodeID} (h : firstDuplicate seen ids = none) :
    ids.Nodup ∧ ∀ id ∈ ids, id ∉ seen := by
  induction ids generalizing seen with
  | nil => simp
  | cons id rest ih =>
    rw [firstDuplicate] at h
    split at h
    · cases h
    · next hid =>
      obtain ⟨hnodup, hseen⟩ := ih h
      have hrest : id ∉ rest := fun hmem => hseen id hmem (by simp)
      refine ⟨List.nodup_cons.2 ⟨hrest, hnodup⟩, ?_⟩
      intro x hx
      rcases List.mem_cons.1 hx with rfl | hx
      · exact hid
      · exact fun hmem => hseen x hx (by simp [hmem])

theorem nodup_of_validate {cfg : Config} (h : cfg.validate = .ok ()) : cfg.nodeIDs.Nodup := by
  rw [Config.validate] at h
  split at h
  · cases h
  · split at h
    · cases h
    · split at h
      · cases h
      · split at h
        · cases h
        · next hnone => exact (nodup_of_firstDuplicate hnone).1

theorem addNodes_spec {cfg : Config} {schedule : FaultSchedule} {crashStorage : Bool}
    {ids : List NodeID} (h : addNodes cfg schedule crashStorage ids s = .ok s') :
    s'.queue = s.queue ∧ ∀ id sn, s'.nodes id = some sn →
      s.nodes id = some sn ∨ id ∈ ids ∧ sn.live = true := by
  induction ids generalizing s with
  | nil =>
    cases h
    exact ⟨rfl, fun id sn hid => .inl hid⟩
  | cons id ids ih =>
    rw [addNodes, bind_eq_ok] at h
    obtain ⟨storage, -, h⟩ := h
    obtain ⟨hqueue, hnodes⟩ := ih h
    refine ⟨hqueue, ?_⟩
    intro node sn hnode
    rcases hnodes node sn hnode with hold | ⟨hmem, hlive⟩
    · dsimp only at hold
      rw [Function.update_apply] at hold
      split at hold
      · next heq =>
        cases hold
        exact .inr ⟨by simp [heq], rfl⟩
      · exact .inl hold
    · exact .inr ⟨List.mem_cons_of_mem _ hmem, hlive⟩

theorem scheduleTicks_streams {ids : List NodeID} (hnodup : ids.Nodup) (h : Streams ids s)
    (hlive : ∀ id ∈ ids, ∀ sn, s.nodes id = some sn → sn.live = true) :
    wp (scheduleTicks ids) (fun _ => Streams []) (fun _ _ => True) s := by
  induction ids generalizing s with
  | nil => exact h
  | cons id ids ih =>
    obtain ⟨hid, hnodup⟩ := List.nodup_cons.1 hnodup
    rw [scheduleTicks, wp_bind, wp_get, wp_bind, scheduleTick, wp_bind, wp_getNode]
    refine ⟨?_, fun _ => trivial⟩
    intro sn hsn
    have htick := h.tick hid hsn (hlive id (by simp) sn hsn) s.tickInterval
    exact ih hnodup htick fun node hnode => hlive node (by simp [hnode])

theorem construct_streams {x : SimM env Unit} (hx : wp x (fun _ => Streams []) (fun _ _ => True) s)
    (h : construct s x = .ok s') : Streams [] s' := by
  rw [construct] at h
  rw [wp] at hx
  rcases hrun : x s with ⟨r, t⟩
  rw [hrun] at h hx
  cases r with
  | ok _ =>
    cases h
    exact hx
  | error panic => cases h

theorem newSim_streams {cfg : Config} {schedule : FaultSchedule} {crashStorage : Bool}
    {source : env.rand.Source} {world : env.machines.World}
    (h : newSim cfg schedule crashStorage source world = .ok s) : Streams [] s := by
  rw [newSim, bind_eq_ok] at h
  obtain ⟨_, hvalid, h⟩ := h
  rw [bind_eq_ok] at h
  obtain ⟨t, hadd, h⟩ := h
  obtain ⟨hqueue, hnodes⟩ := addNodes_spec hadd
  have hnone (id : NodeID) (g : Nat) : t.queuedTicks id g = 0 := by
    rw [SimState.queuedTicks, hqueue]
    rfl
  have hall (id : NodeID) (sn : SimNode env) (hid : t.nodes id = some sn) :
      id ∈ cfg.nodeIDs ∧ sn.live = true := by
    rcases hnodes id sn hid with hold | hnew
    · cases hold
    · exact hnew
  have hstreams : Streams cfg.nodeIDs t := by
    refine ⟨?_, fun id sn _ g _ => hnone id g⟩
    intro id sn hid
    rw [hnone]
    simp [(hall id sn hid).1]
  exact construct_streams (scheduleTicks_streams (nodup_of_validate hvalid) hstreams
    fun id _ sn hid => (hall id sn hid).2) h

theorem installFaultEvents_maintains (events : List FaultEvent) :
    Maintains (Streams owed) (installFaultEvents events : SimM env _) := by
  induction events with
  | nil => exact .pure _
  | cons e events ih => exact .bind (pushAt_maintains e.time fun _ _ => rfl) fun _ => ih

theorem runCalls_streams {calls : List (Call env)} (h : Streams [] s)
    (hrun : runCalls calls s = some s') : Streams [] s' := by
  induction calls generalizing s with
  | nil =>
    cases hrun
    exact h
  | cons c calls ih =>
    have hstep := c.exec_maintains s h
    rw [wp] at hstep
    rw [runCalls] at hrun
    rcases hexec : c.exec s with ⟨r, t⟩
    rw [hexec] at hstep hrun
    cases r with
    | ok _ => exact ih hstep hrun
    | error panic => cases hrun

theorem Reachable.streams (h : Reachable s) : Streams [] s := by
  induction h with
  | new h => exact newSim_streams h
  | newFault h =>
    rw [newFaultSim, bind_eq_ok] at h
    obtain ⟨_, -, h⟩ := h
    rw [bind_eq_ok] at h
    obtain ⟨t, hnew, h⟩ := h
    refine construct_streams (installFaultEvents_maintains _ _ ?_) h
    exact (newSim_streams hnew).of_eq rfl rfl
  | run _ hrun ih => exact runCalls_streams ih hrun

/-- Between events a live process has exactly one queued tick of its generation, and a node
that is crashed or halted has none. -/
theorem one_tick_stream (h : Reachable s) {sn : SimNode env} (hid : s.nodes id = some sn) :
    s.queuedTicks id sn.generation = if sn.node.isSome && !sn.halted then 1 else 0 := by
  have hcurrent := h.streams.current id sn hid
  rw [hcurrent]
  simp [SimNode.live]

def plainEnv : Env where
  storage := ⟨MemStorage, MemStorage.empty, fun s hs entries => (s.save hs entries, .ok ()),
    fun s => some s.hard, MemStorage.getEntries, MemStorage.firstIndex, MemStorage.lastIndex⟩
  machines := ⟨Unit, Unit, fun w m _ => (w, m, .ok Result.zero), fun w _ => w,
    fun w m _ _ => (w, some m), fun w _ _ => (w, some ()), fun w _ => (w, .ok ()),
    fun _ _ => none⟩
  rand := ⟨Unit, fun s _ => (0, s), fun s => (0, s), fun s _ => (none, s)⟩
  runner := workloadRunner
  marshal := fun c => some c.value

theorem one_tick_stream_restarted :
    let cfg : Config := ⟨[1, 2], 5, 9, 1, 0, 0, 0, false, 0⟩
    let schedule : FaultSchedule := ⟨0, [], [⟨20, .restart 1⟩, ⟨10, .crash 1⟩], []⟩
    ∃ (new s : SimState plainEnv) (sn : SimNode plainEnv),
      newFaultSim cfg schedule () () = .ok new ∧ runCalls [.event 20, .event 20] new = some s ∧
      s.nodes 1 = some sn ∧ sn.generation = 2 ∧ s.queuedTicks 1 2 = 1 := by
  intro cfg schedule
  have hrun : (match (newFaultSim cfg schedule () () : Except ConfigError (SimState plainEnv)) with
      | .error _ => none
      | .ok new => (runCalls [.event 20, .event 20] new).bind fun s => (s.nodes 1).map fun sn =>
        (sn.generation, sn.live)) = some (2, true) := by
    decide +kernel
  split at hrun
  · cases hrun
  · next new hnew =>
    rw [Option.bind_eq_some_iff] at hrun
    obtain ⟨s, hs, hnode⟩ := hrun
    rw [Option.map_eq_some_iff] at hnode
    obtain ⟨sn, hsn, hgen⟩ := hnode
    obtain ⟨hgen, hlive⟩ := Prod.mk.inj hgen
    refine ⟨new, s, sn, hnew, hs, hsn, hgen, ?_⟩
    have htick := one_tick_stream (.run (.newFault hnew) hs) hsn
    rw [hgen] at htick
    rw [htick]
    exact if_pos hlive

end MiniQuorum.Sim
