import MiniQuorum.Codec.Frame
import MiniQuorum.Server.KVSteps
import MiniQuorum.Server.Safety

namespace MiniQuorum.Server

open Raft Storage Codec StateMachine Consensus Consensus.Replog

section Exec

variable {codec : Marshaler Command} {g : Group} {sys sys' : System}

def System.exec (codec : Marshaler Command) (g : Group) (sys : System) (as : List KVAction) :
    Option System :=
  as.foldlM (System.act codec g) sys

theorem System.exec_run {as : List KVAction} (h : sys.exec codec g as = some sys') :
    System.Run codec g sys sys' := by
  induction as generalizing sys with
  | nil =>
    cases h
    exact .refl
  | cons a as ih =>
    obtain ⟨mid, hmid, hrest⟩ := Option.bind_eq_some_iff.mp h
    exact .head ⟨a, hmid⟩ (ih hrest)

def System.execBelow (codec : Marshaler Command) (g : Group) (sys : System) :
    List KVAction → Option System
  | [] => some sys
  | a :: as =>
    match sys.act codec g a with
    | none => none
    | some mid =>
      if g.peers.all fun n =>
          ((mid.cluster.hosts n).map (·.node.hardState.term)).getD 0 < maxUint64 then
        execBelow codec g mid as
      else none

theorem KVInv.execBelow {s : Global} {G : List Entry} (h : KVInv codec g sys s G)
    (hcodec : codec.RoundTrips) (hbelow : sys.cluster.TermsBelow) {as : List KVAction}
    (hexec : sys.execBelow codec g as = some sys') : System.RunBelow codec g sys sys' := by
  induction as generalizing sys s G with
  | nil =>
    cases hexec
    exact .refl
  | cons a as ih =>
    rw [System.execBelow] at hexec
    split at hexec
    · cases hexec
    · rename_i mid hmid
      split at hexec
      · rename_i hall
        obtain ⟨s', G', h'⟩ := h.act hcodec hbelow hmid
        have hbelow' : mid.cluster.TermsBelow := by
          intro n host hhost
          have hn := List.all_eq_true.mp hall n (h'.cluster.hosts n host hhost).member
          rw [hhost] at hn
          exact of_decide_eq_true hn
        exact .head ⟨⟨a, hmid⟩, hbelow'⟩ (ih h' hbelow' hexec)
      · cases hexec

theorem System.exec_raft {n : NodeID} (hfresh : sys.processes n = Process.start)
    {as : List Action} (hown : ∀ a ∈ as, (a.isInternal = true ∧ a.target = n) ∨
      (∃ k, a = .crash n k) ∨ ∃ rnd, a = .recover n rnd)
    {c' : Cluster} (h : sys.cluster.exec g as = some c') :
    System.Run codec g sys { sys with cluster := c' } := by
  induction as generalizing sys with
  | nil =>
    cases h
    exact .refl
  | cons a as ih =>
    obtain ⟨c, hc, hrest⟩ := Option.bind_eq_some_iff.mp h
    have hset : ∀ c : Cluster, { sys with cluster := c }.setProcess n Process.start =
        { sys with cluster := c } := by
      intro c
      rw [System.setProcess, ← hfresh, Function.update_eq_self]
    have hstep : sys.act codec g (.raft a) = some { sys with cluster := c } := by
      show sys.raft g a = _
      rw [System.raft.eq_def]
      rcases hown a List.mem_cons_self with ⟨hinternal, rfl⟩ | ⟨k, rfl⟩ | ⟨rnd, rfl⟩
      · rw [if_pos hinternal, hfresh, if_neg (by decide), hc]
        rfl
      · exact (congrArg (Option.map _) hc).trans (congrArg some (hset c))
      · exact (congrArg (Option.map _) hc).trans (congrArg some (hset c))
    exact .head ⟨_, hstep⟩ (ih hfresh (fun a ha => hown a (List.mem_cons_of_mem _ ha)) hrest)

end Exec

/-! Clients that put and get one key. -/

def putCommand : Command := ⟨1, 1, .put, [5], [7]⟩

def getCommand : Command := ⟨2, 1, .get, [5], []⟩

def hostSteps (as : List Action) : List KVAction :=
  as.map fun
    | .apply n => .apply n
    | a => .raft a

def entryOf (cmd : Command) (index term : Nat) : Entry :=
  ⟨index, term, .normal, commandWire.marshaler.marshal cmd⟩

def serve (leader follower term : Nat) (cmd : Command) : List KVAction :=
  hostSteps (replicateFirst leader follower term ++
    [.step leader (appendSuccess follower leader term 1) none] ++ drive leader 1 1 ++
    [.step follower (appendRequest leader follower term 1 term [] 1) none] ++ drive follower 1 1 ++
    [.step leader (appendSuccess follower leader term 1) none] ++ drive leader 0 0) ++
  [.execute leader (some cmd), .propose leader cmd] ++
  hostSteps (drive leader 1 0 ++
    [.step follower (appendRequest leader follower term 1 term [entryOf cmd 2 term] 1) none] ++
    drive follower 1 0 ++
    [.step leader (appendSuccess follower leader term 2) none] ++ drive leader 1 1) ++
  [.respond leader 0]

def replicateNext (leader follower term prevIndex prevTerm : Nat) (entries : List Entry)
    (commit applies : Nat) : List Action :=
  [.step follower (appendRequest leader follower term prevIndex prevTerm entries commit) none] ++
  drive follower 1 applies ++
  [.step leader (appendSuccess follower leader term (prevIndex + entries.length)) none]

def takeOver : List Action :=
  [.crash 1 0, .recover 1 none] ++ elect 2 1 2 2 1 ++
  replicateNext 2 1 2 2 1 [] 1 1 ++ drive 2 1 0 ++
  replicateNext 2 1 2 2 1 [noopEntry 3 2] 1 0 ++ drive 2 1 2

/-- Node 1 answers the put, crashes and starts again.  It elects node 2, which commits the put
behind an entry of its own term.  The put is sent to node 2 once more, and then the get. -/
def failover : List KVAction :=
  hostSteps ([.recover 1 none, .recover 2 none, .recover 3 none] ++ elect 1 2 1 0 0) ++
  serve 1 2 1 putCommand ++ hostSteps takeOver ++
  [.execute 2 (some putCommand), .propose 2 putCommand] ++ hostSteps (drive 2 0 0) ++
  [.execute 2 (some getCommand), .propose 2 getCommand] ++
  hostSteps (drive 2 0 0 ++ replicateNext 2 1 2 3 2 [] 3 2 ++ drive 2 1 0 ++
    replicateNext 2 1 2 3 2 [entryOf putCommand 4 2, entryOf getCommand 5 2] 3 0 ++ drive 2 1 2) ++
  [.respond 2 0, .respond 2 1]

/-! Terms that wrap around. -/

def writeServed : List KVAction :=
  hostSteps ([.recover 1 none, .recover 2 none, .recover 3 none] ++ elect 3 1 1 0 0 ++
    elect 1 2 2 0 0) ++ serve 1 2 2 putCommand ++ [.raft (.crash 2 0)]

def readServed : List KVAction := [.raft (.recover 2 none)] ++ serve 3 2 1 getCommand

def afterWrite : System :=
  (System.init.exec commandWire.marshaler three writeServed).get (by decide +kernel)

def lostWrite : List KVEvent :=
  [.invoke putCommand.id (.put [5] [7]), .respond putCommand.id ⟨[], false⟩,
    .invoke getCommand.id (.get [5]), .respond getCommand.id ⟨[], false⟩]

theorem lostWrite_not_linearizable : ¬ Linearizable mapSpec lostWrite := by
  rintro ⟨order, h⟩
  have hprecedes : Precedes lostWrite putCommand.id getCommand.id :=
    ⟨lostWrite.take 2, lostWrite.drop 2, rfl, ⟨⟨[], false⟩, by decide⟩, .get [5], by decide⟩
  have hget : AnswersIn mapSpec order getCommand.id ⟨[], false⟩ := h.answers (by decide)
  have hmem : ∀ x ∈ order, x = (putCommand.id, .put [5] [7]) ∨ x = (getCommand.id, .get [5]) := by
    rintro ⟨id, op⟩ hx
    have := h.invoked _ hx
    simp only [lostWrite, List.mem_cons, OpEvent.invoke.injEq, reduceCtorEq, false_or,
      List.not_mem_nil, or_false] at this
    exact this.imp (fun h => Prod.ext h.1 h.2) fun h => Prod.ext h.1 h.2
  have hids : order.map Prod.fst = [putCommand.id, getCommand.id] := by
    refine (List.Sublist.eq_of_length_le (h.realTime hprecedes hget.mem) ?_).symm
    refine (h.nodup.subperm ?_).length_le
    intro id hid
    obtain ⟨x, hx, rfl⟩ := List.mem_map.mp hid
    rcases hmem x hx with rfl | rfl <;> simp
  obtain ⟨before, input, after, rfl, hanswer⟩ := hget
  have horder : before = [(putCommand.id, .put [5] [7])] := by
    match before with
    | [] =>
      rw [List.nil_append, List.map_cons, List.cons.injEq] at hids
      exact absurd hids.1 (show getCommand.id ≠ putCommand.id by decide)
    | [x] =>
      rw [List.cons_append, List.map_cons, List.cons.injEq] at hids
      rcases hmem x (by simp) with rfl | rfl
      · rfl
      · exact absurd hids.1 (by decide)
    | x :: y :: rest =>
      have := congrArg List.length hids
      simp at this
  have hinput : input = .get [5] := by
    rcases hmem (getCommand.id, input) (by simp) with heq | heq
    · exact absurd (congrArg Prod.fst heq) (show getCommand.id ≠ putCommand.id by decide)
    · exact congrArg Prod.snd heq
  rw [horder, hinput] at hanswer
  exact absurd hanswer (by decide)

theorem campaigns_host (n : NodeID) (k : Nat) : ∀ a ∈ campaigns n k,
    (a.isInternal = true ∧ a.target = n) ∨ (∃ k, a = .crash n k) ∨ ∃ rnd, a = .recover n rnd := by
  intro a ha
  obtain ⟨block, hblock, ha⟩ := List.mem_flatten.mp ha
  rw [List.eq_of_mem_replicate hblock] at ha
  simp only [List.mem_cons, List.not_mem_nil, or_false] at ha
  rcases ha with rfl | rfl | rfl | rfl
  · exact .inr (.inr ⟨none, rfl⟩)
  · exact .inl ⟨rfl, rfl⟩
  · exact .inl ⟨rfl, rfl⟩
  · exact .inr (.inl ⟨1, rfl⟩)

/-- Linearizability of the KV service over every run in which terms do not reach the last
64-bit value. -/
theorem kv_linearizable (codec : Marshaler Command) (hcodec : codec.RoundTrips) (g : Group)
    (sys : System) (hrun : System.RunBelow codec g System.init sys) :
    Linearizable mapSpec sys.history := by
  obtain ⟨s, G, h, _⟩ := KVInv.reachable hcodec hrun
  exact ⟨_, h.linear⟩

theorem kv_linearizable_failover :
    ∃ sys, System.RunBelow commandWire.marshaler three System.init sys ∧
      sys.history = [.invoke ⟨1, 1⟩ (.put [5] [7]), .respond ⟨1, 1⟩ ⟨[], false⟩,
        .invoke ⟨2, 1⟩ (.get [5]), .respond ⟨2, 1⟩ ⟨[7], true⟩] ∧
      Linearizable mapSpec sys.history := by
  have hcodec := commandWire.marshaler_roundTrips
  have hsome : ((System.init.execBelow commandWire.marshaler three failover).map (·.history)) =
      some [.invoke ⟨1, 1⟩ (.put [5] [7]), .respond ⟨1, 1⟩ ⟨[], false⟩,
        .invoke ⟨2, 1⟩ (.get [5]), .respond ⟨2, 1⟩ ⟨[7], true⟩] := by decide +kernel
  obtain ⟨sys, hexec, hhistory⟩ := Option.map_eq_some_iff.mp hsome
  have hrun := (KVInv.init commandWire.marshaler three).execBelow hcodec (by rintro n h ⟨⟩) hexec
  exact ⟨sys, hrun, hhistory, kv_linearizable commandWire.marshaler hcodec three sys hrun⟩

theorem kv_linearizable_wraps :
    commandWire.marshaler.RoundTrips ∧ ∃ sys,
      System.Run commandWire.marshaler three System.init sys ∧
        ¬ Linearizable mapSpec sys.history := by
  refine ⟨commandWire.marshaler_roundTrips, ?_⟩
  have hwrite : System.Run commandWire.marshaler three System.init afterWrite :=
    System.exec_run (Option.some_get _).symm
  have hdisk : afterWrite.cluster.disks 2 =
      ⟨⟨2, 1⟩, [noopEntry 1 2, entryOf putCommand 2 2]⟩ := by decide +kernel
  have hdown : afterWrite.cluster.hosts 2 = none :=
    Option.isNone_iff_eq_none.mp (by decide +kernel)
  obtain ⟨_, hrewind, rfl, _⟩ := rewind (g := three) (c := afterWrite.cluster) (n := 2)
    (by decide) (by decide) rfl hdown (by rw [hdisk]; exact ⟨rfl, rfl, trivial⟩)
    (by rw [hdisk]; decide) (by rw [hdisk]; decide) (show 1 < 2 ^ 64 by decide)
  have hback : System.Run commandWire.marshaler three afterWrite { afterWrite with cluster := _ } :=
    System.exec_raft (n := 2) rfl (campaigns_host 2 _) hrewind
  have hsome : ((System.mk (afterWrite.cluster.campaigned 2
      (2 ^ 64 - (afterWrite.cluster.disks 2).hard.term + 1)) afterWrite.processes afterWrite.issued
      afterWrite.history).exec commandWire.marshaler three readServed).map (·.history) =
        some lostWrite := by decide +kernel
  obtain ⟨sys, hread, hhistory⟩ := Option.map_eq_some_iff.mp hsome
  refine ⟨sys, (hwrite.trans hback).trans (System.exec_run hread), ?_⟩
  rw [hhistory]
  exact lostWrite_not_linearizable

/-! ### One log behind the service -/

theorem applied_of_run {codec : Marshaler Command} {entries : List Entry} {m : MapStateMachine}
    (hrun : MapStateMachine.run codec entries = .ok m) (hnum : NumberedFrom 1 entries) :
    m.applied = entries.length := by
  induction entries using List.reverseRecOn generalizing m with
  | nil =>
    cases hrun
    rfl
  | append_singleton entries e ih =>
    obtain ⟨m', hrun', hlast⟩ := foldlM_append_eq_ok.mp hrun
    obtain ⟨hnum', hindex, -⟩ := numberedFrom_append.mp hnum
    have happlied := ih hrun' hnum'
    obtain ⟨m'', hstep, hm⟩ := foldlM_cons_eq_ok.mp hlast
    cases hm
    cases hr : m'.apply codec (some e) with
    | error err =>
      rw [hr] at hstep
      cases hstep
    | ok next =>
      rw [hr] at hstep
      cases hstep
      rw [MapStateMachine.apply_applied hr, happlied, hindex, List.length_append, Nat.add_comm 1]
      exact max_eq_right (Nat.le_succ _)

/-- In every reachable state one log is behind the whole service.  A majority of the disks holds
all of it, every replica that runs has applied the front of it that its applied index tells,
so replicas with one applied index are equal, and every operation ever answered is in it. -/
theorem service_follows_one_log (codec : Marshaler Command) (hcodec : codec.RoundTrips) (g : Group)
    (sys : System) (hrun : System.RunBelow codec g System.init sys) :
    ∃ G : List Entry,
      (G ≠ [] → g.peers.length <
        2 * (g.peers.filter fun p => G <+: (sys.cluster.disks p).entries).length) ∧
      (∀ n host, sys.cluster.hosts n = some host →
        (sys.processes n).applier.sm.applied ≤ G.length ∧
          MapStateMachine.run codec (G.take (sys.processes n).applier.sm.applied) =
            .ok (sys.processes n).applier.sm) ∧
      ∀ op r, .respond op r ∈ sys.history →
        ∃ e ∈ G, ∃ command, entryCommand codec e = some command ∧ command.id = op := by
  obtain ⟨s, G, h, -⟩ := KVInv.reachable hcodec hrun
  obtain ⟨b, hagrees⟩ := h.agreed
  have hnum : NumberedFrom 1 G := by
    rcases Nat.eq_zero_or_pos G.length with hnil | hpos
    · rw [List.length_eq_zero_iff.mp hnil]
      trivial
    · obtain ⟨t, -, j, -, hp⟩ := Agreed.committed hagrees hpos
      rw [List.take_length] at hp
      exact (h.cluster.global.numbered t).mono (hp.trans <| List.take_prefix _ _)
  refine ⟨G, ?_, ?_, ?_⟩
  · intro hG
    obtain ⟨Q, hQ, hq⟩ := Agreed.quorum_log h.cluster.global.toInv hagrees
      (List.length_pos_iff.mpr hG)
    refine count_of_quorum hQ fun p hp => decide_eq_true ?_
    rw [← (h.cluster.disks p).log]
    simpa using hq p hp
  · intro n host hhost
    have hp := h.processes hhost
    have happlied := applied_of_run hp.run (hnum.mono <| List.take_prefix _ _)
    rw [List.length_take, min_eq_left hp.count_le] at happlied
    rw [happlied]
    exact ⟨hp.count_le, hp.run⟩
  · intro op r hr
    obtain ⟨x, hx, rfl⟩ := List.mem_map.mp (h.linear.answers hr).mem
    exact Order.mem_ofLog hx

theorem service_follows_one_log_failover :
    ∃ sys, System.RunBelow commandWire.marshaler three System.init sys ∧
      (sys.processes 1).applier.sm.applied = 3 ∧ (sys.processes 2).applier.sm.applied = 5 ∧
      .respond ⟨2, 1⟩ ⟨[7], true⟩ ∈ sys.history ∧ ∃ G : List Entry,
        three.peers.length <
          2 * (three.peers.filter fun p => G <+: (sys.cluster.disks p).entries).length ∧
        MapStateMachine.run commandWire.marshaler (G.take 3) =
          .ok (sys.processes 1).applier.sm ∧
        MapStateMachine.run commandWire.marshaler (G.take 5) =
          .ok (sys.processes 2).applier.sm ∧
        ∃ e ∈ G, ∃ command, entryCommand commandWire.marshaler e = some command ∧
          command.id = ⟨2, 1⟩ := by
  have hcodec := commandWire.marshaler_roundTrips
  have hsome : ((System.init.execBelow commandWire.marshaler three failover).any fun sys =>
      ((sys.cluster.hosts 1).isSome && (sys.cluster.hosts 2).isSome) &&
        decide ((sys.processes 1).applier.sm.applied = 3 ∧
          (sys.processes 2).applier.sm.applied = 5 ∧
          .respond ⟨2, 1⟩ ⟨[7], true⟩ ∈ sys.history)) = true := by decide +kernel
  obtain ⟨sys, hexec, hsys⟩ := (Option.any_eq_true _ _).mp hsome
  obtain ⟨hup, hend⟩ := (Bool.and_eq_true _ _).mp hsys
  obtain ⟨hup₁, hup₂⟩ := (Bool.and_eq_true _ _).mp hup
  obtain ⟨host₁, hhost₁⟩ := Option.isSome_iff_exists.mp hup₁
  obtain ⟨host₂, hhost₂⟩ := Option.isSome_iff_exists.mp hup₂
  obtain ⟨happlied₁, happlied₂, hanswer⟩ := of_decide_eq_true hend
  have hrun := (KVInv.init commandWire.marshaler three).execBelow hcodec (by rintro n h ⟨⟩) hexec
  obtain ⟨G, hdisks, hreplicas, hanswers⟩ := service_follows_one_log _ hcodec three sys hrun
  have hreplica₁ := (hreplicas 1 host₁ hhost₁).2
  have hreplica₂ := (hreplicas 2 host₂ hhost₂).2
  rw [happlied₁] at hreplica₁
  rw [happlied₂] at hreplica₂
  have ⟨e, he, h⟩ := hanswers _ _ hanswer
  exact ⟨sys, hrun, happlied₁, happlied₂, hanswer, G, hdisks (List.ne_nil_of_mem he), hreplica₁,
    hreplica₂, e, he, h⟩

end MiniQuorum.Server
