import MiniQuorum.Server.Linearizability
import MiniQuorum.Server.Safety
import MiniQuorum.StateMachine.Transcript

/-! Clients that keep to no discipline: whatever they ask for, only entries that every state
machine accepts reach a log. -/

namespace MiniQuorum.Server

open Raft Storage Codec StateMachine Consensus

namespace System

def request (sys : System) (n : NodeID) (req : Option Command) : Option System :=
  match sys.cluster.hosts n, validateCommand req with
  | none, _ => none
  | some _, .error _ => some sys
  | some _, .ok cmd =>
    let p := sys.processes n
    some (sys.setProcess n { p with entering := cmd :: p.entering })

def OpenStep (codec : Marshaler Command) (g : Group) (sys sys' : System) : Prop :=
  Step codec g sys sys' ∨ ∃ n req, sys.request n req = some sys'

def OpenRun (codec : Marshaler Command) (g : Group) : System → System → Prop :=
  Relation.ReflTransGen (OpenStep codec g)

theorem Run.openRun {codec : Marshaler Command} {g : Group} {sys sys' : System}
    (h : Run codec g sys sys') : OpenRun codec g sys sys' := by
  induction h with
  | refl => exact .refl
  | tail _ hstep ih => exact ih.tail (.inl hstep)

structure Wholesome (codec : Marshaler Command) (sys : System) : Prop where
  carries : sys.cluster.Carries (Applicable codec)
  entering : ∀ n, ∀ cmd ∈ (sys.processes n).entering, ∃ op, cmd.mapOp = some op

namespace Wholesome

variable {codec : Marshaler Command} {g : Group} {sys sys' : System} {n : NodeID} {c' : Cluster}

theorem init (codec : Marshaler Command) : Wholesome codec System.init where
  carries := Cluster.Carries.init
  entering := by rintro n cmd ⟨⟩

theorem setProcess (h : Wholesome codec sys) {p : Process}
    (hp : ∀ cmd ∈ p.entering, ∃ op, cmd.mapOp = some op) : Wholesome codec (sys.setProcess n p) where
  carries := h.carries
  entering m cmd hcmd := by
    by_cases hm : m = n
    · subst hm
      simp only [System.setProcess, Function.update_self] at hcmd
      exact hp cmd hcmd
    · simp only [System.setProcess, Function.update_of_ne hm] at hcmd
      exact h.entering m cmd hcmd

theorem act_cluster (h : Wholesome codec sys) {a : Action} (hact : sys.cluster.act g a = some c')
    (hdata : ∀ n data, a = .propose n data →
      ∀ index term, Applicable codec ⟨index, term, .normal, data⟩) :
    Wholesome codec { sys with cluster := c' } where
  carries := h.carries.act (fun _ _ => .inl rfl) hdata hact
  entering := h.entering

theorem raft (h : Wholesome codec sys) {a : Action} (hraft : sys.raft g a = some sys') :
    Wholesome codec sys' := by
  obtain ⟨c', hact, hcases⟩ := System.raft_eq_some hraft
  rcases hcases with ⟨hinternal, rfl⟩ | ⟨hne, m, _, _, rfl⟩
  · refine h.act_cluster hact ?_
    rintro n data rfl
    cases hinternal
  · refine (h.act_cluster hact fun n data ha => absurd ha (hne n data)).setProcess ?_
    rintro cmd ⟨⟩

theorem enter (h : Wholesome codec sys) {req : Option Command} {cmd : Command}
    (hvalid : validateCommand req = .ok cmd) (n : NodeID) :
    ∀ c ∈ cmd :: (sys.processes n).entering, ∃ op, c.mapOp = some op := by
  intro c hc
  rcases List.mem_cons.mp hc with rfl | hc
  · exact validateCommand_eq_ok hvalid
  · exact h.entering n c hc

theorem execute (h : Wholesome codec sys) {req : Option Command}
    (hexec : sys.execute n req = some sys') : Wholesome codec sys' := by
  rw [System.execute] at hexec
  split at hexec
  · cases hexec
  · cases hexec
    exact h
  · rename_i cmd _ hvalid
    split at hexec
    · cases hexec
      have hinvoke : Wholesome codec (sys.invoke cmd) := by
        rw [System.invoke]
        split
        · exact h
        · exact ⟨h.carries, h.entering⟩
      exact hinvoke.setProcess (h.enter hvalid n)
    · cases hexec

theorem request (h : Wholesome codec sys) {req : Option Command}
    (hreq : sys.request n req = some sys') : Wholesome codec sys' := by
  rw [System.request] at hreq
  split at hreq
  · cases hreq
  · cases hreq
    exact h
  · rename_i cmd _ hvalid
    cases hreq
    exact h.setProcess (h.enter hvalid n)

theorem propose (h : Wholesome codec sys) (hcodec : codec.RoundTrips) {cmd : Command}
    (hprop : sys.propose codec g n cmd = some sys') : Wholesome codec sys' := by
  have hleft : ∀ c ∈ (sys.processes n).entering.erase cmd, ∃ op, c.mapOp = some op :=
    fun c hc => h.entering n c (List.mem_of_mem_erase hc)
  rw [System.propose] at hprop
  simp only at hprop
  split at hprop
  · cases hprop
  · rename_i hmem
    obtain ⟨op, hop⟩ := h.entering n cmd (not_not.mp hmem)
    split at hprop
    · cases hprop
      exact h.setProcess hleft
    · split at hprop
      · obtain ⟨c', hact, rfl⟩ := Option.map_eq_some_iff.mp hprop
        refine (h.act_cluster hact ?_).setProcess ?_
        · rintro m data ⟨⟩ index term
          refine .inr ⟨cmd, op, ?_, hop⟩
          rw [entryCommand, if_pos rfl, hcodec cmd]
        · split <;> exact hleft
      · cases hprop

theorem apply (h : Wholesome codec sys) (happly : sys.apply codec g n = some sys') :
    Wholesome codec sys' := by
  rw [System.apply] at happly
  split at happly
  · cases happly
  · split at happly
    · split at happly
      · cases happly
        exact h.setProcess (h.entering n)
      · obtain ⟨c', hact, rfl⟩ := Option.map_eq_some_iff.mp happly
        exact (h.act_cluster hact (by rintro m data ⟨⟩)).setProcess (h.entering n)
    · cases happly

theorem respond (h : Wholesome codec sys) {id : CallID} (hrespond : sys.respond n id = some sys') :
    Wholesome codec sys' := by
  have hleave : Wholesome codec (sys.setProcess n ((sys.processes n).leave id)) :=
    h.setProcess (h.entering n)
  rw [System.respond] at hrespond
  split at hrespond
  · split at hrespond
    · cases hrespond
      rw [System.complete]
      split
      · exact hleave
      · exact ⟨hleave.carries, hleave.entering⟩
    · cases hrespond
      exact hleave
    · cases hrespond
      exact hleave
  · cases hrespond

theorem cancel (h : Wholesome codec sys) {id : CallID} (hcancel : sys.cancel n id = some sys') :
    Wholesome codec sys' := by
  obtain ⟨call, _, rfl⟩ := Option.map_eq_some_iff.mp hcancel
  exact h.setProcess (h.entering n)

theorem saveError (h : Wholesome codec sys) (herr : sys.saveError n = some sys') :
    Wholesome codec sys' := by
  rw [System.saveError] at herr
  split at herr
  · split at herr
    · cases herr
    · cases herr
      exact h.setProcess (h.entering n)
  · cases herr

theorem act (h : Wholesome codec sys) (hcodec : codec.RoundTrips) {a : KVAction}
    (hact : sys.act codec g a = some sys') : Wholesome codec sys' := by
  cases a with
  | raft a => exact h.raft hact
  | execute n req => exact h.execute hact
  | propose n cmd => exact h.propose hcodec hact
  | apply n => exact h.apply hact
  | respond n id => exact h.respond hact
  | cancel n id => exact h.cancel hact
  | saveError n => exact h.saveError hact

theorem run (h : Wholesome codec sys) (hcodec : codec.RoundTrips)
    (hrun : OpenRun codec g sys sys') : Wholesome codec sys' := by
  induction hrun with
  | refl => exact h
  | tail _ hstep ih =>
    rcases hstep with ⟨a, hact⟩ | ⟨n, req, hreq⟩
    · exact ih.act hcodec hact
    · exact ih.request hreq

theorem hasLog (h : Wholesome codec sys) {l : List Entry} (hl : sys.cluster.HasLog l) :
    ∀ e ∈ l, Applicable codec e := by
  cases hl with
  | memory hhost => exact (h.carries.hosts _ _ hhost).node.log
  | disk n => exact h.carries.disks n

theorem applier_isOk (h : Wholesome codec sys) {node : Node} {e : Entry} {rest : List Entry}
    {hint : NodeID} (hhost : sys.cluster.hosts n = some ⟨node, .draining [] (e :: rest), hint⟩)
    (a : KVApplier) : ∃ a' deliveries, a.apply codec e = .ok (a', deliveries) := by
  have he : Applicable codec e := (h.carries.hosts n _ hhost).phase.1 e List.mem_cons_self
  obtain ⟨m', r, hm⟩ := he.apply_isOk a.sm
  simp only [KVApplier.apply, hm]
  exact ⟨_, _, rfl⟩

end Wholesome

end System

/-- No poison entry: whatever clients send, every log holds only entries that every state
machine accepts, and no apply stops a replica. -/
theorem no_poison_entry (codec : Marshaler Command) (hcodec : codec.RoundTrips) (g : Group)
    (sys : System) (hrun : System.OpenRun codec g System.init sys) :
    (∀ l, sys.cluster.HasLog l → ∀ e ∈ l, Applicable codec e ∧
      ∀ m : MapStateMachine, ∃ m' r, m.apply codec (some e) = .ok (m', r)) ∧
    (∀ n node e rest hint, sys.cluster.hosts n = some ⟨node, .draining [] (e :: rest), hint⟩ →
      ∃ a' deliveries, (sys.processes n).applier.apply codec e = .ok (a', deliveries)) ∧
    ∀ n sys', sys.apply codec g n = some sys' → (sys'.processes n).stopped = false := by
  have h := (System.Wholesome.init codec).run hcodec hrun
  refine ⟨?_, ?_, ?_⟩
  · intro l hl e he
    have ha := h.hasLog hl e he
    exact ⟨ha, ha.apply_isOk⟩
  · intro n node e rest hint hhost
    exact h.applier_isOk hhost _
  · intro n sys' happly
    rw [System.apply] at happly
    split at happly
    · cases happly
    · rename_i hrunning
      split at happly
      · rename_i hhost
        obtain ⟨a', deliveries, ha⟩ := h.applier_isOk hhost (sys.processes n).applier
        rw [ha] at happly
        obtain ⟨c', _, rfl⟩ := Option.map_eq_some_iff.mp happly
        simp only [System.setProcess, Function.update_self]
        exact Bool.eq_false_iff.mpr hrunning
      · cases happly

def malformedThenPut : List KVAction :=
  hostSteps ([.recover 1 none, .recover 2 none, .recover 3 none] ++ elect 1 2 1 0 0) ++
  [.execute 1 none, .execute 1 (some ⟨3, 1, .unrecognized 9, [5], [7]⟩),
    .execute 1 (some putCommand), .propose 1 putCommand] ++ hostSteps (drive 1 0 0)

theorem no_poison_entry_malformed :
    commandWire.marshaler.RoundTrips ∧ ∃ sys,
      System.OpenRun commandWire.marshaler three System.init sys ∧
      (sys.cluster.disks 1).entries = [noopEntry 1 1, entryOf putCommand 2 1] ∧
      ∀ e ∈ (sys.cluster.disks 1).entries, Applicable commandWire.marshaler e := by
  have hcodec := commandWire.marshaler_roundTrips
  have hsome : ((System.init.exec commandWire.marshaler three malformedThenPut).map
      fun sys => (sys.cluster.disks 1).entries) =
        some [noopEntry 1 1, entryOf putCommand 2 1] := by decide +kernel
  obtain ⟨sys, hexec, hentries⟩ := Option.map_eq_some_iff.mp hsome
  have hrun := (System.exec_run hexec).openRun
  exact ⟨hcodec, sys, hrun, hentries, fun e he =>
    ((no_poison_entry commandWire.marshaler hcodec three sys hrun).1 _ (.disk 1) e he).1⟩

end MiniQuorum.Server
