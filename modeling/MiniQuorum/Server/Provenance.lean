import MiniQuorum.Raft.Effects
import MiniQuorum.Server.Cluster

/-! Where entries come from.  No part of a node looks into an entry's payload, so whatever
holds of all proposals and of the empty entry of a new leader holds of every entry that is
ever stored, sent or applied. -/

namespace MiniQuorum.Raft

variable {p q : Entry → Prop}

def Message.Carries (p : Entry → Prop) (m : Message) : Prop :=
  ∀ req, m.body = .appendEntries req → ∀ e, some e ∈ req.entries → p e

structure Node.Carries (p : Entry → Prop) (a : Node) : Prop where
  log : ∀ e ∈ a.log.entries, p e
  messages : ∀ m ∈ a.messages, m.Carries p

theorem Message.Carries.mono (hpq : ∀ e, p e → q e) {m : Message} (h : m.Carries p) :
    m.Carries q :=
  fun req hreq e he => hpq e (h req hreq e he)

theorem Node.Carries.mono (hpq : ∀ e, p e → q e) {a : Node} (h : a.Carries p) : a.Carries q where
  log e he := hpq e (h.log e he)
  messages m hm := (h.messages m hm).mono hpq

theorem RaftLog.mem_of_appendFromLeader {l : RaftLog} {entries : List (Option Entry)} {e : Entry}
    (h : e ∈ (l.appendFromLeader entries).1.entries) : e ∈ l.entries ∨ some e ∈ entries := by
  induction entries with
  | nil => exact .inl h
  | cons x rest ih =>
    cases x with
    | none => exact (ih h).imp_right (List.mem_cons_of_mem _)
    | some x =>
      rw [RaftLog.appendFromLeader] at h
      split at h
      · exact (ih h).imp_right (List.mem_cons_of_mem _)
      · split at h
        · exact (ih h).imp_right (List.mem_cons_of_mem _)
        · rcases List.mem_append.mp h with h | h
          · exact .inl ((List.takeWhile_sublist _).subset h)
          · right
            obtain ⟨y, hy, heq⟩ := List.mem_filterMap.mp h
            cases y with
            | none => cases heq
            | some y =>
              simp only at heq
              split at heq
              · cases heq
              · cases heq
                exact hy

structure Derives (p : Entry → Prop) (a b : Node) : Prop where
  lastApplied : b.lastApplied = a.lastApplied
  carries : a.Carries p → b.Carries p

namespace Derives

variable {a b c : Node}

theorem refl (p : Entry → Prop) (a : Node) : Derives p a a := ⟨rfl, id⟩

theorem trans (h : Derives p a b) (h' : Derives p b c) : Derives p a c :=
  ⟨h'.lastApplied.trans h.lastApplied, h'.carries ∘ h.carries⟩

theorem of_eq (hlog : b.log = a.log) (hmessages : b.messages = a.messages)
    (happlied : b.lastApplied = a.lastApplied) : Derives p a b :=
  ⟨happlied, fun h => ⟨by rw [hlog]; exact h.log, by rw [hmessages]; exact h.messages⟩⟩

theorem setNextIndex (a : Node) (peer : NodeID) (index : Nat) :
    Derives p a (a.setNextIndex peer index) := by
  rw [Node.setNextIndex]
  split <;> exact of_eq rfl rfl rfl

theorem setMatchIndex (a : Node) (peer : NodeID) (index : Nat) :
    Derives p a (a.setMatchIndex peer index) := by
  rw [Node.setMatchIndex]
  split <;> exact of_eq rfl rfl rfl

theorem setInflight (a : Node) (peer : NodeID) (w : Option AppendInflight) :
    Derives p a (a.setInflight peer w) := by
  rw [Node.setInflight]
  split <;> exact of_eq rfl rfl rfl

theorem emit (a : Node) (dest : NodeID) {body : Body}
    (hbody : ∀ req, body = .appendEntries req → ∀ e, some e ∈ req.entries → e ∈ a.log.entries) :
    Derives p a (a.emit dest body) where
  lastApplied := rfl
  carries h := by
    refine ⟨h.log, ?_⟩
    intro m hm
    rcases List.mem_append.mp hm with hm | hm
    · exact h.messages m hm
    · rw [List.mem_singleton.mp hm]
      exact fun req hreq e he => h.log e (hbody req hreq e he)

theorem appendLocal (a : Node) {type : EntryType} {data : Bytes}
    (hp : ∀ index term, p ⟨index, term, type, data⟩) : Derives p a (a.appendLocal type data).1 := by
  have hpush (unstableIndex : Nat) : Derives p a { a with
      log := (a.log.appendLocal a.hardState.term type data).1
      unstableIndex := unstableIndex } := by
    refine ⟨rfl, fun h => ⟨?_, h.messages⟩⟩
    intro e he
    rcases List.mem_append.mp he with he | he
    · exact h.log e he
    · rw [List.mem_singleton.mp he]
      exact hp _ _
  rw [Node.appendLocal]
  dsimp only
  split
  · split
    · exact ((hpush _).trans (setMatchIndex _ _ _)).trans (setNextIndex _ _ _)
    · exact hpush _
  · split
    · exact ((hpush _).trans (setMatchIndex _ _ _)).trans (setNextIndex _ _ _)
    · exact hpush _

theorem accepted (a : Node) {req : AppendEntriesReq} (hreq : ∀ e, some e ∈ req.entries → p e) :
    Derives p a (a.accepted req) := by
  have hstored : Derives p a (a.storeAppend req.entries) := by
    rw [Node.storeAppend]
    dsimp only
    split <;> exact ⟨rfl, fun h => ⟨fun e he =>
      (RaftLog.mem_of_appendFromLeader he).elim (h.log e) (hreq e), h.messages⟩⟩
  refine hstored.trans ?_
  rw [Node.accepted]
  split <;> exact of_eq rfl rfl rfl

abbrev Carrying (p : Entry → Prop) : Node → Node → Prop :=
  Effects (fun type data => ∀ index term, p ⟨index, term, type, data⟩)
    fun _ req => ∀ e, some e ∈ req.entries → p e

theorem effects (h : Carrying p a b) : Derives p a b := by
  induction h with
  | refl => exact refl p a
  | tail _ heffect ih =>
    refine ih.trans ?_
    cases heffect with
    | timers | commit | grant | lead => exact of_eq rfl rfl rfl
    | emit dest hbody => exact emit _ dest hbody
    | next => exact setNextIndex _ _ _
    | matched => exact setMatchIndex _ _ _
    | inflight => exact setInflight _ _ _
    | newTerm =>
      rw [Node.becomeFollower]
      split <;> exact of_eq rfl rfl rfl
    | heed =>
      rw [Node.heedLeader]
      split <;> exact of_eq rfl rfl rfl
    | vote =>
      rw [Node.recordVote]
      split <;> exact of_eq rfl rfl rfl
    | append _ hfresh => exact appendLocal _ hfresh
    | accept _ _ _ _ htaken => exact accepted _ htaken

theorem tick (hnoop : ∀ index term, p ⟨index, term, .noop, []⟩) (rnd : Rand) (a : Node) :
    Derives p a (a.tick rnd) := by
  have hticks : Carrying p a (a.tick rnd) ∨ _ := Effects.tick rnd hnoop
  rcases hticks with heffects | ⟨-, election, heffects⟩
  · exact effects heffects
  · refine trans ?_ (effects heffects)
    exact of_eq rfl rfl rfl

theorem step (hnoop : ∀ index term, p ⟨index, term, .noop, []⟩) (rnd : Rand) (a : Node)
    {m : Message} (hm : m.Carries p) : Derives p a (a.step rnd (some m)) :=
  effects (.step rnd hnoop fun req hbody _ _ _ _ => hm req hbody)

theorem propose (a : Node) {data : Bytes} (hp : ∀ index term, p ⟨index, term, .normal, data⟩) :
    Derives p a (a.propose data).1 :=
  effects (.propose hp)

end Derives

theorem Node.Carries.ready {a : Node} (h : a.Carries p) :
    (∀ e ∈ a.ready.1.entries, p e) ∧ (∀ e ∈ a.ready.1.committedEntries, p e) ∧
      ∀ m ∈ a.ready.1.messages, m.Carries p := by
  refine ⟨?_, ?_, h.messages⟩
  · intro e he
    simp only [Node.ready, Node.readyWithoutCapture] at he
    split at he
    · exact h.log e (RaftLog.mem_of_rangeEntries he)
    · cases he
  · intro e he
    simp only [Node.ready, Node.readyWithoutCapture] at he
    split at he
    · exact h.log e (RaftLog.mem_of_rangeEntries he)
    · cases he

theorem Node.Carries.advance {a : Node} (h : a.Carries p) : a.advance.Carries p := by
  have hlog : a.advance.log = a.log := by
    rw [Node.advance]
    split <;> rfl
  have hmessages : ∀ m ∈ a.advance.messages, m ∈ a.messages := by
    intro m hm
    have hcases : a.advance.messages = [] ∨ ∃ k, a.advance.messages = a.messages.drop k := by
      rw [Node.advance]
      cases a.readyAck.valid
      · exact ite_eq_or_eq _ _ _ |>.imp_right fun h => ⟨_, h⟩
      · exact ite_eq_or_eq _ _ _ |>.imp_right fun h => ⟨_, h⟩
    rcases hcases with heq | ⟨k, heq⟩
    · rw [heq] at hm
      cases hm
    · rw [heq] at hm
      exact List.mem_of_mem_drop hm
  exact ⟨by rw [hlog]; exact h.log, fun m hm => h.messages m (hmessages m hm)⟩

end MiniQuorum.Raft

namespace MiniQuorum.Server

open Raft Storage

variable {p q : Entry → Prop} {g : Group} {c c' : Cluster} {n : NodeID}

def Phase.Carries (p : Entry → Prop) : Phase → Prop
  | .idle => True
  | .stepped => True
  | .saving r => (∀ e ∈ r.entries, p e) ∧ (∀ e ∈ r.committedEntries, p e) ∧
      ∀ m ∈ r.messages, m.Carries p
  | .draining messages committed => (∀ e ∈ committed, p e) ∧ ∀ m ∈ messages, m.Carries p

structure Host.Carries (p : Entry → Prop) (h : Host) : Prop where
  node : h.node.Carries p
  phase : h.phase.Carries p

structure Cluster.Carries (p : Entry → Prop) (c : Cluster) : Prop where
  disks : ∀ n, ∀ e ∈ (c.disks n).entries, p e
  network : ∀ m ∈ c.network, m.Carries p
  hosts : ∀ n h, c.hosts n = some h → h.Carries p

theorem Phase.Carries.mono (hpq : ∀ e, p e → q e) {phase : Phase} (h : phase.Carries p) :
    phase.Carries q := by
  cases phase with
  | idle => trivial
  | stepped => trivial
  | saving r =>
    exact ⟨fun e he => hpq e (h.1 e he), fun e he => hpq e (h.2.1 e he),
      fun m hm => (h.2.2 m hm).mono hpq⟩
  | draining messages committed =>
    exact ⟨fun e he => hpq e (h.1 e he), fun m hm => (h.2 m hm).mono hpq⟩

theorem mem_save {s : MemStorage} {hs : Option HardState} {entries : List Entry} {e : Entry}
    (h : e ∈ (s.save hs entries).entries) : e ∈ s.entries ∨ e ∈ entries := by
  rw [MemStorage.save.eq_def] at h
  cases entries with
  | nil => exact .inl h
  | cons x rest =>
    exact (List.mem_append.mp h).imp_left fun h => (List.takeWhile_sublist _).subset h

theorem mem_tornSave {s : MemStorage} {hs : Option HardState} {entries : List Entry} {k : Nat}
    {e : Entry} (h : e ∈ (s.tornSave hs entries k).entries) : e ∈ s.entries ∨ e ∈ entries := by
  rcases s.tornSave_cases hs entries k with heq | heq | ⟨x, _, _, heq⟩ | heq
  · exact .inl (heq ▸ h)
  · rw [heq] at h
    exact .inl h
  · rw [heq] at h
    exact .inl ((List.takeWhile_sublist _).subset h)
  · rw [heq] at h
    exact mem_save h

theorem newRecoveredNode_eq_some {cfg : Config} {disk : MemStorage} {rnd : Rand} {a : Node}
    (h : newRecoveredNode cfg disk rnd = some a) :
    ∃ entries : List Entry, (∀ e ∈ entries, e ∈ disk.entries) ∧
      a = newNode cfg ⟨disk.hard, entries, ⟨0, 0⟩⟩ rnd := by
  rw [newRecoveredNode] at h
  split at h
  · split at h
    · cases h
    · obtain ⟨entries, hentries, rfl⟩ := Option.map_eq_some_iff.mp h
      refine ⟨entries, ?_, rfl⟩
      intro e he
      rw [MemStorage.getEntries] at hentries
      split at hentries
      split at hentries
      · cases hentries
      · cases hentries
        exact List.mem_of_mem_drop (List.mem_of_mem_take he)
  · cases h
    exact ⟨[], by rintro e ⟨⟩, rfl⟩

namespace Cluster.Carries

theorem init : Cluster.init.Carries p where
  disks := by rintro n e ⟨⟩
  network := by rintro m ⟨⟩
  hosts := by rintro n h ⟨⟩

theorem mono (hpq : ∀ e, p e → q e) (h : c.Carries p) : c.Carries q where
  disks n e he := hpq e (h.disks n e he)
  network m hm := (h.network m hm).mono hpq
  hosts n x hx := ⟨(h.hosts n x hx).node.mono hpq, (h.hosts n x hx).phase.mono hpq⟩

theorem setHost (h : c.Carries p) {host : Option Host} (hhost : ∀ x, host = some x → x.Carries p) :
    (c.setHost n host).Carries p where
  disks := h.disks
  network := h.network
  hosts m x hx := by
    by_cases hm : m = n
    · subst hm
      simp only [Cluster.setHost, Function.update_self] at hx
      exact hhost x hx
    · simp only [Cluster.setHost, Function.update_of_ne hm] at hx
      exact h.hosts m x hx

theorem host (h : c.Carries p) {node : Node} {phase : Phase} {hint : NodeID}
    (hnode : node.Carries p) (hphase : phase.Carries p) :
    (c.setHost n (some ⟨node, phase, hint⟩)).Carries p := by
  apply h.setHost
  rintro x ⟨⟩
  exact ⟨hnode, hphase⟩

theorem draining (h : c.Carries p) (n : NodeID) {node : Node} {messages : List Message}
    {committed : List Entry} (hnode : node.Carries p) (hcommitted : ∀ e ∈ committed, p e)
    (hmessages : ∀ m ∈ messages, m.Carries p) (hint : NodeID) :
    (c.setHost n (some ⟨node, .draining messages committed, hint⟩)).Carries p :=
  h.host hnode ⟨hcommitted, hmessages⟩

theorem setDisk (h : c.Carries p) {s : MemStorage} (hs : ∀ e ∈ s.entries, p e) :
    (c.setDisk n s).Carries p where
  disks m e he := by
    by_cases hm : m = n
    · subst hm
      simp only [Cluster.setDisk, Function.update_self] at he
      exact hs e he
    · simp only [Cluster.setDisk, Function.update_of_ne hm] at he
      exact h.disks m e he
  network := h.network
  hosts := h.hosts

theorem crashDisk (h : c.Carries p) {host : Host} (hhost : c.hosts n = some host) (records : Nat) :
    ∀ e ∈ (c.crashDisk n host records).entries, p e := by
  intro e he
  obtain ⟨node, phase, hint⟩ := host
  cases phase with
  | idle => exact h.disks n e he
  | stepped => exact h.disks n e he
  | draining messages committed => exact h.disks n e he
  | saving r =>
    exact (mem_tornSave he).elim (h.disks n e) ((h.hosts n _ hhost).phase.1 e)

theorem recovered (h : c.Carries p) {cfg : Config} {rnd : Rand} {a : Node}
    (hnode : newRecoveredNode cfg (c.disks n) rnd = some a) : a.Carries p := by
  obtain ⟨entries, hsub, rfl⟩ := newRecoveredNode_eq_some hnode
  exact ⟨fun e he => h.disks n e (hsub e he), by rintro m ⟨⟩⟩

theorem act (h : c.Carries p) (hnoop : ∀ index term, p ⟨index, term, .noop, []⟩) {a : Action}
    (hpropose : ∀ n data, a = .propose n data → ∀ index term, p ⟨index, term, .normal, data⟩)
    (hact : c.act g a = some c') : c'.Carries p := by
  cases Cluster.acted hact with
  | tick rnd hhost =>
    exact h.host ((Derives.tick hnoop rnd _).carries (h.hosts _ _ hhost).node) trivial
  | step rnd hhost hm =>
    exact h.host ((Derives.step hnoop rnd _ (h.network _ hm.1)).carries
      (h.hosts _ _ hhost).node) trivial
  | propose data hhost =>
    exact h.host ((Derives.propose _ (hpropose _ data rfl)).carries (h.hosts _ _ hhost).node)
      trivial
  | ready hhost =>
    have hnode := (h.hosts _ _ hhost).node
    exact h.host ⟨hnode.log, hnode.messages⟩ hnode.ready
  | @save n _ _ _ hhost =>
    obtain ⟨hnode, hentries, hcommitted, hmessages⟩ := h.hosts n _ hhost
    refine (h.setDisk ?_).host hnode ⟨hcommitted, hmessages⟩
    exact fun e he => (mem_save he).elim (h.disks n e) (hentries e)
  | @send n _ _ _ _ _ hhost =>
    obtain ⟨hnode, hcommitted, hmessages⟩ := h.hosts n _ hhost
    have hdrain := h.draining n hnode hcommitted
      fun m hm => hmessages m (List.mem_cons_of_mem _ hm)
    refine ⟨h.disks, ?_, (hdrain _).hosts⟩
    intro m hm
    rcases List.mem_cons.mp hm with rfl | hm
    · exact hmessages _ List.mem_cons_self
    · exact h.network m hm
  | @apply n _ _ _ _ hhost =>
    obtain ⟨hnode, hcommitted, hmessages⟩ := h.hosts n _ hhost
    have hdrain := h.draining n hnode (fun e he => hcommitted e (List.mem_cons_of_mem _ he))
      hmessages
    exact ⟨h.disks, h.network, (hdrain _).hosts⟩
  | advance hhost => exact h.host (h.hosts _ _ hhost).node.advance trivial
  | crash records hhost => exact (h.setDisk (h.crashDisk hhost records)).setHost (by rintro x ⟨⟩)
  | @recover n node _ _ _ hnode =>
    have hup : (c.setHost n (some ⟨node, .idle, 0⟩)).Carries p :=
      h.host (h.recovered hnode) trivial
    exact ⟨h.disks, h.network, hup.hosts⟩

end Cluster.Carries

end MiniQuorum.Server
