import MiniQuorum.Server.Safety

/-! What a message promises is on its sender's disk for as long as it is worth anything. -/

namespace MiniQuorum.Server

open Raft Storage Consensus Consensus.Replog

variable {g : Group} {c c₁ c' : Cluster} {s s' : Global} {n : NodeID}

theorem Cluster.act_send (h : c.act g (.send n) = some c₁) :
    ∃ node m messages committed hint,
      c.hosts n = some ⟨node, .draining (m :: messages) committed, hint⟩ ∧
      c₁ = { c.setHost n (some ⟨node, .draining messages committed, hint⟩) with
        network := m :: c.network } := by
  cases Cluster.acted h with
  | send hhost => exact ⟨_, _, _, _, _, hhost, rfl⟩

theorem ClusterInv.sending (h : ClusterInv g c s) {node : Node} {m : Message}
    {messages : List Message} {committed : List Entry} {hint : NodeID}
    (hhost : c.hosts n = some ⟨node, .draining (m :: messages) committed, hint⟩) :
    m.fromID = n ∧ m.term = (c.disks n).hard.term ∧ MsgInv g s m := by
  obtain ⟨base, hsaved, _, hsuffix, _⟩ := h.hosts n _ hhost
  obtain ⟨hfrom, hterm, hmsg, _⟩ := hsaved.inv.messages m (hsuffix.subset List.mem_cons_self)
  rw [hsaved.disk_eq]
  exact ⟨hfrom, hterm, hmsg⟩

theorem ClusterInv.acked_entries (h : ClusterInv g c s) {k : Nat}
    (hk : k ≤ s.acked n (c.disks n).hard.term) :
    k ≤ (c.disks n).entries.length ∧
      (c.disks n).entries.take k = (s.leaderLog (c.disks n).hard.term).take k := by
  have hcurrent := h.global.acked_current n
  rw [(h.disks n).term, (h.disks n).log] at hcurrent
  have hp := (List.take_prefix_take_left hk).trans hcurrent
  have hlen : ((s.leaderLog (c.disks n).hard.term).take k).length = k := by
    rw [List.length_take, min_eq_left (hk.trans (h.global.acked_length n _))]
  have hle := hp.length_le
  rw [hlen] at hle
  refine ⟨hle, ?_⟩
  have := List.prefix_iff_eq_take.mp hp
  rw [hlen] at this
  exact this.symm

theorem Cluster.TermsBelow.send (h : c.TermsBelow) (hact : c.act g (.send n) = some c₁) :
    c₁.TermsBelow := by
  obtain ⟨node, m, messages, committed, hint, hhost, rfl⟩ := Cluster.act_send hact
  intro n' host hhost'
  simp only [Cluster.setHost, Function.update_apply] at hhost'
  split at hhost'
  · cases hhost'
    have hterm := h n _ hhost
    exact hterm
  · exact h n' host hhost'

/-- A message never outlives the durable state behind it: from the moment it is sent on, its
sender's disk has at least its term, the vote it grants and the entries it acknowledges, the
last two as long as that term is current. -/
theorem sent_message_justified (g : Group) (c c₁ c' : Cluster) (n : NodeID) (m : Message)
    (hrun : Cluster.RunBelow g Cluster.init c) (hsend : c.act g (.send n) = some c₁)
    (hm : c₁.network = m :: c.network) (hrun' : Cluster.RunBelow g c₁ c') :
    m.term ≤ (c'.disks n).hard.term ∧
    (∀ resp, m.body = .requestVoteResp resp → resp.voteGranted = true →
      m.term < (c'.disks n).hard.term ∨ (c'.disks n).hard.votedFor = m.toID) ∧
    (∀ resp, m.body = .appendEntriesResp resp → resp.success = true →
      (c'.disks n).hard.term = m.term →
      resp.matchIndex ≤ (c₁.disks n).entries.length ∧
        (c'.disks n).entries.take resp.matchIndex =
          (c₁.disks n).entries.take resp.matchIndex) := by
  obtain ⟨s, h, hbelow⟩ := ClusterInv.reachable hrun
  obtain ⟨node, m', messages, committed, hint, hhost, hc₁⟩ := Cluster.act_send hsend
  obtain rfl : m' = m := by
    rw [hc₁] at hm
    exact (List.cons.inj hm).1
  obtain ⟨hfrom, hterm, hmsg⟩ := h.sending hhost
  have h₁ : ClusterInv g c₁ s := hc₁ ▸ h.send hhost
  have hdisk : c₁.disks n = c.disks n := by rw [hc₁]; rfl
  obtain ⟨s', hgrows, h', _⟩ := h₁.run (hbelow.send hsend) hrun'
  have hmsg' := hmsg.mono hgrows
  have hle : m'.term ≤ (c'.disks n).hard.term := by
    rw [← (h'.disks n).term, ← hfrom]
    exact hmsg'.term
  refine ⟨hle, fun resp hbody hgranted => ?_, fun resp hbody hsuccess hsame => ?_⟩
  · refine hle.lt_or_eq.imp_right fun heq => ?_
    have hb := hmsg'.body
    rw [hbody] at hb
    have hballot := hb.2 hgranted
    rw [hfrom, heq, (h'.disks n).ballot, ballotOf] at hballot
    split at hballot
    · cases hballot
    · exact Option.some.inj hballot
  · have hb := hmsg.body
    have hb' := hmsg'.body
    rw [hbody] at hb hb'
    have hk := hb.2 hsuccess
    have hk' := hb'.2 hsuccess
    rw [hfrom] at hk hk'
    have hlen := hk.trans (h.global.acked_length n _)
    rw [hterm] at hk
    rw [← hsame] at hk'
    rw [hdisk]
    obtain ⟨hle₁, htake₁⟩ := h.acked_entries hk
    refine ⟨hle₁, ?_⟩
    rw [(h'.acked_entries hk').2, htake₁, hsame, ← hterm,
      take_prefix_mono (hgrows.leaderLog _) hlen]

def acknowledging : List Action :=
  [.recover 1 none, .recover 2 none, .recover 3 none] ++ elect 1 2 1 0 0 ++
  [.step 2 (appendRequest 1 2 1 0 0 [] 0) none] ++ drive 2 1 0 ++
  [.step 1 (appendSuccess 2 1 1 0) none] ++ drive 1 1 0 ++
  [.step 2 (appendRequest 1 2 1 0 0 [noopEntry 1 1] 0) none, .ready 2, .save 2]

theorem sent_message_justified_crashed :
    ∃ c c₁ c', Cluster.RunBelow three Cluster.init c ∧ c.act three (.send 2) = some c₁ ∧
      c₁.network = appendSuccess 2 1 1 1 :: c.network ∧ Cluster.RunBelow three c₁ c' ∧
      c'.hosts 2 = none ∧ 1 ≤ (c'.disks 2).hard.term ∧
      (c'.disks 2).entries.take 1 = (c₁.disks 2).entries.take 1 := by
  obtain ⟨c, hc, hp⟩ := execBelow_any three acknowledging
    (fun c => (c.act three (.send 2)).any fun c₁ =>
      c₁.network == appendSuccess 2 1 1 1 :: c.network && (c₁.execBelow three [.crash 2 0]).any fun c' =>
        (c'.hosts 2).isNone && (c'.disks 2).hard.term == 1) (by decide +kernel)
  obtain ⟨c₁, hsend, hp⟩ := Cluster.any_exists hp
  obtain ⟨hnet, hp⟩ := Bool.and_eq_true_iff.mp hp
  obtain ⟨c', hcrash, hp⟩ := Cluster.any_exists hp
  obtain ⟨hdown, hterm⟩ := Bool.and_eq_true_iff.mp hp
  obtain ⟨s, h, hbelow⟩ := ClusterInv.reachable hc
  obtain ⟨s₁, _, h₁⟩ := h.act hbelow hsend
  have hrun' := h₁.execBelow (hbelow.send hsend) hcrash
  have hj := sent_message_justified three c c₁ c' 2 _ hc hsend (beq_iff_eq.mp hnet) hrun'
  exact ⟨c, c₁, c', hc, hsend, beq_iff_eq.mp hnet, hrun', Option.isNone_iff_eq_none.mp hdown, hj.1,
    (hj.2.2 _ rfl rfl (beq_iff_eq.mp hterm)).2⟩

def granting : List Action :=
  [.recover 1 none, .recover 2 none, .tick 1 none] ++ drive 1 2 0 ++
  [.step 2 (voteRequest 1 2 1 0 0) none, .ready 2, .save 2]

def beforeGrant : Cluster := (Cluster.init.exec three granting).get (by decide +kernel)

def afterGrant : Cluster := (beforeGrant.act three (.send 2)).get (by decide +kernel)

def grantedAndDown : Cluster := (afterGrant.exec three [.crash 2 0]).get (by decide +kernel)

/-- Without the bound on terms the sender's durable term falls below its message's. -/
theorem sent_message_justified_wraps :
    ∃ c c₁ c' m, Cluster.Run three Cluster.init c ∧ c.act three (.send 2) = some c₁ ∧
      c₁.network = m :: c.network ∧ Cluster.Run three c₁ c' ∧
      (c'.disks 2).hard.term < m.term := by
  have hdisk : grantedAndDown.disks 2 = ⟨⟨1, 1⟩, []⟩ := by decide +kernel
  have hdown : grantedAndDown.hosts 2 = none := Option.isNone_iff_eq_none.mp (by decide +kernel)
  obtain ⟨c', hrewind, _, hrewound⟩ := rewind (g := three) (c := grantedAndDown) (n := 2)
    (by decide) (by decide) rfl hdown (by rw [hdisk]; trivial) (by rw [hdisk]; decide)
    (by rw [hdisk]; decide) (show 0 < 2 ^ 64 by decide)
  refine ⟨beforeGrant, afterGrant, c', voteGrant 2 1 1,
    Cluster.exec_run (Option.some_get _).symm, (Option.some_get _).symm, by decide +kernel,
    (Cluster.exec_run (Option.some_get _).symm).trans (Cluster.exec_run hrewind), ?_⟩
  rw [hrewound]
  decide

end MiniQuorum.Server
