import MiniQuorum.Consensus.Quorum
import Mathlib.Data.List.Infix
import Mathlib.Logic.Function.Basic

/-! A replicated log with one leader per term, over arbitrary nodes and entries.
A node's whole relation to a term is the ballot it cast there and the length of
the leader's log it acknowledged there. -/

namespace MiniQuorum.Consensus

variable {N E : Type*}

structure Replog (N E : Type*) where
  term : N → ℕ
  log : N → List E
  ballot : N → ℕ → Option N
  candLog : ℕ → N → Option (List E)
  leader : ℕ → Option N
  leaderLog : ℕ → List E
  acked : N → ℕ → ℕ

namespace Replog

section Statements

variable (members : Finset N) (termOf : E → ℕ) (s s' : Replog N E)

def Valid (l : List E) : Prop :=
  ∀ k e, l[k]? = some e → l.take (k + 1) <+: s.leaderLog (termOf e)

def OwnAt (t k : ℕ) : Prop :=
  ∃ e, (s.leaderLog t)[k]? = some e ∧ termOf e = t

def Abandoned (t k : ℕ) : Prop :=
  ∃ Q, IsQuorum members Q ∧ ∀ n ∈ Q, t < s.term n ∧ s.acked n t ≤ k

def Committed (t k : ℕ) : Prop :=
  s.OwnAt termOf t k ∧ ∃ Q, IsQuorum members Q ∧ ∀ n ∈ Q, k < s.acked n t

def Won (c : N) (t : ℕ) : Prop :=
  ∃ Q, IsQuorum members Q ∧ ∀ n ∈ Q, s.ballot n t = some c

def lastTerm (l : List E) : ℕ := (l.getLast?.map termOf).getD 0

def UpToDate (cand own : List E) : Prop :=
  lastTerm termOf own < lastTerm termOf cand ∨
    (lastTerm termOf cand = lastTerm termOf own ∧ own.length ≤ cand.length)

structure Inv : Prop where
  ballot_term : ∀ {n t c}, s.ballot n t = some c → t ≤ s.term n
  ballot_cand : ∀ {n t c}, s.ballot n t = some c → t ≤ s.term c
  cand_term : ∀ {t c L}, s.candLog t c = some L → t ≤ s.term c
  cand_valid : ∀ {t c L}, s.candLog t c = some L → s.Valid termOf L
  cand_log_term : ∀ {t c L e}, s.candLog t c = some L → e ∈ L → termOf e ≤ t
  leader_none : ∀ {t}, s.leader t = none → s.leaderLog t = []
  leader_some : ∀ {t c}, s.leader t = some c → s.leaderLog t ≠ []
  leader_won : ∀ {t c}, s.leader t = some c → s.Won members c t
  log_valid : ∀ n, s.Valid termOf (s.log n)
  log_term : ∀ {n e}, e ∈ s.log n → termOf e ≤ s.term n
  leader_valid : ∀ t, s.Valid termOf (s.leaderLog t)
  leader_term : ∀ {t e}, e ∈ s.leaderLog t → termOf e ≤ t
  acked_length : ∀ n t, s.acked n t ≤ (s.leaderLog t).length
  acked_term : ∀ {n t}, 0 < s.acked n t → t ≤ s.term n
  acked_current : ∀ n, (s.leaderLog (s.term n)).take (s.acked n (s.term n)) <+: s.log n
  acked_log : ∀ {n t k}, k < s.acked n t → s.OwnAt termOf t k →
    (s.leaderLog t).take (k + 1) <+: s.log n ∨ s.Abandoned members t k
  leader_safe : ∀ {t t' k}, t < t' → s.leader t' ≠ none → s.OwnAt termOf t k →
    (s.leaderLog t).take (k + 1) <+: s.leaderLog t' ∨ s.Abandoned members t k
  ballot_safe : ∀ {n t t' c L k}, s.ballot n t' = some c → s.candLog t' c = some L →
    t < t' → s.OwnAt termOf t k → k < s.acked n t →
    (s.leaderLog t).take (k + 1) <+: L ∨ s.Abandoned members t k

/-- What every transition leaves in place.  A node that has left a term never
acknowledges anything there again. -/
structure Grows : Prop where
  term : ∀ n, s.term n ≤ s'.term n
  ballot : ∀ {n t c}, s.ballot n t = some c → s'.ballot n t = some c
  candLog : ∀ {t c L}, s.candLog t c = some L → s'.candLog t c = some L
  leader : ∀ {t c}, s.leader t = some c → s'.leader t = some c
  leaderLog : ∀ t, s.leaderLog t <+: s'.leaderLog t
  acked : ∀ n t, s.acked n t ≤ s'.acked n t
  left : ∀ {n t}, t < s.term n → s'.acked n t = s.acked n t

end Statements

variable {members : Finset N} {termOf : E → ℕ} {s s' s'' : Replog N E}

def init : Replog N E where
  term _ := 0
  log _ := []
  ballot _ _ := none
  candLog _ _ := none
  leader _ := none
  leaderLog _ := []
  acked _ _ := 0

theorem Inv.init : Inv members termOf (init : Replog N E) := by
  constructor <;> simp [Replog.init, Valid, OwnAt]

theorem Grows.refl (s : Replog N E) : Grows s s where
  term _ := le_rfl
  ballot h := h
  candLog h := h
  leader h := h
  leaderLog _ := List.prefix_refl _
  acked _ _ := le_rfl
  left _ := rfl

theorem Grows.trans (h : Grows s s') (h' : Grows s' s'') : Grows s s'' where
  term n := (h.term n).trans (h'.term n)
  ballot hb := h'.ballot (h.ballot hb)
  candLog hc := h'.candLog (h.candLog hc)
  leader hl := h'.leader (h.leader hl)
  leaderLog t := (h.leaderLog t).trans (h'.leaderLog t)
  acked n t := (h.acked n t).trans (h'.acked n t)
  left {n _} ht := (h'.left (ht.trans_le (h.term n))).trans (h.left ht)

theorem take_prefix_mono {l l' : List E} {k : ℕ} (h : l <+: l') (hk : k ≤ l.length) :
    l'.take k = l.take k := by
  obtain ⟨r, rfl⟩ := h
  rw [List.take_append_of_le_length hk]

theorem prefix_getElem? {l l' : List E} {k : ℕ} {e : E} (h : l <+: l')
    (he : l[k]? = some e) : l'[k]? = some e := by
  obtain ⟨r, rfl⟩ := h
  rw [List.getElem?_append_left (List.getElem?_eq_some_iff.mp he).1, he]

theorem Valid.mono (h : Grows s s') {l : List E} (hv : s.Valid termOf l) :
    s'.Valid termOf l := by
  intro k e he
  exact (hv k e he).trans (h.leaderLog _)

theorem Valid.restrict {l l' : List E} (hv : s.Valid termOf l') (h : l <+: l') :
    s.Valid termOf l := by
  intro k e he
  have hk : k < l.length := (List.getElem?_eq_some_iff.mp he).1
  rw [← take_prefix_mono h hk]
  exact hv k e (prefix_getElem? h he)

theorem OwnAt.lt {t k : ℕ} (h : s.OwnAt termOf t k) : k < (s.leaderLog t).length := by
  obtain ⟨e, he, _⟩ := h
  exact (List.getElem?_eq_some_iff.mp he).1

theorem OwnAt.mono (h : Grows s s') {t k : ℕ} (ho : s.OwnAt termOf t k) :
    s'.OwnAt termOf t k := by
  obtain ⟨e, he, ht⟩ := ho
  exact ⟨e, prefix_getElem? (h.leaderLog t) he, ht⟩

theorem OwnAt.of_grows (h : Grows s s') {t k : ℕ} (ho : s'.OwnAt termOf t k)
    (hk : k < (s.leaderLog t).length) : s.OwnAt termOf t k := by
  obtain ⟨e, he, ht⟩ := ho
  refine ⟨e, ?_, ht⟩
  have hget := prefix_getElem? (h.leaderLog t) (List.getElem?_eq_getElem hk)
  rw [List.getElem?_eq_getElem hk, ← hget, he]

theorem Grows.take_eq (h : Grows s s') {t k : ℕ} (hk : k < (s.leaderLog t).length) :
    (s'.leaderLog t).take (k + 1) = (s.leaderLog t).take (k + 1) :=
  take_prefix_mono (h.leaderLog t) hk

theorem Abandoned.mono (h : Grows s s') {t k : ℕ} (ha : s.Abandoned members t k) :
    s'.Abandoned members t k := by
  obtain ⟨Q, hQ, hq⟩ := ha
  refine ⟨Q, hQ, ?_⟩
  intro n hn
  obtain ⟨hlt, hle⟩ := hq n hn
  exact ⟨hlt.trans_le (h.term n), (h.left hlt).trans_le hle⟩

theorem Won.mono (h : Grows s s') {c : N} {t : ℕ} (hw : s.Won members c t) :
    s'.Won members c t := by
  obtain ⟨Q, hQ, hq⟩ := hw
  exact ⟨Q, hQ, fun n hn => h.ballot (hq n hn)⟩

theorem Committed.mono (h : Grows s s') {t k : ℕ} (hc : s.Committed members termOf t k) :
    s'.Committed members termOf t k := by
  obtain ⟨ho, Q, hQ, hq⟩ := hc
  exact ⟨ho.mono h, Q, hQ, fun n hn => (hq n hn).trans_le (h.acked n t)⟩

theorem Won.unique [DecidableEq N] {c c' : N} {t : ℕ} (h : s.Won members c t)
    (h' : s.Won members c' t) : c = c' := by
  obtain ⟨Q, hQ, hq⟩ := h
  obtain ⟨Q', hQ', hq'⟩ := h'
  obtain ⟨n, hn, hn'⟩ := hQ.inter hQ'
  exact Option.some.inj ((hq n hn).symm.trans (hq' n hn'))

theorem Committed.not_abandoned [DecidableEq N] {t k : ℕ}
    (hc : s.Committed members termOf t k) : ¬ s.Abandoned members t k := by
  rintro ⟨Q', hQ', hq'⟩
  obtain ⟨_, Q, hQ, hq⟩ := hc
  obtain ⟨n, hn, hn'⟩ := hQ.inter hQ'
  have := hq n hn
  have := (hq' n hn').2
  omega

theorem Valid.matching {l l' : List E} {k : ℕ} {e e' : E} (hv : s.Valid termOf l)
    (hv' : s.Valid termOf l') (he : l[k]? = some e) (he' : l'[k]? = some e')
    (ht : termOf e = termOf e') : l.take (k + 1) = l'.take (k + 1) := by
  have hk : k < l.length := (List.getElem?_eq_some_iff.mp he).1
  have hk' : k < l'.length := (List.getElem?_eq_some_iff.mp he').1
  have hp := hv k e he
  have hp' := hv' k e' he'
  rw [← ht] at hp'
  have hlen : (l.take (k + 1)).length = (l'.take (k + 1)).length := by
    simp only [List.length_take]
    omega
  exact (List.prefix_of_prefix_length_le hp hp' hlen.le).eq_of_length hlen

theorem lastTerm_eq (termOf : E → ℕ) {l : List E} (h : l ≠ []) :
    ∃ e, l[l.length - 1]? = some e ∧ lastTerm termOf l = termOf e := by
  refine ⟨l.getLast h, ?_, ?_⟩
  · rw [← List.getLast?_eq_getElem?, List.getLast?_eq_some_getLast h]
  · simp [lastTerm, List.getLast?_eq_some_getLast h]

theorem Valid.prefix_lastTerm {l : List E} (hv : s.Valid termOf l) (h : l ≠ []) :
    l <+: s.leaderLog (lastTerm termOf l) := by
  obtain ⟨e, he, ht⟩ := lastTerm_eq termOf h
  have hlen : 0 < l.length := List.length_pos_iff.mpr h
  have hp := hv _ e he
  rw [Nat.sub_add_cancel hlen, List.take_length] at hp
  rwa [ht]

namespace Inv

theorem leader_of_mem (hi : Inv members termOf s) {t : ℕ} {e : E}
    (he : e ∈ s.leaderLog t) : s.leader t ≠ none := by
  intro h
  rw [hi.leader_none h] at he
  exact List.not_mem_nil he

theorem term_le_lastTerm (hi : Inv members termOf s) {l : List E} (hv : s.Valid termOf l)
    {e : E} (he : e ∈ l) : termOf e ≤ lastTerm termOf l :=
  hi.leader_term ((hv.prefix_lastTerm (List.ne_nil_of_mem he)).subset he)

theorem upToDate_carries (hi : Inv members termOf s) {own cand : List E} {t k : ℕ}
    (hown : s.Valid termOf own) (hcand : s.Valid termOf cand)
    (hu : UpToDate termOf cand own) (ho : s.OwnAt termOf t k)
    (hp : (s.leaderLog t).take (k + 1) <+: own) :
    (s.leaderLog t).take (k + 1) <+: cand ∨ s.Abandoned members t k := by
  obtain ⟨e, he, het⟩ := ho
  have hk := (List.getElem?_eq_some_iff.mp he).1
  have hmem : e ∈ (s.leaderLog t).take (k + 1) := by
    apply List.mem_of_getElem? (i := k)
    rw [List.getElem?_take_of_lt (Nat.lt_succ_self k), he]
  have hmemOwn : e ∈ own := hp.subset hmem
  have hne : own ≠ [] := List.ne_nil_of_mem hmemOwn
  have hle : t ≤ lastTerm termOf own := het ▸ hi.term_le_lastTerm hown hmemOwn
  rcases hu with hlt | ⟨heq, hlen⟩
  · have hcne : cand ≠ [] := by
      rintro rfl
      simp [lastTerm] at hlt
    have hcp := hcand.prefix_lastTerm hcne
    have hlead : s.leader (lastTerm termOf cand) ≠ none :=
      hi.leader_of_mem (hcp.subset (List.getLast_mem hcne))
    rcases hi.leader_safe (hle.trans_lt hlt) hlead ⟨e, he, het⟩ with hs | hs
    · left
      rcases List.prefix_or_prefix_of_prefix hs hcp with h | h
      · exact h
      -- The candidate's log would end below position `k`, inside the older leader's log.
      · exfalso
        obtain ⟨x, hx, hxt⟩ := lastTerm_eq termOf hcne
        have hxm : x ∈ s.leaderLog t :=
          List.mem_of_mem_take (h.subset (List.mem_of_getElem? hx))
        have := hi.leader_term hxm
        omega
    · exact .inr hs
  · left
    have hcne : cand ≠ [] := by
      rintro rfl
      simp only [List.length_nil, Nat.le_zero, List.length_eq_zero_iff] at hlen
      exact hne hlen
    have hcp := hcand.prefix_lastTerm hcne
    have hop := hown.prefix_lastTerm hne
    rw [heq] at hcp
    exact hp.trans (List.prefix_of_prefix_length_le hop hcp hlen)

end Inv

end Replog

end MiniQuorum.Consensus
