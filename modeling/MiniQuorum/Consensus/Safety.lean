import MiniQuorum.Consensus.Transitions

namespace MiniQuorum.Consensus.Replog

variable {N E : Type*} {members : Finset N} {termOf : E → ℕ} {s s' s'' : Replog N E}

structure Acts (n : N) (s s' : Replog N E) : Prop extends Grows s s' where
  term_other : ∀ {m}, m ≠ n → s'.term m = s.term m
  log_other : ∀ {m}, m ≠ n → s'.log m = s.log m
  ballot_other : ∀ {m t}, m ≠ n → s'.ballot m t = s.ballot m t
  cand_other : ∀ {m t}, m ≠ n → s'.candLog t m = s.candLog t m
  leader_own : ∀ {t}, s'.leader t ≠ s.leader t → s'.leader t = some n
  leaderLog_own : ∀ {t}, s'.leaderLog t ≠ s.leaderLog t → s'.leader t = some n

theorem Acts.refl (n : N) (s : Replog N E) : Acts n s s where
  toGrows := Grows.refl s
  term_other _ := rfl
  log_other _ := rfl
  ballot_other _ := rfl
  cand_other _ := rfl
  leader_own h := absurd rfl h
  leaderLog_own h := absurd rfl h

theorem Acts.trans {n : N} (h : Acts n s s') (h' : Acts n s' s'') : Acts n s s'' where
  toGrows := h.toGrows.trans h'.toGrows
  term_other hm := (h'.term_other hm).trans (h.term_other hm)
  log_other hm := (h'.log_other hm).trans (h.log_other hm)
  ballot_other hm := (h'.ballot_other hm).trans (h.ballot_other hm)
  cand_other hm := (h'.cand_other hm).trans (h.cand_other hm)
  leader_own {t} ht := by
    by_cases hl : s'.leader t = s.leader t
    · rw [← hl] at ht
      exact h'.leader_own ht
    · exact h'.leader (h.leader_own hl)
  leaderLog_own {t} ht := by
    by_cases hl : s'.leaderLog t = s.leaderLog t
    · rw [← hl] at ht
      exact h'.leaderLog_own ht
    · exact h'.leader (h.leaderLog_own hl)

theorem Acts.leaderLog_eq {n m : N} (h : Acts n s s') {t : ℕ} (hl : s.leader t = some m)
    (hm : m ≠ n) : s'.leaderLog t = s.leaderLog t := by
  by_contra hne
  have := h.leader hl
  rw [h.leaderLog_own hne] at this
  exact hm (Option.some.inj this).symm

variable [DecidableEq N]

theorem bump_acts {n : N} {t : ℕ} (h : s.term n ≤ t) : Acts n s (s.bump n t) where
  __ := Acts.refl n s
  toGrows := bump_grows h
  term_other hm := by simp [bump, hm]

theorem vote_acts {n c : N} (h : s.ballot n (s.term n) = none ∨
    s.ballot n (s.term n) = some c) : Acts n s (s.vote n c) where
  __ := Acts.refl n s
  toGrows := vote_grows h
  ballot_other hm := by simp [vote, hm]

theorem stand_acts {c : N} (h : s.candLog (s.term c) c = none) : Acts c s (s.stand c) where
  __ := Acts.refl c s
  toGrows := stand_grows h
  cand_other {m t} hm := by simp [stand_candLog, hm]

theorem follow_acts (s : Replog N E) (n : N) (l : List E) : Acts n s (s.follow n l) where
  __ := Acts.refl n s
  toGrows := follow_grows s n l
  log_other hm := by simp [follow, hm]

theorem ack_acts (s : Replog N E) (n : N) (k : ℕ) : Acts n s (s.ack n k) where
  __ := Acts.refl n s
  toGrows := ack_grows s n k

omit [DecidableEq N] in
theorem elect_acts (hi : Inv members termOf s) {c : N} {t : ℕ} {L : List E} {e : E}
    (h : s.leader t = none) : Acts c s (s.elect c t L e) where
  __ := Acts.refl c s
  toGrows := elect_grows hi h
  leader_own {u} hu := by
    by_cases hut : u = t
    · rw [elect_leader, if_pos hut]
    · rw [elect_leader, if_neg hut] at hu
      exact absurd rfl hu
  leaderLog_own {u} hu := by
    by_cases hut : u = t
    · rw [elect_leader, if_pos hut]
    · rw [elect_leaderLog, if_neg hut] at hu
      exact absurd rfl hu

omit [DecidableEq N] in
theorem extend_acts {c : N} {t : ℕ} (h : s.leader t = some c) (e : E) :
    Acts c s (s.extend t e) where
  __ := Acts.refl c s
  toGrows := extend_grows s t e
  leaderLog_own {u} hu := by
    rw [extend_leaderLog] at hu
    split at hu
    · rename_i hut
      rw [hut]
      exact h
    · exact absurd rfl hu

theorem Committed.leader_complete (hi : Inv members termOf s) {t t' k : ℕ}
    (hc : s.Committed members termOf t k) (ht : t < t') (hl : s.leader t' ≠ none) :
    (s.leaderLog t).take (k + 1) <+: s.leaderLog t' :=
  (hi.leader_safe ht hl hc.1).resolve_right hc.not_abandoned

theorem Committed.quorum_log (hi : Inv members termOf s) {t k : ℕ}
    (hc : s.Committed members termOf t k) :
    ∃ Q, IsQuorum members Q ∧ ∀ n ∈ Q, (s.leaderLog t).take (k + 1) <+: s.log n := by
  obtain ⟨ho, Q, hQ, hq⟩ := id hc
  exact ⟨Q, hQ, fun n hn => (hi.acked_log (hq n hn) ho).resolve_right hc.not_abandoned⟩

theorem Committed.comparable (hi : Inv members termOf s) {t t' k k' : ℕ}
    (hc : s.Committed members termOf t k) (hc' : s.Committed members termOf t' k') :
    (s.leaderLog t).take (k + 1) <+: (s.leaderLog t').take (k' + 1) ∨
      (s.leaderLog t').take (k' + 1) <+: (s.leaderLog t).take (k + 1) := by
  have key : ∀ {u u' j j'}, s.Committed members termOf u j →
      s.Committed members termOf u' j' → u ≤ u' →
      (s.leaderLog u).take (j + 1) <+: (s.leaderLog u').take (j' + 1) ∨
        (s.leaderLog u').take (j' + 1) <+: (s.leaderLog u).take (j + 1) := by
    intro u u' j j' h h' hle
    have hp : (s.leaderLog u).take (j + 1) <+: s.leaderLog u' := by
      rcases hle.lt_or_eq with hlt | rfl
      · obtain ⟨e, he, _⟩ := h'.1
        exact h.leader_complete hi hlt (hi.leader_of_mem (List.mem_of_getElem? he))
      · exact List.take_prefix _ _
    exact List.prefix_or_prefix_of_prefix hp <| List.take_prefix _ _
  rcases le_total t t' with hle | hle
  · exact key hc hc' hle
  · exact (key hc' hc hle).symm

def Agreed (members : Finset N) (termOf : E → ℕ) (s : Replog N E) (b : ℕ) (l : List E)
    (k : ℕ) : Prop :=
  k ≤ l.length ∧ (k = 0 ∨ ∃ t ≤ b, ∃ j, s.Committed members termOf t j ∧ k ≤ j + 1 ∧
    l.take k <+: s.leaderLog t)

omit [DecidableEq N] in
theorem Agreed.zero (s : Replog N E) (b : ℕ) (l : List E) : Agreed members termOf s b l 0 :=
  ⟨Nat.zero_le _, .inl rfl⟩

omit [DecidableEq N] in
theorem Agreed.mono (h : Grows s s') {b b' : ℕ} {l : List E} {k : ℕ}
    (ha : Agreed members termOf s b l k) (hb : b ≤ b') : Agreed members termOf s' b' l k := by
  refine ⟨ha.1, ha.2.imp_right ?_⟩
  rintro ⟨t, ht, j, hc, hk, hp⟩
  exact ⟨t, ht.trans hb, j, hc.mono h, hk, hp.trans (h.leaderLog t)⟩

omit [DecidableEq N] in
theorem Agreed.congr {b : ℕ} {l l' : List E} {k k' : ℕ} (ha : Agreed members termOf s b l k)
    (hk : k' ≤ k) (hl : l.take k' <+: l') : Agreed members termOf s b l' k' := by
  refine ⟨?_, ?_⟩
  · have := hl.length_le
    rw [List.length_take, min_eq_left (hk.trans ha.1)] at this
    exact this
  · rcases ha.2 with rfl | ⟨t, ht, j, hc, hkj, hp⟩
    · exact .inl (Nat.le_zero.mp hk)
    · right
      refine ⟨t, ht, j, hc, hk.trans hkj, ?_⟩
      have htake : l'.take k' = l.take k' := by
        rw [take_prefix_mono hl (by simp [hk.trans ha.1]), List.take_take, min_self]
      rw [htake]
      exact (List.take_prefix_take_left hk).trans hp

omit [DecidableEq N] in
theorem Agreed.committed {b : ℕ} {l : List E} {k : ℕ} (ha : Agreed members termOf s b l k)
    (hk : 0 < k) : ∃ t ≤ b, ∃ j, s.Committed members termOf t j ∧
      l.take k <+: (s.leaderLog t).take (j + 1) := by
  rcases ha.2 with rfl | ⟨t, ht, j, hc, hkj, hp⟩
  · exact absurd hk (lt_irrefl 0)
  · have htake := List.take_prefix (j + 1) (s.leaderLog t)
    refine ⟨t, ht, j, hc, List.prefix_of_prefix_length_le hp htake ?_⟩
    have := hc.1.lt
    simp only [List.length_take]
    omega

theorem Agreed.unique (hi : Inv members termOf s) {b b' : ℕ} {l l' : List E} {k k' : ℕ}
    (ha : Agreed members termOf s b l k) (ha' : Agreed members termOf s b' l' k') :
    l.take k <+: l'.take k' ∨ l'.take k' <+: l.take k := by
  rcases Nat.eq_zero_or_pos k with rfl | hk
  · left
    simp
  rcases Nat.eq_zero_or_pos k' with rfl | hk'
  · right
    simp
  obtain ⟨t, _, j, hc, hp⟩ := ha.committed hk
  obtain ⟨t', _, j', hc', hp'⟩ := ha'.committed hk'
  rcases hc.comparable hi hc' with h | h
  · exact List.prefix_or_prefix_of_prefix (hp.trans h) hp'
  · exact List.prefix_or_prefix_of_prefix hp (hp'.trans h)

theorem Agreed.leader_complete (hi : Inv members termOf s) {b : ℕ} {l : List E} {k t : ℕ}
    (ha : Agreed members termOf s b l k) (hb : b ≤ t) (hl : s.leader t ≠ none) :
    l.take k <+: s.leaderLog t := by
  rcases Nat.eq_zero_or_pos k with rfl | hk
  · simp
  obtain ⟨u, hu, j, hc, hp⟩ := ha.committed hk
  rcases (hu.trans hb).lt_or_eq with hlt | rfl
  · exact hp.trans (hc.leader_complete hi hlt hl)
  · exact hp.trans <| List.take_prefix _ _

theorem Agreed.quorum_log (hi : Inv members termOf s) {b : ℕ} {l : List E} {k : ℕ}
    (ha : Agreed members termOf s b l k) (hk : 0 < k) :
    ∃ Q, IsQuorum members Q ∧ ∀ n ∈ Q, l.take k <+: s.log n := by
  obtain ⟨_, _, _, hc, hp⟩ := ha.committed hk
  obtain ⟨Q, hQ, hq⟩ := hc.quorum_log hi
  exact ⟨Q, hQ, fun n hn => hp.trans (hq n hn)⟩

end MiniQuorum.Consensus.Replog
