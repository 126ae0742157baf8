import MiniQuorum.Consensus.ReplicatedLog

namespace MiniQuorum.Consensus.Replog

variable {N E : Type*} [DecidableEq N] {members : Finset N} {termOf : E → ℕ}
  {s s' : Replog N E}

def bump (s : Replog N E) (n : N) (t : ℕ) : Replog N E :=
  { s with term := Function.update s.term n t }

theorem bump_grows {n : N} {t : ℕ} (h : s.term n ≤ t) : Grows s (s.bump n t) where
  __ := Grows.refl s
  term m := by
    by_cases hm : m = n
    · subst hm
      simpa [bump] using h
    · simp [bump, hm]

theorem Inv.bump (hi : Inv members termOf s) {n : N} {t : ℕ} (h : s.term n ≤ t) :
    Inv members termOf (s.bump n t) where
  __ := hi
  ballot_term hb := (hi.ballot_term hb).trans ((bump_grows h).term _)
  ballot_cand hb := (hi.ballot_cand hb).trans ((bump_grows h).term _)
  cand_term hc := (hi.cand_term hc).trans ((bump_grows h).term _)
  log_term he := (hi.log_term he).trans ((bump_grows h).term _)
  acked_term ha := (hi.acked_term ha).trans ((bump_grows h).term _)
  acked_current m := by
    by_cases hm : m = n
    · subst hm
      rcases h.eq_or_lt with rfl | hlt
      · simpa [Replog.bump] using hi.acked_current m
      -- Nothing is acknowledged yet in a term that the node only enters now.
      · have hzero : s.acked m t = 0 := by
          by_contra hne
          exact absurd (hi.acked_term (Nat.pos_of_ne_zero hne)) hlt.not_ge
        simp [Replog.bump, hzero]
    · simpa [Replog.bump, hm] using hi.acked_current m
  acked_log hk ho := (hi.acked_log hk ho).imp_right (Abandoned.mono (bump_grows h))
  leader_safe ht hl ho := (hi.leader_safe ht hl ho).imp_right (Abandoned.mono (bump_grows h))
  ballot_safe hb hc ht ho hk :=
    (hi.ballot_safe hb hc ht ho hk).imp_right (Abandoned.mono (bump_grows h))

def vote (s : Replog N E) (n c : N) : Replog N E :=
  { s with ballot := Function.update s.ballot n (Function.update (s.ballot n) (s.term n) (some c)) }

theorem vote_ballot {n c m : N} {t : ℕ} :
    (s.vote n c).ballot m t = if m = n ∧ t = s.term n then some c else s.ballot m t := by
  by_cases hm : m = n
  · subst hm
    by_cases ht : t = s.term m <;> simp [vote, ht]
  · simp [vote, hm]

theorem vote_grows {n c : N} (h : s.ballot n (s.term n) = none ∨
    s.ballot n (s.term n) = some c) : Grows s (s.vote n c) where
  __ := Grows.refl s
  ballot {m t d} hb := by
    rw [vote_ballot]
    split
    · rename_i hmt
      rw [hmt.1, hmt.2] at hb
      rcases h with h | h
      · rw [h] at hb
        cases hb
      · rw [← h, hb]
    · exact hb

theorem Inv.vote (hi : Inv members termOf s) {n c : N}
    (h : s.ballot n (s.term n) = none ∨ s.ballot n (s.term n) = some c)
    (hc : s.term n ≤ s.term c)
    (hu : ∀ L, s.candLog (s.term n) c = some L → UpToDate termOf L (s.log n)) :
    Inv members termOf (s.vote n c) where
  __ := hi
  ballot_term {m t d} hb := by
    rw [vote_ballot] at hb
    split at hb
    · rename_i hmt
      rw [hmt.1, hmt.2]
      exact le_rfl
    · exact hi.ballot_term hb
  ballot_cand {m t d} hb := by
    rw [vote_ballot] at hb
    split at hb
    · rename_i hmt
      cases hb
      rw [hmt.2]
      exact hc
    · exact hi.ballot_cand hb
  leader_won hl := (hi.leader_won hl).mono (vote_grows h)
  ballot_safe {m t t' d L k} hb hL ht ho hk := by
    rw [vote_ballot] at hb
    split at hb
    · rename_i hmt
      obtain ⟨rfl, rfl⟩ := hmt
      cases hb
      rcases hi.acked_log hk ho with hp | ha
      · exact hi.upToDate_carries (hi.log_valid m) (hi.cand_valid hL) (hu L hL) ho hp
      · exact .inr ha
    · exact hi.ballot_safe hb hL ht ho hk

def stand (s : Replog N E) (c : N) : Replog N E :=
  { s with
    candLog := Function.update s.candLog (s.term c)
      (Function.update (s.candLog (s.term c)) c (some (s.log c))) }

theorem stand_candLog {c d : N} {t : ℕ} :
    (s.stand c).candLog t d = if t = s.term c ∧ d = c then some (s.log c) else s.candLog t d := by
  by_cases ht : t = s.term c
  · subst ht
    by_cases hd : d = c <;> simp [stand, hd]
  · simp [stand, ht]

theorem stand_grows {c : N} (h : s.candLog (s.term c) c = none) : Grows s (s.stand c) where
  __ := Grows.refl s
  candLog {t d L} hL := by
    rw [stand_candLog]
    split
    · rename_i htd
      rw [htd.1, htd.2, h] at hL
      cases hL
    · exact hL

theorem Inv.stand (hi : Inv members termOf s) {c : N}
    (hb : ∀ n, s.ballot n (s.term c) ≠ some c) : Inv members termOf (s.stand c) where
  __ := hi
  cand_term {t d L} hL := by
    rw [stand_candLog] at hL
    split at hL
    · rename_i htd
      rw [htd.1, htd.2]
      exact le_rfl
    · exact hi.cand_term hL
  cand_valid {t d L} hL := by
    rw [stand_candLog] at hL
    split at hL
    · cases hL
      exact hi.log_valid c
    · exact hi.cand_valid hL
  cand_log_term {t d L e} hL he := by
    rw [stand_candLog] at hL
    split at hL
    · rename_i htd
      cases hL
      rw [htd.1]
      exact hi.log_term he
    · exact hi.cand_log_term hL he
  ballot_safe {m t t' d L k} hbal hL ht ho hk := by
    rw [stand_candLog] at hL
    split at hL
    · rename_i htd
      obtain ⟨rfl, rfl⟩ := htd
      exact absurd hbal (hb m)
    · exact hi.ballot_safe hbal hL ht ho hk

def follow (s : Replog N E) (n : N) (l : List E) : Replog N E :=
  { s with log := Function.update s.log n l }

theorem follow_grows (s : Replog N E) (n : N) (l : List E) : Grows s (s.follow n l) where
  __ := Grows.refl s

theorem follow_log {n m : N} {l : List E} :
    (s.follow n l).log m = if m = n then l else s.log m := by
  by_cases hm : m = n <;> simp [follow, hm]

theorem Inv.follow (hi : Inv members termOf s) {n : N} {l : List E}
    (hlead : s.leader (s.term n) ≠ none) (hl : l <+: s.leaderLog (s.term n))
    (hkeep : ∀ p, p <+: s.log n → p <+: s.leaderLog (s.term n) → p <+: l) :
    Inv members termOf (s.follow n l) where
  __ := hi
  log_valid m := by
    rw [follow_log]
    split
    · exact (hi.leader_valid _).restrict hl
    · exact hi.log_valid m
  log_term {m e} he := by
    rw [follow_log] at he
    split at he
    · rename_i hm
      rw [hm]
      exact hi.leader_term (hl.subset he)
    · exact hi.log_term he
  acked_current m := by
    rw [follow_log]
    split
    · rename_i hm
      subst hm
      exact hkeep _ (hi.acked_current m) <| List.take_prefix _ _
    · exact hi.acked_current m
  acked_log {m t k} hk ho := by
    rw [follow_log]
    split
    · rename_i hm
      subst hm
      -- What was acknowledged is in the old log and in the current leader's log.
      rcases hi.acked_log hk ho with hp | ha
      · rcases (hi.acked_term (Nat.zero_lt_of_lt hk)).lt_or_eq with hlt | heq
        · rcases hi.leader_safe hlt hlead ho with hs | ha
          · exact .inl (hkeep _ hp hs)
          · exact .inr ha
        · subst heq
          exact .inl (hkeep _ hp <| List.take_prefix _ _)
      · exact .inr ha
    · exact hi.acked_log hk ho

def ack (s : Replog N E) (n : N) (k : ℕ) : Replog N E :=
  { s with
    acked := Function.update s.acked n
      (Function.update (s.acked n) (s.term n) (max (s.acked n (s.term n)) k)) }

theorem ack_acked {n m : N} {k t : ℕ} :
    (s.ack n k).acked m t =
      if m = n ∧ t = s.term n then max (s.acked n (s.term n)) k else s.acked m t := by
  by_cases hm : m = n
  · subst hm
    by_cases ht : t = s.term m <;> simp [ack, ht]
  · simp [ack, hm]

theorem ack_acked_of_lt {n m : N} {k t : ℕ} (h : t < s.term m) :
    (s.ack n k).acked m t = s.acked m t := by
  rw [ack_acked, if_neg]
  rintro ⟨rfl, rfl⟩
  exact lt_irrefl _ h

theorem ack_grows (s : Replog N E) (n : N) (k : ℕ) : Grows s (s.ack n k) where
  __ := Grows.refl s
  acked m t := by
    rw [ack_acked]
    split
    · rename_i hmt
      rw [hmt.1, hmt.2]
      exact le_max_left _ _
    · exact le_rfl
  left ht := ack_acked_of_lt ht

theorem Inv.ack (hi : Inv members termOf s) {n : N} {k : ℕ}
    (hk : k ≤ (s.leaderLog (s.term n)).length)
    (hp : (s.leaderLog (s.term n)).take k <+: s.log n) : Inv members termOf (s.ack n k) where
  __ := hi
  acked_length m t := by
    rw [ack_acked]
    split
    · rename_i hmt
      rw [hmt.2]
      exact max_le (hi.acked_length n _) hk
    · exact hi.acked_length m t
  acked_term {m t} ha := by
    rw [ack_acked] at ha
    split at ha
    · rename_i hmt
      rw [hmt.1, hmt.2]
      exact le_rfl
    · exact hi.acked_term ha
  acked_current m := by
    show (s.leaderLog (s.term m)).take ((s.ack n k).acked m (s.term m)) <+: s.log m
    rw [ack_acked]
    split
    · rename_i hmt
      obtain ⟨rfl, _⟩ := hmt
      rcases max_choice (s.acked m (s.term m)) k with hmax | hmax
      · rw [hmax]
        exact hi.acked_current m
      · rw [hmax]
        exact hp
    · exact hi.acked_current m
  acked_log {m t j} hj ho := by
    have hold := fun h : j < s.acked m t => (hi.acked_log h ho).imp_right (Abandoned.mono (ack_grows s n k))
    rw [ack_acked] at hj
    split at hj
    · rename_i hmt
      obtain ⟨rfl, rfl⟩ := hmt
      rcases lt_max_iff.mp hj with h | h
      · exact hold h
      · exact .inl ((List.take_prefix_take_left h).trans hp)
    · exact hold hj
  leader_safe ht hl ho := (hi.leader_safe ht hl ho).imp_right (Abandoned.mono (ack_grows s n k))
  ballot_safe hb hL ht ho hj := by
    rw [ack_acked_of_lt (ht.trans_le (hi.ballot_term hb))] at hj
    exact (hi.ballot_safe hb hL ht ho hj).imp_right (Abandoned.mono (ack_grows s n k))

omit [DecidableEq N] in
theorem Inv.abandoned_of_won (hi : Inv members termOf s) {c : N} {t t' k : ℕ} (ht : t < t')
    (hw : s.Won members c t') (hk : (s.leaderLog t).length ≤ k) : s.Abandoned members t k := by
  obtain ⟨Q, hQ, hq⟩ := hw
  refine ⟨Q, hQ, ?_⟩
  intro n hn
  exact ⟨ht.trans_le (hi.ballot_term (hq n hn)), (hi.acked_length n t).trans hk⟩

def elect (s : Replog N E) (c : N) (t : ℕ) (L : List E) (e : E) : Replog N E :=
  { s with
    leader := Function.update s.leader t (some c)
    leaderLog := Function.update s.leaderLog t (L ++ [e]) }

omit [DecidableEq N] in
theorem elect_leader {c : N} {t u : ℕ} {L : List E} {e : E} :
    (s.elect c t L e).leader u = if u = t then some c else s.leader u := by
  by_cases hu : u = t <;> simp [elect, hu]

omit [DecidableEq N] in
theorem elect_leaderLog {c : N} {t u : ℕ} {L : List E} {e : E} :
    (s.elect c t L e).leaderLog u = if u = t then L ++ [e] else s.leaderLog u := by
  by_cases hu : u = t <;> simp [elect, hu]

omit [DecidableEq N] in
theorem elect_grows (hi : Inv members termOf s) {c : N} {t : ℕ} {L : List E} {e : E}
    (h : s.leader t = none) : Grows s (s.elect c t L e) where
  __ := Grows.refl s
  leader {u d} hl := by
    rw [elect_leader]
    split
    · rename_i hu
      rw [hu, h] at hl
      cases hl
    · exact hl
  leaderLog u := by
    rw [elect_leaderLog]
    split
    · rename_i hu
      rw [hu, hi.leader_none h]
      exact List.nil_prefix
    · exact List.prefix_refl _

omit [DecidableEq N] in
theorem Inv.lead (hi : Inv members termOf s) {leader : ℕ → Option N} {leaderLog : ℕ → List E}
    (hg : Grows s { s with leader := leader, leaderLog := leaderLog })
    (hnone : ∀ {t}, leader t = none → leaderLog t = [])
    (hwon : ∀ {t c}, leader t = some c → s.Won members c t)
    (hsome : ∀ {t c}, leader t = some c → leaderLog t ≠ [])
    (hvalid : ∀ t, Valid termOf { s with leader := leader, leaderLog := leaderLog } (leaderLog t))
    (hterm : ∀ {t e}, e ∈ leaderLog t → termOf e ≤ t)
    (hsafe : ∀ {t t' k}, t < t' → leader t' ≠ none → s.OwnAt termOf t k →
      (s.leaderLog t).take (k + 1) <+: leaderLog t' ∨ s.Abandoned members t k) :
    Inv members termOf { s with leader := leader, leaderLog := leaderLog } where
  __ := hi
  cand_valid hL := (hi.cand_valid hL).mono hg
  leader_none := hnone
  leader_some := hsome
  leader_won := hwon
  log_valid m := (hi.log_valid m).mono hg
  leader_valid := hvalid
  leader_term := hterm
  acked_length n u := (hi.acked_length n u).trans (hg.leaderLog u).length_le
  acked_current n := by
    rw [take_prefix_mono (hg.leaderLog _) (hi.acked_length n _)]
    exact hi.acked_current n
  acked_log {n u k} hk ho := by
    have hlt := hk.trans_le (hi.acked_length n u)
    rw [hg.take_eq hlt]
    exact (hi.acked_log hk (ho.of_grows hg hlt)).imp_right (Abandoned.mono hg)
  leader_safe {u u' k} huu hl ho := by
    rcases lt_or_ge k (s.leaderLog u).length with hlt | hge
    · rw [hg.take_eq hlt]
      exact (hsafe huu hl (ho.of_grows hg hlt)).imp_right (Abandoned.mono hg)
    -- The voters of the later leader had left the term before the entry was there.
    · obtain ⟨d, hd⟩ := Option.ne_none_iff_exists'.mp hl
      exact .inr (Abandoned.mono hg (hi.abandoned_of_won huu (hwon hd) hge))
  ballot_safe {n u u' d L k} hb hL huu ho hk := by
    have hlt := hk.trans_le (hi.acked_length n u)
    rw [hg.take_eq hlt]
    exact (hi.ballot_safe hb hL huu (ho.of_grows hg hlt) hk).imp_right (Abandoned.mono hg)

omit [DecidableEq N] in
theorem Valid.concat {l : List E} {e : E} (hv : s.Valid termOf l)
    (he : l ++ [e] <+: s.leaderLog (termOf e)) : s.Valid termOf (l ++ [e]) := by
  intro k x hx
  rcases lt_or_ge k l.length with hk | hk
  · rw [List.getElem?_append_left hk] at hx
    rw [List.take_append_of_le_length hk]
    exact hv k x hx
  · have hk' := (List.getElem?_eq_some_iff.mp hx).1
    obtain rfl : k = l.length := by
      simp only [List.length_append, List.length_singleton] at hk'
      omega
    rw [List.getElem?_concat_length, Option.some.injEq] at hx
    rw [← hx]
    exact List.take_prefix _ _ |>.trans he

omit [DecidableEq N] in
theorem Inv.elect (hi : Inv members termOf s) {c : N} {t : ℕ} {L : List E} {e : E}
    (h : s.leader t = none) (hw : s.Won members c t) (hL : s.candLog t c = some L)
    (he : termOf e = t) : Inv members termOf (s.elect c t L e) := by
  have hg : Grows s (s.elect c t L e) := elect_grows hi h
  refine hi.lead hg ?_ ?_ ?_ ?_ ?_ ?_
  · intro u hu
    rw [Function.update_apply] at hu ⊢
    split at hu
    · cases hu
    · next hut =>
      rw [if_neg hut]
      exact hi.leader_none hu
  · intro u d hu
    rw [Function.update_apply] at hu
    split at hu
    · next hut =>
      cases hu
      rw [hut]
      exact hw
    · exact hi.leader_won hu
  · intro u d hu
    rw [Function.update_apply] at hu ⊢
    split at hu
    · next hut =>
      rw [if_pos hut]
      simp
    · next hut =>
      rw [if_neg hut]
      exact hi.leader_some hu
  · intro u
    rw [Function.update_apply]
    split
    · refine ((hi.cand_valid hL).mono hg).concat ?_
      rw [he, elect_leaderLog, if_pos rfl]
    · exact (hi.leader_valid u).mono hg
  · intro u x hx
    rw [Function.update_apply] at hx
    split at hx
    · next hut =>
      rw [hut]
      rcases List.mem_append.mp hx with hx | hx
      · exact hi.cand_log_term hL hx
      · rw [List.mem_singleton.mp hx, he]
    · exact hi.leader_term hx
  · intro u u' k huu hl ho
    rw [Function.update_apply] at hl ⊢
    split at hl
    · next hu' =>
      subst hu'
      rw [if_pos rfl]
      obtain ⟨Q, hQ, hq⟩ := hw
      -- Either a voter carried the prefix into `L`, or the voters abandoned it.
      by_cases hex : ∃ n ∈ Q, k < s.acked n u
      · obtain ⟨n, hn, hk⟩ := hex
        exact (hi.ballot_safe (hq n hn) hL huu ho hk).imp_left (·.trans (List.prefix_append _ _))
      · refine .inr ⟨Q, hQ, fun n hn => ⟨huu.trans_le (hi.ballot_term (hq n hn)), ?_⟩⟩
        by_contra hk
        exact hex ⟨n, hn, not_le.mp hk⟩
    · next hu' =>
      rw [if_neg hu']
      exact hi.leader_safe huu hl ho

def extend (s : Replog N E) (t : ℕ) (e : E) : Replog N E :=
  { s with leaderLog := Function.update s.leaderLog t (s.leaderLog t ++ [e]) }

omit [DecidableEq N] in
theorem extend_leaderLog {t u : ℕ} {e : E} :
    (s.extend t e).leaderLog u =
      if u = t then s.leaderLog t ++ [e] else s.leaderLog u := by
  by_cases hu : u = t <;> simp [extend, hu]

omit [DecidableEq N] in
theorem extend_grows (s : Replog N E) (t : ℕ) (e : E) : Grows s (s.extend t e) where
  __ := Grows.refl s
  leaderLog u := by
    rw [extend_leaderLog]
    split
    · rename_i hu
      rw [hu]
      exact List.prefix_append _ _
    · exact List.prefix_refl _

omit [DecidableEq N] in
theorem Inv.extend (hi : Inv members termOf s) {c : N} {t : ℕ} {e : E}
    (h : s.leader t = some c) (he : termOf e = t) : Inv members termOf (s.extend t e) := by
  have hg := extend_grows s t e
  refine hi.lead hg ?_ hi.leader_won ?_ ?_ ?_ ?_
  · intro u hu
    rw [Function.update_apply, if_neg]
    · exact hi.leader_none hu
    · rintro rfl
      rw [h] at hu
      cases hu
  · intro u d hu hnil
    apply hi.leader_some hu
    exact List.prefix_nil.mp (hnil ▸ hg.leaderLog u)
  · intro u
    rw [Function.update_apply]
    split
    · refine ((hi.leader_valid t).mono hg).concat ?_
      rw [he, extend_leaderLog, if_pos rfl]
    · exact (hi.leader_valid u).mono hg
  · intro u x hx
    rw [Function.update_apply] at hx
    split at hx
    · next hut =>
      rw [hut]
      rcases List.mem_append.mp hx with hx | hx
      · exact hi.leader_term hx
      · rw [List.mem_singleton.mp hx, he]
    · exact hi.leader_term hx
  · intro u u' k huu hl ho
    exact (hi.leader_safe huu hl ho).imp_left (·.trans (hg.leaderLog u'))

end MiniQuorum.Consensus.Replog
