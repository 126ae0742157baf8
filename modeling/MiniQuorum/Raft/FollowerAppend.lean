import MiniQuorum.Raft.Contiguous

/-! What a follower's log becomes under the entries of a request.  The log may start behind
any snapshot. -/

namespace MiniQuorum.Raft

namespace RaftLog

variable {l : RaftLog} {es new same rest : List Entry} {e : Entry} {i n p : Nat}
  {req : AppendEntriesReq}

def Follows (l : RaftLog) : Prop := NumberedFrom l.firstIndex l.entries

def Conflicts (l : RaftLog) (e : Entry) : Prop :=
  ∃ term, l.term e.index = some term ∧ term ≠ e.term

def splice (l : RaftLog) (n : Nat) (new : List Entry) : RaftLog :=
  { l with entries := l.entries.take n ++ new }

namespace Follows

theorem entry_add (h : l.Follows) (k : Nat) : l.entry (l.firstIndex + k) = l.entries[k]? := by
  rw [RaftLog.entry]
  cases hl : l.entries with
  | nil => simp
  | cons first rest =>
    have hnumbered : NumberedFrom l.firstIndex (first :: rest) := hl ▸ h
    simp only [hnumbered.1, Nat.add_sub_cancel_left]
    rw [if_neg (Nat.not_lt.2 (Nat.le_add_right _ _))]
    cases hk : (first :: rest)[k]? with
    | none => rfl
    | some e => simp [hnumbered.getElem? hk]

theorem entry_of_lt (h : l.Follows) (hi : i < l.firstIndex) : l.entry i = none := by
  rw [RaftLog.entry]
  cases hl : l.entries with
  | nil => rfl
  | cons first rest =>
    have hnumbered : NumberedFrom l.firstIndex (first :: rest) := hl ▸ h
    simp only [hnumbered.1]
    rw [if_pos hi]

theorem term_add (h : l.Follows) (k : Nat) :
    l.term (l.firstIndex + k) = l.entries[k]?.map Entry.term := by
  rw [RaftLog.term, if_neg (by rw [firstIndex]; omega), h.entry_add]

theorem of_matchesAt (h : l.Follows) {term : Nat} (hm : l.matchesAt p term = true) :
    ∃ n, n ≤ l.entries.length ∧ p + 1 = l.firstIndex + n := by
  have hterm : l.term p = some term := beq_iff_eq.1 hm
  rcases lt_trichotomy p l.snapshot.index with hlt | rfl | hgt
  · rw [RaftLog.term, if_neg hlt.ne, h.entry_of_lt (by rw [firstIndex]; omega)] at hterm
    cases hterm
  · exact ⟨0, Nat.zero_le _, rfl⟩
  · obtain ⟨k, rfl⟩ := Nat.exists_eq_add_of_le (show l.firstIndex ≤ p from hgt)
    rw [h.term_add] at hterm
    obtain ⟨a, ha, -⟩ := Option.map_eq_some_iff.1 hterm
    exact ⟨k + 1, (List.getElem?_eq_some_iff.1 ha).1, rfl⟩

theorem truncateFrom_entries (h : l.Follows) (k : Nat) :
    (l.truncateFrom (l.firstIndex + k)).entries = l.entries.take k := h.takeWhile

theorem splice (h : l.Follows) (hn : n ≤ l.entries.length)
    (hnew : NumberedFrom (l.firstIndex + n) new) : (l.splice n new).Follows := by
  refine numberedFrom_append.2 ⟨NumberedFrom.mono h <| List.take_prefix _ _, ?_⟩
  rw [List.length_take, min_eq_left hn]
  exact hnew

theorem entry_splice_of_lt (h : l.Follows) (hn : n ≤ l.entries.length)
    (hnew : NumberedFrom (l.firstIndex + n) new) (hi : i < l.firstIndex + n) :
    (l.splice n new).entry i = l.entry i := by
  have hspliced := h.splice hn hnew
  rcases Nat.lt_or_ge i l.firstIndex with hlt | hge
  · rw [h.entry_of_lt hlt, hspliced.entry_of_lt hlt]
  · obtain ⟨k, rfl⟩ := Nat.exists_eq_add_of_le hge
    have hk : k < n := Nat.lt_of_add_lt_add_left hi
    rw [h.entry_add]
    refine (hspliced.entry_add k).trans ?_
    rw [RaftLog.splice, List.getElem?_append_left (by rw [List.length_take]; omega),
      List.getElem?_take_of_lt hk]

theorem entry_splice_add (h : l.Follows) (hn : n ≤ l.entries.length)
    (hnew : NumberedFrom (l.firstIndex + n) new) (k : Nat) :
    (l.splice n new).entry (l.firstIndex + n + k) = new[k]? := by
  rw [Nat.add_assoc]
  refine ((h.splice hn hnew).entry_add (n + k)).trans ?_
  have hlen : (l.entries.take n).length = n := by rw [List.length_take, min_eq_left hn]
  rw [RaftLog.splice, List.getElem?_append_right (by omega), hlen, Nat.add_sub_cancel_left]

end Follows

theorem incoming_of_numbered (hp : l.firstIndex ≤ p) (hes : NumberedFrom p es) :
    l.incoming (es.map some) = es := by
  induction es generalizing p with
  | nil => rfl
  | cons e es ih =>
    obtain ⟨he, hrest⟩ := hes
    have hbeyond : ¬e.index ≤ l.snapshot.index := by
      rw [firstIndex] at hp
      omega
    have htail := ih (Nat.le_succ_of_le hp) hrest
    rw [incoming] at htail ⊢
    simp only [List.map_cons, List.filterMap_cons, if_neg hbeyond]
    rw [htail]

theorem Follows.appendFromLeader_cases (h : l.Follows) (hn : n ≤ l.entries.length)
    (hes : NumberedFrom (l.firstIndex + n) es) :
    (l.appendFromLeader (es.map some) = (l, 0) ∧ ∀ e ∈ es, l.term e.index = some e.term) ∨
      ∃ same e rest, es = same ++ e :: rest ∧ (∀ a ∈ same, l.term a.index = some a.term) ∧
        l.term e.index ≠ some e.term ∧ n + same.length ≤ l.entries.length ∧
        l.appendFromLeader (es.map some) =
          (l.splice (n + same.length) (e :: rest), e.index) := by
  induction es generalizing n with
  | nil => exact .inl ⟨rfl, by simp⟩
  | cons e es ih =>
    obtain ⟨he, hrest⟩ := hes
    have hbeyond : ¬e.index ≤ l.snapshot.index := by
      rw [he, firstIndex]
      omega
    rw [List.map_cons, RaftLog.appendFromLeader, if_neg hbeyond]
    by_cases hterm : l.term e.index = some e.term
    · rw [if_pos hterm]
      have hlt : n < l.entries.length := by
        rw [he, h.term_add] at hterm
        obtain ⟨a, ha, -⟩ := Option.map_eq_some_iff.1 hterm
        exact (List.getElem?_eq_some_iff.1 ha).1
      rcases ih hlt hrest with ⟨heq, hall⟩ | ⟨same, a, rest, rfl, hsame, ha, hle, heq⟩
      · exact .inl ⟨heq, List.forall_mem_cons.2 ⟨hterm, hall⟩⟩
      · refine .inr ⟨e :: same, a, rest, rfl, List.forall_mem_cons.2 ⟨hterm, hsame⟩, ha, ?_, ?_⟩
        · rw [List.length_cons]
          omega
        · rw [heq, List.length_cons, Nat.succ_add_eq_add_succ]
    · right
      refine ⟨[], e, es, rfl, by simp, hterm, hn, ?_⟩
      have hin : (l.truncateFrom e.index).incoming (some e :: es.map some) = e :: es :=
        incoming_of_numbered (l := l.truncateFrom e.index) (Nat.le_add_right l.firstIndex n)
          (show NumberedFrom (l.firstIndex + n) (e :: es) from ⟨he, hrest⟩)
      rw [if_neg hterm]
      simp only [hin]
      rw [he, h.truncateFrom_entries]
      rfl

theorem appendFromLeader_of_terms (hes : ∀ e ∈ es, l.term e.index = some e.term) :
    l.appendFromLeader (es.map some) = (l, 0) := by
  induction es with
  | nil => rfl
  | cons e es ih =>
    obtain ⟨he, hrest⟩ := List.forall_mem_cons.1 hes
    rw [List.map_cons, RaftLog.appendFromLeader, if_pos he, ih hrest, ite_self]

theorem term_eq_some_iff {term : Nat} (hi : l.firstIndex ≤ i) :
    l.term i = some term ↔ ∃ a, l.entry i = some a ∧ a.term = term := by
  rw [RaftLog.term, if_neg (by rw [firstIndex] at hi; omega), Option.map_eq_some_iff]

/-- What a follower's log is behind a request: `l'`, with `changed` as the first index that is
not as it was. -/
structure Receives (l : RaftLog) (req : AppendEntriesReq) (l' : RaftLog) (changed : Nat) :
    Prop where
  follows : l'.Follows
  previous : l'.matchesAt req.prevLogIndex req.prevLogTerm = true
  covered : ∀ e, some e ∈ req.entries → ∃ a, l'.entry e.index = some a ∧ a.term = e.term
  untouched : ∀ i, (∀ e, some e ∈ req.entries → e.index ≤ i → l.term e.index = some e.term) →
    l'.entry i = l.entry i
  beyond : ∀ i a, req.prevLogIndex + req.entries.length < i → l.entry i = some a →
    (l'.entry i = some a ↔ ∀ e, some e ∈ req.entries → ¬l.Conflicts e)
  unchanged : changed = 0 ↔ l' = l
  first : changed ≠ 0 → l'.entry changed ≠ l.entry changed ∧
    ∀ i < changed, l'.entry i = l.entry i
  again : ∀ count, l'.appendFromLeader (req.entries.take count) = (l', 0)

namespace Follows

theorem receives_of_terms (h : l.Follows)
    (hprev : l.matchesAt req.prevLogIndex req.prevLogTerm = true)
    (hreq : req.entries = es.map some) (hfirst : ∀ e ∈ es, l.firstIndex ≤ e.index)
    (hes : ∀ e ∈ es, l.term e.index = some e.term) : l.Receives req l 0 := by
  have hmem {e : Entry} : some e ∈ req.entries ↔ e ∈ es := by simp [hreq]
  refine ⟨h, hprev, ?_, fun _ _ => rfl, ?_, by simp, by simp, ?_⟩
  · intro e he
    exact (term_eq_some_iff (hfirst e (hmem.1 he))).1 (hes e (hmem.1 he))
  · intro i a _ ha
    refine ⟨?_, fun _ => ha⟩
    rintro _ e he ⟨term, hterm, hne⟩
    exact hne (Option.some.inj (hterm.symm.trans (hes e (hmem.1 he))))
  · intro count
    rw [hreq, ← List.map_take]
    exact appendFromLeader_of_terms fun e he => hes e (List.mem_of_mem_take he)

theorem entry_splice_ne (h : l.Follows) (hn : n ≤ l.entries.length)
    (hnew : NumberedFrom (l.firstIndex + n) (e :: rest)) (he : l.term e.index ≠ some e.term) :
    (l.splice n (e :: rest)).entry e.index ≠ l.entry e.index := by
  intro heq
  refine he ((term_eq_some_iff (hnew.1 ▸ Nat.le_add_right _ _)).2 ⟨e, ?_, rfl⟩)
  rw [← heq, hnew.1]
  exact h.entry_splice_add hn hnew 0

theorem conflicts_of_lt (h : l.Follows) (hindex : e.index = l.firstIndex + n)
    (hn : n < l.entries.length) (he : l.term e.index ≠ some e.term) : l.Conflicts e := by
  have hterm : l.term e.index = some (l.entries[n]).term := by
    rw [hindex, h.term_add, List.getElem?_eq_getElem hn]
    rfl
  exact ⟨_, hterm, fun heq => he (heq ▸ hterm)⟩

theorem entry_splice_covered (h : l.Follows)
    (hnumbered : NumberedFrom (l.firstIndex + n) (same ++ new))
    (hsame : ∀ a ∈ same, l.term a.index = some a.term) (hle : n + same.length ≤ l.entries.length)
    {a : Entry} (ha : a ∈ same ++ new) : l.firstIndex ≤ a.index ∧
      ∃ b, (l.splice (n + same.length) new).entry a.index = some b ∧ b.term = a.term := by
  obtain ⟨hbefore, hnew⟩ := numberedFrom_append.1 hnumbered
  rw [Nat.add_assoc] at hnew
  rcases List.mem_append.1 ha with ha | ha
  · obtain ⟨k, hk⟩ := List.mem_iff_getElem?.1 ha
    have hlt := (List.getElem?_eq_some_iff.1 hk).1
    have hat := hbefore.getElem? hk
    have hge : l.firstIndex ≤ a.index := by omega
    refine ⟨hge, ?_⟩
    rw [h.entry_splice_of_lt hle hnew (by omega)]
    exact (term_eq_some_iff hge).1 (hsame a ha)
  · obtain ⟨k, hk⟩ := List.mem_iff_getElem?.1 ha
    have hat := hnew.getElem? hk
    refine ⟨by omega, a, ?_, rfl⟩
    rw [hat, h.entry_splice_add hle hnew]
    exact hk

theorem receives_of_splice (h : l.Follows)
    (hprev : l.matchesAt req.prevLogIndex req.prevLogTerm = true)
    (hn : req.prevLogIndex + 1 = l.firstIndex + n) (hreq : req.entries = (same ++ e :: rest).map some)
    (hnumbered : NumberedFrom (l.firstIndex + n) (same ++ e :: rest))
    (hsame : ∀ a ∈ same, l.term a.index = some a.term) (he : l.term e.index ≠ some e.term)
    (hle : n + same.length ≤ l.entries.length) :
    l.Receives req (l.splice (n + same.length) (e :: rest)) e.index := by
  obtain ⟨-, hnew⟩ := numberedFrom_append.1 hnumbered
  rw [Nat.add_assoc] at hnew
  have hindex : e.index = l.firstIndex + (n + same.length) := hnew.1
  have hmem {a : Entry} : some a ∈ req.entries ↔ a ∈ same ++ e :: rest := by simp [hreq]
  have hcut : some e ∈ req.entries := hmem.2 (by simp)
  have hcovered {a : Entry} := h.entry_splice_covered hnumbered hsame hle (a := a)
  have hlow {i : Nat} (hi : i < e.index) := h.entry_splice_of_lt hle hnew (hindex ▸ hi)
  have hne := h.entry_splice_ne hle hnew he
  refine ⟨h.splice hle hnew, ?_, fun a ha => (hcovered (hmem.1 ha)).2, ?_, ?_, ?_,
    fun _ => ⟨hne, fun i hi => hlow hi⟩, ?_⟩
  · have hterm : l.term req.prevLogIndex = some req.prevLogTerm := beq_iff_eq.1 hprev
    refine beq_iff_eq.2 ?_
    rw [RaftLog.term] at hterm ⊢
    rw [hlow (by omega)]
    exact hterm
  · intro i hi
    refine hlow (Nat.lt_of_not_le ?_)
    intro hge
    exact he (hi e hcut hge)
  · intro i a hi ha
    rw [hreq, List.length_map, List.length_append] at hi
    obtain ⟨k, rfl⟩ := Nat.exists_eq_add_of_le
      (show l.firstIndex + (n + same.length) ≤ i by omega)
    have hnone : (l.splice (n + same.length) (e :: rest)).entry
        (l.firstIndex + (n + same.length) + k) = none := by
      rw [h.entry_splice_add hle hnew, List.getElem?_eq_none (by omega)]
    have hlonger : n + same.length < l.entries.length := by
      rw [Nat.add_assoc, h.entry_add] at ha
      have hlt := (List.getElem?_eq_some_iff.1 ha).1
      rw [List.length_cons] at hi
      omega
    rw [hnone]
    refine iff_of_false (by simp) ?_
    intro hall
    exact hall e hcut (h.conflicts_of_lt hindex hlonger he)
  · refine iff_of_false ?_ ?_
    · rw [hindex, firstIndex]
      omega
    · intro heq
      exact hne (by rw [heq])
  · intro count
    rw [hreq, ← List.map_take]
    refine appendFromLeader_of_terms ?_
    intro a ha
    obtain ⟨hge, hentry⟩ := hcovered (List.mem_of_mem_take ha)
    exact (term_eq_some_iff (l := l.splice (n + same.length) (e :: rest)) hge).2 hentry

end Follows

/-- A request whose entries follow an entry that the log has: the log gets its terms, is cut
only where an entry differs, and takes the request again without a change. -/
theorem appendFromLeader_exact (l : RaftLog) (req : AppendEntriesReq) (hlog : l.Follows)
    (hprev : l.matchesAt req.prevLogIndex req.prevLogTerm = true)
    (hentries : contiguousFrom (req.prevLogIndex + 1) req.entries = true) :
    l.Receives req (l.appendFromLeader req.entries).1 (l.appendFromLeader req.entries).2 := by
  obtain ⟨es, hreq, hnumbered⟩ := exists_of_contiguousFrom hentries
  obtain ⟨n, hn, hindex⟩ := hlog.of_matchesAt hprev
  rw [hindex] at hnumbered
  rcases hlog.appendFromLeader_cases hn hnumbered with
    ⟨heq, hes⟩ | ⟨same, e, rest, rfl, hsame, he, hle, heq⟩
  · rw [hreq, heq]
    refine hlog.receives_of_terms hprev hreq ?_ hes
    intro e he
    obtain ⟨k, hk⟩ := List.mem_iff_getElem?.1 he
    have hat := hnumbered.getElem? hk
    omega
  · rw [hreq, heq]
    exact hlog.receives_of_splice hprev hindex hreq hnumbered hsame he hle

def behindSnapshot : RaftLog :=
  ⟨⟨2, 1⟩, [⟨3, 1, .normal, []⟩, ⟨4, 1, .normal, [1]⟩, ⟨5, 2, .normal, [2]⟩, ⟨6, 2, .normal, []⟩]⟩

def conflictingRequest : AppendEntriesReq :=
  ⟨3, 1, 3, 1, [some ⟨4, 1, .normal, [1]⟩, some ⟨5, 3, .noop, []⟩], 3⟩

theorem appendFromLeader_exact_conflictingRequest :
    (behindSnapshot.appendFromLeader conflictingRequest.entries).2 = 5 ∧
      behindSnapshot.Receives conflictingRequest
        (behindSnapshot.appendFromLeader conflictingRequest.entries).1
        (behindSnapshot.appendFromLeader conflictingRequest.entries).2 := by
  refine ⟨by decide, appendFromLeader_exact behindSnapshot conflictingRequest ?_ (by decide)
    (by decide)⟩
  exact ⟨rfl, rfl, rfl, rfl, trivial⟩

end RaftLog

end MiniQuorum.Raft
