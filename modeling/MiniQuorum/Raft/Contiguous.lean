import MiniQuorum.Raft.Node
import MiniQuorum.Consensus.ReplicatedLog

namespace MiniQuorum.Raft

open Consensus (Replog)

def NumberedFrom : Nat → List Entry → Prop
  | _, [] => True
  | i, e :: es => e.index = i ∧ NumberedFrom (i + 1) es

theorem numberedFrom_iff {i : Nat} {l : List Entry} :
    NumberedFrom i l ↔ ∀ k e, l[k]? = some e → e.index = i + k := by
  induction l generalizing i with
  | nil => simp [NumberedFrom]
  | cons a l ih =>
    simp only [NumberedFrom, ih]
    constructor
    · rintro ⟨ha, hl⟩ k e he
      cases k with
      | zero =>
        cases he
        exact ha
      | succ k =>
        rw [hl k e he]
        omega
    · intro h
      refine ⟨h 0 a rfl, ?_⟩
      intro k e he
      rw [h (k + 1) e he]
      omega

theorem NumberedFrom.getElem? {i k : Nat} {l : List Entry} {e : Entry} (h : NumberedFrom i l)
    (he : l[k]? = some e) : e.index = i + k :=
  numberedFrom_iff.mp h k e he

theorem NumberedFrom.mono {i : Nat} {l l' : List Entry} (h : NumberedFrom i l')
    (hp : l <+: l') : NumberedFrom i l :=
  numberedFrom_iff.mpr fun _ _ he => h.getElem? (Replog.prefix_getElem? hp he)

theorem numberedFrom_append {i : Nat} {l l' : List Entry} :
    NumberedFrom i (l ++ l') ↔ NumberedFrom i l ∧ NumberedFrom (i + l.length) l' := by
  induction l generalizing i with
  | nil => simp [NumberedFrom]
  | cons a l ih =>
    simp only [List.cons_append, NumberedFrom, ih, List.length_cons, and_assoc]
    rw [Nat.add_right_comm, Nat.add_assoc]

theorem NumberedFrom.takeWhile {i k : Nat} {l : List Entry} (h : NumberedFrom i l) :
    l.takeWhile (fun e => e.index < i + k) = l.take k := by
  induction l generalizing i k with
  | nil => simp
  | cons a l ih =>
    obtain ⟨ha, hl⟩ := h
    cases k with
    | zero => simp [ha]
    | succ k =>
      have hlt : a.index < i + (k + 1) := by omega
      rw [List.takeWhile_cons_of_pos (by simpa using hlt), List.take_succ_cons]
      rw [show i + (k + 1) = i + 1 + k by omega, ih hl]

theorem exists_of_contiguousFrom {i : Nat} {entries : List (Option Entry)}
    (h : contiguousFrom i entries = true) :
    ∃ es, entries = es.map some ∧ NumberedFrom i es := by
  induction entries generalizing i with
  | nil => exact ⟨[], rfl, trivial⟩
  | cons x rest ih =>
    cases x with
    | none => cases h
    | some e =>
      rw [contiguousFrom, Bool.and_eq_true, beq_iff_eq] at h
      obtain ⟨es, rfl, hes⟩ := ih h.2
      exact ⟨e :: es, rfl, h.1, hes⟩

def termAt (l : List Entry) (index : Nat) : Option Nat :=
  if index = 0 then some 0 else l[index - 1]?.map Entry.term

@[simp] theorem termAt_zero (l : List Entry) : termAt l 0 = some 0 := rfl

@[simp] theorem termAt_succ (l : List Entry) (k : Nat) :
    termAt l (k + 1) = l[k]?.map Entry.term := rfl

theorem termAt_le_length {l : List Entry} {index term : Nat} (h : termAt l index = some term) :
    index ≤ l.length := by
  rw [termAt] at h
  split at h
  · omega
  · obtain ⟨e, he, _⟩ := Option.map_eq_some_iff.mp h
    have := (List.getElem?_eq_some_iff.mp he).1
    omega

theorem termAt_isPrefix {l l' : List Entry} {index : Nat} (hp : l <+: l')
    (h : index ≤ l.length) : termAt l' index = termAt l index := by
  rw [termAt, termAt]
  split
  · rfl
  · obtain ⟨r, rfl⟩ := hp
    rw [List.getElem?_append_left (by omega)]

structure RaftLog.Numbered (l : RaftLog) : Prop where
  snapshot : l.snapshot.index = 0
  numbered : NumberedFrom 1 l.entries

namespace RaftLog.Numbered

variable {l : RaftLog}

theorem lastIndex (h : l.Numbered) : l.lastIndex = l.entries.length := by
  rw [RaftLog.lastIndex]
  cases hl : l.entries.getLast? with
  | none =>
    rw [List.getLast?_eq_none_iff.mp hl]
    simp [h.snapshot]
  | some e =>
    rw [List.getLast?_eq_getElem?] at hl
    have hk := (List.getElem?_eq_some_iff.mp hl).1
    have := h.numbered.getElem? hl
    show e.index = _
    omega

theorem entry_succ (h : l.Numbered) (k : Nat) : l.entry (k + 1) = l.entries[k]? := by
  rw [RaftLog.entry]
  cases hl : l.entries with
  | nil => simp
  | cons first rest =>
    have hfirst : first.index = 1 := by
      have := h.numbered
      rw [hl] at this
      exact this.1
    simp only [hfirst, Nat.add_sub_cancel]
    rw [if_neg (by omega)]
    cases hk : (first :: rest)[k]? with
    | none => rfl
    | some e =>
      rw [← hl] at hk
      have hindex : e.index = k + 1 := by
        rw [h.numbered.getElem? hk]
        omega
      simp [hindex]

theorem term_succ (h : l.Numbered) (k : Nat) : l.term (k + 1) = l.entries[k]?.map Entry.term := by
  rw [RaftLog.term, if_neg (by rw [h.snapshot]; omega), h.entry_succ]

theorem matchesAt_le (h : l.Numbered) {index term : Nat} (hm : l.matchesAt index term = true) :
    index ≤ l.entries.length := by
  have hterm : l.term index = some term := beq_iff_eq.mp hm
  cases index with
  | zero => exact Nat.zero_le _
  | succ k =>
    rw [h.term_succ] at hterm
    obtain ⟨e, he, -⟩ := Option.map_eq_some_iff.mp hterm
    exact (List.getElem?_eq_some_iff.mp he).1

theorem truncateFrom (h : l.Numbered) (k : Nat) :
    (l.truncateFrom (k + 1)).entries = l.entries.take k := by
  have := h.numbered.takeWhile (k := k)
  rw [Nat.add_comm 1 k] at this
  exact this

theorem incoming_eq (h : l.snapshot.index = 0) {i : Nat} {es : List Entry}
    (hes : NumberedFrom (i + 1) es) : l.incoming (es.map some) = es := by
  induction es generalizing i with
  | nil => rfl
  | cons e es ih =>
    obtain ⟨he, hrest⟩ := hes
    have := ih hrest
    rw [RaftLog.incoming] at this ⊢
    simp only [List.map_cons, List.filterMap_cons, h, he]
    simp only [h] at this
    rw [if_neg (by omega), this]

theorem appendFromLeader_cases (h : l.Numbered) {es : List Entry} {p : Nat}
    (hp : p ≤ l.entries.length) (hes : NumberedFrom (p + 1) es) :
    l.appendFromLeader (es.map some) = (l, 0) ∨
      ∃ k es', k ≤ l.entries.length ∧ es' ≠ [] ∧ NumberedFrom (k + 1) es' ∧
        l.appendFromLeader (es.map some) = ({ l with entries := l.entries.take k ++ es' }, k + 1) := by
  induction es generalizing p with
  | nil => exact .inl rfl
  | cons e es ih =>
    obtain ⟨he, hrest⟩ := hes
    have hbeyond : ¬ e.index ≤ l.snapshot.index := by
      rw [h.snapshot, he]
      exact Nat.not_succ_le_zero p
    rw [List.map_cons, RaftLog.appendFromLeader, if_neg hbeyond, he, h.term_succ]
    by_cases hterm : l.entries[p]?.map Entry.term = some e.term
    · rw [if_pos hterm]
      obtain ⟨a, ha, _⟩ := Option.map_eq_some_iff.mp hterm
      exact ih (List.getElem?_eq_some_iff.mp ha).1 hrest
    · right
      have hes : NumberedFrom (p + 1) (e :: es) := ⟨he, hrest⟩
      have hin : (l.truncateFrom (p + 1)).incoming (some e :: es.map some) = e :: es :=
        incoming_eq h.snapshot hes
      refine ⟨p, e :: es, hp, List.cons_ne_nil e es, hes, ?_⟩
      rw [if_neg hterm]
      simp only [hin, h.truncateFrom p]
      rfl

theorem cut (h : l.Numbered) {k : Nat} (hk : k ≤ l.entries.length) {es : List Entry}
    (hes : NumberedFrom (k + 1) es) :
    RaftLog.Numbered { l with entries := l.entries.take k ++ es } where
  snapshot := h.snapshot
  numbered := by
    rw [numberedFrom_append, List.length_take, min_eq_left hk, Nat.add_comm 1 k]
    exact ⟨h.numbered.mono <| List.take_prefix _ _, hes⟩

theorem appendLocal (h : l.Numbered) (term : Nat) (type : EntryType) (data : Bytes) :
    l.appendLocal term type data =
      ({ l with entries := l.entries ++ [⟨l.entries.length + 1, term, type, data⟩] },
        l.entries.length + 1) := by
  rw [RaftLog.appendLocal, h.lastIndex]

theorem append (h : l.Numbered) (term : Nat) (type : EntryType) (data : Bytes) :
    (l.appendLocal term type data).1.Numbered := by
  have hnew : NumberedFrom (l.entries.length + 1) [⟨l.entries.length + 1, term, type, data⟩] :=
    ⟨rfl, trivial⟩
  have hcut := h.cut le_rfl hnew
  rw [List.take_length] at hcut
  rw [h.appendLocal]
  exact hcut

end RaftLog.Numbered

/-- A log that starts at index one without a snapshot. -/
structure RaftLog.Contiguous (l : RaftLog) : Prop where
  snapshot : l.snapshot = ⟨0, 0⟩
  numbered : NumberedFrom 1 l.entries

namespace RaftLog

variable {l : RaftLog}

theorem Contiguous.firstIndex (h : l.Contiguous) : l.firstIndex = 1 := by
  simp [RaftLog.firstIndex, h.snapshot]

theorem Contiguous.toNumbered (h : l.Contiguous) : l.Numbered :=
  ⟨by rw [h.snapshot], h.numbered⟩

theorem Contiguous.lastIndex (h : l.Contiguous) : l.lastIndex = l.entries.length :=
  h.toNumbered.lastIndex

theorem Contiguous.term (h : l.Contiguous) (index : Nat) :
    l.term index = termAt l.entries index := by
  rw [RaftLog.term, termAt, h.snapshot]
  cases index with
  | zero => simp
  | succ k => simp [h.toNumbered.entry_succ]

theorem Contiguous.lastTerm (h : l.Contiguous) :
    l.lastTerm = Replog.lastTerm Entry.term l.entries := by
  rw [RaftLog.lastTerm, h.term, h.lastIndex, termAt, Replog.lastTerm]
  cases hl : l.entries with
  | nil => simp
  | cons a rest => simp [List.getLast?_eq_getElem?]

theorem Contiguous.rangeLoop (h : l.Contiguous) (k count : Nat) :
    l.rangeLoop (k + 1) count = (l.entries.drop k).take count := by
  induction count generalizing k with
  | zero => simp [RaftLog.rangeLoop]
  | succ count ih =>
    rw [RaftLog.rangeLoop, h.toNumbered.entry_succ]
    cases hk : l.entries[k]? with
    | none =>
      rw [List.drop_eq_nil_of_le (List.getElem?_eq_none_iff.mp hk)]
      simp
    | some e =>
      obtain ⟨hlt, rfl⟩ := List.getElem?_eq_some_iff.mp hk
      rw [ih, List.drop_eq_getElem_cons hlt, List.take_succ_cons]

theorem Contiguous.rangeEntries (h : l.Contiguous) (k hi : Nat) :
    l.rangeEntries (k + 1) hi = (l.entries.drop k).take (hi - (k + 1)) :=
  h.rangeLoop k _

theorem Contiguous.appendFromLeader (h : l.Contiguous) {target es : List Entry} {p : Nat}
    (hp : p ≤ l.entries.length) (hagree : l.entries.take p = target.take p)
    (hwindow : target.take p ++ es <+: target) (hes : NumberedFrom (p + 1) es)
    (hmatch : ∀ k e e', l.entries[k]? = some e → target[k]? = some e' → e.term = e'.term →
      l.entries.take (k + 1) = target.take (k + 1)) :
    (l.appendFromLeader (es.map some) = (l, 0) ∧ target.take p ++ es <+: l.entries) ∨
    ∃ k, p ≤ k ∧ k < p + es.length ∧ k ≤ l.entries.length ∧
      l.entries.take k = target.take k ∧
      (∀ e e', l.entries[k]? = some e → target[k]? = some e' → e.term ≠ e'.term) ∧
      l.appendFromLeader (es.map some) =
        ({ l with entries := target.take p ++ es }, k + 1) := by
  have hlen : (target.take p).length = p := by
    rw [← hagree, List.length_take, min_eq_left hp]
  induction es generalizing p with
  | nil =>
    left
    refine ⟨rfl, ?_⟩
    rw [List.append_nil, ← hagree]
    exact List.take_prefix _ _
  | cons e es ih =>
    obtain ⟨he, hrest⟩ := hes
    have htarget : target[p]? = some e := by
      apply Replog.prefix_getElem? hwindow
      rw [List.getElem?_append_right hlen.le, hlen, Nat.sub_self, List.getElem?_cons_zero]
    have hstep : target.take (p + 1) = target.take p ++ [e] := by
      rw [List.take_add_one, htarget]
      rfl
    have hregroup : target.take p ++ e :: es = target.take (p + 1) ++ es := by
      rw [hstep, List.append_assoc, List.singleton_append]
    have hbeyond : ¬ e.index ≤ l.snapshot.index := by
      rw [h.snapshot, he]
      exact Nat.not_succ_le_zero p
    rw [List.map_cons, RaftLog.appendFromLeader, if_neg hbeyond, he, h.term, termAt_succ]
    by_cases hterm : l.entries[p]?.map Entry.term = some e.term
    · -- The local entry has the window's term, so both logs agree one entry further.
      obtain ⟨a, ha, hae⟩ := Option.map_eq_some_iff.mp hterm
      have hlt := (List.getElem?_eq_some_iff.mp ha).1
      rw [if_pos hterm, hregroup]
      rw [hregroup] at hwindow
      have hagree' := hmatch p a e ha htarget hae
      rcases ih hlt hagree' hwindow hrest (by rw [← hagree', List.length_take]; omega) with
        hsame | ⟨k, hk, hk', hle, htake, hne, heq⟩
      · exact .inl hsame
      · refine .inr ⟨k, by omega, ?_, hle, htake, hne, heq⟩
        simp only [List.length_cons]
        omega
    · right
      rw [if_neg hterm]
      refine ⟨p, le_rfl, by simp, hp, hagree, ?_, ?_⟩
      · intro a a' ha ha' hat
        rw [htarget] at ha'
        cases ha'
        exact hterm (by rw [ha, Option.map_some, hat])
      · have hcut := h.toNumbered.truncateFrom p
        have hin : (l.truncateFrom (p + 1)).incoming (some e :: es.map some) = e :: es :=
          Numbered.incoming_eq h.toNumbered.snapshot (show NumberedFrom (p + 1) (e :: es) from ⟨he, hrest⟩)
        simp only [hin, hcut, hagree]
        rfl

theorem Contiguous.cut (h : l.Contiguous) {k : Nat} (hk : k ≤ l.entries.length)
    {es : List Entry} (hes : NumberedFrom (k + 1) es) :
    RaftLog.Contiguous { l with entries := l.entries.take k ++ es } :=
  ⟨h.snapshot, (h.toNumbered.cut hk hes).numbered⟩

theorem Contiguous.append (h : l.Contiguous) (term : Nat) (type : EntryType) (data : Bytes) :
    (l.appendLocal term type data).1.Contiguous :=
  ⟨h.snapshot, (h.toNumbered.append term type data).numbered⟩

end RaftLog

end MiniQuorum.Raft
