import Mathlib.Data.Prod.Lex
import MiniQuorum.Collections.BinaryHeap
import MiniQuorum.Lsm.TableIterator

/-! The k-way merge of sorted inputs, which keeps the newest record of each key. -/

namespace MiniQuorum.Lsm

open Codec Program Collections

structure MergeHeapItem where
  entry : TableEntry
  input : Nat
  deriving DecidableEq, Repr

def mergeHeapLess (left right : MergeHeapItem) : Bool :=
  if left.entry.key ≠ right.entry.key then left.entry.key < right.entry.key
  else if left.entry.seq ≠ right.entry.seq then right.entry.seq < left.entry.seq
  else left.input < right.input

def sameTableRecord (left right : TableEntry) : Bool :=
  left.tombstone = right.tombstone && (left.tombstone || left.value = right.value)

structure KWayMergeIterator (ι : Type) where
  inputs : List ι
  heap : Array MergeHeapItem

section Merge

variable {σ ι : Type} (pull : ι → Prog σ Err (Option TableEntry × ι))

def KWayMergeIterator.refill (it : KWayMergeIterator ι) (input : Nat) (message : String) :
    Prog σ Err (KWayMergeIterator ι) :=
  match it.inputs[input]? with
  | none => throw (.text "lsm: nil merge input")
  | some source => do
    let (entry, source) ← (pull source).wrap (.wrap message)
    let inputs := it.inputs.set input source
    match entry with
    | none => return ⟨inputs, it.heap⟩
    | some entry => return ⟨inputs, BinaryHeap.push mergeHeapLess it.heap ⟨entry, input⟩⟩

def newKWayMergeIterator (inputs : List ι) : Prog σ Err (KWayMergeIterator ι) :=
  (List.range inputs.length).foldlM
    (fun it input => it.refill pull input "lsm: initialize merge input") ⟨inputs, #[]⟩

namespace KWayMergeIterator

def recordVersion (versions : List TableEntry) (candidate : TableEntry) :
    Except Err (List TableEntry) :=
  match versions.find? fun prior => prior.seq = candidate.seq with
  | none => .ok (versions ++ [candidate])
  | some prior =>
    if sameTableRecord candidate prior then .ok versions
    else .error (.corrupt "conflicting versions for key")

/-- Pops every version of `key`; `winner` is the newest one so far.  The fuel bounds the
records that are left. -/
def drainKey (key : Bytes) :
    Nat → KWayMergeIterator ι → List TableEntry → Option TableEntry →
      Prog σ Err (Option TableEntry × KWayMergeIterator ι)
  | 0, _, _, _ => throw (.text "lsm: merge input does not end")
  | fuel + 1, it, versions, winner =>
    if it.heap[0]?.all fun top => top.entry.key ≠ key then return (winner, it)
    else
      match BinaryHeap.pop mergeHeapLess it.heap with
      | none => return (winner, it)
      | some (item, heap) => do
        let candidate := item.entry
        let versions ← Prog.liftExcept (recordVersion versions candidate)
        let winner := if winner.all fun w => w.seq < candidate.seq then some candidate else winner
        let it ← refill pull ⟨it.inputs, heap⟩ item.input "lsm: advance merge input"
        drainKey key fuel it versions winner

def next (fuel : Nat) (it : KWayMergeIterator ι) :
    Prog σ Err (Option TableEntry × KWayMergeIterator ι) :=
  match it.heap[0]? with
  | none => return (none, it)
  | some top => it.drainKey pull top.entry.key fuel [] none

def drain (records : Nat) : Nat → KWayMergeIterator ι → Prog σ Err (List TableEntry)
  | 0, _ => throw (.text "lsm: merge input does not end")
  | fuel + 1, it => do
    let (entry, it) ← it.next pull records
    match entry with
    | none => return []
    | some entry => do
      let rest ← drain records fuel it
      return entry :: rest

end KWayMergeIterator

def kWayMerge (records : Nat) (inputs : List ι) : Prog σ Err (List TableEntry) := do
  let it ← newKWayMergeIterator pull inputs
  it.drain pull records records

def Ended (I E : σ → Prop) (it : ι) : Prop :=
  ∀ s, I s → wp (pull it) (fun r t => r = (none, it) ∧ I t) (fun _ t => E t) s

def Streams (I E : σ → Prop) : List TableEntry → ι → Prop
  | [], it => ∀ s, I s →
    wp (pull it) (fun r t => r.1 = none ∧ I t ∧ Ended pull I E r.2) (fun _ t => E t) s
  | e :: l, it => ∀ s, I s →
    wp (pull it) (fun r t => r.1 = some e ∧ I t ∧ Streams I E l r.2) (fun _ t => E t) s

variable {pull} {I E : σ → Prop}

theorem Ended.streams {it : ι} (h : Ended pull I E it) : Streams pull I E [] it := by
  intro s hs
  refine wp_mono (h s hs) ?_ (fun _ _ hE => hE)
  rintro r t ⟨rfl, ht⟩
  exact ⟨rfl, ht, h⟩

/-! ### The order of the heap -/

def MergeHeapItem.rank (item : MergeHeapItem) : Bytes ×ₗ (Natᵒᵈ ×ₗ Nat) :=
  toLex (item.entry.key, toLex (OrderDual.toDual item.entry.seq, item.input))

theorem mergeHeapLess_iff {a b : MergeHeapItem} : mergeHeapLess a b = true ↔ a.rank < b.rank := by
  rw [mergeHeapLess, MergeHeapItem.rank, MergeHeapItem.rank, Prod.Lex.toLex_lt_toLex,
    Prod.Lex.toLex_lt_toLex]
  by_cases hkey : a.entry.key = b.entry.key
  · by_cases hseq : a.entry.seq = b.entry.seq
    · simp [hkey, hseq]
    · simp [hkey, hseq]
  · simp [hkey]

theorem mergeHeapLess_eq_false {a b : MergeHeapItem} :
    mergeHeapLess a b = false ↔ b.rank ≤ a.rank := by
  rw [← not_lt, ← mergeHeapLess_iff, Bool.not_eq_true]

theorem weakOrder_mergeHeapLess : BinaryHeap.WeakOrder mergeHeapLess where
  asymm h := mergeHeapLess_eq_false.2 (mergeHeapLess_iff.1 h).le
  trans hab hbc :=
    mergeHeapLess_eq_false.2 ((mergeHeapLess_eq_false.1 hab).trans (mergeHeapLess_eq_false.1 hbc))

theorem key_le_of_rank_le {a b : MergeHeapItem} (h : a.rank ≤ b.rank) :
    a.entry.key ≤ b.entry.key := by
  rcases Prod.Lex.toLex_le_toLex.1 h with hlt | ⟨heq, -⟩
  · exact hlt.le
  · exact heq.le

/-! ### The merge in progress -/

/-- `rest` are the records the inputs have not handed out yet.  An input with records left
has one on the heap, unless it is among `W`; what is on the heap comes before the rest. -/
structure Merging (pull : ι → Prog σ Err (Option TableEntry × ι)) (I E : σ → Prop)
    (W : Nat → Prop) (it : KWayMergeIterator ι) (rest : List (List TableEntry)) : Prop where
  streams : List.Forall₂ (fun l input => Streams pull I E l input) rest it.inputs
  waiting : ∀ i l, rest[i]? = some l → l ≠ [] → W i ∨ ∃ item ∈ it.heap, item.input = i
  ordered : BinaryHeap.Ordered mergeHeapLess it.heap
  ahead : ∀ item ∈ it.heap, ∃ l, rest[item.input]? = some l ∧ ∀ e ∈ l, RecordOrder item.entry e
  sorted : ∀ l ∈ rest, l.Pairwise RecordOrder

def Pending (it : KWayMergeIterator ι) (rest : List (List TableEntry)) (e : TableEntry) : Prop :=
  (∃ item ∈ it.heap, item.entry = e) ∨ ∃ l ∈ rest, e ∈ l

def KWayMergeIterator.left (it : KWayMergeIterator ι) (rest : List (List TableEntry)) : Nat :=
  it.heap.size + rest.flatten.length

section Progress

variable {W : Nat → Prop} {it : KWayMergeIterator ι} {rest : List (List TableEntry)}

theorem Merging.top_le (h : Merging pull I E (fun _ => False) it rest) {top : MergeHeapItem}
    (htop : it.heap[0]? = some top) {e : TableEntry} (he : Pending it rest e) :
    top.entry.key ≤ e.key := by
  have hheap {item : MergeHeapItem} (hitem : item ∈ it.heap) : top.entry.key ≤ item.entry.key :=
    key_le_of_rank_le (mergeHeapLess_eq_false.1
      (h.ordered.root_le weakOrder_mergeHeapLess htop hitem))
  rcases he with ⟨item, hitem, rfl⟩ | ⟨l, hl, he⟩
  · exact hheap hitem
  · obtain ⟨i, hi⟩ := List.mem_iff_getElem?.1 hl
    rcases h.waiting i l hi (List.ne_nil_of_mem he) with hfalse | ⟨item, hitem, rfl⟩
    · exact hfalse.elim
    · obtain ⟨l', hl', hbefore⟩ := h.ahead item hitem
      rw [hi] at hl'
      cases hl'
      exact (hheap hitem).trans (hbefore e he).key_le

theorem Merging.pending_of_empty (h : Merging pull I E (fun _ => False) it rest)
    (hempty : it.heap[0]? = none) (e : TableEntry) : ¬Pending it rest e := by
  have hnone : it.heap = #[] := by simpa using hempty
  rintro (⟨item, hitem, -⟩ | ⟨l, hl, he⟩)
  · simp [hnone] at hitem
  · obtain ⟨i, hi⟩ := List.mem_iff_getElem?.1 hl
    rcases h.waiting i l hi (List.ne_nil_of_mem he) with hfalse | ⟨item, hitem, -⟩
    · exact hfalse
    · simp [hnone] at hitem

theorem forall₂_set {α β : Type} {R : α → β → Prop} {as : List α} {bs : List β}
    (h : List.Forall₂ R as bs) {i : Nat} {a : α} {b : β} (hab : R a b) :
    List.Forall₂ R (as.set i a) (bs.set i b) := by
  induction h generalizing i with
  | nil => exact .nil
  | cons hr htail ih =>
    cases i with
    | zero => exact .cons hab htail
    | succ i => exact .cons hr ih

theorem forall₂_getElem? {α β : Type} {R : α → β → Prop} {as : List α} {bs : List β}
    (h : List.Forall₂ R as bs) {i : Nat} {a : α} (ha : as[i]? = some a) :
    ∃ b, bs[i]? = some b ∧ R a b := by
  induction h generalizing i with
  | nil => cases ha
  | @cons a' b as bs hr htail ih =>
    cases i with
    | zero =>
      cases ha
      exact ⟨b, rfl, hr⟩
    | succ i => exact ih ha

theorem Merging.ended (h : Merging pull I E W it rest) {i : Nat} (hi : rest[i]? = some [])
    {source : ι} (hsource : Ended pull I E source) :
    Merging pull I E (fun j => W j ∧ j ≠ i) ⟨it.inputs.set i source, it.heap⟩ rest := by
  obtain ⟨hlt, hget⟩ := List.getElem?_eq_some_iff.1 hi
  refine ⟨?_, ?_, h.ordered, h.ahead, h.sorted⟩
  · have hset := forall₂_set h.streams (i := i) hsource.streams
    rwa [← hget, List.set_getElem_self] at hset
  · intro j l hj hne
    refine (h.waiting j l hj hne).imp_left fun hW => ⟨hW, ?_⟩
    rintro rfl
    rw [hi] at hj
    exact hne (Option.some.inj hj).symm

theorem Merging.pulled (h : Merging pull I E W it rest) {i : Nat} {e : TableEntry}
    {l : List TableEntry} (hi : rest[i]? = some (e :: l)) {source : ι}
    (hsource : Streams pull I E l source) :
    Merging pull I E (fun j => W j ∧ j ≠ i)
      ⟨it.inputs.set i source, BinaryHeap.push mergeHeapLess it.heap ⟨e, i⟩⟩ (rest.set i l) := by
  obtain ⟨hlt, -⟩ := List.getElem?_eq_some_iff.1 hi
  obtain ⟨hfirst, hl⟩ := List.pairwise_cons.1 (h.sorted _ (List.mem_of_getElem? hi))
  refine ⟨forall₂_set h.streams hsource, ?_, h.ordered.push weakOrder_mergeHeapLess _, ?_, ?_⟩
  · intro j l' hj hne
    by_cases hji : j = i
    · exact .inr ⟨⟨e, i⟩, BinaryHeap.mem_push.2 (.inl rfl), hji.symm⟩
    · rw [List.getElem?_set_ne (Ne.symm hji)] at hj
      refine (h.waiting j l' hj hne).imp (fun hW => ⟨hW, hji⟩) ?_
      rintro ⟨item, hitem, hinput⟩
      exact ⟨item, BinaryHeap.mem_push.2 (.inr hitem), hinput⟩
  · intro item hitem
    have hnew : (rest.set i l)[i]? = some l := by rw [List.getElem?_set_self hlt]
    rcases BinaryHeap.mem_push.1 hitem with rfl | hitem
    · exact ⟨l, hnew, hfirst⟩
    · obtain ⟨l', hl', hbefore⟩ := h.ahead item hitem
      by_cases hsame : item.input = i
      · rw [hsame, hi] at hl'
        cases hl'
        exact ⟨l, hsame ▸ hnew, fun d hd => hbefore d (List.mem_cons_of_mem e hd)⟩
      · exact ⟨l', by rw [List.getElem?_set_ne (Ne.symm hsame), hl'], hbefore⟩
  · intro l' hl'
    rcases List.mem_or_eq_of_mem_set hl' with hl' | rfl
    · exact h.sorted l' hl'
    · exact hl

theorem pending_pulled (it : KWayMergeIterator ι) {i : Nat} {e : TableEntry} {l : List TableEntry}
    (hi : rest[i]? = some (e :: l)) (inputs : List ι) :
    (∀ d, Pending ⟨inputs, BinaryHeap.push mergeHeapLess it.heap ⟨e, i⟩⟩ (rest.set i l) d ↔
        Pending it rest d) ∧
      KWayMergeIterator.left ⟨inputs, BinaryHeap.push mergeHeapLess it.heap ⟨e, i⟩⟩ (rest.set i l) =
        it.left rest := by
  obtain ⟨hlt, hget⟩ := List.getElem?_eq_some_iff.1 hi
  have hperm : rest.Perm ((e :: l) :: rest.eraseIdx i) := by
    rw [← hget]
    exact (List.getElem_cons_eraseIdx_perm hlt).symm
  have hperm' : (rest.set i l).Perm (l :: rest.eraseIdx i) := List.set_perm_cons_eraseIdx hlt l
  constructor
  · intro d
    have hrest : (∃ l' ∈ rest, d ∈ l') ↔ d = e ∨ ∃ l' ∈ rest.set i l, d ∈ l' := by
      simp only [hperm.mem_iff, hperm'.mem_iff, List.mem_cons, exists_eq_or_imp, or_assoc]
    simp only [Pending, BinaryHeap.mem_push, hrest]
    constructor
    · rintro (⟨item, rfl | hitem, rfl⟩ | hd)
      · exact .inr (.inl rfl)
      · exact .inl ⟨item, hitem, rfl⟩
      · exact .inr (.inr hd)
    · rintro (⟨item, hitem, rfl⟩ | rfl | hd)
      · exact .inl ⟨item, .inr hitem, rfl⟩
      · exact .inl ⟨⟨d, i⟩, .inl rfl, rfl⟩
      · exact .inr hd
  · have hlen := hperm.flatten.length_eq
    have hlen' := hperm'.flatten.length_eq
    have hsize : (BinaryHeap.push mergeHeapLess it.heap ⟨e, i⟩).size = it.heap.size + 1 := by
      rw [BinaryHeap.push, (BinaryHeap.siftUp_perm _ _ _).size_eq, Array.size_push]
    rw [List.flatten_cons, List.length_append] at hlen hlen'
    rw [List.length_cons] at hlen
    simp only [KWayMergeIterator.left, hsize]
    omega

theorem Merging.refill (h : Merging pull I E W it rest) {input : Nat} (hin : input < rest.length)
    (message : String) {s : σ} (hs : I s) :
    wp (it.refill pull input message)
      (fun it' t => I t ∧ ∃ rest', Merging pull I E (fun i => W i ∧ i ≠ input) it' rest' ∧
        rest'.length = rest.length ∧ it'.left rest' = it.left rest ∧
        ∀ e, Pending it' rest' e ↔ Pending it rest e)
      (fun _ t => E t) s := by
  obtain ⟨source, hsource, hstream⟩ := forall₂_getElem? h.streams (List.getElem?_eq_getElem hin)
  have hl := List.getElem?_eq_getElem hin
  rw [KWayMergeIterator.refill, hsource]
  simp only [wp_bind, wp_wrap]
  generalize rest[input] = l at hl hstream
  cases l with
  | nil =>
    refine wp_mono (hstream s hs) ?_ (fun _ _ h => h)
    rintro ⟨entry, source'⟩ t ⟨hnone, ht, hended⟩
    cases hnone
    exact ⟨ht, rest, h.ended hl hended, rfl, rfl, fun _ => Iff.rfl⟩
  | cons e l =>
    refine wp_mono (hstream s hs) ?_ (fun _ _ h => h)
    rintro ⟨entry, source'⟩ t ⟨hsome, ht, hstream'⟩
    cases hsome
    obtain ⟨hpending, hleft⟩ := pending_pulled it hl (it.inputs.set input source')
    exact ⟨ht, rest.set input l, h.pulled hl hstream', List.length_set, hleft, hpending⟩

theorem Merging.pop (h : Merging pull I E (fun _ => False) it rest) {item : MergeHeapItem}
    {heap : Array MergeHeapItem} (hpop : BinaryHeap.pop mergeHeapLess it.heap = some (item, heap)) :
    Merging pull I E (fun i => i = item.input) ⟨it.inputs, heap⟩ rest ∧ item.input < rest.length ∧
      it.left rest = KWayMergeIterator.left ⟨it.inputs, heap⟩ rest + 1 ∧
      ∀ e, Pending it rest e ↔ e = item.entry ∨ Pending ⟨it.inputs, heap⟩ rest e := by
  have hmem : ∀ x, x ∈ it.heap ↔ x ∈ heap ∨ x = item := by
    intro x
    rw [← (BinaryHeap.pop_perm hpop).mem_iff, Array.mem_push]
  refine ⟨⟨h.streams, ?_, (h.ordered.pop weakOrder_mergeHeapLess hpop).1, ?_, h.sorted⟩, ?_, ?_, ?_⟩
  · intro i l hi hne
    rcases h.waiting i l hi hne with hfalse | ⟨x, hx, hinput⟩
    · exact hfalse.elim
    · rcases (hmem x).1 hx with hx | rfl
      · exact .inr ⟨x, hx, hinput⟩
      · exact .inl hinput.symm
  · exact fun x hx => h.ahead x ((hmem x).2 (.inl hx))
  · obtain ⟨l, hl, -⟩ := h.ahead item ((hmem item).2 (.inr rfl))
    exact (List.getElem?_eq_some_iff.1 hl).1
  · have hsize := (BinaryHeap.pop_perm hpop).size_eq
    rw [Array.size_push] at hsize
    simp only [KWayMergeIterator.left]
    omega
  · intro e
    simp only [Pending, hmem]
    constructor
    · rintro (⟨x, hx | rfl, rfl⟩ | hrest)
      · exact .inr (.inl ⟨x, hx, rfl⟩)
      · exact .inl rfl
      · exact .inr (.inr hrest)
    · rintro (rfl | ⟨x, hx, rfl⟩ | hrest)
      · exact .inl ⟨item, .inr rfl, rfl⟩
      · exact .inl ⟨x, .inl hx, rfl⟩
      · exact .inr hrest

end Progress

/-! ### Rounds -/

def Conflict (a b : TableEntry) : Prop :=
  a.key = b.key ∧ a.seq = b.seq ∧ sameTableRecord a b = false

theorem sameTableRecord_iff {a b : TableEntry} : sameTableRecord a b = true ↔
    a.tombstone = b.tombstone ∧ (a.tombstone = true ∨ a.value = b.value) := by
  simp [sameTableRecord]

theorem sameTableRecord_of_common {a b d : TableEntry} (ha : sameTableRecord a d = true)
    (hb : sameTableRecord b d = true) : sameTableRecord a b = true := by
  rw [sameTableRecord_iff] at ha hb ⊢
  refine ⟨ha.1.trans hb.1.symm, ?_⟩
  rcases ha.2 with hdead | hvalue
  · exact .inl hdead
  · rcases hb.2 with hdead | hvalue'
    · exact .inl (ha.1.trans (hb.1.symm.trans hdead))
    · exact .inr (hvalue.trans hvalue'.symm)

structure Drained (key : Bytes) (versions : List TableEntry) (winner : Option TableEntry)
    (before after : TableEntry → Prop) : Prop where
  kept : ∀ e, before e → after e ∨ e.key = key ∧ (∃ w, winner = some w ∧ e.seq ≤ w.seq) ∧
    ∃ d ∈ versions, d.seq = e.seq ∧ sameTableRecord e d = true
  fromBefore : ∀ e, after e → before e
  winner : ∀ w, winner = some w → before w ∧ w.key = key
  recorded : ∀ d ∈ versions, before d ∧ d.key = key
  distinct : versions.Pairwise fun a b => a.seq ≠ b.seq

namespace Drained

variable {key : Bytes} {versions versions' : List TableEntry} {winner : Option TableEntry}
  {before after after' : TableEntry → Prop} {candidate : TableEntry}

theorem recordVersion_ok (h : KWayMergeIterator.recordVersion versions candidate = .ok versions') :
    (∃ d ∈ versions', d.seq = candidate.seq ∧ sameTableRecord candidate d = true) ∧
      (∀ d ∈ versions', d ∈ versions ∨ d = candidate) ∧ versions ⊆ versions' ∧
      (versions.Pairwise (fun a b => a.seq ≠ b.seq) →
        versions'.Pairwise fun a b => a.seq ≠ b.seq) := by
  rw [KWayMergeIterator.recordVersion] at h
  split at h
  · next hfind =>
    cases h
    refine ⟨⟨candidate, by simp, rfl, sameTableRecord_iff.2 ⟨rfl, .inr rfl⟩⟩, ?_, by simp, ?_⟩
    · intro d hd
      simpa using hd
    · intro hpairwise
      refine List.pairwise_append.2 ⟨hpairwise, List.pairwise_singleton _ _, ?_⟩
      intro a ha b hb
      rw [List.mem_singleton.1 hb]
      simpa using List.find?_eq_none.1 hfind a ha
  · next prior hfind =>
    split at h
    · next hsame =>
      cases h
      exact ⟨⟨prior, List.mem_of_find?_eq_some hfind, by simpa using List.find?_some hfind, hsame⟩,
        fun d hd => .inl hd, fun d hd => hd, id⟩
    · cases h

theorem recordVersion_error (h : Drained key versions winner before after)
    (hkey : candidate.key = key) (hcandidate : after candidate) {err : Err}
    (herr : KWayMergeIterator.recordVersion versions candidate = .error err) :
    err = .corrupt "conflicting versions for key" ∧ ∃ a b, before a ∧ before b ∧ Conflict a b := by
  rw [KWayMergeIterator.recordVersion] at herr
  split at herr
  · cases herr
  · next prior hfind =>
    split at herr
    · cases herr
    · next hdiffer =>
      cases herr
      obtain ⟨hprior, hpriorKey⟩ := h.recorded prior (List.mem_of_find?_eq_some hfind)
      have hseq : prior.seq = candidate.seq := by simpa using List.find?_some hfind
      exact ⟨rfl, candidate, prior, h.fromBefore _ hcandidate, hprior,
        hkey.trans hpriorKey.symm, hseq.symm, by simpa using hdiffer⟩

theorem pop (h : Drained key versions winner before after) (hkey : candidate.key = key)
    (hafter : ∀ e, after e ↔ e = candidate ∨ after' e)
    (hversions : KWayMergeIterator.recordVersion versions candidate = .ok versions') :
    Drained key versions' (if winner.all fun w => w.seq < candidate.seq then some candidate else winner)
      before after' := by
  have hcandidate : before candidate := h.fromBefore _ ((hafter _).2 (.inl rfl))
  obtain ⟨hrecorded, hmem, hsub, hdistinct⟩ := recordVersion_ok hversions
  have hnewest : ∃ w, (if winner.all fun w => w.seq < candidate.seq then some candidate
      else winner) = some w ∧ candidate.seq ≤ w.seq ∧ ∀ w', winner = some w' → w'.seq ≤ w.seq := by
    cases winner with
    | none => exact ⟨candidate, rfl, le_rfl, by simp⟩
    | some w =>
      by_cases hlt : w.seq < candidate.seq
      · exact ⟨candidate, if_pos (by simpa using hlt), le_rfl, by rintro _ ⟨⟩; exact hlt.le⟩
      · exact ⟨w, if_neg (by simpa using hlt), not_lt.1 hlt, by rintro _ ⟨⟩; exact le_rfl⟩
  obtain ⟨w, hw, hle, hwinner⟩ := hnewest
  refine ⟨?_, ?_, ?_, ?_, hdistinct h.distinct⟩
  · intro e he
    rcases h.kept e he with hpending | ⟨hk, ⟨w', hw', hseq⟩, d, hd, hsame⟩
    · rcases (hafter e).1 hpending with rfl | hpending
      · exact .inr ⟨hkey, ⟨w, hw, hle⟩, hrecorded⟩
      · exact .inl hpending
    · exact .inr ⟨hk, ⟨w, hw, hseq.trans (hwinner w' hw')⟩, d, hsub hd, hsame⟩
  · intro e he
    exact h.fromBefore e ((hafter e).2 (.inr he))
  · intro w' hw'
    split at hw'
    · cases hw'
      exact ⟨hcandidate, hkey⟩
    · exact h.winner w' hw'
  · intro d hd
    rcases hmem d hd with hd | rfl
    · exact h.recorded d hd
    · exact ⟨hcandidate, hkey⟩

theorem agree (h : Drained key versions winner before after)
    (hdone : ∀ e, after e → e.key ≠ key) {a b : TableEntry} (ha : before a) (hb : before b)
    (hka : a.key = key) (hkb : b.key = key) (hseq : a.seq = b.seq) : sameTableRecord a b = true := by
  obtain ⟨-, -, d, hd, hda, hsame⟩ := (h.kept a ha).resolve_left fun hafter => hdone a hafter hka
  obtain ⟨-, -, d', hd', hdb, hsame'⟩ := (h.kept b hb).resolve_left fun hafter => hdone b hafter hkb
  have heq : d = d' := by
    by_contra hne
    have : Std.Symm fun a b : TableEntry => a.seq ≠ b.seq := ⟨fun _ _ => Ne.symm⟩
    exact h.distinct.forall hd hd' hne (hda.trans (hseq.trans hdb.symm))
  exact sameTableRecord_of_common hsame (heq ▸ hsame')

end Drained

def MergeFails (I E : σ → Prop) (S : TableEntry → Prop) (err : Err) (t : σ) : Prop :=
  E t ∨ I t ∧ err = .corrupt "conflicting versions for key" ∧ ∃ a b, S a ∧ S b ∧ Conflict a b

theorem Merging.drainKey (key : Bytes) (before : TableEntry → Prop) {fuel : Nat}
    {it : KWayMergeIterator ι} {rest : List (List TableEntry)} {versions : List TableEntry}
    {winner : Option TableEntry} {s : σ} (hs : I s)
    (h : Merging pull I E (fun _ => False) it rest)
    (hdrained : Drained key versions winner before (Pending it rest))
    (hfloor : ∀ e, before e → key ≤ e.key) (hfuel : it.left rest < fuel) :
    wp (it.drainKey pull key fuel versions winner)
      (fun r t => I t ∧ ∃ rest' versions', Merging pull I E (fun _ => False) r.2 rest' ∧
        Drained key versions' r.1 before (Pending r.2 rest') ∧
        (∀ e, Pending r.2 rest' e → e.key ≠ key) ∧ r.2.left rest' ≤ it.left rest ∧
        (winner ≠ none → r.1 ≠ none) ∧
        (it.heap[0]?.any (fun top => top.entry.key = key) →
          r.1 ≠ none ∧ r.2.left rest' < it.left rest))
      (MergeFails I E before) s := by
  induction fuel generalizing it rest versions winner s with
  | zero => exact absurd hfuel (Nat.not_lt_zero _)
  | succ fuel ih =>
    rw [KWayMergeIterator.drainKey]
    split
    · next hstop =>
      refine ⟨hs, rest, versions, h, hdrained, ?_, le_rfl, id, ?_⟩
      · intro e he hkey
        cases htop : it.heap[0]? with
        | none => exact h.pending_of_empty htop e he
        | some top =>
          obtain ⟨item, hitem, hentry⟩ : ∃ item ∈ it.heap, item = top :=
            ⟨top, Array.mem_of_getElem? htop, rfl⟩
          have hge := hfloor _ (hdrained.fromBefore _ (.inl ⟨item, hitem, rfl⟩))
          rw [hentry] at hge
          have hne : top.entry.key ≠ key := by simpa [htop] using hstop
          exact hne (le_antisymm (hkey ▸ h.top_le htop he) hge)
      · intro htop
        cases htop' : it.heap[0]? with
        | none => simp [htop'] at htop
        | some top => simp_all
    · next hgo =>
      cases hpop : BinaryHeap.pop mergeHeapLess it.heap with
      | none =>
        rw [BinaryHeap.pop_eq_none] at hpop
        exact absurd (by simp [hpop]) hgo
      | some r =>
        obtain ⟨item, heap⟩ := r
        have hkey : item.entry.key = key := by
          rw [BinaryHeap.getElem?_zero_of_pop hpop] at hgo
          simpa using hgo
        obtain ⟨hpopped, hin, hleft, hpending⟩ := h.pop hpop
        simp only [wp_bind, wp_liftExcept]
        refine ⟨?_, ?_⟩
        · intro versions' hversions
          refine wp_mono (hpopped.refill hin _ hs) ?_ (fun _ _ hE => .inl hE)
          rintro it' t ⟨ht, rest', hmerging, -, hleft', hsame⟩
          have hnone : (fun i => i = item.input ∧ i ≠ item.input) = fun _ : Nat => False := by
            funext i
            simp
          rw [hnone] at hmerging
          have hstep := hdrained.pop hkey (fun e => (hpending e).trans (or_congr_right (hsame e).symm))
            hversions
          refine wp_mono (ih ht hmerging hstep (by omega)) ?_ (fun _ _ hE => hE)
          rintro r u ⟨hu, rest'', versions'', hmerging', hdrained', hdone, hle, hwinner, -⟩
          have hsome : r.1 ≠ none := by
            refine hwinner ?_
            split
            · simp
            · next hold =>
              rintro rfl
              exact hold rfl
          exact ⟨hu, rest'', versions'', hmerging', hdrained', hdone, by omega, fun _ => hsome,
            fun _ => ⟨hsome, by omega⟩⟩
        · intro err herr
          obtain ⟨hcorrupt, hconflict⟩ :=
            hdrained.recordVersion_error hkey ((hpending _).2 (.inl rfl)) herr
          exact .inr ⟨hs, hcorrupt, hconflict⟩

/-- What a round that handed out `w` has done to the pending records. -/
structure Round (w : TableEntry) (before after : TableEntry → Prop) : Prop where
  mem : before w
  newest : ∀ e, before e → e.key = w.key → e.seq ≤ w.seq
  least : ∀ e, before e → w.key ≤ e.key
  agree : ∀ a b, before a → before b → a.key = w.key → b.key = w.key → a.seq = b.seq →
    sameTableRecord a b = true
  after_iff : ∀ e, after e ↔ before e ∧ w.key < e.key

theorem Merging.next {fuel : Nat} {it : KWayMergeIterator ι} {rest : List (List TableEntry)} {s : σ}
    (hs : I s) (h : Merging pull I E (fun _ => False) it rest) (hfuel : it.left rest < fuel) :
    wp (it.next pull fuel)
      (fun r t => I t ∧ match r.1 with
        | none => ∀ e, ¬Pending it rest e
        | some w => ∃ rest', Merging pull I E (fun _ => False) r.2 rest' ∧
          r.2.left rest' < it.left rest ∧ Round w (Pending it rest) (Pending r.2 rest'))
      (MergeFails I E (Pending it rest)) s := by
  rw [KWayMergeIterator.next]
  cases htop : it.heap[0]? with
  | none => exact ⟨hs, h.pending_of_empty htop⟩
  | some top =>
    have hstart : Drained top.entry.key [] none (Pending it rest) (Pending it rest) :=
      ⟨fun _ he => .inl he, fun _ he => he, by simp, by simp, List.Pairwise.nil⟩
    have hfloor (e : TableEntry) (he : Pending it rest e) := h.top_le htop he
    refine wp_mono (Merging.drainKey _ _ hs h hstart hfloor hfuel) ?_ (fun _ _ hE => hE)
    rintro ⟨winner, it'⟩ t ⟨ht, rest', versions, hmerging, hdrained, hdone, -, -, htaken⟩
    obtain ⟨hsome, hlt⟩ := htaken (by simp [htop])
    refine ⟨ht, ?_⟩
    cases winner with
    | none => exact absurd rfl hsome
    | some w =>
      obtain ⟨hw, hkey⟩ := hdrained.winner w rfl
      refine ⟨rest', hmerging, hlt, hw, ?_, ?_, ?_, ?_⟩
      · intro e he hek
        obtain ⟨-, ⟨w', hw', hseq⟩, -⟩ :=
          (hdrained.kept e he).resolve_left fun hafter => hdone e hafter (hek.trans hkey)
        cases hw'
        exact hseq
      · intro e he
        rw [hkey]
        exact hfloor e he
      · intro a b ha hb hak hbk hseq
        exact hdrained.agree hdone ha hb (hak.trans hkey) (hbk.trans hkey) hseq
      · intro e
        rw [hkey]
        constructor
        · intro he
          have hbefore := hdrained.fromBefore e he
          exact ⟨hbefore, lt_of_le_of_ne (hfloor e hbefore) (Ne.symm (hdone e he))⟩
        · rintro ⟨he, hgt⟩
          exact (hdrained.kept e he).resolve_right fun hk => hgt.ne' hk.1

/-! ### Whole merges -/

/-- `out` holds the newest of the records `S` of each key, in the order of the keys. -/
structure MergeOf (S : TableEntry → Prop) (out : List TableEntry) : Prop where
  ascending : out.Pairwise fun a b => a.key < b.key
  newest : ∀ e ∈ out, S e ∧ ∀ d, S d → d.key = e.key → d.seq ≤ e.seq
  covers : ∀ d, S d → ∃ e ∈ out, e.key = d.key
  agree : ∀ a b, S a → S b → ¬Conflict a b

theorem MergeOf.nil {S : TableEntry → Prop} (h : ∀ e, ¬S e) : MergeOf S [] :=
  ⟨List.Pairwise.nil, by simp, fun d hd => absurd hd (h d), fun a _ ha => absurd ha (h a)⟩

theorem MergeOf.cons {w : TableEntry} {before after : TableEntry → Prop} {out : List TableEntry}
    (hround : Round w before after) (h : MergeOf after out) : MergeOf before (w :: out) := by
  have hback (e : TableEntry) (he : after e) : before e := ((hround.after_iff e).1 he).1
  refine ⟨List.pairwise_cons.2 ⟨?_, h.ascending⟩, ?_, ?_, ?_⟩
  · intro e he
    exact ((hround.after_iff e).1 (h.newest e he).1).2
  · intro e he
    rcases List.mem_cons.1 he with rfl | he
    · exact ⟨hround.mem, hround.newest⟩
    · obtain ⟨hafter, hnewest⟩ := h.newest e he
      refine ⟨hback e hafter, fun d hd hkey => hnewest d ((hround.after_iff d).2 ⟨hd, ?_⟩) hkey⟩
      rw [hkey]
      exact ((hround.after_iff e).1 hafter).2
  · intro d hd
    rcases eq_or_lt_of_le (hround.least d hd) with hkey | hlt
    · exact ⟨w, List.mem_cons_self, hkey⟩
    · obtain ⟨e, he, hkey⟩ := h.covers d ((hround.after_iff d).2 ⟨hd, hlt⟩)
      exact ⟨e, List.mem_cons_of_mem w he, hkey⟩
  · rintro a b ha hb ⟨hkey, hseq, hdiffer⟩
    rcases eq_or_lt_of_le (hround.least a ha) with hak | hlt
    · rw [hround.agree a b ha hb hak.symm (hkey ▸ hak.symm) hseq] at hdiffer
      cases hdiffer
    · exact h.agree a b ((hround.after_iff a).2 ⟨ha, hlt⟩) ((hround.after_iff b).2 ⟨hb, hkey ▸ hlt⟩)
        ⟨hkey, hseq, hdiffer⟩

theorem MergeFails.mono {S S' : TableEntry → Prop} {err : Err} {t : σ} (h : MergeFails I E S err t)
    (hS : ∀ e, S e → S' e) : MergeFails I E S' err t := by
  refine h.imp_right ?_
  rintro ⟨ht, herr, a, b, ha, hb, hconflict⟩
  exact ⟨ht, herr, a, b, hS a ha, hS b hb, hconflict⟩

theorem newKWayMergeIterator_spec {inputs : List ι} {lists : List (List TableEntry)}
    (h : List.Forall₂ (fun l input => Streams pull I E l input) lists inputs)
    (hsorted : ∀ l ∈ lists, l.Pairwise RecordOrder) {s : σ} (hs : I s) :
    wp (newKWayMergeIterator pull inputs)
      (fun it t => I t ∧ ∃ rest, Merging pull I E (fun _ => False) it rest ∧
        it.left rest = lists.flatten.length ∧ ∀ e, Pending it rest e ↔ ∃ l ∈ lists, e ∈ l)
      (fun _ t => E t) s := by
  rw [newKWayMergeIterator]
  -- an input waits until the loop has reached it
  refine wp_mono (wp_foldlM (fun done it t => I t ∧
    ∃ rest, Merging pull I E (fun i => done.length ≤ i) it rest ∧ rest.length = inputs.length ∧
      it.left rest = lists.flatten.length ∧ ∀ e, Pending it rest e ↔ ∃ l ∈ lists, e ∈ l)
    ⟨hs, lists, ⟨h, ?_, BinaryHeap.ordered_empty, by simp, hsorted⟩, h.length_eq, ?_, ?_⟩ ?_) ?_
    (fun _ _ h => h)
  · intro i l _ _
    exact .inl (Nat.zero_le i)
  · simp [KWayMergeIterator.left]
  · intro e
    simp [Pending]
  · rintro done input later it t hrange ⟨ht, rest, hmerging, hlen, hleft, hpending⟩
    have hlater := congrArg List.length hrange
    rw [List.length_range, List.length_append, List.length_cons] at hlater
    have hinput : input = done.length := by
      have hget := congrArg (·[done.length]?) hrange
      simp only [List.getElem?_append_right le_rfl, Nat.sub_self, List.getElem?_cons_zero,
        List.getElem?_eq_some_iff, List.getElem_range] at hget
      exact hget.2.symm
    refine wp_mono (hmerging.refill (by omega) _ ht) ?_ (fun _ _ h => h)
    rintro it' u ⟨hu, rest', hmerging', hlen', hleft', hsame⟩
    refine ⟨hu, rest', ⟨hmerging'.streams, ?_, hmerging'.ordered, hmerging'.ahead, hmerging'.sorted⟩,
      hlen'.trans hlen, hleft'.trans hleft, fun e => (hsame e).trans (hpending e)⟩
    intro i l hi hne
    refine (hmerging'.waiting i l hi hne).imp_left ?_
    rintro ⟨hle, hne'⟩
    rw [List.length_append]
    simp only [List.length_cons, List.length_nil]
    omega
  · rintro it t ⟨ht, rest, hmerging, hlen, hleft, hpending⟩
    refine ⟨ht, rest, ⟨hmerging.streams, ?_, hmerging.ordered, hmerging.ahead, hmerging.sorted⟩,
      hleft, hpending⟩
    intro i l hi hne
    refine (hmerging.waiting i l hi hne).imp_left fun hle => ?_
    have hlt := (List.getElem?_eq_some_iff.1 hi).1
    rw [List.length_range] at hle
    omega

theorem Merging.drain {records fuel : Nat} {it : KWayMergeIterator ι}
    {rest : List (List TableEntry)} {s : σ} (hs : I s)
    (h : Merging pull I E (fun _ => False) it rest) (hrecords : it.left rest < records)
    (hfuel : it.left rest < fuel) :
    wp (it.drain pull records fuel) (fun out t => I t ∧ MergeOf (Pending it rest) out)
      (MergeFails I E (Pending it rest)) s := by
  induction fuel generalizing it rest s with
  | zero => exact absurd hfuel (Nat.not_lt_zero _)
  | succ fuel ih =>
    rw [KWayMergeIterator.drain, wp_bind]
    refine wp_mono (Merging.next hs h hrecords) ?_ (fun _ _ hE => hE)
    rintro ⟨entry, it'⟩ t ⟨ht, hentry⟩
    cases entry with
    | none => exact ⟨ht, .nil hentry⟩
    | some w =>
      obtain ⟨rest', hmerging, hlt, hround⟩ := hentry
      show wp (_ >>= _) _ _ _
      rw [wp_bind]
      have hless : it'.left rest' < it.left rest := hlt
      refine wp_mono (ih ht hmerging (by omega) (by omega)) ?_ ?_
      · rintro out u ⟨hu, hout⟩
        exact ⟨hu, .cons hround hout⟩
      · exact fun _ _ hE => hE.mono fun e he => ((hround.after_iff e).1 he).1

theorem kWayMerge_spec {records : Nat} {inputs : List ι} {lists : List (List TableEntry)}
    (h : List.Forall₂ (fun l input => Streams pull I E l input) lists inputs)
    (hsorted : ∀ l ∈ lists, l.Pairwise RecordOrder) (hrecords : lists.flatten.length < records)
    {s : σ} (hs : I s) :
    wp (kWayMerge pull records inputs)
      (fun out t => I t ∧ MergeOf (fun e => ∃ l ∈ lists, e ∈ l) out)
      (MergeFails I E fun e => ∃ l ∈ lists, e ∈ l) s := by
  rw [kWayMerge, wp_bind]
  refine wp_mono (newKWayMergeIterator_spec h hsorted hs) ?_ (fun _ _ hE => .inl hE)
  rintro it t ⟨ht, rest, hmerging, hleft, hpending⟩
  have hsame : Pending it rest = fun e => ∃ l ∈ lists, e ∈ l := funext fun e => propext (hpending e)
  have hdrain := Merging.drain ht hmerging (hleft ▸ hrecords) (hleft ▸ hrecords)
  rwa [hsame] at hdrain

def SameRecord (a b : TableEntry) : Prop :=
  a.key = b.key ∧ a.seq = b.seq ∧ sameTableRecord a b = true

theorem SameRecord.eq {a b : TableEntry} (h : SameRecord a b)
    (ha : a.tombstone = true → a.value = []) (hb : b.tombstone = true → b.value = []) : a = b := by
  obtain ⟨hkey, hseq, hsame⟩ := h
  obtain ⟨htombstone, hvalue⟩ := sameTableRecord_iff.1 hsame
  have hvalue : a.value = b.value := by
    rcases hvalue with hdead | hvalue
    · rw [ha hdead, hb (htombstone ▸ hdead)]
    · exact hvalue
  cases a
  cases b
  simp only [TableEntry.mk.injEq]
  exact ⟨hkey, hseq, hvalue, htombstone⟩

theorem MergeOf.unique {S : TableEntry → Prop} {out out' : List TableEntry} (h : MergeOf S out)
    (h' : MergeOf S out') : List.Forall₂ SameRecord out out' := by
  have hkeys : out.map TableEntry.key = out'.map TableEntry.key := by
    refine List.Pairwise.eq_of_mem_iff (List.pairwise_map.2 h.ascending)
      (List.pairwise_map.2 h'.ascending) fun k => ?_
    have hmem {as bs : List TableEntry} (has : MergeOf S as) (hbs : MergeOf S bs)
        (hk : k ∈ as.map TableEntry.key) : k ∈ bs.map TableEntry.key := by
      obtain ⟨e, he, rfl⟩ := List.mem_map.1 hk
      obtain ⟨d, hd, hkey⟩ := hbs.covers e (has.newest e he).1
      exact hkey ▸ List.mem_map_of_mem hd
    exact ⟨hmem h h', hmem h' h⟩
  have hzip : List.Forall₂ (fun a b => TableEntry.key a = TableEntry.key b) out out' := by
    have hforall := List.forall₂_eq_eq_eq ▸ hkeys
    rwa [List.forall₂_map_left_iff, List.forall₂_map_right_iff] at hforall
  rw [List.forall₂_iff_zip] at hzip ⊢
  refine ⟨hzip.1, fun {a b} hab => ?_⟩
  have hkey := hzip.2 hab
  obtain ⟨ha, hb⟩ := List.of_mem_zip hab
  obtain ⟨hSa, hanew⟩ := h.newest a ha
  obtain ⟨hSb, hbnew⟩ := h'.newest b hb
  have hseq : a.seq = b.seq := le_antisymm (hbnew a hSa hkey) (hanew b hSb hkey.symm)
  refine ⟨hkey, hseq, ?_⟩
  by_contra hdiffer
  exact h.agree a b hSa hSb ⟨hkey, hseq, by simpa using hdiffer⟩

def Conflicting (lists : List (List TableEntry)) : Prop :=
  ∃ (i j : Nat) (as bs : List TableEntry) (a b : TableEntry), i ≠ j ∧ lists[i]? = some as ∧ lists[j]? = some bs ∧ a ∈ as ∧ b ∈ bs ∧
    a.key = b.key ∧ a.seq = b.seq ∧
    (a.tombstone ≠ b.tombstone ∨ a.tombstone = false ∧ a.value ≠ b.value)

theorem conflicting_iff {lists : List (List TableEntry)}
    (hsorted : ∀ l ∈ lists, l.Pairwise RecordOrder) :
    Conflicting lists ↔ ∃ a b, (∃ l ∈ lists, a ∈ l) ∧ (∃ l ∈ lists, b ∈ l) ∧ Conflict a b := by
  have hdiffer {a b : TableEntry} : sameTableRecord a b = false ↔
      a.tombstone ≠ b.tombstone ∨ a.tombstone = false ∧ a.value ≠ b.value := by
    rw [← Bool.not_eq_true, sameTableRecord_iff, not_and_or, not_or, Bool.not_eq_true]
  constructor
  · rintro ⟨i, j, as, bs, a, b, -, has, hbs, ha, hb, hkey, hseq, hrecord⟩
    exact ⟨a, b, ⟨as, List.mem_of_getElem? has, ha⟩, ⟨bs, List.mem_of_getElem? hbs, hb⟩, hkey, hseq,
      hdiffer.2 hrecord⟩
  · rintro ⟨a, b, ⟨as, has, ha⟩, ⟨bs, hbs, hb⟩, hkey, hseq, hrecord⟩
    obtain ⟨i, hi⟩ := List.mem_iff_getElem?.1 has
    obtain ⟨j, hj⟩ := List.mem_iff_getElem?.1 hbs
    refine ⟨i, j, as, bs, a, b, ?_, hi, hj, ha, hb, hkey, hseq, hdiffer.1 hrecord⟩
    rintro rfl
    rw [hi] at hj
    cases hj
    -- one list has one record of a write
    have hself : a = b := by
      by_contra hne
      have hne' : ¬(RecordOrder a b ∨ RecordOrder b a) := by
        simp [RecordOrder, validSSTableRecordOrder, hkey, hseq]
      have : Std.Symm fun a b : TableEntry => RecordOrder a b ∨ RecordOrder b a :=
        ⟨fun _ _ => Or.symm⟩
      have hpair : as.Pairwise fun a b => RecordOrder a b ∨ RecordOrder b a :=
        (hsorted as has).imp Or.inl
      exact hne' (hpair.forall ha hb hne)
    rw [hself, sameTableRecord_iff.2 ⟨rfl, .inr rfl⟩] at hrecord
    cases hrecord

/-- The merge of sorted inputs fails exactly when two of them conflict; otherwise it is the newest
record of each key, whatever the order of the inputs. -/
theorem kWayMerge_correct (pull : ι → Prog σ Err (Option TableEntry × ι)) (I : σ → Prop)
    (lists : List (List TableEntry)) (inputs : List ι)
    (hstreams : List.Forall₂ (fun l input => Streams pull I (fun _ => False) l input) lists inputs)
    (hsorted : ∀ l ∈ lists, l.Pairwise RecordOrder) (records : Nat)
    (hrecords : lists.flatten.length < records) (s : σ) (hs : I s) :
    (∀ err, (kWayMerge pull records inputs s).1 = .error err →
        err = .corrupt "conflicting versions for key") ∧
      ((∃ err, (kWayMerge pull records inputs s).1 = .error err) ↔ Conflicting lists) ∧
      (∀ out, (kWayMerge pull records inputs s).1 = .ok out →
        MergeOf (fun e => ∃ l ∈ lists, e ∈ l) out) ∧
      ∀ inputs', inputs'.Perm inputs → ∀ s', I s' →
        ((∃ err, (kWayMerge pull records inputs' s').1 = .error err) ↔
          ∃ err, (kWayMerge pull records inputs s).1 = .error err) ∧
        ∀ out out', (kWayMerge pull records inputs s).1 = .ok out →
          (kWayMerge pull records inputs' s').1 = .ok out' → List.Forall₂ SameRecord out out' ∧
            ((∀ l ∈ lists, ∀ e ∈ l, e.tombstone = true → e.value = []) → out = out') := by
  have hrun {lists' : List (List TableEntry)} {inputs' : List ι} {s' : σ}
      (hstreams' : List.Forall₂ (fun l input => Streams pull I (fun _ => False) l input)
        lists' inputs') (hperm : lists'.Perm lists) (hs' : I s') :
      (∀ err, (kWayMerge pull records inputs' s').1 = .error err →
          err = .corrupt "conflicting versions for key" ∧ Conflicting lists) ∧
        ∀ out, (kWayMerge pull records inputs' s').1 = .ok out →
          MergeOf (fun e => ∃ l ∈ lists, e ∈ l) out := by
    have hspec := kWayMerge_spec hstreams' (fun l hl => hsorted l (hperm.mem_iff.1 hl))
      (hperm.flatten.length_eq ▸ hrecords) hs'
    simp only [hperm.mem_iff] at hspec
    obtain ⟨hok, herror⟩ := wp_iff.1 hspec
    refine ⟨fun err herr => ?_, fun out hout => ?_⟩
    · rcases herror err _ (Prod.ext herr rfl) with hfalse | ⟨-, hcorrupt, a, b, hconflict⟩
      · exact hfalse.elim
      · exact ⟨hcorrupt, (conflicting_iff hsorted).2 ⟨a, b, hconflict⟩⟩
    · exact (hok out _ (Prod.ext hout rfl)).2
  have hfails {inputs' : List ι} {s' : σ} (h : (∀ err, (kWayMerge pull records inputs' s').1 =
      .error err → err = .corrupt "conflicting versions for key" ∧ Conflicting lists) ∧
        ∀ out, (kWayMerge pull records inputs' s').1 = .ok out →
          MergeOf (fun e => ∃ l ∈ lists, e ∈ l) out) :
      (∃ err, (kWayMerge pull records inputs' s').1 = .error err) ↔ Conflicting lists := by
    constructor
    · rintro ⟨err, herr⟩
      exact (h.1 err herr).2
    · intro hconflict
      cases hresult : (kWayMerge pull records inputs' s').1 with
      | error err => exact ⟨err, rfl⟩
      | ok out =>
        obtain ⟨a, b, ha, hb, hab⟩ := (conflicting_iff hsorted).1 hconflict
        exact absurd hab ((h.2 out hresult).agree a b ha hb)
  have hmain := hrun hstreams (.refl lists) hs
  refine ⟨fun err herr => (hmain.1 err herr).1, hfails hmain, hmain.2, ?_⟩
  intro inputs' hperm s' hs'
  obtain ⟨lists', hstreams', hlists⟩ := List.perm_comp_forall₂ hperm hstreams.flip
  have hmain' := hrun hstreams'.flip hlists hs'
  refine ⟨(hfails hmain').trans (hfails hmain).symm, fun out out' hout hout' => ?_⟩
  have hmerge := hmain.2 out hout
  have hmerge' := hmain'.2 out' hout'
  have hsame := hmerge.unique hmerge'
  refine ⟨hsame, fun hvalueless => ?_⟩
  have hstored {e : TableEntry} (he : ∃ l ∈ lists, e ∈ l) (hdead : e.tombstone = true) :
      e.value = [] := by
    obtain ⟨l, hl, hel⟩ := he
    exact hvalueless l hl e hel hdead
  rw [List.forall₂_iff_zip] at hsame
  refine List.forall₂_eq_eq_eq ▸ List.forall₂_iff_zip.2 ⟨hsame.1, fun {a b} hab => ?_⟩
  obtain ⟨ha, hb⟩ := List.of_mem_zip hab
  exact (hsame.2 hab).eq (hstored (hmerge.newest a ha).1) (hstored (hmerge'.newest b hb).1)

end Merge

def sliceNext (l : List TableEntry) : Prog Unit Err (Option TableEntry × List TableEntry) :=
  return (l.head?, l.tail)

theorem streams_slice (l : List TableEntry) :
    Streams sliceNext (fun _ => True) (fun _ => False) l l := by
  induction l with
  | nil => exact fun s _ => ⟨rfl, trivial, fun s _ => ⟨rfl, trivial⟩⟩
  | cons e l ih => exact fun s _ => ⟨rfl, trivial, ih⟩

/-- Three inputs, of which two share a write and one hides a deleted key. -/
theorem kWayMerge_correct_three :
    let lists : List (List TableEntry) :=
      [[⟨[1], 2, [7], false⟩, ⟨[2], 9, [8], false⟩], [⟨[1], 5, [], true⟩],
        [⟨[2], 9, [8], false⟩, ⟨[3], 1, [], false⟩]]
    ((∃ err, (kWayMerge sliceNext 6 lists ()).1 = .error err) ↔ Conflicting lists) ∧
      ∀ out, (kWayMerge sliceNext 6 lists ()).1 = .ok out →
        MergeOf (fun e => ∃ l ∈ lists, e ∈ l) out := by
  intro lists
  have h := kWayMerge_correct sliceNext (fun _ => True) lists lists
    (List.forall₂_same.2 fun l _ => streams_slice l) (by decide) 6 (by decide) () trivial
  exact ⟨h.2.1, h.2.2.1⟩

end MiniQuorum.Lsm
