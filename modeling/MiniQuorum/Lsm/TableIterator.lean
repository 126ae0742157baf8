import MiniQuorum.Lsm.TableReads

/-! The iterator that streams a table block by block. -/

namespace MiniQuorum.Lsm

open Codec Program SimFile

structure SSTableEntryIterator where
  reader : SSTableReader
  block : Nat
  pending : List TableEntry
  seen : Nat
  firstKey : Option Bytes
  lastKey : Option Bytes
  done : Bool
  deriving DecidableEq, Repr

def newSSTableEntryIterator (reader : SSTableReader) : SSTableEntryIterator :=
  ⟨reader, 0, [], 0, none, none, false⟩

namespace SSTableEntryIterator

def emit (it : SSTableEntryIterator) (entry : TableEntry) (rest : List TableEntry) :
    Reading Err (Option TableEntry × SSTableEntryIterator) := do
  Reading.failIf (it.seen + 1 > it.reader.entryCount)
    (.corrupt "iterator produced more records than footer count")
  return (some entry, { it with pending := rest, seen := it.seen + 1 })

def finish (it : SSTableEntryIterator) : Reading Err (Option TableEntry × SSTableEntryIterator) := do
  Reading.failIf (it.seen ≠ it.reader.entryCount) (.corrupt "iterator entry count")
  Reading.failIf (it.seen ≠ 0 ∧
    (it.firstKey ≠ some it.reader.minKey ∨ it.lastKey ≠ some it.reader.maxKey))
    (.corrupt "iterator key bounds do not match footer")
  return (none, { it with done := true })

def load (it : SSTableEntryIterator) (index : IndexEntry) :
    Reading Err (Option TableEntry × SSTableEntryIterator) := do
  let entries ← readRecords index
  Reading.failIf (it.lastKey.any fun key => ¬key < index.firstKey)
    (.corrupt "records out of order or same key spans data blocks")
  Reading.failIf (entries.any fun e => !it.reader.bloom.mayContain e.key)
    (.corrupt "bloom false negative for stored key")
  match entries with
  | [] => .fail (.corrupt "index first key does not match data block")
  | entry :: rest =>
    emit { it with
      block := it.block + 1
      firstKey := it.firstKey <|> some entry.key
      lastKey := entries.getLast?.map TableEntry.key } entry rest

def next (it : SSTableEntryIterator) : Reading Err (Option TableEntry × SSTableEntryIterator) :=
  if it.done then return (none, it)
  else
    match it.pending with
    | entry :: rest => it.emit entry rest
    | [] =>
      match it.reader.index[it.block]? with
      | none => it.finish
      | some index => it.load index

inductive Yields (source : Nat → Nat → Option Bytes) :
    SSTableEntryIterator → List TableEntry → Prop
  | ends {it final : SSTableEntryIterator} (h : it.next.eval source .eof = .ok (none, final)) :
      Yields source it []
  | more {it after : SSTableEntryIterator} {entry : TableEntry} {entries : List TableEntry}
      (h : it.next.eval source .eof = .ok (some entry, after))
      (hrest : Yields source after entries) : Yields source it (entry :: entries)

/-- What the iterator has left of a table that a scan reads: the records of its block, then
`later` from the blocks after it.  `past` are those handed out. -/
structure Midway (source : Nat → Nat → Option Bytes) (it : SSTableEntryIterator)
    (past later : List TableEntry) : Prop where
  scan : (it.reader.blockEntries it.lastKey (it.reader.index.drop it.block)).eval source .eof =
    .ok later
  notDone : it.done = false
  seen : it.seen = past.length
  count : (past ++ it.pending ++ later).length = it.reader.entryCount
  first : it.firstKey = (past ++ it.pending).head?.map TableEntry.key
  last : it.lastKey = (past ++ it.pending).getLast?.map TableEntry.key
  min : past ++ it.pending ++ later ≠ [] →
    (past ++ it.pending ++ later).head?.map TableEntry.key = some it.reader.minKey
  max : past ++ it.pending ++ later ≠ [] →
    (past ++ it.pending ++ later).getLast?.map TableEntry.key = some it.reader.maxKey

variable {source : Nat → Nat → Option Bytes} {it : SSTableEntryIterator}

variable {entry : TableEntry} {rest past later : List TableEntry}

theorem eval_emit (h : it.seen < it.reader.entryCount) :
    (it.emit entry rest).eval source .eof =
      .ok (some entry, { it with pending := rest, seen := it.seen + 1 }) := by
  rw [emit, Reading.eval_failIf_bind (by omega)]
  rfl

theorem next_of_pending (hdone : it.done = false)
    (hpending : it.pending = entry :: rest) : it.next = it.emit entry rest := by
  rw [next, hdone, if_neg (by simp), hpending]

theorem next_of_finish (hdone : it.done = false) (hpending : it.pending = [])
    (hindex : it.reader.index[it.block]? = none) : it.next = it.finish := by
  rw [next, hdone, if_neg (by simp), hpending, hindex]

theorem next_of_load {index : IndexEntry} (hdone : it.done = false) (hpending : it.pending = [])
    (hindex : it.reader.index[it.block]? = some index) : it.next = it.load index := by
  rw [next, hdone, if_neg (by simp), hpending, hindex]

theorem Midway.emit (h : Midway source it past later) (hpending : it.pending = entry :: rest) :
    Midway source { it with pending := rest, seen := it.seen + 1 } (past ++ [entry]) later := by
  have happend : past ++ [entry] ++ rest = past ++ it.pending := by simp [hpending]
  refine ⟨h.scan, h.notDone, ?_, ?_, ?_, ?_, ?_, ?_⟩
  · simp [h.seen]
  · rw [happend]
    exact h.count
  · rw [happend]
    exact h.first
  · rw [happend]
    exact h.last
  · rw [happend]
    exact h.min
  · rw [happend]
    exact h.max

theorem Midway.load {index : IndexEntry}
    (h : Midway source it past later) (hpending : it.pending = [])
    (hindex : it.reader.index[it.block]? = some index) :
    ∃ entry rest later', later = entry :: rest ++ later' ∧
      (it.load index).eval source .eof =
        (SSTableEntryIterator.emit { it with
          block := it.block + 1
          firstKey := it.firstKey <|> some entry.key
          lastKey := (entry :: rest).getLast?.map TableEntry.key } entry rest).eval source .eof ∧
      Midway source { it with
        block := it.block + 1
        pending := entry :: rest
        firstKey := it.firstKey <|> some entry.key
        lastKey := (entry :: rest).getLast?.map TableEntry.key } past later' := by
  obtain ⟨hlt, hget⟩ := List.getElem?_eq_some_iff.1 hindex
  have hscan := h.scan
  rw [List.drop_eq_getElem_cons hlt, hget] at hscan
  simp only [SSTableReader.blockEntries, Reading.eval_bind_eq_ok, Reading.eval_failIf_eq_ok] at hscan
  obtain ⟨group, hgroup, -, hlast, -, hbloom, later', hlater', heq⟩ := hscan
  cases heq
  obtain ⟨first, hfirst, -⟩ := (Block.inv hgroup).2
  cases group with
  | nil => cases hfirst
  | cons entry rest =>
    refine ⟨entry, rest, later', rfl, ?_, ?_⟩
    · rw [SSTableEntryIterator.load, Reading.eval_bind_of_ok hgroup, Reading.eval_failIf_bind hlast,
        Reading.eval_failIf_bind hbloom]
    · have hcount := h.count
      have hfirst := h.first
      have hmin := h.min
      have hmax := h.max
      simp only [hpending, List.append_nil] at hcount hfirst hmin hmax
      refine ⟨hlater', h.notDone, h.seen, ?_, ?_, ?_, ?_, ?_⟩
      · simpa using hcount
      · show (it.firstKey <|> some entry.key) = _
        rw [hfirst]
        cases past <;> rfl
      · show (entry :: rest).getLast?.map TableEntry.key = _
        rw [List.getLast?_append, List.getLast?_cons]
        rfl
      · simpa using hmin
      · simpa using hmax

theorem Midway.yields (h : Midway source it past later) :
    Yields source it (it.pending ++ later) := by
  -- by the records still to come; a new block hands out its first record at once
  obtain ⟨n, hn⟩ : ∃ n, (it.pending ++ later).length = n := ⟨_, rfl⟩
  induction n generalizing it past later with
  | zero =>
    obtain ⟨hpending, rfl⟩ := List.append_eq_nil_iff.1 (List.eq_nil_of_length_eq_zero hn)
    have hcount := h.count
    rw [hpending]
    simp only [hpending, List.append_nil] at hcount ⊢
    cases hindex : it.reader.index[it.block]? with
    | some index =>
      obtain ⟨entry, rest, later', heq, -⟩ := h.load hpending hindex
      cases heq
    | none =>
      have hfirst := h.first
      have hlast := h.last
      have hmin := h.min
      have hmax := h.max
      simp only [hpending, List.append_nil] at hfirst hlast hmin hmax
      refine .ends (?_ : it.next.eval source .eof = .ok (none, { it with done := true }))
      rw [next_of_finish h.notDone hpending hindex, finish, Reading.eval_failIf_bind (by rw [h.seen, hcount]; simp),
        Reading.eval_failIf_bind]
      · rfl
      · rintro ⟨hseen, hne⟩
        have hpast : past ≠ [] := by
          rintro rfl
          exact hseen h.seen
        rw [hfirst, hlast, hmin hpast, hmax hpast] at hne
        simp at hne
  | succ n ih =>
    -- `it'` is the iterator with the next record at the head of its block
    have step : ∀ (it' : SSTableEntryIterator) (entry : TableEntry) (rest later' : List TableEntry),
        Midway source it' past later' → it'.pending = entry :: rest →
        (rest ++ later').length = n →
        it.next.eval source .eof = (it'.emit entry rest).eval source .eof →
        Yields source it (entry :: (rest ++ later')) := by
      intro it' entry rest later' hmid hpending hlen heval
      have hcount := hmid.count
      have hseen : it'.seen < it'.reader.entryCount := by
        rw [hmid.seen, ← hcount, hpending]
        simp
      rw [eval_emit hseen] at heval
      exact .more heval (ih (hmid.emit hpending) hlen)
    cases hpending : it.pending with
    | cons entry rest =>
      refine step it entry rest later h hpending ?_ ?_
      · rw [hpending] at hn
        simpa using hn
      · rw [next_of_pending h.notDone hpending]
    | nil =>
      rw [hpending] at hn
      cases hindex : it.reader.index[it.block]? with
      | none =>
        have hscan := h.scan
        rw [List.drop_eq_nil_of_le (List.getElem?_eq_none_iff.1 hindex)] at hscan
        cases hscan
        cases hn
      | some index =>
        obtain ⟨entry, rest, later', rfl, heval, hmid⟩ := h.load hpending hindex
        refine step _ entry rest later' hmid rfl ?_ ?_
        · simpa using hn
        · rw [next_of_load h.notDone hpending hindex]
          exact heval

theorem yields_allEntries {r : SSTableReader} {entries : List TableEntry}
    (h : r.allEntries.eval source .eof = .ok entries) :
    Yields source (newSSTableEntryIterator r) entries := by
  simp only [SSTableReader.allEntries, Reading.eval_bind_eq_ok, Reading.eval_failIf_eq_ok,
    not_not] at h
  obtain ⟨all, hall, -, hcount, -, hbounds, h⟩ := h
  cases h
  simp only [not_and, not_or, not_not] at hbounds
  have hmid : Midway source (newSSTableEntryIterator r) [] entries :=
    ⟨hall, rfl, rfl, hcount, rfl, rfl, fun hne => (hbounds hne).1, fun hne => (hbounds hne).2⟩
  exact hmid.yields

theorem next_of_none {final : SSTableEntryIterator}
    (h : it.next.eval source .eof = .ok (none, final)) :
    final.next = (pure (none, final) : Reading Err (Option TableEntry × SSTableEntryIterator)) := by
  have hdone : final.done = true := by
    rw [next] at h
    split at h
    · next hdone =>
      cases h
      exact hdone
    · split at h
      · simp [emit, Reading.eval_bind_eq_ok] at h
      · split at h
        · simp only [finish, Reading.eval_bind_eq_ok] at h
          obtain ⟨-, -, -, -, h⟩ := h
          cases h
          rfl
        · simp only [load, Reading.eval_bind_eq_ok] at h
          obtain ⟨entries, -, -, -, -, -, h⟩ := h
          cases entries with
          | nil => cases h
          | cons entry rest => simp [emit, Reading.eval_bind_eq_ok] at h
  rw [next, if_pos hdone]

/-! ### The stream against the scan -/

structure Partway (it : SSTableEntryIterator) (past : List TableEntry) : Prop where
  notDone : it.done = false
  seen : it.seen = past.length
  first : it.firstKey = (past ++ it.pending).head?.map TableEntry.key
  last : it.lastKey = (past ++ it.pending).getLast?.map TableEntry.key

structure Complete (r : SSTableReader) (all : List TableEntry) : Prop where
  count : all.length = r.entryCount
  bounds : ¬(all ≠ [] ∧ (all.head?.map TableEntry.key ≠ some r.minKey ∨
    all.getLast?.map TableEntry.key ≠ some r.maxKey))

theorem Partway.emit (h : Partway it past)
    (hpending : it.pending = entry :: rest) :
    Partway { it with pending := rest, seen := it.seen + 1 } (past ++ [entry]) := by
  have happend : past ++ [entry] ++ rest = past ++ it.pending := by simp [hpending]
  refine ⟨h.notDone, by simp [h.seen], ?_, ?_⟩
  · rw [happend]
    exact h.first
  · rw [happend]
    exact h.last

theorem Partway.load {rest : List TableEntry} {entry : TableEntry} (h : Partway it past)
    (hpending : it.pending = []) :
    Partway { it with
      block := it.block + 1
      pending := entry :: rest
      firstKey := it.firstKey <|> some entry.key
      lastKey := (entry :: rest).getLast?.map TableEntry.key } past := by
  have hfirst := h.first
  rw [hpending, List.append_nil] at hfirst
  refine ⟨h.notDone, h.seen, ?_, ?_⟩
  · show (it.firstKey <|> some entry.key) = _
    rw [hfirst]
    cases past <;> rfl
  · show (entry :: rest).getLast?.map TableEntry.key = _
    rw [List.getLast?_append, List.getLast?_cons]
    rfl

theorem eval_emit_eq_ok {found : Option TableEntry}
    {after : SSTableEntryIterator}
    (h : (it.emit entry rest).eval source .eof = .ok (found, after)) :
    found = some entry ∧ after = { it with pending := rest, seen := it.seen + 1 } := by
  simp only [emit, Reading.eval_bind_eq_ok] at h
  obtain ⟨-, -, h⟩ := h
  cases h
  exact ⟨rfl, rfl⟩

theorem Partway.scan {l : List TableEntry} (h : Partway it past) (hl : Yields source it l) :
    ∃ later, l = it.pending ++ later ∧
      (it.reader.blockEntries it.lastKey (it.reader.index.drop it.block)).eval source .eof =
        .ok later ∧ Complete it.reader (past ++ l) := by
  induction hl generalizing past with
  | @ends it final hnext =>
    cases hpending : it.pending with
    | cons entry rest =>
      rw [next_of_pending h.notDone hpending] at hnext
      cases (eval_emit_eq_ok hnext).1
    | nil =>
      cases hindex : it.reader.index[it.block]? with
      | some index =>
        rw [next_of_load h.notDone hpending hindex] at hnext
        simp only [SSTableEntryIterator.load, Reading.eval_bind_eq_ok] at hnext
        obtain ⟨entries, -, -, -, -, -, hnext⟩ := hnext
        cases entries with
        | nil => cases hnext
        | cons entry rest => cases (eval_emit_eq_ok hnext).1
      | none =>
        rw [next_of_finish h.notDone hpending hindex] at hnext
        simp only [finish, Reading.eval_bind_eq_ok, Reading.eval_failIf_eq_ok, not_not] at hnext
        obtain ⟨-, hcount, -, hbounds, -⟩ := hnext
        have hfirst := h.first
        have hlast := h.last
        rw [hpending, List.append_nil] at hfirst hlast
        rw [h.seen] at hcount hbounds
        refine ⟨[], rfl, ?_, ?_, ?_⟩
        · rw [List.drop_eq_nil_of_le (List.getElem?_eq_none_iff.1 hindex)]
          rfl
        · rw [List.append_nil]
          exact hcount
        · rw [List.append_nil, ← hfirst, ← hlast]
          rintro ⟨hne, hkeys⟩
          exact hbounds ⟨fun hzero => hne (List.eq_nil_of_length_eq_zero hzero), hkeys⟩
  | @more it after entry entries hnext hrest ih =>
    cases hpending : it.pending with
    | cons head rest =>
      rw [next_of_pending h.notDone hpending] at hnext
      obtain ⟨hentry, rfl⟩ := eval_emit_eq_ok hnext
      cases hentry
      obtain ⟨later, rfl, hscan, hcomplete⟩ := ih (h.emit hpending)
      refine ⟨later, rfl, hscan, ?_⟩
      rw [List.append_cons]
      exact hcomplete
    | nil =>
      cases hindex : it.reader.index[it.block]? with
      | none =>
        rw [next_of_finish h.notDone hpending hindex] at hnext
        simp only [finish, Reading.eval_bind_eq_ok] at hnext
        obtain ⟨-, -, -, -, hnext⟩ := hnext
        cases hnext
      | some index =>
        rw [next_of_load h.notDone hpending hindex] at hnext
        simp only [SSTableEntryIterator.load, Reading.eval_bind_eq_ok,
          Reading.eval_failIf_eq_ok] at hnext
        obtain ⟨group, hgroup, -, hlast, -, hbloom, hnext⟩ := hnext
        cases group with
        | nil => cases hnext
        | cons head rest =>
          obtain ⟨hentry, rfl⟩ := eval_emit_eq_ok hnext
          cases hentry
          obtain ⟨later, rfl, hscan, hcomplete⟩ := ih ((h.load hpending).emit rfl)
          refine ⟨entry :: (rest ++ later), rfl, ?_, ?_⟩
          · obtain ⟨hlt, hget⟩ := List.getElem?_eq_some_iff.1 hindex
            rw [List.drop_eq_getElem_cons hlt, hget, SSTableReader.blockEntries]
            simp only [Reading.eval_bind_eq_ok, Reading.eval_failIf_eq_ok]
            exact ⟨_, hgroup, (), hlast, (), hbloom, later, hscan, rfl⟩
          · rw [List.append_cons]
            exact hcomplete

/-- Draining the stream ends without an error if and only if the scan does, with the same
records, and the end stays the end. -/
theorem stream_eq_scan (r : SSTableReader) (entries : List TableEntry) :
    (Yields source (newSSTableEntryIterator r) entries ↔
        r.allEntries.eval source .eof = .ok entries) ∧
      ∀ it final : SSTableEntryIterator, it.next.eval source .eof = .ok (none, final) →
        final.next.eval source .eof = .ok (none, final) := by
  refine ⟨⟨fun h => ?_, yields_allEntries⟩, fun it final h => ?_⟩
  · have hstart : Partway (newSSTableEntryIterator r) [] := ⟨rfl, rfl, rfl, rfl⟩
    obtain ⟨later, rfl, hscan, hcomplete⟩ := hstart.scan h
    rw [SSTableReader.allEntries]
    simp only [Reading.eval_bind_eq_ok]
    refine ⟨_, hscan, (), ?_, (), ?_, rfl⟩
    · rw [Reading.eval_failIf_eq_ok, not_not]
      exact hcomplete.count
    · rw [Reading.eval_failIf_eq_ok]
      exact hcomplete.bounds
  · rw [next_of_none h]
    rfl

end SSTableEntryIterator

end MiniQuorum.Lsm
