import MiniQuorum.Storage.Recovery

namespace MiniQuorum.Storage

open Raft Codec

/-! ### Directories without gaps -/

def numbered : Nat → List Bytes → Dir
  | _, [] => []
  | k, b :: bs => (k, b) :: numbered (k + 1) bs

theorem numbered_append (k : Nat) (bs cs : List Bytes) :
    numbered k (bs ++ cs) = numbered k bs ++ numbered (k + bs.length) cs := by
  induction bs generalizing k with
  | nil => rfl
  | cons b bs ih =>
    simp only [List.cons_append, numbered, ih, List.length_cons]
    rw [Nat.add_right_comm, Nat.add_assoc]

@[simp] theorem length_numbered (k : Nat) (bs : List Bytes) :
    (numbered k bs).length = bs.length := by
  induction bs generalizing k with
  | nil => rfl
  | cons b bs ih => simp [numbered, ih]

theorem map_fst_numbered (k : Nat) (bs : List Bytes) :
    (numbered k bs).map Prod.fst = List.range' k bs.length := by
  induction bs generalizing k with
  | nil => rfl
  | cons b bs ih => simp [numbered, ih, List.range'_succ]

theorem read_numbered (k i : Nat) (bs : List Bytes) :
    (numbered k bs).read (k + i) = bs[i]? := by
  induction bs generalizing k i with
  | nil => rfl
  | cons b bs ih =>
    rw [numbered, Dir.read, List.lookup_cons]
    cases i with
    | zero => simp
    | succ i =>
      have hne : (k + (i + 1) == k) = false := by simp
      rw [hne, List.getElem?_cons_succ, ← ih (k + 1) i, Nat.add_right_comm k 1 i]
      rfl

theorem modify_numbered_of_le (k seq : Nat) (f : Bytes → Bytes) {bs : List Bytes}
    (h : k + bs.length ≤ seq) : (numbered k bs).modify seq f = numbered k bs := by
  induction bs generalizing k with
  | nil => rfl
  | cons b bs ih =>
    simp only [List.length_cons] at h
    show (if k = seq then (seq, f b) else (k, b)) :: (numbered (k + 1) bs).modify seq f = _
    rw [if_neg (by omega), ih (k + 1) (by omega)]
    rfl

theorem modify_numbered_last (bs : List Bytes) (b : Bytes) (f : Bytes → Bytes) :
    (numbered 1 (bs ++ [b])).modify (bs.length + 1) f = numbered 1 (bs ++ [f b]) := by
  rw [numbered_append, numbered_append, Dir.modify, List.map_append]
  congr 1
  · exact modify_numbered_of_le 1 (bs.length + 1) f (by omega)
  · simp [numbered, Nat.add_comm 1]

theorem create_numbered (bs : List Bytes) :
    (numbered 1 bs).create (bs.length + 1) = some (numbered 1 (bs ++ [[]])) := by
  have hfresh := read_numbered 1 bs.length bs
  rw [Nat.add_comm, List.getElem?_eq_none le_rfl, Dir.read] at hfresh
  rw [Dir.create, hfresh, numbered_append, Nat.add_comm 1]
  rfl

theorem firstMissing_range' (want n : Nat) : firstMissing want (List.range' want n) = none := by
  induction n generalizing want with
  | zero => rfl
  | succ n ih => rw [List.range'_succ, firstMissing, if_neg (by simp), ih]

theorem listSegments_numbered (bs : List Bytes) :
    listSegments (numbered 1 bs) = .ok (List.range' 1 bs.length) := by
  have hsorted : (List.range' 1 bs.length).insertionSort (· ≤ ·) = List.range' 1 bs.length :=
    List.Pairwise.insertionSort_eq ((List.pairwise_lt_range' 1).imp le_of_lt)
  simp only [listSegments, map_fst_numbered, hsorted, firstMissing_range']

/-! ### Replaying segments -/

theorem Fits.append {m : Marshaler LogRecord} {rs rs' : List LogRecord} (h : Fits m rs)
    (h' : Fits m rs') : Fits m (rs ++ rs') := by
  intro r hr
  rcases List.mem_append.mp hr with hr | hr
  · exact h r hr
  · exact h' r hr

theorem Fits.marshal_lt {m : Marshaler LogRecord} {rs : List LogRecord} (h : Fits m rs) :
    ∀ p ∈ rs.map m.marshal, p.length < 2 ^ 32 := by
  intro p hp
  obtain ⟨r, hr, rfl⟩ := List.mem_map.mp hp
  have := h r hr
  simp only [maxUint32] at this
  omega

section Replay

variable {m : Marshaler LogRecord} (hm : m.RoundTrips)

include hm

theorem replaySegments_images {dir : Dir} {s s' : MemStorage} {segs : List (List LogRecord)}
    (first last : Nat) (hread : ∀ i rs, segs[i]? = some rs → dir.read (first + i) = some (image m rs))
    (hfits : ∀ rs ∈ segs, Fits m rs) (hfold : segs.flatten.foldlM applyRecord s = .ok s') :
    replaySegments m dir s (List.range' first segs.length ++ [last]) =
      replaySegment m dir s' last true := by
  induction segs generalizing first s with
  | nil =>
    cases hfold
    simp only [List.length_nil, List.range'_zero, List.nil_append, replaySegments, List.isEmpty_nil]
    split <;> simp_all
  | cons rs segs ih =>
    rw [List.flatten_cons] at hfold
    obtain ⟨t, ht, hfold⟩ := foldlM_append_eq_ok.mp hfold
    have hfirst : dir.read first = some (image m rs) := hread 0 rs rfl
    have hreplay := frameFormat.replayFrom_frames (applyPayload m) 0 (hfits rs (by simp)).marshal_lt
      (foldlM_applyPayload hm ht) []
    rw [List.append_nil] at hreplay
    have hseg : replaySegment m dir s first false = (dir, .ok t) := by
      rw [replaySegment, hfirst, image]
      simp only [hreplay, Format.replayFrom_nil]
      rfl
    rw [List.length_cons, List.range'_succ, List.cons_append, replaySegments]
    have hmore : (List.range' (first + 1) segs.length ++ [last]).isEmpty = false := by simp
    rw [hmore, hseg]
    apply ih (first + 1) _ (fun q hq => hfits q (by simp [hq])) hfold
    intro i q hq
    rw [Nat.add_assoc, Nat.add_comm 1]
    exact hread (i + 1) q hq

def completeRecords (m : Marshaler LogRecord) (rs : List LogRecord) (n : Nat) : List LogRecord :=
  rs.take (frameFormat.completeFrames (rs.map m.marshal) n)

theorem replaySegment_cut (files : List Bytes) {s s' : MemStorage} {rs : List LogRecord} (n : Nat)
    (hfits : Fits m rs) (hfold : (completeRecords m rs n).foldlM applyRecord s = .ok s') :
    replaySegment m (numbered 1 (files ++ [(image m rs).take n])) s (files.length + 1) true =
      (numbered 1 (files ++ [image m (completeRecords m rs n)]), .ok s') := by
  have hread : (numbered 1 (files ++ [(image m rs).take n])).read (files.length + 1) =
      some ((image m rs).take n) := by
    rw [Nat.add_comm, read_numbered]
    simp
  have hpre : image m (completeRecords m rs n) <+: (image m rs).take n := by
    rw [image, completeRecords, List.map_take]
    exact frameFormat.frames_take_completeFrames _ _
  have hreplay := frameFormat.replayFrom_take (applyPayload m) 0 n hfits.marshal_lt
    (by rw [← List.map_take]; exact foldlM_applyPayload hm hfold)
  rw [← List.map_take, Nat.zero_add] at hreplay
  rw [replaySegment, hread]
  dsimp only
  rw [image, hreplay]
  dsimp only
  change (if !decide ((image m (completeRecords m rs n)).length < ((image m rs).take n).length) then
    _ else _) = _
  by_cases htorn : (image m (completeRecords m rs n)).length < ((image m rs).take n).length
  · rw [decide_eq_true htorn]
    show ((numbered 1 (files ++ [(image m rs).take n])).modify (files.length + 1)
      (·.take (image m (completeRecords m rs n)).length), Except.ok s') = _
    rw [modify_numbered_last, ← List.prefix_iff_eq_take.mp hpre]
  · rw [decide_eq_false htorn, hpre.eq_of_length_le (by omega)]
    rfl

theorem openLog_cut {segs : List (List LogRecord)} {rs : List LogRecord} {s : MemStorage} (n : Nat)
    (rotateSize : Nat) (hsegs : ∀ rs ∈ segs, Fits m rs) (hfits : Fits m rs)
    (hfold : (segs.flatten ++ completeRecords m rs n).foldlM applyRecord MemStorage.empty = .ok s) :
    DiskLog.openLog m (numbered 1 (segs.map (image m) ++ [(image m rs).take n])) rotateSize =
      (numbered 1 (segs.map (image m) ++ [image m (completeRecords m rs n)]),
        .ok ⟨if rotateSize = 0 then defaultRotateSize else rotateSize, true, segs.length + 1,
          (image m (completeRecords m rs n)).length, s, none, false⟩) := by
  obtain ⟨t, ht, hrest⟩ := foldlM_append_eq_ok.mp hfold
  have hread : ∀ i q, segs[i]? = some q →
      (numbered 1 (segs.map (image m) ++ [(image m rs).take n])).read (1 + i) =
        some (image m q) := by
    intro i q hq
    have hi : i < segs.length := (List.getElem?_eq_some_iff.mp hq).1
    rw [read_numbered, List.getElem?_append_left (by simpa using hi), List.getElem?_map, hq]
    rfl
  have hseqs : List.range' 1 (segs.map (image m) ++ [(image m rs).take n]).length =
      List.range' 1 segs.length ++ [segs.length + 1] := by
    rw [List.length_append, List.length_map, List.length_singleton, List.range'_concat]
    simp [Nat.add_comm 1]
  have hreplay : replaySegments m (numbered 1 (segs.map (image m) ++ [(image m rs).take n]))
      MemStorage.empty (List.range' 1 segs.length ++ [segs.length + 1]) =
        (numbered 1 (segs.map (image m) ++ [image m (completeRecords m rs n)]), .ok s) := by
    rw [replaySegments_images hm 1 _ hread hsegs ht]
    have := replaySegment_cut hm (segs.map (image m)) n hfits hrest
    rwa [List.length_map] at this
  have hlast : (numbered 1 (segs.map (image m) ++ [image m (completeRecords m rs n)])).read
      (segs.length + 1) = some (image m (completeRecords m rs n)) := by
    rw [Nat.add_comm, read_numbered]
    simp
  rw [DiskLog.openLog, if_neg (by omega), listSegments_numbered, hseqs]
  dsimp only
  rw [List.getLast?_concat]
  dsimp only
  rw [hreplay]
  dsimp only
  rw [hlast]
  simp

end Replay

/-! ### The log and its files -/

/-- The files hold the records `segs` and, in the active segment, `rs`; they replay to the
mirror.  Only a log out of sequence numbers is poisoned. -/
structure Backed (m : Marshaler LogRecord) (segs : List (List LogRecord)) (rs : List LogRecord)
    (dir : Dir) (l : DiskLog) : Prop where
  files : dir = numbered 1 (segs.map (image m) ++ [image m rs])
  fits : ∀ q ∈ segs, Fits m q
  fits_active : Fits m rs
  replayed : (segs.flatten ++ rs).foldlM applyRecord MemStorage.empty = .ok l.mirror
  activeSeq : l.activeSeq = segs.length + 1
  activeSize : l.activeSize = (image m rs).length
  poisoned : ∀ e, l.failed = some e → l.activeSeq = maxUint64

namespace Backed

variable {m : Marshaler LogRecord} {segs : List (List LogRecord)} {rs : List LogRecord} {dir : Dir}
  {l : DiskLog}

theorem numbered_entries (h : Backed m segs rs dir l) : NumberedFrom 1 l.mirror.entries :=
  foldlM_applyRecord_numbered h.replayed trivial

theorem length_dir (h : Backed m segs rs dir l) : dir.length = l.activeSeq := by
  rw [h.files, h.activeSeq]
  simp

theorem openLog (h : Backed m segs rs dir l) (hm : m.RoundTrips) (rotateSize : Nat) :
    ∃ l', DiskLog.openLog m dir rotateSize = (dir, .ok l') ∧ l'.mirror = l.mirror ∧
      l'.failed = none ∧ l'.closed = false ∧ Backed m segs rs dir l' := by
  have hcomplete : completeRecords m rs (image m rs).length = rs := by
    rw [completeRecords, image, Format.completeFrames_length, List.length_map, List.take_length]
  have hopen := openLog_cut hm (image m rs).length rotateSize h.fits h.fits_active
    (by rw [hcomplete]; exact h.replayed)
  rw [hcomplete, List.take_length, ← h.files] at hopen
  exact ⟨_, hopen, rfl, rfl, rfl, ⟨h.files, h.fits, h.fits_active, h.replayed, rfl, rfl, by simp⟩⟩

theorem rotateIfNeeded (h : Backed m segs rs dir l) (batchSize : Nat) :
    (l.activeSeq = maxUint64 ∧
      l.rotateIfNeeded dir batchSize = (dir, { l with active := false }, .error .sequenceOverflow)) ∨
    ∃ segs' rs' dir' l', l.rotateIfNeeded dir batchSize = (dir', l', .ok ()) ∧
      Backed m segs' rs' dir' l' ∧ segs'.flatten ++ rs' = segs.flatten ++ rs ∧
      l'.mirror = l.mirror ∧ l'.failed = l.failed ∧ l'.closed = l.closed ∧
      (segs' = segs ∧ rs' = rs ∨ segs' = segs ++ [rs] ∧ rs' = []) := by
  rw [DiskLog.rotateIfNeeded]
  split
  · exact .inr ⟨segs, rs, dir, l, rfl, h, rfl, rfl, rfl, rfl, .inl ⟨rfl, rfl⟩⟩
  · by_cases hmax : l.activeSeq = maxUint64
    · exact .inl ⟨hmax, if_pos hmax⟩
    · right
      have hcreate : dir.create (l.activeSeq + 1) =
          some (numbered 1 ((segs ++ [rs]).map (image m) ++ [image m []])) := by
        have hlen : (segs.map (image m) ++ [image m rs]).length = l.activeSeq := by
          simp [h.activeSeq]
        rw [h.files, ← hlen, create_numbered, List.map_append]
        rfl
      refine ⟨segs ++ [rs], [], numbered 1 ((segs ++ [rs]).map (image m) ++ [image m []]),
        { l with active := true, activeSeq := l.activeSeq + 1, activeSize := 0 }, ?_, ?_, by simp,
        rfl, rfl, rfl, .inr ⟨rfl, rfl⟩⟩
      · dsimp only
        rw [if_neg hmax, hcreate]
      · refine ⟨rfl, ?_, by simp [Fits], ?_, ?_, rfl, ?_⟩
        · simpa [or_imp, forall_and] using ⟨h.fits, h.fits_active⟩
        · simpa using h.replayed
        · simp [h.activeSeq]
        · exact fun e he => absurd (h.poisoned e he) hmax

theorem save_cases (h : Backed m segs rs dir l) (torn : Option Nat) (hs : Option HardState)
    (entries : List Entry) :
    (∃ e l', l.save m torn dir hs entries = (dir, l', .error e) ∧ l'.mirror = l.mirror ∧
      l'.closed = l.closed ∧ Backed m segs rs dir l' ∧ (∀ seq, e ≠ .write seq) ∧
      (l.closed = false → l.activeSeq < maxUint64 →
        ¬(Extends l.lastIndex entries ∧ Fits m (batchRecords hs entries l.lastIndex)))) ∨
    (hs = none ∧ entries = [] ∧ l.save m torn dir hs entries = (dir, l, .ok ())) ∨
    (Extends l.lastIndex entries ∧ Fits m (batchRecords hs entries l.lastIndex) ∧
      ∃ segs' rs' dir' l', l.save m torn dir hs entries =
          l'.appendBatch torn dir' hs entries (image m (batchRecords hs entries l.lastIndex)) ∧
        Backed m segs' rs' dir' l' ∧ segs'.flatten ++ rs' = segs.flatten ++ rs ∧
        l'.mirror = l.mirror ∧ l'.failed = none ∧ l'.closed = l.closed ∧
        (segs' = segs ∧ rs' = rs ∨ segs' = segs ++ [rs] ∧ rs' = [])) := by
  rw [DiskLog.save]
  split
  · rename_i hclosed
    exact .inl ⟨_, l, rfl, rfl, rfl, h, nofun, fun hopen => absurd hclosed (by simp [hopen])⟩
  · split
    · rename_i cause hfailed
      refine .inl ⟨_, l, rfl, rfl, rfl, h, nofun, fun _ hlt => ?_⟩
      have := h.poisoned cause hfailed
      omega
    · rename_i hfailed
      split
      · rename_i hnone
        simp only [Bool.and_eq_true, Option.isNone_iff_eq_none, List.isEmpty_iff] at hnone
        exact .inr (.inl ⟨hnone.1, hnone.2, rfl⟩)
      · dsimp only
        cases hcheck : checkContiguous entries l.lastIndex with
        | error e =>
          refine .inl ⟨_, l, rfl, rfl, rfl, h, ?_, fun _ _ hok => ?_⟩
          · rintro seq rfl
            exact checkContiguous_ne_write entries l.lastIndex seq hcheck
          · rw [(checkContiguous_eq_ok_iff entries l.lastIndex).mpr hok.1] at hcheck
            cases hcheck
        | ok u =>
          have hext := (checkContiguous_eq_ok_iff entries l.lastIndex).mp hcheck
          dsimp only
          cases hbatch : encodeBatch m hs entries l.lastIndex with
          | error e =>
            refine .inl ⟨_, l, rfl, rfl, rfl, h, ?_, fun _ _ hok => ?_⟩
            · rintro seq rfl
              exact foldlM_appendFrame_ne_write m _ [] seq hbatch
            · rw [(encodeBatch_eq_ok_iff m hs entries l.lastIndex _).mpr ⟨hok.2, rfl⟩] at hbatch
              cases hbatch
          | ok batch =>
            obtain ⟨hfits, rfl⟩ := (encodeBatch_eq_ok_iff m hs entries l.lastIndex _).mp hbatch
            dsimp only
            rcases h.rotateIfNeeded (image m (batchRecords hs entries l.lastIndex)).length with
              ⟨hmax, hrot⟩ | ⟨segs', rs', dir', l', hrot, hl', hflat, hmirror, hf, hc, hshape⟩
            · rw [hrot]
              refine .inl ⟨_, _, rfl, rfl, rfl, ?_, nofun, fun _ hlt => by omega⟩
              exact ⟨h.files, h.fits, h.fits_active, h.replayed, h.activeSeq, h.activeSize,
                fun _ _ => hmax⟩
            · rw [hrot]
              exact .inr (.inr ⟨hext, hfits, segs', rs', dir', l', rfl, hl', hflat, hmirror,
                hf.trans hfailed, hc, hshape⟩)

theorem appendBatch (h : Backed m segs rs dir l) {hs : Option HardState} {entries : List Entry}
    (hext : Extends l.lastIndex entries) (hfits : Fits m (batchRecords hs entries l.lastIndex)) :
    ∃ dir' l', l.appendBatch none dir hs entries (image m (batchRecords hs entries l.lastIndex)) =
        (dir', l', .ok ()) ∧
      Backed m segs (rs ++ batchRecords hs entries l.lastIndex) dir' l' ∧
      l'.mirror = l.mirror.save hs entries ∧ l'.closed = l.closed := by
  have hsave : (l.appendBatch none dir hs entries
      (image m (batchRecords hs entries l.lastIndex))).2.1.mirror = l.mirror.save hs entries := by
    cases entries <;> rfl
  refine ⟨_, _, rfl, ⟨?_, h.fits, ?_, ?_, h.activeSeq, ?_, h.poisoned⟩, hsave, rfl⟩
  · rw [h.files, h.activeSeq, image_append]
    have := modify_numbered_last (segs.map (image m)) (image m rs)
      (· ++ image m (batchRecords hs entries l.lastIndex))
    rwa [List.length_map] at this
  · exact h.fits_active.append hfits
  · rw [← List.append_assoc]
    refine foldlM_append_eq_ok.mpr ⟨_, h.replayed, ?_⟩
    exact (batchRecords_apply hs h.numbered_entries hext).trans (congrArg _ hsave.symm)
  · rw [image_append, List.length_append, ← h.activeSize]

theorem save (h : Backed m segs rs dir l) (hs : Option HardState) (entries : List Entry) :
    (∃ e l', l.save m none dir hs entries = (dir, l', .error e) ∧ l'.mirror = l.mirror ∧
      Backed m segs rs dir l' ∧ (l.closed = false → l.activeSeq < maxUint64 →
        ¬(Extends l.lastIndex entries ∧ Fits m (batchRecords hs entries l.lastIndex)))) ∨
    ∃ segs' rs' dir' l', l.save m none dir hs entries = (dir', l', .ok ()) ∧
      l'.mirror = l.mirror.save hs entries ∧ Backed m segs' rs' dir' l' ∧
      Extends l.lastIndex entries ∧ Fits m (batchRecords hs entries l.lastIndex) := by
  rcases h.save_cases none hs entries with
    ⟨e, l', hsave, hmirror, -, hl', -, hnot⟩ | ⟨rfl, rfl, hsave⟩ |
    ⟨hext, hfits, segs', rs', dir', l', hsave, hl', -, hmirror, -⟩
  · exact .inl ⟨e, l', hsave, hmirror, hl', hnot⟩
  · refine .inr ⟨segs, rs, dir, l, hsave, rfl, h, ?_, ?_⟩
    · simp [Extends]
    · simp [Fits, batchRecords, entryRecords]
  · have hlast : l'.lastIndex = l.lastIndex := congrArg MemStorage.lastIndex hmirror
    rw [← hlast] at hext hfits hsave ⊢
    obtain ⟨dir'', l'', happend, hl'', hstore, -⟩ := hl'.appendBatch hext hfits
    exact .inr ⟨segs', _, dir'', l'', hsave.trans happend, by rw [hstore, hmirror], hl'', hext,
      hfits⟩

end Backed

/-! ### Runs -/

inductive Call
  | save (hs : Option HardState) (entries : List Entry)
  | close
  | reopen (rotateSize : Nat)

structure System where
  dir : Dir
  log : DiskLog
  mem : MemStorage

def System.call (m : Marshaler LogRecord) (st : System) : Call → Except OpenError System
  | .save hs entries =>
    let r := st.log.save m none st.dir hs entries
    .ok ⟨r.1, r.2.1, if r.2.2.isOk then st.mem.save hs entries else st.mem⟩
  | .close => .ok { st with log := st.log.close }
  | .reopen rotateSize =>
    match DiskLog.openLog m st.dir rotateSize with
    | (_, .error e) => .error e
    | (dir, .ok log) => .ok ⟨dir, log, st.mem⟩

def System.run (m : Marshaler LogRecord) (rotateSize : Nat) (calls : List Call) :
    Except OpenError System :=
  match DiskLog.openLog m [] rotateSize with
  | (_, .error e) => .error e
  | (dir, .ok log) => calls.foldlM (System.call m) ⟨dir, log, MemStorage.empty⟩

/-- The log serves what the in-memory storage serves; a refused save changes neither the
files nor what is served; an open log with a sequence number left accepts exactly the
saves that extend it and whose records have 32-bit lengths. -/
structure System.Refines (m : Marshaler LogRecord) (st : System) : Prop where
  hardState : st.log.hardState = st.mem.hard
  firstIndex : st.log.firstIndex = st.mem.firstIndex
  lastIndex : st.log.lastIndex = st.mem.lastIndex
  entries : ∀ lo hi, st.log.getEntries lo hi = st.mem.getEntries lo hi
  refused : ∀ hs entries e, (st.log.save m none st.dir hs entries).2.2 = .error e →
    (st.log.save m none st.dir hs entries).1 = st.dir ∧
      (st.log.save m none st.dir hs entries).2.1.mirror = st.log.mirror
  accepted : st.log.closed = false → st.dir.length < maxUint64 → ∀ hs entries,
    (st.log.save m none st.dir hs entries).2.2 = .ok () ↔
      Extends st.log.lastIndex entries ∧ Fits m (batchRecords hs entries st.log.lastIndex)

def System.Inv (m : Marshaler LogRecord) (st : System) : Prop :=
  st.log.mirror = st.mem ∧ ∃ segs rs, Backed m segs rs st.dir st.log

namespace System

variable {m : Marshaler LogRecord} {st : System}

theorem Inv.call (h : st.Inv m) (hm : m.RoundTrips) (c : Call) :
    ∃ st', st.call m c = .ok st' ∧ st'.Inv m := by
  obtain ⟨hmem, segs, rs, hb⟩ := h
  cases c with
  | save hs entries =>
    refine ⟨_, rfl, ?_⟩
    rcases hb.save hs entries with
      ⟨e, l', hsave, hmirror, hl', -⟩ | ⟨segs', rs', dir', l', hsave, hmirror, hl', -⟩
    · simp only [hsave]
      exact ⟨hmirror.trans hmem, segs, rs, hl'⟩
    · simp only [hsave]
      exact ⟨by rw [hmirror, hmem]; rfl, segs', rs', hl'⟩
  | close => exact ⟨_, rfl, hmem, segs, rs, { hb with }⟩
  | reopen rotateSize =>
    obtain ⟨l', hopen, hmirror, -, -, hl'⟩ := hb.openLog hm rotateSize
    refine ⟨⟨st.dir, l', st.mem⟩, ?_, hmirror.trans hmem, segs, rs, hl'⟩
    simp only [System.call, hopen]

theorem Inv.calls (h : st.Inv m) (hm : m.RoundTrips) (cs : List Call) :
    ∃ st', cs.foldlM (System.call m) st = .ok st' ∧ st'.Inv m := by
  induction cs generalizing st with
  | nil => exact ⟨st, rfl, h⟩
  | cons c cs ih =>
    obtain ⟨t, hc, ht⟩ := h.call hm c
    obtain ⟨st', hcs, hst'⟩ := ih ht
    exact ⟨st', foldlM_cons_eq_ok.mpr ⟨t, hc, hcs⟩, hst'⟩

theorem Inv.run (hm : m.RoundTrips) (rotateSize : Nat) (cs : List Call) :
    ∃ st, System.run m rotateSize cs = .ok st ∧ st.Inv m := by
  have hstart : DiskLog.openLog m [] rotateSize = ([(1, [])], .ok
      ⟨if rotateSize = 0 then defaultRotateSize else rotateSize, true, 1, 0, MemStorage.empty, none,
        false⟩) := by
    rw [DiskLog.openLog, if_neg (by omega)]
    simp [listSegments, firstMissing, Dir.create]
  simp only [System.run, hstart]
  apply Inv.calls _ hm cs
  exact ⟨rfl, [], [], ⟨rfl, by simp, by simp [Fits], rfl, rfl, rfl, nofun⟩⟩

theorem Inv.refines (h : st.Inv m) : st.Refines m := by
  obtain ⟨hmem, segs, rs, hb⟩ := h
  refine ⟨by rw [← hmem]; rfl, by rw [← hmem]; rfl, by rw [← hmem]; rfl, ?_, ?_, ?_⟩
  · intro lo hi
    rw [← hmem]
    rfl
  · intro hs entries e herr
    rcases hb.save hs entries with
      ⟨e', l', hsave, hmirror, -⟩ | ⟨segs', rs', dir', l', hsave, -⟩
    · rw [hsave]
      exact ⟨rfl, hmirror⟩
    · rw [hsave] at herr
      cases herr
  · intro hopen hlen hs entries
    rw [hb.length_dir] at hlen
    rcases hb.save hs entries with
      ⟨e', l', hsave, -, -, hnot⟩ | ⟨segs', rs', dir', l', hsave, -, -, hext, hfits⟩
    · simp only [hsave, reduceCtorEq, false_iff]
      exact hnot hopen hlen
    · simp only [hsave, true_iff]
      exact ⟨hext, hfits⟩

end System

/-- A segmented log refines an in-memory storage that receives exactly the accepted saves,
across rotation, closing and reopening. -/
theorem diskLog_refines_memStorage (m : Marshaler LogRecord) (hm : m.RoundTrips) (rotateSize : Nat)
    (calls : List Call) : ∃ st, System.run m rotateSize calls = .ok st ∧ st.Refines m := by
  obtain ⟨st, hrun, hinv⟩ := System.Inv.run hm rotateSize calls
  exact ⟨st, hrun, hinv.refines⟩

/-! A serialisation that round-trips. -/

def entryTypeWire : Wire EntryType :=
  (Wire.sum (.sum .unit .unit) (.sum .unit (.sum .nat .nat))).imap
    (fun
      | .inl (.inl ()) => .unspecified
      | .inl (.inr ()) => .normal
      | .inr (.inl ()) => .noop
      | .inr (.inr (.inl n)) => .unrecognized (Int.ofNat n)
      | .inr (.inr (.inr n)) => .unrecognized (Int.negSucc n))
    (fun
      | .unspecified => .inl (.inl ())
      | .normal => .inl (.inr ())
      | .noop => .inr (.inl ())
      | .unrecognized (Int.ofNat n) => .inr (.inr (.inl n))
      | .unrecognized (Int.negSucc n) => .inr (.inr (.inr n)))
    (by
      intro t
      cases t with
      | unrecognized n => cases n <;> rfl
      | _ => rfl)

def entryWire : Wire Entry :=
  (Wire.pair (.pair .nat .nat) (.pair entryTypeWire (.list .byte))).imap
    (fun x => ⟨x.1.1, x.1.2, x.2.1, x.2.2⟩) (fun e => ((e.index, e.term), (e.type, e.data)))
    fun _ => rfl

def recordWire : Wire LogRecord :=
  (Wire.sum (.sum (.pair .nat .nat) .nat) (.sum (.list entryWire) .unit)).imap
    (fun
      | .inl (.inl x) => .hardState ⟨x.1, x.2⟩
      | .inl (.inr i) => .truncate i
      | .inr (.inl es) => .entries es
      | .inr (.inr ()) => .unsupported)
    (fun
      | .hardState hs => .inl (.inl (hs.term, hs.votedFor))
      | .truncate i => .inl (.inr i)
      | .entries es => .inr (.inl es)
      | .unsupported => .inr (.inr ()))
    (by
      intro r
      cases r <;> rfl)

theorem diskLog_refines_memStorage_rotated :
    recordWire.marshaler.RoundTrips ∧ ∃ st, System.run recordWire.marshaler 1
      [.save (some ⟨1, 1⟩) [⟨1, 1, .noop, []⟩, ⟨2, 1, .normal, [7]⟩], .save none [⟨2, 2, .normal, []⟩],
        .close, .reopen 1] = .ok st ∧ st.Refines recordWire.marshaler :=
  ⟨recordWire.marshaler_roundTrips,
    diskLog_refines_memStorage _ recordWire.marshaler_roundTrips _ _⟩

theorem length_data_le_recordWire (e : Entry) :
    e.data.length ≤ (recordWire.put (.entries [e])).length := by
  have hbytes : (e.data.flatMap Wire.byte.put).length = e.data.length := by
    simp [Wire.byte]
  simp only [recordWire, entryWire, Wire.imap, Wire.sum, Wire.list, Wire.pair,
    List.flatMap_cons, List.flatMap_nil, List.append_nil, List.length_cons, List.length_append]
  omega

/-! Saves that rotate, one after the other, until no sequence number is left. -/

theorem DiskLog.save_full {m : Marshaler LogRecord} {l : DiskLog} {dir : Dir} {hs : HardState}
    (hopen : l.closed = false) (hworks : l.failed = none) (hsize : l.rotateSize = 1)
    (hfull : l.activeSize ≠ 0) (hfits : Fits m [.hardState hs]) :
    (l.activeSeq = maxUint64 →
      (l.save m none dir (some hs) []).2.2 = .error .sequenceOverflow) ∧
    ∀ dir', l.activeSeq ≠ maxUint64 → dir.create (l.activeSeq + 1) = some dir' →
      l.save m none dir (some hs) [] = DiskLog.appendBatch none
        { l with active := true, activeSeq := l.activeSeq + 1, activeSize := 0 } dir' (some hs) []
        (image m [.hardState hs]) := by
  have hbatch : encodeBatch m (some hs) [] l.lastIndex = .ok (image m [.hardState hs]) :=
    (encodeBatch_eq_ok_iff m (some hs) [] l.lastIndex _).mpr ⟨hfits, rfl⟩
  have hroom : ¬ (l.activeSize = 0 ∨ (l.activeSize ≤ l.rotateSize ∧
      (image m [.hardState hs]).length ≤ l.rotateSize - l.activeSize)) := by
    have hlength : 0 < (image m [.hardState hs]).length := by
      simp [image, Format.frames, Format.frame]
    omega
  have hcheck : checkContiguous [] l.lastIndex = .ok () := rfl
  rw [DiskLog.save, if_neg (by simp [hopen]), hworks]
  simp only [Option.isNone_some, Bool.false_and, Bool.false_eq_true, if_false, hcheck, hbatch]
  rw [DiskLog.rotateIfNeeded, if_neg hroom]
  refine ⟨?_, ?_⟩
  · intro hmax
    rw [if_pos hmax]
  · intro dir' hmax hcreate
    rw [if_neg hmax, hcreate, ← hworks]

structure System.Full (m : Marshaler LogRecord) (seq : Nat) (st : System) : Prop where
  inv : st.Inv m
  opened : st.log.closed = false
  works : st.log.failed = none
  rotateSize : st.log.rotateSize = 1
  full : st.log.activeSize ≠ 0
  activeSeq : st.log.activeSeq = seq

theorem System.Full.call {m : Marshaler LogRecord} (hm : m.RoundTrips) {hs : HardState}
    (hfits : Fits m [.hardState hs]) {seq : Nat} {st : System} (h : st.Full m seq)
    (hseq : seq < maxUint64) :
    ∃ st', st.call m (.save (some hs) []) = .ok st' ∧ st'.Full m (seq + 1) := by
  obtain ⟨-, segs, rs, hb⟩ := h.inv
  have hcreate : ∃ dir', st.dir.create (st.log.activeSeq + 1) = some dir' := by
    have hlen : (segs.map (image m) ++ [image m rs]).length = st.log.activeSeq := by
      simp [hb.activeSeq]
    rw [hb.files, ← hlen, create_numbered]
    exact ⟨_, rfl⟩
  obtain ⟨dir', hcreate⟩ := hcreate
  have hsave := (DiskLog.save_full h.opened h.works h.rotateSize h.full hfits).2 dir'
    (by rw [h.activeSeq]; omega) hcreate
  obtain ⟨st', hcall, hinv⟩ := h.inv.call hm (.save (some hs) [])
  have hlog : st'.log = (st.log.save m none st.dir (some hs) []).2.1 := by
    cases hcall
    rfl
  rw [hsave] at hlog
  refine ⟨st', hcall, hinv, ?_, ?_, ?_, ?_, ?_⟩
  all_goals rw [hlog]
  · exact h.opened
  · exact h.works
  · exact h.rotateSize
  · show 0 + (image m [.hardState hs]).length ≠ 0
    simp [image, Format.frames, Format.frame]
  · exact congrArg (· + 1) h.activeSeq

theorem System.Full.calls {m : Marshaler LogRecord} (hm : m.RoundTrips) {hs : HardState}
    (hfits : Fits m [.hardState hs]) (n : Nat) {seq : Nat} {st : System} (h : st.Full m seq)
    (hn : seq + n ≤ maxUint64) :
    ∃ st', (List.replicate n (.save (some hs) [])).foldlM (System.call m) st = .ok st' ∧
      st'.Full m (seq + n) := by
  induction n generalizing seq st with
  | zero => exact ⟨st, rfl, h⟩
  | succ n ih =>
    obtain ⟨mid, hcall, hmid⟩ := h.call hm hfits (by omega)
    obtain ⟨st', hcalls, hst'⟩ := ih hmid (by omega)
    refine ⟨st', foldlM_cons_eq_ok.mpr ⟨mid, hcall, hcalls⟩, ?_⟩
    rwa [Nat.add_assoc, Nat.add_comm 1] at hst'

/-- Two saves that extend the log and are refused: one with a record of 4 GiB, and one behind
`2 ^ 64 - 1` segments. -/
theorem diskLog_refuses_extending_saves :
    recordWire.marshaler.RoundTrips ∧
    (∃ st entries, System.run recordWire.marshaler 1 [] = .ok st ∧
      st.log.closed = false ∧ Extends st.log.lastIndex entries ∧
      (st.log.save recordWire.marshaler none st.dir none entries).2.2 ≠ .ok ()) ∧
    ∃ calls st, System.run recordWire.marshaler 1 calls = .ok st ∧ st.log.closed = false ∧
      Extends st.log.lastIndex [] ∧
      Fits recordWire.marshaler (batchRecords (some ⟨1, 1⟩) [] st.log.lastIndex) ∧
      (st.log.save recordWire.marshaler none st.dir (some ⟨1, 1⟩) []).2.2 =
        .error .sequenceOverflow := by
  have hm := recordWire.marshaler_roundTrips
  refine ⟨hm, ?_, ?_⟩
  · let st : System := ⟨[(1, [])], ⟨1, true, 1, 0, MemStorage.empty, none, false⟩, MemStorage.empty⟩
    have hrun : System.run recordWire.marshaler 1 [] = .ok st := rfl
    obtain ⟨st', hrun', hinv⟩ := System.Inv.run hm 1 []
    obtain rfl : st = st' := Except.ok.inj (hrun.symm.trans hrun')
    have hwide : maxUint32 < (List.replicate (2 ^ 32) (0 : UInt8)).length := by
      rw [List.length_replicate]
      decide
    generalize List.replicate (2 ^ 32) (0 : UInt8) = data at hwide
    refine ⟨st, [⟨1, 1, .normal, data⟩], hrun, rfl, ?_, ?_⟩
    · simp [Extends, NumberedFrom]
    · rw [Ne, hinv.refines.accepted rfl (by decide)]
      rintro ⟨-, hfits⟩
      have hmem : LogRecord.entries [⟨1, 1, .normal, data⟩] ∈
          batchRecords none [⟨1, 1, .normal, data⟩] st.log.lastIndex := by
        simp [batchRecords, entryRecords, st, DiskLog.lastIndex, Storage.lastIndex, firstLast,
          MemStorage.empty]
      have hrecord := (length_data_le_recordWire _).trans (hfits _ hmem)
      exact absurd hrecord (Nat.not_le.mpr hwide)
  · have hfits : Fits recordWire.marshaler [.hardState ⟨1, 1⟩] := by
      intro r hr
      rw [List.mem_singleton.mp hr]
      decide
    obtain ⟨st, hrun, hinv⟩ := System.Inv.run hm 1 [.save (some ⟨1, 1⟩) []]
    have hfull : st.Full recordWire.marshaler 1 := by
      cases hrun
      exact ⟨hinv, rfl, rfl, rfl, by decide +kernel, rfl⟩
    obtain ⟨st', hcalls, h⟩ := hfull.calls hm hfits (maxUint64 - 1) (by decide)
    refine ⟨_, st', foldlM_append_eq_ok.mpr ⟨st, hrun, hcalls⟩, h.opened, ?_, hfits,
      (DiskLog.save_full h.opened h.works h.rotateSize h.full hfits).1 h.activeSeq⟩
    simp [Extends]

end MiniQuorum.Storage
