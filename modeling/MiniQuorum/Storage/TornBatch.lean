import MiniQuorum.Storage.Refinement

namespace MiniQuorum.Storage

open Raft Codec

namespace Backed

variable {m : Marshaler LogRecord} {segs : List (List LogRecord)} {rs : List LogRecord} {dir : Dir}
  {l : DiskLog}

theorem openLog_torn (h : Backed m segs rs dir l) (hm : m.RoundTrips) {hs : Option HardState}
    {entries : List Entry} (hext : Extends l.lastIndex entries)
    (hfits : Fits m (batchRecords hs entries l.lastIndex)) (k rotateSize : Nat) :
    let kept := completeRecords m (batchRecords hs entries l.lastIndex) k
    let cut := numbered 1 (segs.map (image m) ++ [image m rs ++ image m kept])
    ∃ l', DiskLog.openLog m (numbered 1 (segs.map (image m) ++
        [image m rs ++ (image m (batchRecords hs entries l.lastIndex)).take k])) rotateSize =
          (cut, .ok l') ∧
      l'.mirror = replay l.mirror kept ∧ Backed m segs (rs ++ kept) cut l' := by
  intro kept cut
  have hcomplete : completeRecords m (rs ++ batchRecords hs entries l.lastIndex)
      ((image m rs).length + k) = rs ++ kept := by
    rw [completeRecords, List.map_append, image, Format.completeFrames_append, List.length_map,
      List.take_length_add_append]
    rfl
  have htake : (image m (rs ++ batchRecords hs entries l.lastIndex)).take
      ((image m rs).length + k) =
        image m rs ++ (image m (batchRecords hs entries l.lastIndex)).take k := by
    rw [image_append, List.take_length_add_append]
  have hkept : kept.foldlM applyRecord l.mirror = .ok (replay l.mirror kept) :=
    batchRecords_take_apply hs h.numbered_entries hext _
  have hfold : (segs.flatten ++ (rs ++ kept)).foldlM applyRecord MemStorage.empty =
      .ok (replay l.mirror kept) := by
    rw [← List.append_assoc]
    exact foldlM_append_eq_ok.mpr ⟨_, h.replayed, hkept⟩
  have hopen := openLog_cut hm ((image m rs).length + k) rotateSize h.fits (h.fits_active.append hfits)
    (by rw [hcomplete]; exact hfold)
  rw [htake, hcomplete, image_append] at hopen
  refine ⟨_, hopen, rfl, ⟨?_, h.fits, ?_, hfold, rfl, ?_, by simp⟩⟩
  · rw [image_append]
  · exact h.fits_active.append fun r hr => hfits r (List.mem_of_mem_take hr)
  · rw [image_append]

end Backed

/-- Recovery from a save of which only the first `k` bytes of the batch were kept. -/
theorem torn_batch_recovery (m : Marshaler LogRecord) (hm : m.RoundTrips) (rotateSize : Nat)
    (calls : List Call) (st : System) (hrun : System.run m rotateSize calls = .ok st)
    (hs : Option HardState) (entries : List Entry) (k seq : Nat)
    (htorn : (st.log.save m (some k) st.dir hs entries).2.2 = .error (.write seq)) :
    let dir := (st.log.save m (some k) st.dir hs entries).1
    let log := (st.log.save m (some k) st.dir hs entries).2.1
    let records := batchRecords hs entries st.log.lastIndex
    let n := frameFormat.completeFrames (records.map m.marshal) k
    -- The failed process refuses every save and serves the state before the failed one.
    log.mirror = st.log.mirror ∧
    (∀ torn hs entries, ∃ e, log.save m torn dir hs entries = (dir, log, .error e)) ∧
    ∃ files old, (st.dir = numbered 1 (files ++ [old]) ∨ st.dir = numbered 1 files ∧ old = []) ∧
      dir = numbered 1 (files ++ [old ++ (image m records).take k]) ∧
      -- `Open` cuts the final segment after its last complete frame.
      let cut := numbered 1 (files ++ [old ++ image m (records.take n)])
      ∀ rotateSize : Nat, ∃ log', DiskLog.openLog m dir rotateSize = (cut, .ok log') ∧
        log'.mirror = st.log.mirror.tornSave hs entries n ∧
        (∀ again : Nat, ∃ log'', DiskLog.openLog m cut again = (cut, .ok log'') ∧
          log''.mirror = log'.mirror) ∧
        ∀ later : List Call, ∃ st' : System, later.foldlM (System.call m) ⟨cut, log', log'.mirror⟩ = .ok st' ∧
          st'.Refines m := by
  intro dir log records n
  obtain ⟨st', hst', -, segs, rs, hb⟩ := System.Inv.run hm rotateSize calls
  obtain rfl : st' = st := Except.ok.inj (hst'.symm.trans hrun)
  rcases hb.save_cases (some k) hs entries with
    ⟨e, l', hsave, -, -, -, hne, -⟩ | ⟨-, -, hsave⟩ |
    ⟨hext, hfits, segs', rs', dir', l', hsave, hl', -, hmirror, -, hclosed, hshape⟩
  · rw [hsave] at htorn
    exact absurd (Except.error.inj htorn) (hne seq)
  · rw [hsave] at htorn
    cases htorn
  · have hlast : l'.lastIndex = st'.log.lastIndex := congrArg MemStorage.lastIndex hmirror
    rw [← hlast] at hext hfits
    have hdir : dir = numbered 1 (segs'.map (image m) ++
        [image m rs' ++ (image m records).take k]) := by
      show (st'.log.save m (some k) st'.dir hs entries).1 = _
      rw [hsave]
      show dir'.modify l'.activeSeq (· ++ (image m records).take k) = _
      have hlen : l'.activeSeq = (segs'.map (image m)).length + 1 := by
        rw [hl'.activeSeq, List.length_map]
      rw [hl'.files, hlen, modify_numbered_last]
    have hlog : log = { l' with failed := some (.write l'.activeSeq) } := by
      show (st'.log.save m (some k) st'.dir hs entries).2.1 = _
      rw [hsave]
      rfl
    refine ⟨by rw [hlog]; exact hmirror, ?_, segs'.map (image m), image m rs', ?_, hdir, ?_⟩
    · intro torn hs entries
      rw [DiskLog.save, hlog]
      split
      · exact ⟨_, rfl⟩
      · exact ⟨_, rfl⟩
    · rcases hshape with ⟨rfl, rfl⟩ | ⟨rfl, rfl⟩
      · exact .inl hb.files
      · refine .inr ⟨?_, rfl⟩
        rw [hb.files, List.map_append]
        rfl
    · intro cut rotateSize'
      obtain ⟨l2, hopen, hl2, hb2⟩ := hl'.openLog_torn hm hext hfits k rotateSize'
      rw [hlast] at hopen hl2 hb2
      refine ⟨l2, by rw [hdir]; exact hopen, by rw [hl2, hmirror]; rfl, ?_, ?_⟩
      · intro again
        obtain ⟨l3, hopen3, hl3, -⟩ := hb2.openLog hm again
        exact ⟨l3, hopen3, hl3⟩
      · intro later
        have hinv : (System.mk cut l2 l2.mirror).Inv m := ⟨rfl, segs', _, hb2⟩
        obtain ⟨st'', hlater, hinv''⟩ := hinv.calls hm later
        exact ⟨st'', hlater, hinv''.refines⟩

/-- Two entries stored, then a vote and an entry in the place of the second one, cut five bytes into
the record that truncates: the vote is recovered, and both old entries. -/
theorem torn_batch_recovery_overwriting :
    ∃ st dir log cut log',
      System.run recordWire.marshaler 4096
        [.save (some ⟨1, 1⟩) [⟨1, 1, .noop, []⟩, ⟨2, 1, .noop, []⟩]] = .ok st ∧
      batchRecords (some ⟨2, 2⟩) [⟨2, 2, .noop, []⟩] st.log.lastIndex =
        [.hardState ⟨2, 2⟩, .truncate 2, .entries [⟨2, 2, .noop, []⟩]] ∧
      st.log.save recordWire.marshaler (some 39) st.dir (some ⟨2, 2⟩) [⟨2, 2, .noop, []⟩] =
        (dir, log, .error (.write 1)) ∧
      log.mirror = ⟨⟨1, 1⟩, [⟨1, 1, .noop, []⟩, ⟨2, 1, .noop, []⟩]⟩ ∧
      (∀ torn hs entries, ∃ e,
        log.save recordWire.marshaler torn dir hs entries = (dir, log, .error e)) ∧
      DiskLog.openLog recordWire.marshaler dir 4096 = (cut, .ok log') ∧
      log'.mirror = ⟨⟨2, 2⟩, [⟨1, 1, .noop, []⟩, ⟨2, 1, .noop, []⟩]⟩ := by
  have hran : (System.run recordWire.marshaler 4096
      [.save (some ⟨1, 1⟩) [⟨1, 1, .noop, []⟩, ⟨2, 1, .noop, []⟩]]).toOption.any (fun st =>
        decide (st.log.mirror = ⟨⟨1, 1⟩, [⟨1, 1, .noop, []⟩, ⟨2, 1, .noop, []⟩]⟩) &&
        decide ((st.log.save recordWire.marshaler (some 39) st.dir (some ⟨2, 2⟩)
          [⟨2, 2, .noop, []⟩]).2.2 = .error (.write 1))) = true := by decide +kernel
  cases hrun : System.run recordWire.marshaler 4096
      [.save (some ⟨1, 1⟩) [⟨1, 1, .noop, []⟩, ⟨2, 1, .noop, []⟩]] with
  | error e =>
    rw [hrun] at hran
    cases hran
  | ok st =>
    rw [hrun] at hran
    obtain ⟨hmirror, htorn⟩ : st.log.mirror = _ ∧ _ := by
      simpa only [Except.toOption, Option.any_some, Bool.and_eq_true, decide_eq_true_eq] using hran
    obtain ⟨hkept, hrefused, files, old, -, -, hopened⟩ :=
      torn_batch_recovery recordWire.marshaler recordWire.marshaler_roundTrips 4096 _ st hrun
        (some ⟨2, 2⟩) [⟨2, 2, .noop, []⟩] 39 1 htorn
    obtain ⟨log', hopen, hlog', -⟩ := hopened 4096
    refine ⟨st, _, _, _, log', rfl, ?_, Prod.ext rfl (Prod.ext rfl htorn), hkept.trans hmirror,
      hrefused, hopen, hlog'.trans ?_⟩
    · rw [DiskLog.lastIndex, hmirror]
      rfl
    · rw [DiskLog.lastIndex, hmirror]
      decide +kernel

/-! ### Any number of crashes -/

/-- A call, or a process that dies once `k` bytes of a save's batch are written and starts again. -/
inductive Event
  | call (c : Call)
  | crash (hs : Option HardState) (entries : List Entry) (k rotateSize : Nat)

def System.event (m : Marshaler LogRecord) (st : System) : Event → Except OpenError System
  | .call c => st.call m c
  | .crash hs entries k rotateSize =>
    let r := st.log.save m (some k) st.dir hs entries
    let n := frameFormat.completeFrames ((batchRecords hs entries st.log.lastIndex).map m.marshal) k
    let mem := match r.2.2 with
      | .error (.write _) => st.mem.tornSave hs entries n
      | _ => st.mem
    System.call m ⟨r.1, r.2.1, mem⟩ (.reopen rotateSize)

def System.runEvents (m : Marshaler LogRecord) (rotateSize : Nat) (events : List Event) :
    Except OpenError System := do
  let st ← System.run m rotateSize []
  events.foldlM (System.event m) st

theorem System.Inv.event {m : Marshaler LogRecord} {st : System} (h : st.Inv m)
    (hm : m.RoundTrips) (e : Event) : ∃ st', st.event m e = .ok st' ∧ st'.Inv m := by
  cases e with
  | call c => exact h.call hm c
  | crash hs entries k rotateSize =>
    obtain ⟨hmem, segs, rs, hb⟩ := id h
    rcases hb.save_cases (some k) hs entries with
      ⟨e, l', hsave, hmirror, -, hl', hne, -⟩ | ⟨-, -, hsave⟩ |
      ⟨hext, hfits, segs', rs', dir', l', hsave, hl', -, hmirror, -⟩
    · simp only [System.event, hsave]
      split
      · rename_i heq
        exact absurd (Except.error.inj heq) (hne _)
      · exact Inv.call ⟨hmirror.trans hmem, segs, rs, hl'⟩ hm _
    · simp only [System.event, hsave]
      exact h.call hm _
    · have hlast : l'.lastIndex = st.log.lastIndex := congrArg MemStorage.lastIndex hmirror
      have hlen : l'.activeSeq = (segs'.map (image m)).length + 1 := by
        rw [hl'.activeSeq, List.length_map]
      rw [← hlast] at hext hfits hsave
      obtain ⟨l'', hopen, hl'', hb''⟩ := hl'.openLog_torn hm hext hfits k rotateSize
      refine ⟨⟨_, l'', l''.mirror⟩, ?_, rfl, segs', _, hb''⟩
      simp only [System.event, System.call, hsave, DiskLog.appendBatch]
      rw [hl'.files, hlen, modify_numbered_last, hopen, hl'', hmirror, hlast, ← hmem]
      rfl

/-- However often the process dies while it saves: the log opens again, and serves what the
in-memory storage serves that got the accepted saves and, of the torn ones, the whole records. -/
theorem diskLog_survives_crashes (m : Marshaler LogRecord) (hm : m.RoundTrips) (rotateSize : Nat)
    (events : List Event) :
    ∃ st, System.runEvents m rotateSize events = .ok st ∧ st.Refines m := by
  obtain ⟨st, hrun, hinv⟩ := System.Inv.run hm rotateSize []
  rw [System.runEvents, hrun]
  show ∃ st', events.foldlM (System.event m) st = .ok st' ∧ _
  clear hrun
  induction events generalizing st with
  | nil => exact ⟨st, rfl, hinv.refines⟩
  | cons e events ih =>
    obtain ⟨next, he, hnext⟩ := hinv.event hm e
    obtain ⟨st', hrest, href⟩ := ih next hnext
    exact ⟨st', foldlM_cons_eq_ok.mpr ⟨next, he, hrest⟩, href⟩

theorem diskLog_survives_crashes_twice :
    recordWire.marshaler.RoundTrips ∧ ∃ st, System.runEvents recordWire.marshaler 1
      [.crash (some ⟨1, 1⟩) [] 5 1, .call (.save none [⟨1, 1, .noop, []⟩]),
        .crash none [⟨1, 2, .noop, []⟩] 9 1] = .ok st ∧ st.Refines recordWire.marshaler :=
  ⟨recordWire.marshaler_roundTrips,
    diskLog_survives_crashes _ recordWire.marshaler_roundTrips _ _⟩

end MiniQuorum.Storage
