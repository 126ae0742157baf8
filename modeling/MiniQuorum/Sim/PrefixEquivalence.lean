import MiniQuorum.Sim.CrashRecords
import MiniQuorum.Storage.TornBatch

/-! A crash in a save leaves the simulator's storage and the disk log in the same states:
they keep a prefix of the same records. -/

namespace MiniQuorum.Sim

open Raft Codec Storage

structure Batch where
  hs : Option HardState
  entries : List Entry
  deriving DecidableEq, Repr

structure Batch.Typed (b : Batch) : Prop where
  hs : ∀ hs ∈ b.hs, TypedHardState hs
  entries : ∀ e ∈ b.entries, TypedEntry e

def Batch.Fits (b : Batch) : Prop := (entriesPayload b.entries).length < 2 ^ 32

/-- The lengths that stand inside the payload are those of the batch. -/
structure Batch.Counted (b : Batch) : Prop where
  entries : b.entries.length < 2 ^ 32
  data : ∀ e ∈ b.entries, e.data.length < 2 ^ 32

def acceptAll (m : Marshaler LogRecord) : Dir × DiskLog → List Batch → Option (Dir × DiskLog)
  | disk, [] => some disk
  | (dir, log), b :: rest =>
    match log.save m none dir b.hs b.entries with
    | (dir, log, .ok ()) => acceptAll m (dir, log) rest
    | (_, _, .error _) => none

def diskSaves (m : Marshaler LogRecord) (rotateSize : Nat) (history : List Batch) :
    Option (Dir × DiskLog) :=
  match DiskLog.openLog m [] rotateSize with
  | (dir, .ok log) => acceptAll m (dir, log) history
  | (_, .error _) => none

def saveAll : CrashStorage → List Batch → Option CrashStorage
  | cs, [] => some cs
  | cs, b :: rest =>
    match cs.save b.hs b.entries with
    | some (cs, .ok ()) => saveAll cs rest
    | _ => none

def Recovers (history : List Batch) (last : Batch) (retain : Retain) (recovered : CrashStorage) :
    Prop :=
  ∃ new saved crashed : CrashStorage,
    CrashStorage.new 1 [⟨1, history.length + 1, .beforeSync, retain, false⟩] = .ok new ∧
    saveAll new history = some saved ∧
    saved.save last.hs last.entries =
      some (crashed, .error (.crashedAt (history.length + 1) .beforeSync)) ∧
    crashed.recover = .ok recovered

/-! ### The simulator's storage -/

def stagedRecords (b : Batch) (last : Nat) : List LogRecord :=
  (b.hs.map LogRecord.hardState).toList ++
    match b.entries with
    | [] => []
    | e :: rest =>
      (if e.index ≠ 0 ∧ e.index ≤ last then [LogRecord.truncate e.index] else []) ++
        [LogRecord.entries (e :: rest)]

theorem stage_unsynced {cs : CrashStorage} (hunsynced : cs.unsynced = []) (b : Batch) :
    (cs.stage b.hs b.entries).unsynced = recordImage (stagedRecords b cs.view.lastIndex) := by
  have hempty : recordImage [] = [] := rfl
  have hone (r : LogRecord) (dst : Bytes) : appendRecord dst (recordPayload r) =
      dst ++ recordImage [r] := by
    simp [recordImage, LengthFrame.records, appendRecord]
  have hhard : CrashStorage.stageHardState [] b.hs =
      recordImage (b.hs.map LogRecord.hardState).toList := by
    cases b.hs with
    | none => rfl
    | some hs => exact hone (.hardState hs) []
  rw [CrashStorage.stage, hunsynced, hhard, stagedRecords, recordImage_append]
  dsimp only
  cases b.entries with
  | nil => rw [CrashStorage.stageEntries, hempty, List.append_nil]
  | cons e rest =>
    rw [CrashStorage.stageEntries, recordImage_append, ← List.append_assoc,
      ← hone (.entries (e :: rest))]
    congr 1
    split
    · exact hone (.truncate e.index) _
    · rw [hempty, List.append_nil]

theorem stagedRecords_eq_batchRecords {b : Batch} {last : Nat} (hext : Extends last b.entries) :
    stagedRecords b last = batchRecords b.hs b.entries last := by
  rw [stagedRecords, batchRecords]
  cases hentries : b.entries with
  | nil => rfl
  | cons e rest =>
    rw [hentries] at hext
    have hpos : e.index ≠ 0 := by
      have := (hext e rfl).1
      omega
    simp only [hpos, ne_eq, not_false_eq_true, true_and, entryRecords]

theorem mem_stagedRecords {b : Batch} {last : Nat} {r : LogRecord} (hr : r ∈ stagedRecords b last) :
    (∃ hs ∈ b.hs, r = .hardState hs) ∨ (∃ e ∈ b.entries, e.index ≠ 0 ∧ r = .truncate e.index) ∨
      b.entries ≠ [] ∧ r = .entries b.entries := by
  rw [stagedRecords, List.mem_append] at hr
  rcases hr with hr | hr
  · rw [Option.mem_toList, Option.map_eq_some_iff] at hr
    obtain ⟨hs, hhs, rfl⟩ := hr
    exact .inl ⟨hs, hhs, rfl⟩
  · cases hentries : b.entries with
    | nil =>
      rw [hentries] at hr
      cases hr
    | cons e rest =>
      rw [hentries, List.mem_append] at hr
      rcases hr with hr | hr
      · split at hr
        · next hover =>
          exact .inr (.inl ⟨e, by simp, hover.1, List.mem_singleton.1 hr⟩)
        · cases hr
      · exact .inr (.inr ⟨by simp, List.mem_singleton.1 hr⟩)

theorem stagedRecords_stageable {b : Batch} (htyped : b.Typed) (last : Nat) :
    ∀ r ∈ stagedRecords b last, Stageable r := by
  intro r hr
  rcases mem_stagedRecords hr with ⟨hs, hhs, rfl⟩ | ⟨e, he, hindex, rfl⟩ | ⟨hne, rfl⟩
  · exact htyped.hs hs hhs
  · exact ⟨Nat.pos_of_ne_zero hindex, (htyped.entries e he).index⟩
  · exact ⟨hne, htyped.entries⟩

theorem stagedRecords_fits {b : Batch} (hfits : b.Fits) (last : Nat) :
    ∀ r ∈ stagedRecords b last, Fits r := by
  intro r hr
  rcases mem_stagedRecords hr with ⟨hs, -, rfl⟩ | ⟨e, -, -, rfl⟩ | ⟨-, rfl⟩
  · simp [Fits, recordPayload, hardStatePayload]
  · simp [Fits, recordPayload, truncatePayload]
  · exact hfits

structure Holding (cs : CrashStorage) (rs : List LogRecord) : Prop where
  durable : cs.durable = recordImage rs
  unsynced : cs.unsynced = []
  view : cs.view = replay MemStorage.empty rs
  crashed : cs.crashed = false
  armed : cs.armed = false
  stageable : ∀ r ∈ rs, Stageable r
  fits : ∀ r ∈ rs, Fits r

namespace Holding

variable {cs : CrashStorage} {rs : List LogRecord} {b : Batch}

theorem stage (h : Holding cs rs) (hext : Extends cs.view.lastIndex b.entries) :
    (cs.stage b.hs b.entries).unsynced =
      recordImage (batchRecords b.hs b.entries cs.view.lastIndex) := by
  rw [stage_unsynced h.unsynced, stagedRecords_eq_batchRecords hext]

theorem stageable_append (h : Holding cs rs) (htyped : b.Typed)
    (hext : Extends cs.view.lastIndex b.entries) :
    ∀ r ∈ rs ++ batchRecords b.hs b.entries cs.view.lastIndex, Stageable r := by
  intro r hr
  rcases List.mem_append.1 hr with hr | hr
  · exact h.stageable r hr
  · rw [← stagedRecords_eq_batchRecords hext] at hr
    exact stagedRecords_stageable htyped _ r hr

theorem fits_append (h : Holding cs rs) (hfits : b.Fits)
    (hext : Extends cs.view.lastIndex b.entries) :
    ∀ r ∈ rs ++ batchRecords b.hs b.entries cs.view.lastIndex, Fits r := by
  intro r hr
  rcases List.mem_append.1 hr with hr | hr
  · exact h.fits r hr
  · rw [← stagedRecords_eq_batchRecords hext] at hr
    exact stagedRecords_fits hfits _ r hr

theorem replay_append (h : Holding cs rs) (rs' : List LogRecord) :
    replay MemStorage.empty (rs ++ rs') = replay cs.view rs' := by
  rw [h.view]
  exact List.foldl_append

theorem save_eq (h : Holding cs rs) :
    cs.save b.hs b.entries =
      ((cs.stage b.hs b.entries).pendingDirective (cs.saves + 1)).1.finish b.hs b.entries
        ((cs.stage b.hs b.entries).pendingDirective (cs.saves + 1)).2 := by
  rw [CrashStorage.save, if_neg (by simp [h.crashed]), if_neg (by simp [h.armed])]

theorem save (h : Holding cs rs) (htyped : b.Typed) (hfits : b.Fits)
    (hext : Extends cs.view.lastIndex b.entries)
    (hnone : ∀ d, cs.directives[cs.next]? = some d → d.save ≠ cs.saves + 1) :
    ∃ cs', cs.save b.hs b.entries = some (cs', .ok ()) ∧
      Holding cs' (rs ++ batchRecords b.hs b.entries cs.view.lastIndex) ∧
      cs'.view = cs.view.save b.hs b.entries ∧ cs'.saves = cs.saves + 1 ∧
      cs'.directives = cs.directives ∧ cs'.next = cs.next := by
  have hpending : (cs.stage b.hs b.entries).pendingDirective (cs.saves + 1) =
      (cs.stage b.hs b.entries, none) := by
    rw [CrashStorage.pendingDirective]
    split
    · rfl
    · next d hd => exact if_pos (hnone d hd)
  refine ⟨(cs.stage b.hs b.entries).sync b.hs b.entries, ?_, ⟨?_, rfl, ?_, h.crashed, h.armed,
    h.stageable_append htyped hext, h.fits_append hfits hext⟩, rfl, rfl, rfl, rfl⟩
  · rw [h.save_eq, hpending]
    rfl
  · show cs.durable ++ _ = _
    rw [h.stage hext, recordImage_append, ← h.durable]
  · show cs.view.save b.hs b.entries = _
    rw [h.replay_append, replay_batchRecords]

theorem pendingDirective_due {d : CrashDirective} (hd : cs.directives[cs.next]? = some d)
    (hsave : d.save = cs.saves + 1) :
    (cs.stage b.hs b.entries).pendingDirective (cs.saves + 1) =
      ({ cs.stage b.hs b.entries with next := cs.next + 1 }, some d) := by
  rw [CrashStorage.pendingDirective]
  split
  · next hnone => cases hd.symm.trans hnone
  · next d' hd' =>
    cases hd.symm.trans hd'
    exact if_neg (not_not.2 hsave)

theorem save_crash (h : Holding cs rs) (htyped : b.Typed) (hfits : b.Fits)
    (hext : Extends cs.view.lastIndex b.entries) {d : CrashDirective}
    (hd : cs.directives[cs.next]? = some d) (hsave : d.save = cs.saves + 1)
    (hpoint : d.point = .beforeSync) :
    let records := batchRecords b.hs b.entries cs.view.lastIndex
    let keep := CrashStorage.kept d.retainUnsynced (recordImage records).length
    ∃ crashed recovered, cs.save b.hs b.entries =
        some (crashed, .error (.crashedAt (cs.saves + 1) .beforeSync)) ∧
      crashed.recover = .ok recovered ∧
      recovered.view = cs.view.tornSave b.hs b.entries (completeCount records keep) := by
  intro records keep
  have hpending := pendingDirective_due (b := b) hd hsave
  have hparse : ∃ complete, parseRecords (cs.durable ++ (recordImage records).take keep) =
      .ok (cs.view.tornSave b.hs b.entries (completeCount records keep), complete) := by
    have htake := parseRecords_take (h.stageable_append htyped hext) (h.fits_append hfits hext)
      ((recordImage rs).length + keep)
    rw [completeCount_append, recordImage_append, List.take_length_add_append,
      List.take_length_add_append] at htake
    rw [h.replay_append] at htake
    rw [h.durable]
    exact ⟨_, htake⟩
  obtain ⟨complete, hparse⟩ := hparse
  let down : CrashStorage :=
    { cs.stage b.hs b.entries with
      next := cs.next + 1
      lastCrash := ⟨cs.saves + 1, .beforeSync, (recordImage records).length, keep⟩
      hasCrashed := true
      durable := cs.durable ++ (recordImage records).take keep
      unsynced := []
      crashed := true
      armed := false
      view := cs.view.tornSave b.hs b.entries (completeCount records keep) }
  have hcrash : CrashStorage.crash { cs.stage b.hs b.entries with next := cs.next + 1 }
      (cs.saves + 1) .beforeSync d.retainUnsynced = some down := by
    rw [CrashStorage.crash]
    dsimp only
    rw [h.stage hext]
    erw [hparse]
    rfl
  refine ⟨down, { down with
    durable := down.durable.take complete
    view := cs.view.tornSave b.hs b.entries (completeCount records keep)
    crashed := false }, ?_, ?_, rfl⟩
  · rw [h.save_eq, hpending]
    show CrashStorage.finish _ _ _ (some d) = _
    rw [CrashStorage.finish, hpoint]
    show (CrashStorage.crash _ (cs.saves + 1) _ _).map _ = _
    rw [hcrash]
    rfl
  · rw [CrashStorage.recover, if_neg (by simp [down])]
    erw [hparse]

theorem save_panics (h : Holding cs rs) (hext : Extends cs.view.lastIndex b.entries)
    {d : CrashDirective} (hd : cs.directives[cs.next]? = some d) (hsave : d.save = cs.saves + 1)
    (hpoint : d.point = .beforeSync) (hretain : d.retainUnsynced = none) {e : ParseError}
    (he : parseRecords (cs.durable ++ recordImage (batchRecords b.hs b.entries cs.view.lastIndex)) =
      .error e) : cs.save b.hs b.entries = none := by
  have hcrash : CrashStorage.crash { cs.stage b.hs b.entries with next := cs.next + 1 }
      (cs.saves + 1) .beforeSync none = none := by
    rw [CrashStorage.crash]
    dsimp only
    rw [h.stage hext, CrashStorage.kept, List.take_length]
    erw [he]
  rw [h.save_eq, pendingDirective_due hd hsave]
  show CrashStorage.finish _ _ _ (some d) = _
  rw [CrashStorage.finish, hpoint, hretain]
  show (CrashStorage.crash _ (cs.saves + 1) _ _).map _ = _
  rw [hcrash]
  rfl

theorem save_wide (h : Holding cs rs) (htyped : b.Typed) (hcounted : b.Counted) (hwide : ¬ b.Fits)
    (hext : Extends cs.view.lastIndex b.entries) {d : CrashDirective}
    (hd : cs.directives[cs.next]? = some d) (hsave : d.save = cs.saves + 1)
    (hpoint : d.point = .beforeSync) (hretain : d.retainUnsynced = none) :
    cs.save b.hs b.entries = none := by
  have hstage := h.stageable_append htyped hext
  obtain ⟨front, hfront, hshort⟩ : ∃ front,
      batchRecords b.hs b.entries cs.view.lastIndex = front ++ [.entries b.entries] ∧
      ∀ r ∈ front, Fits r := by
    rw [batchRecords]
    cases hentries : b.entries with
    | nil =>
      refine absurd ?_ hwide
      rw [Batch.Fits, hentries]
      decide
    | cons e rest =>
      rw [entryRecords, ← List.append_assoc]
      refine ⟨_, rfl, ?_⟩
      intro r hr
      rcases List.mem_append.1 hr with hr | hr
      · obtain ⟨hs, -, rfl⟩ := Option.map_eq_some_iff.1 (Option.mem_toList.1 hr)
        simp [Fits, recordPayload, hardStatePayload]
      · split at hr
        · rw [List.mem_singleton.1 hr]
          simp [Fits, recordPayload, truncatePayload]
        · cases hr
  rw [hfront, ← List.append_assoc] at hstage
  obtain ⟨err, herr⟩ := parseRecords_wide
    (fun r (hr : r ∈ rs ++ front) => hstage r (List.mem_append_left _ hr))
    (fun r hr => (List.mem_append.1 hr).elim (h.fits r) (hshort r)) htyped.entries hcounted.entries
    hcounted.data hwide
  refine h.save_panics hext hd hsave hpoint hretain (e := err) ?_
  rw [hfront, h.durable, ← recordImage_append, ← List.append_assoc]
  exact herr

theorem saveAll (h : Holding cs rs) {history : List Batch} (htyped : ∀ b ∈ history, b.Typed)
    (hfits : ∀ b ∈ history, b.Fits)
    (hext : ∀ early b late, history = early ++ b :: late →
      Extends (early.foldl (fun s b => s.save b.hs b.entries) cs.view).lastIndex b.entries)
    (hnone : ∀ d, cs.directives[cs.next]? = some d → cs.saves + history.length < d.save) :
    ∃ cs' rs', Sim.saveAll cs history = some cs' ∧ Holding cs' rs' ∧
      cs'.view = history.foldl (fun s b => s.save b.hs b.entries) cs.view ∧
      cs'.saves = cs.saves + history.length ∧ cs'.directives = cs.directives ∧
      cs'.next = cs.next := by
  induction history generalizing cs rs with
  | nil => exact ⟨cs, rs, rfl, h, rfl, rfl, rfl, rfl⟩
  | cons b history ih =>
    obtain ⟨next, hsave, hnext, hview, hsaves, hdirectives, hindex⟩ :=
      h.save (htyped b (by simp)) (hfits b (by simp)) (hext [] b history rfl) (by
        intro d hd
        have := hnone d hd
        simp only [List.length_cons] at this
        omega)
    obtain ⟨cs', rs', hrest, hcs', hview', hsaves', hdirectives', hindex'⟩ :=
      ih hnext (fun q hq => htyped q (by simp [hq])) (fun q hq => hfits q (by simp [hq]))
        (by
          intro early q late heq
          have := hext (b :: early) q late (by rw [heq, List.cons_append])
          rwa [List.foldl_cons, ← hview] at this)
        (by
          intro d hd
          rw [hdirectives, hindex] at hd
          have := hnone d hd
          simp only [List.length_cons] at this
          omega)
    refine ⟨cs', rs', ?_, hcs', ?_, ?_, hdirectives'.trans hdirectives, hindex'.trans hindex⟩
    · rw [Sim.saveAll, hsave]
      exact hrest
    · rw [hview', hview, List.foldl_cons]
    · rw [hsaves', hsaves, List.length_cons]
      omega

end Holding

/-! ### The disk log -/

theorem acceptAll_backed {m : Marshaler LogRecord} {segs : List (List LogRecord)}
    {rs : List LogRecord} {dir dir' : Dir} {log log' : DiskLog} (h : Backed m segs rs dir log)
    {history : List Batch} (hsaves : acceptAll m (dir, log) history = some (dir', log')) :
    (∃ segs' rs', Backed m segs' rs' dir' log') ∧
      log'.mirror = history.foldl (fun s b => s.save b.hs b.entries) log.mirror ∧
      ∀ early b late, history = early ++ b :: late →
        Extends (early.foldl (fun s b => s.save b.hs b.entries) log.mirror).lastIndex b.entries := by
  induction history generalizing segs rs dir log with
  | nil =>
    cases hsaves
    refine ⟨⟨segs, rs, h⟩, rfl, ?_⟩
    intro early b late heq
    cases early <;> cases heq
  | cons b history ih =>
    rw [acceptAll] at hsaves
    rcases h.save b.hs b.entries with
      ⟨e, l', hsave, -⟩ | ⟨segs', rs', dir₁, log₁, hsave, hmirror, hb, hext, -⟩
    · rw [hsave] at hsaves
      cases hsaves
    · rw [hsave] at hsaves
      obtain ⟨hback, hlast, hexts⟩ := ih hb hsaves
      refine ⟨hback, ?_, ?_⟩
      · rw [hlast, hmirror, List.foldl_cons]
      · intro early q late heq
        cases early with
        | nil =>
          cases heq
          exact hext
        | cons p early =>
          obtain ⟨rfl, hrest⟩ := List.cons.inj heq
          rw [List.foldl_cons, ← hmirror]
          exact hexts early q late hrest

theorem save_shape (m : Marshaler LogRecord) (log : DiskLog) (dir : Dir) (b : Batch) :
    (∃ r, ∀ torn, log.save m torn dir b.hs b.entries = r) ∨
      ∃ (log' : DiskLog) (dir' : Dir) (batch : Bytes), ∀ torn,
        log.save m torn dir b.hs b.entries = log'.appendBatch torn dir' b.hs b.entries batch := by
  simp only [DiskLog.save]
  split
  · exact .inl ⟨_, fun _ => rfl⟩
  · split
    · exact .inl ⟨_, fun _ => rfl⟩
    · split
      · exact .inl ⟨_, fun _ => rfl⟩
      · split
        · exact .inl ⟨_, fun _ => rfl⟩
        · split
          · exact .inl ⟨_, fun _ => rfl⟩
          · split
            · exact .inl ⟨_, fun _ => rfl⟩
            · exact .inr ⟨_, _, _, fun _ => rfl⟩

theorem openLog_cut_save {m : Marshaler LogRecord} (hm : m.RoundTrips)
    {segs : List (List LogRecord)} {rs : List LogRecord} {dir : Dir} {log : DiskLog}
    (h : Backed m segs rs dir log) {b : Batch}
    (haccept : (log.save m none dir b.hs b.entries).2.2 = .ok ()) (k rotateSize : Nat) :
    ∃ cut log', DiskLog.openLog m (log.save m (some k) dir b.hs b.entries).1 rotateSize =
        (cut, .ok log') ∧
      log'.mirror = log.mirror.tornSave b.hs b.entries
        (frameFormat.completeFrames
          ((batchRecords b.hs b.entries log.lastIndex).map m.marshal) k) := by
  have hresult : (log.save m (some k) dir b.hs b.entries).2.2 = .ok () ∨
      ∃ seq, (log.save m (some k) dir b.hs b.entries).2.2 = .error (.write seq) := by
    rcases save_shape m log dir b with ⟨r, hr⟩ | ⟨log', dir', batch, hr⟩
    · rw [hr, ← hr none]
      exact .inl haccept
    · rw [hr]
      exact .inr ⟨log'.activeSeq, rfl⟩
  rcases h.save_cases (some k) b.hs b.entries with
    ⟨e, l', hsave, -, -, -, hne, -⟩ | ⟨hhs, hentries, hsave⟩ |
    ⟨hext, hfits, segs', rs', dir', l', hsave, hl', -, hmirror, -, -, -⟩
  · rw [hsave] at hresult
    rcases hresult with hresult | ⟨seq, hresult⟩
    · cases hresult
    · cases hresult
      exact absurd rfl (hne seq)
  · obtain ⟨log', hopen, hsame, -⟩ := h.openLog hm rotateSize
    refine ⟨dir, log', by rw [hsave]; exact hopen, ?_⟩
    rw [hsame, hhs, hentries]
    rfl
  · have hlast : l'.lastIndex = log.lastIndex := congrArg MemStorage.lastIndex hmirror
    rw [← hlast] at hext hfits hsave
    have hdir : (log.save m (some k) dir b.hs b.entries).1 = numbered 1 (segs'.map (image m) ++
        [image m rs' ++ (image m (batchRecords b.hs b.entries l'.lastIndex)).take k]) := by
      have hlen : l'.activeSeq = (segs'.map (image m)).length + 1 := by
        rw [hl'.activeSeq, List.length_map]
      rw [hsave]
      show dir'.modify l'.activeSeq
        (· ++ (image m (batchRecords b.hs b.entries l'.lastIndex)).take k) = _
      rw [hl'.files, hlen, modify_numbered_last]
    obtain ⟨log', hopen, hlog', -⟩ := hl'.openLog_torn hm hext hfits k rotateSize
    refine ⟨_, log', by rw [hdir]; exact hopen, ?_⟩
    rw [hlog', hmirror, hlast]
    rfl

/-! ### Both -/

theorem completeCount_le (rs : List LogRecord) (n : Nat) : completeCount rs n ≤ rs.length := by
  induction rs generalizing n with
  | nil => exact le_rfl
  | cons r rs ih =>
    rw [completeCount, List.map_cons, LengthFrame.completeRecords]
    split
    · exact Nat.succ_le_succ (ih _)
    · exact Nat.zero_le _

theorem exists_completeCount (rs : List LogRecord) {n : Nat} (hn : n ≤ rs.length) :
    ∃ r, completeCount rs (CrashStorage.kept (some r) (recordImage rs).length) = n := by
  have hsplit : (recordImage rs).length =
      (recordImage (rs.take n)).length + (recordImage (rs.drop n)).length := by
    rw [← List.length_append, ← recordImage_append, List.take_append_drop]
  refine ⟨(recordImage (rs.take n)).length, ?_⟩
  have hkept : CrashStorage.kept (some (recordImage (rs.take n)).length) (recordImage rs).length =
      (recordImage (rs.take n)).length + 0 := by
    rw [CrashStorage.kept]
    split <;> omega
  have hzero : completeCount (rs.drop n) 0 = 0 := by
    cases rs.drop n with
    | nil => rfl
    | cons r rest =>
      rw [completeCount, List.map_cons, LengthFrame.completeRecords]
      exact if_neg (by omega)
  have hcount := completeCount_append (rs.take n) (rs.drop n) 0
  rw [List.take_append_drop, hzero, List.length_take, min_eq_left hn] at hcount
  rw [hkept, hcount, Nat.add_zero]

theorem exists_completeFrames (m : Marshaler LogRecord) (rs : List LogRecord) {n : Nat}
    (hn : n ≤ rs.length) : ∃ k, frameFormat.completeFrames (rs.map m.marshal) k = n := by
  refine ⟨(image m (rs.take n)).length + 0, ?_⟩
  have hzero : frameFormat.completeFrames ((rs.drop n).map m.marshal) 0 = 0 := by
    cases rs.drop n with
    | nil => rfl
    | cons r rest =>
      rw [List.map_cons, Format.completeFrames]
      exact if_neg (by simp [Format.frame])
  have hcount := frameFormat.completeFrames_append ((rs.take n).map m.marshal)
    ((rs.drop n).map m.marshal) 0
  rw [← List.map_append, List.take_append_drop, hzero, List.length_map, List.length_take,
    min_eq_left hn] at hcount
  exact hcount

/-- The simulator's storage with one crash planned in the save behind `history`. -/
theorem holding_saved {history : List Batch} {s : MemStorage}
    (hs : s = history.foldl (fun s b => s.save b.hs b.entries) MemStorage.empty)
    (htyped : ∀ b ∈ history, b.Typed) (hfits : ∀ b ∈ history, b.Fits)
    (hext : ∀ early b late, history = early ++ b :: late →
      Extends (early.foldl (fun s b => s.save b.hs b.entries) MemStorage.empty).lastIndex b.entries)
    (retain : Retain) :
    let directive : CrashDirective := ⟨1, history.length + 1, .beforeSync, retain, false⟩
    ∃ new saved rs, CrashStorage.new 1 [directive] = .ok new ∧ saveAll new history = some saved ∧
      Holding saved rs ∧ saved.view = s ∧ saved.saves = history.length ∧
      saved.directives[saved.next]? = some directive := by
  intro directive
  let new : CrashStorage := ⟨[directive], 0, 0, [], [], MemStorage.empty, false, false, 0,
    ⟨0, .hostInitiated, 0, 0⟩, false⟩
  have hholding : Holding new [] :=
    ⟨rfl, rfl, rfl, rfl, rfl, by simp, by simp⟩
  obtain ⟨saved, rs, hsaved, hrs, hview, hsaves, hdirectives, hnext⟩ :=
    hholding.saveAll htyped hfits hext
      (by
        intro d hd
        cases hd
        show 0 + history.length < history.length + 1
        omega)
  refine ⟨new, saved, rs, rfl, hsaved, hrs, hview.trans hs.symm, hsaves.trans (Nat.zero_add _), ?_⟩
  rw [hdirectives, hnext]
  rfl

theorem recovers {history : List Batch} {last : Batch} {s : MemStorage}
    (hs : s = history.foldl (fun s b => s.save b.hs b.entries) MemStorage.empty)
    (htyped : ∀ b ∈ history ++ [last], b.Typed) (hfits : ∀ b ∈ history ++ [last], b.Fits)
    (hext : ∀ early b late, history = early ++ b :: late →
      Extends (early.foldl (fun s b => s.save b.hs b.entries) MemStorage.empty).lastIndex b.entries)
    (hlast : Extends s.lastIndex last.entries) (retain : Retain) :
    (∃ recovered, Recovers history last retain recovered) ∧
      ∀ recovered, Recovers history last retain recovered → recovered.view =
        s.tornSave last.hs last.entries (completeCount (batchRecords last.hs last.entries s.lastIndex)
          (CrashStorage.kept retain
            (recordImage (batchRecords last.hs last.entries s.lastIndex)).length)) := by
  obtain ⟨new, saved, rs, hnew, hsaved, hrs, hview, hcount, hdirective⟩ :=
    holding_saved hs (fun b hb => htyped b (by simp [hb])) (fun b hb => hfits b (by simp [hb])) hext
      retain
  obtain ⟨crashed, recovered, hsave, hrecover, htorn⟩ :=
    hrs.save_crash (htyped last (by simp)) (hfits last (by simp)) (by rw [hview]; exact hlast)
      hdirective (by rw [hcount]) rfl
  rw [hcount] at hsave
  rw [hview] at htorn
  refine ⟨⟨recovered, new, saved, crashed, hnew, hsaved, hsave, hrecover⟩, ?_⟩
  rintro recovered' ⟨new', saved', crashed', hnew', hsaved', hsave', hrecover'⟩
  cases hnew.symm.trans hnew'
  cases hsaved.symm.trans hsaved'
  cases hsave.symm.trans hsave'
  cases hrecover.symm.trans hrecover'
  exact htorn

theorem diskSaves_backed {m : Marshaler LogRecord} {rotateSize : Nat} {history : List Batch}
    {dir : Dir} {log : DiskLog} (hdisk : diskSaves m rotateSize history = some (dir, log)) :
    (∃ segs rs, Backed m segs rs dir log) ∧
      log.mirror = history.foldl (fun s b => s.save b.hs b.entries) MemStorage.empty ∧
      ∀ early b late, history = early ++ b :: late →
        Extends (early.foldl (fun s b => s.save b.hs b.entries) MemStorage.empty).lastIndex
          b.entries := by
  have hstart : DiskLog.openLog m [] rotateSize = ([(1, [])], .ok
      ⟨if rotateSize = 0 then defaultRotateSize else rotateSize, true, 1, 0, MemStorage.empty, none,
        false⟩) := by
    rw [DiskLog.openLog, if_neg (by omega)]
    simp [listSegments, firstMissing, Dir.create]
  rw [diskSaves, hstart] at hdisk
  have hopened : Backed m [] [] [(1, [])] ⟨if rotateSize = 0 then defaultRotateSize else rotateSize,
      true, 1, 0, MemStorage.empty, none, false⟩ :=
    ⟨rfl, by simp, by simp [Storage.Fits], rfl, rfl, rfl, by simp⟩
  exact acceptAll_backed hopened hdisk

theorem extends_of_accepted {m : Marshaler LogRecord} {segs : List (List LogRecord)}
    {rs : List LogRecord} {dir : Dir} {log : DiskLog} (h : Backed m segs rs dir log) {b : Batch}
    (haccept : (log.save m none dir b.hs b.entries).2.2 = .ok ()) :
    Extends log.mirror.lastIndex b.entries := by
  rcases h.save b.hs b.entries with ⟨e, l', hsave, -⟩ | ⟨_, _, _, _, -, -, -, hext, -⟩
  · rw [hsave] at haccept
    cases haccept
  · exact hext

/-- After a crash in a save the simulator's storage and the disk log recover the same hard
state and entries when they keep the same number of complete records, so over all crashes
they recover the same states. -/
theorem crash_recovery_equivalence (m : Marshaler LogRecord) (hm : m.RoundTrips)
    (rotateSize again : Nat) (history : List Batch) (last : Batch) (dir : Dir) (log : DiskLog)
    (hdisk : diskSaves m rotateSize history = some (dir, log))
    (haccept : (log.save m none dir last.hs last.entries).2.2 = .ok ())
    (htyped : ∀ b ∈ history ++ [last], b.Typed) (hfits : ∀ b ∈ history ++ [last], b.Fits) :
    let records := batchRecords last.hs last.entries log.lastIndex
    let cut k := (log.save m (some k) dir last.hs last.entries).1
    (∀ retain, (∃ recovered, Recovers history last retain recovered) ∧
      ∀ recovered, Recovers history last retain recovered →
        ∀ k, frameFormat.completeFrames (records.map m.marshal) k =
            completeCount records (CrashStorage.kept retain (recordImage records).length) →
          ∃ dir' log', DiskLog.openLog m (cut k) again = (dir', .ok log') ∧
            log'.hardState = recovered.view.hard ∧ log'.mirror.entries = recovered.view.entries) ∧
    {s | ∃ retain recovered, Recovers history last retain recovered ∧ recovered.view = s} =
      {s | ∃ k dir' log', DiskLog.openLog m (cut k) again = (dir', .ok log') ∧ log'.mirror = s} := by
  intro records cut
  obtain ⟨⟨segs, rs, hback⟩, hmirror, hext⟩ := diskSaves_backed hdisk
  have hlast := extends_of_accepted hback haccept
  have hsim := recovers hmirror htyped hfits hext hlast
  have hcut (k : Nat) := openLog_cut_save hm hback haccept k again
  refine ⟨?_, ?_⟩
  · intro retain
    refine ⟨(hsim retain).1, ?_⟩
    intro recovered hrec k hk
    obtain ⟨dir', log', hopen, hlog'⟩ := hcut k
    refine ⟨dir', log', hopen, ?_⟩
    have hsame : log'.mirror = recovered.view := by
      rw [hlog', (hsim retain).2 recovered hrec, hk]
      rfl
    rw [← hsame]
    exact ⟨rfl, rfl⟩
  · ext s
    constructor
    · rintro ⟨retain, recovered, hrec, rfl⟩
      obtain ⟨k, hk⟩ := exists_completeFrames m records (completeCount_le records
        (CrashStorage.kept retain (recordImage records).length))
      obtain ⟨dir', log', hopen, hlog'⟩ := hcut k
      refine ⟨k, dir', log', hopen, ?_⟩
      rw [hlog', (hsim retain).2 recovered hrec]
      exact congrArg _ hk
    · rintro ⟨k, dir', log', hopen, rfl⟩
      obtain ⟨dir₁, log₁, hopen₁, hlog₁⟩ := hcut k
      cases hopen.symm.trans hopen₁
      obtain ⟨r, hr⟩ := exists_completeCount records
        ((frameFormat.completeFrames_le (records.map m.marshal) k).trans_eq (List.length_map _))
      obtain ⟨recovered, hrec⟩ := (hsim (some r)).1
      refine ⟨some r, recovered, hrec, ?_⟩
      rw [hlog₁, (hsim (some r)).2 recovered hrec]
      exact congrArg _ hr

theorem crash_recovery_equivalence_overwrite :
    let history : List Batch := [⟨some ⟨1, 1⟩, [⟨1, 1, .noop, []⟩]⟩]
    let last : Batch := ⟨some ⟨2, 2⟩, [⟨1, 2, .normal, [7]⟩]⟩
    ∃ dir log, diskSaves recordWire.marshaler 1 history = some (dir, log) ∧
      (log.save recordWire.marshaler none dir last.hs last.entries).2.2 = .ok () ∧
      {s | ∃ retain recovered, Recovers history last retain recovered ∧ recovered.view = s} =
        {s | ∃ k dir' log', DiskLog.openLog recordWire.marshaler
            (log.save recordWire.marshaler (some k) dir last.hs last.entries).1 1 =
              (dir', .ok log') ∧ log'.mirror = s} := by
  intro history last
  refine ⟨_, _, rfl, by decide +kernel, ?_⟩
  refine (crash_recovery_equivalence recordWire.marshaler recordWire.marshaler_roundTrips 1 1
    history last _ _ rfl (by decide +kernel) ?_ ?_).2
  · intro b hb
    simp only [history, last, List.cons_append, List.nil_append, List.mem_cons, List.not_mem_nil,
      or_false] at hb
    rcases hb with rfl | rfl
    all_goals
      refine ⟨?_, ?_⟩
      · rintro hs ⟨⟩
        exact ⟨by decide, by decide⟩
      · intro e he
        rw [List.mem_singleton.1 he]
        exact ⟨by decide, by decide, trivial⟩
  · intro b hb
    simp only [history, last, List.cons_append, List.nil_append, List.mem_cons, List.not_mem_nil,
      or_false] at hb
    rcases hb with rfl | rfl
    all_goals
      rw [Batch.Fits]
      decide

/-- The crash that keeps every byte of a batch panics exactly if the batch does not fit. -/
theorem retained_crash_panics_iff (m : Marshaler LogRecord) (rotateSize : Nat)
    (history : List Batch) (last : Batch) (dir : Dir) (log : DiskLog)
    (hdisk : diskSaves m rotateSize history = some (dir, log))
    (haccept : (log.save m none dir last.hs last.entries).2.2 = .ok ())
    (htyped : ∀ b ∈ history ++ [last], b.Typed) (hfits : ∀ b ∈ history, b.Fits)
    (hcounted : last.Counted) :
    ∃ new saved,
      CrashStorage.new 1 [⟨1, history.length + 1, .beforeSync, none, false⟩] = .ok new ∧
      saveAll new history = some saved ∧
      (saved.save last.hs last.entries = none ↔ ¬ last.Fits) := by
  obtain ⟨⟨segs, rs, hback⟩, hmirror, hext⟩ := diskSaves_backed hdisk
  obtain ⟨new, saved, rs, hnew, hsaved, hrs, hview, hcount, hdirective⟩ :=
    holding_saved hmirror (fun b hb => htyped b (by simp [hb])) hfits hext none
  have hlast : Extends saved.view.lastIndex last.entries :=
    hview ▸ extends_of_accepted hback haccept
  refine ⟨new, saved, hnew, hsaved, ?_, ?_⟩
  · intro hnone hfit
    obtain ⟨crashed, recovered, hsave, -⟩ :=
      hrs.save_crash (htyped last (by simp)) hfit hlast hdirective (by rw [hcount]) rfl
    cases hnone.symm.trans hsave
  · intro hwide
    exact hrs.save_wide (htyped last (by simp)) hcounted hwide hlast hdirective (by rw [hcount]) rfl
      rfl

/-! A serialisation with short lengths, and a batch that only the simulator's codec cuts. -/

theorem entry_eta (e : Entry) : Entry.mk e.index e.term e.type e.data = e := rfl

def compactEntryWire : Wire Entry :=
  (Wire.pair (.pair .nat .nat) (.pair entryTypeWire .bytes)).imap
    (fun x => ⟨x.1.1, x.1.2, x.2.1, x.2.2⟩) (fun e => ((e.index, e.term), (e.type, e.data)))
    entry_eta

def compactRecordWire : Wire LogRecord :=
  (Wire.sum (.sum (.pair .nat .nat) .nat) (.sum (.list compactEntryWire) .unit)).imap
    (fun
      | .inl (.inl (t, v)) => .hardState ⟨t, v⟩
      | .inl (.inr i) => .truncate i
      | .inr (.inl es) => .entries es
      | .inr (.inr ()) => .unsupported)
    (fun
      | .hardState hs => .inl (.inl (hs.term, hs.votedFor))
      | .truncate i => .inl (.inr i)
      | .entries es => .inr (.inl es)
      | .unsupported => .inr (.inr ()))
    (by
      intro r
      cases r <;> rfl)

theorem length_compactRecordWire {data : List UInt8} (hlen : data.length < 2 ^ 32) :
    (compactRecordWire.put (.entries [⟨1, 1, .normal, data⟩])).length ≤ 15 + data.length := by
  have hcount : (Wire.putVarint data.length).length ≤ 5 :=
    Wire.length_putVarint_le (k := 4) (hlen.trans (by decide))
  have hput : compactRecordWire.put (.entries [⟨1, 1, .normal, data⟩]) =
      [1, 0, 0, 1, 0, 1, 0, 1, 0, 1] ++ (Wire.putVarint data.length ++ data) := by
    simp [compactRecordWire, compactEntryWire, Wire.imap, Wire.sum, Wire.pair, Wire.list, Wire.nat,
      Wire.bytes, Wire.varint, entryTypeWire, Wire.unit]
  rw [hput, List.length_append, List.length_append]
  simp only [List.length_cons, List.length_nil]
  omega

def oneEntry (data : List UInt8) : Batch := ⟨none, [⟨1, 1, .normal, data⟩]⟩

section OneEntry

variable {data : List UInt8}

theorem oneEntry_typed : (oneEntry data).Typed := by
  refine ⟨by simp [oneEntry], ?_⟩
  intro e he
  rw [List.mem_singleton.1 he]
  exact ⟨Nat.one_lt_two_pow (by decide), Nat.one_lt_two_pow (by decide), trivial⟩

theorem oneEntry_counted (hlen : data.length < 2 ^ 32) : (oneEntry data).Counted := by
  refine ⟨Nat.one_lt_two_pow (by decide), ?_⟩
  intro e he
  rw [List.mem_singleton.1 he]
  exact hlen

theorem oneEntry_wide (hlen : 2 ^ 32 ≤ data.length + 29) : ¬ (oneEntry data).Fits := by
  have hbytes : (entriesPayload (oneEntry data).entries).length = data.length + 29 := by
    rw [length_entriesPayload, oneEntry, List.flatMap_singleton, length_entryBytes]
    show 5 + (24 + data.length) = data.length + 29
    omega
  rw [Batch.Fits, hbytes]
  omega

theorem oneEntry_fits_disk (hlen : data.length + 15 < 2 ^ 32) :
    Storage.Fits compactRecordWire.marshaler
      (batchRecords (oneEntry data).hs (oneEntry data).entries 0) := by
  intro r hr
  have hr : r = .entries (oneEntry data).entries := by
    simpa [batchRecords, entryRecords, oneEntry] using hr
  have hput : (compactRecordWire.put (.entries (oneEntry data).entries)).length ≤
      15 + data.length := length_compactRecordWire (by omega)
  have hmax : maxUint32 = 2 ^ 32 - 1 := rfl
  rw [hr, hmax]
  exact hput.trans (by omega)

end OneEntry

/-- The disk log accepts and recovers an entry of almost 4 GiB, on which a crash of the
simulator's storage panics. -/
theorem crash_panics_on_wide_batch :
    compactRecordWire.marshaler.RoundTrips ∧ ∃ (last : Batch) (dir dir' : Dir)
      (log log' log'' : DiskLog) (new : CrashStorage), last.Typed ∧
      diskSaves compactRecordWire.marshaler 1 [] = some (dir, log) ∧
      log.save compactRecordWire.marshaler none dir last.hs last.entries = (dir', log', .ok ()) ∧
      DiskLog.openLog compactRecordWire.marshaler dir' 1 = (dir', .ok log'') ∧
      log''.mirror.entries = last.entries ∧
      CrashStorage.new 1 [⟨1, 1, .beforeSync, none, false⟩] = .ok new ∧
      new.save last.hs last.entries = none := by
  have hm := compactRecordWire.marshaler_roundTrips
  refine ⟨hm, ?_⟩
  have hlen : (List.replicate (2 ^ 32 - 25) (0 : UInt8)).length = 2 ^ 32 - 25 :=
    List.length_replicate
  generalize List.replicate (2 ^ 32 - 25) (0 : UInt8) = data at hlen
  let log : DiskLog := ⟨1, true, 1, 0, MemStorage.empty, none, false⟩
  have hdisk : diskSaves compactRecordWire.marshaler 1 [] = some ([(1, [])], log) := rfl
  obtain ⟨⟨segs, rs, hback⟩, -⟩ := diskSaves_backed hdisk
  rcases hback.save (oneEntry data).hs (oneEntry data).entries with
    ⟨e, l', -, -, -, hnot⟩ | ⟨segs', rs', dir', log', hsave, hmirror, hback', -, -⟩
  · exact absurd ⟨by simp [oneEntry, Extends, NumberedFrom], oneEntry_fits_disk (by omega)⟩
      (hnot rfl (by decide))
  · obtain ⟨log'', hopen, hlog'', -⟩ := hback'.openLog hm 1
    obtain ⟨new, saved, hnew, hsaved, hpanics⟩ := retained_crash_panics_iff
      compactRecordWire.marshaler 1 [] (oneEntry data) _ log hdisk (by rw [hsave])
      (fun b hb => List.mem_singleton.1 hb ▸ oneEntry_typed) (by simp)
      (oneEntry_counted (by omega))
    cases hsaved
    refine ⟨oneEntry data, _, dir', log, log', log'', new, oneEntry_typed, hdisk, hsave, hopen, ?_,
      hnew, hpanics.2 (oneEntry_wide (by omega))⟩
    rw [hlog'', hmirror]
    rfl

end MiniQuorum.Sim
