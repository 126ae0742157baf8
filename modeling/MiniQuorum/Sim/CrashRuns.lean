import MiniQuorum.Sim.PrefixEquivalence

/-! Calls on the simulator's storage in any order and under any directives.  The records on its
platter only grow, and its view is their fold. -/

namespace MiniQuorum.Sim

open Raft Codec Storage

/-! ### Calls -/

inductive CrashCall
  | save (b : Batch)
  | crash
  | crashIfArmed
  | recover
  deriving DecidableEq, Repr

inductive CrashAnswer
  | saved (result : Except CrashError Unit)
  | crashed (result : Except CrashError Unit)
  | fired (fired : Bool)
  | recovered (result : Except RecoverError Unit)
  deriving Repr

def CrashStorage.call (cs : CrashStorage) : CrashCall → Option (CrashStorage × CrashAnswer)
  | .save b => (cs.save b.hs b.entries).map fun (cs, result) => (cs, .saved result)
  | .crash => cs.hostCrash.map fun (cs, result) => (cs, .crashed result)
  | .crashIfArmed => cs.crashIfArmed.map fun (cs, fired) => (cs, .fired fired)
  | .recover =>
    match cs.recover with
    | .ok cs => some (cs, .recovered (.ok ()))
    | .error e => some (cs, .recovered (.error e))

structure Visit where
  before : CrashStorage
  call : CrashCall
  answer : CrashAnswer
  after : CrashStorage
  deriving Repr

def CrashStorage.calls : CrashStorage → List CrashCall → Option (List Visit)
  | _, [] => some []
  | cs, c :: rest =>
    match cs.call c with
    | none => none
    | some (after, answer) => (after.calls rest).map (⟨cs, c, answer, after⟩ :: ·)

namespace Visit

def firing (v : Visit) : Option CrashInfo :=
  if v.before.crashed = false ∧ v.after.crashed = true ∧ v.after.lastCrash.point ≠ .hostInitiated then
    some v.after.lastCrash
  else none

def synced (v : Visit) : Bool :=
  match v.answer with
  | .saved (.ok ()) => true
  | .saved (.error (.crashedAt _ .afterSyncBeforeSend)) => true
  | _ => false

end Visit

/-! ### The platter -/

def Encodable (rs : List LogRecord) : Prop := ∀ r ∈ rs, Stageable r ∧ Fits r

def Torn (torn : Bytes) : Prop :=
  ∃ more n, Encodable more ∧ torn = (recordImage more).take n ∧ completeCount more n = 0

theorem torn_nil : Torn [] := ⟨[], 0, nofun, rfl, rfl⟩

theorem Encodable.append {rs rs' : List LogRecord} (h : Encodable rs) (h' : Encodable rs') :
    Encodable (rs ++ rs') := by
  intro r hr
  rcases List.mem_append.1 hr with hr | hr
  · exact h r hr
  · exact h' r hr

theorem Encodable.take {rs : List LogRecord} (h : Encodable rs) (n : Nat) : Encodable (rs.take n) :=
  fun r hr => h r (List.mem_of_mem_take hr)

theorem encodable_stagedRecords {b : Batch} (htyped : b.Typed) (hfits : b.Fits) (last : Nat) :
    Encodable (stagedRecords b last) :=
  fun r hr => ⟨stagedRecords_stageable htyped last r hr, stagedRecords_fits hfits last r hr⟩

theorem recordImage_take {rs : List LogRecord} (hrs : Encodable rs) (n : Nat) :
    ∃ c torn, (recordImage rs).take n = recordImage (rs.take c) ++ torn ∧ Torn torn := by
  induction rs generalizing n with
  | nil => exact ⟨0, [], by simp [recordImage, LengthFrame.records], torn_nil⟩
  | cons r rs ih =>
    have hcons : recordImage (r :: rs) = recordImage [r] ++ recordImage rs :=
      recordImage_append [r] rs
    have hlen : (recordImage [r]).length = 8 + (recordPayload r).length := by
      simp [recordImage, LengthFrame.records]
    by_cases hwhole : 8 + (recordPayload r).length ≤ n
    · obtain ⟨c, torn, htake, htorn⟩ :=
        ih (fun q hq => hrs q (List.mem_cons_of_mem _ hq)) (n - (8 + (recordPayload r).length))
      refine ⟨c + 1, torn, ?_, htorn⟩
      rw [hcons, List.take_append, List.take_of_length_le (hlen.trans_le hwhole), hlen, htake,
        List.take_succ_cons, ← List.append_assoc, ← recordImage_append]
      rfl
    · refine ⟨0, _, rfl, r :: rs, n, hrs, rfl, ?_⟩
      rw [completeCount, List.map_cons, LengthFrame.completeRecords, if_neg hwhole]

theorem parseRecords_torn {rs : List LogRecord} {torn : Bytes} (hrs : Encodable rs)
    (htorn : Torn torn) :
    parseRecords (recordImage rs ++ torn) =
        .ok (replay MemStorage.empty rs, (recordImage rs).length) ∧
      ∀ k, ∃ parsed, parseRecords ((recordImage rs ++ torn).take k) = .ok parsed := by
  obtain ⟨more, n, hmore, rfl, hcount⟩ := htorn
  have hall := hrs.append hmore
  have himage : recordImage rs ++ (recordImage more).take n =
      (recordImage (rs ++ more)).take ((recordImage rs).length + n) := by
    rw [recordImage_append, List.take_length_add_append]
  rw [himage]
  constructor
  · rw [parseRecords_take (fun r hr => (hall r hr).1) (fun r hr => (hall r hr).2),
      completeCount_append, hcount, Nat.add_zero, List.take_left]
  · intro k
    rw [List.take_take]
    exact ⟨_, parseRecords_take (fun r hr => (hall r hr).1) (fun r hr => (hall r hr).2) _⟩

theorem replay_stagedRecords (s : MemStorage) (b : Batch) :
    replay s (stagedRecords b s.lastIndex) = s.save b.hs b.entries := by
  have hentries (t : MemStorage) (last : Nat) :
      replay t (stagedRecords ⟨none, b.entries⟩ last) = t.save none b.entries := by
    rw [stagedRecords]
    cases b.entries with
    | nil => rfl
    | cons e rest =>
      dsimp only
      split
      · show MemStorage.mk t.hard
          (MemStorage.cut (MemStorage.cut t.entries e.index) e.index ++ e :: rest) = _
        rw [MemStorage.cut_cut]
        rfl
      · rfl
  obtain ⟨hs, entries⟩ := b
  cases hs with
  | none => exact hentries s s.lastIndex
  | some hs => exact hentries { s with hard := hs } s.lastIndex

/-- The storage between two calls: the complete records `rs` on its platter, and what is left of
one that a crash tore. -/
structure Platter (cs : CrashStorage) (rs : List LogRecord) (tail : Bytes) : Prop where
  durable : cs.durable = recordImage rs ++ tail
  unsynced : cs.unsynced = []
  view : cs.view = replay MemStorage.empty rs
  encodable : Encodable rs
  torn : Torn tail
  whole : cs.crashed = false → tail = []

namespace Platter

variable {cs : CrashStorage} {rs : List LogRecord} {torn : Bytes}

theorem parse (h : Platter cs rs torn) :
    parseRecords cs.durable = .ok (cs.view, (recordImage rs).length) := by
  rw [h.durable, h.view]
  exact (parseRecords_torn h.encodable h.torn).1

theorem replay_append (h : Platter cs rs torn) (rs' : List LogRecord) :
    replay MemStorage.empty (rs ++ rs') = replay cs.view rs' := by
  rw [h.view]
  exact List.foldl_append

end Platter

structure Falls (cs down : CrashStorage) (save : Nat) (point : CrashPoint) : Prop where
  crashed : down.crashed = true
  armed : down.armed = false
  saves : down.saves = cs.saves
  directives : down.directives = cs.directives
  save : down.lastCrash.save = save
  point : down.lastCrash.point = point

theorem crash_of_retained {cs : CrashStorage} {rs : List LogRecord} {torn : Bytes} {retain : Retain}
    (hretain : cs.durable ++ cs.unsynced.take (CrashStorage.kept retain cs.unsynced.length) =
      recordImage rs ++ torn) (hrs : Encodable rs) (htorn : Torn torn) (save : Nat)
    (point : CrashPoint) :
    ∃ down, cs.crash save point retain = some down ∧ Platter down rs torn ∧
      Falls cs down save point := by
  let keep := CrashStorage.kept retain cs.unsynced.length
  refine ⟨{ cs with
    lastCrash := ⟨save, point, cs.unsynced.length, keep⟩
    hasCrashed := true
    durable := cs.durable ++ cs.unsynced.take keep
    unsynced := []
    crashed := true
    armed := false
    view := replay MemStorage.empty rs }, ?_, ⟨hretain, rfl, rfl, hrs, htorn, nofun⟩,
    ⟨rfl, rfl, rfl, rfl, rfl, rfl⟩⟩
  rw [CrashStorage.crash]
  rw [hretain, (parseRecords_torn hrs htorn).1]

theorem Platter.crash {cs : CrashStorage} {rs : List LogRecord} {torn : Bytes}
    (h : Platter cs rs torn) (save : Nat) (point : CrashPoint) (retain : Retain) :
    ∃ down, cs.crash save point retain = some down ∧ Platter down rs torn ∧
      Falls cs down save point := by
  refine crash_of_retained ?_ h.encodable h.torn save point
  rw [h.unsynced, List.take_nil, List.append_nil, h.durable]

/-! ### Directives -/

structure Fired (cs : CrashStorage) (last : Nat) : Prop where
  last_le : last ≤ cs.saves
  armed : cs.armed = true → cs.crashed = false ∧ cs.armedSave = cs.saves ∧ last < cs.saves ∧
    ∃ d ∈ cs.directives, d.save = cs.saves ∧ d.point = .afterSend

theorem Falls.fired {cs down : CrashStorage} {save last : Nat} {point : CrashPoint}
    (h : Falls cs down save point) (hlast : last ≤ cs.saves) : Fired down last :=
  ⟨h.saves.symm ▸ hlast, fun harmed => by cases h.armed.symm.trans harmed⟩

/-- What a call does to the view and which directive it fires, when `last` fired last. -/
structure VisitSpec (directives : List CrashDirective) (last : Nat) (v : Visit) : Prop where
  recovers : v.call = .recover → v.before.crashed = true →
    v.answer = .recovered (.ok ()) ∧ v.after.view = v.before.view
  saves : ∀ b, v.call = .save b → v.answer = .saved (.ok ()) →
    v.after.view = v.before.view.save b.hs b.entries
  fires : ∀ info, v.firing = some info → last < info.save ∧ info.save = v.after.saves ∧
    ∃ d ∈ directives, d.save = info.save ∧ d.point = info.point

theorem Visit.firing_of_falls {v : Visit} {cs : CrashStorage} {save : Nat} {point : CrashPoint}
    (h : Falls cs v.after save point) {info : CrashInfo} (hinfo : v.firing = some info) :
    info.save = save ∧ info.point = point := by
  rw [Visit.firing] at hinfo
  split at hinfo
  · cases hinfo
    exact ⟨h.save, h.point⟩
  · cases hinfo

theorem Visit.firing_of_running {v : Visit} (h : v.after.crashed = v.before.crashed) :
    v.firing = none := by
  rw [Visit.firing, h]
  refine if_neg ?_
  rintro ⟨hup, hdown, -⟩
  cases hup.symm.trans hdown

structure Called (cs : CrashStorage) (rs : List LogRecord) (last : Nat) (c : CrashCall)
    (after : CrashStorage) (answer : CrashAnswer) : Prop where
  platter : ∃ rs' torn, rs <+: rs' ∧ Platter after rs' torn ∧
    (Visit.synced ⟨cs, c, answer, after⟩ = true → torn = [])
  fired : Fired after ((Visit.firing ⟨cs, c, answer, after⟩).elim last (·.save))
  directives : after.directives = cs.directives
  spec : VisitSpec cs.directives last ⟨cs, c, answer, after⟩

namespace Platter

variable {cs : CrashStorage} {rs : List LogRecord} {torn : Bytes} {last : Nat}

theorem idle (h : Platter cs rs torn) (hfired : Fired cs last) {c : CrashCall} {answer : CrashAnswer}
    (hrecover : c = .recover → cs.crashed = false)
    (hsynced : Visit.synced ⟨cs, c, answer, cs⟩ = false) : Called cs rs last c cs answer := by
  have hfiring : Visit.firing ⟨cs, c, answer, cs⟩ = none := Visit.firing_of_running rfl
  refine ⟨⟨rs, torn, List.prefix_rfl, h, by simp [hsynced]⟩, by rw [hfiring]; exact hfired, rfl,
    ?_, ?_, by simp [hfiring]⟩
  · intro hc hcrashed
    cases (hrecover hc).symm.trans hcrashed
  · rintro b - rfl
    cases hsynced

theorem falls {down : CrashStorage} {rs' : List LogRecord} {c : CrashCall} {answer : CrashAnswer}
    {save : Nat} {point : CrashPoint} {mid : CrashStorage} (hup : cs.crashed = false)
    (hgrows : rs <+: rs') (h : Platter down rs' torn) (hfalls : Falls mid down save point)
    (hdirectives : mid.directives = cs.directives) (hlast : last < save) (hsave : save = mid.saves)
    (hd : ∃ d ∈ cs.directives, d.save = save ∧ d.point = point)
    (hsynced : Visit.synced ⟨cs, c, answer, down⟩ = true → torn = [])
    (hanswer : answer ≠ .saved (.ok ())) : Called cs rs last c down answer := by
  refine ⟨⟨rs', torn, hgrows, h, hsynced⟩, hfalls.fired ?_, hfalls.directives.trans hdirectives,
    ?_, ?_, ?_⟩
  · cases hfiring : Visit.firing ⟨cs, c, answer, down⟩ with
    | none => exact (hlast.trans_eq hsave).le
    | some info =>
      show info.save ≤ mid.saves
      rw [(Visit.firing_of_falls hfalls hfiring).1, hsave]
  · intro _ hcrashed
    cases hup.symm.trans hcrashed
  · intro b _ hok
    exact absurd hok hanswer
  · intro info hinfo
    obtain ⟨hs, hp⟩ := Visit.firing_of_falls hfalls hinfo
    rw [hs, hp]
    exact ⟨hlast, hsave.trans hfalls.saves.symm, hd⟩

theorem armed (h : Platter cs rs torn) (hfired : Fired cs last) (harmed : cs.armed = true)
    (c : CrashCall) (answer : CrashAnswer)
    (hsynced : ∀ down, Visit.synced ⟨cs, c, answer, down⟩ = false) :
    ∃ down, cs.crash cs.armedSave .afterSend (some 0) = some down ∧
      Called cs rs last c down answer := by
  obtain ⟨hup, hsave, hlast, d, hd, hdsave, hpoint⟩ := hfired.armed harmed
  obtain ⟨down, hdown, hplatter, hfalls⟩ := h.crash cs.armedSave .afterSend (some 0)
  refine ⟨down, hdown, falls hup List.prefix_rfl hplatter hfalls rfl (hlast.trans_eq hsave.symm)
    hsave ⟨d, hd, hdsave.trans hsave.symm, hpoint⟩ (by simp [hsynced]) ?_⟩
  rintro rfl
  cases hsynced cs

theorem sync (h : Platter cs rs torn) (hup : cs.crashed = false) {b : Batch} (htyped : b.Typed)
    (hfits : b.Fits) (next : Nat) :
    Platter ({ cs.stage b.hs b.entries with next := next }.sync b.hs b.entries)
      (rs ++ stagedRecords b cs.view.lastIndex) [] := by
  refine ⟨?_, rfl, ?_, h.encodable.append (encodable_stagedRecords htyped hfits _), torn_nil,
    fun _ => rfl⟩
  · show cs.durable ++ (cs.stage b.hs b.entries).unsynced = _
    rw [stage_unsynced h.unsynced, recordImage_append, h.durable, h.whole hup, List.append_nil,
      List.append_nil]
  · show cs.view.save b.hs b.entries = _
    rw [h.replay_append, replay_stagedRecords]

theorem saved (hfired : Fired cs last) (hup : cs.crashed = false)
    {b : Batch} {after : CrashStorage}
    (hplatter : Platter after (rs ++ stagedRecords b cs.view.lastIndex) [])
    (hview : after.view = cs.view.save b.hs b.entries)
    (hcrashed : after.crashed = false) (hsaves : after.saves = cs.saves + 1)
    (hdirectives : after.directives = cs.directives)
    (harmed : after.armed = true → after.armedSave = after.saves ∧
      ∃ d ∈ after.directives, d.save = after.saves ∧ d.point = .afterSend) :
    Called cs rs last (.save b) after (.saved (.ok ())) := by
  have hfiring : Visit.firing ⟨cs, .save b, .saved (.ok ()), after⟩ = none :=
    Visit.firing_of_running (hcrashed.trans hup.symm)
  have hle := hfired.last_le
  refine ⟨⟨_, [], List.prefix_append _ _, hplatter, fun _ => rfl⟩, ?_, hdirectives, nofun, ?_,
    by simp [hfiring]⟩
  · rw [hfiring]
    refine ⟨?_, ?_⟩
    · show last ≤ after.saves
      omega
    · intro ha
      obtain ⟨hsave, hd⟩ := harmed ha
      refine ⟨hcrashed, hsave, ?_, hd⟩
      show last < after.saves
      omega
  · intro b' hb _
    cases hb
    exact hview

end Platter

theorem pendingDirective_cases (cs : CrashStorage) (b : Batch) :
    (cs.stage b.hs b.entries).pendingDirective (cs.saves + 1) =
        ({ cs.stage b.hs b.entries with next := cs.next }, none) ∨
      ∃ d ∈ cs.directives, d.save = cs.saves + 1 ∧
        (cs.stage b.hs b.entries).pendingDirective (cs.saves + 1) =
          ({ cs.stage b.hs b.entries with next := cs.next + 1 }, some d) := by
  rw [CrashStorage.pendingDirective]
  split
  · exact .inl rfl
  · next d hd =>
    split
    · exact .inl rfl
    · next hsave => exact .inr ⟨d, List.mem_of_getElem? hd, not_not.1 hsave, rfl⟩

namespace Platter

variable {cs : CrashStorage} {rs : List LogRecord} {torn : Bytes} {last : Nat}

theorem crash_staged (h : Platter cs rs torn) (hup : cs.crashed = false) {b : Batch}
    (htyped : b.Typed) (hfits : b.Fits) (next save : Nat) (point : CrashPoint) (retain : Retain) :
    ∃ down rs' torn', { cs.stage b.hs b.entries with next := next }.crash save point retain =
        some down ∧ rs <+: rs' ∧ Platter down rs' torn' ∧
      Falls { cs.stage b.hs b.entries with next := next } down save point := by
  have hstaged := encodable_stagedRecords htyped hfits cs.view.lastIndex
  obtain ⟨c, torn', htake, htorn'⟩ := recordImage_take hstaged
    (CrashStorage.kept retain (recordImage (stagedRecords b cs.view.lastIndex)).length)
  have hretain : cs.durable ++ (cs.stage b.hs b.entries).unsynced.take
      (CrashStorage.kept retain (cs.stage b.hs b.entries).unsynced.length) =
        recordImage (rs ++ (stagedRecords b cs.view.lastIndex).take c) ++ torn' := by
    rw [stage_unsynced h.unsynced, htake, recordImage_append, h.durable, h.whole hup,
      List.append_nil, List.append_assoc]
  obtain ⟨down, hdown, hplatter, hfalls⟩ :=
    @crash_of_retained { cs.stage b.hs b.entries with next := next } _ _ retain hretain
      (h.encodable.append (hstaged.take c)) htorn' save point
  exact ⟨down, _, torn', hdown, List.prefix_append _ _, hplatter, hfalls⟩

theorem finish_due (h : Platter cs rs torn) (hfired : Fired cs last) (hup : cs.crashed = false)
    (harmed : cs.armed = false) {b : Batch} (htyped : b.Typed) (hfits : b.Fits) {d : CrashDirective}
    (hd : d ∈ cs.directives) (hsave : d.save = cs.saves + 1) (next : Nat) :
    ∃ after result,
      { cs.stage b.hs b.entries with next := next }.finish b.hs b.entries (some d) =
        some (after, result) ∧ Called cs rs last (.save b) after (.saved result) := by
  have hlast : last < cs.saves + 1 := Nat.lt_succ_of_le hfired.last_le
  have hsync := h.sync hup htyped hfits next
  rw [CrashStorage.finish]
  cases hpoint : d.point with
  | beforeSync =>
    obtain ⟨down, rs', torn', hdown, hgrows, hplatter, hfalls⟩ :=
      h.crash_staged hup htyped hfits next (cs.saves + 1) .beforeSync d.retainUnsynced
    refine ⟨down, .error (.crashedAt (cs.saves + 1) .beforeSync), ?_,
      falls hup hgrows hplatter hfalls rfl hlast rfl ⟨d, hd, hsave, hpoint⟩
        (by simp [Visit.synced]) (by simp)⟩
    show Option.map _ (CrashStorage.crash _ (cs.saves + 1) _ _) = _
    rw [hdown]
    rfl
  | afterSyncBeforeSend =>
    obtain ⟨down, hdown, hplatter, hfalls⟩ :=
      hsync.crash (cs.saves + 1) .afterSyncBeforeSend (some 0)
    refine ⟨down, .error (.crashedAt (cs.saves + 1) .afterSyncBeforeSend), ?_,
      falls hup (List.prefix_append _ _) hplatter hfalls rfl hlast rfl ⟨d, hd, hsave, hpoint⟩
        (fun _ => rfl) (by simp)⟩
    show Option.map _ (CrashStorage.crash _ (cs.saves + 1) _ _) = _
    rw [hdown]
    rfl
  | afterSend =>
    refine ⟨_, .ok (), rfl, saved hfired hup
      ⟨hsync.durable, rfl, hsync.view, hsync.encodable, torn_nil, fun _ => rfl⟩ rfl hup rfl rfl ?_⟩
    intro _
    exact ⟨rfl, d, hd, hsave, hpoint⟩
  | hostInitiated =>
    refine ⟨_, .ok (), rfl, saved hfired hup hsync rfl hup rfl rfl ?_⟩
    intro ha
    cases harmed.symm.trans ha

theorem call_save (h : Platter cs rs torn) (hfired : Fired cs last) {b : Batch} (htyped : b.Typed)
    (hfits : b.Fits) :
    ∃ after result, cs.save b.hs b.entries = some (after, result) ∧
      Called cs rs last (.save b) after (.saved result) := by
  rw [CrashStorage.save]
  cases hup : cs.crashed with
  | true => exact ⟨cs, .error .crashed, rfl, h.idle hfired (by simp) rfl⟩
  | false =>
    cases harmed : cs.armed with
    | true =>
      obtain ⟨down, hdown, hcalled⟩ := h.armed hfired harmed (.save b)
        (.saved (.error (.crashedAt cs.armedSave .afterSend))) (fun _ => rfl)
      refine ⟨down, _, ?_, hcalled⟩
      rw [if_neg (by simp), if_pos rfl, hdown]
      rfl
    | false =>
      rw [if_neg (by simp), if_neg (by simp)]
      rcases pendingDirective_cases cs b with hnone | ⟨d, hd, hsave, hdue⟩
      · have hsync := h.sync hup htyped hfits cs.next
        refine ⟨_, .ok (), by rw [hnone]; rfl, saved hfired hup hsync rfl hup rfl rfl ?_⟩
        intro ha
        cases harmed.symm.trans ha
      · rw [hdue]
        exact h.finish_due hfired hup harmed htyped hfits hd hsave (cs.next + 1)

theorem call_crash (h : Platter cs rs torn) (hfired : Fired cs last) :
    ∃ after result, cs.hostCrash = some (after, result) ∧
      Called cs rs last .crash after (.crashed result) := by
  rw [CrashStorage.hostCrash]
  cases hup : cs.crashed with
  | true => exact ⟨cs, .error .crashed, rfl, h.idle hfired nofun rfl⟩
  | false =>
    obtain ⟨down, hdown, hplatter, hfalls⟩ := h.crash cs.saves .hostInitiated (some 0)
    have hfiring (answer : CrashAnswer) : Visit.firing ⟨cs, .crash, answer, down⟩ = none := by
      refine if_neg ?_
      rintro ⟨-, -, hpoint⟩
      exact hpoint hfalls.point
    refine ⟨down, .ok (), by rw [if_neg (by simp), hdown]; rfl,
      ⟨⟨rs, torn, List.prefix_rfl, hplatter, nofun⟩, ?_, hfalls.directives, nofun, nofun,
        by simp [hfiring]⟩⟩
    rw [hfiring]
    exact hfalls.fired hfired.last_le

theorem call_crashIfArmed (h : Platter cs rs torn) (hfired : Fired cs last) :
    ∃ after fired, cs.crashIfArmed = some (after, fired) ∧
      Called cs rs last .crashIfArmed after (.fired fired) := by
  rw [CrashStorage.crashIfArmed]
  split
  · exact ⟨cs, false, rfl, h.idle hfired nofun rfl⟩
  · next hready =>
    have harmed : cs.armed = true := by
      cases ha : cs.armed with
      | true => rfl
      | false => simp [ha] at hready
    obtain ⟨down, hdown, hcalled⟩ := h.armed hfired harmed .crashIfArmed (.fired true) (fun _ => rfl)
    exact ⟨down, true, by rw [hdown]; rfl, hcalled⟩

theorem call_recover (h : Platter cs rs torn) (hfired : Fired cs last) :
    ∃ after answer, cs.call .recover = some (after, answer) ∧
      Called cs rs last .recover after answer := by
  rw [CrashStorage.call, CrashStorage.recover]
  cases hup : cs.crashed with
  | false => exact ⟨cs, .recovered (.error .notCrashed), rfl, h.idle hfired (fun _ => hup) rfl⟩
  | true =>
    -- The trimmed platter is the image of the complete records.
    have htrim : cs.durable.take (recordImage rs).length = recordImage rs ++ [] := by
      rw [h.durable, List.take_left, List.append_nil]
    have hfiring (answer : CrashAnswer) (after : CrashStorage) :
        Visit.firing ⟨cs, .recover, answer, after⟩ = none := by
      refine if_neg ?_
      rintro ⟨hdown, -⟩
      cases hup.symm.trans hdown
    refine ⟨{ cs with
      durable := cs.durable.take (recordImage rs).length, view := cs.view, crashed := false },
      .recovered (.ok ()), ?_,
      ⟨⟨rs, [], List.prefix_rfl,
        ⟨htrim, h.unsynced, h.view, h.encodable, torn_nil, fun _ => rfl⟩, by simp⟩, ?_, rfl,
        fun _ _ => ⟨rfl, rfl⟩, by simp, by simp [hfiring]⟩⟩
    · rw [h.parse]
      rfl
    · rw [hfiring]
      refine ⟨hfired.last_le, ?_⟩
      intro harmed
      cases hup.symm.trans (hfired.armed harmed).1

theorem call (h : Platter cs rs torn) (hfired : Fired cs last) {c : CrashCall}
    (hc : ∀ b, c = .save b → b.Typed ∧ b.Fits) :
    ∃ after answer, cs.call c = some (after, answer) ∧ Called cs rs last c after answer := by
  cases c with
  | save b =>
    obtain ⟨after, result, hsave, hcalled⟩ := h.call_save hfired (hc b rfl).1 (hc b rfl).2
    exact ⟨after, _, by rw [CrashStorage.call, hsave]; rfl, hcalled⟩
  | crash =>
    obtain ⟨after, result, hcrash, hcalled⟩ := h.call_crash hfired
    exact ⟨after, _, by rw [CrashStorage.call, hcrash]; rfl, hcalled⟩
  | crashIfArmed =>
    obtain ⟨after, fired, hcrash, hcalled⟩ := h.call_crashIfArmed hfired
    exact ⟨after, _, by rw [CrashStorage.call, hcrash]; rfl, hcalled⟩
  | recover => exact h.call_recover hfired

theorem calls (h : Platter cs rs torn) (hfired : Fired cs last) {todo : List CrashCall}
    (htodo : ∀ b, .save b ∈ todo → b.Typed ∧ b.Fits) :
    ∃ visits, cs.calls todo = some visits ∧
      (∀ v ∈ visits, (∃ rs' torn', rs <+: rs' ∧ Platter v.after rs' torn') ∧
        ∃ last', last ≤ last' ∧ VisitSpec cs.directives last' v) ∧
      visits.Pairwise (fun v w => v.synced = true → v.after.durable <+: w.after.durable) ∧
      (visits.filterMap Visit.firing).Pairwise (fun i j => i.save < j.save) := by
  induction todo generalizing cs rs torn last with
  | nil => exact ⟨[], rfl, by simp, .nil, .nil⟩
  | cons c rest ih =>
    obtain ⟨after, answer, hcall, ⟨rs', torn', hgrows, hplatter, hsynced⟩, hfired', hdirectives,
      hspec⟩ := h.call hfired (c := c) (fun b hb => htodo b (by simp [hb]))
    obtain ⟨visits, hvisits, hall, hkept, hfirings⟩ :=
      ih hplatter hfired' (fun b hb => htodo b (List.mem_cons_of_mem _ hb))
    rw [hdirectives] at hall
    have hle : last ≤ (Visit.firing ⟨cs, c, answer, after⟩).elim last (·.save) := by
      cases hfiring : Visit.firing ⟨cs, c, answer, after⟩ with
      | none => exact le_rfl
      | some info => exact (hspec.fires info hfiring).1.le
    refine ⟨⟨cs, c, answer, after⟩ :: visits, by rw [CrashStorage.calls, hcall]; simp [hvisits],
      ?_, List.pairwise_cons.2 ⟨?_, hkept⟩, ?_⟩
    · intro v hv
      rcases List.mem_cons.1 hv with rfl | hv
      · exact ⟨⟨rs', torn', hgrows, hplatter⟩, last, le_rfl, hspec⟩
      · obtain ⟨⟨rs'', torn'', hgrows', hplatter'⟩, last', hlast', hspec'⟩ := hall v hv
        exact ⟨⟨rs'', torn'', hgrows.trans hgrows', hplatter'⟩, last', hle.trans hlast', hspec'⟩
    · intro w hw hbarrier
      obtain ⟨⟨rs'', torn'', ⟨more, rfl⟩, hplatter'⟩, -⟩ := hall w hw
      rw [hplatter.durable, hplatter'.durable, hsynced hbarrier, List.append_nil,
        recordImage_append, List.append_assoc]
      exact List.prefix_append _ _
    · rw [List.filterMap_cons]
      split
      · exact hfirings
      · next info hinfo =>
        refine List.pairwise_cons.2 ⟨?_, hfirings⟩
        intro later hlater
        obtain ⟨w, hw, hwfiring⟩ := List.mem_filterMap.1 hlater
        obtain ⟨-, last', hlast', hspec'⟩ := hall w hw
        rw [hinfo] at hlast'
        exact lt_of_le_of_lt hlast' (hspec'.fires later hwfiring).1

end Platter

theorem new_eq {id : NodeID} {schedule : List CrashDirective} {cs : CrashStorage}
    (hnew : CrashStorage.new id schedule = .ok cs) :
    Platter cs [] [] ∧ Fired cs 0 ∧ ∀ d ∈ cs.directives, d ∈ schedule ∧ d.node = id := by
  rw [CrashStorage.new] at hnew
  cases hvalid : validateDirectives none
      ((schedule.filter (·.node = id)).insertionSort (·.save ≤ ·.save)) with
  | error e =>
    rw [hvalid] at hnew
    cases hnew
  | ok =>
    rw [hvalid] at hnew
    cases hnew
    refine ⟨⟨rfl, rfl, rfl, nofun, torn_nil, fun _ => rfl⟩, ⟨le_rfl, nofun⟩, ?_⟩
    intro d hd
    rw [List.mem_insertionSort, List.mem_filter] at hd
    exact ⟨hd.1, of_decide_eq_true hd.2⟩

/-- The storage is the fold of its platter, whatever is called. -/
theorem crashStorage_fold {id : NodeID} {schedule : List CrashDirective} {new : CrashStorage}
    (hnew : CrashStorage.new id schedule = .ok new) {calls : List CrashCall}
    (hcalls : ∀ b, .save b ∈ calls → b.Typed ∧ b.Fits) :
    parseRecords new.durable = .ok (new.view, 0) ∧ ∃ visits, new.calls calls = some visits ∧
      (∀ v ∈ visits,
        -- The view is the fold of the complete records, and every prefix of the platter parses.
        (∃ rs torn, v.after.durable = recordImage rs ++ torn ∧
          v.after.view = replay MemStorage.empty rs ∧
          parseRecords v.after.durable = .ok (v.after.view, (recordImage rs).length) ∧
          ∀ k, ∃ parsed, parseRecords (v.after.durable.take k) = .ok parsed) ∧
        (v.call = .recover → v.before.crashed = true →
          v.answer = .recovered (.ok ()) ∧ v.after.view = v.before.view) ∧
        (∀ b, v.call = .save b → v.answer = .saved (.ok ()) →
          v.after.view = v.before.view.save b.hs b.entries) ∧
        ∀ info, v.firing = some info → info.save = v.after.saves ∧
          ∃ d ∈ schedule, d.node = id ∧ d.save = info.save ∧ d.point = info.point) ∧
      -- What crossed a barrier stays in front of the platter.
      visits.Pairwise (fun v w => v.synced = true → v.after.durable <+: w.after.durable) ∧
      -- No two crashes are at the ordinal of one directive.
      (visits.filterMap Visit.firing).Pairwise (fun i j => i.save < j.save) := by
  obtain ⟨hplatter, hfired, hdirectives⟩ := new_eq hnew
  obtain ⟨visits, hvisits, hall, hkept, hfirings⟩ := hplatter.calls hfired hcalls
  refine ⟨hplatter.parse, visits, hvisits, ?_, hkept, hfirings⟩
  intro v hv
  obtain ⟨⟨rs, torn, -, h⟩, last, -, hspec⟩ := hall v hv
  refine ⟨⟨rs, torn, h.durable, h.view, h.parse, ?_⟩, hspec.recovers, hspec.saves, ?_⟩
  · rw [h.durable]
    exact (parseRecords_torn h.encodable h.torn).2
  · intro info hinfo
    obtain ⟨-, hsave, d, hd, hdsave, hpoint⟩ := hspec.fires info hinfo
    exact ⟨hsave, d, (hdirectives d hd).1, (hdirectives d hd).2, hdsave, hpoint⟩

/-- Two entries saved under an after-send directive, the backstop, and a third save of which a crash
retains five bytes. -/
theorem crashStorage_fold_three :
    let schedule : List CrashDirective :=
      [⟨1, 2, .beforeSync, some 5, true⟩, ⟨1, 1, .afterSend, some 0, false⟩]
    let first : Batch := ⟨some ⟨1, 1⟩, [⟨1, 1, .normal, [7]⟩, ⟨2, 1, .noop, []⟩]⟩
    let second : Batch := ⟨none, [⟨2, 2, .normal, [9]⟩]⟩
    let calls : List CrashCall := [.save first, .save second, .recover, .save second, .recover]
    ∃ new visits, CrashStorage.new 1 schedule = .ok new ∧ new.calls calls = some visits ∧
      ∀ v ∈ visits, ∃ complete, parseRecords v.after.durable = .ok (v.after.view, complete) := by
  intro schedule first second calls
  have htyped : ∀ b, .save b ∈ calls → b.Typed ∧ b.Fits := by
    have hfirst : first.Typed ∧ first.Fits := by
      refine ⟨⟨?_, ?_⟩, by unfold Batch.Fits; decide⟩
      · intro hs hhs
        cases hhs
        exact ⟨by decide, by decide⟩
      · intro e he
        simp only [first, List.mem_cons, List.not_mem_nil, or_false] at he
        rcases he with rfl | rfl <;> exact ⟨by decide, by decide, trivial⟩
    have hsecond : second.Typed ∧ second.Fits := by
      refine ⟨⟨nofun, ?_⟩, by unfold Batch.Fits; decide⟩
      intro e he
      cases List.mem_singleton.1 he
      exact ⟨by decide, by decide, trivial⟩
    intro b hb
    simp only [calls, List.mem_cons, CrashCall.save.injEq, reduceCtorEq, List.not_mem_nil, or_false,
      false_or] at hb
    rcases hb with rfl | rfl | rfl
    · exact hfirst
    · exact hsecond
    · exact hsecond
  obtain ⟨-, visits, hvisits, hall, -⟩ := @crashStorage_fold 1 schedule _ rfl calls htyped
  refine ⟨_, visits, rfl, hvisits, ?_⟩
  intro v hv
  obtain ⟨⟨rs, torn, -, -, hparse, -⟩, -⟩ := hall v hv
  exact ⟨_, hparse⟩

end MiniQuorum.Sim
