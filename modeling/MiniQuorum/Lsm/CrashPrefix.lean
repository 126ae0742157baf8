import MiniQuorum.Lsm.Journal

/-! A crash leaves the names that were last synced and, of each file, its last synced bytes
with those of its later mutations that lie in a prefix of all unsynced bytes. -/

namespace MiniQuorum.Lsm

open Codec Program

/-! ### A run and its journal -/

variable {calls : List Call} {fs fs' : SimFS} {v : Volume} {j : Journal}

theorem SimFS.fault_faultAt (key : SimFaultKey) (fs : SimFS) :
    wp (fault key) (fun _ fs' => fs' = fs ∧ fs.faultAt key = none)
      (fun _ fs' => ∃ fault, fs.faultAt key = some fault ∧ fs'.toVolume = fault.hit fs.toVolume) fs := by
  rw [fault, wp_bind, wp_get]
  dsimp only
  split
  · next err herr => exact ⟨.error, by simp [faultAt, herr], rfl⟩
  · next herr =>
    split
    · next retain hretain => exact ⟨.crash retain, by simp [faultAt, herr, hretain], rfl⟩
    · next hretain => exact ⟨rfl, by simp [faultAt, herr, hretain]⟩

section Operate

variable {op : FSOp} {effects : Option (List Effect)} {fault : Fault}

theorem Journal.operate_crashed (h : fs.crashed = true) : j.operate fs op effects = j := if_pos h

theorem Journal.operate_hit (h : ¬fs.crashed = true)
    (hbefore : fs.faultAt ⟨op, fs.opCounts op + 1, .before⟩ = some fault) :
    j.operate fs op effects = j.hit fault := by
  simp [operate, h, hbefore]

theorem Journal.operate_refused (h : ¬fs.crashed = true)
    (hbefore : fs.faultAt ⟨op, fs.opCounts op + 1, .before⟩ = none) :
    j.operate fs op none = j := by
  simp [operate, h, hbefore]

theorem Journal.operate_done (h : ¬fs.crashed = true)
    (hbefore : fs.faultAt ⟨op, fs.opCounts op + 1, .before⟩ = none) (es : List Effect) :
    j.operate fs op (some es) = (fs.faultAt ⟨op, fs.opCounts op + 1, .after⟩).elim
      (es.foldl record j) (es.foldl record j).hit := by
  simp [operate, h, hbefore]

end Operate

/-- The operation has started and no fault has fallen yet. -/
structure Begun (fs : SimFS) (op : FSOp) (occurrence : Nat) (mid : SimFS) : Prop where
  running : ¬fs.crashed = true
  calm : fs.faultAt ⟨op, fs.opCounts op + 1, .before⟩ = none
  counted : occurrence = fs.opCounts op + 1
  volume : mid.toVolume = fs.toVolume
  faults : mid.faultAt = fs.faultAt

theorem SimFS.lookup_bind_eq_ok {α : Type} {name : Path} {f : InodeID → Except Err α} {a : α} :
    lookup v name >>= f = .ok a ↔ ∃ node, v.live.lookup name = some node ∧ f node = .ok a := by
  rw [lookup]
  cases v.live.lookup name <;> simp [bind, Except.bind]

theorem SimFS.lookup_bind_eq_error {α : Type} {name : Path} {f : InodeID → Except Err α} {e : Err} :
    lookup v name >>= f = .error e ↔
      (v.live.lookup name = none ∧ .notExist = e) ∨
        ∃ node, v.live.lookup name = some node ∧ f node = .error e := by
  rw [lookup]
  cases v.live.lookup name <;> simp [bind, Except.bind]

namespace Recorded

variable {α : Type} {op : FSOp} {effects : Option (List Effect)}

theorem beginOp (h : Recorded fs.toVolume j) :
    wp (SimFS.beginOp op) (fun occurrence mid => Begun fs op occurrence mid)
      (fun _ fs' => Recorded fs'.toVolume (j.operate fs op effects)) fs := by
  simp only [SimFS.beginOp, wp_bind, wp_get, wp_failIf, wp_set, wp_pure]
  refine ⟨fun hcrashed => ?_, fun hrunning => wp_mono (SimFS.fault_faultAt _ _) ?_ ?_⟩
  · rw [Journal.operate_crashed hcrashed]
    exact h
  · rintro _ mid ⟨rfl, hbefore⟩
    exact ⟨hrunning, hbefore, rfl, rfl, rfl⟩
  · rintro _ fs' ⟨fault, hbefore, hvolume⟩
    rw [Journal.operate_hit hrunning hbefore, hvolume]
    exact h.hit fault

theorem finishOp {occurrence : Nat} {mid done : SimFS} (es : List Effect)
    (hmid : Begun fs op occurrence mid) (hfaults : done.faultAt = mid.faultAt)
    (h : Recorded done.toVolume (es.foldl Journal.record j)) :
    wp (SimFS.finishOp op occurrence)
      (fun _ fs' => fs' = done ∧ Recorded fs'.toVolume (j.operate fs op (some es)))
      (fun _ fs' => Recorded fs'.toVolume (j.operate fs op (some es))) done := by
  rw [Journal.operate_done hmid.running hmid.calm, ← hmid.faults, ← hfaults, ← hmid.counted]
  refine wp_mono (SimFS.fault_faultAt _ _) ?_ ?_
  · rintro _ fs' ⟨rfl, hafter⟩
    rw [hafter]
    exact ⟨rfl, h⟩
  · rintro _ fs' ⟨fault, hafter, hvolume⟩
    rw [hafter, hvolume]
    exact h.hit fault

/-- What is recorded before an operation is recorded after it, as long as its effect is. -/
theorem perform (h : Recorded fs.toVolume j) {effect : Volume → Except Err (α × Volume)}
    (hdone : ∀ a w, effect fs.toVolume = .ok (a, w) →
      ∃ es, effects = some es ∧ Recorded w (es.foldl Journal.record j))
    (hrefused : ∀ e, effect fs.toVolume = .error e → effects = none) :
    wp (SimFS.perform op effect)
      (fun a fs' => effect fs.toVolume = .ok (a, fs'.toVolume) ∧
        Recorded fs'.toVolume (j.operate fs op effects))
      (fun _ fs' => Recorded fs'.toVolume (j.operate fs op effects)) fs := by
  rw [SimFS.perform, wp_bind]
  refine wp_mono h.beginOp (fun occurrence mid hmid => ?_) (fun _ _ h => h)
  rw [wp_bind, wp_get, hmid.volume]
  cases heffect : effect fs.toVolume with
  | error err =>
    rw [wp_throw, hmid.volume, hrefused err heffect, Journal.operate_refused hmid.running hmid.calm]
    exact h
  | ok r =>
    obtain ⟨a, w⟩ := r
    obtain ⟨es, rfl, hw⟩ := hdone a w heffect
    simp only [wp_bind, wp_set]
    refine wp_mono (finishOp es hmid rfl hw) ?_ (fun _ _ h => h)
    rintro _ fs' ⟨rfl, hfs'⟩
    exact ⟨rfl, hfs'⟩

/-- An operation on the file that `name` stands for. -/
theorem performNamed (h : Recorded fs.toVolume j) {name : Path}
    {effect : Volume → InodeID → α × Volume} (effects : InodeID → List Effect)
    (hdone : ∀ node, fs.live.lookup name = some node →
      Recorded (effect fs.toVolume node).2 ((effects node).foldl Journal.record j)) :
    wp (SimFS.perform op fun v => do
        let node ← SimFS.lookup v name
        return effect v node)
      (fun a fs' => (∃ node, fs.live.lookup name = some node ∧
          effect fs.toVolume node = (a, fs'.toVolume)) ∧
        Recorded fs'.toVolume (j.operate fs op ((j.names name).map effects)))
      (fun _ fs' => Recorded fs'.toVolume (j.operate fs op ((j.names name).map effects))) fs := by
  refine wp_mono (h.perform ?_ ?_) ?_ (fun _ _ h => h)
  · intro a w hw
    obtain ⟨node, hnode, hw⟩ := SimFS.lookup_bind_eq_ok.1 hw
    have hw : effect fs.toVolume node = (a, w) := Except.ok.inj hw
    have hrec := hdone node hnode
    rw [hw] at hrec
    rw [← h.names, hnode]
    exact ⟨_, rfl, hrec⟩
  · intro e he
    rcases SimFS.lookup_bind_eq_error.1 he with ⟨hnone, -⟩ | ⟨node, -, he⟩
    · rw [← h.names, hnone]
      rfl
    · cases he
  · rintro a fs' ⟨hdone, hfs'⟩
    obtain ⟨node, hnode, hw⟩ := SimFS.lookup_bind_eq_ok.1 hdone
    exact ⟨⟨node, hnode, Except.ok.inj hw⟩, hfs'⟩

/-- An operation that nothing refuses. -/
theorem performTotal (h : Recorded fs.toVolume j) {result : Volume → α} {after : Volume → Volume}
    {es : List Effect} (hdone : Recorded (after fs.toVolume) (es.foldl Journal.record j)) :
    wp (SimFS.perform op fun v => .ok (result v, after v))
      (fun _ fs' => Recorded fs'.toVolume (j.operate fs op (some es)))
      (fun _ fs' => Recorded fs'.toVolume (j.operate fs op (some es))) fs := by
  refine wp_mono (h.perform ?_ ?_) (fun _ _ h => h.2) (fun _ _ h => h)
  · rintro a w ⟨⟩
    exact ⟨es, rfl, hdone⟩
  · rintro e ⟨⟩

/-- An operation with one check before it. -/
theorem performGuarded (h : Recorded fs.toVolume j) {refuses : Volume → Prop}
    [DecidablePred refuses] {err : Err} {result : Volume → α} {after : Volume → Volume}
    {es : List Effect} (heffects : effects = if refuses fs.toVolume then none else some es)
    (hdone : Recorded (after fs.toVolume) (es.foldl Journal.record j)) :
    wp (SimFS.perform op fun v => if refuses v then .error err else .ok (result v, after v))
      (fun a fs' => (a = result fs.toVolume ∧ fs'.toVolume = after fs.toVolume) ∧
        Recorded fs'.toVolume (j.operate fs op effects))
      (fun _ fs' => Recorded fs'.toVolume (j.operate fs op effects)) fs := by
  refine wp_mono (h.perform ?_ ?_) ?_ (fun _ _ h => h)
  · intro a w hw
    split at hw
    · cases hw
    · next hpass =>
      cases hw
      exact ⟨es, heffects.trans (if_neg hpass), hdone⟩
  · intro e he
    split at he
    · next hrefused => exact heffects.trans (if_pos hrefused)
    · cases he
  · rintro a fs' ⟨hw, hfs'⟩
    split at hw
    · cases hw
    · obtain ⟨ha, hvolume⟩ := Prod.mk.inj (Except.ok.inj hw)
      exact ⟨⟨ha.symm, hvolume.symm⟩, hfs'⟩

/-- A handle that is closed or older than the last crash reaches nothing. -/
theorem onFile (h : Recorded fs.toVolume j) {f : FileID} {x : FSM α} {Q : α → SimFS → Prop}
    (hx : SimFile.Usable fs.toVolume f →
      wp x Q (fun _ fs' => Recorded fs'.toVolume (j.operate fs op effects)) fs) :
    wp (do
        let fs ← get
        Prog.failIf (¬SimFile.Usable fs.toVolume f) .fsClosed
        x) Q (fun _ fs' => Recorded fs'.toVolume (j.operateOn fs f op effects)) fs := by
  simp only [wp_bind, wp_get, wp_failIf]
  refine ⟨fun hclosed => ?_, fun hopen => ?_⟩
  · rw [Journal.operateOn, if_neg hclosed]
    exact h
  · have husable := not_not.1 hopen
    rw [Journal.operateOn, if_pos husable]
    exact hx husable

theorem performOn (h : Recorded fs.toVolume j) {f : FileID}
    {effect : Volume → Except Err (α × Volume)}
    (hop : SimFile.Usable fs.toVolume f → wp (SimFS.perform op effect)
      (fun _ fs' => Recorded fs'.toVolume (j.operate fs op effects))
      (fun _ fs' => Recorded fs'.toVolume (j.operate fs op effects)) fs) :
    wp (SimFile.perform f op effect)
      (fun _ fs' => Recorded fs'.toVolume (j.operateOn fs f op effects))
      (fun _ fs' => Recorded fs'.toVolume (j.operateOn fs f op effects)) fs := by
  refine h.onFile fun husable => ?_
  rw [Journal.operateOn, if_pos husable]
  exact hop husable

/-- Reading moves the handle at most. -/
theorem finishRead {f : FileID} {occurrence : Nat} {mid done : SimFS}
    (hf : SimFile.Usable fs.toVolume f) (hmid : Begun fs .read occurrence mid)
    (hfaults : done.faultAt = mid.faultAt) (h : Recorded done.toVolume j) :
    wp (SimFS.finishOp .read occurrence)
      (fun _ fs' => Recorded fs'.toVolume (j.operateOn fs f .read (some [])))
      (fun _ fs' => Recorded fs'.toVolume (j.operateOn fs f .read (some []))) done := by
  rw [Journal.operateOn, if_pos hf]
  exact wp_mono (finishOp [] hmid hfaults h) (fun _ _ h => h.2) (fun _ _ h => h)

theorem of_wp {x : FSM α} (h : wp x (fun _ fs' => Recorded fs'.toVolume j)
    (fun _ fs' => Recorded fs'.toVolume j) fs) : Recorded (x fs).2.toVolume j := by
  rcases hx : x fs with ⟨r, fs'⟩
  cases r with
  | ok a => exact (wp_iff.1 h).1 a fs' hx
  | error e => exact (wp_iff.1 h).2 e fs' hx

theorem isSome_names (h : Recorded fs.toVolume j) (name : Path) :
    (j.names name).isSome ↔ name ∈ fs.live := by
  rw [← h.names]
  exact AList.lookup_isSome

theorem exec_create (h : Recorded fs.toVolume j) (name : Path) :
    Recorded ((Call.create name).exec fs).toVolume (j.call fs (.create name)) := by
  have heffects : (if (j.names name).isSome then none else some [Effect.create name fs.nextInode]) =
      if name ∈ fs.live then none else some [Effect.create name fs.nextInode] := by
    simp only [h.isSome_names]
  refine of_wp ((wp_bind _ _).2
    (wp_mono (h.performGuarded heffects (h.create name)) ?_ (fun _ _ h => h)))
  rintro node fs' ⟨⟨rfl, hvolume⟩, hfs'⟩
  refine hfs'.handle ?_ 0
  rw [hvolume]
  exact AList.lookup_insert _

theorem exec_openMode (h : Recorded fs.toVolume j) (appendMode : Bool) (name : Path) :
    Recorded ((Call.openMode appendMode name).exec fs).toVolume
      (j.call fs (.openMode appendMode name)) := by
  refine of_wp ((wp_bind _ _).2
    (wp_mono (h.performNamed (fun _ => []) fun _ _ => h) ?_ (fun _ _ h => h)))
  rintro ⟨node, offset⟩ fs' ⟨⟨n, hn, heq⟩, hfs'⟩
  obtain ⟨hresult, hvolume⟩ := Prod.mk.inj heq
  refine hfs'.handle ?_ _
  rw [← hvolume, ← (Prod.mk.inj hresult).1]
  exact hn

theorem exec_link (h : Recorded fs.toVolume j) (oldName newName : Path) :
    Recorded ((Call.link oldName newName).exec fs).toVolume
      (j.call fs (.link oldName newName)) := by
  refine of_wp (wp_mono (h.perform ?_ ?_) (fun _ _ h => h.2) (fun _ _ h => h))
  · intro a w hw
    obtain ⟨node, hnode, hw⟩ := SimFS.lookup_bind_eq_ok.1 hw
    split at hw
    · cases hw
    · next hname =>
      cases hw
      rw [if_neg (mt (h.isSome_names newName).1 hname), ← h.names, hnode]
      exact ⟨_, rfl, h.link newName hnode⟩
  · intro e he
    rcases SimFS.lookup_bind_eq_error.1 he with ⟨hnone, -⟩ | ⟨node, -, he⟩
    · rw [← h.names oldName, hnone]
      split <;> rfl
    · split at he
      · next hname => exact if_pos ((h.isSome_names newName).2 hname)
      · cases he

theorem exec_remove (h : Recorded fs.toVolume j) (name : Path) :
    Recorded ((Call.remove name).exec fs).toVolume (j.call fs (.remove name)) := by
  have heffects : ((j.names name).map fun _ => [Effect.remove name]) =
      if name ∉ fs.live then none else some [Effect.remove name] := by
    rw [← h.names]
    split
    · next hname => rw [AList.lookup_eq_none.2 hname, Option.map_none]
    · next hname =>
      obtain ⟨node, hnode⟩ := Option.isSome_iff_exists.1 (AList.lookup_isSome.2 (not_not.1 hname))
      rw [hnode, Option.map_some]
  exact of_wp (wp_mono (h.performGuarded heffects (h.remove name)) (fun _ _ h => h.2)
    (fun _ _ h => h))

theorem exec_read (h : Recorded fs.toVolume j) (f : FileID) (length : Nat) :
    Recorded ((Call.read f length).exec fs).toVolume (j.call fs (.read f length)) := by
  refine of_wp ?_
  simp only [SimFile.read, wp_bind, wp_attempt]
  refine h.onFile fun husable => wp_mono h.beginOp (fun occurrence mid hmid => ?_) (fun _ _ h => h)
  simp only [wp_get, wp_set]
  have hseek : Recorded (mid.seek f ((mid.files f).offset +
      (((mid.bytes f).drop (mid.files f).offset).take length).length)) j := by
    rw [hmid.volume]
    exact h.of_files f rfl rfl id
  exact wp_mono (finishRead husable hmid rfl hseek)
    (fun _ _ h => wp_ite (fun _ => h) (fun _ => h)) (fun _ _ h => h)

theorem exec_readAt (h : Recorded fs.toVolume j) (f : FileID) (length offset : Nat) :
    Recorded ((Call.readAt f length offset).exec fs).toVolume
      (j.call fs (.readAt f length offset)) := by
  refine of_wp ?_
  simp only [SimFile.readAt, wp_bind, wp_attempt]
  refine h.onFile fun husable => wp_mono h.beginOp (fun occurrence mid hmid => ?_) (fun _ _ h => h)
  rw [wp_get]
  have hsame : Recorded mid.toVolume j := by
    rw [hmid.volume]
    exact h
  exact wp_mono (finishRead husable hmid rfl hsame)
    (fun _ _ h => wp_ite (fun _ => h) (fun _ => h)) (fun _ _ h => h)

theorem exec (h : Recorded fs.toVolume j) (c : Call) (hc : c.FillsNoGap fs) :
    Recorded (c.exec fs).toVolume (j.call fs c) := by
  cases c with
  | create name => exact h.exec_create name
  | openMode appendMode name => exact h.exec_openMode appendMode name
  | syncDir dir => exact of_wp (h.performTotal (h.syncDir dir))
  | rename oldName newName =>
    exact of_wp (wp_mono (h.performNamed (fun node => [.rename oldName newName node])
      fun _ hnode => h.rename newName hnode) (fun _ _ h => h.2) (fun _ _ h => h))
  | link oldName newName => exact h.exec_link oldName newName
  | remove name => exact h.exec_remove name
  | list dir => exact of_wp (h.performTotal h)
  | stat name =>
    exact of_wp (wp_mono (h.performNamed (fun _ => []) fun _ _ => h) (fun _ _ h => h.2)
      (fun _ _ h => h))
  | read f length => exact h.exec_read f length
  | readAt f length offset => exact h.exec_readAt f length offset
  | write f src =>
    refine of_wp (h.performOn fun hf => ?_)
    refine wp_mono (h.performGuarded rfl ?_) (fun _ _ h => h.2) (fun _ _ h => h)
    exact h.write hf src hc
  | sync f => exact of_wp (h.performOn fun hf => h.performTotal (h.sync hf))
  | truncate f size =>
    refine of_wp (h.performOn fun hf => ?_)
    refine wp_mono (h.performGuarded rfl ?_) (fun _ _ h => h.2) (fun _ _ h => h)
    exact h.truncate hf size
  | close f =>
    exact of_wp (h.performOn fun _ => h.performTotal (h.of_files f rfl rfl fun h => by cases h))
  | setCrashSchedule faults => exact h
  | setErrorSchedule faults => exact h
  | resetEvents => exact h
  | crash retain =>
    rw [Call.exec, SimFS.crashNow, Journal.call]
    split
    · exact h
    · exact h.crash retain
  | recover =>
    rw [Call.exec, SimFS.recover, Journal.call]
    split
    · exact h.recover
    · exact h

theorem run {calls : List Call} (h : FillNoGap calls) :
    Recorded (runCalls calls).toVolume (journal calls) := by
  induction calls with
  | nil => exact .empty
  | cons c earlier ih => exact (ih h.2).exec c h.1

end Recorded

/-! ### Crashes -/

theorem Recorded.replaysAll (h : Recorded v j) (n : InodeID) :
    ∃ b, Replays (v.inodes n).durable (v.dirty.filter (·.node = n)) b := by
  by_cases hn : v.Held n
  · exact ⟨_, h.replays n hn⟩
  · have hdirty : v.dirtyOf n = [] := by
      by_contra hne
      exact hn (.inr (.inr hne))
    refine ⟨(v.inodes n).durable, ?_⟩
    rw [← Volume.dirtyOf, hdirty]
    exact .nil _

/-- The volume is what the calls made of it, and its crashes never slice out of bounds.  They
leave the names last synced, and of each of their files the bytes last synced with its
mutations in the retained prefix of the unsynced ones: all of them for `RetainAllUnsynced`,
none for `0`. -/
theorem crash_survivors_prefix (calls : List Call) (hcalls : FillNoGap calls) :
    (∀ p, (runCalls calls).live.lookup p = (journal calls).names p) ∧
    (∀ p n, (journal calls).names p = some n →
      ((runCalls calls).inodes n).data = (journal calls).bytes n) ∧
    ∀ r : Retain,
      (survivorsChecked r (runCalls calls).dirty fun n => ((runCalls calls).inodes n).durable) =
        some (survivors r (runCalls calls).dirty fun n => ((runCalls calls).inodes n).durable) ∧
      (∀ p, ((runCalls calls).crash r).live.lookup p = (journal calls).syncedNames p) ∧
      ∀ p n, (journal calls).syncedNames p = some n →
        ((runCalls calls).crash r).inodes n =
          ⟨survivor r n 0 (journal calls).unsynced ((journal calls).syncedBytes n),
            survivor r n 0 (journal calls).unsynced ((journal calls).syncedBytes n)⟩ ∧
        (r = none → ((runCalls calls).crash r).inodes n =
          ⟨(journal calls).bytes n, (journal calls).bytes n⟩) ∧
        (r = some 0 → ((runCalls calls).crash r).inodes n =
          ⟨(journal calls).syncedBytes n, (journal calls).syncedBytes n⟩) := by
  have hrec := Recorded.run hcalls
  refine ⟨hrec.names, ?_, ?_⟩
  · intro p n hp
    exact hrec.data n (.inl ⟨p, .inl ((hrec.names p).trans hp)⟩)
  intro r
  refine ⟨survivorsChecked_eq r hrec.replaysAll, hrec.syncedNames, ?_⟩
  intro p n hp
  have hp : (runCalls calls).durableNames.lookup p = some n := (hrec.syncedNames p).trans hp
  have hcrash := hrec.crash_inodes r hp
  refine ⟨hcrash, ?_, ?_⟩
  · rintro rfl
    have hheld : (runCalls calls).Held n := .inl ⟨p, .inr hp⟩
    have hall := survivor_all hrec.positive (hrec.replays n hheld) 0
    rw [hrec.unsynced, hrec.durable n hheld, hrec.data n hheld] at hall
    rw [hcrash]
    simp only [Journal.crash, Journal.bytes, List.foldr_nil] at hall ⊢
    rw [hall]
  · rintro rfl
    rw [hcrash]
    simp only [Journal.crash, Journal.bytes, List.foldr_nil]
    rw [survivor_of_le le_rfl]

/-- Two files written in turn, one through two handles, with a link, a rename, a shrink and
a sync of one of them.  The latest call comes first. -/
def interleaved : List Call :=
  [.truncate 2 1, .write 2 [7, 8], .openMode true ⟨[100], [99]⟩, .write 1 [6], .sync 0,
    .write 0 [4, 5], .syncDir [100], .rename ⟨[100], [98]⟩ ⟨[100], [99]⟩,
    .link ⟨[100], [97]⟩ ⟨[100], [100]⟩, .write 1 [3], .create ⟨[100], [98]⟩, .write 0 [1, 2],
    .create ⟨[100], [97]⟩]

theorem crash_survivors_prefix_interleaved :
    (journal interleaved).unsynced =
        [.write 1 0 [3], .write 1 1 [6], .write 1 2 [7, 8], .truncate 1 4 1] ∧
      ((journal interleaved).syncedBytes 0, (journal interleaved).bytes 1) = ([1, 2, 4, 5], [3]) ∧
      ((runCalls interleaved).crash (some 4)).inodes 1 = ⟨[3, 6, 7, 8], [3, 6, 7, 8]⟩ ∧
      ((runCalls interleaved).crash (some 6)).inodes 1 = ⟨[3, 6], [3, 6]⟩ ∧
      ((runCalls interleaved).crash none).inodes 1 = ⟨[3], [3]⟩ ∧
      ((runCalls interleaved).crash (some 0)).inodes 0 = ⟨[1, 2, 4, 5], [1, 2, 4, 5]⟩ := by
  obtain ⟨-, -, hcrash⟩ := crash_survivors_prefix interleaved (by decide)
  have hone : (journal interleaved).syncedNames ⟨[100], [99]⟩ = some 1 := by decide +kernel
  have hzero : (journal interleaved).syncedNames ⟨[100], [97]⟩ = some 0 := by decide +kernel
  refine ⟨by decide +kernel, by decide +kernel, ?_, ?_, ?_, ?_⟩
  · rw [((hcrash (some 4)).2.2 _ 1 hone).1]
    decide +kernel
  · rw [((hcrash (some 6)).2.2 _ 1 hone).1]
    decide +kernel
  · rw [((hcrash none).2.2 _ 1 hone).2.1 rfl]
    decide +kernel
  · rw [((hcrash (some 0)).2.2 _ 0 hzero).2.2 rfl]
    decide +kernel

/-- A second handle empties the file under the first one, which then writes nothing behind
its end.  The latest call comes first. -/
def gapFilled : List Call :=
  [.write 0 [], .truncate 1 0, .openMode false ⟨[100], [97]⟩, .syncDir [100], .write 0 [1],
    .create ⟨[100], [97]⟩]

/-- The zeros that the empty write put into the gap are in the file and in no mutation, so
`RetainAllUnsynced` loses them, and a truncation after them is replayed out of bounds. -/
theorem crash_loses_filled_gap :
    ((runCalls gapFilled).crash none).live.lookup ⟨[100], [97]⟩ = some 0 ∧
      ((runCalls gapFilled).inodes 0).data = [0] ∧
      (((runCalls gapFilled).crash none).inodes 0).data = [] ∧
      (survivorsChecked none (runCalls (.truncate 1 0 :: gapFilled)).dirty fun n =>
        ((runCalls (.truncate 1 0 :: gapFilled)).inodes n).durable).isNone = true := by
  refine ⟨by decide +kernel, by decide +kernel, by decide +kernel, by decide +kernel⟩

end MiniQuorum.Lsm
