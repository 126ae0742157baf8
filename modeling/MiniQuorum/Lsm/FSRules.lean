import MiniQuorum.Lsm.SimFS
import MiniQuorum.Program.Reading

/-! What each filesystem operation does when it returns, and how it can leave the volume when
it returns an error that is no crash. -/

namespace MiniQuorum.Lsm

open Codec Program

theorem Namespace.lookup_syncDir (durable live : Namespace) (dir : Bytes) (p : Path) :
    (durable.syncDir live dir).lookup p =
      if p.dir = dir then live.lookup p else durable.lookup p := by
  ext n
  have hsync := List.mem_dlookup_iff (a := p) (b := n) (durable.syncDir live dir).nodupKeys
  have hlive := List.mem_dlookup_iff (a := p) (b := n) live.nodupKeys
  have hdurable := List.mem_dlookup_iff (a := p) (b := n) durable.nodupKeys
  rw [Option.mem_def] at hsync hlive hdurable
  rw [AList.lookup, hsync, Namespace.syncDir, List.mem_append, List.mem_filter, List.mem_filter]
  by_cases hdir : p.dir = dir
  · rw [if_pos hdir, AList.lookup, hlive]
    simp [hdir]
  · rw [if_neg hdir, AList.lookup, hdurable]
    simp [hdir]

theorem Volume.eq_of_ok {α : Type} {a b : α} {v w : Volume}
    (h : (Except.ok (a, v) : Except Err (α × Volume)) = .ok (b, w)) : b = a ∧ w = v :=
  Prod.mk.inj (Except.ok.inj h.symm)

/-- The operation failed with `e`.  Unless that is a crash, it did nothing or all it does. -/
def Failed (v : Volume) (after : Volume → Prop) (e : Err) (w : Volume) : Prop :=
  e = .simulatedCrash ∨ w = v ∨ after w

namespace SimFS

theorem fault_spec (key : SimFaultKey) (fs : SimFS) :
    wp (fault key) (fun _ fs' => fs' = fs)
      (fun e fs' => e = .simulatedCrash ∨ fs'.toVolume = fs.toVolume) fs := by
  rw [fault, wp_bind, wp_get]
  dsimp only
  split
  · exact .inr rfl
  · split
    · exact .inl rfl
    · rw [wp_pure]

theorem beginOp_spec (op : FSOp) (fs : SimFS) :
    wp (beginOp op) (fun _ fs' => fs.crashed = false ∧ fs'.toVolume = fs.toVolume)
      (fun e fs' => e = .simulatedCrash ∨ fs'.toVolume = fs.toVolume) fs := by
  simp only [beginOp, wp_bind, wp_get, wp_failIf, wp_set]
  refine ⟨fun _ => .inl trivial, fun hrunning => wp_mono (fault_spec _ _) ?_ (fun _ _ h => h)⟩
  rintro - fs' rfl
  exact ⟨Bool.eq_false_iff.2 hrunning, rfl⟩

variable {α : Type}

theorem perform_spec (op : FSOp) (effect : Volume → Except Err (α × Volume)) (fs : SimFS) :
    wp (perform op effect)
      (fun a fs' => fs.crashed = false ∧ effect fs.toVolume = .ok (a, fs'.toVolume))
      (fun e fs' => Failed fs.toVolume (fun w => ∃ a, effect fs.toVolume = .ok (a, w)) e
        fs'.toVolume) fs := by
  simp only [perform, wp_bind]
  refine wp_mono (beginOp_spec op fs) ?_ (fun _ _ h => h.imp_right .inl)
  rintro occurrence started ⟨hrunning, hvol⟩
  rw [wp_get, hvol]
  cases heffect : effect fs.toVolume with
  | error err => exact .inr (.inl hvol)
  | ok r =>
    obtain ⟨a, w⟩ := r
    simp only [wp_bind, wp_set, finishOp]
    refine wp_mono (fault_spec _ _) ?_ ?_
    · rintro - fs' rfl
      exact ⟨hrunning, rfl⟩
    · rintro e fs' (hcrash | hdone)
      · exact .inl hcrash
      · exact .inr (.inr ⟨a, by rw [hdone]⟩)

theorem lookup_eq_ok {v : Volume} {name : Path} {node : InodeID} :
    lookup v name = .ok node ↔ v.live.lookup name = some node := by
  rw [lookup]
  cases v.live.lookup name <;> simp

theorem create_spec (name : Path) (fs : SimFS) :
    wp (create name)
      (fun f fs' => fs.crashed = false ∧ f = fs.nextFile ∧
        fs'.toVolume = (fs.toVolume.create name).newFile fs.nextInode name 0)
      (fun _ _ => True) fs := by
  rw [create, wp_bind]
  refine wp_imp (perform_spec _ _ _) ?_
  rintro node mid ⟨hrunning, heffect⟩
  split at heffect
  · cases heffect
  · obtain ⟨rfl, hvol⟩ := Volume.eq_of_ok heffect
    refine ⟨hrunning, ?_, ?_⟩
    · rw [hvol]
      rfl
    · rw [hvol]

theorem openMode_spec (appendMode : Bool) (name : Path) (fs : SimFS) :
    wp (openMode appendMode name)
      (fun f fs' => ∃ node, fs.live.lookup name = some node ∧ f = fs.nextFile ∧
        fs'.toVolume = fs.toVolume.newFile node name
          (if appendMode then (fs.inodes node).data.length else 0))
      (fun _ _ => True) fs := by
  rw [openMode, wp_bind]
  refine wp_imp (perform_spec _ _ _) ?_
  rintro ⟨node, offset⟩ mid ⟨-, heffect⟩
  obtain ⟨n, hn, heq⟩ := bind_eq_ok.1 heffect
  obtain ⟨hpair, hvol⟩ := Volume.eq_of_ok heq
  obtain ⟨rfl, rfl⟩ := Prod.mk.inj hpair
  refine ⟨node, lookup_eq_ok.1 hn, ?_, ?_⟩
  · rw [hvol]
  · rw [hvol]

theorem stat_spec (name : Path) (fs : SimFS) :
    wp (stat name)
      (fun size fs' => ∃ node, fs.live.lookup name = some node ∧
        size = (fs.inodes node).data.length ∧ fs'.toVolume = fs.toVolume)
      (fun _ _ => True) fs := by
  refine wp_imp (perform_spec _ _ _) ?_
  rintro size fs' ⟨-, heffect⟩
  obtain ⟨n, hn, heq⟩ := bind_eq_ok.1 heffect
  obtain ⟨rfl, hvol⟩ := Volume.eq_of_ok heq
  exact ⟨n, lookup_eq_ok.1 hn, rfl, hvol⟩

theorem syncDir_spec (dir : Bytes) (fs : SimFS) :
    wp (syncDir dir) (fun _ fs' => fs'.toVolume = fs.toVolume.syncDir dir) (fun _ _ => True) fs := by
  refine wp_imp (perform_spec _ _ _) ?_
  rintro _ fs' ⟨-, heffect⟩
  exact (Volume.eq_of_ok heffect).2

theorem remove_spec (name : Path) (fs : SimFS) :
    wp (remove name) (fun _ fs' => fs'.toVolume = fs.toVolume.remove name)
      (fun e fs' => Failed fs.toVolume (· = fs.toVolume.remove name) e fs'.toVolume) fs := by
  have heffect {a : Unit} {w : Volume} (h : (if name ∉ fs.live then .error Err.notExist
      else .ok ((), fs.toVolume.remove name)) = Except.ok (a, w)) : w = fs.toVolume.remove name := by
    split at h
    · cases h
    · exact (Volume.eq_of_ok h).2
  refine wp_mono (perform_spec _ _ _) ?_ ?_
  · rintro _ fs' ⟨-, h⟩
    exact heffect h
  · intro e fs' h
    refine h.imp_right (.imp_right ?_)
    rintro ⟨a, h⟩
    exact heffect h

end SimFS

namespace SimFile

open SimFS

variable {α : Type}

theorem perform_spec (f : FileID) (op : FSOp) (effect : Volume → Except Err (α × Volume))
    (fs : SimFS) :
    wp (perform f op effect) (fun a fs' => effect fs.toVolume = .ok (a, fs'.toVolume))
      (fun e fs' => Failed fs.toVolume (fun w => ∃ a, effect fs.toVolume = .ok (a, w)) e
        fs'.toVolume) fs := by
  simp only [perform, wp_bind, wp_get, wp_failIf]
  refine ⟨fun _ => .inr (.inl rfl), fun _ => ?_⟩
  exact wp_mono (SimFS.perform_spec op effect fs) (fun _ _ h => h.2) (fun _ _ h => h)

theorem write_spec (f : FileID) (src : Bytes) (fs : SimFS) :
    wp (write f src)
      (fun _ fs' => (fs.files f).offset + src.length ≤ maxInt64 ∧
        fs'.toVolume = fs.toVolume.write f src)
      (fun _ _ => True) fs := by
  refine wp_imp (perform_spec f _ _ fs) ?_
  intro _ fs' heffect
  split at heffect
  · cases heffect
  · next hfits => exact ⟨not_lt.1 hfits, (Volume.eq_of_ok heffect).2⟩

theorem sync_spec (f : FileID) (fs : SimFS) :
    wp (sync f) (fun _ fs' => fs'.toVolume = fs.toVolume.sync f) (fun _ _ => True) fs := by
  refine wp_imp (perform_spec f _ _ fs) ?_
  intro _ fs' heffect
  exact (Volume.eq_of_ok heffect).2

theorem close_spec (f : FileID) (fs : SimFS) :
    wp (close f) (fun _ fs' => fs'.toVolume = fs.toVolume.close f)
      (fun e fs' => Failed fs.toVolume (· = fs.toVolume.close f) e fs'.toVolume) fs := by
  refine wp_mono (perform_spec f _ _ fs) ?_ ?_
  · intro _ fs' heffect
    exact (Volume.eq_of_ok heffect).2
  · intro e fs' h
    refine h.imp_right (.imp_right ?_)
    rintro ⟨a, heffect⟩
    exact (Volume.eq_of_ok heffect).2

def slice (data : Bytes) (length offset : Nat) : Option Bytes :=
  if ((data.drop offset).take length).length = length then some ((data.drop offset).take length)
  else none

theorem readAt_spec (f : FileID) (length offset : Nat) (fs : SimFS) :
    wp (readAt f length offset)
      (fun read fs' => (read.1 = [] ∨ read.1 = ((fs.bytes f).drop offset).take length) ∧
        (read.2 = some .simulatedCrash ∨ fs'.toVolume = fs.toVolume))
      (fun _ _ => False) fs := by
  simp only [readAt, beginOp, wp_bind, wp_attempt, wp_get, wp_failIf]
  refine ⟨fun _ => ⟨.inl rfl, .inr rfl⟩, fun _ => ?_⟩
  refine wp_mono (SimFS.beginOp_spec .read fs) ?_ ?_
  · rintro occurrence started ⟨-, hvol⟩
    simp only [finishOp, hvol]
    refine wp_mono (fault_spec _ started) ?_ ?_
    · rintro - fs' rfl
      exact wp_ite (fun _ => ⟨.inr rfl, .inr hvol⟩) fun _ => ⟨.inr rfl, .inr hvol⟩
    · intro e fs' h
      exact ⟨.inr rfl, h.imp (congrArg some) fun h => h.trans hvol⟩
  · intro e fs' h
    exact ⟨.inl rfl, h.imp_left (congrArg some)⟩

theorem readAtFull_spec (f : FileID) (length offset : Nat) (fs : SimFS) :
    wp (readAtFull f length offset)
      (fun dst fs' => slice (fs.bytes f) length offset = some dst ∧ fs'.toVolume = fs.toVolume)
      (fun _ _ => True) fs := by
  rw [readAtFull, wp_bind]
  refine wp_imp (readAt_spec f length offset fs) ?_
  rintro ⟨dst, err⟩ fs' ⟨hdst, hvol⟩
  refine wp_ite (fun _ => trivial) fun hfull => ?_
  have hslice : slice (fs.bytes f) length offset = some dst := by
    rcases hdst with rfl | rfl
    · obtain rfl : 0 = length := not_not.1 hfull
      rfl
    · exact if_pos (not_not.1 hfull)
  cases err with
  | none => exact ⟨hslice, hvol.resolve_left (by simp)⟩
  | some e =>
    refine wp_ite (fun heof => ⟨hslice, hvol.resolve_left ?_⟩) fun _ => trivial
    rintro ⟨⟩
    cases heof

theorem run_spec {α : Type} (f : FileID) (x : Reading Err α) (fs : SimFS) :
    wp (x.run (readAtFull f))
      (fun a fs' => x.eval (slice (fs.bytes f)) .eof = .ok a ∧ fs'.toVolume = fs.toVolume)
      (fun _ _ => True) fs := by
  induction x generalizing fs with
  | done a => exact ⟨rfl, rfl⟩
  | fail e => trivial
  | read length offset onError next ih =>
    simp only [Reading.run, wp_bind, wp_wrap]
    refine wp_imp (readAtFull_spec f length offset fs) ?_
    rintro b mid ⟨hslice, hvol⟩
    simp only [Reading.eval, hslice]
    refine wp_imp (ih b mid) ?_
    rintro a fs' ⟨heval, hvol'⟩
    rw [hvol] at heval
    exact ⟨heval, hvol'.trans hvol⟩

end SimFile

end MiniQuorum.Lsm
