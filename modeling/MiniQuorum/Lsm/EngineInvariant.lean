import MiniQuorum.Lsm.FileNumbers
import MiniQuorum.Lsm.ManifestSpec
import MiniQuorum.Lsm.StoredTables

/-! What an engine and the disk under it represent: a version, its tables on the platter, the
manifest that names them and a handle on each.  Removing obsolete files keeps it. -/

namespace MiniQuorum.Lsm

open Codec Program Volume Raft

variable {m : Marshaler VersionEdit} {P : Path → Prop} {H : FileID → Prop} {V : Version}
  {engine : Engine} {v v' : Volume} {s : Store} {o : ObsoleteFile}

def manifestPath (dir : Bytes) : Path := ⟨dir, manifestFilename⟩

def Protected (dir : Bytes) (V : Version) (p : Path) : Prop :=
  p = manifestPath dir ∨ ∃ t ∈ V.tables, p = ⟨dir, t.metadata.file⟩

def Engine.Unused (engine : Engine) (p : Path) : Prop :=
  ∃ k, engine.nextFileNumber ≤ k ∧ k < maxUint64 ∧ p = engine.path (sstableFilename k)

/-- No table is lost with the file, whose name is not about to be used again. -/
structure Retirable (V : Version) (engine : Engine) (v : Volume) (o : ObsoleteFile) : Prop where
  unprotected : ¬Protected engine.dir V o.path
  unused : ¬engine.Unused o.path
  handle : ∀ f ∈ o.file, f < v.nextFile ∧ ∀ table ∈ engine.tables, table.file ≠ f

/-- The engine on the volume is the version.  Its handles are gone with a crash. -/
structure Inv (m : Marshaler VersionEdit) (V : Version) (engine : Engine) (v : Volume) : Prop where
  manifest : engine.manifest = V.manifest
  sound : V.Sound
  listed : (engine.tables.map TableHandle.metadata).Perm V.manifest.files
  distinct : (engine.tables.map TableHandle.file).Nodup
  bounded : engine.nextFileNumber ≤ maxUint64
  proper : v.Proper
  clean : ManifestClean m v (manifestPath engine.dir) V.manifest
  stored : ∀ t ∈ V.tables, Stored v engine.dir t
  obsolete : ∀ o ∈ engine.obsolete, Retirable V engine v o
  published : v.crashed = false → ∀ table ∈ engine.tables, ∃ t ∈ V.tables,
    Serves v engine.dir table t
  absent : v.crashed = false → ∀ p, engine.Unused p → p ∉ v.live

def Holds (m : Marshaler VersionEdit) (V : Version) (s : Store) : Prop :=
  Inv m V s.engine s.fs.toVolume

theorem Inv.unprotected (h : Inv m V engine v) (hrunning : v.crashed = false) {p : Path}
    (hp : engine.Unused p) : ¬Protected engine.dir V p := by
  have hlive {q : Path} {n : InodeID} {b : Bytes} (hs : v.Settled q n b) : q ∈ v.live :=
    AList.lookup_isSome.1 (by rw [hs.live]; rfl)
  rintro (rfl | ⟨t, ht, rfl⟩)
  · obtain ⟨n, b, hs, -⟩ := h.clean
    exact h.absent hrunning _ hp (hlive hs)
  · obtain ⟨n, b, reader, hs, -⟩ := h.stored t ht
    exact h.absent hrunning _ hp (hlive hs)

theorem Inv.lt_nextFile (h : Inv m V engine v) (hrunning : v.crashed = false) {table : TableHandle}
    (htable : table ∈ engine.tables) : table.file < v.nextFile := by
  obtain ⟨t, -, hserves⟩ := h.published hrunning table htable
  exact hserves.lt

theorem Inv.keeps (h : Inv m V engine v) (hk : Keeps P H v v')
    (hP : ∀ p, Protected engine.dir V p ∨ engine.Unused p → P p)
    (hH : v.crashed = false → ∀ table ∈ engine.tables, H table.file) : Inv m V engine v' := by
  have hfile (t : Table) (ht : t ∈ V.tables) := hP _ (.inl (.inr ⟨t, ht, rfl⟩))
  refine { h with
    proper := hk.proper h.proper
    clean := h.clean.keeps hk (hP _ (.inl (.inl rfl)))
    stored := fun t ht => (h.stored t ht).keeps hk (hfile t ht)
    obsolete := fun o ho => { h.obsolete o ho with handle := fun f hf => ?_ }
    published := fun hrunning table htable => ?_
    absent := fun hrunning p hp hlive => ?_ }
  · obtain ⟨hlt, hspared⟩ := (h.obsolete o ho).handle f hf
    exact ⟨hlt.trans_le hk.nextFile, hspared⟩
  · have hrun := hk.crashed ▸ hrunning
    obtain ⟨t, ht, hserves⟩ := h.published hrun table htable
    exact ⟨t, ht, hserves.keeps hk (hfile t ht) (hH hrun table htable)⟩
  · refine h.absent (hk.crashed ▸ hrunning) p hp (AList.lookup_isSome.1 ?_)
    rw [← hk.live p (hP p (.inr hp))]
    exact AList.lookup_isSome.2 hlive

/-! ### Obsolete files -/

structure Reconciling (m : Marshaler VersionEdit) (V : Version) (engine : Engine) (s : Store) :
    Prop where
  inv : Inv m V engine s.fs.toVolume
  engine : s.engine = { engine with obsoleteDirDirty := s.engine.obsoleteDirDirty }

theorem Failed.keeps {w u : Volume} {e : Err} (h : Failed v (· = u) e w)
    (he : e ≠ .simulatedCrash) (hk : Keeps P H v u) : Keeps P H v w := by
  rcases h.resolve_left he with rfl | rfl
  · exact .refl
  · exact hk

theorem Reconciling.moved (h : Reconciling m V engine s) (ho : o ∈ engine.obsolete) {fs : SimFS}
    (hk : Keeps (· ≠ o.path) (· ∉ o.file) s.fs.toVolume fs.toVolume) (dirty : Bool) :
    Reconciling m V engine ⟨{ s.engine with obsoleteDirDirty := dirty }, fs⟩ := by
  have hretire := h.inv.obsolete o ho
  refine ⟨h.inv.keeps hk ?_ fun _ table htable hfile => ?_, by rw [h.engine]⟩
  · rintro p hp rfl
    exact hp.elim hretire.unprotected hretire.unused
  · exact (hretire.handle _ hfile).2 table htable rfl

theorem removeObsolete_spec (ho : o ∈ engine.obsolete) :
    wp (removeObsolete o.path)
      (fun r s' => r.2 = none → Reconciling m V engine s →
        r.1 = none ∧ Reconciling m V engine s')
      (fun _ _ => False) s := by
  have hremove (v : Volume) : Keeps (· ≠ o.path) (· ∉ o.file) v (v.remove o.path) :=
    keeps_remove o.path
  rw [removeObsolete, wp_bind, wp_modifyEngine, wp_bind, wp_onFS, wp_error?]
  refine wp_mono (SimFS.remove_spec _ _) ?_ ?_
  · intro _ fs' hvol _ h
    exact ⟨rfl, h.moved ho (hvol ▸ hremove _) true⟩
  · intro e fs' hfailed
    refine wp_ite ?_ ?_
    · intro hmissing _ h
      refine ⟨rfl, h.moved ho (hfailed.keeps ?_ (hremove _)) true⟩
      rintro rfl
      cases hmissing
    · rintro - ⟨⟩

theorem reconcileFile_spec (ho : o ∈ engine.obsolete) :
    wp (reconcileFile o)
      (fun r s' => r.2 = none → Reconciling m V engine s →
        r.1 = none ∧ Reconciling m V engine s')
      (fun _ _ => False) s := by
  rw [reconcileFile]
  cases hfile : o.file with
  | none => exact removeObsolete_spec ho
  | some f =>
    have hclose (v : Volume) : Keeps (· ≠ o.path) (· ∉ o.file) v (v.close f) := by
      rw [hfile]
      exact (keeps_close f).mono (fun _ h => h) fun g hg heq => hg (heq ▸ rfl)
    have hremove {fs : SimFS}
        (hk : Keeps (· ≠ o.path) (· ∉ o.file) s.fs.toVolume fs.toVolume) :
        wp (removeObsolete o.path) (fun r s' => r.2 = none → Reconciling m V engine s →
          r.1 = none ∧ Reconciling m V engine s') (fun _ _ => False) { s with fs } := by
      refine wp_mono (removeObsolete_spec ho) (fun r s' h hnone hs => h hnone ?_) (fun _ _ h => h)
      exact hs.moved ho hk s.engine.obsoleteDirDirty
    show wp (_ >>= _) _ _ _
    rw [wp_bind, wp_onFS, wp_error?]
    refine wp_mono (SimFile.close_spec _ _) ?_ ?_
    · intro _ fs' hvol
      exact hremove (hvol ▸ hclose _)
    · intro e fs' hfailed
      refine wp_ite ?_ ?_
      · intro hclosed
        refine hremove (hfailed.keeps ?_ (hclose _))
        rintro rfl
        cases hclosed
      · rintro - ⟨⟩

def Reconciled (engine engine' : Engine) : Prop :=
  engine' = { engine with
    obsolete := engine'.obsolete
    obsoleteDirDirty := engine'.obsoleteDirDirty }

theorem Reconciling.done (h : Reconciling m V engine s) {fs : SimFS}
    (hk : Keeps (fun _ => True) (fun _ => True) s.fs.toVolume fs.toVolume) (dirty : Bool) :
    Holds m V ⟨{ s.engine with obsolete := [], obsoleteDirDirty := dirty }, fs⟩ ∧
      Reconciled engine { s.engine with obsolete := [], obsoleteDirDirty := dirty } := by
  have hinv := h.inv.keeps hk (fun _ _ => trivial) fun _ _ _ => trivial
  rw [Holds, Reconciled, h.engine]
  exact ⟨{ hinv with obsolete := fun _ ho => absurd ho List.not_mem_nil }, rfl⟩

theorem Err.joined_eq_none {first second : Option Err} :
    Err.joined first second = none ↔ first = none ∧ second = none := by
  cases first <;> cases second <;> simp [Err.joined]

theorem reconcileObsoleteLocked_spec (h : Holds m V s) :
    wp reconcileObsoleteLocked
      (fun r s' => r = none → Holds m V s' ∧ Reconciled s.engine s'.engine)
      (fun _ _ => False) s := by
  rw [reconcileObsoleteLocked, wp_bind, wp_getEngine]
  refine wp_ite ?_ fun _ _ => ⟨h, rfl⟩
  intro _
  rw [wp_bind]
  -- as long as no file has failed, none is left
  refine wp_mono (wp_foldlM (fun _ acc s' => acc.2 = none →
    acc.1 = [] ∧ Reconciling m V s.engine s') (fun _ => ⟨rfl, h, rfl⟩) ?_) ?_ (fun _ _ h => h)
  · rintro done o rest ⟨left, err⟩ s₁ hsplit hacc
    have ho : o ∈ s.engine.obsolete := by simp [hsplit]
    rw [wp_bind]
    refine wp_mono (reconcileFile_spec (m := m) (V := V) ho) ?_ (fun _ _ h => h)
    rintro ⟨left', err'⟩ s₂ hstep hnone
    obtain ⟨rfl, rfl⟩ := Err.joined_eq_none.1 hnone
    obtain ⟨rfl, h₁⟩ := hacc rfl
    obtain ⟨rfl, h₂⟩ := hstep rfl h₁
    exact ⟨rfl, h₂⟩
  · rintro ⟨pending, combined⟩ s₁ hacc
    rw [wp_bind, wp_modifyEngine, syncObsoleteDir, wp_bind, wp_getEngine]
    refine wp_ite ?_ ?_
    · intro _
      rw [wp_bind, wp_onFS, wp_error?]
      refine wp_mono (SimFS.syncDir_spec _ _) ?_ ?_
      · intro _ fs' hvol hnone
        obtain ⟨rfl, h₁⟩ := hacc hnone
        exact h₁.done (hvol ▸ keeps_syncDir _) false
      · intro e fs' _ hnone
        cases (Err.joined_eq_none.1 hnone).2
    · intro _ hnone
      obtain ⟨rfl, h₁⟩ := hacc hnone
      exact h₁.done .refl s₁.engine.obsoleteDirDirty

end MiniQuorum.Lsm
