import MiniQuorum.Lsm.ManifestFile
import MiniQuorum.Lsm.Volumes

/-! The manifest on disk: what its bytes replay to, and what an append makes of it. -/

namespace MiniQuorum.Lsm

open Codec Program Volume

def ManifestOf (m : Marshaler VersionEdit) (bytes : Bytes) (s : ManifestState) : Prop :=
  ∃ payloads, bytes = manifestFormat.frames payloads ∧ (∀ p ∈ payloads, p.length < 2 ^ 32) ∧
    payloads.foldlM (applyEdit m) newManifestState = .ok s

def ManifestClean (m : Marshaler VersionEdit) (v : Volume) (p : Path) (s : ManifestState) : Prop :=
  ∃ n bytes, v.Settled p n bytes ∧ ManifestOf m bytes s ∧ bytes.length ≤ maxInt64

variable {m : Marshaler VersionEdit} {P : Path → Prop} {H : FileID → Prop} {v v' : Volume}
  {p : Path} {n : InodeID} {f : FileID} {bytes frame : Bytes} {s t : ManifestState}
  {edit : VersionEdit} {fs : SimFS}

theorem ManifestOf.append (hm : m.RoundTrips) (h : ManifestOf m bytes s)
    (hframe : encodeManifestFrame m edit = .ok frame) (hedit : s.apply edit = .ok t) :
    ManifestOf m (bytes ++ frame) t := by
  obtain ⟨hpayload, rfl⟩ := encodeManifestFrame_eq_ok_iff.1 hframe
  obtain ⟨payloads, rfl, hlen, hfold⟩ := h
  have happly : applyEdit m s (m.marshal edit) = .ok t := by
    rw [applyEdit, hm edit]
    dsimp only
    rw [hedit]
    rfl
  refine ⟨payloads ++ [m.marshal edit], ?_, ?_, ?_⟩
  · rw [Format.frames_append]
    simp [Format.frames]
  · intro p hp
    rcases List.mem_append.1 hp with hp | hp
    · exact hlen p hp
    · rw [List.mem_singleton.1 hp]
      exact Nat.lt_succ_of_le hpayload
  · exact foldlM_append_eq_ok.2 ⟨s, hfold, foldlM_cons_eq_ok.2 ⟨t, happly, rfl⟩⟩

theorem ManifestClean.keeps (h : ManifestClean m v p s) (hk : Keeps P H v v') (hp : P p) :
    ManifestClean m v' p s := by
  obtain ⟨n, bytes, hsettled, hbytes, hlen⟩ := h
  exact ⟨n, bytes, hsettled.keeps hk hp, hbytes, hlen⟩

theorem appendManifestEdit_spec {dir : Bytes} (hm : m.RoundTrips) (hedit : s.apply edit = .ok t)
    (hclean : ManifestClean m fs.toVolume ⟨dir, manifestFilename⟩ s) (hproper : fs.Proper) :
    wp (appendManifestEdit m dir edit)
      (fun o fs' => o.err = none → o = ⟨true, none, none⟩ ∧
        ManifestClean m fs'.toVolume ⟨dir, manifestFilename⟩ t ∧
        Keeps (· ≠ ⟨dir, manifestFilename⟩) (· ≠ fs.nextFile) fs.toVolume fs'.toVolume)
      (fun _ _ => True) fs := by
  have huncertain {Q : AppendOutcome → SimFS → Prop} (message : String) (f : FileID) (err : Err)
      (fs' : SimFS) : wp (uncertainAppend message f err) (fun o u => o.err = none → Q o u)
        (fun _ _ => True) fs' := by
    rw [uncertainAppend, wp_bind]
    exact wp_imp (wp_true _) fun _ _ _ => by rintro ⟨⟩
  rw [appendManifestEdit]
  cases hframe : encodeManifestFrame m edit with
  | error err => rintro ⟨⟩
  | ok frame =>
    obtain ⟨n, bytes, hsettled, hbytes, -⟩ := hclean
    generalize (⟨dir, manifestFilename⟩ : Path) = p at *
    rw [wp_bind, wp_attempt]
    refine wp_mono (SimFS.openMode_spec true p fs) ?_ (fun _ _ _ => by rintro ⟨⟩)
    rintro f opened ⟨k, hk, rfl, hvol⟩
    obtain rfl : n = k := Option.some.inj (hsettled.live.symm.trans hk)
    have hopened : opened.Opened fs.nextFile n ∧ (opened.files fs.nextFile).offset = bytes.length := by
      rw [hvol, files_newFile, if_pos rfl]
      exact ⟨opened_newFile n p _, by simp [hsettled.inode]⟩
    have hopen {H : FileID → Prop} : Keeps (fun _ => True) H fs.toVolume opened.toVolume := by
      rw [hvol]
      exact keeps_newFile (hproper.names_lt p n (.inl hk)) p _
    have hs₁ := hsettled.keeps (hopen (H := fun _ => True)) trivial
    have hfile : opened.OnFile p n fs.nextFile :=
      ⟨(hopen (H := fun _ => True)).proper hproper, hs₁.live, hopened.1⟩
    obtain ⟨hsynced₂, hnames, hkeeps⟩ := hfile.append (H := (· ≠ fs.nextFile))
      (congrArg SimInode.data hs₁.inode) hopened.2 frame
    have hs₂ : Settled _ p n (bytes ++ frame) := ⟨hsynced₂, hnames ▸ hs₁.durable⟩
    rw [wp_bind, wp_error?]
    refine wp_mono (SimFile.write_spec _ frame opened) ?_ (fun err fs' _ => huncertain _ _ err fs')
    rintro - written ⟨hfits, hwritten⟩
    rw [wp_bind, wp_error?]
    refine wp_mono (SimFile.sync_spec _ written) ?_ (fun err fs' _ => huncertain _ _ err fs')
    intro _ synced hsynced
    rw [hwritten] at hsynced
    rw [wp_bind, wp_error?]
    refine wp_mono (SimFile.close_spec _ synced) ?_ (fun _ _ _ => by rintro ⟨⟩)
    intro _ closed hclosed _
    rw [hsynced] at hclosed
    have hclose : Keeps (fun _ => True) (· ≠ fs.nextFile) _ closed.toVolume := hclosed ▸ keeps_close _
    refine ⟨rfl, ⟨n, bytes ++ frame, hs₂.keeps hclose trivial, hbytes.append hm hframe hedit, ?_⟩, ?_⟩
    · rw [List.length_append, ← hopened.2]
      exact hfits
    · exact (hopen.mono (fun _ _ => trivial) (fun _ h => h)).trans
        (hkeeps.trans (hclose.mono (fun _ _ => trivial) (fun _ h => h)))

end MiniQuorum.Lsm
