import MiniQuorum.Lsm.Manifest
import MiniQuorum.Storage.Refinement

/-! One changed byte in a log or a manifest, anywhere but in its last frame. -/

namespace MiniQuorum.Storage

open Codec

variable {m : Marshaler LogRecord}

theorem exists_payloads {F : Format} {produced : Bytes → Prop}
    (hF : ∀ f, produced f → ∃ p, p.length < 2 ^ 32 ∧ f = F.frame p) {fs : List Bytes}
    (h : ∀ f ∈ fs, produced f) :
    ∃ ps, fs.flatten = F.frames ps ∧ ∀ p ∈ ps, p.length < 2 ^ 32 := by
  induction fs with
  | nil => exact ⟨[], rfl, by simp⟩
  | cons f fs ih =>
    obtain ⟨p, hp, rfl⟩ := hF f (h f (by simp))
    obtain ⟨ps, hps, hlen⟩ := ih fun g hg => h g (by simp [hg])
    exact ⟨p :: ps, by rw [List.flatten_cons, hps]; rfl, List.forall_mem_cons.mpr ⟨hp, hlen⟩⟩

def LogFrame (m : Marshaler LogRecord) (f : Bytes) : Prop := ∃ r, appendFrame m [] r = .ok f

theorem LogFrame.payload (f : Bytes) (h : LogFrame m f) :
    ∃ p, p.length < 2 ^ 32 ∧ f = frameFormat.frame p := by
  obtain ⟨r, hr⟩ := h
  obtain ⟨hlen, rfl⟩ := appendFrame_eq_ok hr
  refine ⟨m.marshal r, ?_, rfl⟩
  simp only [maxUint32] at hlen
  omega

def ManifestFrame (m : Marshaler Lsm.VersionEdit) (f : Bytes) : Prop :=
  ∃ edit, Lsm.encodeManifestFrame m edit = .ok f

theorem ManifestFrame.payload {m : Marshaler Lsm.VersionEdit} (f : Bytes)
    (h : ManifestFrame m f) : ∃ p, p.length < 2 ^ 32 ∧ f = Lsm.manifestFormat.frame p := by
  obtain ⟨edit, hedit⟩ := h
  obtain ⟨hlen, rfl⟩ := Lsm.encodeManifestFrame_eq_ok_iff.mp hedit
  refine ⟨m.marshal edit, ?_, rfl⟩
  simp only [maxUint32] at hlen
  omega

theorem replayFrom_changed {σ ε : Type*} {F : Format} {produced : Bytes → Prop}
    (hF : ∀ f, produced f → ∃ p, p.length < 2 ^ 32 ∧ f = F.frame p)
    (apply : σ → Bytes → Except ε σ) (s : σ) {pre post : List Bytes} {f : Bytes} {k : Nat}
    {c : UInt8} (hframes : ∀ g ∈ pre ++ f :: post, produced g) (hk : k < f.length)
    (hne : f[k] ≠ c) :
    (∃ fault, F.replayFrom apply s 0 (pre ++ f.set k c :: post).flatten = .error fault) ∨
      post = [] ∧ ∃ r, F.replayFrom apply s 0 (pre ++ f.set k c :: post).flatten = .ok r ∧
        r.torn = true := by
  have hpre : ∀ g ∈ pre, produced g := fun g hg => hframes g (by simp [hg])
  obtain ⟨ps, hps, hlen⟩ := exists_payloads hF hpre
  obtain ⟨p, hp, rfl⟩ := hF f (hframes f (by simp))
  have hrest : post.flatten = [] ∨ ∃ more, post.flatten = F.start :: more := by
    cases post with
    | nil => exact .inl rfl
    | cons g post =>
      obtain ⟨q, -, rfl⟩ := hF g (hframes g (by simp))
      exact .inr ⟨_, rfl⟩
  have hbytes : (pre ++ (F.frame p).set k c :: post).flatten =
      F.frames ps ++ ((F.frame p).set k c ++ post.flatten) := by
    rw [List.flatten_append, hps, List.flatten_cons]
  rw [hbytes]
  rcases F.replayFrom_frames_set apply s 0 hlen hp hk hne hrest with h | ⟨hnil, h⟩
  · exact .inl h
  · refine .inr ⟨?_, h⟩
    cases post with
    | nil => rfl
    | cons g post =>
      obtain ⟨q, -, rfl⟩ := hF g (hframes g (by simp))
      cases hnil

theorem replaySegments_changed {dir : Dir} {segs : List (List Bytes)} {pre post : List Bytes}
    {f : Bytes} {k : Nat} {c : UInt8} (first : Nat) (rest : List Nat) (s : MemStorage)
    (hread : ∀ i fs, segs[i]? = some fs → dir.read (first + i) = some fs.flatten)
    (hsegs : ∀ fs ∈ segs, ∀ g ∈ fs, LogFrame m g)
    (hchanged : dir.read (first + segs.length) = some (pre ++ f.set k c :: post).flatten)
    (hframes : ∀ g ∈ pre ++ f :: post, LogFrame m g) (hk : k < f.length) (hne : f[k] ≠ c)
    (hlast : post ≠ [] ∨ rest ≠ []) :
    ∃ e, replaySegments m dir s
        (List.range' first segs.length ++ (first + segs.length) :: rest) = (dir, .error e) ∧
      e.isCorrupt = true := by
  induction segs generalizing first s with
  | nil =>
    have hseg : ∃ e, replaySegment m dir s first rest.isEmpty = (dir, .error e) ∧
        e.isCorrupt = true := by
      rw [replaySegment, show dir.read first = _ from hchanged]
      dsimp only
      rcases replayFrom_changed LogFrame.payload (applyPayload m) s hframes hk hne with
        ⟨fault, hfault⟩ | ⟨hpost, r, hr, htorn⟩
      · rw [hfault]
        exact ⟨_, rfl, rfl⟩
      · rw [hr]
        have hmore : rest.isEmpty = false := by
          rcases hlast with h | h
          · exact absurd hpost h
          · simpa using h
        simp only [htorn, hmore]
        exact ⟨_, rfl, rfl⟩
    obtain ⟨e, he, hcorrupt⟩ := hseg
    refine ⟨e, ?_, hcorrupt⟩
    show replaySegments m dir s (first :: rest) = _
    rw [replaySegments, he]
  | cons fs segs ih =>
    obtain ⟨ps, hps, hlen⟩ := exists_payloads LogFrame.payload (hsegs fs (by simp))
    have hmore : (List.range' (first + 1) segs.length ++ (first + (segs.length + 1)) :: rest).isEmpty
        = false := by simp
    rw [List.length_cons, List.range'_succ, List.cons_append, replaySegments, hmore, replaySegment,
      show dir.read first = _ from hread 0 fs rfl]
    dsimp only
    rw [hps]
    rcases frameFormat.replayFrom_frames_total (applyPayload m) s 0 hlen with
      ⟨fault, hfault⟩ | ⟨r, hr, hwhole⟩
    · rw [hfault]
      exact ⟨_, rfl, rfl⟩
    · rw [hr]
      simp only [hwhole, Bool.not_false, if_true]
      have := ih (first + 1) r.state (fun i gs hgs => by
          rw [Nat.add_assoc, Nat.add_comm 1]
          exact hread (i + 1) gs hgs) (fun gs hgs => hsegs gs (by simp [hgs]))
        (by rw [Nat.add_assoc, Nat.add_comm 1]; exact hchanged)
      rwa [Nat.add_assoc, Nat.add_comm 1] at this

/-- Changing any one byte of a frame that is not the last one makes recovery report
corruption and leave every file as it was; likewise for the manifest. -/
theorem single_byte_change_detected (m : Marshaler LogRecord) (mv : Marshaler Lsm.VersionEdit) :
    (∀ (rotateSize : Nat) (before after : List (List Bytes)) (pre post : List Bytes) (f : Bytes)
      (k : Nat) (c : UInt8) (hk : k < f.length),
      (∀ fs ∈ before ++ (pre ++ f :: post) :: after, ∀ g ∈ fs, LogFrame m g) → f[k] ≠ c →
      (post ≠ [] ∨ after ≠ []) →
      let dir := numbered 1 ((before ++ (pre ++ f.set k c :: post) :: after).map List.flatten)
      ∃ e, DiskLog.openLog m dir rotateSize = (dir, .error e) ∧ e.isCorrupt = true) ∧
    ∀ (pre post : List Bytes) (f : Bytes) (k : Nat) (c : UInt8) (hk : k < f.length),
      (∀ g ∈ pre ++ f :: post, ManifestFrame mv g) → f[k] ≠ c → post ≠ [] →
      ∃ fault, Lsm.replayManifestBytes mv (pre ++ f.set k c :: post).flatten = .error fault := by
  constructor
  · intro rotateSize before after pre post f k c hk hframes hne hlast dir
    have hread (i : Nat) : dir.read (1 + i) =
        (before ++ (pre ++ f.set k c :: post) :: after)[i]?.map List.flatten := by
      rw [read_numbered, List.getElem?_map]
    have hbefore : ∀ i fs, before[i]? = some fs → dir.read (1 + i) = some fs.flatten := by
      intro i fs hfs
      have hi : i < before.length := (List.getElem?_eq_some_iff.mp hfs).1
      rw [hread, List.getElem?_append_left hi, hfs]
      rfl
    have hchanged : dir.read (1 + before.length) = some (pre ++ f.set k c :: post).flatten := by
      rw [hread, List.getElem?_append_right le_rfl, Nat.sub_self]
      rfl
    obtain ⟨e, he, hcorrupt⟩ := replaySegments_changed 1
      (List.range' (1 + before.length + 1) after.length) MemStorage.empty hbefore
      (fun fs hfs => hframes fs (by simp [hfs])) hchanged (hframes _ (by simp)) hk hne
      (hlast.imp_right fun h => by simpa using h)
    have hseqs : listSegments dir = .ok (List.range' 1 before.length ++
        (1 + before.length) :: List.range' (1 + before.length + 1) after.length) := by
      rw [listSegments_numbered, ← List.range'_succ, List.range'_append_1]
      simp
    refine ⟨e, ?_, hcorrupt⟩
    rw [DiskLog.openLog, if_neg (by omega), hseqs]
    dsimp only
    rw [List.getLast?_append_cons]
    simp only [List.getLast?_cons, he]
  · intro pre post f k c hk hframes hne hpost
    rcases replayFrom_changed ManifestFrame.payload (Lsm.applyEdit mv) Lsm.newManifestState
      hframes hk hne with h | ⟨hnil, -⟩
    · exact h
    · exact absurd hnil hpost

theorem single_byte_change_detected_terminator :
    let f := frameFormat.frame (recordWire.put (.truncate 1))
    LogFrame recordWire.marshaler f ∧ f[19]? = some 0x40 ∧
      let dir := numbered 1 [f, f.set 19 0xFB ++ f]
      ∃ e, DiskLog.openLog recordWire.marshaler dir 1 = (dir, .error e) ∧ e.isCorrupt = true := by
  intro f
  have hframe : LogFrame recordWire.marshaler f := ⟨.truncate 1, by decide +kernel⟩
  refine ⟨hframe, by decide +kernel, ?_⟩
  have := (single_byte_change_detected recordWire.marshaler ⟨fun _ => [], fun _ => none⟩).1 1
    [[f]] [] [] [f] f 19 0xFB (by decide +kernel) (by simpa using hframe) (by decide +kernel)
    (by simp)
  simpa using this

end MiniQuorum.Storage
