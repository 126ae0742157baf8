import MiniQuorum.Codec.ByteOrder
import Mathlib.Order.Defs.LinearOrder
import MiniQuorum.Codec.Crc
import MiniQuorum.Codec.Frame
import MiniQuorum.Codec.Wire
import MiniQuorum.Program.Reading
import MiniQuorum.Raft.Types

/-! The manifest: framed version edits, replayed into the set of referenced tables. -/

namespace MiniQuorum.Lsm

open Codec Program

abbrev FileName := Bytes

structure FileMetadata where
  tier : Nat
  file : FileName
  minKey : Bytes
  maxKey : Bytes
  count : Nat
  deriving DecidableEq, Repr

structure VersionEdit where
  addedFiles : List FileMetadata
  removedFiles : List FileName
  flushedIndex : Nat
  deriving DecidableEq, Repr

/-- `files` is a map keyed by the metadata's own file name. -/
structure ManifestState where
  files : List FileMetadata
  flushedIndex : Nat
  records : Nat
  deriving DecidableEq, Repr

def newManifestState : ManifestState := ⟨[], 0, 0⟩

inductive EditError
  | flushedIndexRegresses (current edit : Nat)
  | emptyEdit
  | removedInvalidName (name : FileName)
  | removedTwice (name : FileName)
  | removedUnreferenced (name : FileName)
  | addedInvalidName (name : FileName)
  | addedTwice (name : FileName)
  | addedAndRemoved (name : FileName)
  | addedReferenced (name : FileName)
  | zeroEntries (name : FileName)
  | keyOrder (name : FileName)
  deriving DecidableEq, Repr

def sstableFilenameSuffix : FileName := [0x2e, 0x73, 0x73, 0x74]

/-- Neither a slash, a backslash nor a zero byte, and the table suffix.  Such a name is its
own base and its own cleaned path. -/
def validSSTableFilename (name : FileName) : Bool :=
  name.all (fun b => b ≠ 0x2f && b ≠ 0x5c && b ≠ 0) && sstableFilenameSuffix.isSuffixOf name

namespace ManifestState

def references (s : ManifestState) (name : FileName) : Bool := s.files.any (·.file = name)

def checkRemoved (s : ManifestState) (removed : List FileName) :
    List FileName → Except EditError (List FileName)
  | [] => .ok removed
  | name :: rest =>
    if !validSSTableFilename name then .error (.removedInvalidName name)
    else if name ∈ removed then .error (.removedTwice name)
    else if !s.references name then .error (.removedUnreferenced name)
    else checkRemoved s (removed ++ [name]) rest

def checkAdded (s : ManifestState) (removed : List FileName) (added : List FileMetadata) :
    List FileMetadata → Except EditError (List FileMetadata)
  | [] => .ok added
  | file :: rest =>
    let name := file.file
    if !validSSTableFilename name then .error (.addedInvalidName name)
    else if added.any (·.file = name) then .error (.addedTwice name)
    else if name ∈ removed then .error (.addedAndRemoved name)
    else if s.references name then .error (.addedReferenced name)
    else if file.count = 0 then .error (.zeroEntries name)
    else if file.maxKey < file.minKey then .error (.keyOrder name)
    else checkAdded s removed (added ++ [file]) rest

def apply (s : ManifestState) (edit : VersionEdit) : Except EditError ManifestState := do
  if edit.flushedIndex < s.flushedIndex then
    throw (.flushedIndexRegresses s.flushedIndex edit.flushedIndex)
  if edit.addedFiles.isEmpty ∧ edit.removedFiles.isEmpty ∧
      edit.flushedIndex = s.flushedIndex then
    throw .emptyEdit
  let removed ← s.checkRemoved [] edit.removedFiles
  let added ← s.checkAdded removed [] edit.addedFiles
  return {
    files := s.files.filter (fun file => file.file ∉ removed) ++ added
    flushedIndex := edit.flushedIndex
    records := s.records + 1 }

end ManifestState

/-! ### Frames -/

def castagnoli : BitVec 32 := 0x82f63b78#32

def manifestFormat : Format where
  start := 0xFA
  stop := 0xFB
  base := 0x40
  limit := 0x4F
  checksum := Crc.checksum castagnoli
  limit_eq := by decide
  start_ne_stop := by decide
  start_outside := by decide
  stop_outside := by decide
  checksum_ne before after _ _ hab := Crc.checksum_ne (by decide) (by decide) before after hab

inductive ManifestFrameError
  | payloadOverflow (size : Nat)
  | frameOverflow (size : Nat)
  | intOverflow (size : Nat)
  deriving DecidableEq, Repr

def encodeManifestFrame (m : Marshaler VersionEdit) (edit : VersionEdit) :
    Except ManifestFrameError Bytes :=
  let payload := m.marshal edit
  if payload.length > maxUint32 then .error (.payloadOverflow payload.length)
  else match checkedFrameSize payload.length with
    | none => .error (.frameOverflow payload.length)
    | some frameSize =>
      if (checkedInt frameSize).isNone then .error (.intOverflow frameSize)
      else .ok (manifestFormat.frame payload)

inductive ManifestError
  | unmarshal
  | invalidEdit (error : EditError)
  deriving DecidableEq, Repr

def applyEdit (m : Marshaler VersionEdit) (s : ManifestState) (payload : Bytes) :
    Except ManifestError ManifestState :=
  match m.unmarshal payload with
  | none => .error .unmarshal
  | some edit => (s.apply edit).mapError .invalidEdit

/-- The state after the complete frames, their length, and whether a torn frame follows.
Every error is `ErrManifestCorrupt`. -/
def replayManifestBytes (m : Marshaler VersionEdit) (data : Bytes) :
    Except (Fault ManifestError) (Replayed ManifestState) :=
  manifestFormat.replayFrom (applyEdit m) newManifestState 0 data

theorem encodeManifestFrame_eq_ok_iff {m : Marshaler VersionEdit} {edit : VersionEdit}
    {bytes : Bytes} : encodeManifestFrame m edit = .ok bytes ↔
      (m.marshal edit).length ≤ maxUint32 ∧ bytes = manifestFormat.frame (m.marshal edit) := by
  rw [encodeManifestFrame]
  by_cases hlen : (m.marshal edit).length > maxUint32
  · rw [if_pos hlen]
    simp only [reduceCtorEq, false_iff]
    omega
  · have hfit : 2 + (8 + (m.marshal edit).length) * 2 ≤ maxInt64 := by
      simp only [maxUint32, maxInt64] at *
      omega
    rw [if_neg hlen, checkedFrameSize_of_le (by omega)]
    dsimp only
    rw [checkedInt_of_le hfit]
    simp only [Option.isNone_some, Bool.false_eq_true, if_false, Except.ok.injEq]
    constructor
    · rintro rfl
      exact ⟨by omega, rfl⟩
    · rintro ⟨-, rfl⟩
      rfl

/-! ### Accepted edits -/

namespace ManifestState

theorem references_iff {s : ManifestState} {name : FileName} :
    s.references name = true ↔ ∃ file ∈ s.files, file.file = name := by
  simp [references]

theorem checkRemoved_eq_ok {s : ManifestState} {seen names removed : List FileName}
    (h : s.checkRemoved seen names = .ok removed) :
    removed = seen ++ names ∧ ∀ name ∈ names, s.references name = true := by
  induction names generalizing seen with
  | nil =>
    cases h
    exact ⟨(List.append_nil _).symm, by simp⟩
  | cons name names ih =>
    rw [checkRemoved] at h
    split at h
    · cases h
    · split at h
      · cases h
      · split at h
        · cases h
        · next hreferenced =>
          obtain ⟨hremoved, hnames⟩ := ih h
          refine ⟨by rw [hremoved, List.append_assoc, List.singleton_append], ?_⟩
          intro other hother
          rcases List.mem_cons.1 hother with rfl | hother
          · simpa using hreferenced
          · exact hnames other hother

structure Admitted (s : ManifestState) (removed : List FileName) (file : FileMetadata) : Prop where
  valid : validSSTableFilename file.file = true
  kept : file.file ∉ removed
  fresh : s.references file.file = false
  count : file.count ≠ 0
  bounds : ¬file.maxKey < file.minKey

theorem checkAdded_eq_ok {s : ManifestState} {removed : List FileName}
    {seen files added : List FileMetadata} (h : s.checkAdded removed seen files = .ok added) :
    added = seen ++ files ∧ (∀ file ∈ files, s.Admitted removed file) ∧
      ((seen.map FileMetadata.file).Nodup → (added.map FileMetadata.file).Nodup) := by
  induction files generalizing seen with
  | nil =>
    cases h
    exact ⟨(List.append_nil _).symm, by simp, id⟩
  | cons file files ih =>
    simp only [checkAdded] at h
    split at h
    · cases h
    next hvalid =>
    split at h
    · cases h
    next htwice =>
    split at h
    · cases h
    next hkept =>
    split at h
    · cases h
    next hfresh =>
    split at h
    · cases h
    next hcount =>
    split at h
    · cases h
    next hbounds =>
    obtain ⟨hadded, hfiles, hnodup⟩ := ih h
    refine ⟨by rw [hadded, List.append_assoc, List.singleton_append], ?_, ?_⟩
    · intro other hother
      rcases List.mem_cons.1 hother with rfl | hother
      · exact ⟨by simpa using hvalid, hkept, by simpa using hfresh, hcount, hbounds⟩
      · exact hfiles other hother
    · intro hseen
      refine hnodup ?_
      rw [List.map_append, List.map_singleton]
      refine List.Nodup.append hseen (List.nodup_singleton _) ?_
      intro name hname hfile
      obtain ⟨other, hother, rfl⟩ := List.mem_map.1 hname
      exact htwice (List.any_eq_true.2 ⟨other, hother, by simpa using hfile⟩)

structure Applied (s : ManifestState) (edit : VersionEdit) (t : ManifestState) : Prop where
  result : t = ⟨s.files.filter (fun file => file.file ∉ edit.removedFiles) ++ edit.addedFiles,
    edit.flushedIndex, s.records + 1⟩
  flushed : s.flushedIndex ≤ edit.flushedIndex
  removed : ∀ name ∈ edit.removedFiles, s.references name = true
  added : ∀ file ∈ edit.addedFiles, s.Admitted edit.removedFiles file
  nodup : (edit.addedFiles.map FileMetadata.file).Nodup

theorem apply_eq_ok {s t : ManifestState} {edit : VersionEdit} (h : s.apply edit = .ok t) :
    s.Applied edit t := by
  rw [apply] at h
  split at h
  · cases h
  next hflushed =>
  split at h
  · cases h
  obtain ⟨removed, hremoved, h⟩ := bind_eq_ok.1 h
  obtain ⟨added, hadded, h⟩ := bind_eq_ok.1 h
  cases h
  obtain ⟨rfl, hnames⟩ := checkRemoved_eq_ok hremoved
  obtain ⟨rfl, hfiles, hnodup⟩ := checkAdded_eq_ok hadded
  rw [List.nil_append] at hfiles hnodup ⊢
  exact ⟨rfl, not_lt.1 hflushed, hnames, hfiles, hnodup List.nodup_nil⟩

end ManifestState

/-! ### Cut manifests -/

theorem mapM_encodeManifestFrame {m : Marshaler VersionEdit} {edits : List VersionEdit}
    {frames : List Bytes} (h : edits.mapM (encodeManifestFrame m) = .ok frames) :
    (∀ p ∈ edits.map m.marshal, p.length < 2 ^ 32) ∧
      frames = (edits.map m.marshal).map manifestFormat.frame := by
  induction edits generalizing frames with
  | nil =>
    cases h
    exact ⟨by simp, rfl⟩
  | cons edit edits ih =>
    rw [List.mapM_cons] at h
    obtain ⟨frame, hframe, h⟩ := bind_eq_ok.1 h
    obtain ⟨rest, hrest, h⟩ := bind_eq_ok.1 h
    cases h
    obtain ⟨hlen, rfl⟩ := ih hrest
    obtain ⟨hpayload, rfl⟩ := encodeManifestFrame_eq_ok_iff.1 hframe
    exact ⟨List.forall_mem_cons.2 ⟨Nat.lt_succ_of_le hpayload, hlen⟩, rfl⟩

theorem foldlM_applyEdit {m : Marshaler VersionEdit} {edits : List VersionEdit}
    {s t : ManifestState} (hm : ∀ edit ∈ edits, m.unmarshal (m.marshal edit) = some edit)
    (h : edits.foldlM ManifestState.apply s = .ok t) :
    (edits.map m.marshal).foldlM (applyEdit m) s = .ok t := by
  induction edits generalizing s with
  | nil =>
    cases h
    rfl
  | cons edit edits ih =>
    obtain ⟨s', hedit, h⟩ := foldlM_cons_eq_ok.1 h
    obtain ⟨hm, hms⟩ := List.forall_mem_cons.1 hm
    refine foldlM_cons_eq_ok.2 ⟨s', ?_, ih hms h⟩
    rw [applyEdit, hm]
    dsimp only
    rw [hedit]
    rfl

/-- Cut anywhere, the manifest of accepted edits replays to the state after those whose frames
are complete; it is torn when the cut falls inside a frame. -/
theorem replayManifestBytes_take (m : Marshaler VersionEdit) (edits : List VersionEdit)
    (hm : ∀ edit ∈ edits, m.unmarshal (m.marshal edit) = some edit) (final : ManifestState)
    (haccepted : edits.foldlM ManifestState.apply newManifestState = .ok final)
    (frames : List Bytes) (hframes : edits.mapM (encodeManifestFrame m) = .ok frames) (n : Nat) :
    ∃ k ≤ edits.length, ∃ s torn,
      (∀ i < edits.length, i < k ↔ (frames.take (i + 1)).flatten.length ≤ n) ∧
      (edits.take k).foldlM ManifestState.apply newManifestState = .ok s ∧
      replayManifestBytes m (frames.flatten.take n) =
        .ok ⟨s, (frames.take k).flatten.length, torn⟩ ∧
      (torn = true ↔ ∃ i < edits.length, (frames.take i).flatten.length < n ∧
        n < (frames.take (i + 1)).flatten.length) := by
  obtain ⟨hlen, rfl⟩ := mapM_encodeManifestFrame hframes
  have hflatten (i : Nat) : (((edits.map m.marshal).map manifestFormat.frame).take i).flatten =
      manifestFormat.frames ((edits.map m.marshal).take i) := by
    rw [← List.map_take, Format.frames, List.flatMap]
  have hall : ((edits.map m.marshal).map manifestFormat.frame).flatten =
      manifestFormat.frames (edits.map m.marshal) := by
    rw [Format.frames, List.flatMap]
  rw [hall]
  simp only [hflatten]
  have hcount : (edits.map m.marshal).length = edits.length := List.length_map _
  have hle := manifestFormat.completeFrames_le (edits.map m.marshal) n
  rw [hcount] at hle
  generalize hk : manifestFormat.completeFrames (edits.map m.marshal) n = k at hle
  obtain ⟨s, hs, -⟩ := foldlM_append_eq_ok.1
    (haccepted ▸ congrArg (List.foldlM _ _) (List.take_append_drop k edits))
  have hfold : ((edits.map m.marshal).take k).foldlM (applyEdit m) newManifestState = .ok s := by
    rw [← List.map_take]
    exact foldlM_applyEdit (fun edit hedit => hm edit (List.mem_of_mem_take hedit)) hs
  have hreplay := manifestFormat.replayFrom_take (applyEdit m) 0 n hlen (hk ▸ hfold)
  rw [Nat.zero_add] at hreplay
  refine ⟨k, hle, s, _, fun i hi => ?_, hs, hk ▸ hreplay, ?_⟩
  · rw [← hk]
    exact manifestFormat.lt_completeFrames_iff (by omega)
  · rw [decide_eq_true_iff, ← hk, manifestFormat.completeFrames_torn_iff, hcount]

def editWire : Wire VersionEdit :=
  let file : Wire FileMetadata :=
    (Wire.nat.pair (Wire.byte.list.pair (Wire.byte.list.pair (Wire.byte.list.pair .nat)))).imap
      (fun (tier, file, minKey, maxKey, count) => ⟨tier, file, minKey, maxKey, count⟩)
      (fun f => (f.tier, f.file, f.minKey, f.maxKey, f.count)) fun _ => rfl
  (file.list.pair (Wire.byte.list.list.pair .nat)).imap
    (fun (added, removed, flushed) => ⟨added, removed, flushed⟩)
    (fun e => (e.addedFiles, e.removedFiles, e.flushedIndex)) fun _ => rfl

/-- The second of two edits, one byte short. -/
theorem replayManifestBytes_take_two :
    let edits : List VersionEdit :=
      [⟨[⟨0, [0x61, 0x2e, 0x73, 0x73, 0x74], [1], [2], 3⟩], [], 7⟩, ⟨[], [], 9⟩]
    ∃ frames, edits.mapM (encodeManifestFrame editWire.marshaler) = .ok frames ∧
      let n := frames.flatten.length - 1
      ∃ k ≤ edits.length, ∃ s torn,
        (∀ i < edits.length, i < k ↔ (frames.take (i + 1)).flatten.length ≤ n) ∧
        (edits.take k).foldlM ManifestState.apply newManifestState = .ok s ∧
        replayManifestBytes editWire.marshaler (frames.flatten.take n) =
          .ok ⟨s, (frames.take k).flatten.length, torn⟩ ∧
        (torn = true ↔ ∃ i < edits.length, (frames.take i).flatten.length < n ∧
          n < (frames.take (i + 1)).flatten.length) := by
  intro edits
  refine ⟨_, rfl, ?_⟩
  exact replayManifestBytes_take editWire.marshaler edits
    (fun edit _ => editWire.marshaler_roundTrips edit) _ rfl _ rfl _

end MiniQuorum.Lsm
