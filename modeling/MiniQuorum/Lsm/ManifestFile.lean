import MiniQuorum.Lsm.Manifest
import MiniQuorum.Lsm.SimFS

/-! The manifest on disk: loading it, trimming a torn tail, and appending an edit. -/

namespace MiniQuorum.Lsm

open Codec Program

def manifestFilename : FileName := [0x4d, 0x41, 0x4e, 0x49, 0x46, 0x45, 0x53, 0x54]

def Err.joined : Option Err → Option Err → Option Err
  | none, second => second
  | some first, none => some first
  | some first, some second => some (.join first second)

def Err.isUncertain : Err → Bool
  | .uncertainManifestAppend _ => true
  | .wrap _ cause => cause.isUncertain
  | .join first second => first.isUncertain || second.isUncertain
  | _ => false

def failClosing {α : Type} (message : String) (file : FileID) (err : Err) : FSM α := do
  let closeErr ← (SimFile.close file).error?
  throw (.wrap message ((Err.joined (some err) closeErr).getD err))

def createManifest (dir : Bytes) (path : Path) : FSM Unit := do
  let file ← (SimFS.create path).wrap (.wrap "lsm: create manifest")
  match ← (SimFile.sync file).error? with
  | some err => failClosing "lsm: sync new manifest" file err
  | none => do
    (SimFile.close file).wrap (.wrap "lsm: close new manifest")
    (SimFS.syncDir dir).wrap (.wrap "lsm: sync manifest directory")

def truncateManifest (path : Path) (size : Nat) : FSM Unit := do
  let file ← (SimFS.openAppend path).wrap (.wrap "lsm: open manifest to trim torn tail")
  match ← (SimFile.truncate file size).error? with
  | some err => failClosing "lsm: truncate torn manifest tail" file err
  | none =>
    match ← (SimFile.sync file).error? with
    | some err => failClosing "lsm: sync trimmed manifest" file err
    | none => (SimFile.close file).wrap (.wrap "lsm: close trimmed manifest")

def syncManifest (path : Path) : FSM Unit := do
  let file ← (SimFS.openAppend path).wrap (.wrap "lsm: open recovered manifest for sync")
  match ← (SimFile.sync file).error? with
  | some err => failClosing "lsm: recovery sync manifest" file err
  | none => (SimFile.close file).wrap (.wrap "lsm: close recovery-synced manifest")

def readManifest (path : Path) (size : Nat) : FSM Bytes := do
  let file ← (SimFS.openRead path).wrap (.wrap "lsm: open manifest")
  let read ← (SimFile.readAtFull file size 0).attempt
  let closeErr ← (SimFile.close file).error?
  match read with
  | .error err => throw (.wrap "lsm: read manifest" ((Err.joined (some err) closeErr).getD err))
  | .ok data =>
    match closeErr with
    | some err => throw (.wrap "lsm: close manifest" err)
    | none => return data

section Edits

variable (m : Marshaler VersionEdit)

def loadManifest (dir : Bytes) : FSM ManifestState := do
  let path : Path := ⟨dir, manifestFilename⟩
  match ← (SimFS.stat path).attempt with
  | .error err =>
    if err.is .notExist then do
      createManifest dir path
      return newManifestState
    else throw (.wrap "lsm: stat manifest" err)
  | .ok size => do
    Prog.failIf ((checkedInt size).isNone) (.manifestCorrupt "size exceeds int")
    let data ← readManifest path size
    match replayManifestBytes m data with
    | .error _ => throw (.manifestCorrupt "replay")
    | .ok replayed => do
      if replayed.torn then truncateManifest path replayed.complete
      return replayed.state

/-- Whether the edit is durable, a handle that could not be closed, and the error. -/
structure AppendOutcome where
  committed : Bool
  unresolved : Option FileID
  err : Option Err
  deriving DecidableEq, Repr

def uncertainAppend (message : String) (file : FileID) (err : Err) : FSM AppendOutcome := do
  let closeErr ← (SimFile.close file).error?
  return {
    committed := false
    unresolved := if closeErr.all (·.is .fsClosed) then none else some file
    err := some (.uncertainManifestAppend
      (.wrap message ((Err.joined (some err) closeErr).getD err))) }

def appendManifestEdit (dir : Bytes) (edit : VersionEdit) : FSM AppendOutcome :=
  match encodeManifestFrame m edit with
  | .error _ => return ⟨false, none, some (.text "lsm: encode manifest frame")⟩
  | .ok frame => do
    match ← (SimFS.openAppend ⟨dir, manifestFilename⟩).attempt with
    | .error err => return ⟨false, none, some (.wrap "lsm: open manifest for append" err)⟩
    | .ok file =>
      match ← (SimFile.write file frame).error? with
      | some err => uncertainAppend "lsm: append manifest" file err
      | none =>
        match ← (SimFile.sync file).error? with
        | some err => uncertainAppend "lsm: sync manifest" file err
        | none =>
          match ← (SimFile.close file).error? with
          | some err =>
            return {
              committed := true
              unresolved := if err.is .fsClosed then none else some file
              err := some (.wrap "lsm: close synced manifest" err) }
          | none => return ⟨true, none, none⟩

end Edits

end MiniQuorum.Lsm
