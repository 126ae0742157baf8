import MiniQuorum.Collections.Lookup
import MiniQuorum.Lsm.Survivors

/-! The history of a simulated filesystem since its last crash: which names and bytes each
call left, which of them were synced, and which mutations were not. -/

namespace MiniQuorum.Lsm

open Codec Collections Program

/-! ### The history of a volume -/

inductive Effect
  | create (name : Path) (node : InodeID)
  | rename (oldName newName : Path) (node : InodeID)
  | link (name : Path) (node : InodeID)
  | remove (name : Path)
  | syncDir (dir : Bytes)
  | write (node : InodeID) (offset : Nat) (data : Bytes)
  | truncate (node : InodeID) (size : Nat)
  | sync (node : InodeID)
  deriving DecidableEq, Repr

namespace Effect

def names (e : Effect) (before : Path → Option InodeID) : Path → Option InodeID :=
  match e with
  | .create name node => Function.update before name (some node)
  | .rename oldName newName node =>
    Function.update (Function.update before oldName none) newName (some node)
  | .link name node => Function.update before name (some node)
  | .remove name => Function.update before name none
  | _ => before

def bytes (e : Effect) (before : InodeID → Bytes) : InodeID → Bytes :=
  match e with
  | .create _ node => Function.update before node []
  | .write node offset data => Function.update before node (writeAt (before node) offset data)
  | .truncate node size => Function.update before node (resize (before node) size)
  | _ => before

end Effect

/-- What the last crash left, and the effects since then, the latest first. -/
structure Journal where
  oldNames : Path → Option InodeID
  oldBytes : InodeID → Bytes
  effects : List Effect

namespace Journal

def names (j : Journal) : Path → Option InodeID := j.effects.foldr Effect.names j.oldNames

def bytes (j : Journal) : InodeID → Bytes := j.effects.foldr Effect.bytes j.oldBytes

def syncedNamesAfter (old : Path → Option InodeID) : List Effect → Path → Option InodeID
  | [] => old
  | .syncDir dir :: earlier => fun p =>
    if p.dir = dir then earlier.foldr Effect.names old p else syncedNamesAfter old earlier p
  | _ :: earlier => syncedNamesAfter old earlier

def syncedBytesAfter (old : InodeID → Bytes) : List Effect → InodeID → Bytes
  | [] => old
  | .sync node :: earlier =>
    Function.update (syncedBytesAfter old earlier) node (earlier.foldr Effect.bytes old node)
  | .create _ node :: earlier => Function.update (syncedBytesAfter old earlier) node []
  | _ :: earlier => syncedBytesAfter old earlier

/-- The mutations whose files were not synced later, in the order they happened; `synced`
are the files synced after the effects. -/
def unsyncedAfter (old : InodeID → Bytes) (synced : List InodeID) : List Effect → List SimMutation
  | [] => []
  | .sync node :: earlier => unsyncedAfter old (node :: synced) earlier
  | .write node offset data :: earlier =>
    unsyncedAfter old synced earlier ++
      if node ∈ synced ∨ data = [] then [] else [.write node offset data]
  | .truncate node size :: earlier =>
    let oldSize := (earlier.foldr Effect.bytes old node).length
    unsyncedAfter old synced earlier ++
      if node ∈ synced ∨ size = oldSize then [] else [.truncate node oldSize size]
  | _ :: earlier => unsyncedAfter old synced earlier

def syncedNames (j : Journal) : Path → Option InodeID := syncedNamesAfter j.oldNames j.effects

def syncedBytes (j : Journal) : InodeID → Bytes := syncedBytesAfter j.oldBytes j.effects

def unsynced (j : Journal) : List SimMutation := unsyncedAfter j.oldBytes [] j.effects

def record (j : Journal) (e : Effect) : Journal := { j with effects := e :: j.effects }

def empty : Journal := ⟨fun _ => none, fun _ => [], []⟩

def crash (j : Journal) (retain : Retain) : Journal :=
  ⟨j.syncedNames, fun n => survivor retain n 0 j.unsynced (j.syncedBytes n), []⟩

theorem unsynced_write (j : Journal) (node : InodeID) (offset : Nat) (data : Bytes) :
    (j.record (.write node offset data)).unsynced =
      j.unsynced ++ if data = [] then [] else [.write node offset data] := by
  simp [unsynced, record, unsyncedAfter]

theorem unsynced_truncate (j : Journal) (node : InodeID) (size : Nat) :
    (j.record (.truncate node size)).unsynced = j.unsynced ++
      if size = (j.bytes node).length then [] else [.truncate node (j.bytes node).length size] := by
  rw [unsynced, record, unsyncedAfter]
  simp only [List.not_mem_nil, false_or]
  rfl

theorem unsyncedAfter_cons (old : InodeID → Bytes) (synced : List InodeID) (node : InodeID)
    (effects : List Effect) :
    unsyncedAfter old (node :: synced) effects =
      (unsyncedAfter old synced effects).filter (·.node ≠ node) := by
  induction effects generalizing synced node with
  | nil => rfl
  | cons e earlier ih =>
    cases e with
    | sync n =>
      simp only [unsyncedAfter, ih, List.filter_filter]
      refine List.filter_congr ?_
      intro m _
      rw [Bool.and_comm]
    | write n offset data =>
      rw [unsyncedAfter, unsyncedAfter, ih, List.filter_append]
      congr 1
      by_cases hn : n = node
      · simp only [hn, List.mem_cons, true_or, if_true]
        split <;> simp [SimMutation.node]
      · simp only [List.mem_cons, hn, false_or]
        split <;> simp [SimMutation.node, hn]
    | truncate n size =>
      simp only [unsyncedAfter]
      rw [ih, List.filter_append]
      congr 1
      by_cases hn : n = node
      · simp only [hn, List.mem_cons, true_or, if_true]
        split <;> simp [SimMutation.node]
      · simp only [List.mem_cons, hn, false_or]
        split <;> simp [SimMutation.node, hn]
    | create => exact ih synced node
    | rename => exact ih synced node
    | link => exact ih synced node
    | remove => exact ih synced node
    | syncDir => exact ih synced node

end Journal

/-! ### Runs -/

inductive Call
  | create (name : Path)
  | openMode (appendMode : Bool) (name : Path)
  | syncDir (dir : Bytes)
  | rename (oldName newName : Path)
  | link (oldName newName : Path)
  | remove (name : Path)
  | list (dir : Bytes)
  | stat (name : Path)
  | read (f : FileID) (length : Nat)
  | readAt (f : FileID) (length offset : Nat)
  | write (f : FileID) (src : Bytes)
  | sync (f : FileID)
  | truncate (f : FileID) (size : Nat)
  | close (f : FileID)
  | setCrashSchedule (faults : SimFaultKey → Option Retain)
  | setErrorSchedule (faults : SimFaultKey → Option Err)
  | resetEvents
  | crash (retain : Retain)
  | recover

namespace Call

def exec (fs : SimFS) : Call → SimFS
  | .create name => (SimFS.create name fs).2
  | .openMode appendMode name => (SimFS.openMode appendMode name fs).2
  | .syncDir dir => (SimFS.syncDir dir fs).2
  | .rename oldName newName => (SimFS.rename oldName newName fs).2
  | .link oldName newName => (SimFS.link oldName newName fs).2
  | .remove name => (SimFS.remove name fs).2
  | .list dir => (SimFS.list dir fs).2
  | .stat name => (SimFS.stat name fs).2
  | .read f length => (SimFile.read f length fs).2
  | .readAt f length offset => (SimFile.readAt f length offset fs).2
  | .write f src => (SimFile.write f src fs).2
  | .sync f => (SimFile.sync f fs).2
  | .truncate f size => (SimFile.truncate f size fs).2
  | .close f => (SimFile.close f fs).2
  | .setCrashSchedule faults => fs.setCrashSchedule faults
  | .setErrorSchedule faults => fs.setErrorSchedule faults
  | .resetEvents => fs.resetEvents
  | .crash retain => (fs.crashNow retain).getD fs
  | .recover => fs.recover.getD fs

/-- The call is not an empty write behind the end of its file.  Such a write fills the gap
with zeros and `recordWrite` does not record it. -/
def FillsNoGap (fs : SimFS) : Call → Prop
  | .write f src => src = [] → (fs.files f).offset ≤ (fs.bytes f).length
  | _ => True

instance (fs : SimFS) : (c : Call) → Decidable (c.FillsNoGap fs)
  | .write f src => inferInstanceAs (Decidable (src = [] → (fs.files f).offset ≤ (fs.bytes f).length))
  | .create _ | .openMode _ _ | .syncDir _ | .rename _ _ | .link _ _ | .remove _ | .list _
  | .stat _ | .read _ _ | .readAt _ _ _ | .sync _ | .truncate _ _ | .close _
  | .setCrashSchedule _ | .setErrorSchedule _ | .resetEvents | .crash _ | .recover =>
    inferInstanceAs (Decidable True)

end Call

def runCalls (calls : List Call) : SimFS := calls.foldr (fun c fs => c.exec fs) SimFS.newSimFS

def FillNoGap : List Call → Prop
  | [] => True
  | c :: earlier => c.FillsNoGap (runCalls earlier) ∧ FillNoGap earlier

instance : (calls : List Call) → Decidable (FillNoGap calls)
  | [] => inferInstanceAs (Decidable True)
  | c :: earlier =>
    have := instDecidableFillNoGap earlier
    inferInstanceAs (Decidable (c.FillsNoGap (runCalls earlier) ∧ FillNoGap earlier))

/-! ### The journal of a run -/

inductive Fault
  | error
  | crash (retain : Retain)
  deriving DecidableEq, Repr

def Fault.hit (v : Volume) : Fault → Volume
  | .error => v
  | .crash retain => v.crash retain

/-- The fault scheduled at `key`, an error before a crash. -/
def SimFS.faultAt (fs : SimFS) (key : SimFaultKey) : Option Fault :=
  if (fs.errorFaults key).isSome then some .error else (fs.crashFaults key).map .crash

namespace Journal

def hit (j : Journal) : Fault → Journal
  | .error => j
  | .crash retain => j.crash retain

/-- What an operation on `fs` adds to the history.  It is refused where `effects` is `none`, and
a fault can fall before its effects or after them. -/
def operate (j : Journal) (fs : SimFS) (op : FSOp) (effects : Option (List Effect)) : Journal :=
  if fs.crashed then j
  else match fs.faultAt ⟨op, fs.opCounts op + 1, .before⟩, effects with
    | some fault, _ => j.hit fault
    | none, none => j
    | none, some es =>
      let j := es.foldl record j
      (fs.faultAt ⟨op, fs.opCounts op + 1, .after⟩).elim j j.hit

def operateOn (j : Journal) (fs : SimFS) (f : FileID) (op : FSOp) (effects : Option (List Effect)) :
    Journal :=
  if SimFile.Usable fs.toVolume f then j.operate fs op effects else j

def call (j : Journal) (fs : SimFS) : Call → Journal
  | .create name =>
    j.operate fs .create (if (j.names name).isSome then none else some [.create name fs.nextInode])
  | .openMode appendMode name =>
    j.operate fs (if appendMode then .openAppend else .openRead) ((j.names name).map fun _ => [])
  | .syncDir dir => j.operate fs .dirSync (some [.syncDir dir])
  | .rename oldName newName =>
    j.operate fs .rename ((j.names oldName).map fun node => [.rename oldName newName node])
  | .link oldName newName =>
    j.operate fs .link (if (j.names newName).isSome then none
      else (j.names oldName).map fun node => [.link newName node])
  | .remove name => j.operate fs .remove ((j.names name).map fun _ => [.remove name])
  | .list _ => j.operate fs .list (some [])
  | .stat name => j.operate fs .stat ((j.names name).map fun _ => [])
  | .read f _ => j.operateOn fs f .read (some [])
  | .readAt f _ _ => j.operateOn fs f .read (some [])
  | .write f src =>
    j.operateOn fs f .write (if (fs.files f).offset + src.length > maxInt64 then none
      else some [.write (fs.files f).node (fs.files f).offset src])
  | .sync f => j.operateOn fs f .fileSync (some [.sync (fs.files f).node])
  | .truncate f size =>
    j.operateOn fs f .truncate (if size > maxInt64 then none
      else some [.truncate (fs.files f).node size])
  | .close f => j.operateOn fs f .close (some [])
  | .crash retain => if fs.crashed then j else j.crash retain
  | .setCrashSchedule _ | .setErrorSchedule _ | .resetEvents | .recover => j

end Journal

/-- What the calls, the latest first, have done since the last crash: each call that returned
nil has its effect there, a call that failed only if its fault came after the effect. -/
def journal : List Call → Journal
  | [] => .empty
  | c :: earlier => (journal earlier).call (runCalls earlier) c

def Volume.Held (v : Volume) (n : InodeID) : Prop :=
  (∃ p, v.Names p n) ∨ (∃ f, SimFile.Usable v f ∧ (v.files f).node = n) ∨ v.dirtyOf n ≠ []

/-- The volume is what its history says. -/
structure Recorded (v : Volume) (j : Journal) : Prop where
  names : ∀ p, v.live.lookup p = j.names p
  syncedNames : ∀ p, v.durableNames.lookup p = j.syncedNames p
  unsynced : v.dirty = j.unsynced
  data : ∀ n, v.Held n → (v.inodes n).data = j.bytes n
  durable : ∀ n, v.Held n → (v.inodes n).durable = j.syncedBytes n
  replays : ∀ n, v.Held n → Replays (v.inodes n).durable (v.dirtyOf n) (v.inodes n).data
  positive : ∀ m ∈ v.dirty, 0 < m.byteCount
  bounded : ∀ n, v.Held n → n < v.nextInode
  generations : ∀ f, (v.files f).generation ≤ v.generation

namespace Recorded

variable {v v' : Volume} {j j' : Journal} {f : FileID}

theorem of_bytes (h : Recorded v j) (hinodes : v'.inodes = v.inodes) (hdirty : v'.dirty = v.dirty)
    (hnext : v'.nextInode = v.nextInode) (hheld : ∀ n, v'.Held n → v.Held n)
    (hnames : ∀ p, v'.live.lookup p = j'.names p)
    (hsynced : ∀ p, v'.durableNames.lookup p = j'.syncedNames p) (hbytes : j'.bytes = j.bytes)
    (hdurable : j'.syncedBytes = j.syncedBytes) (hunsynced : j'.unsynced = j.unsynced)
    (hgen : ∀ f, (v'.files f).generation ≤ v'.generation) : Recorded v' j' where
  names := hnames
  syncedNames := hsynced
  unsynced := by rw [hdirty, h.unsynced, hunsynced]
  data n hn := by rw [hinodes, hbytes, h.data n (hheld n hn)]
  durable n hn := by rw [hinodes, hdurable, h.durable n (hheld n hn)]
  replays n hn := by
    rw [hinodes, Volume.dirtyOf, hdirty]
    exact h.replays n (hheld n hn)
  positive m hm := h.positive m (hdirty ▸ hm)
  bounded n hn := hnext ▸ h.bounded n (hheld n hn)
  generations := hgen

theorem empty : Recorded SimFS.newSimFS.toVolume .empty := by
  have hheld (n : InodeID) : ¬SimFS.newSimFS.Held n := by
    rintro (⟨p, hn | hn⟩ | ⟨f, hf, -⟩ | hdirty)
    · cases hn
    · cases hn
    · cases hf.1
    · exact hdirty rfl
  exact ⟨fun _ => rfl, fun _ => rfl, rfl, fun n hn => absurd hn (hheld n),
    fun n hn => absurd hn (hheld n), fun n hn => absurd hn (hheld n),
    fun m hm => absurd hm List.not_mem_nil, fun n hn => absurd hn (hheld n), fun _ => le_rfl⟩

theorem create (h : Recorded v j) (name : Path) :
    Recorded (v.create name) (j.record (.create name v.nextInode)) := by
  have hheld {n : InodeID} (hn : (v.create name).Held n) : n = v.nextInode ∨ v.Held n := by
    rcases hn with ⟨p, hp⟩ | hf | hdirty
    · rcases Volume.names_create hp with hp | ⟨-, hp⟩
      · exact .inr (.inl ⟨p, hp⟩)
      · exact .inl hp
    · exact .inr (.inr (.inl hf))
    · exact .inr (.inr (.inr hdirty))
  have hinode {n : InodeID} (hn : v.Held n) : (v.create name).inodes n = v.inodes n :=
    Function.update_of_ne (h.bounded n hn).ne _ _
  have hnew : (v.create name).inodes v.nextInode = ⟨[], []⟩ := Function.update_self _ _ _
  have hclean : v.dirtyOf v.nextInode = [] := by
    by_contra hdirty
    exact lt_irrefl _ (h.bounded _ (.inr (.inr hdirty)))
  have hlive (p : Path) : (v.create name).live.lookup p =
      if p = name then some v.nextInode else v.live.lookup p :=
    lookup_insert_eq v.live.toFinmap _ _ _
  refine ⟨?_, h.syncedNames, h.unsynced, ?_, ?_, ?_, h.positive, ?_, h.generations⟩
  · intro p
    show _ = Function.update j.names name _ p
    rw [hlive, Function.update_apply, h.names]
  · intro n hn
    show _ = Function.update j.bytes v.nextInode [] n
    rcases hheld hn with rfl | hn
    · rw [hnew, Function.update_self]
    · rw [hinode hn, Function.update_of_ne (h.bounded n hn).ne, h.data n hn]
  · intro n hn
    show _ = Function.update j.syncedBytes v.nextInode [] n
    rcases hheld hn with rfl | hn
    · rw [hnew, Function.update_self]
    · rw [hinode hn, Function.update_of_ne (h.bounded n hn).ne, h.durable n hn]
  · intro n hn
    rcases hheld hn with rfl | hn
    · rw [hnew]
      show Replays [] (v.dirtyOf v.nextInode) []
      rw [hclean]
      exact .nil _
    · rw [hinode hn]
      exact h.replays n hn
  · intro n hn
    rcases hheld hn with rfl | hn
    · exact Nat.lt_succ_self _
    · exact Nat.lt_succ_of_lt (h.bounded n hn)

theorem rename (h : Recorded v j) {oldName : Path} (newName : Path) {n : InodeID}
    (hn : v.live.lookup oldName = some n) :
    Recorded ((v.remove oldName).bind newName n) (j.record (.rename oldName newName n)) := by
  have hlive (p : Path) : ((v.remove oldName).bind newName n).live.lookup p =
      if p = newName then some n else if p = oldName then none else v.live.lookup p := by
    have herase : (v.live.erase oldName).lookup p = if p = oldName then none else v.live.lookup p :=
      lookup_erase_eq v.live.toFinmap _ _
    rw [← herase]
    exact lookup_insert_eq (v.live.erase oldName).toFinmap _ _ _
  refine h.of_bytes rfl rfl rfl ?_ ?_ h.syncedNames rfl rfl rfl h.generations
  · rintro k (⟨p, hp | hp⟩ | hf | hdirty)
    · rw [hlive] at hp
      split at hp
      · cases hp
        exact .inl ⟨oldName, .inl hn⟩
      · split at hp
        · cases hp
        · exact .inl ⟨p, .inl hp⟩
    · exact .inl ⟨p, .inr hp⟩
    · exact .inr (.inl hf)
    · exact .inr (.inr hdirty)
  · intro p
    show _ = Function.update (Function.update j.names oldName none) newName (some n) p
    rw [hlive, Function.update_apply, Function.update_apply, h.names]

theorem link (h : Recorded v j) {oldName : Path} (newName : Path) {n : InodeID}
    (hn : v.live.lookup oldName = some n) :
    Recorded (v.bind newName n) (j.record (.link newName n)) := by
  have hlive (p : Path) : (v.bind newName n).live.lookup p =
      if p = newName then some n else v.live.lookup p :=
    lookup_insert_eq v.live.toFinmap _ _ _
  refine h.of_bytes rfl rfl rfl ?_ ?_ h.syncedNames rfl rfl rfl h.generations
  · rintro k (⟨p, hp | hp⟩ | hf | hdirty)
    · rw [hlive] at hp
      split at hp
      · cases hp
        exact .inl ⟨oldName, .inl hn⟩
      · exact .inl ⟨p, .inl hp⟩
    · exact .inl ⟨p, .inr hp⟩
    · exact .inr (.inl hf)
    · exact .inr (.inr hdirty)
  · intro p
    show _ = Function.update j.names newName (some n) p
    rw [hlive, Function.update_apply, h.names]

theorem remove (h : Recorded v j) (name : Path) :
    Recorded (v.remove name) (j.record (.remove name)) := by
  have hlive (p : Path) : (v.remove name).live.lookup p =
      if p = name then none else v.live.lookup p :=
    lookup_erase_eq v.live.toFinmap _ _
  refine h.of_bytes rfl rfl rfl ?_ ?_ h.syncedNames rfl rfl rfl h.generations
  · rintro k (⟨p, hp | hp⟩ | hf | hdirty)
    · rw [hlive] at hp
      split at hp
      · cases hp
      · exact .inl ⟨p, .inl hp⟩
    · exact .inl ⟨p, .inr hp⟩
    · exact .inr (.inl hf)
    · exact .inr (.inr hdirty)
  · intro p
    show _ = Function.update j.names name none p
    rw [hlive, Function.update_apply, h.names]

theorem syncDir (h : Recorded v j) (dir : Bytes) :
    Recorded (v.syncDir dir) (j.record (.syncDir dir)) := by
  refine h.of_bytes rfl rfl rfl ?_ h.names ?_ rfl rfl rfl h.generations
  · rintro k (⟨p, hp | hp⟩ | hf | hdirty)
    · exact .inl ⟨p, .inl hp⟩
    · rw [Volume.lookup_syncDir] at hp
      split at hp
      · exact .inl ⟨p, .inl hp⟩
      · exact .inl ⟨p, .inr hp⟩
    · exact .inr (.inl hf)
    · exact .inr (.inr hdirty)
  · intro p
    rw [Volume.lookup_syncDir, h.names, h.syncedNames]
    rfl

theorem handle (h : Recorded v j) {name : Path} {n : InodeID} (hn : v.live.lookup name = some n)
    (offset : Nat) : Recorded (v.newFile n name offset) j := by
  refine h.of_bytes rfl rfl rfl ?_ h.names h.syncedNames rfl rfl rfl ?_
  · rintro k (hp | ⟨f, hf, hnode⟩ | hdirty)
    · exact .inl hp
    · rw [SimFile.Usable, Volume.files_newFile] at hf
      rw [Volume.files_newFile] at hnode
      split at hf
      · next heq =>
        rw [if_pos heq] at hnode
        exact .inl ⟨name, .inl (hnode ▸ hn)⟩
      · next hne =>
        rw [if_neg hne] at hnode
        exact .inr (.inl ⟨f, hf, hnode⟩)
    · exact .inr (.inr hdirty)
  · intro f
    rw [Volume.files_newFile]
    split
    · exact le_rfl
    · exact h.generations f

theorem of_files (h : Recorded v j) (f : FileID) {file : SimFile}
    (hnode : file.node = (v.files f).node) (hgen : file.generation = (v.files f).generation)
    (hclosed : file.closed = false → (v.files f).closed = false) : Recorded (v.setFile f file) j := by
  have hfiles (g : FileID) : (v.setFile f file).files g = if g = f then file else v.files g :=
    Function.update_apply _ _ _ _
  refine h.of_bytes rfl rfl rfl ?_ h.names h.syncedNames rfl rfl rfl ?_
  · rintro k (hp | ⟨g, hg, hk⟩ | hdirty)
    · exact .inl hp
    · rw [SimFile.Usable, hfiles] at hg
      rw [hfiles] at hk
      split at hg
      · next heq =>
        rw [if_pos heq, hnode] at hk
        exact .inr (.inl ⟨f, ⟨hclosed hg.1, hgen ▸ hg.2⟩, hk⟩)
      · next hne =>
        rw [if_neg hne] at hk
        exact .inr (.inl ⟨g, hg, hk⟩)
    · exact .inr (.inr hdirty)
  · intro g
    rw [hfiles]
    split
    · rw [hgen]
      exact h.generations f
    · exact h.generations g

theorem held_of_files (hnames : ∀ p n, v'.Names p n → v.Names p n)
    (hfiles : ∀ g, SimFile.Usable v' g → SimFile.Usable v g ∧ (v'.files g).node = (v.files g).node)
    (hf : SimFile.Usable v f)
    (hdirty : ∀ n, n ≠ (v.files f).node → v'.dirtyOf n = v.dirtyOf n) {n : InodeID}
    (hn : v'.Held n) : v.Held n := by
  by_cases hnode : n = (v.files f).node
  · exact .inr (.inl ⟨f, hf, hnode.symm⟩)
  · rcases hn with ⟨p, hp⟩ | ⟨g, hg, hgn⟩ | hd
    · exact .inl ⟨p, hnames p n hp⟩
    · exact .inr (.inl ⟨g, (hfiles g hg).1, (hfiles g hg).2.symm.trans hgn⟩)
    · rw [hdirty n hnode] at hd
      exact .inr (.inr hd)

theorem write (h : Recorded v j) (hf : SimFile.Usable v f) (src : Bytes)
    (hsrc : src = [] → (v.files f).offset ≤ (v.bytes f).length) :
    Recorded (v.write f src) (j.record (.write (v.files f).node (v.files f).offset src)) := by
  have hsame : (v.write f src).live = v.live ∧ (v.write f src).durableNames = v.durableNames ∧
      (v.write f src).generation = v.generation ∧ (v.write f src).nextInode = v.nextInode := by
    rw [Volume.write, Volume.recordWrite]
    split <;> exact ⟨rfl, rfl, rfl, rfl⟩
  obtain ⟨hlive, hdurable, hgen, hnext⟩ := hsame
  have hfile (g : FileID) : ((v.write f src).files g).node = (v.files g).node ∧
      ((v.write f src).files g).closed = (v.files g).closed ∧
      ((v.write f src).files g).generation = (v.files g).generation := by
    rw [Volume.files_write]
    split
    · next heq =>
      rw [heq]
      exact ⟨rfl, rfl, rfl⟩
    · exact ⟨rfl, rfl, rfl⟩
  have hheld {n : InodeID} (hn : (v.write f src).Held n) : v.Held n := by
    refine held_of_files (fun p n hp => (Volume.names_write src).1 hp) ?_ hf ?_ hn
    · rintro g ⟨hclosed, hg⟩
      rw [(hfile g).2.1] at hclosed
      rw [(hfile g).2.2, hgen] at hg
      exact ⟨⟨hclosed, hg⟩, (hfile g).1⟩
    · intro k hk
      rw [Volume.dirtyOf_write, if_neg fun hand => hk hand.1]
  have hdirty : (v.write f src).dirty =
      if src = [] then v.dirty else v.dirty ++ [.write (v.files f).node (v.files f).offset src] := by
    rw [Volume.write, Volume.recordWrite]
    split <;> rfl
  refine ⟨?_, ?_, ?_, ?_, ?_, ?_, ?_, ?_, ?_⟩
  · intro p
    rw [hlive]
    exact h.names p
  · intro p
    rw [hdurable]
    exact h.syncedNames p
  · rw [hdirty, h.unsynced, Journal.unsynced_write]
    split <;> simp
  · intro n hn
    show _ = Function.update j.bytes _ _ n
    rw [Volume.inodes_write, Function.update_apply]
    split
    · next heq =>
      subst heq
      rw [h.data _ (hheld hn)]
      rfl
    · exact h.data n (hheld hn)
  · intro n hn
    show _ = j.syncedBytes n
    rw [← h.durable n (hheld hn), Volume.inodes_write]
    split <;> rfl
  · intro n hn
    have hreplays := h.replays n (hheld hn)
    rw [Volume.inodes_write, Volume.dirtyOf_write]
    by_cases hnode : n = (v.files f).node
    · rw [if_pos hnode]
      by_cases hempty : src = []
      · rw [if_neg fun hand => hand.2 hempty]
        have hoffset : (v.files f).offset ≤ (v.inodes n).data.length := by
          rw [hnode]
          exact hsrc hempty
        have hwrite : writeAt (v.inodes n).data (v.files f).offset src = (v.inodes n).data := by
          rw [hempty, writeAt]
          simp [Nat.sub_eq_zero_of_le hoffset]
        rw [hwrite]
        exact hreplays
      · rw [if_pos ⟨hnode, hempty⟩]
        exact hreplays.concat_write _ _ _
    · rw [if_neg hnode, if_neg fun hand => hnode hand.1]
      exact hreplays
  · intro m hm
    rw [hdirty] at hm
    split at hm
    · exact h.positive m hm
    · next hne =>
      rcases List.mem_append.1 hm with hm | hm
      · exact h.positive m hm
      · rw [List.mem_singleton.1 hm]
        exact List.length_pos_iff.2 hne
  · intro n hn
    rw [hnext]
    exact h.bounded n (hheld hn)
  · intro g
    rw [(hfile g).2.2, hgen]
    exact h.generations g

theorem truncate (h : Recorded v j) (hf : SimFile.Usable v f) (size : Nat) :
    Recorded (v.truncate f size) (j.record (.truncate (v.files f).node size)) := by
  have hfile (g : FileID) : ((v.truncate f size).files g).node = (v.files g).node ∧
      ((v.truncate f size).files g).closed = (v.files g).closed ∧
      ((v.truncate f size).files g).generation = (v.files g).generation := by
    rw [Volume.files_truncate]
    split
    · next heq =>
      rw [heq]
      exact ⟨rfl, rfl, rfl⟩
    · exact ⟨rfl, rfl, rfl⟩
  have hheld {n : InodeID} (hn : (v.truncate f size).Held n) : v.Held n := by
    refine held_of_files (v := v) (fun p n (hp : (v.truncate f size).Names p n) => hp) ?_ hf ?_ hn
    · rintro g ⟨hclosed, hg⟩
      rw [(hfile g).2.1] at hclosed
      rw [(hfile g).2.2] at hg
      exact ⟨⟨hclosed, hg⟩, (hfile g).1⟩
    · intro k hk
      rw [Volume.dirtyOf_truncate, if_neg fun hand => hk hand.1]
  have hself : v.Held (v.files f).node := .inr (.inl ⟨f, hf, rfl⟩)
  have hdirty : (v.truncate f size).dirty =
      if size ≠ (v.inodes (v.files f).node).data.length then v.dirty ++
        [.truncate (v.files f).node (v.inodes (v.files f).node).data.length size]
      else v.dirty := rfl
  refine ⟨h.names, h.syncedNames, ?_, ?_, ?_, ?_, ?_, fun n hn => h.bounded n (hheld hn), ?_⟩
  · rw [hdirty, h.unsynced, h.data _ hself, Journal.unsynced_truncate]
    split <;> simp_all
  · intro n hn
    show _ = Function.update j.bytes _ _ n
    rw [Volume.inodes_truncate, Function.update_apply]
    split
    · next heq =>
      subst heq
      rw [h.data _ (hheld hn)]
      rfl
    · exact h.data n (hheld hn)
  · intro n hn
    show _ = j.syncedBytes n
    rw [← h.durable n (hheld hn), Volume.inodes_truncate]
    split <;> rfl
  · intro n hn
    have hreplays := h.replays n (hheld hn)
    rw [Volume.inodes_truncate, Volume.dirtyOf_truncate]
    by_cases hnode : n = (v.files f).node
    · rw [if_pos hnode]
      by_cases hsize : size = (v.inodes n).data.length
      · rw [if_neg fun hand => hand.2 hsize]
        have hresize : resize (v.inodes n).data size = (v.inodes n).data := by
          rw [resize, hsize]
          simp
        rw [hresize]
        exact hreplays
      · rw [if_pos ⟨hnode, hsize⟩]
        exact hreplays.concat_truncate _ _
    · rw [if_neg hnode, if_neg fun hand => hnode hand.1]
      exact hreplays
  · intro m hm
    rw [hdirty] at hm
    split at hm
    · next hne =>
      rcases List.mem_append.1 hm with hm | hm
      · exact h.positive m hm
      · rw [List.mem_singleton.1 hm, SimMutation.byteCount]
        split <;> omega
    · exact h.positive m hm
  · intro g
    rw [(hfile g).2.2]
    exact h.generations g

theorem sync (h : Recorded v j) (hf : SimFile.Usable v f) :
    Recorded (v.sync f) (j.record (.sync (v.files f).node)) := by
  have hheld {n : InodeID} (hn : (v.sync f).Held n) : v.Held n := by
    refine held_of_files (v := v) (fun p n (hp : (v.sync f).Names p n) => hp)
      (fun g hg => ⟨hg, rfl⟩) hf ?_ hn
    intro k hk
    rw [Volume.dirtyOf_sync, if_neg hk]
  refine ⟨h.names, h.syncedNames, ?_, ?_, ?_, ?_, ?_, fun n hn => h.bounded n (hheld hn),
    h.generations⟩
  · show v.dirty.filter _ = Journal.unsyncedAfter j.oldBytes [(v.files f).node] j.effects
    rw [Journal.unsyncedAfter_cons, h.unsynced]
    rfl
  · intro n hn
    show _ = j.bytes n
    rw [← h.data n (hheld hn), Volume.inodes_sync]
    split <;> rfl
  · intro n hn
    show _ = Function.update j.syncedBytes _ (j.bytes (v.files f).node) n
    rw [Volume.inodes_sync, Function.update_apply]
    split
    · next heq =>
      subst heq
      exact h.data _ (hheld hn)
    · exact h.durable n (hheld hn)
  · intro n hn
    rw [Volume.inodes_sync, Volume.dirtyOf_sync]
    split
    · exact .nil _
    · exact h.replays n (hheld hn)
  · intro m hm
    exact h.positive m (List.mem_of_mem_filter hm)

theorem crash_inodes (h : Recorded v j) (retain : Retain) {p : Path} {n : InodeID}
    (hp : v.durableNames.lookup p = some n) :
    (v.crash retain).inodes n = ⟨(j.crash retain).bytes n, (j.crash retain).bytes n⟩ := by
  rw [Volume.inodes_crash retain hp, survivors_eq retain h.positive, h.unsynced,
    h.durable n (.inl ⟨p, .inr hp⟩)]
  rfl

theorem crash (h : Recorded v j) (retain : Retain) : Recorded (v.crash retain) (j.crash retain) := by
  have hheld {n : InodeID} (hn : (v.crash retain).Held n) : ∃ p, v.durableNames.lookup p = some n := by
    rcases hn with ⟨p, hp | hp⟩ | ⟨f, hf, -⟩ | hdirty
    · exact ⟨p, hp⟩
    · exact ⟨p, hp⟩
    · have hgen : (v.files f).generation = v.generation + 1 := hf.2
      have := h.generations f
      omega
    · exact absurd rfl hdirty
  refine ⟨h.syncedNames, h.syncedNames, rfl, ?_, ?_, ?_, fun m hm => absurd hm List.not_mem_nil, ?_,
    fun f => Nat.le_succ_of_le (h.generations f)⟩
  · intro n hn
    obtain ⟨p, hp⟩ := hheld hn
    rw [h.crash_inodes retain hp]
  · intro n hn
    obtain ⟨p, hp⟩ := hheld hn
    rw [h.crash_inodes retain hp]
    rfl
  · intro n hn
    obtain ⟨p, hp⟩ := hheld hn
    rw [h.crash_inodes retain hp]
    exact .nil _
  · intro n hn
    obtain ⟨p, hp⟩ := hheld hn
    exact h.bounded n (.inl ⟨p, .inr hp⟩)

theorem hit (h : Recorded v j) (fault : Fault) : Recorded (fault.hit v) (j.hit fault) := by
  cases fault with
  | error => exact h
  | crash retain => exact h.crash retain

theorem recover (h : Recorded v j) : Recorded { v with crashed := false } j :=
  { h with }

end Recorded

end MiniQuorum.Lsm
