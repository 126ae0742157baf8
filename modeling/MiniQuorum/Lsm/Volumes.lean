import MiniQuorum.Lsm.FSRules

/-! What the operations on a volume leave alone. -/

namespace MiniQuorum.Lsm

open Codec Program

namespace Volume

def dirtyOf (v : Volume) (n : InodeID) : List SimMutation := v.dirty.filter (·.node = n)

def Names (v : Volume) (p : Path) (n : InodeID) : Prop :=
  v.live.lookup p = some n ∨ v.durableNames.lookup p = some n

/-- Inodes are numbered as they are made, and no two names share one. -/
structure Proper (v : Volume) : Prop where
  names_lt : ∀ p n, v.Names p n → n < v.nextInode
  dirty_lt : ∀ m ∈ v.dirty, m.node < v.nextInode
  handles_lt : ∀ f, (v.files f).closed = false → (v.files f).node < v.nextInode
  unique : ∀ p q n, v.Names p n → v.Names q n → p = q

def SameHandle (file file' : SimFile) : Prop :=
  file'.node = file.node ∧ file'.closed = file.closed ∧ file'.generation = file.generation

/-- `v'` has the files `P` of `v`, some of them with more of their names durable, and the
handles `H`. -/
structure Keeps (P : Path → Prop) (H : FileID → Prop) (v v' : Volume) : Prop where
  live : ∀ p, P p → v'.live.lookup p = v.live.lookup p
  durable : ∀ p, P p → v'.durableNames.lookup p = v.durableNames.lookup p ∨
    v'.durableNames.lookup p = v.live.lookup p
  inodes : ∀ p n, P p → v'.Names p n → v'.inodes n = v.inodes n
  dirty : ∀ p n, P p → v'.Names p n → v'.dirtyOf n = v.dirtyOf n
  handles : ∀ f, H f → f < v.nextFile → SameHandle (v.files f) (v'.files f)
  nextFile : v.nextFile ≤ v'.nextFile
  generation : v'.generation = v.generation
  crashed : v'.crashed = v.crashed
  proper : v.Proper → v'.Proper

variable {P : Path → Prop} {H : FileID → Prop} {v v' v'' : Volume} {p q : Path} {n : InodeID}
  {f : FileID} {b : Bytes}

theorem Keeps.refl : Keeps P H v v :=
  ⟨fun _ _ => rfl, fun _ _ => .inl rfl, fun _ _ _ _ => rfl, fun _ _ _ _ => rfl,
    fun _ _ _ => ⟨rfl, rfl, rfl⟩, le_rfl, rfl, rfl, id⟩

theorem Keeps.names (h : Keeps P H v v') (hp : P p) (hn : v'.Names p n) : v.Names p n := by
  rcases hn with hn | hn
  · exact .inl ((h.live p hp).symm.trans hn)
  · rcases h.durable p hp with heq | heq
    · exact .inr (heq.symm.trans hn)
    · exact .inl (heq.symm.trans hn)

theorem Keeps.mono {P' : Path → Prop} {H' : FileID → Prop} (h : Keeps P H v v')
    (hP : ∀ p, P' p → P p) (hH : ∀ f, H' f → H f) : Keeps P' H' v v' :=
  { h with
    live := fun p hp => h.live p (hP p hp)
    durable := fun p hp => h.durable p (hP p hp)
    inodes := fun p n hp => h.inodes p n (hP p hp)
    dirty := fun p n hp => h.dirty p n (hP p hp)
    handles := fun f hf => h.handles f (hH f hf) }

theorem Keeps.trans (h : Keeps P H v v') (h' : Keeps P H v' v'') : Keeps P H v v'' where
  live p hp := (h'.live p hp).trans (h.live p hp)
  durable p hp := by
    rcases h'.durable p hp with heq | heq
    · rw [heq]
      exact h.durable p hp
    · rw [heq, h.live p hp]
      exact .inr rfl
  inodes p n hp hn := (h'.inodes p n hp hn).trans (h.inodes p n hp (h'.names hp hn))
  dirty p n hp hn := (h'.dirty p n hp hn).trans (h.dirty p n hp (h'.names hp hn))
  handles f hf hlt := by
    obtain ⟨hnode, hclosed, hgen⟩ := h.handles f hf hlt
    obtain ⟨hnode', hclosed', hgen'⟩ := h'.handles f hf (hlt.trans_le h.nextFile)
    exact ⟨hnode'.trans hnode, hclosed'.trans hclosed, hgen'.trans hgen⟩
  nextFile := h.nextFile.trans h'.nextFile
  generation := h'.generation.trans h.generation
  crashed := h'.crashed.trans h.crashed
  proper hv := h'.proper (h.proper hv)

/-! ### Making and removing names -/

theorem names_create (hn : (v.create q).Names p n) : v.Names p n ∨ p = q ∧ n = v.nextInode := by
  by_cases hp : p = q
  · subst hp
    rcases hn with hn | hn
    · rw [Volume.create, AList.lookup_insert, Option.some.injEq] at hn
      exact .inr ⟨rfl, hn.symm⟩
    · exact .inl (.inr hn)
  · rcases hn with hn | hn
    · exact .inl (.inl ((AList.lookup_insert_ne hp).symm.trans hn))
    · exact .inl (.inr hn)

theorem Proper.create (h : v.Proper) (q : Path) : (v.create q).Proper := by
  refine ⟨?_, ?_, ?_, ?_⟩
  · intro p n hn
    show n < v.nextInode + 1
    rcases names_create hn with hn | ⟨-, rfl⟩
    · exact Nat.lt_succ_of_lt (h.names_lt p n hn)
    · exact Nat.lt_succ_self _
  · intro m hm
    exact Nat.lt_succ_of_lt (h.dirty_lt m hm)
  · intro f hf
    exact Nat.lt_succ_of_lt (h.handles_lt f hf)
  · intro p p' n hn hn'
    rcases names_create hn with hold | ⟨rfl, rfl⟩
    · rcases names_create hn' with hold' | ⟨rfl, rfl⟩
      · exact h.unique p p' n hold hold'
      · exact absurd (h.names_lt p _ hold) (lt_irrefl _)
    · rcases names_create hn' with hold' | ⟨rfl, -⟩
      · exact absurd (h.names_lt p' _ hold') (lt_irrefl _)
      · rfl

theorem keeps_create (h : v.Proper) (q : Path) : Keeps (· ≠ q) H v (v.create q) := by
  refine ⟨?_, fun _ _ => .inl rfl, ?_, fun _ _ _ _ => rfl, fun _ _ _ => ⟨rfl, rfl, rfl⟩, le_rfl,
    rfl, rfl, fun h => h.create q⟩
  · intro p hp
    exact AList.lookup_insert_ne hp
  · intro p n hp hn
    rcases names_create hn with hn | ⟨rfl, -⟩
    · exact Function.update_of_ne (h.names_lt p n hn).ne _ _
    · exact absurd rfl hp

theorem Proper.of_names (h : v.Proper) (hnames : ∀ p n, v'.Names p n → v.Names p n)
    (hnext : v'.nextInode = v.nextInode) (hdirty : ∀ m ∈ v'.dirty, m.node < v.nextInode)
    (hfiles : ∀ f, (v'.files f).closed = false → (v'.files f).node < v.nextInode) : v'.Proper where
  names_lt p n hn := hnext ▸ h.names_lt p n (hnames p n hn)
  dirty_lt m hm := hnext ▸ hdirty m hm
  handles_lt f hf := hnext ▸ hfiles f hf
  unique p q n hp hq := h.unique p q n (hnames p n hp) (hnames q n hq)

theorem keeps_remove (q : Path) : Keeps (· ≠ q) H v (v.remove q) := by
  refine ⟨?_, fun _ _ => .inl rfl, fun _ _ _ _ => rfl, fun _ _ _ _ => rfl,
    fun _ _ _ => ⟨rfl, rfl, rfl⟩, le_rfl, rfl, rfl,
    fun h => h.of_names ?_ rfl h.dirty_lt h.handles_lt⟩
  · intro p hp
    exact AList.lookup_erase_ne hp
  · intro p n hn
    by_cases hp : p = q
    · subst hp
      rcases hn with hn | hn
      · rw [Volume.remove, AList.lookup_erase] at hn
        cases hn
      · exact .inr hn
    · rcases hn with hn | hn
      · exact .inl ((AList.lookup_erase_ne hp).symm.trans hn)
      · exact .inr hn

theorem lookup_syncDir (dir : Bytes) (p : Path) :
    (v.syncDir dir).durableNames.lookup p =
      if p.dir = dir then v.live.lookup p else v.durableNames.lookup p :=
  Namespace.lookup_syncDir _ _ _ _

theorem keeps_syncDir (dir : Bytes) : Keeps P H v (v.syncDir dir) := by
  have hlookup (p : Path) : (v.syncDir dir).durableNames.lookup p = v.durableNames.lookup p ∨
      (v.syncDir dir).durableNames.lookup p = v.live.lookup p := by
    rw [lookup_syncDir]
    split
    · exact .inr rfl
    · exact .inl rfl
  refine ⟨fun _ _ => rfl, fun p _ => hlookup p, fun _ _ _ _ => rfl, fun _ _ _ _ => rfl,
    fun _ _ _ => ⟨rfl, rfl, rfl⟩, le_rfl, rfl, rfl,
    fun h => h.of_names ?_ rfl h.dirty_lt h.handles_lt⟩
  rintro p n (hn | hn)
  · exact .inl hn
  · rcases hlookup p with heq | heq
    · exact .inr (heq.symm.trans hn)
    · exact .inl (heq.symm.trans hn)

/-! ### Handles -/

theorem files_newFile (n : InodeID) (q : Path) (offset : Nat) (f : FileID) :
    (v.newFile n q offset).files f =
      if f = v.nextFile then ⟨n, q, offset, v.generation, false⟩ else v.files f :=
  Function.update_apply _ _ _ _

theorem keeps_newFile (hn : n < v.nextInode) (q : Path) (offset : Nat) :
    Keeps P H v (v.newFile n q offset) := by
  refine ⟨fun _ _ => rfl, fun _ _ => .inl rfl, fun _ _ _ _ => rfl, fun _ _ _ _ => rfl, ?_,
    Nat.le_succ _, rfl, rfl, fun h => h.of_names (fun _ _ hn => hn) rfl h.dirty_lt ?_⟩
  · intro f _ hlt
    rw [files_newFile, if_neg hlt.ne]
    exact ⟨rfl, rfl, rfl⟩
  · intro f hf
    rw [files_newFile] at hf ⊢
    split at hf
    · next heq =>
      rw [if_pos heq]
      exact hn
    · next heq =>
      rw [if_neg heq]
      exact h.handles_lt f hf

theorem files_close (f g : FileID) :
    (v.close f).files g = if g = f then { v.files f with closed := true } else v.files g :=
  Function.update_apply _ _ _ _

theorem keeps_close (f : FileID) : Keeps P (· ≠ f) v (v.close f) := by
  refine ⟨fun _ _ => rfl, fun _ _ => .inl rfl, fun _ _ _ _ => rfl, fun _ _ _ _ => rfl, ?_, le_rfl,
    rfl, rfl, fun h => h.of_names (fun _ _ hn => hn) rfl h.dirty_lt ?_⟩
  · intro g hg _
    rw [files_close, if_neg hg]
    exact ⟨rfl, rfl, rfl⟩
  · intro g hg
    rw [files_close] at hg ⊢
    split at hg
    · cases hg
    · next heq =>
      rw [if_neg heq]
      exact h.handles_lt g hg

/-! ### Bytes -/

theorem files_write (src : Bytes) (g : FileID) :
    (v.write f src).files g =
      if g = f then { v.files f with offset := (v.files f).offset + src.length } else v.files g := by
  rw [Volume.write, recordWrite]
  split <;> exact Function.update_apply _ _ _ _

theorem names_write (src : Bytes) : (v.write f src).Names p n ↔ v.Names p n := by
  rw [Volume.write, recordWrite]
  split <;> rfl

theorem inodes_write (src : Bytes) (n : InodeID) :
    (v.write f src).inodes n =
      if n = (v.files f).node then
        ⟨writeAt (v.inodes n).data (v.files f).offset src, (v.inodes n).durable⟩
      else v.inodes n := by
  have hupdate : (v.write f src).inodes = Function.update v.inodes (v.files f).node
      ⟨writeAt (v.inodes (v.files f).node).data (v.files f).offset src,
        (v.inodes (v.files f).node).durable⟩ := by
    rw [Volume.write, recordWrite]
    split <;> rfl
  rw [hupdate, Function.update_apply]
  split
  · next heq => rw [heq]
  · rfl

theorem dirtyOf_write (src : Bytes) (n : InodeID) :
    (v.write f src).dirtyOf n =
      if n = (v.files f).node ∧ src ≠ [] then
        v.dirtyOf n ++ [.write n (v.files f).offset src]
      else v.dirtyOf n := by
  have hdirty : (v.write f src).dirty =
      if src = [] then v.dirty else v.dirty ++ [.write (v.files f).node (v.files f).offset src] := by
    rw [Volume.write, recordWrite]
    split <;> rfl
  rw [dirtyOf, hdirty]
  by_cases hsrc : src = []
  · rw [if_pos hsrc, if_neg (by simp [hsrc])]
    rfl
  · rw [if_neg hsrc, List.filter_append]
    by_cases hn : n = (v.files f).node
    · rw [if_pos ⟨hn, hsrc⟩, hn]
      simp [dirtyOf, SimMutation.node]
    · rw [if_neg (by simp [hn])]
      simp [dirtyOf, SimMutation.node, Ne.symm hn]

theorem keeps_write (hf : (v.files f).closed = false) (src : Bytes) :
    Keeps (fun p => ¬v.Names p (v.files f).node) H v (v.write f src) := by
  have hne {p : Path} {n : InodeID} (hp : ¬v.Names p (v.files f).node)
      (hn : (v.write f src).Names p n) : n ≠ (v.files f).node := by
    rintro rfl
    exact hp ((names_write src).1 hn)
  have hsame : (v.write f src).live = v.live ∧ (v.write f src).durableNames = v.durableNames ∧
      (v.write f src).nextFile = v.nextFile ∧ (v.write f src).generation = v.generation ∧
      (v.write f src).crashed = v.crashed ∧ (v.write f src).nextInode = v.nextInode := by
    rw [Volume.write, recordWrite]
    split <;> exact ⟨rfl, rfl, rfl, rfl, rfl, rfl⟩
  obtain ⟨hlive, hdurable, hnextFile, hgen, hcrashed, hnextInode⟩ := hsame
  refine ⟨?_, ?_, ?_, ?_, ?_, hnextFile.ge, hgen, hcrashed, fun h => ?_⟩
  · intro p _
    rw [hlive]
  · intro p _
    rw [hdurable]
    exact .inl rfl
  · intro p n hp hn
    rw [inodes_write, if_neg (hne hp hn)]
  · intro p n hp hn
    rw [dirtyOf_write, if_neg fun h => hne hp hn h.1]
  · intro g _ _
    rw [files_write]
    split
    · next heq =>
      rw [heq]
      exact ⟨rfl, rfl, rfl⟩
    · exact ⟨rfl, rfl, rfl⟩
  · refine h.of_names (fun _ _ hn => (names_write src).1 hn) hnextInode ?_ ?_
    · intro m hm
      rw [Volume.write, recordWrite] at hm
      split at hm
      · exact h.dirty_lt m hm
      · rcases List.mem_append.1 hm with hm | hm
        · exact h.dirty_lt m hm
        · rw [List.mem_singleton.1 hm]
          exact h.handles_lt f hf
    · intro g hg
      rw [files_write] at hg ⊢
      split
      · exact h.handles_lt f hf
      · next heq =>
        rw [if_neg heq] at hg
        exact h.handles_lt g hg

theorem files_truncate (size : Nat) (g : FileID) :
    (v.truncate f size).files g =
      if g = f then { v.files f with offset := min (v.files f).offset size } else v.files g :=
  Function.update_apply _ _ _ _

theorem inodes_truncate (size : Nat) (n : InodeID) :
    (v.truncate f size).inodes n =
      if n = (v.files f).node then ⟨resize (v.inodes n).data size, (v.inodes n).durable⟩
      else v.inodes n := by
  show Function.update _ _ _ _ = _
  rw [Function.update_apply]
  split
  · next heq => rw [heq]
  · rfl

theorem dirtyOf_truncate (size : Nat) (n : InodeID) :
    (v.truncate f size).dirtyOf n =
      if n = (v.files f).node ∧ size ≠ (v.inodes n).data.length then
        v.dirtyOf n ++ [.truncate n (v.inodes n).data.length size]
      else v.dirtyOf n := by
  show List.filter _ (if _ then _ else _) = _
  by_cases hn : n = (v.files f).node
  · subst hn
    by_cases hsize : size = (v.inodes (v.files f).node).data.length
    · simp [hsize, dirtyOf]
    · simp [hsize, dirtyOf, SimMutation.node]
  · simp only [hn, false_and, if_false]
    split
    · rw [List.filter_append]
      simp [dirtyOf, SimMutation.node, Ne.symm hn]
    · rfl

theorem inodes_sync (f : FileID) (n : InodeID) :
    (v.sync f).inodes n =
      if n = (v.files f).node then ⟨(v.inodes n).data, (v.inodes n).data⟩ else v.inodes n := by
  show Function.update _ _ _ _ = _
  rw [Function.update_apply]
  split
  · next heq => rw [heq]
  · rfl

theorem dirtyOf_sync (f : FileID) (n : InodeID) :
    (v.sync f).dirtyOf n = if n = (v.files f).node then [] else v.dirtyOf n := by
  show (v.dirty.filter _).filter _ = _
  rw [List.filter_filter]
  split
  · next heq =>
    rw [List.filter_eq_nil_iff]
    intro m _
    simp [heq]
  · next hne =>
    refine List.filter_congr ?_
    intro m _
    by_cases hm : m.node = n
    · simp [hm, hne]
    · simp [hm]

theorem keeps_sync (f : FileID) :
    Keeps (fun p => ¬v.Names p (v.files f).node) H v (v.sync f) := by
  have hne {p : Path} {n : InodeID} (hp : ¬v.Names p (v.files f).node)
      (hn : (v.sync f).Names p n) : n ≠ (v.files f).node := by
    rintro rfl
    exact hp hn
  refine ⟨fun _ _ => rfl, fun _ _ => .inl rfl, ?_, ?_, fun _ _ _ => ⟨rfl, rfl, rfl⟩, le_rfl, rfl,
    rfl, fun h => h.of_names (fun _ _ hn => hn) rfl ?_ h.handles_lt⟩
  · intro p n hp hn
    rw [inodes_sync, if_neg (hne hp hn)]
  · intro p n hp hn
    rw [dirtyOf_sync, if_neg (hne hp hn)]
  · intro m hm
    exact h.dirty_lt m (List.mem_of_mem_filter hm)

theorem Keeps.others (hv : v.Proper) (hn : v.Names q n) (h : Keeps (fun p => ¬v.Names p n) H v v') :
    Keeps (· ≠ q) H v v' :=
  h.mono (fun _ hp hname => hp (hv.unique _ _ n hname hn)) (fun _ hf => hf)

/-! ### Crashes -/

theorem inodes_crash (retain : Retain) (hn : v.durableNames.lookup p = some n) :
    (v.crash retain).inodes n =
      ⟨survivors retain v.dirty (fun k => (v.inodes k).durable) n,
        survivors retain v.dirty (fun k => (v.inodes k).durable) n⟩ :=
  if_pos ⟨⟨p, n⟩, AList.mem_lookup_iff.1 hn, rfl⟩

/-! ### Settled files and open handles -/

/-- The file `p` is inode `n` with the bytes `b`, which are on the platter. -/
structure Synced (v : Volume) (p : Path) (n : InodeID) (b : Bytes) : Prop where
  live : v.live.lookup p = some n
  inode : v.inodes n = ⟨b, b⟩
  clean : v.dirtyOf n = []

/-- The name of the file is on the platter too. -/
structure Settled (v : Volume) (p : Path) (n : InodeID) (b : Bytes) : Prop extends
    Synced v p n b where
  durable : v.durableNames.lookup p = some n

theorem Synced.keeps (h : v.Synced p n b) (hk : Keeps P H v v') (hp : P p) : v'.Synced p n b := by
  have hlive : v'.live.lookup p = some n := (hk.live p hp).trans h.live
  exact ⟨hlive, (hk.inodes p n hp (.inl hlive)).trans h.inode,
    (hk.dirty p n hp (.inl hlive)).trans h.clean⟩

theorem Settled.keeps (h : v.Settled p n b) (hk : Keeps P H v v') (hp : P p) :
    v'.Settled p n b := by
  refine ⟨h.toSynced.keeps hk hp, ?_⟩
  rcases hk.durable p hp with heq | heq
  · exact heq.trans h.durable
  · exact heq.trans h.live

structure Opened (v : Volume) (f : FileID) (n : InodeID) : Prop where
  lt : f < v.nextFile
  node : (v.files f).node = n
  closed : (v.files f).closed = false
  generation : (v.files f).generation = v.generation

theorem Opened.keeps (h : v.Opened f n) (hk : Keeps P H v v') (hf : H f) : v'.Opened f n := by
  obtain ⟨hnode, hclosed, hgen⟩ := hk.handles f hf h.lt
  exact ⟨h.lt.trans_le hk.nextFile, hnode.trans h.node, hclosed.trans h.closed,
    (hgen.trans h.generation).trans hk.generation.symm⟩

theorem Opened.bytes_eq (h : v.Opened f n) (hs : v.Settled p n b) : v.bytes f = b := by
  rw [bytes, h.node, hs.inode]

theorem opened_newFile (n : InodeID) (q : Path) (offset : Nat) :
    (v.newFile n q offset).Opened v.nextFile n := by
  refine ⟨Nat.lt_succ_self _, ?_, ?_, ?_⟩ <;> rw [files_newFile, if_pos rfl]
  rfl

structure Created (v : Volume) (q : Path) (v' : Volume) : Prop where
  proper : v'.Proper
  live : v'.live.lookup q = some v.nextInode
  inode : v'.inodes v.nextInode = ⟨[], []⟩
  opened : v'.Opened v.nextFile v.nextInode
  offset : (v'.files v.nextFile).offset = 0

theorem Proper.created (h : v.Proper) (q : Path) :
    Keeps (· ≠ q) H v ((v.create q).newFile v.nextInode q 0) ∧
      Created v q ((v.create q).newFile v.nextInode q 0) := by
  have hn : v.nextInode < (v.create q).nextInode := Nat.lt_succ_self v.nextInode
  have hkeeps {H : FileID → Prop} : Keeps (· ≠ q) H (v.create q)
      ((v.create q).newFile v.nextInode q 0) := keeps_newFile hn q 0
  refine ⟨(keeps_create h q).trans hkeeps,
    (hkeeps (H := fun _ => True)).proper (h.create q), AList.lookup_insert _,
    Function.update_self _ _ _, opened_newFile _ _ _, ?_⟩
  rw [files_newFile]
  exact congrArg SimFile.offset (if_pos rfl)

/-- `f` is an open handle on the file `q`, which is the inode `n`. -/
structure OnFile (v : Volume) (q : Path) (n : InodeID) (f : FileID) : Prop where
  proper : v.Proper
  live : v.live.lookup q = some n
  opened : v.Opened f n

theorem OnFile.keeps (h : v.OnFile q n f) (hk : Keeps P H v v')
    (hlive : v'.live.lookup q = v.live.lookup q) (hf : H f) : v'.OnFile q n f :=
  ⟨hk.proper h.proper, hlive.trans h.live, h.opened.keeps hk hf⟩

theorem OnFile.keeps_write (h : v.OnFile q n f) (src : Bytes) :
    Keeps (· ≠ q) H v (v.write f src) ∧ (v.write f src).OnFile q n f := by
  have hkeeps {H : FileID → Prop} : Keeps (· ≠ q) H v (v.write f src) :=
    (Volume.keeps_write h.opened.closed src).others h.proper (.inl (h.opened.node ▸ h.live))
  have hlive : (v.write f src).live = v.live := by
    rw [Volume.write, recordWrite]
    split <;> rfl
  exact ⟨hkeeps, h.keeps (hkeeps (H := fun _ => True)) (by rw [hlive]) trivial⟩

theorem OnFile.keeps_sync (h : v.OnFile q n f) :
    Keeps (· ≠ q) H v (v.sync f) ∧ (v.sync f).OnFile q n f := by
  have hkeeps {H : FileID → Prop} : Keeps (· ≠ q) H v (v.sync f) :=
    (Volume.keeps_sync f).others h.proper (.inl (h.opened.node ▸ h.live))
  exact ⟨hkeeps, h.keeps (hkeeps (H := fun _ => True)) rfl trivial⟩

theorem writeAt_length (image data : Bytes) : writeAt image image.length data = image ++ data := by
  rw [writeAt, Nat.add_sub_cancel_left, List.take_left' rfl, List.drop_of_length_le (by simp), List.append_nil]

/-- Bytes written at the end of a file and synced are on the platter. -/
theorem OnFile.append (h : v.OnFile p n f) (hdata : (v.inodes n).data = b)
    (hoffset : (v.files f).offset = b.length) (src : Bytes) :
    ((v.write f src).sync f).Synced p n (b ++ src) ∧
      ((v.write f src).sync f).durableNames = v.durableNames ∧
      Keeps (· ≠ p) H v ((v.write f src).sync f) := by
  obtain ⟨hwrite, h₁⟩ := h.keeps_write (H := H) src
  obtain ⟨hsync, h₂⟩ := h₁.keeps_sync (H := H)
  refine ⟨⟨h₂.live, ?_, ?_⟩, ?_, hwrite.trans hsync⟩
  · rw [inodes_sync, if_pos h₁.opened.node.symm, inodes_write, if_pos h.opened.node.symm, hdata,
      hoffset, writeAt_length]
  · rw [dirtyOf_sync, if_pos h₁.opened.node.symm]
  · rw [Volume.sync, Volume.write, recordWrite]
    split <;> rfl

end Volume

end MiniQuorum.Lsm
