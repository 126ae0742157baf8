import MiniQuorum.Lsm.EngineInvariant

/-! A compaction that succeeds: the merge of the inputs holds the newest record of each of
their keys, and the edit that replaces them by it is published before they are removed. -/

namespace MiniQuorum.Lsm

open Codec Program Volume Raft SimFile Collections

variable {m : Marshaler VersionEdit} {V : Version} {s : Store} {engine : Engine} {v v' : Volume}
  {f : FileID} {b dir : Bytes} {entries : List TableEntry} {inputs : List TableHandle}
  {tables : List Table}

/-! ### Merging the inputs -/

def Still (engine : Engine) (v : Volume) (s : Store) : Prop :=
  s.engine = engine ∧ s.fs.toVolume = v

theorem pull_spec {it after : SSTableEntryIterator} {entry : Option TableEntry}
    (hbytes : v.bytes f = b) (h : it.next.eval (slice b) .eof = .ok (entry, after))
    (hs : Still engine v s) :
    wp (TableSource.next (f, it)) (fun r t => r = (entry, f, after) ∧ Still engine v t)
      (fun _ _ => True) s := by
  obtain ⟨rfl, rfl⟩ := hs
  rw [TableSource.next, wp_bind, wp_onFS]
  refine wp_imp (run_opened hbytes h) ?_
  rintro _ fs' ⟨rfl, hvol⟩
  exact ⟨rfl, rfl, hvol⟩

theorem streams_yields {it : SSTableEntryIterator} {l : List TableEntry} (hbytes : v.bytes f = b)
    (h : it.Yields (slice b) l) :
    Streams TableSource.next (Still engine v) (fun _ => True) l (f, it) := by
  induction h with
  | @ends it final h =>
    intro s hs
    refine wp_imp (pull_spec hbytes h hs) ?_
    rintro _ t ⟨rfl, ht⟩
    have hfinal : final.next.eval (slice b) .eof = .ok (none, final) := by
      rw [SSTableEntryIterator.next_of_none h]
      rfl
    exact ⟨rfl, ht, fun u hu => pull_spec hbytes hfinal hu⟩
  | @more it after entry entries h hrest ih =>
    intro s hs
    refine wp_imp (pull_spec hbytes h hs) ?_
    rintro _ t ⟨rfl, ht⟩
    exact ⟨rfl, ht, ih⟩

theorem mergeEntries_spec {I : Store → Prop} {records fuel : Nat}
    {merge : KWayMergeIterator TableSource} {rest : List (List TableEntry)} (hs : I s)
    (h : Merging TableSource.next I (fun _ => True) (fun _ => False) merge rest)
    (hrecords : merge.left rest < records) (hfuel : merge.left rest < fuel)
    (hstore : ∀ e, Pending merge rest e → Storable e)
    (hbefore : ∀ a ∈ entries, ∀ e, Pending merge rest e → a.key < e.key) :
    wp (mergeEntries records fuel merge entries)
      (fun out t => I t ∧ ∃ new, out = entries ++ new ∧ MergeOf (Pending merge rest) new)
      (fun _ _ => True) s := by
  induction fuel generalizing merge rest entries s with
  | zero => exact absurd hfuel (Nat.not_lt_zero _)
  | succ fuel ih =>
    rw [mergeEntries, wp_bind]
    refine wp_imp (Merging.next hs h hrecords) ?_
    rintro ⟨entry, merge'⟩ t ⟨ht, hentry⟩
    cases entry with
    | none => exact ⟨ht, [], by simp, .nil hentry⟩
    | some w =>
      obtain ⟨rest', hmerging, hlt, hround⟩ := hentry
      have hless : merge'.left rest' < merge.left rest := hlt
      have hback (e : TableEntry) (he : Pending merge' rest' e) : Pending merge rest e :=
        ((hround.after_iff e).1 he).1
      show wp (_ >>= _) _ _ _
      rw [wp_bind, SSTableWriter.add_of_lt fun a ha => hbefore a ha w hround.mem,
        TableEntry.stored_of_storable (hstore w hround.mem)]
      show wp (mergeEntries records fuel merge' (entries ++ [w])) _ _ t
      refine wp_imp (ih ht hmerging (by omega) (by omega) (fun e he => hstore e (hback e he)) ?_) ?_
      · intro a ha e he
        rcases List.mem_append.1 ha with ha | ha
        · exact hbefore a ha e (hback e he)
        · rw [List.mem_singleton.1 ha]
          exact ((hround.after_iff e).1 he).2
      · rintro out u ⟨hu, new, rfl, hnew⟩
        exact ⟨hu, w :: new, by simp, .cons hround hnew⟩

theorem mergeInputs_streams {I : Store → Prop} {lists : List (List TableEntry)} (hs : I s)
    (hstreams : List.Forall₂ (fun l source => Streams TableSource.next I (fun _ => True) l source) lists
      (inputs.map fun input => (input.file, newSSTableEntryIterator input.reader)))
    (hsorted : ∀ l ∈ lists, l.Pairwise RecordOrder) (hstore : ∀ l ∈ lists, ∀ e ∈ l, Storable e)
    (hcount : (inputs.map fun input => input.reader.entryCount).sum = lists.flatten.length) :
    wp (mergeInputs inputs)
      (fun out t => I t ∧ out ≠ [] ∧ MergeOf (fun e => ∃ l ∈ lists, e ∈ l) out)
      (fun _ _ => True) s := by
  rw [mergeInputs, wp_bind]
  refine wp_imp (newKWayMergeIterator_spec hstreams hsorted hs) ?_
  rintro merge t ⟨ht, rest, hmerging, hleft, hpending⟩
  have hsame : Pending merge rest = fun e => ∃ l ∈ lists, e ∈ l := funext fun e => propext (hpending e)
  have hmerge := mergeEntries_spec ht hmerging (Nat.lt_succ_of_le (hleft.trans hcount.symm).le)
    (Nat.lt_succ_of_le (hleft.trans hcount.symm).le) (fun e he => by
      obtain ⟨l, hl, hel⟩ := (hpending e).1 he
      exact hstore l hl e hel) (fun a ha => absurd ha List.not_mem_nil)
  rw [hsame] at hmerge
  rw [wp_bind]
  refine wp_imp hmerge ?_
  rintro out u ⟨hu, new, rfl, hnew⟩
  rw [wp_bind, wp_failIf]
  exact ⟨fun _ => trivial, fun hne => ⟨hu, hne, hnew⟩⟩

theorem MergeOf.condenses {S : TableEntry → Prop} {out : List TableEntry} (h : MergeOf S out)
    (hstore : ∀ e, S e → Storable e) :
    Condenses TableEntry.key TableEntry.seq { e | e ∈ out } { e | S e } := by
  refine ⟨fun e he => (h.newest e he).1, fun e he hnot => ?_⟩
  obtain ⟨w, hw, hkey⟩ := h.covers e he
  obtain ⟨hSw, hnewest⟩ := h.newest w hw
  refine ⟨w, hw, hkey, lt_of_le_of_ne (hnewest e he hkey.symm) fun hseq => hnot ?_⟩
  -- two records of one number agree, or the merge had failed
  have hsame : SameRecord e w := ⟨hkey.symm, hseq, by
    by_contra hne
    exact h.agree e w he hSw ⟨hkey.symm, hseq, Bool.eq_false_iff.2 hne⟩⟩
  rw [hsame.eq (hstore e he).tombstone (hstore w hSw).tombstone]
  exact hw

theorem MergeOf.sorted {S : TableEntry → Prop} {out : List TableEntry} (h : MergeOf S out) :
    out.Pairwise RecordOrder :=
  h.ascending.imp Or.inl

theorem served_lists (h : List.Forall₂ (fun t input => Serves v dir input t) tables inputs) :
    (∀ l ∈ tables.map Table.entries, l.Pairwise RecordOrder) ∧
      (inputs.map fun input => input.reader.entryCount).sum =
        (tables.map Table.entries).flatten.length := by
  induction h with
  | nil => exact ⟨by simp, rfl⟩
  | cons hserves hrest ih =>
    obtain ⟨n, b, -, -, hreads⟩ := hserves.file
    refine ⟨List.forall_mem_cons.2 ⟨hreads.tableOf.sorted, ih.1⟩, ?_⟩
    rw [List.map_cons, List.sum_cons, List.map_cons, List.flatten_cons, List.length_append, ← ih.2,
      hreads.tableOf.entryCount]

structure Merged (tables : List Table) (entries : List TableEntry) : Prop where
  nonempty : entries ≠ []
  sorted : entries.Pairwise RecordOrder
  storable : ∀ e ∈ entries, Storable e
  condenses : Condenses TableEntry.key TableEntry.seq { e | e ∈ entries }
    { e | ∃ t ∈ tables, e ∈ t.entries }

theorem mergeInputs_spec
    (h : List.Forall₂ (fun t input => Serves s.fs.toVolume dir input t) tables inputs)
    (hstore : ∀ t ∈ tables, ∀ e ∈ t.entries, Storable e) :
    wp (mergeInputs inputs)
      (fun out t => Still s.engine s.fs.toVolume t ∧ Merged tables out) (fun _ _ => True) s := by
  have hstreams : List.Forall₂ (fun l source => Streams TableSource.next
      (Still s.engine s.fs.toVolume) (fun _ => True) l source) (tables.map Table.entries)
      (inputs.map fun input => (input.file, newSSTableEntryIterator input.reader)) := by
    rw [List.forall₂_map_left_iff, List.forall₂_map_right_iff]
    refine h.imp fun t input hserves => ?_
    obtain ⟨n, b, hsettled, hopened, hreads⟩ := hserves.file
    exact streams_yields (hopened.bytes_eq hsettled)
      (SSTableEntryIterator.yields_allEntries hreads.tableOf.reads)
  have hlists : ∀ l ∈ tables.map Table.entries, ∀ e ∈ l, Storable e := by
    intro l hl
    obtain ⟨t, ht, rfl⟩ := List.mem_map.1 hl
    exact hstore t ht
  obtain ⟨hsorted, hcount⟩ := served_lists h
  refine wp_imp (mergeInputs_streams ⟨rfl, rfl⟩ hstreams hsorted hlists hcount) ?_
  rintro out t ⟨ht, hne, hmerge⟩
  have hcondenses := hmerge.condenses fun e ⟨l, hl, hel⟩ => hlists l hl e hel
  simp only [List.mem_map, exists_exists_and_eq_and] at hcondenses
  refine ⟨ht, hne, hmerge.sorted, fun e he => ?_, hcondenses⟩
  obtain ⟨l, hl, hel⟩ := (hmerge.newest e he).1
  exact hlists l hl e hel

/-! ### Writing the output -/

theorem discarding_spec {α : Type} {x : EngineM α} {Q : α → Store → Prop} {path : Path}
    {file : Option FileID} (hx : wp x Q (fun _ _ => True) s) :
    wp (discarding path file x) Q (fun _ _ => True) s := by
  rw [discarding, wp_bind, wp_attempt]
  exact wp_mono hx (fun _ _ h => h) fun _ _ _ => wp_throws _ _

theorem fillOutput_spec {q : Path} {n : InodeID}
    (hserves : List.Forall₂ (fun t input => Serves s.fs.toVolume dir input t) tables inputs)
    (hstore : ∀ t ∈ tables, ∀ e ∈ t.entries, Storable e) (hfile : s.fs.OnFile q n f)
    (hempty : (s.fs.inodes n).data = []) (hoffset : (s.fs.files f).offset = 0) :
    wp (do
        let entries ← mergeInputs inputs
        onFS (writeOutput f entries)
        return entries)
      (fun entries s' => s'.engine = s.engine ∧ Merged tables entries ∧
        ∃ b, encodeTable entries = .ok b ∧ b.length ≤ maxInt64 ∧ s'.fs.Synced q n b ∧
          Keeps (· ≠ q) (· ≠ f) s.fs.toVolume s'.fs.toVolume)
      (fun _ _ => True) s := by
  rw [wp_bind]
  refine wp_imp (mergeInputs_spec hserves hstore) ?_
  rintro entries s₁ ⟨⟨hengine, hvol⟩, hmerged⟩
  rw [← hvol] at hfile hempty hoffset ⊢
  rw [wp_bind, wp_onFS]
  refine wp_imp (writeOutput_spec hfile hempty hoffset) ?_
  intro _ fs₂ hwritten
  exact ⟨hengine, hmerged, hwritten⟩

theorem exists_served {V : Version}
    (h : ∀ input ∈ inputs, ∃ t ∈ V.tables, Serves v dir input t) :
    ∃ tables, List.Forall₂ (fun t input => Serves v dir input t) tables inputs ∧
      (∀ t ∈ tables, t ∈ V.tables) ∧
      tables.map (fun t => t.metadata.file) = inputs.map fun input => input.metadata.file := by
  induction inputs with
  | nil => exact ⟨[], .nil, by simp, rfl⟩
  | cons input inputs ih =>
    obtain ⟨t, ht, hserves⟩ := h input List.mem_cons_self
    obtain ⟨tables, hall, hmem, hnames⟩ := ih fun i hi => h i (List.mem_cons_of_mem _ hi)
    refine ⟨t :: tables, .cons hserves hall, ?_, ?_⟩
    · intro u hu
      rcases List.mem_cons.1 hu with rfl | hu
      · exact ht
      · exact hmem u hu
    · rw [List.map_cons, List.map_cons, hnames, hserves.metadata]

theorem Version.Sound.named {V : Version} (hV : V.Sound) {tables : List Table}
    (hmem : ∀ t ∈ tables, t ∈ V.tables) :
    { e | ∃ t ∈ V.tables, t.metadata.file ∈ tables.map (fun t => t.metadata.file) ∧ e ∈ t.entries } =
      { e | ∃ t ∈ tables, e ∈ t.entries } := by
  ext e
  constructor
  · rintro ⟨t, ht, hname, he⟩
    obtain ⟨u, hu, hfile⟩ := List.mem_map.1 hname
    rw [← hV.eq_of_name (hmem u hu) ht hfile] at he
    exact ⟨u, hu, he⟩
  · rintro ⟨t, ht, he⟩
    exact ⟨t, hmem t ht, List.mem_map_of_mem ht, he⟩

/-- `t` holds the newest records of the inputs. -/
structure Output (V : Version) (inputs : List TableHandle) (t : Table) : Prop where
  condenses : Condenses TableEntry.key TableEntry.seq { e | e ∈ t.entries }
    { e | ∃ u ∈ V.tables, u.metadata.file ∈ inputs.map (fun input => input.metadata.file) ∧
      e ∈ u.entries }
  bounded : ∀ e ∈ t.entries, e.seq ≤ V.flushedIndex

/-- `output` is an open handle on the new table `t`, whose name and handle are its own. -/
structure Fresh (V : Version) (engine : Engine) (v : Volume) (output : TableHandle) (t : Table) :
    Prop where
  running : v.crashed = false
  serves : Serves v engine.dir output t
  unprotected : ¬Protected engine.dir V (engine.path t.metadata.file)
  kept : ∀ o ∈ engine.obsolete, o.path ≠ engine.path t.metadata.file ∧ output.file ∉ o.file
  own : ∀ other ∈ engine.tables, other.file ≠ output.file

theorem allocateFilenameLocked_spec :
    wp allocateFilenameLocked
      (fun name s' => name = sstableFilename s.engine.nextFileNumber ∧
        s.engine.nextFileNumber ≠ maxUint64 ∧
        s' = { s with engine := { s.engine with nextFileNumber := s.engine.nextFileNumber + 1 } })
      (fun _ _ => True) s := by
  rw [allocateFilenameLocked, wp_bind, wp_getEngine, wp_bind, wp_failIf]
  exact ⟨fun _ => trivial, fun hnumber => ⟨rfl, (not_or.1 hnumber).2, rfl⟩⟩

theorem Inv.allocated (h : Inv m V engine v) (hlt : engine.nextFileNumber < maxUint64) :
    Inv m V { engine with nextFileNumber := engine.nextFileNumber + 1 } v := by
  have hshrink {p : Path} (hp : ({ engine with
      nextFileNumber := engine.nextFileNumber + 1 } : Engine).Unused p) : engine.Unused p := by
    obtain ⟨k, hk, hp⟩ := hp
    exact ⟨k, (Nat.le_succ _).trans hk, hp⟩
  refine { h with bounded := hlt, obsolete := fun o ho => ?_, absent := fun hrunning p hp => ?_ }
  · obtain ⟨hunprotected, hunused, hhandle⟩ := h.obsolete o ho
    exact ⟨hunprotected, fun hp => hunused (hshrink hp), hhandle⟩
  · exact h.absent hrunning p (hshrink hp)

theorem Merged.output {entries : List TableEntry} (h : Merged tables entries) (hV : V.Sound)
    (hmem : ∀ t ∈ tables, t ∈ V.tables)
    (hnames : tables.map (fun t => t.metadata.file) = inputs.map fun input => input.metadata.file)
    (metadata : FileMetadata) : Output V inputs ⟨metadata, entries⟩ := by
  refine ⟨?_, ?_⟩
  · rw [← hnames, hV.named hmem]
    exact h.condenses
  · intro e he
    obtain ⟨t, ht, het⟩ := h.condenses.subset he
    exact hV.bounded t (hmem t ht) e het

/-- The name of the next file is no table's, no obsolete file's and no later file's. -/
theorem Inv.reserved (h : Inv m V engine v) (hrunning : v.crashed = false)
    (hlt : engine.nextFileNumber < maxUint64) :
    ¬Protected engine.dir V (engine.path (sstableFilename engine.nextFileNumber)) ∧
      (∀ o ∈ engine.obsolete, o.path ≠ engine.path (sstableFilename engine.nextFileNumber)) ∧
      ¬({ engine with nextFileNumber := engine.nextFileNumber + 1 } : Engine).Unused
        (engine.path (sstableFilename engine.nextFileNumber)) := by
  have hunused : engine.Unused (engine.path (sstableFilename engine.nextFileNumber)) :=
    ⟨_, le_rfl, hlt, rfl⟩
  refine ⟨h.unprotected hrunning hunused, fun o ho hpath => ?_, ?_⟩
  · exact (h.obsolete o ho).unused (hpath ▸ hunused)
  · rintro ⟨k, hk, hklt, hpath⟩
    have hname := sstableFilename_inj hlt.le hklt.le (Path.mk.inj hpath).2
    exact absurd hk (by rw [← hname]; exact Nat.not_succ_le_self _)

theorem writeTable_spec {tier : Nat} {name : FileName} {fs : SimFS}
    (h : Inv m V engine fs.toVolume) (hinputs : ∀ input ∈ inputs, input ∈ engine.tables)
    (hothers : fs.crashed = false →
      ∀ p, Protected engine.dir V p ∨ engine.Unused p → p ≠ engine.path name) :
    wp (do
        let file ← discarding (engine.path name) none (onFS
          ((SimFS.create (engine.path name)).wrap (.wrap "lsm: create compaction SSTable")))
        let entries ← discarding (engine.path name) (some file) do
          let entries ← mergeInputs inputs
          onFS (writeOutput file entries)
          return entries
        discarding (engine.path name) none (onFS ((SimFS.syncDir engine.dir).wrap
          (.wrap "lsm: sync compaction SSTable directory")))
        match ← onFS (openTableOwned engine.dir (tableMetadata tier name entries)
          engine.manifest.flushedIndex) with
        | .ok table => return table
        | .error (owned, err) => do
          let err ← discardCompactionOutputLocked (engine.path name) owned err
          throw err)
      (fun output s' => fs.crashed = false ∧ s'.fs.crashed = false ∧ s'.engine = engine ∧
        Inv m V engine s'.fs.toVolume ∧ fs.nextFile ≤ output.file ∧
        ∃ t, t.metadata.file = name ∧ Output V inputs t ∧ Serves s'.fs.toVolume engine.dir output t)
      (fun _ _ => True) ⟨engine, fs⟩ := by
  rw [wp_bind]
  refine discarding_spec ?_
  rw [wp_onFS, wp_wrap]
  refine wp_imp (SimFS.create_spec _ _) ?_
  rintro f fs₁ ⟨hrunning, rfl, hvol⟩
  obtain ⟨hcreate, hcreated⟩ := h.proper.created (H := fun _ => True) (engine.path name)
  rw [← hvol] at hcreate hcreated
  have h₁ := h.keeps hcreate (hothers hrunning) fun _ _ _ => trivial
  obtain ⟨tables, hserves, hmem, hnames⟩ := exists_served fun input hi =>
    h₁.published (hcreate.crashed.trans hrunning) input (hinputs input hi)
  have hstore (t : Table) (ht : t ∈ tables) (e : TableEntry) (he : e ∈ t.entries) : Storable e := by
    obtain ⟨n, b, reader, -, hreads⟩ := h.stored t (hmem t ht)
    exact hreads.storable e he
  rw [wp_bind]
  refine discarding_spec (wp_imp (@fillOutput_spec ⟨engine, fs₁⟩ _ _ _ _ _ _ hserves hstore
    ⟨hcreated.proper, hcreated.live, hcreated.opened⟩ (congrArg SimInode.data hcreated.inode)
    hcreated.offset) ?_)
  rintro entries ⟨engine₂, fs₂⟩ ⟨hengine, hmerged, b, hencode, hsize, hsynced, hwrite⟩
  obtain rfl : engine = engine₂ := hengine.symm
  have h₂ := h₁.keeps hwrite (hothers hrunning) fun _ table htable =>
    (h.lt_nextFile hrunning htable).ne
  rw [wp_bind]
  refine discarding_spec ?_
  rw [wp_onFS, wp_wrap]
  refine wp_imp (SimFS.syncDir_spec _ _) ?_
  intro _ fs₃ hdir
  have hsync : Keeps (fun _ => True) (fun _ => True) fs₂.toVolume fs₃.toVolume :=
    hdir ▸ keeps_syncDir _
  have h₃ := h₂.keeps hsync (fun _ _ => trivial) fun _ _ _ => trivial
  have hsettled : fs₃.Settled (engine.path name) fs.nextInode b := by
    refine ⟨hsynced.keeps hsync trivial, ?_⟩
    rw [hdir, lookup_syncDir]
    exact (if_pos rfl).trans hsynced.live
  obtain ⟨reader, htable⟩ := encodeTable_tableOf hencode hmerged.storable hmerged.sorted hsize
  have hstored : Stored fs₃.toVolume engine.dir ⟨tableMetadata tier name entries, entries⟩ :=
    ⟨_, b, reader, hsettled, htable, hmerged.storable⟩
  rw [wp_bind, wp_onFS]
  refine wp_imp (openTableOwned_spec hstored h₃.proper _) ?_
  intro r fs₄ hr
  match r with
  | .error (owned, err) => exact wp_throws _ _
  | .ok output =>
    obtain ⟨hserve, hfile, hkept⟩ := hr output rfl
    have hcrashed := hkept.crashed.trans (hsync.crashed.trans (hwrite.crashed.trans hcreate.crashed))
    refine ⟨hrunning, hcrashed.trans hrunning, rfl,
      h₃.keeps hkept (fun _ _ => trivial) fun _ _ _ => trivial, ?_, _, rfl,
      hmerged.output h.sound hmem hnames _, hserve⟩
    rw [hfile]
    exact hcreate.nextFile.trans (hwrite.nextFile.trans hsync.nextFile)

theorem buildCompactionOutputLocked_spec {tier : Nat} (h : Holds m V s)
    (hinputs : ∀ input ∈ inputs, input ∈ s.engine.tables) :
    wp (buildCompactionOutputLocked tier inputs)
      (fun output s' => Holds m V s' ∧
        s'.engine = { s.engine with nextFileNumber := s.engine.nextFileNumber + 1 } ∧
        ∃ t, Fresh V s'.engine s'.fs.toVolume output t ∧ Output V inputs t)
      (fun _ _ => True) s := by
  rw [buildCompactionOutputLocked, wp_bind]
  refine wp_imp allocateFilenameLocked_spec ?_
  rintro name s₁ ⟨rfl, hne, rfl⟩
  have hlt : s.engine.nextFileNumber < maxUint64 := lt_of_le_of_ne h.bounded hne
  rw [wp_bind, wp_getEngine]
  refine wp_imp (writeTable_spec (h.allocated hlt) hinputs fun hrunning p hp hpath => ?_) ?_
  · obtain ⟨hunprotected, -, hunused⟩ := h.reserved hrunning hlt
    subst hpath
    exact hp.elim hunprotected hunused
  · rintro output ⟨engine', fs'⟩ ⟨hrunning, hrunning', hengine, h', hle, t, hname, houtput, hserves⟩
    dsimp only at hengine
    subst hengine
    obtain ⟨hunprotected, hobsolete, -⟩ := h.reserved hrunning hlt
    refine ⟨h', rfl, t, ⟨hrunning', hserves, ?_, ?_, ?_⟩, houtput⟩
    · rw [hname]
      exact hunprotected
    · intro o ho
      rw [hname]
      refine ⟨hobsolete o ho, fun hfile => ?_⟩
      exact absurd (((h.obsolete o ho).handle _ hfile).1.trans_le hle) (lt_irrefl _)
    · intro other hother
      exact ((h.lt_nextFile hrunning hother).trans_le hle).ne

/-! ### Publishing the output -/

theorem Inv.names_nodup (h : Inv m V engine v) :
    (engine.tables.map fun table => table.metadata.file).Nodup := by
  have hperm := h.listed.map FileMetadata.file
  simp only [Version.manifest, List.map_map] at hperm
  exact hperm.nodup_iff.2 h.sound.nodup

theorem Inv.eq_of_name (h : Inv m V engine v) {table other : TableHandle}
    (ht : table ∈ engine.tables) (ho : other ∈ engine.tables)
    (hname : table.metadata.file = other.metadata.file) : table = other :=
  List.inj_on_of_nodup_map h.names_nodup ht ho hname

def compactionEdit (engine : Engine) (output : TableHandle) (selected : List TableHandle) :
    VersionEdit where
  addedFiles := [output.metadata]
  removedFiles := selected.map fun input => input.metadata.file
  flushedIndex := engine.manifest.flushedIndex

theorem mem_publishedTables {tables selected : List TableHandle} {output table : TableHandle} :
    table ∈ publishedTables tables selected output ↔
      table ∈ tables ∧ table ∉ selected ∨ table = output := by
  rw [publishedTables, List.mem_insertionSort]
  simp

section Publish

variable {output : TableHandle} {t : Table} {selected : List TableHandle} {r : ManifestState}

theorem publishedTables_perm (h : Inv m V engine v)
    (hselected : ∀ table ∈ selected, table ∈ engine.tables)
    (happlied : V.manifest.Applied (compactionEdit engine output selected) r) :
    ((publishedTables engine.tables selected output).map TableHandle.metadata).Perm r.files := by
  have hsort : (publishedTables engine.tables selected output).Perm
      ((engine.tables.filter fun table => table ∉ selected) ++ [output]) :=
    List.perm_insertionSort _ _
  have hfilter : (engine.tables.filter fun table => table ∉ selected) =
      engine.tables.filter fun table =>
        table.metadata.file ∉ selected.map fun input => input.metadata.file := by
    refine List.filter_congr fun table htable => ?_
    simp only [decide_eq_decide, not_iff_not]
    constructor
    · exact List.mem_map_of_mem
    · intro hname
      obtain ⟨other, hother, hname⟩ := List.mem_map.1 hname
      rwa [← h.eq_of_name (hselected other hother) htable hname]
  refine (hsort.map _).trans ?_
  rw [happlied.result, List.map_append, hfilter]
  refine List.Perm.append ?_ (.refl _)
  have hperm := h.listed.filter fun file =>
    decide (file.file ∉ selected.map fun input => input.metadata.file)
  rw [List.filter_map] at hperm
  exact hperm

theorem publishedTables_nodup (h : Inv m V engine v) (hfresh : Fresh V engine v output t) :
    ((publishedTables engine.tables selected output).map TableHandle.file).Nodup := by
  have hsort : (publishedTables engine.tables selected output).Perm
      ((engine.tables.filter fun table => table ∉ selected) ++ [output]) :=
    List.perm_insertionSort _ _
  rw [(hsort.map TableHandle.file).nodup_iff, List.map_append]
  refine List.Nodup.append ?_ (List.nodup_singleton _) ?_
  · exact h.distinct.sublist (List.filter_sublist.map _)
  · intro f hold hnew
    obtain ⟨table, htable, rfl⟩ := List.mem_map.1 hold
    exact hfresh.own table (List.mem_filter.1 htable).1 (List.mem_singleton.1 hnew)

theorem Version.Sound.ne_manifest (h : V.Sound) (ht : t ∈ V.tables) (dir : Bytes) :
    (⟨dir, t.metadata.file⟩ : Path) ≠ manifestPath dir := by
  intro hpath
  have hsuffix := h.suffix ht
  rw [(Path.mk.inj hpath).2] at hsuffix
  exact absurd hsuffix (by decide)

theorem Engine.Unused.ne_manifest {p : Path} (h : engine.Unused p) :
    p ≠ manifestPath engine.dir := by
  obtain ⟨k, -, -, rfl⟩ := h
  intro hpath
  exact sstableFilename_ne_manifest k (Path.mk.inj hpath).2

/-- The engine after the edit, the inputs to be removed. -/
def Engine.published (engine : Engine) (r : ManifestState) (selected : List TableHandle)
    (output : TableHandle) : Engine :=
  { engine with
    manifest := r
    tables := publishedTables engine.tables selected output
    obsolete := engine.obsolete ++ (selected.insertionSort byName).map fun table =>
      ⟨engine.path table.metadata.file, some table.file⟩ }

def Version.compacted (V : Version) (selected : List TableHandle) (t : Table) : Version :=
  V.edit (selected.map fun input => input.metadata.file) [t] V.flushedIndex

theorem retirable_old (h : Inv m V engine v) (hfresh : Fresh V engine v output t)
    {o : ObsoleteFile} (ho : o ∈ engine.obsolete) :
    Retirable (V.compacted selected t) (engine.published r selected output) v o := by
  obtain ⟨hunprotected, hunused, hhandle⟩ := h.obsolete o ho
  obtain ⟨hpath, hfile⟩ := hfresh.kept o ho
  refine ⟨?_, hunused, fun f hf => ⟨(hhandle f hf).1, fun table htable => ?_⟩⟩
  · rintro (hmanifest | ⟨u, hu, hname⟩)
    · exact hunprotected (.inl hmanifest)
    · rcases Version.mem_edit.1 hu with ⟨hu, -⟩ | hu
      · exact hunprotected (.inr ⟨u, hu, hname⟩)
      · rw [List.mem_singleton.1 hu] at hname
        exact hpath hname
  · rcases mem_publishedTables.1 htable with ⟨htable, -⟩ | rfl
    · exact (hhandle f hf).2 table htable
    · rintro rfl
      exact hfile hf

theorem retirable_selected (h : Inv m V engine v) (hfresh : Fresh V engine v output t)
    (hselected : ∀ table ∈ selected, table ∈ engine.tables) {table : TableHandle}
    (htable : table ∈ selected) :
    Retirable (V.compacted selected t) (engine.published r selected output) v
      ⟨engine.path table.metadata.file, some table.file⟩ := by
  obtain ⟨u, hu, hserves⟩ := h.published hfresh.running table (hselected table htable)
  have hprotected : Protected engine.dir V (engine.path table.metadata.file) :=
    .inr ⟨u, hu, by rw [hserves.metadata]; rfl⟩
  refine ⟨?_, fun hp => h.unprotected hfresh.running hp hprotected, ?_⟩
  · rintro (hmanifest | ⟨w, hw, hname⟩)
    · refine h.sound.ne_manifest hu engine.dir ?_
      rw [← hserves.metadata]
      exact hmanifest
    · rcases Version.mem_edit.1 hw with ⟨-, hkept⟩ | hw
      · rw [← (Path.mk.inj hname).2] at hkept
        exact hkept (List.mem_map_of_mem htable)
      · rw [List.mem_singleton.1 hw] at hname
        exact hfresh.unprotected ((show _ = engine.path t.metadata.file from hname) ▸ hprotected)
  · rintro f ⟨⟩
    refine ⟨hserves.lt, fun other hother heq => ?_⟩
    rcases mem_publishedTables.1 hother with ⟨hother, hkept⟩ | rfl
    · have hsame := List.inj_on_of_nodup_map h.distinct hother (hselected table htable) heq
      exact hkept (hsame ▸ htable)
    · exact hfresh.own table (hselected table htable) heq.symm

theorem Inv.compacted (h : Inv m V engine v) (hfresh : Fresh V engine v output t)
    (houtput : Output V selected t) (hselected : ∀ table ∈ selected, table ∈ engine.tables)
    (happlied : V.manifest.Applied (compactionEdit engine output selected) r)
    (hk : Keeps (· ≠ manifestPath engine.dir) (· ≠ v.nextFile) v v')
    (hclean : ManifestClean m v' (manifestPath engine.dir) r) :
    Inv m (V.compacted selected t) (engine.published r selected output) v' := by
  have hV : V.edit (compactionEdit engine output selected).removedFiles [t]
      (compactionEdit engine output selected).flushedIndex = V.compacted selected t := by
    rw [Version.compacted, compactionEdit, h.manifest]
    rfl
  have hadded : [t].map Table.metadata = (compactionEdit engine output selected).addedFiles := by
    simp [compactionEdit, hfresh.serves.metadata]
  have hmanifest : (V.compacted selected t).manifest = r :=
    hV ▸ Version.manifest_edit happlied hadded
  have hsound : (V.compacted selected t).Sound := by
    refine hV ▸ h.sound.edit happlied hadded fun u hu => ?_
    rw [List.mem_singleton.1 hu, compactionEdit, h.manifest]
    exact houtput.bounded
  have hserves {table : TableHandle} {u : Table} (hs : Serves v engine.dir table u)
      (hu : u ∈ (V.compacted selected t).tables) : Serves v' engine.dir table u :=
    hs.keeps hk (hsound.ne_manifest hu engine.dir) hs.lt.ne
  have hnew : t ∈ (V.compacted selected t).tables :=
    Version.mem_edit.2 (.inr (List.mem_singleton.2 rfl))
  refine ⟨hmanifest.symm, hsound, ?_, publishedTables_nodup h hfresh, h.bounded,
    hk.proper h.proper, hmanifest ▸ hclean, fun u hu => ?_, fun o ho => ?_,
    fun hrunning table htable => ?_, fun hrunning p hp hlive => ?_⟩
  · rw [hmanifest]
    exact publishedTables_perm h hselected happlied
  · rcases Version.mem_edit.1 hu with ⟨hold, -⟩ | hu'
    · exact (h.stored u hold).keeps hk (hsound.ne_manifest hu engine.dir)
    · rw [List.mem_singleton.1 hu']
      exact (hserves hfresh.serves hnew).stored
  · have hretire : Retirable (V.compacted selected t) (engine.published r selected output) v o := by
      rcases List.mem_append.1 ho with ho | ho
      · exact retirable_old h hfresh ho
      · obtain ⟨table, htable, rfl⟩ := List.mem_map.1 ho
        exact retirable_selected h hfresh hselected ((List.mem_insertionSort _).1 htable)
    exact { hretire with handle := fun f hf =>
      ⟨(hretire.handle f hf).1.trans_le hk.nextFile, (hretire.handle f hf).2⟩ }
  · rcases mem_publishedTables.1 htable with ⟨htable, hkept⟩ | rfl
    · obtain ⟨u, hu, hs⟩ := h.published hfresh.running table htable
      have hmem : u ∈ (V.compacted selected t).tables := by
        refine Version.mem_edit.2 (.inl ⟨hu, fun hname => hkept ?_⟩)
        obtain ⟨other, hother, hsame⟩ := List.mem_map.1 hname
        rw [← hs.metadata] at hsame
        exact h.eq_of_name (hselected other hother) htable hsame ▸ hother
      exact ⟨u, hmem, hserves hs hmem⟩
    · exact ⟨t, hnew, hserves hfresh.serves hnew⟩
  · refine h.absent hfresh.running p hp (AList.lookup_isSome.1 ?_)
    rw [← hk.live p hp.ne_manifest]
    exact AList.lookup_isSome.2 hlive

theorem commitCompactionLocked_spec (hm : m.RoundTrips) (h : Holds m V s)
    (hfresh : Fresh V s.engine s.fs.toVolume output t) (houtput : Output V selected t)
    (hselected : ∀ table ∈ selected, table ∈ s.engine.tables) :
    wp (commitCompactionLocked m (compactionEdit s.engine output selected) output selected)
      (fun _ s' => Holds m (V.compacted selected t) s' ∧
        s'.engine.tables = publishedTables s.engine.tables selected output)
      (fun _ _ => True) s := by
  rw [commitCompactionLocked, wp_bind, wp_getEngine]
  dsimp only
  cases happly : s.engine.manifest.apply (compactionEdit s.engine output selected) with
  | error err => exact wp_throws _ _
  | ok r =>
    rw [h.manifest] at happly
    show wp (_ >>= _) _ _ _
    rw [wp_bind, wp_onFS]
    refine wp_imp (appendManifestEdit_spec hm happly h.clean h.proper) ?_
    rintro ⟨committed, unresolved, err⟩ fs' happended
    rw [wp_bind, retainUnresolved, wp_modifyEngine]
    cases err with
    | some err =>
      refine wp_ite (fun _ => ?_) fun _ => wp_ite (fun _ => ?_) fun _ => wp_throws _ _
      · rw [wp_bind, wp_modifyEngine, wp_bind]
        refine wp_imp (wp_true _) fun cleanup s' _ => ?_
        cases cleanup <;> trivial
      · rw [wp_bind]
        exact wp_imp (wp_true _) fun _ _ _ => wp_throws _ _
    | none =>
      obtain ⟨hcommitted, hclean, hk⟩ := happended rfl
      cases hcommitted
      have hpublished : Holds m (V.compacted selected t)
          ⟨s.engine.published r selected output, fs'⟩ :=
        h.compacted hfresh houtput hselected (ManifestState.apply_eq_ok happly) hk hclean
      rw [if_pos rfl, wp_bind, wp_modifyEngine, wp_bind]
      simp only [Option.toList_none, List.append_nil]
      refine wp_imp (reconcileObsoleteLocked_spec hpublished) fun cleanup s' hcleanup => ?_
      cases cleanup with
      | some err => trivial
      | none =>
        obtain ⟨h', hreconciled⟩ := hcleanup rfl
        exact ⟨h', by rw [hreconciled]⟩

end Publish

end MiniQuorum.Lsm
