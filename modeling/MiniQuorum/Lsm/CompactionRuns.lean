import MiniQuorum.Lsm.CompactionSpec
import MiniQuorum.Lsm.Engine

/-! Compaction as a whole: every round replaces four tables by one, so the rounds end, and
then no tier has four tables. -/

namespace MiniQuorum.Lsm

open Codec Program Volume Raft Collections

variable {m : Marshaler VersionEdit} {V : Version} {s : Store} {engine : Engine} {v : Volume}
  {tables tables' inputs : List TableHandle} {tier : Nat}

/-! ### Choosing the inputs -/

instance : Std.Total byName := ⟨fun left right => le_total left.metadata.file right.metadata.file⟩

instance : IsTrans TableHandle byName := ⟨fun _ _ _ h h' => le_trans h h'⟩

def eligible (tables : List TableHandle) : List Nat :=
  (tables.map fun table => table.metadata.tier).filter fun tier =>
    compactionFanIn ≤ (ofTier tables tier).length

theorem mem_eligible :
    tier ∈ eligible tables ↔ compactionFanIn ≤ (ofTier tables tier).length := by
  simp only [eligible, List.mem_filter, List.mem_map, decide_eq_true_eq, and_iff_right_iff_imp]
  intro hlength
  obtain ⟨table, htable⟩ := List.exists_mem_of_length_pos (lt_of_lt_of_le (by decide) hlength)
  obtain ⟨hmem, htier⟩ := List.mem_filter.1 htable
  exact ⟨table, hmem, of_decide_eq_true htier⟩

theorem selectCompactionInputs_eq_none :
    selectCompactionInputs tables = none ↔
      ∀ tier, (ofTier tables tier).length < compactionFanIn := by
  have hmin : selectCompactionInputs tables = none ↔ eligible tables = [] := by
    rw [← List.min?_eq_none_iff, selectCompactionInputs, ← eligible]
    cases (eligible tables).min? with
    | none => simp
    | some tier => simp
  rw [hmin, List.eq_nil_iff_forall_not_mem]
  simp only [mem_eligible, not_le]

theorem ofTier_perm (h : tables'.Perm tables) (tier : Nat) :
    (ofTier tables' tier).Perm (ofTier tables tier) := h.filter _

theorem selectCompactionInputs_perm (h : tables'.Perm tables)
    (hnames : (tables.map fun table => table.metadata.file).Nodup) :
    selectCompactionInputs tables' = selectCompactionInputs tables := by
  have hsorted (tier : Nat) : (ofTier tables' tier).insertionSort byName =
      (ofTier tables tier).insertionSort byName := by
    refine List.Perm.eq_of_pairwise ?_ (List.pairwise_insertionSort _ _)
      (List.pairwise_insertionSort _ _) ((List.perm_insertionSort _ _).trans
        ((ofTier_perm h tier).trans (List.perm_insertionSort _ _).symm))
    intro a b ha hb hab hba
    rw [List.mem_insertionSort] at ha hb
    exact List.inj_on_of_nodup_map hnames (h.mem_iff.1 (List.mem_filter.1 ha).1)
      (List.mem_filter.1 hb).1 (le_antisymm hab hba)
  have hmin : (eligible tables').min? = (eligible tables).min? := by
    have hmem (tier : Nat) : tier ∈ eligible tables' ↔ tier ∈ eligible tables := by
      rw [mem_eligible, mem_eligible, (ofTier_perm h tier).length_eq]
    ext tier
    simp only [List.min?_eq_some_iff, hmem]
  rw [selectCompactionInputs, selectCompactionInputs, ← eligible, ← eligible, hmin]
  cases (eligible tables).min? with
  | none => rfl
  | some tier => simp only [hsorted]

/-! ### The tables after a round -/

theorem publishedTables_congr {selected selected' : List TableHandle} (h : selected'.Perm selected)
    (output : TableHandle) :
    publishedTables tables selected' output = publishedTables tables selected output := by
  rw [publishedTables, publishedTables]
  simp only [h.mem_iff]

theorem length_publishedTables (hnodup : tables.Nodup) (hinputs : inputs.Nodup)
    (hmem : ∀ input ∈ inputs, input ∈ tables) (output : TableHandle) :
    (publishedTables tables inputs output).length + inputs.length = tables.length + 1 := by
  have hselected : (tables.filter fun table => table ∈ inputs).Perm inputs := by
    refine (List.perm_ext_iff_of_nodup (hnodup.filter _) hinputs).2 fun input => ?_
    simp only [List.mem_filter, decide_eq_true_eq, and_iff_right_iff_imp]
    exact hmem input
  have hsplit := List.length_eq_length_filter_add (l := tables) fun table => decide (table ∈ inputs)
  rw [publishedTables, (List.perm_insertionSort _ _).length_eq, List.length_append,
    List.length_singleton]
  simp only [hselected.length_eq] at hsplit
  simp only [decide_not]
  omega

/-! ### One round -/

structure Condensed (m : Marshaler VersionEdit) (V V' : Version) (s' : Store) : Prop where
  holds : Holds m V' s'
  flushed : V'.flushedIndex = V.flushedIndex
  condenses : Condenses TableEntry.key TableEntry.seq V'.contents V.contents

theorem Condensed.refl (h : Holds m V s) : Condensed m V V s := ⟨h, rfl, Condenses.refl _⟩

theorem Condensed.trans {V₁ V₂ V₃ : Version} {s₂ s₃ : Store} (h : Condensed m V₁ V₂ s₂)
    (h' : Condensed m V₂ V₃ s₃) : Condensed m V₁ V₃ s₃ :=
  ⟨h'.holds, h'.flushed.trans h.flushed, h'.condenses.trans h.condenses⟩

/-- Four published tables made room for one. -/
structure FourForOne (tables inputs tables' : List TableHandle) : Prop where
  length : inputs.length = 4
  nodup : inputs.Nodup
  published : ∀ input ∈ inputs, input ∈ tables
  replaced : ∃ output, tables' = publishedTables tables inputs output

theorem compactInputsLocked_spec (hm : m.RoundTrips) (h : Holds m V s) :
    wp (compactInputsLocked m tier inputs)
      (fun _ s' => (∃ V', Condensed m V V' s') ∧
        FourForOne s.engine.tables inputs s'.engine.tables)
      (fun _ _ => True) s := by
  have hsort := List.perm_insertionSort byName inputs
  rw [compactInputsLocked, wp_bind, wp_failIf]
  refine ⟨fun _ => trivial, fun hlength => ?_⟩
  rw [wp_bind, wp_failIf]
  refine ⟨fun _ => trivial, fun _ => ?_⟩
  rw [wp_bind, wp_failIf]
  refine ⟨fun _ => trivial, fun hnodup => ?_⟩
  rw [wp_bind, wp_getEngine, wp_bind, wp_failIf]
  refine ⟨fun _ => trivial, fun hpublished => ?_⟩
  have hmem : ∀ input ∈ inputs.insertionSort byName, input ∈ s.engine.tables := by
    simpa using hpublished
  rw [wp_bind]
  refine wp_imp (buildCompactionOutputLocked_spec h hmem) ?_
  rintro output s₁ ⟨h₁, hengine, t, hfresh, houtput⟩
  have htables : s₁.engine.tables = s.engine.tables := by
    rw [hengine]
  rw [wp_bind, wp_getEngine]
  refine wp_imp (commitCompactionLocked_spec hm h₁ hfresh houtput (by rwa [htables])) ?_
  rintro - s' ⟨h', hpublish⟩
  refine ⟨⟨_, h', rfl, Version.condenses_edit houtput.condenses⟩, not_not.1 hlength,
    hsort.nodup_iff.1 (not_not.1 hnodup), fun input hi => hmem input (hsort.mem_iff.2 hi), output, ?_⟩
  rw [hpublish, htables, publishedTables_congr hsort]

/-! ### All rounds -/

inductive CompactionRound (m : Marshaler VersionEdit) : Store → List TableHandle → Store → Prop
  | mk {s s' : Store} {tier : Nat} {inputs : List TableHandle}
      (hselect : selectCompactionInputs s.engine.tables = some (tier, inputs))
      (htier : tier ≠ maxUint32) (hrun : compactInputsLocked m tier inputs s = (.ok (), s')) :
      CompactionRound m s inputs s'

inductive CompactionRounds (m : Marshaler VersionEdit) : Store → Store → Prop
  | refl (s : Store) : CompactionRounds m s s
  | head {s s₁ s' : Store} {inputs : List TableHandle} (h : CompactionRound m s inputs s₁)
      (hrest : CompactionRounds m s₁ s') : CompactionRounds m s s'

/-- What ends the loop at `s`. -/
inductive Stops (m : Marshaler VersionEdit) (s : Store) : Except Err Unit × Store → Prop
  | balanced (hselect : selectCompactionInputs s.engine.tables = none) : Stops m s (.ok (), s)
  | exhausted {inputs : List TableHandle}
      (hselect : selectCompactionInputs s.engine.tables = some (maxUint32, inputs)) :
      Stops m s (.error (.text "lsm: compaction tier exhausted"), s)
  | failed {tier : Nat} {inputs : List TableHandle} {err : Err} {s' : Store}
      (hselect : selectCompactionInputs s.engine.tables = some (tier, inputs))
      (hrun : compactInputsLocked m tier inputs s = (.error err, s')) : Stops m s (.error err, s')

def Ends (m : Marshaler VersionEdit) (s : Store) (r : Except Err Unit × Store) : Prop :=
  ∃ s₁, CompactionRounds m s s₁ ∧ Stops m s₁ r

theorem Inv.nodup (h : Inv m V engine v) : engine.tables.Nodup := h.distinct.of_map _

theorem FourForOne.length_tables (h : FourForOne tables inputs tables') (hnodup : tables.Nodup) :
    tables'.length + 3 = tables.length := by
  obtain ⟨output, htables⟩ := h.replaced
  have hlength := length_publishedTables hnodup h.nodup h.published output
  rw [← htables, h.length] at hlength
  omega

theorem compactRounds_spec (hm : m.RoundTrips) {rounds : Nat} (h : Holds m V s)
    (hrounds : s.engine.tables.length ≤ rounds) :
    wp (compactRounds m rounds)
      (fun _ s' => (∃ V', Condensed m V V' s') ∧
        selectCompactionInputs s'.engine.tables = none ∧ Ends m s (.ok (), s'))
      (fun err s' => Ends m s (.error err, s')) s := by
  induction rounds generalizing V s with
  | zero =>
    have hnil : s.engine.tables = [] := List.eq_nil_of_length_eq_zero (Nat.le_zero.1 hrounds)
    have hselect : selectCompactionInputs s.engine.tables = none := by
      rw [hnil]
      rfl
    exact ⟨⟨V, .refl h⟩, hselect, s, .refl s, .balanced hselect⟩
  | succ rounds ih =>
    rw [compactRounds, wp_bind, wp_getEngine]
    cases hselect : selectCompactionInputs s.engine.tables with
    | none => exact ⟨⟨V, .refl h⟩, hselect, s, .refl s, .balanced hselect⟩
    | some chosen =>
      obtain ⟨tier, inputs⟩ := chosen
      show wp (_ >>= _) _ _ _
      rw [wp_bind, wp_failIf]
      refine ⟨?_, fun htier => ?_⟩
      · rintro rfl
        exact ⟨s, .refl s, .exhausted hselect⟩
      rw [wp_bind]
      refine wp_mono (wp_self (compactInputsLocked_spec hm h)) ?_ ?_
      · rintro ⟨⟩ s₁ ⟨⟨⟨V₁, h₁⟩, hreplaced⟩, hrun⟩
        have hlength := hreplaced.length_tables h.nodup
        have hround : CompactionRound m s inputs s₁ := .mk hselect htier hrun
        have hends {r : Except Err Unit × Store} (hr : Ends m s₁ r) : Ends m s r := by
          obtain ⟨s₂, hrest, hstops⟩ := hr
          exact ⟨s₂, .head hround hrest, hstops⟩
        refine wp_mono (ih h₁.holds (by omega)) ?_ (fun err s' hr => hends hr)
        rintro - s' ⟨⟨V', h'⟩, hnone, hr⟩
        exact ⟨⟨V', h₁.trans h'⟩, hnone, hends hr⟩
      · rintro err s' ⟨-, hrun⟩
        exact ⟨s, .refl s, .failed hselect hrun⟩

theorem compactAllLocked_spec (hm : m.RoundTrips) (h : Holds m V s) :
    wp (compactAllLocked m)
      (fun _ s' => (∃ V', Condensed m V V' s') ∧
        selectCompactionInputs s'.engine.tables = none ∧
        ∃ s₁, reconcileObsoleteLocked s = (.ok none, s₁) ∧ Ends m s₁ (.ok (), s'))
      (fun err s' =>
        (∃ s₁, reconcileObsoleteLocked s = (.ok none, s₁) ∧ Ends m s₁ (.error err, s')) ∨
          reconcileObsoleteLocked s = (.ok (some err), s')) s := by
  rw [compactAllLocked, wp_bind]
  refine wp_mono (wp_self (reconcileObsoleteLocked_spec h)) ?_ (fun _ _ hfalse => hfalse.1.elim)
  rintro err s₁ ⟨h₁, hrun⟩
  match err with
  | some err => exact .inr hrun
  | none =>
    show wp (_ >>= _) _ _ _
    rw [wp_bind, wp_getEngine]
    refine wp_mono (compactRounds_spec hm (h₁ rfl).1 le_rfl) ?_ (fun e s' hends => .inl ⟨s₁, hrun, hends⟩)
    rintro - s' ⟨hcondensed, hnone, hends⟩
    exact ⟨hcondensed, hnone, s₁, hrun, hends⟩

/-! ### What a compaction leaves -/

def Engine.records (engine : Engine) (v : Volume) : Set TableEntry :=
  { e | ∃ table ∈ engine.tables, ∃ t : Table, t.metadata = table.metadata ∧
    Stored v engine.dir t ∧ e ∈ t.entries }

theorem Inv.records (h : Inv m V engine v) : engine.records v = V.contents := by
  have hfiles := h.listed
  ext e
  constructor
  · rintro ⟨table, htable, t, hmetadata, hstored, he⟩
    have hmem := hfiles.mem_iff.1 (List.mem_map_of_mem htable)
    obtain ⟨u, hu, hsame⟩ := List.mem_map.1 hmem
    have hentries := (h.stored u hu).entries_eq hstored (by rw [hmetadata, hsame])
    exact ⟨u, hu, hentries ▸ he⟩
  · rintro ⟨t, ht, he⟩
    have hmem := hfiles.mem_iff.2 (List.mem_map_of_mem ht)
    obtain ⟨table, htable, hsame⟩ := List.mem_map.1 hmem
    exact ⟨table, htable, t, hsame.symm, h.stored t ht, he⟩

/-- No tier is full, and nothing else about the published tables changed. -/
structure Balanced (s s' : Store) : Prop where
  tiers : ∀ tier, (ofTier s'.engine.tables tier).length ≤ 3
  flushed : s'.engine.manifest.flushedIndex = s.engine.manifest.flushedIndex
  files : (s'.engine.tables.map TableHandle.metadata).Perm s'.engine.manifest.files
  names : (s'.engine.manifest.files.map FileMetadata.file).Nodup
  newest : ∀ key found,
    Finds TableEntry.key TableEntry.seq (s'.engine.records s'.fs.toVolume) key found ↔
      Finds TableEntry.key TableEntry.seq (s.engine.records s.fs.toVolume) key found

theorem Condensed.balanced {V' : Version} {s' : Store} (hs : Holds m V s)
    (h : Condensed m V V' s') (hnone : selectCompactionInputs s'.engine.tables = none) :
    Balanced s s' := by
  refine ⟨fun tier => Nat.le_of_lt_succ (selectCompactionInputs_eq_none.1 hnone tier), ?_, ?_, ?_,
    fun key found => ?_⟩
  · rw [h.holds.manifest, hs.manifest]
    exact h.flushed
  · rw [h.holds.manifest]
    exact h.holds.listed
  · rw [h.holds.manifest, Version.manifest, List.map_map]
    exact h.holds.sound.nodup
  · rw [h.holds.records, hs.records]
    exact h.condenses.finds_iff

theorem CompactionRounds.condensed (hm : m.RoundTrips) {s' : Store} (hrounds : CompactionRounds m s s')
    (h : Holds m V s) : ∃ V', Condensed m V V' s' := by
  induction hrounds generalizing V with
  | refl s => exact ⟨V, .refl h⟩
  | head hround _ ih =>
    obtain ⟨-, -, hrun⟩ := hround
    obtain ⟨⟨V₁, h₁⟩, -⟩ := (wp_iff.1 (compactInputsLocked_spec hm h)).1 _ _ hrun
    obtain ⟨V', h'⟩ := ih h₁.holds
    exact ⟨V', h₁.trans h'⟩

/-! ### Compaction as a whole -/

/-- Compaction ends, and leaves no tier with four tables and the newest record of every key
as it was.  What a round chooses is independent of the order of the tables. -/
theorem compactAllLocked_balances (hm : m.RoundTrips) (h : Holds m V s) :
    ((∃ s₁, reconcileObsoleteLocked s = (.ok none, s₁) ∧ Ends m s₁ (compactAllLocked m s)) ∨
      ∃ err s₁, reconcileObsoleteLocked s = (.ok (some err), s₁) ∧
        compactAllLocked m s = (.error err, s₁)) ∧
    (∀ s₁ s₂, reconcileObsoleteLocked s = (.ok none, s₁) → CompactionRounds m s₁ s₂ →
      (∀ tables, tables.Perm s₂.engine.tables →
        selectCompactionInputs tables = selectCompactionInputs s₂.engine.tables) ∧
      ∀ inputs s₃, CompactionRound m s₂ inputs s₃ →
        FourForOne s₂.engine.tables inputs s₃.engine.tables ∧
        s₃.engine.tables.length + 3 = s₂.engine.tables.length) ∧
    ∀ s', compactAllLocked m s = (.ok (), s') → Balanced s s' := by
  have hspec := wp_iff.1 (compactAllLocked_spec hm h)
  refine ⟨?_, ?_, ?_⟩
  · rcases hrun : compactAllLocked m s with ⟨r, s'⟩
    cases r with
    | ok _ =>
      obtain ⟨-, -, s₁, hreconcile, hends⟩ := hspec.1 _ _ hrun
      exact .inl ⟨s₁, hreconcile, hends⟩
    | error err =>
      rcases hspec.2 _ _ hrun with ⟨s₁, hreconcile, hends⟩ | hreconcile
      · exact .inl ⟨s₁, hreconcile, hends⟩
      · exact .inr ⟨err, s', hreconcile, rfl⟩
  · intro s₁ s₂ hreconcile hrounds
    have h₁ := (wp_iff.1 (reconcileObsoleteLocked_spec h)).1 _ _ hreconcile rfl
    obtain ⟨V₂, h₂⟩ := hrounds.condensed hm h₁.1
    refine ⟨fun tables hperm => selectCompactionInputs_perm hperm h₂.holds.names_nodup, ?_⟩
    rintro inputs s₃ ⟨-, -, hrun⟩
    have hround := (wp_iff.1 (compactInputsLocked_spec hm h₂.holds)).1 _ _ hrun
    exact ⟨hround.2, hround.2.length_tables h₂.holds.nodup⟩
  · intro s' hrun
    obtain ⟨⟨V', h'⟩, hnone, -⟩ := hspec.1 _ _ hrun
    exact h'.balanced h hnone

/-! ### An engine on a disk with four tables -/

/-- An engine that has opened the tables of a settled disk is that version. -/
theorem holds_recovered {V : Version} {fs : SimFS} {dir : Bytes} {next : Nat} (options : Options)
    (hproper : fs.Proper) (hclean : ManifestClean m fs.toVolume (manifestPath dir) V.manifest)
    (hsound : V.Sound) (hlisted : (tables.map TableHandle.metadata).Perm V.manifest.files)
    (hfiles : (tables.map TableHandle.file).Nodup)
    (hserves : ∀ table ∈ tables, ∃ t ∈ V.tables, Serves fs.toVolume dir table t)
    (hnext : next ≤ maxUint64)
    (hnames : ∀ p ∈ fs.live, p = manifestPath dir ∨ ∃ k < next, p = ⟨dir, sstableFilename k⟩) :
    Holds m V ⟨{ recoveredEngine dir options V.manifest with
      tables := tables
      nextFileNumber := next }, fs⟩ := by
  have hstored : ∀ t ∈ V.tables, Stored fs.toVolume dir t := by
    intro t ht
    obtain ⟨table, htable, hsame⟩ := List.mem_map.1 (hlisted.mem_iff.2 (List.mem_map_of_mem ht))
    obtain ⟨u, hu, hserve⟩ := hserves table htable
    obtain rfl := hsound.eq_of_name ht hu (by rw [← hsame, hserve.metadata])
    obtain ⟨n, b, hsettled, -, hreads⟩ := hserve.file
    exact ⟨n, b, _, hsettled, hreads⟩
  have habsent {p : Path} (hp : ∃ k, next ≤ k ∧ k < maxUint64 ∧ p = ⟨dir, sstableFilename k⟩) :
      p ∉ fs.live := by
    rintro hlive
    obtain ⟨k, hle, hlt, rfl⟩ := hp
    rcases hnames _ hlive with hmanifest | ⟨k', hlt', hsame⟩
    · exact sstableFilename_ne_manifest k (Path.mk.inj hmanifest).2
    · have := sstableFilename_inj hlt.le (hlt'.le.trans hnext) (Path.mk.inj hsame).2
      omega
  exact {
    manifest := rfl
    sound := hsound
    listed := hlisted
    distinct := hfiles
    bounded := hnext
    proper := hproper
    clean := hclean
    stored := hstored
    obsolete := fun _ ho => absurd ho List.not_mem_nil
    published := fun _ => hserves
    absent := fun _ p hp => habsent hp }

def shelf : List (List TableEntry × Nat) :=
  [([⟨[1], 1, [7], false⟩], 1), ([⟨[1], 2, [], true⟩], 2), ([⟨[2], 3, [5], false⟩], 3),
    ([⟨[1], 4, [9], false⟩, ⟨[3], 4, [], true⟩], 4)]

def shelfImage (entries : List TableEntry) : Bytes := (encodeTable entries).toOption.getD []

def shelfTable (x : List TableEntry × Nat) : Table :=
  ⟨tableMetadata 0 (sstableFilename x.2) x.1, x.1⟩

def shelfHandle (x : List TableEntry × Nat) : Option TableHandle :=
  ((openSSTable (shelfImage x.1).length).eval (SimFile.slice (shelfImage x.1))
    .eof).toOption.map fun reader => ⟨(shelfTable x).metadata, x.2, reader⟩

def shelfVersion : Version := ⟨shelf.map shelfTable, 4, 1⟩

def shelfManifest : Bytes :=
  manifestFormat.frames [editWire.marshaler.marshal ⟨shelfVersion.manifest.files, [], 4⟩]

def shelfNames : Namespace where
  entries := ⟨manifestPath [], 0⟩ :: shelf.map fun x => ⟨⟨[], sstableFilename x.2⟩, x.2⟩
  nodupKeys := by
    rw [List.NodupKeys]
    decide +kernel

def shelfDisk : SimFS :=
  { SimFS.newSimFS with
    live := shelfNames
    durableNames := shelfNames
    inodes := fun n =>
      let image := (shelfManifest :: shelf.map fun x => shelfImage x.1)[n]?.getD []
      ⟨image, image⟩
    nextInode := 5
    files := fun f => ⟨f, ⟨[], sstableFilename f⟩, 0, 0, decide (5 ≤ f)⟩
    nextFile := 5 }

theorem names_shelfDisk {p : Path} {n : InodeID} (h : shelfDisk.Names p n) :
    ⟨p, n⟩ ∈ shelfNames.entries := AList.mem_lookup_iff.1 (or_self_iff.1 h)

theorem proper_shelfDisk : shelfDisk.Proper := by
  have hlt : ∀ x ∈ shelfNames.entries, x.2 < 5 := by decide +kernel
  have hunique : ∀ x ∈ shelfNames.entries, ∀ y ∈ shelfNames.entries, x.2 = y.2 → x.1 = y.1 := by
    decide +kernel
  refine ⟨fun p n h => hlt _ (names_shelfDisk h), by simp [shelfDisk, SimFS.newSimFS], fun f hf => ?_,
    fun p q n h h' => hunique _ (names_shelfDisk h) _ (names_shelfDisk h') rfl⟩
  exact not_le.1 (of_decide_eq_false hf)

theorem serves_shelfDisk {x : List TableEntry × Nat} (hx : x ∈ shelf) {table : TableHandle}
    (htable : shelfHandle x = some table) : Serves shelfDisk.toVolume [] table (shelfTable x) := by
  have hencoded : ∀ x ∈ shelf, (encodeTable x.1).isOk = true ∧
      (shelfImage x.1).length ≤ maxInt64 ∧ x.1.Pairwise RecordOrder ∧
      (∀ e ∈ x.1, e.seq < 2 ^ 64 ∧ (e.tombstone = true → e.value = [])) ∧
      shelfNames.lookup ⟨[], sstableFilename x.2⟩ = some x.2 ∧ x.2 < 5 ∧
      (shelfManifest :: shelf.map fun x => shelfImage x.1)[x.2]? = some (shelfImage x.1) := by
    decide +kernel
  obtain ⟨hok, hsize, hsorted, hstore, hname, hlt, himage⟩ := hencoded x hx
  have hbytes : encodeTable x.1 = .ok (shelfImage x.1) := by
    cases henc : encodeTable x.1 with
    | error err =>
      rw [henc] at hok
      cases hok
    | ok bytes => rw [shelfImage, henc]; rfl
  have hstorable (e : TableEntry) (he : e ∈ x.1) : Storable e := ⟨(hstore e he).1, (hstore e he).2⟩
  obtain ⟨reader, hreads⟩ := encodeTable_tableOf hbytes hstorable hsorted hsize
  rw [shelfHandle, hreads.opens] at htable
  cases htable
  refine ⟨rfl, x.2, shelfImage x.1, ⟨⟨hname, ?_, rfl⟩, hname⟩, ⟨hlt, rfl, ?_, rfl⟩, hreads, hstorable⟩
  · simp only [shelfDisk, himage, Option.getD_some]
  · exact decide_eq_false (not_le.2 hlt)

def shelfStore : Store where
  engine := { recoveredEngine [] ⟨Stream'.const 0, 0, false, false⟩ shelfVersion.manifest with
    tables := shelf.filterMap shelfHandle
    nextFileNumber := 5 }
  fs := shelfDisk

theorem holds_shelfStore : Holds editWire.marshaler shelfVersion shelfStore := by
  refine holds_recovered _ proper_shelfDisk ?_ ?_ ?_ ?_ ?_ (by decide) ?_
  · exact ⟨0, shelfManifest, ⟨⟨rfl, rfl, rfl⟩, rfl⟩,
      ⟨_, rfl, by decide +kernel, by decide +kernel⟩, by decide +kernel⟩
  · exact ⟨by decide +kernel, by decide +kernel, by decide +kernel⟩
  · exact .of_eq (by decide +kernel)
  · decide +kernel
  · intro table htable
    obtain ⟨x, hx, hhandle⟩ := List.mem_filterMap.1 htable
    exact ⟨_, List.mem_map_of_mem hx, serves_shelfDisk hx hhandle⟩
  · decide +kernel

theorem compactAllLocked_balances_shelf :
    ∃ V s s', Holds editWire.marshaler V s ∧ (ofTier s.engine.tables 0).length = 4 ∧
      compactAllLocked editWire.marshaler s = (.ok (), s') ∧
      s'.engine.tables.map (fun table => table.metadata.tier) = [1] ∧
      (∃ s₁, reconcileObsoleteLocked s = (.ok none, s₁) ∧
        Ends editWire.marshaler s₁ (.ok (), s')) ∧ Balanced s s' := by
  obtain ⟨hends, -, hbalanced⟩ :=
    compactAllLocked_balances (Wire.marshaler_roundTrips editWire) holds_shelfStore
  have hcompacted : (compactAllLocked editWire.marshaler shelfStore).1.isOk = true ∧
      (compactAllLocked editWire.marshaler shelfStore).2.engine.tables.map
        (fun table => table.metadata.tier) = [1] := by decide +kernel
  obtain ⟨⟨⟩, s', hrun⟩ := exists_eq_ok hcompacted.1
  rw [hrun] at hends hcompacted
  rcases hends with hends | ⟨err, s₁, -, herr⟩
  · exact ⟨_, _, s', holds_shelfStore, by decide +kernel, hrun, hcompacted.2, hends, hbalanced s' hrun⟩
  · cases herr

end MiniQuorum.Lsm
