import MiniQuorum.Collections.Newest
import MiniQuorum.Lsm.SkipList

/-! The abstract version: the tables a manifest names, and the edit that replaces some of them
by others. -/

namespace MiniQuorum.Lsm

open Codec Collections

structure Table where
  metadata : FileMetadata
  entries : List TableEntry

structure Version where
  tables : List Table
  flushedIndex : Nat
  records : Nat

namespace Version

def manifest (V : Version) : ManifestState :=
  ⟨V.tables.map Table.metadata, V.flushedIndex, V.records⟩

def contents (V : Version) : Set TableEntry := { e | ∃ t ∈ V.tables, e ∈ t.entries }

def Has (V : Version) (name : FileName) : Prop := ∃ t ∈ V.tables, t.metadata.file = name

instance lawfulBEq : LawfulBEq FileName := inferInstance

def edit (V : Version) (removed : List FileName) (added : List Table) (flushedIndex : Nat) :
    Version where
  tables := V.tables.filter (fun t => t.metadata.file ∉ removed) ++ added
  flushedIndex := flushedIndex
  records := V.records + 1

/-- Table names are distinct, and no record is newer than the flushed index. -/
structure Sound (V : Version) : Prop where
  valid : ∀ t ∈ V.tables, validSSTableFilename t.metadata.file = true
  nodup : (V.tables.map fun t => t.metadata.file).Nodup
  bounded : ∀ t ∈ V.tables, ∀ e ∈ t.entries, e.seq ≤ V.flushedIndex

variable {V : Version}

theorem references_manifest {name : FileName} : V.manifest.references name = true ↔ V.Has name := by
  rw [ManifestState.references_iff]
  simp [manifest, Has]

theorem Sound.eq_of_name (h : V.Sound) {t u : Table} (ht : t ∈ V.tables) (hu : u ∈ V.tables)
    (hname : t.metadata.file = u.metadata.file) : t = u :=
  List.inj_on_of_nodup_map h.nodup ht hu hname

theorem Sound.suffix (h : V.Sound) {t : Table} (ht : t ∈ V.tables) :
    sstableFilenameSuffix.isSuffixOf t.metadata.file = true :=
  (Bool.and_eq_true_iff.1 (h.valid t ht)).2

variable {added : List Table}

theorem mem_edit {removed : List FileName} {flushedIndex : Nat} {t : Table} :
    t ∈ (V.edit removed added flushedIndex).tables ↔
      t ∈ V.tables ∧ t.metadata.file ∉ removed ∨ t ∈ added := by
  simp [edit]

theorem manifest_edit {e : VersionEdit} {s : ManifestState}
    (h : V.manifest.Applied e s) (hadded : added.map Table.metadata = e.addedFiles) :
    (V.edit e.removedFiles added e.flushedIndex).manifest = s := by
  rw [h.result, ← hadded]
  simp only [manifest, edit, List.map_append, List.filter_map]
  rfl

theorem Sound.edit (hV : V.Sound) {e : VersionEdit} {s : ManifestState} {added : List Table}
    (h : V.manifest.Applied e s) (hadded : added.map Table.metadata = e.addedFiles)
    (hbound : ∀ t ∈ added, ∀ d ∈ t.entries, d.seq ≤ e.flushedIndex) :
    (V.edit e.removedFiles added e.flushedIndex).Sound := by
  have hmem {t : Table} (ht : t ∈ added) : V.manifest.Admitted e.removedFiles t.metadata :=
    h.added _ (hadded ▸ List.mem_map_of_mem ht)
  refine ⟨?_, ?_, ?_⟩
  · intro t ht
    rcases mem_edit.1 ht with ⟨ht, -⟩ | ht
    · exact hV.valid t ht
    · exact (hmem ht).valid
  · simp only [Version.edit, List.map_append]
    refine List.Nodup.append ?_ ?_ ?_
    · exact hV.nodup.sublist (List.filter_sublist.map _)
    · have hnodup := h.nodup
      rw [← hadded, List.map_map] at hnodup
      exact hnodup
    · intro name hold hnew
      obtain ⟨t, ht, rfl⟩ := List.mem_map.1 hold
      obtain ⟨u, hu, hname⟩ := List.mem_map.1 hnew
      have hfresh := (hmem hu).fresh
      have hreferenced := references_manifest.2 ⟨t, (List.mem_filter.1 ht).1, hname.symm⟩
      rw [hfresh] at hreferenced
      cases hreferenced
  · intro t ht d hd
    rcases mem_edit.1 ht with ⟨ht, -⟩ | ht
    · exact (hV.bounded t ht d hd).trans h.flushed
    · exact hbound t ht d hd

/-! ### No newest record is lost -/

theorem condenses_edit {removed : List FileName} {output : Table} {flushedIndex : Nat}
    (houtput : Condenses TableEntry.key TableEntry.seq { e | e ∈ output.entries }
      { e | ∃ t ∈ V.tables, t.metadata.file ∈ removed ∧ e ∈ t.entries }) :
    Condenses TableEntry.key TableEntry.seq (V.edit removed [output] flushedIndex).contents
      V.contents := by
  have hsplit : V.contents =
      { e | ∃ t ∈ V.tables, t.metadata.file ∉ removed ∧ e ∈ t.entries } ∪
        { e | ∃ t ∈ V.tables, t.metadata.file ∈ removed ∧ e ∈ t.entries } := by
    ext e
    constructor
    · rintro ⟨t, ht, he⟩
      by_cases hremoved : t.metadata.file ∈ removed
      · exact .inr ⟨t, ht, hremoved, he⟩
      · exact .inl ⟨t, ht, hremoved, he⟩
    · rintro (⟨t, ht, -, he⟩ | ⟨t, ht, -, he⟩)
      · exact ⟨t, ht, he⟩
      · exact ⟨t, ht, he⟩
  have hedit : (V.edit removed [output] flushedIndex).contents =
      { e | ∃ t ∈ V.tables, t.metadata.file ∉ removed ∧ e ∈ t.entries } ∪
        { e | e ∈ output.entries } := by
    ext e
    simp only [contents, mem_edit, List.mem_singleton, Set.mem_ofPred_eq,
      Set.mem_union, or_and_right, exists_or, and_assoc, exists_eq_left]
  rw [hedit, hsplit]
  exact (Condenses.refl _).union houtput

end Version

end MiniQuorum.Lsm
