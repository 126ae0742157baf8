import MiniQuorum.Server.Cluster
import MiniQuorum.Raft.Contiguous

/-! What `Ready` reports, what saving it leaves in the storage and what `Advance` settles. -/

namespace MiniQuorum.Server

open Raft Storage

variable {disk : MemStorage} {a : Node}

theorem cut_eq_take {l : List Entry} (h : NumberedFrom 1 l) (k : Nat) :
    MemStorage.cut l (k + 1) = l.take k := by
  rw [MemStorage.cut, Nat.add_comm k 1]
  exact h.takeWhile

theorem ready_entries (h : a.log.Contiguous) {k : Nat} (hk : a.unstableIndex = k + 1) :
    a.readyWithoutCapture.entries = a.log.entries.drop k := by
  rw [Node.readyWithoutCapture]
  simp only
  rw [hk, h.lastIndex, h.rangeEntries, Nat.add_sub_add_right]
  split
  · rw [List.take_of_length_le]
    rw [List.length_drop]
  · rename_i hlt
    rw [List.drop_eq_nil_of_le (by omega)]

theorem ready_head (h : a.log.Contiguous) {k : Nat} (hk : a.unstableIndex = k + 1) {e : Entry}
    (he : a.readyWithoutCapture.entries.head? = some e) : e.index = k + 1 := by
  rw [ready_entries h hk, List.head?_drop] at he
  rw [h.numbered.getElem? he, Nat.add_comm]

/-- The storage holds the node's state except for what its next Ready reports. -/
structure Behind (disk : MemStorage) (a : Node) : Prop where
  contiguous : a.log.Contiguous
  numbered : NumberedFrom 1 disk.entries
  hard : a.hardStateDirty = false → a.hardState = disk.hard
  log : ∃ k ≤ disk.entries.length, a.unstableIndex = k + 1 ∧
    a.log.entries.take k = disk.entries.take k ∧
    (k = disk.entries.length ∨ k < a.log.entries.length)

theorem Behind.hardState_getD (h : Behind disk a) :
    a.readyWithoutCapture.hardState.getD disk.hard = a.hardState := by
  rw [Node.readyWithoutCapture]
  simp only
  split
  · rfl
  · rename_i hd
    exact (h.hard (Bool.eq_false_iff.mpr hd)).symm

theorem Behind.unstable (h : Behind disk a) :
    ∃ k ≤ a.log.entries.length, a.unstableIndex = k + 1 := by
  obtain ⟨k, hk, hu, htake, hlast⟩ := h.log
  refine ⟨k, ?_, hu⟩
  rcases hlast with rfl | hlt
  · have := congrArg List.length htake
    rw [List.length_take, List.length_take, min_self] at this
    exact min_eq_left_iff.mp this
  · exact hlt.le

theorem Behind.save_eq (h : Behind disk a) :
    disk.save a.readyWithoutCapture.hardState a.readyWithoutCapture.entries =
      ⟨a.hardState, a.log.entries⟩ := by
  obtain ⟨k, hk, hu, htake, hlast⟩ := h.log
  have hentries := ready_entries h.contiguous hu
  rw [MemStorage.save.eq_def, h.hardState_getD]
  congr 1
  cases he : a.readyWithoutCapture.entries with
  | nil =>
    rw [he] at hentries
    have hle := List.drop_eq_nil_iff.mp hentries.symm
    have hkdisk : k = disk.entries.length := by omega
    rw [hkdisk, List.take_length] at htake
    rw [← htake, List.take_of_length_le (by omega)]
  | cons e rest =>
    have hindex := ready_head h.contiguous hu (e := e) (by rw [he]; rfl)
    simp only
    rw [hindex, cut_eq_take h.numbered, ← he, hentries, ← htake, List.take_append_drop]

theorem ready_committedEntries (h : a.log.Contiguous) :
    a.readyWithoutCapture.committedEntries =
      (a.log.entries.take a.commitIndex).drop a.lastApplied := by
  rw [Node.readyWithoutCapture]
  simp only
  rw [h.rangeEntries, Nat.add_sub_add_right, List.drop_take]
  split
  · rfl
  · rw [Nat.sub_eq_zero_of_le (by omega), List.take_zero]

theorem getLast_drop {l : List Entry} (h : NumberedFrom 1 l) {k : Nat} (hk : k < l.length) :
    ((l.drop k).getLast?.map Entry.index).getD 0 = l.length := by
  obtain ⟨e, hlast⟩ : ∃ e, l[l.length - 1]? = some e :=
    ⟨_, List.getElem?_eq_getElem (by omega)⟩
  rw [List.getLast?_drop, if_neg (by omega), List.getLast?_eq_getElem?, hlast]
  have := h.getElem? hlast
  simp only [Option.map_some, Option.getD_some]
  omega

theorem advance_ready (a : Node) :
    a.ready.2.advance = { a with
      hardStateDirty :=
        if a.readyWithoutCapture.hardState.isSome && a.hardStateDirty &&
          a.hardState == a.readyWithoutCapture.hardState.getD ⟨0, 0⟩ then false
        else a.hardStateDirty
      messages := if a.messages.length ≥ a.messages.length then []
        else a.messages.drop a.messages.length
      unstableIndex :=
        if !a.readyWithoutCapture.entries.isEmpty && a.unstableIndex ≤
          (a.readyWithoutCapture.entries.getLast?.map Entry.index).getD 0 then
          (a.readyWithoutCapture.entries.getLast?.map Entry.index).getD 0 + 1
        else a.unstableIndex
      lastApplied :=
        if !a.readyWithoutCapture.committedEntries.isEmpty &&
          (a.readyWithoutCapture.committedEntries.getLast?.map Entry.index).getD 0 >
            a.lastApplied then
          (a.readyWithoutCapture.committedEntries.getLast?.map Entry.index).getD 0
        else a.lastApplied
      readyAck := ReadyAck.zero } := rfl

theorem advance_eq (a : Node) : ∃ dirty messages unstable applied ack,
    a.advance = { a with
      hardStateDirty := dirty, messages := messages, unstableIndex := unstable,
      lastApplied := applied, readyAck := ack } := by
  rw [Node.advance]
  split <;> exact ⟨_, _, _, _, _, rfl⟩

theorem advance_dirty (a : Node) : a.ready.2.advance.hardStateDirty = false := by
  rw [advance_ready, Node.readyWithoutCapture]
  cases hd : a.hardStateDirty <;> simp

theorem advance_unstable (h : a.log.Contiguous) {k : Nat} (hk : k ≤ a.log.entries.length)
    (hu : a.unstableIndex = k + 1) :
    a.ready.2.advance.unstableIndex = a.log.entries.length + 1 := by
  rw [advance_ready, ready_entries h hu, hu]
  rcases hk.lt_or_eq with hlt | rfl
  · have hne : a.log.entries.drop k ≠ [] := by
      rw [ne_eq, List.drop_eq_nil_iff]
      omega
    simp only [getLast_drop h.numbered hlt]
    rw [if_pos]
    simp [hne]
    omega
  · rw [List.drop_length]
    rfl

theorem advance_lastApplied (h : a.log.Contiguous) (hcommit : a.commitIndex ≤ a.log.entries.length)
    (happlied : a.lastApplied ≤ a.commitIndex) :
    a.ready.2.advance.lastApplied = a.commitIndex := by
  have hlen : (a.log.entries.take a.commitIndex).length = a.commitIndex := by
    rw [List.length_take, min_eq_left hcommit]
  rw [advance_ready, ready_committedEntries h]
  rcases happlied.lt_or_eq with hlt | heq
  · have hne : (a.log.entries.take a.commitIndex).drop a.lastApplied ≠ [] := by
      rw [ne_eq, List.drop_eq_nil_iff, hlen]
      omega
    have hnum : NumberedFrom 1 (a.log.entries.take a.commitIndex) :=
      h.numbered.mono <| List.take_prefix _ _
    simp only [getLast_drop hnum (hlen.symm ▸ hlt), hlen]
    rw [if_pos]
    simp [hne, hlt]
  · rw [heq, List.drop_eq_nil_of_le hlen.le]
    rfl

theorem firstLast_eq {l : List Entry} (h : NumberedFrom 1 l) : firstLast l = (1, l.length) := by
  cases l with
  | nil => rfl
  | cons e rest =>
    have hlast := getLast_drop h (k := 0) (by simp)
    rw [List.drop_zero, List.getLast?_eq_some_getLast (by simp)] at hlast
    exact Prod.ext h.1 hlast

theorem newRecoveredNode_eq (hnum : NumberedFrom 1 disk.entries) {cfg : Config} {rnd : Rand}
    (h : newRecoveredNode cfg disk rnd = some a) :
    a = newNode cfg ⟨disk.hard, disk.entries, ⟨0, 0⟩⟩ rnd := by
  rw [newRecoveredNode, firstLast_eq hnum] at h
  simp only at h
  split at h
  · split at h
    · cases h
    · next hmax =>
      rw [MemStorage.getEntries, firstLast_eq hnum] at h
      simp only [indexAfter, if_neg hmax, gt_iff_lt, Nat.lt_irrefl, decide_false, Bool.or_false,
        Nat.sub_self, List.drop_zero, Nat.add_sub_cancel, List.take_length] at h
      rw [if_neg (by simp)] at h
      exact (Option.some.inj h).symm
  · have hnil : disk.entries = [] := List.eq_nil_of_length_eq_zero (by omega)
    rw [hnil]
    exact (Option.some.inj h).symm

theorem newRecoveredNode_cases {cfg : Config} {rnd : Rand}
    (h : newRecoveredNode cfg disk rnd = some a) :
    ∃ entries, a = newNode cfg ⟨disk.hard, entries, ⟨0, 0⟩⟩ rnd := by
  rw [newRecoveredNode] at h
  split at h
  · split at h
    · cases h
    · obtain ⟨entries, _, rfl⟩ := Option.map_eq_some_iff.mp h
      exact ⟨entries, rfl⟩
  · cases h
    exact ⟨[], rfl⟩

theorem newRecoveredNode_some {disk : MemStorage} (hnum : NumberedFrom 1 disk.entries)
    (hlen : disk.entries.length ≠ maxUint64) (cfg : Config) (rnd : Rand) :
    newRecoveredNode cfg disk rnd = some (newNode cfg ⟨disk.hard, disk.entries, ⟨0, 0⟩⟩ rnd) := by
  have hsome : (newRecoveredNode cfg disk rnd).isSome := by
    rw [newRecoveredNode, firstLast_eq hnum, MemStorage.getEntries, firstLast_eq hnum]
    simp only [indexAfter, if_neg hlen]
    split
    · simp
    · rfl
  obtain ⟨a, ha⟩ := Option.isSome_iff_exists.mp hsome
  rw [ha, newRecoveredNode_eq hnum ha]

end MiniQuorum.Server
