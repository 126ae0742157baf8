import MiniQuorum.Lsm.Volumes

/-! What a crash leaves of the unsynced mutations: those in a prefix of their bytes, the
last one possibly in part. -/

namespace MiniQuorum.Lsm

open Codec Program

/-! ### Mutations, whole and in part -/

def SimMutation.InRange (image : Bytes) (retained : Nat) : SimMutation → Prop
  | .write _ _ data => retained ≤ data.length
  | .truncate _ oldSize newSize => newSize < oldSize → retained ≤ image.length

instance (image : Bytes) (retained : Nat) :
    (m : SimMutation) → Decidable (m.InRange image retained)
  | .write _ _ data => inferInstanceAs (Decidable (retained ≤ data.length))
  | .truncate _ oldSize newSize =>
    inferInstanceAs (Decidable (newSize < oldSize → retained ≤ image.length))

def survivorsChecked : Retain → List SimMutation → (InodeID → Bytes) → Option (InodeID → Bytes)
  | _, [], image => some image
  | none, m :: rest, image =>
    if m.InRange (image m.node) m.byteCount then
      survivorsChecked none rest
        (Function.update image m.node (m.applyPrefix (image m.node) m.byteCount))
    else none
  | some remaining, m :: rest, image =>
    if remaining = 0 then some image
    else
      let keep := min remaining m.byteCount
      if m.InRange (image m.node) keep then
        let image := Function.update image m.node (m.applyPrefix (image m.node) keep)
        if keep ≠ m.byteCount then some image
        else survivorsChecked (some (remaining - keep)) rest image
      else none

/-- The mutations lead from the first bytes to the last ones, and each truncation was
recorded with the size it found. -/
inductive Replays : Bytes → List SimMutation → Bytes → Prop
  | nil (b : Bytes) : Replays b [] b
  | write {b b' : Bytes} {n : InodeID} {offset : Nat} {data : Bytes} {rest : List SimMutation}
      (h : Replays (writeAt b offset data) rest b') : Replays b (.write n offset data :: rest) b'
  | truncate {b b' : Bytes} {n : InodeID} {newSize : Nat} {rest : List SimMutation}
      (h : Replays (resize b newSize) rest b') :
      Replays b (.truncate n b.length newSize :: rest) b'

namespace Replays

variable {b b' : Bytes} {ms : List SimMutation} {m : SimMutation}

theorem concat_write (h : Replays b ms b') (n : InodeID) (offset : Nat) (data : Bytes) :
    Replays b (ms ++ [.write n offset data]) (writeAt b' offset data) := by
  induction h with
  | nil b => exact .write (.nil _)
  | write _ ih => exact .write ih
  | truncate _ ih => exact .truncate ih

theorem concat_truncate (h : Replays b ms b') (n : InodeID) (size : Nat) :
    Replays b (ms ++ [.truncate n b'.length size]) (resize b' size) := by
  induction h with
  | nil b => exact .truncate (.nil _)
  | write _ ih => exact .write ih
  | truncate _ ih => exact .truncate ih

theorem head (h : Replays b (m :: ms) b') :
    (∀ k ≤ m.byteCount, m.InRange b k) ∧ Replays (m.applyPrefix b m.byteCount) ms b' := by
  cases h with
  | write h =>
    refine ⟨fun k hk => hk, ?_⟩
    rw [SimMutation.applyPrefix, SimMutation.byteCount, List.take_length]
    exact h
  | @truncate _ _ n newSize _ h =>
    refine ⟨?_, ?_⟩
    · intro k hk hlt
      simp only [SimMutation.byteCount, if_neg (not_le.2 hlt)] at hk
      omega
    · have hwhole : SimMutation.applyPrefix b (SimMutation.truncate n b.length newSize).byteCount
          (.truncate n b.length newSize) = resize b newSize := by
        rw [SimMutation.applyPrefix, SimMutation.byteCount, resize]
        split
        · next hlt =>
          rw [if_neg (not_le.2 hlt), Nat.sub_sub_self hlt.le, Nat.sub_eq_zero_of_le hlt.le]
          simp
        · next hge =>
          rw [if_pos (not_lt.1 hge), List.take_of_length_le (not_lt.1 hge)]
      rw [hwhole]
      exact h

end Replays

theorem Replays.step {dirty : List SimMutation} {m : SimMutation} {image : InodeID → Bytes}
    (h : ∀ n, ∃ b, Replays (image n) ((m :: dirty).filter (·.node = n)) b) :
    (∀ k ≤ m.byteCount, m.InRange (image m.node) k) ∧
      ∀ n, ∃ b, Replays (Function.update image m.node (m.applyPrefix (image m.node) m.byteCount) n)
        (dirty.filter (·.node = n)) b := by
  have hnode : (m :: dirty).filter (·.node = m.node) = m :: dirty.filter (·.node = m.node) := by
    rw [List.filter_cons_of_pos (by simp)]
  refine ⟨?_, ?_⟩
  · obtain ⟨b, hb⟩ := h m.node
    rw [hnode] at hb
    exact hb.head.1
  · intro n
    obtain ⟨b, hb⟩ := h n
    by_cases hn : n = m.node
    · subst hn
      rw [hnode] at hb
      rw [Function.update_self]
      exact ⟨b, hb.head.2⟩
    · rw [List.filter_cons_of_neg (by simp [Ne.symm hn])] at hb
      rw [Function.update_of_ne hn]
      exact ⟨b, hb⟩

theorem survivorsChecked_eq (retain : Retain) {dirty : List SimMutation} {image : InodeID → Bytes}
    (h : ∀ n, ∃ b, Replays (image n) (dirty.filter (·.node = n)) b) :
    survivorsChecked retain dirty image = some (survivors retain dirty image) := by
  induction dirty generalizing retain image with
  | nil => cases retain <;> rfl
  | cons m dirty ih =>
    obtain ⟨hrange, hnext⟩ := Replays.step h
    cases retain with
    | none =>
      rw [survivorsChecked, if_pos (hrange _ le_rfl), survivors]
      exact ih none hnext
    | some remaining =>
      simp only [survivorsChecked, survivors, if_pos (hrange _ (min_le_right remaining _))]
      split
      · rfl
      · split
        · rfl
        · next hall =>
          rw [not_not.1 hall]
          exact ih _ hnext

/-! ### The surviving prefix -/

def keptBytes (retain : Retain) (before : Nat) (m : SimMutation) : Nat :=
  match retain with
  | none => m.byteCount
  | some r => min (r - before) m.byteCount

/-- The bytes of file `n`, which last synced `image`, with the part of its mutations that
lies in the retained prefix of all of them. -/
def survivor (retain : Retain) (n : InodeID) : Nat → List SimMutation → Bytes → Bytes
  | _, [], image => image
  | before, m :: rest, image =>
    survivor retain n (before + m.byteCount) rest
      (if m.node = n ∧ 0 < keptBytes retain before m then
        m.applyPrefix image (keptBytes retain before m)
      else image)

theorem survivor_of_le {r before : Nat} (h : r ≤ before) (n : InodeID) (dirty : List SimMutation)
    (image : Bytes) : survivor (some r) n before dirty image = image := by
  induction dirty generalizing before with
  | nil => rfl
  | cons m dirty ih =>
    have hkept : keptBytes (some r) before m = 0 := by
      simp only [keptBytes]
      omega
    rw [survivor, if_neg (by simp [hkept]), ih (by omega)]

theorem survivor_all {dirty : List SimMutation} (hpos : ∀ m ∈ dirty, 0 < m.byteCount) {n : InodeID}
    {b b' : Bytes} (h : Replays b (dirty.filter (·.node = n)) b') (before : Nat) :
    survivor none n before dirty b = b' := by
  induction dirty generalizing b before with
  | nil =>
    cases h
    rfl
  | cons m dirty ih =>
    rw [survivor]
    by_cases hn : m.node = n
    · rw [List.filter_cons_of_pos (by simpa using hn)] at h
      rw [if_pos ⟨hn, hpos m (by simp)⟩]
      exact ih (fun m hm => hpos m (by simp [hm])) h.head.2 _
    · rw [List.filter_cons_of_neg (by simpa using hn)] at h
      rw [if_neg fun hand => hn hand.1]
      exact ih (fun m hm => hpos m (by simp [hm])) h _

theorem update_applyPrefix (image : InodeID → Bytes) (m : SimMutation) (k : Nat) (n : InodeID) :
    Function.update image m.node (m.applyPrefix (image m.node) k) n =
      if m.node = n then m.applyPrefix (image n) k else image n := by
  by_cases hn : n = m.node
  · subst hn
    rw [Function.update_self, if_pos rfl]
  · rw [Function.update_of_ne hn, if_neg (Ne.symm hn)]

theorem survivors_eq (r : Retain) {dirty : List SimMutation}
    (hpos : ∀ m ∈ dirty, 0 < m.byteCount) (image : InodeID → Bytes) (n : InodeID) :
    survivors r dirty image n = survivor r n 0 dirty (image n) := by
  suffices h : ∀ before, survivors (r.map (· - before)) dirty image n =
      survivor r n before dirty (image n) by
    have hzero := h 0
    cases r <;> exact hzero
  induction dirty generalizing image with
  | nil =>
    intro before
    cases r <;> rfl
  | cons m dirty ih =>
    intro before
    have hm := hpos m (by simp)
    have ih := fun image => ih (fun m hm => hpos m (by simp [hm])) image (before + m.byteCount)
    cases r with
    | none =>
      simp only [Option.map_none] at ih ⊢
      rw [survivors, ih, survivor, update_applyPrefix]
      simp only [keptBytes, hm, and_true]
    | some r =>
      simp only [Option.map_some, survivors, survivor] at ih ⊢
      by_cases hnone : r - before = 0
      · rw [if_pos hnone, survivor_of_le (by omega), if_neg]
        simp only [keptBytes]
        omega
      · have hkept : 0 < keptBytes (some r) before m := by
          simp only [keptBytes]
          omega
        simp only [if_neg hnone, hkept, and_true]
        split
        · next hpart =>
          rw [survivor_of_le (by omega), update_applyPrefix]
          rfl
        · next hall =>
          have hrest : r - before - min (r - before) m.byteCount = r - (before + m.byteCount) := by
            omega
          rw [hrest, ih, update_applyPrefix]
          rfl

end MiniQuorum.Lsm
