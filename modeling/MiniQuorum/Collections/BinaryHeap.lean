import Mathlib.Data.List.Basic

/-! A binary heap in an array, with the smallest element at index 0. -/

namespace MiniQuorum.Collections.BinaryHeap

variable {α : Type} (less : α → α → Bool)

def siftUp : Nat → Array α → Nat → Array α
  | 0, heap, _ => heap
  | fuel + 1, heap, index =>
    if h : 0 < index ∧ index < heap.size then
      let parent := (index - 1) / 2
      have hparent : parent < heap.size := by omega
      if less heap[index] heap[parent] then siftUp fuel (heap.swap index parent) parent else heap
    else heap

def push (heap : Array α) (item : α) : Array α :=
  siftUp less heap.size (heap.push item) heap.size

def smallest (heap : Array α) (left : Nat) : Nat :=
  if h : left + 1 < heap.size then if less heap[left + 1] heap[left] then left + 1 else left
  else left

def siftDown : Nat → Array α → Nat → Array α
  | 0, heap, _ => heap
  | fuel + 1, heap, index =>
    let child := smallest less heap (index * 2 + 1)
    if h : index < heap.size ∧ child < heap.size then
      if less heap[child] heap[index] then siftDown fuel (heap.swap index child) child else heap
    else heap

def pop (heap : Array α) : Option (α × Array α) :=
  if h : 0 < heap.size then
    let rest := (heap.set 0 heap[heap.size - 1]).pop
    some (heap[0], siftDown less rest.size rest 0)
  else none

variable {less}

theorem siftUp_perm (fuel : Nat) (heap : Array α) (index : Nat) :
    (siftUp less fuel heap index).Perm heap := by
  induction fuel generalizing heap index with
  | zero => exact .refl heap
  | succ fuel ih =>
    rw [siftUp]
    split
    · dsimp only
      split
      · exact (ih _ _).trans (Array.swap_perm _ _)
      · exact .refl heap
    · exact .refl heap

theorem siftDown_perm (fuel : Nat) (heap : Array α) (index : Nat) :
    (siftDown less fuel heap index).Perm heap := by
  induction fuel generalizing heap index with
  | zero => exact .refl heap
  | succ fuel ih =>
    rw [siftDown]
    split
    · split
      · exact (ih _ _).trans (Array.swap_perm _ _)
      · exact .refl heap
    · exact .refl heap

theorem mem_push {heap : Array α} {item x : α} : x ∈ push less heap item ↔ x = item ∨ x ∈ heap := by
  rw [push, (siftUp_perm _ _ _).mem_iff, Array.mem_push, or_comm]

theorem pop_eq_none {heap : Array α} : pop less heap = none ↔ heap = #[] := by
  rw [pop]
  split
  · next h =>
    simp only [reduceCtorEq, false_iff]
    rintro rfl
    exact absurd h (by simp)
  · next h => simpa using Nat.eq_zero_of_not_pos h

theorem getElem?_zero_of_pop {heap rest : Array α} {item : α}
    (h : pop less heap = some (item, rest)) : heap[0]? = some item := by
  rw [pop] at h
  split at h
  · next hpos =>
    cases h
    exact Array.getElem?_eq_getElem hpos
  · cases h

theorem pop_perm {heap rest : Array α} {item : α} (h : pop less heap = some (item, rest)) :
    (rest.push item).Perm heap := by
  rw [pop] at h
  split at h
  · next hpos =>
    cases h
    refine ((siftDown_perm _ _ _).push _).trans ?_
    obtain ⟨items⟩ := heap
    rw [Array.perm_iff_toList_perm]
    rcases List.eq_nil_or_concat items with rfl | ⟨init, last, rfl⟩
    · simp at hpos
    · cases init with
      | nil => simp
      | cons first init =>
        have hdrop : (last :: (init ++ [last])).dropLast = last :: init := by
          rw [← List.cons_append, List.dropLast_concat]
        have hlast : (last :: init ++ [first]).Perm (first :: (init ++ [last])) :=
          (List.perm_append_singleton first _).trans
            ((List.perm_append_singleton last init).symm.cons first)
        simpa [hdrop] using hlast
  · cases h

/-! ### Order -/

structure WeakOrder (less : α → α → Bool) : Prop where
  asymm : ∀ {a b}, less a b = true → less b a = false
  trans : ∀ {a b c}, less b a = false → less c b = false → less c a = false

variable (less) in
def Ordered (heap : Array α) : Prop :=
  ∀ i x y, 0 < i → heap[i]? = some x → heap[(i - 1) / 2]? = some y → less x y = false

theorem ordered_empty : Ordered less #[] := by
  intro i x y _ hx
  simp at hx

theorem Ordered.root_le (hless : WeakOrder less) {heap : Array α} (h : Ordered less heap) {root : α}
    (hroot : heap[0]? = some root) {x : α} (hx : x ∈ heap) : less x root = false := by
  obtain ⟨i, hi, rfl⟩ := Array.mem_iff_getElem.1 hx
  induction i using Nat.strongRecOn with
  | _ i ih =>
    rcases Nat.eq_zero_or_pos i with rfl | hpos
    · rw [Array.getElem?_eq_getElem hi] at hroot
      obtain rfl := Option.some.inj hroot
      exact Bool.eq_false_iff.2 fun hself => absurd (hless.asymm hself) (by simp [hself])
    · have hparent : (i - 1) / 2 < heap.size := by omega
      have hstep := h i _ _ hpos (Array.getElem?_eq_getElem hi) (Array.getElem?_eq_getElem hparent)
      exact hless.trans (ih _ (by omega) hparent (Array.getElem_mem hparent)) hstep

variable (less) in
structure Rising (heap : Array α) (index : Nat) : Prop where
  others : ∀ i x y, 0 < i → i ≠ index → heap[i]? = some x → heap[(i - 1) / 2]? = some y →
    less x y = false
  across : ∀ i x y, 0 < index → 0 < i → (i - 1) / 2 = index → heap[i]? = some x →
    heap[(index - 1) / 2]? = some y → less x y = false

theorem Rising.swap (hless : WeakOrder less) {heap : Array α} {index : Nat}
    (h : Rising less heap index) (hpos : 0 < index) (hi : index < heap.size)
    (hp : (index - 1) / 2 < heap.size) (hlt : less heap[index] heap[(index - 1) / 2] = true) :
    Rising less (heap.swap index ((index - 1) / 2)) ((index - 1) / 2) := by
  have hparent := Array.getElem?_eq_getElem hp
  constructor
  · intro i x y hi0 hne hx hy
    rw [Array.getElem?_swap] at hx hy
    rw [if_neg (Ne.symm hne)] at hx
    by_cases hindex : index = i
    · subst hindex
      rw [if_pos rfl] at hx hy
      cases hx
      cases hy
      exact hless.asymm hlt
    · rw [if_neg hindex] at hx
      split at hy
      · next hsame =>
        cases hy
        exact hless.trans (hless.asymm hlt)
          (h.others i x _ hi0 (Ne.symm hindex) hx (hsame ▸ hparent))
      · split at hy
        · next hchild =>
          cases hy
          exact h.across i x _ hpos hi0 hchild.symm hx hparent
        · exact h.others i x y hi0 (Ne.symm hindex) hx hy
  · intro i x y hpos' hi0 hchild hx hy
    rw [Array.getElem?_swap] at hx hy
    rw [if_neg (by omega), if_neg (by omega)] at hy
    have hstep := h.others _ _ y hpos' (by omega) hparent hy
    rw [if_neg (by omega)] at hx
    split at hx
    · cases hx
      exact hstep
    · next hindex =>
      refine hless.trans hstep (h.others i x _ hi0 (Ne.symm hindex) hx ?_)
      rw [hchild]
      exact hparent

theorem siftUp_ordered (hless : WeakOrder less) {fuel : Nat} {heap : Array α} {index : Nat}
    (hfuel : index ≤ fuel) (h : Rising less heap index) : Ordered less (siftUp less fuel heap index) := by
  induction fuel generalizing heap index with
  | zero =>
    intro i x y hi0 hx hy
    exact h.others i x y hi0 (by omega) hx hy
  | succ fuel ih =>
    rw [siftUp]
    split
    · next hin =>
      dsimp only
      split
      · next hlt => exact ih (by omega) (h.swap hless hin.1 hin.2 (by omega) hlt)
      · next hge =>
        intro i x y hi0 hx hy
        by_cases hindex : i = index
        · subst hindex
          rw [Array.getElem?_eq_getElem hin.2] at hx
          rw [Array.getElem?_eq_getElem (by omega)] at hy
          cases hx
          cases hy
          simpa using hge
        · exact h.others i x y hi0 hindex hx hy
    · next hout =>
      intro i x y hi0 hx hy
      refine h.others i x y hi0 ?_ hx hy
      rintro rfl
      exact hout ⟨hi0, (Array.getElem?_eq_some_iff.1 hx).1⟩

theorem Ordered.push (hless : WeakOrder less) {heap : Array α} (h : Ordered less heap) (item : α) :
    Ordered less (push less heap item) := by
  refine siftUp_ordered hless (Nat.le_refl _) ⟨?_, ?_⟩
  · intro i x y hi0 hne hx hy
    have hi := (Array.getElem?_eq_some_iff.1 hx).1
    rw [Array.size_push] at hi
    rw [Array.getElem?_push, if_neg hne] at hx
    rw [Array.getElem?_push, if_neg (by omega)] at hy
    exact h i x y hi0 hx hy
  · intro i x y hpos hi0 hchild hx
    have hi := (Array.getElem?_eq_some_iff.1 hx).1
    rw [Array.size_push] at hi
    omega

variable (less) in
structure Sinking (heap : Array α) (index : Nat) : Prop where
  others : ∀ i x y, 0 < i → (i - 1) / 2 ≠ index → heap[i]? = some x →
    heap[(i - 1) / 2]? = some y → less x y = false
  across : ∀ i x y, 0 < index → 0 < i → (i - 1) / 2 = index → heap[i]? = some x →
    heap[(index - 1) / 2]? = some y → less x y = false

theorem smallest_spec (hless : WeakOrder less) (heap : Array α) (index : Nat) :
    (smallest less heap (index * 2 + 1) = index * 2 + 1 ∨
        smallest less heap (index * 2 + 1) = index * 2 + 2) ∧
      (index * 2 + 1 < heap.size → smallest less heap (index * 2 + 1) < heap.size) ∧
      ∀ i x y, 0 < i → (i - 1) / 2 = index → heap[i]? = some x →
        heap[smallest less heap (index * 2 + 1)]? = some y → less x y = false := by
  have hself (x : α) : less x x = false :=
    Bool.eq_false_iff.2 fun hxx => absurd (hless.asymm hxx) (by simp [hxx])
  rw [smallest]
  split
  · next hright =>
    have hl : heap[index * 2 + 1]? = some heap[index * 2 + 1] :=
      Array.getElem?_eq_getElem (by omega)
    have hr : heap[index * 2 + 1 + 1]? = some heap[index * 2 + 1 + 1] :=
      Array.getElem?_eq_getElem hright
    have hchild {i : Nat} (hi0 : 0 < i) (hparent : (i - 1) / 2 = index) :
        i = index * 2 + 1 ∨ i = index * 2 + 1 + 1 := by omega
    split
    · next hlt =>
      refine ⟨.inr rfl, fun _ => hright, fun i x y hi0 hparent hx hy => ?_⟩
      rw [hr] at hy
      cases hy
      rcases hchild hi0 hparent with rfl | rfl
      · rw [hl] at hx
        cases hx
        exact hless.asymm hlt
      · rw [hr] at hx
        cases hx
        exact hself _
    · next hge =>
      refine ⟨.inl rfl, id, fun i x y hi0 hparent hx hy => ?_⟩
      rw [hl] at hy
      cases hy
      rcases hchild hi0 hparent with rfl | rfl
      · rw [hl] at hx
        cases hx
        exact hself _
      · rw [hr] at hx
        cases hx
        simpa using hge
  · next hright =>
    refine ⟨.inl rfl, id, fun i x y hi0 hparent hx hy => ?_⟩
    have hi := (Array.getElem?_eq_some_iff.1 hx).1
    obtain rfl : i = index * 2 + 1 := by omega
    rw [hx] at hy
    cases hy
    exact hself _

theorem Sinking.swap (hless : WeakOrder less) {heap : Array α} {index child : Nat}
    (h : Sinking less heap index) (hi : index < heap.size) (hc : child < heap.size)
    (hchild : (child - 1) / 2 = index) (hpos : 0 < child)
    (hmin : ∀ i x, 0 < i → (i - 1) / 2 = index → heap[i]? = some x → less x heap[child] = false)
    (hlt : less heap[child] heap[index] = true) :
    Sinking less (heap.swap index child) child := by
  have hgt : index < child := by omega
  constructor
  · intro i x y hi0 hne hx hy
    rw [Array.getElem?_swap] at hx hy
    rw [if_neg (Ne.symm hne)] at hy
    by_cases hic : child = i
    · subst hic
      rw [if_pos rfl] at hx
      rw [if_pos hchild.symm] at hy
      cases hx
      cases hy
      exact hless.asymm hlt
    · rw [if_neg hic] at hx
      by_cases hii : index = i
      · subst hii
        rw [if_pos rfl] at hx
        rw [if_neg (by omega)] at hy
        cases hx
        exact h.across child _ y hi0 hpos hchild (Array.getElem?_eq_getElem hc) hy
      · rw [if_neg hii] at hx
        split at hy
        · next hsibling =>
          cases hy
          exact hmin i x hi0 hsibling.symm hx
        · next hother => exact h.others i x y hi0 (Ne.symm hother) hx hy
  · intro i x y _ hi0 hparent hx hy
    rw [Array.getElem?_swap] at hx hy
    rw [if_neg (by omega), if_neg (by omega)] at hx
    rw [if_neg (by omega), if_pos hchild.symm] at hy
    cases hy
    refine h.others i x _ hi0 (by omega) hx ?_
    rw [hparent]
    exact Array.getElem?_eq_getElem hc

theorem siftDown_ordered (hless : WeakOrder less) {fuel : Nat} {heap : Array α} {index : Nat}
    (hfuel : heap.size ≤ fuel + index) (h : Sinking less heap index) :
    Ordered less (siftDown less fuel heap index) := by
  induction fuel generalizing heap index with
  | zero =>
    intro i x y hi0 hx hy
    have hi : i < heap.size := (Array.getElem?_eq_some_iff.1 hx).1
    exact h.others i x y hi0 (by omega) hx hy
  | succ fuel ih =>
    obtain ⟨hside, hsize, hmin⟩ := smallest_spec hless heap index
    rw [siftDown]
    split
    · next hin =>
      have hchild := Array.getElem?_eq_getElem hin.2
      split
      · next hlt =>
        refine ih (by rw [Array.size_swap]; omega) (h.swap hless hin.1 hin.2 (by omega) (by omega) ?_ hlt)
        intro i x hi0 hparent hx
        exact hmin i x _ hi0 hparent hx hchild
      · next hge =>
        intro i x y hi0 hx hy
        by_cases hparent : (i - 1) / 2 = index
        · rw [hparent, Array.getElem?_eq_getElem hin.1] at hy
          cases hy
          exact hless.trans (by simpa using hge) (hmin i x _ hi0 hparent hx hchild)
        · exact h.others i x y hi0 hparent hx hy
    · next hout =>
      intro i x y hi0 hx hy
      have hi := (Array.getElem?_eq_some_iff.1 hx).1
      refine h.others i x y hi0 (fun hparent => hout ⟨by omega, hsize (by omega)⟩) hx hy

theorem Ordered.pop (hless : WeakOrder less) {heap rest : Array α} {item : α}
    (h : Ordered less heap) (hpop : pop less heap = some (item, rest)) :
    Ordered less rest ∧ ∀ x ∈ heap, less x item = false := by
  refine ⟨?_, fun x hx => h.root_le hless (getElem?_zero_of_pop hpop) hx⟩
  rw [BinaryHeap.pop] at hpop
  split at hpop
  · next hsize =>
    cases hpop
    refine siftDown_ordered hless (Nat.le_refl _) ⟨?_, fun _ _ _ hpos => absurd hpos (Nat.lt_irrefl 0)⟩
    intro i x y hi0 hne hx hy
    have hi := (Array.getElem?_eq_some_iff.1 hx).1
    rw [Array.size_pop, Array.size_set] at hi
    rw [Array.getElem?_pop, Array.size_set, if_pos (by omega),
      Array.getElem?_set_ne _ (by omega)] at hx hy
    exact h i x y hi0 hx hy
  · cases hpop

end MiniQuorum.Collections.BinaryHeap
