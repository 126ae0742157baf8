import Mathlib.Data.List.GetD
import Mathlib.Data.Stream.Defs
import MiniQuorum.Lsm.SSTable

/-! The memtable's skip list: nodes in an arena, with towers of forward links. -/

namespace MiniQuorum.Lsm

open Codec

/-! ### Chains of links -/

section Chain

variable {α : Type}

def Follows (next : α → Option α) : α → List α → Prop
  | x, [] => next x = none
  | x, y :: l => next x = some y ∧ Follows next y l

variable {next : α → Option α} {x : α} {as bs : List α}

theorem Follows.next_eq (h : Follows next x as) : next x = as.head? := by
  cases as with
  | nil => exact h
  | cons y as => exact h.1

theorem Follows.drop (h : Follows next x (as ++ bs)) : Follows next (as.getLastD x) bs := by
  induction as generalizing x with
  | nil => exact h
  | cons y as ih =>
    rw [List.getLastD_cons]
    exact ih h.2

theorem Follows.congr {next' : α → Option α} (h : Follows next x as)
    (heq : ∀ y ∈ x :: as, next' y = next y) : Follows next' x as := by
  induction as generalizing x with
  | nil => exact (heq x List.mem_cons_self).trans h
  | cons y as ih =>
    exact ⟨(heq x List.mem_cons_self).trans h.1, ih h.2 fun z hz => heq z (List.mem_cons_of_mem _ hz)⟩

theorem getLastD_mem (x : α) (as : List α) : as.getLastD x ∈ x :: as := by
  induction as generalizing x with
  | nil => exact List.mem_cons_self
  | cons y as ih =>
    rw [List.getLastD_cons]
    exact List.mem_cons_of_mem _ (ih y)

theorem getLastD_append_cons (x a : α) (as bs : List α) :
    (as ++ a :: bs).getLastD x = bs.getLastD a := by
  induction as generalizing x with
  | nil => exact List.getLastD_cons
  | cons b as ih =>
    rw [List.cons_append, List.getLastD_cons]
    exact ih b

theorem Follows.splice [DecidableEq α] {n : α} {next' : α → Option α}
    (h : Follows next x (as ++ bs)) (hnodup : (x :: (as ++ bs)).Nodup) (hfresh : n ∉ x :: (as ++ bs))
    (hnext : ∀ y, next' y =
      if y = as.getLastD x then some n else if y = n then next (as.getLastD x) else next y) :
    Follows next' x (as ++ n :: bs) := by
  induction as generalizing x with
  | nil =>
    have hne : n ≠ x := fun heq => hfresh (heq ▸ List.mem_cons_self)
    refine ⟨by rw [hnext]; exact if_pos rfl, ?_⟩
    have hrest : next' n = bs.head? := by
      rw [hnext, List.getLastD_nil, if_neg hne, if_pos rfl]
      exact h.next_eq
    have hbs : ∀ y ∈ bs, next' y = next y := by
      intro y hy
      rw [hnext, List.getLastD_nil, if_neg, if_neg]
      · rintro rfl
        exact hfresh (List.mem_cons_of_mem _ hy)
      · rintro rfl
        exact (List.nodup_cons.1 hnodup).1 hy
    cases bs with
    | nil => exact hrest
    | cons b bs => exact ⟨hrest, h.2.congr hbs⟩
  | cons a as ih =>
    obtain ⟨hx, hnodup'⟩ := List.nodup_cons.1 hnodup
    have hlast := getLastD_mem a as
    refine ⟨?_, ih h.2 hnodup' (fun hn => hfresh (List.mem_cons_of_mem _ hn)) ?_⟩
    · rw [hnext, List.getLastD_cons, if_neg, if_neg]
      · exact h.1
      · rintro rfl
        exact hfresh List.mem_cons_self
      · rintro rfl
        exact hx (List.mem_append_left bs hlast)
    · intro y
      rw [hnext, List.getLastD_cons]

end Chain

/-! ### The source of tower heights -/

abbrev Rand := Stream' Nat

def Rand.intN (rnd : Rand) (n : Nat) : Nat × Rand := (rnd.head % n, rnd.tail)

def maxHeight : Nat := 16

def towerInverseP : Nat := 4

def randomHeightFrom (inverseP : Nat) : Nat → Nat → Rand → Nat × Rand
  | 0, height, rnd => (height, rnd)
  | more + 1, height, rnd =>
    let draw := rnd.intN inverseP
    if draw.1 = 0 then randomHeightFrom inverseP more (height + 1) draw.2 else (height, draw.2)

def randomHeight (rnd : Rand) (maxH inverseP : Nat) : Nat × Rand :=
  randomHeightFrom inverseP (maxH - 1) 1 rnd

theorem randomHeightFrom_bounds (inverseP more height : Nat) (rnd : Rand) :
    height ≤ (randomHeightFrom inverseP more height rnd).1 ∧
      (randomHeightFrom inverseP more height rnd).1 ≤ height + more := by
  induction more generalizing height rnd with
  | zero => exact ⟨le_rfl, le_rfl⟩
  | succ more ih =>
    rw [randomHeightFrom]
    split
    · obtain ⟨hlow, hhigh⟩ := ih (height + 1) (rnd.intN inverseP).2
      omega
    · dsimp only
      omega

theorem randomHeight_bounds (rnd : Rand) (inverseP : Nat) :
    1 ≤ (randomHeight rnd maxHeight inverseP).1 ∧
      (randomHeight rnd maxHeight inverseP).1 ≤ maxHeight :=
  randomHeightFrom_bounds inverseP (maxHeight - 1) 1 rnd

/-! ### The list -/

abbrev NodeID := Nat

/-- `forward[i]` is the next node at level `i`. -/
structure SkipNode where
  entry : TableEntry
  forward : List (Option NodeID)
  deriving DecidableEq, Repr

/-- Nodes are numbered in the order they were made, the head being node 0. -/
structure SkipList where
  nodes : NodeID → SkipNode
  size : Nat
  level : Nat

namespace SkipList

def head : NodeID := 0

def newSkipList : SkipList where
  nodes _ := ⟨⟨[], 0, [], false⟩, List.replicate maxHeight none⟩
  size := 1
  level := 1

def key (s : SkipList) (x : NodeID) : Bytes := (s.nodes x).entry.key

def height (s : SkipList) (x : NodeID) : Nat := (s.nodes x).forward.length

def next (s : SkipList) (i : Nat) (x : NodeID) : Option NodeID := (s.nodes x).forward.getD i none

def advance (s : SkipList) (key : Bytes) (i : Nat) : Nat → NodeID → NodeID
  | 0, x => x
  | fuel + 1, x =>
    match s.next i x with
    | none => x
    | some y => if s.key y < key then s.advance key i fuel y else x

def predecessors (s : SkipList) (key : Bytes) :
    Nat → NodeID → (Nat → NodeID) → NodeID × (Nat → NodeID)
  | 0, x, update => (x, update)
  | i + 1, x, update =>
    let x := s.advance key i s.size x
    s.predecessors key i x (Function.update update i x)

def get (s : SkipList) (key : Bytes) : Option TableEntry :=
  let x := (s.predecessors key s.level head fun _ => head).1
  match s.next 0 x with
  | none => none
  | some y => if s.key y = key then some (s.nodes y).entry else none

def setForward (nodes : NodeID → SkipNode) (x : NodeID) (i : Nat) (y : Option NodeID) :
    NodeID → SkipNode :=
  Function.update nodes x { nodes x with forward := (nodes x).forward.set i y }

def link (id : NodeID) (update : Nat → NodeID) : Nat → (NodeID → SkipNode) → NodeID → SkipNode
  | 0, nodes => nodes
  | i + 1, nodes =>
    let nodes := link id update i nodes
    let nodes := setForward nodes id i ((nodes (update i)).forward.getD i none)
    setForward nodes (update i) i (some id)

def insert (s : SkipList) (entry : TableEntry) (update : Nat → NodeID) (height : Nat) : SkipList where
  nodes := link s.size update height
    (Function.update s.nodes s.size ⟨entry, List.replicate height none⟩)
  size := s.size + 1
  level := max s.level height

def assign (s : SkipList) (y : NodeID) (entry : TableEntry) : SkipList :=
  { s with
    nodes := Function.update s.nodes y
      ⟨⟨s.key y, entry.seq, entry.value, entry.tombstone⟩, (s.nodes y).forward⟩ }

def put (s : SkipList) (entry : TableEntry) (rnd : Rand) : Option (SkipList × Rand) :=
  let search := s.predecessors entry.key s.level head fun _ => head
  let insert : SkipList × Rand :=
    let draw := randomHeight rnd maxHeight towerInverseP
    (s.insert entry search.2 draw.1, draw.2)
  match s.next 0 search.1 with
  | none => some insert
  | some y =>
    if s.key y = entry.key then
      if entry.seq ≤ (s.nodes y).entry.seq then none
      else some (s.assign y entry, rnd)
    else some insert

def walk (s : SkipList) : Nat → Option NodeID → List TableEntry
  | 0, _ => []
  | _, none => []
  | fuel + 1, some x => (s.nodes x).entry :: s.walk fuel (s.next 0 x)

def entries (s : SkipList) : List TableEntry := s.walk s.size (s.next 0 head)

/-! ### The shape of a list -/

/-- The nodes in key order are `order`, and level `i` links those taller than `i`. -/
structure Ordered (s : SkipList) (order : List NodeID) : Prop where
  size : s.size = order.length + 1
  nodup : (head :: order).Nodup
  made : ∀ x ∈ order, x < s.size
  sorted : order.Pairwise fun x y => s.key x < s.key y
  tall : ∀ x ∈ order, 1 ≤ s.height x ∧ s.height x ≤ s.level
  headHeight : s.height head = maxHeight
  level : s.level ≤ maxHeight
  linked : ∀ i, Follows (s.next i) head (order.filter fun x => i < s.height x)

def before (s : SkipList) (order : List NodeID) (i : Nat) (key : Bytes) : List NodeID :=
  (order.filter fun x => i < s.height x).filter fun x => s.key x < key

def after (s : SkipList) (order : List NodeID) (i : Nat) (key : Bytes) : List NodeID :=
  (order.filter fun x => i < s.height x).filter fun x => ¬s.key x < key

theorem filter_append_filter {α : Type} {f : α → Bytes} {l : List α}
    (h : l.Pairwise fun x y => f x < f y) (key : Bytes) :
    l.filter (fun x => f x < key) ++ l.filter (fun x => ¬f x < key) = l := by
  induction l with
  | nil => rfl
  | cons x l ih =>
    obtain ⟨hx, hl⟩ := List.pairwise_cons.1 h
    by_cases hlt : f x < key
    · rw [List.filter_cons_of_pos (by simpa using hlt), List.filter_cons_of_neg (by simpa using hlt),
        List.cons_append, ih hl]
    · have hnone : l.filter (fun x => f x < key) = [] := by
        rw [List.filter_eq_nil_iff]
        intro y hy hkey
        exact hlt ((hx y hy).trans (of_decide_eq_true hkey))
      have hall : l.filter (fun x => ¬f x < key) = l := by
        rw [hnone, List.nil_append] at ih
        exact ih hl
      rw [List.filter_cons_of_neg (by simpa using hlt), List.filter_cons_of_pos (by simpa using hlt),
        hnone, hall]
      rfl

variable {s : SkipList} {order : List NodeID} {k : Bytes}

theorem ordered_newSkipList : newSkipList.Ordered [] where
  size := rfl
  nodup := by simp
  made := by simp
  sorted := List.Pairwise.nil
  tall := by simp
  headHeight := by simp [height, newSkipList]
  level := by decide
  linked i := by simp [Follows, next, newSkipList]

theorem Ordered.before_append_after (h : s.Ordered order) (i : Nat) (k : Bytes) :
    s.before order i k ++ s.after order i k = order.filter fun x => i < s.height x :=
  filter_append_filter (h.sorted.filter _) k

theorem Ordered.linked_split (h : s.Ordered order) (i : Nat) (k : Bytes) :
    Follows (s.next i) head (s.before order i k ++ s.after order i k) := by
  rw [h.before_append_after]
  exact h.linked i

variable {i : Nat} {x : NodeID} {l : List TableEntry} {e d : TableEntry}

theorem key_lt_of_mem_before (hx : x ∈ s.before order i k) : s.key x < k := by
  simpa using (List.mem_filter.1 hx).2

theorem not_lt_of_mem_after (hx : x ∈ s.after order i k) :
    ¬s.key x < k := by
  simpa using (List.mem_filter.1 hx).2

theorem Ordered.length_before (h : s.Ordered order) (i : Nat) (k : Bytes) :
    (s.before order i k).length ≤ s.size := by
  have h1 := List.length_filter_le (fun x => decide (s.key x < k))
    (order.filter fun x => i < s.height x)
  have h2 := List.length_filter_le (fun x => decide (i < s.height x)) order
  have h3 := h.size
  rw [before]
  omega

theorem advance_eq {fuel : Nat} {as bs : List NodeID}
    (h : Follows (s.next i) x (as ++ bs)) (has : ∀ y ∈ as, s.key y < k)
    (hbs : ∀ y ∈ bs, ¬s.key y < k) (hfuel : as.length ≤ fuel) :
    s.advance k i fuel x = as.getLastD x := by
  induction as generalizing x fuel with
  | nil =>
    cases fuel with
    | zero => rfl
    | succ fuel =>
      have hnext := h.next_eq
      rw [advance, hnext]
      cases bs with
      | nil => rfl
      | cons b bs => exact if_neg (hbs b List.mem_cons_self)
  | cons a as ih =>
    cases fuel with
    | zero => cases hfuel
    | succ fuel =>
      rw [advance, h.1, List.getLastD_cons]
      dsimp only
      rw [if_pos (has a List.mem_cons_self)]
      exact ih h.2 (fun y hy => has y (List.mem_cons_of_mem _ hy)) (Nat.le_of_succ_le_succ hfuel)

theorem Ordered.advance_getLastD (h : s.Ordered order) (i : Nat) :
    s.advance k i s.size ((s.before order (i + 1) k).getLastD head) =
      (s.before order i k).getLastD head := by
  have hsub : ∀ x ∈ s.before order (i + 1) k, x ∈ s.before order i k := by
    intro x hx
    simp only [before, List.mem_filter, decide_eq_true_eq] at hx ⊢
    exact ⟨⟨hx.1.1, by omega⟩, hx.2⟩
  have hlinked := h.linked_split i k
  have hlen := h.length_before i k
  have hbefore : ∀ y ∈ s.before order i k, s.key y < k := fun y hy => key_lt_of_mem_before hy
  have hafter : ∀ y ∈ s.after order i k, ¬s.key y < k := fun y hy => not_lt_of_mem_after hy
  rcases List.mem_cons.1 (getLastD_mem head (s.before order (i + 1) k)) with heq | hmem
  · rw [heq]
    exact advance_eq hlinked hbefore hafter hlen
  · -- the node where the level above was left stands on this level, too
    generalize (s.before order (i + 1) k).getLastD head = x at hmem ⊢
    obtain ⟨pre, post, hsplit⟩ := List.append_of_mem (hsub x hmem)
    rw [hsplit] at hlinked hlen hbefore ⊢
    have hdrop : Follows (s.next i) x (post ++ s.after order i k) := by
      have hassoc : pre ++ x :: post ++ s.after order i k =
          (pre ++ [x]) ++ (post ++ s.after order i k) := by simp
      rw [hassoc] at hlinked
      have := hlinked.drop
      rwa [List.getLastD_concat] at this
    rw [advance_eq hdrop (fun y hy => hbefore y (by simp [hy])) hafter (by simp at hlen; omega)]
    rw [getLastD_append_cons]

theorem Ordered.before_eq_nil (h : s.Ordered order) {i : Nat} (hi : s.level ≤ i) (k : Bytes) :
    s.before order i k = [] := by
  have hnone : (order.filter fun x => i < s.height x) = [] := List.filter_eq_nil_iff.2 ?_
  · rw [before, hnone]
    rfl
  intro x hx htall
  have := (h.tall x hx).2
  have := of_decide_eq_true htall
  omega

theorem Ordered.predecessors_eq (h : s.Ordered order) (i : Nat) (update : Nat → NodeID) :
    s.predecessors k i ((s.before order i k).getLastD head) update =
      ((s.before order 0 k).getLastD head,
        fun j => if j < i then (s.before order j k).getLastD head else update j) := by
  induction i generalizing update with
  | zero => simp [predecessors]
  | succ i ih =>
    rw [predecessors, h.advance_getLastD, ih]
    congr 1
    funext j
    by_cases hj : j < i
    · rw [if_pos hj, if_pos (by omega)]
    · rw [if_neg hj, Function.update_apply]
      by_cases heq : j = i
      · rw [if_pos heq, if_pos (by omega), heq]
      · rw [if_neg heq, if_neg (by omega)]

theorem Ordered.search_eq (h : s.Ordered order) (k : Bytes) :
    s.predecessors k s.level head (fun _ => head) =
      ((s.before order 0 k).getLastD head, fun j => (s.before order j k).getLastD head) := by
  have hstart := h.before_eq_nil le_rfl k
  have hsearch := h.predecessors_eq (k := k) s.level fun _ => head
  rw [hstart] at hsearch
  refine hsearch.trans ?_
  congr 1
  funext j
  split
  · rfl
  · rw [h.before_eq_nil (by omega) k]
    rfl

theorem Ordered.filter_zero (h : s.Ordered order) :
    (order.filter fun x => 0 < s.height x) = order := by
  rw [List.filter_eq_self]
  intro x hx
  have := (h.tall x hx).1
  exact decide_eq_true (by omega)

theorem Ordered.next_search (h : s.Ordered order) (k : Bytes) :
    s.next 0 ((s.before order 0 k).getLastD head) =
      (order.filter fun x => ¬s.key x < k).head? := by
  rw [(h.linked_split 0 k).drop.next_eq, after, h.filter_zero]

def content (s : SkipList) (order : List NodeID) : List TableEntry :=
  order.map fun x => (s.nodes x).entry

theorem walk_eq {fuel : Nat} {l : List NodeID} (h : Follows (s.next 0) x l)
    (hfuel : l.length ≤ fuel) : s.walk fuel (s.next 0 x) = s.content l := by
  induction l generalizing x fuel with
  | nil =>
    rw [h.next_eq]
    cases fuel <;> rfl
  | cons y l ih =>
    rw [h.1]
    cases fuel with
    | zero => cases hfuel
    | succ fuel =>
      rw [walk, ih h.2 (Nat.le_of_succ_le_succ hfuel)]
      rfl

theorem Ordered.entries_eq (h : s.Ordered order) : s.entries = s.content order := by
  have hlinked := h.linked 0
  rw [h.filter_zero] at hlinked
  exact walk_eq hlinked (by have := h.size; omega)

theorem Ordered.sorted_content (h : s.Ordered order) :
    (s.content order).Pairwise fun a b => a.key < b.key :=
  List.pairwise_map.2 h.sorted

theorem find?_eq_some_of_sorted (h : l.Pairwise fun a b => a.key < b.key)
    {e : TableEntry} (k : Bytes) :
    (l.find? fun d => d.key = k) = some e ↔ e ∈ l ∧ e.key = k := by
  constructor
  · intro hfind
    exact ⟨List.mem_of_find?_eq_some hfind, by simpa using List.find?_some hfind⟩
  · rintro ⟨he, hkey⟩
    cases hfind : l.find? fun d => d.key = k with
    | none => exact absurd (decide_eq_true hkey) (List.find?_eq_none.1 hfind e he)
    | some d =>
      have hd := List.mem_of_find?_eq_some hfind
      have hdkey : d.key = k := by simpa using List.find?_some hfind
      have hnodup : (l.map TableEntry.key).Nodup := List.pairwise_map.2 (h.imp fun hlt => hlt.ne)
      rw [List.inj_on_of_nodup_map hnodup hd he (hdkey.trans hkey.symm)]

theorem find?_eq_of_sorted (h : l.Pairwise fun a b => a.key < b.key)
    (k : Bytes) : (l.find? fun e => e.key = k) =
      ((l.filter fun e => ¬e.key < k).head?).filter fun e => e.key = k := by
  ext e
  rw [find?_eq_some_of_sorted h, Option.filter_eq_some_iff, decide_eq_true_eq]
  refine and_congr_left fun hkey => ⟨fun he => ?_, fun he => ?_⟩
  · have hmem : e ∈ l.filter fun e => ¬e.key < k := List.mem_filter.2 ⟨he, by simp [hkey]⟩
    cases hfirst : l.filter fun e => ¬e.key < k with
    | nil => exact absurd (hfirst ▸ hmem) List.not_mem_nil
    | cons d rest =>
      have hd := List.mem_filter.1 (hfirst ▸ List.mem_cons_self : d ∈ l.filter fun e => ¬e.key < k)
      rcases List.mem_cons.1 (hfirst ▸ hmem) with rfl | hrest
      · rfl
      · have hlt := List.rel_of_pairwise_cons (hfirst ▸ h.filter _) hrest
        exact absurd (hkey ▸ hlt) (by simpa using hd.2)
  · exact (List.mem_filter.1 (List.mem_of_head? he)).1

theorem Ordered.get_eq (h : s.Ordered order) (k : Bytes) :
    s.get k = s.entries.find? fun e => e.key = k := by
  rw [get, h.search_eq]
  dsimp only
  rw [h.next_search, h.entries_eq, find?_eq_of_sorted h.sorted_content, content, List.filter_map,
    List.head?_map]
  have hcomp : (fun e : TableEntry => decide ¬e.key < k) ∘ (fun x => (s.nodes x).entry) =
      fun x => decide ¬s.key x < k := rfl
  rw [hcomp]
  cases (order.filter fun x => ¬s.key x < k).head? with
  | none => rfl
  | some y =>
    show (if s.key y = k then _ else _) = _
    simp only [Option.map_some, Option.filter, decide_eq_true_eq]
    rfl

/-! ### Writing -/

theorem nodes_setForward (nodes : NodeID → SkipNode) (x y : NodeID) (i : Nat)
    (v : Option NodeID) :
    (setForward nodes x i v y).entry = (nodes y).entry ∧
      (setForward nodes x i v y).forward.length = (nodes y).forward.length := by
  rw [setForward, Function.update_apply]
  split
  · rename_i heq
    rw [heq]
    exact ⟨rfl, List.length_set⟩
  · exact ⟨rfl, rfl⟩

theorem getD_setForward {nodes : NodeID → SkipNode}
    (hi : i < (nodes x).forward.length) (v : Option NodeID) (y : NodeID) (j : Nat) :
    (setForward nodes x i v y).forward.getD j none =
      if y = x ∧ j = i then v else (nodes y).forward.getD j none := by
  rw [setForward, Function.update_apply]
  by_cases hy : y = x
  · subst hy
    simp only [if_true, true_and]
    rw [List.getD_eq_getElem?_getD, List.getD_eq_getElem?_getD, List.getElem?_set]
    by_cases hj : j = i
    · subst hj
      simp [hi]
    · rw [if_neg (Ne.symm hj), if_neg hj]
  · rw [if_neg hy, if_neg (fun h => hy h.1)]

theorem nodes_link (id : NodeID) (update : Nat → NodeID) (n : Nat) (nodes : NodeID → SkipNode)
    (y : NodeID) :
    (link id update n nodes y).entry = (nodes y).entry ∧
      (link id update n nodes y).forward.length = (nodes y).forward.length := by
  induction n with
  | zero => exact ⟨rfl, rfl⟩
  | succ n ih =>
    rw [link]
    obtain ⟨he1, hl1⟩ := nodes_setForward (setForward (link id update n nodes) id n
      ((link id update n nodes (update n)).forward.getD n none)) (update n) y n (some id)
    obtain ⟨he2, hl2⟩ := nodes_setForward (link id update n nodes) id y n
      ((link id update n nodes (update n)).forward.getD n none)
    exact ⟨he1.trans (he2.trans ih.1), hl1.trans (hl2.trans ih.2)⟩

theorem getD_link (id : NodeID) (update : Nat → NodeID) (n : Nat) (nodes : NodeID → SkipNode)
    (hid : n ≤ (nodes id).forward.length) (hupdate : ∀ j < n, j < (nodes (update j)).forward.length)
    (hne : ∀ j < n, update j ≠ id) (y : NodeID) (j : Nat) :
    (link id update n nodes y).forward.getD j none =
      if j < n then
        if y = update j then some id
        else if y = id then (nodes (update j)).forward.getD j none
        else (nodes y).forward.getD j none
      else (nodes y).forward.getD j none := by
  induction n generalizing y j with
  | zero => simp [link]
  | succ n ih =>
    have ih' := fun y j => ih (by omega) (fun j hj => hupdate j (by omega))
      (fun j hj => hne j (by omega)) y j
    have hlen := fun y => (nodes_link id update n nodes y).2
    rw [link]
    rw [getD_setForward, getD_setForward, ih', ih']
    · have hne' := hne n (Nat.lt_succ_self n)
      by_cases hj : j = n
      · subst hj
        simp only [lt_irrefl, if_false, Nat.lt_succ_self, if_true, and_true]
      · have hiff : j < n + 1 ↔ j < n := by omega
        simp only [hj, and_false, if_false, hiff]
    · rw [hlen]
      omega
    · rw [(nodes_setForward ..).2, hlen]
      exact hupdate n (Nat.lt_succ_self n)

section Insert

variable {e : TableEntry} {n : Nat}

def lastBefore (s : SkipList) (order : List NodeID) (k : Bytes) (i : Nat) : NodeID :=
  (s.before order i k).getLastD head

theorem Ordered.mem_lt (h : s.Ordered order) {x : NodeID} (hx : x ∈ head :: order) : x < s.size := by
  rcases List.mem_cons.1 hx with rfl | hx
  · rw [h.size]
    exact Nat.succ_pos _
  · exact h.made x hx

theorem mem_of_mem_before {i : Nat} {x : NodeID} (hx : x ∈ s.before order i k) :
    x ∈ order ∧ i < s.height x := by
  simp only [before, List.mem_filter, decide_eq_true_eq] at hx
  exact hx.1

theorem Ordered.lastBefore_lt (h : s.Ordered order) (i : Nat) : s.lastBefore order k i < s.size := by
  refine h.mem_lt ?_
  rcases List.mem_cons.1 (getLastD_mem head (s.before order i k)) with heq | hmem
  · rw [lastBefore, heq]
    exact List.mem_cons_self
  · exact List.mem_cons_of_mem _ (mem_of_mem_before hmem).1

theorem Ordered.lt_height_lastBefore (h : s.Ordered order) {i : Nat} (hi : i < maxHeight) :
    i < s.height (s.lastBefore order k i) := by
  rcases List.mem_cons.1 (getLastD_mem head (s.before order i k)) with heq | hmem
  · rw [lastBefore, heq, h.headHeight]
    exact hi
  · exact (mem_of_mem_before hmem).2

theorem entry_insert (update : Nat → NodeID) (x : NodeID) :
    ((s.insert e update n).nodes x).entry = if x = s.size then e else (s.nodes x).entry := by
  refine (nodes_link ..).1.trans ?_
  rw [Function.update_apply]
  split <;> rfl

theorem height_insert (update : Nat → NodeID) (x : NodeID) :
    (s.insert e update n).height x = if x = s.size then n else s.height x := by
  refine (nodes_link ..).2.trans ?_
  rw [Function.update_apply]
  split
  · simp
  · rfl

theorem Ordered.next_insert (h : s.Ordered order) (hn : n ≤ maxHeight) (i : Nat) (x : NodeID) :
    (s.insert e (s.lastBefore order k) n).next i x =
      if i < n then
        if x = s.lastBefore order k i then some s.size
        else if x = s.size then s.next i (s.lastBefore order k i)
        else s.next i x
      else if x = s.size then none else s.next i x := by
  have hne : ∀ j, s.lastBefore order k j ≠ s.size := fun j => (h.lastBefore_lt j).ne
  have hlink := getD_link s.size (s.lastBefore order k) n
    (Function.update s.nodes s.size ⟨e, List.replicate n none⟩) (by simp)
    (fun j hj => by
      rw [Function.update_of_ne (hne j)]
      exact h.lt_height_lastBefore (by omega))
    (fun j _ => hne j) x i
  refine hlink.trans ?_
  rw [Function.update_of_ne (hne i), Function.update_apply]
  by_cases hx : x = s.size
  · simp only [hx, if_true]
    split
    · rfl
    · simp
  · simp only [hx, if_false]
    rfl

def inserted (s : SkipList) (order : List NodeID) (k : Bytes) : List NodeID :=
  (order.filter fun x => s.key x < k) ++ s.size :: order.filter fun x => ¬s.key x < k

theorem Ordered.perm_inserted (h : s.Ordered order) : (s.inserted order k).Perm (s.size :: order) := by
  rw [inserted]
  refine List.perm_middle.trans (List.Perm.cons _ ?_)
  rw [filter_append_filter h.sorted]

theorem Ordered.filter_inserted (h : s.Ordered order) (i : Nat) :
    (s.inserted order k).filter
        (fun x => i < (s.insert e (s.lastBefore order k) n).height x) =
      if i < n then s.before order i k ++ s.size :: s.after order i k
      else s.before order i k ++ s.after order i k := by
  have hold : ∀ l : List NodeID, l.Sublist order →
      l.filter (fun x => i < (s.insert e (s.lastBefore order k) n).height x) =
        l.filter fun x => i < s.height x := by
    intro l hl
    refine List.filter_congr fun x hx => ?_
    rw [height_insert, if_neg (h.made x (hl.subset hx)).ne]
  rw [inserted, List.filter_append, hold _ List.filter_sublist, List.filter_cons,
    hold _ List.filter_sublist, height_insert, if_pos rfl, List.filter_comm, before, after,
    List.filter_comm (fun x => decide (i < s.height x))]
  by_cases hi : i < n <;> simp [hi]

theorem Ordered.insert (h : s.Ordered order) (hnew : ∀ x ∈ order, s.key x ≠ e.key) (hpos : 1 ≤ n)
    (hn : n ≤ maxHeight) :
    (s.insert e (s.lastBefore order e.key) n).Ordered (s.inserted order e.key) := by
  have hperm := h.perm_inserted (k := e.key)
  have hfresh : s.size ∉ head :: order := fun hmem => (h.mem_lt hmem).false
  have hkey : ∀ x ∈ order, (s.insert e (s.lastBefore order e.key) n).key x = s.key x := by
    intro x hx
    rw [key, entry_insert, if_neg (h.made x hx).ne]
    rfl
  have hkeyNew : (s.insert e (s.lastBefore order e.key) n).key s.size = e.key := by
    rw [key, entry_insert, if_pos rfl]
  refine ⟨?_, ?_, ?_, ?_, ?_, ?_, ?_, ?_⟩
  · show s.size + 1 = _
    rw [hperm.length_eq, List.length_cons, h.size]
  · rw [(hperm.cons head).nodup_iff, (List.Perm.swap _ _ _).nodup_iff]
    exact List.nodup_cons.2 ⟨hfresh, h.nodup⟩
  · intro x hx
    show x < s.size + 1
    rcases List.mem_cons.1 (hperm.mem_iff.1 hx) with rfl | hx
    · exact Nat.lt_succ_self _
    · exact (h.made x hx).trans (Nat.lt_succ_self _)
  · rw [inserted, List.pairwise_append, List.pairwise_cons]
    have hsub : ∀ {l : List NodeID}, l.Sublist order →
        l.Pairwise fun x y => (s.insert e (s.lastBefore order e.key) n).key x <
          (s.insert e (s.lastBefore order e.key) n).key y := by
      intro l hl
      refine (h.sorted.sublist hl).imp_of_mem fun hx hy hlt => ?_
      rw [hkey _ (hl.subset hx), hkey _ (hl.subset hy)]
      exact hlt
    have hlarge : ∀ x ∈ order.filter fun x => ¬s.key x < e.key, x ∈ order ∧ e.key < s.key x := by
      intro x hx
      obtain ⟨hmem, hle⟩ := List.mem_filter.1 hx
      exact ⟨hmem, lt_of_le_of_ne (not_lt.1 (of_decide_eq_true hle)) (hnew x hmem).symm⟩
    have hsmall : ∀ x ∈ order.filter fun x => s.key x < e.key, x ∈ order ∧ s.key x < e.key := by
      intro x hx
      exact ⟨(List.mem_filter.1 hx).1, of_decide_eq_true (List.mem_filter.1 hx).2⟩
    refine ⟨hsub List.filter_sublist, ⟨?_, hsub List.filter_sublist⟩, ?_⟩
    · intro x hx
      rw [hkeyNew, hkey x (hlarge x hx).1]
      exact (hlarge x hx).2
    · intro x hx y hy
      obtain ⟨hxo, hxlt⟩ := hsmall x hx
      rw [hkey x hxo]
      rcases List.mem_cons.1 hy with rfl | hy
      · rw [hkeyNew]
        exact hxlt
      · rw [hkey y (hlarge y hy).1]
        exact hxlt.trans (hlarge y hy).2
  · intro x hx
    rw [height_insert]
    show _ ∧ _ ≤ max s.level n
    rcases List.mem_cons.1 (hperm.mem_iff.1 hx) with rfl | hx
    · rw [if_pos rfl]
      exact ⟨hpos, le_max_right _ _⟩
    · rw [if_neg (h.made x hx).ne]
      exact ⟨(h.tall x hx).1, (h.tall x hx).2.trans (le_max_left _ _)⟩
  · rw [height_insert, if_neg (h.mem_lt List.mem_cons_self).ne]
    exact h.headHeight
  · exact max_le h.level hn
  · intro i
    have hlinked := h.linked_split i e.key
    have hmem : ∀ x ∈ head :: (s.before order i e.key ++ s.after order i e.key),
        x ∈ head :: order := by
      intro x hx
      rw [h.before_append_after] at hx
      exact (List.filter_sublist.cons_cons head).subset hx
    rw [h.filter_inserted]
    split
    · next hi =>
      refine hlinked.splice ?_ (fun hx => hfresh (hmem _ hx)) fun y => ?_
      · rw [h.before_append_after]
        exact h.nodup.sublist (List.filter_sublist.cons_cons head)
      · rw [h.next_insert hn, if_pos hi]
        rfl
    · next hi =>
      refine hlinked.congr fun y hy => ?_
      rw [h.next_insert hn, if_neg hi, if_neg (h.mem_lt (hmem y hy)).ne]

end Insert

def upsert (e : TableEntry) (l : List TableEntry) : List TableEntry :=
  (l.filter fun d => d.key < e.key) ++ e :: l.filter fun d => e.key < d.key

theorem upsert_split {as ms bs : List TableEntry} (has : ∀ d ∈ as, d.key < e.key)
    (hms : ∀ d ∈ ms, d.key = e.key) (hbs : ∀ d ∈ bs, e.key < d.key) :
    upsert e (as ++ ms ++ bs) = as ++ e :: bs := by
  have hleft : (as ++ ms ++ bs).filter (fun d => d.key < e.key) = as := by
    rw [List.filter_append, List.filter_append, List.filter_eq_self.2, List.filter_eq_nil_iff.2,
      List.filter_eq_nil_iff.2, List.append_nil, List.append_nil]
    · intro d hd hlt
      exact ((hbs d hd).trans (of_decide_eq_true hlt)).false
    · intro d hd hlt
      exact (of_decide_eq_true hlt).ne (hms d hd)
    · intro d hd
      exact decide_eq_true (has d hd)
  have hright : (as ++ ms ++ bs).filter (fun d => e.key < d.key) = bs := by
    rw [List.filter_append, List.filter_append, List.filter_eq_nil_iff.2, List.filter_eq_nil_iff.2,
      List.filter_eq_self.2, List.nil_append, List.nil_append]
    · intro d hd
      exact decide_eq_true (hbs d hd)
    · intro d hd hlt
      exact (of_decide_eq_true hlt).ne' (hms d hd)
    · intro d hd hlt
      exact ((has d hd).trans (of_decide_eq_true hlt)).false
  rw [upsert, hleft, hright]

theorem Ordered.split (h : s.Ordered order) (k : Bytes) :
    order = (order.filter fun x => s.key x < k) ++ order.filter fun x => ¬s.key x < k :=
  (filter_append_filter h.sorted k).symm

theorem entry_assign {y : NodeID} (hkey : s.key y = e.key) (x : NodeID) :
    ((s.assign y e).nodes x).entry = if x = y then e else (s.nodes x).entry := by
  rw [assign]
  simp only [Function.update_apply]
  split
  · rw [hkey]
  · rfl

theorem forward_assign (e : TableEntry) (x y : NodeID) :
    ((s.assign y e).nodes x).forward = (s.nodes x).forward := by
  rw [assign]
  simp only [Function.update_apply]
  split
  · rename_i heq
    rw [heq]
  · rfl

theorem Ordered.assign (h : s.Ordered order) {e : TableEntry} {y : NodeID}
    (hkey : s.key y = e.key) : (s.assign y e).Ordered order := by
  have hkeys : ∀ x, (s.assign y e).key x = s.key x := by
    intro x
    rw [key, entry_assign hkey]
    split
    · rename_i heq
      rw [heq, hkey]
    · rfl
  refine ⟨h.size, h.nodup, h.made, ?_, ?_, ?_, h.level, ?_⟩
  · simp only [hkeys]
    exact h.sorted
  · simp only [height, forward_assign]
    exact h.tall
  · simp only [height, forward_assign]
    exact h.headHeight
  · intro i
    simp only [height, forward_assign]
    exact (h.linked i).congr fun x _ => congrArg (List.getD · i none) (forward_assign e x y)

theorem content_append (s : SkipList) (as bs : List NodeID) :
    s.content (as ++ bs) = s.content as ++ s.content bs :=
  List.map_append

theorem content_congr {s' : SkipList} {l : List NodeID}
    (h : ∀ x ∈ l, (s'.nodes x).entry = (s.nodes x).entry) : s'.content l = s.content l :=
  List.map_congr_left h

theorem Ordered.content_insert (h : s.Ordered order) {e : TableEntry} (n : Nat)
    (hnew : ∀ x ∈ order, s.key x ≠ e.key) :
    (s.insert e (s.lastBefore order e.key) n).content (s.inserted order e.key) =
      upsert e (s.content order) := by
  have hold : ∀ l : List NodeID, l.Sublist order →
      (s.insert e (s.lastBefore order e.key) n).content l = s.content l := by
    intro l hl
    refine content_congr fun x hx => ?_
    rw [entry_insert, if_neg (h.made x (hl.subset hx)).ne]
  have hsplit : s.content order = s.content (order.filter fun x => s.key x < e.key) ++ [] ++
      s.content (order.filter fun x => ¬s.key x < e.key) := by
    rw [List.append_nil, ← content_append, ← h.split]
  rw [hsplit, upsert_split, inserted, content_append, hold _ List.filter_sublist]
  · congr 1
    rw [content, List.map_cons, entry_insert, if_pos rfl]
    exact congrArg _ (hold _ List.filter_sublist)
  · intro d hd
    obtain ⟨x, hx, rfl⟩ := List.mem_map.1 hd
    exact of_decide_eq_true (List.mem_filter.1 hx).2
  · simp
  · intro d hd
    obtain ⟨x, hx, rfl⟩ := List.mem_map.1 hd
    obtain ⟨hmem, hle⟩ := List.mem_filter.1 hx
    exact lt_of_le_of_ne (not_lt.1 (of_decide_eq_true hle)) (hnew x hmem).symm

theorem Ordered.content_assign (h : s.Ordered order) {e : TableEntry} {y : NodeID}
    (hfirst : (order.filter fun x => ¬s.key x < e.key).head? = some y) (hkey : s.key y = e.key) :
    (s.assign y e).content order = upsert e (s.content order) := by
  obtain ⟨rest, hrest⟩ : ∃ rest, (order.filter fun x => ¬s.key x < e.key) = y :: rest :=
    List.head?_eq_some_iff.1 hfirst
  have hsplit := h.split e.key
  rw [hrest] at hsplit
  generalize hsmall : (order.filter fun x => s.key x < e.key) = small at hsplit
  have hlt : ∀ x ∈ small, s.key x < e.key := by
    intro x hx
    rw [← hsmall] at hx
    exact of_decide_eq_true (List.mem_filter.1 hx).2
  have hsorted := h.sorted
  rw [hsplit, List.pairwise_append, List.pairwise_cons] at hsorted
  have hgt : ∀ x ∈ rest, e.key < s.key x := fun x hx => hkey ▸ hsorted.2.1.1 x hx
  have hold : ∀ l : List NodeID, y ∉ l → (s.assign y e).content l = s.content l := by
    intro l hl
    refine content_congr fun x hx => ?_
    rw [entry_assign hkey, if_neg (ne_of_mem_of_not_mem hx hl)]
  have hcontent : s.content order =
      s.content small ++ [(s.nodes y).entry] ++ s.content rest := by
    rw [hsplit, content_append, List.append_assoc]
    rfl
  rw [hcontent, upsert_split, hsplit, content_append, hold small]
  · congr 1
    rw [content, List.map_cons, entry_assign hkey, if_pos rfl]
    exact congrArg _ (hold rest fun hy => (hgt y hy).ne' hkey)
  · intro hy
    exact (hlt y hy).ne hkey
  · intro d hd
    obtain ⟨x, hx, rfl⟩ := List.mem_map.1 hd
    exact hlt x hx
  · intro d hd
    rw [List.mem_singleton.1 hd]
    exact hkey
  · intro d hd
    obtain ⟨x, hx, rfl⟩ := List.mem_map.1 hd
    exact hgt x hx

theorem Ordered.put (h : s.Ordered order) (e : TableEntry) (rnd : Rand) :
    (s.put e rnd = none ∧ ∃ old, s.get e.key = some old ∧ e.seq ≤ old.seq) ∨
    ∃ s' rnd' order', s.put e rnd = some (s', rnd') ∧ s'.Ordered order' ∧
      s'.entries = upsert e s.entries ∧ ∀ old, s.get e.key = some old → old.seq < e.seq := by
  have hget : s.get e.key = (order.filter fun x => ¬s.key x < e.key).head?.bind fun y =>
      if s.key y = e.key then some (s.nodes y).entry else none := by
    rw [get, h.search_eq]
    dsimp only
    rw [h.next_search]
    cases (order.filter fun x => ¬s.key x < e.key).head? <;> rfl
  -- both ways to find no stored version lead here
  have hinsert : (∀ x ∈ order, s.key x ≠ e.key) →
      let draw := randomHeight rnd maxHeight towerInverseP
      ∃ order', SkipList.Ordered (s.insert e (s.lastBefore order e.key) draw.1) order' ∧
        (s.insert e (s.lastBefore order e.key) draw.1).entries = upsert e s.entries := by
    intro hnew
    obtain ⟨hpos, hmax⟩ := randomHeight_bounds rnd towerInverseP
    have hord := h.insert hnew hpos hmax
    exact ⟨_, hord, by rw [hord.entries_eq, h.content_insert _ hnew, h.entries_eq]⟩
  have hsplit := h.split e.key
  rw [SkipList.put, h.search_eq]
  dsimp only
  rw [h.next_search, hget]
  cases hhead : (order.filter fun x => ¬s.key x < e.key).head? with
  | none =>
    obtain ⟨order', hord, hentries⟩ := hinsert fun x hx heq => by
      have hnil : (order.filter fun x => ¬s.key x < e.key) = [] := List.head?_eq_none_iff.1 hhead
      exact List.filter_eq_nil_iff.1 hnil x hx (by simp [heq])
    exact .inr ⟨_, _, order', rfl, hord, hentries, by simp⟩
  | some y =>
    dsimp only [Option.bind_some]
    by_cases hkey : s.key y = e.key
    · simp only [hkey, if_true]
      by_cases hseq : e.seq ≤ (s.nodes y).entry.seq
      · rw [if_pos hseq]
        exact .inl ⟨rfl, _, rfl, hseq⟩
      · rw [if_neg hseq]
        have hord := h.assign hkey
        refine .inr ⟨_, _, order, rfl, hord, ?_, ?_⟩
        · rw [hord.entries_eq, h.content_assign hhead hkey, h.entries_eq]
        · intro old hold
          cases hold
          exact not_le.1 hseq
    · simp only [hkey, if_false]
      obtain ⟨order', hord, hentries⟩ := hinsert fun x hx heq => by
        obtain ⟨rest, hrest⟩ : ∃ rest, (order.filter fun x => ¬s.key x < e.key) = y :: rest :=
          List.head?_eq_some_iff.1 hhead
        have hmem : x ∈ order.filter fun x => ¬s.key x < e.key :=
          List.mem_filter.2 ⟨hx, by simp [heq]⟩
        have hy : ¬s.key y < e.key := of_decide_eq_true
          (List.mem_filter.1 (hrest ▸ List.mem_cons_self : y ∈ order.filter _)).2
        have hsorted := h.sorted.filter fun x => ¬s.key x < e.key
        rw [hrest] at hmem hsorted
        rcases List.mem_cons.1 hmem with rfl | hmem
        · exact hkey heq
        · exact hy (heq ▸ (List.pairwise_cons.1 hsorted).1 x hmem)
      exact .inr ⟨_, _, order', rfl, hord, hentries, by simp⟩

theorem mem_upsert :
    d ∈ upsert e l ↔ d = e ∨ d ∈ l ∧ d.key ≠ e.key := by
  simp only [upsert, List.mem_append, List.mem_cons, List.mem_filter, decide_eq_true_eq]
  constructor
  · rintro (⟨hd, hlt⟩ | heq | ⟨hd, hlt⟩)
    · exact .inr ⟨hd, hlt.ne⟩
    · exact .inl heq
    · exact .inr ⟨hd, hlt.ne'⟩
  · rintro (heq | ⟨hd, hne⟩)
    · exact .inr (.inl heq)
    · rcases lt_or_gt_of_ne hne with hlt | hgt
      · exact .inl ⟨hd, hlt⟩
      · exact .inr (.inr ⟨hd, hgt⟩)

/-! ### Sequences of writes -/

def putAll (l : List TableEntry) (start : SkipList × Rand) : SkipList × Rand :=
  l.foldl (fun s e => (s.1.put e s.2).getD s) start

def FirstNewest (l : List TableEntry) (e : TableEntry) : Prop :=
  ∃ before after, l = before ++ e :: after ∧ (∀ d ∈ before, d.key = e.key → d.seq < e.seq) ∧
    ∀ d ∈ after, d.key = e.key → d.seq ≤ e.seq

def upsertNewer (l : List TableEntry) (e : TableEntry) : List TableEntry :=
  if (l.find? fun d => d.key = e.key).any fun old => e.seq ≤ old.seq then l else upsert e l

theorem Ordered.getD_put (h : s.Ordered order) (e : TableEntry) (rnd : Rand) :
    ∃ order', ((s.put e rnd).getD (s, rnd)).1.Ordered order' ∧
      ((s.put e rnd).getD (s, rnd)).1.entries = upsertNewer s.entries e := by
  rcases h.put e rnd with ⟨hnone, old, hold, hle⟩ | ⟨s', rnd', order', hput, hord, hentries, hnew⟩
  · rw [h.get_eq] at hold
    refine ⟨order, ?_, ?_⟩
    · rw [hnone]
      exact h
    · rw [hnone, upsertNewer, hold, if_pos (by simpa using hle)]
      rfl
  · refine ⟨order', ?_, ?_⟩
    · rw [hput]
      exact hord
    · rw [hput, upsertNewer, if_neg]
      · exact hentries
      · rw [Option.any_eq_true]
        rintro ⟨old, hold, hle⟩
        rw [← h.get_eq] at hold
        exact absurd (hnew old hold) (not_lt.2 (of_decide_eq_true hle))

theorem Ordered.putAll (h : s.Ordered order) (l : List TableEntry) (rnd : Rand) :
    ∃ order', (SkipList.putAll l (s, rnd)).1.Ordered order' ∧
      (SkipList.putAll l (s, rnd)).1.entries = l.foldl upsertNewer s.entries := by
  induction l generalizing s order rnd with
  | nil => exact ⟨order, h, rfl⟩
  | cons e l ih =>
    obtain ⟨order', hord, hentries⟩ := h.getD_put e rnd
    obtain ⟨order'', hord', hrest⟩ := ih hord ((s.put e rnd).getD (s, rnd)).2
    exact ⟨order'', hord', hrest.trans (by rw [hentries, List.foldl_cons])⟩

theorem FirstNewest.snoc_newer (h : ∀ d ∈ l, d.key = e.key → d.seq < e.seq) : FirstNewest (l ++ [e]) e :=
  ⟨l, [], rfl, h, by simp⟩

theorem firstNewest_snoc :
    FirstNewest (l ++ [e]) d ↔
      FirstNewest l d ∧ (e.key = d.key → e.seq ≤ d.seq) ∨
        d = e ∧ ∀ c ∈ l, c.key = e.key → c.seq < e.seq := by
  constructor
  · rintro ⟨before, after, hl, hbefore, hafter⟩
    rcases List.eq_nil_or_concat' after with rfl | ⟨after, last, rfl⟩
    · obtain ⟨rfl, hde⟩ := List.append_inj' hl rfl
      cases hde
      exact .inr ⟨rfl, hbefore⟩
    · rw [← List.cons_append, ← List.append_assoc] at hl
      obtain ⟨rfl, hlast⟩ := List.append_inj' hl rfl
      cases hlast
      exact .inl ⟨⟨before, after, rfl, hbefore, fun c hc => hafter c (List.mem_append_left _ hc)⟩,
        hafter e (by simp)⟩
  · rintro (⟨⟨before, after, rfl, hbefore, hafter⟩, hle⟩ | ⟨rfl, hnew⟩)
    · refine ⟨before, after ++ [e], by simp, hbefore, fun c hc => ?_⟩
      rcases List.mem_append.1 hc with hc | hc
      · exact hafter c hc
      · rw [List.mem_singleton.1 hc]
        exact hle
    · exact .snoc_newer hnew

theorem Ordered.sorted_entries (h : s.Ordered order) :
    s.entries.Pairwise fun a b => a.key < b.key := by
  rw [h.entries_eq]
  exact h.sorted_content

def written (l : List TableEntry) : List TableEntry := l.foldl upsertNewer []

theorem sorted_written (l : List TableEntry) : (written l).Pairwise fun a b => a.key < b.key := by
  obtain ⟨order, hord, hentries⟩ := ordered_newSkipList.putAll l (Stream'.const 0)
  have hsorted := hord.sorted_entries
  rw [hentries, ordered_newSkipList.entries_eq] at hsorted
  exact hsorted

theorem FirstNewest.seq_le {c : TableEntry} (h : FirstNewest l e)
    (hc : c ∈ l) (hkey : c.key = e.key) : c.seq ≤ e.seq := by
  obtain ⟨before, after, rfl, hbefore, hafter⟩ := h
  rcases List.mem_append.1 hc with hc | hc
  · exact (hbefore c hc hkey).le
  · rcases List.mem_cons.1 hc with rfl | hc
    · exact le_rfl
    · exact hafter c hc hkey

theorem FirstNewest.mem (h : FirstNewest l e) : e ∈ l := by
  obtain ⟨before, after, rfl, -⟩ := h
  simp

theorem exists_firstNewest (hk : ∃ c ∈ l, c.key = k) :
    ∃ e, FirstNewest l e ∧ e.key = k := by
  induction l using List.reverseRecOn with
  | nil => simp at hk
  | append_singleton l e ih =>
    by_cases hold : ∃ d ∈ l, d.key = k
    · obtain ⟨w, hw, hwkey⟩ := ih hold
      by_cases hle : e.key = w.key → e.seq ≤ w.seq
      · exact ⟨w, firstNewest_snoc.2 (.inl ⟨hw, hle⟩), hwkey⟩
      · push Not at hle
        refine ⟨e, firstNewest_snoc.2 (.inr ⟨rfl, fun d hd hkey => ?_⟩), hle.1.trans hwkey⟩
        exact lt_of_le_of_lt (hw.seq_le hd (hkey.trans hle.1)) hle.2
    · push Not at hold
      obtain ⟨c, hc, hkey⟩ := hk
      rcases List.mem_append.1 hc with hc | hc
      · exact absurd hkey (hold c hc)
      · obtain rfl := List.mem_singleton.1 hc
        exact ⟨c, .snoc_newer fun d hd hdc => absurd (hdc.trans hkey) (hold d hd), hkey⟩

theorem mem_written : d ∈ written l ↔ FirstNewest l d := by
  induction l using List.reverseRecOn generalizing d with
  | nil =>
    constructor
    · exact fun h => absurd h List.not_mem_nil
    · exact fun h => absurd h.mem List.not_mem_nil
  | append_singleton l e ih =>
    have hstep : written (l ++ [e]) = upsertNewer (written l) e := by
      rw [written, List.foldl_append]
      rfl
    have hsorted := sorted_written l
    rw [hstep, firstNewest_snoc, upsertNewer]
    cases hfind : (written l).find? fun d => d.key = e.key with
    | none =>
      have hfresh : ∀ c ∈ l, c.key ≠ e.key := by
        intro c hc hkey
        obtain ⟨w, hw, hwkey⟩ := exists_firstNewest ⟨c, hc, hkey⟩
        exact List.find?_eq_none.1 hfind w (ih.2 hw) (decide_eq_true hwkey)
      rw [if_neg (by simp), mem_upsert, ih]
      constructor
      · rintro (rfl | ⟨hd, hne⟩)
        · exact .inr ⟨rfl, fun c hc hkey => absurd hkey (hfresh c hc)⟩
        · exact .inl ⟨hd, fun hkey => absurd hkey.symm hne⟩
      · rintro (⟨hd, -⟩ | ⟨rfl, -⟩)
        · exact .inr ⟨hd, hfresh d hd.mem⟩
        · exact .inl rfl
    | some old =>
      obtain ⟨hmem, hkey⟩ := (find?_eq_some_of_sorted hsorted e.key).1 hfind
      have hold := ih.1 hmem
      have hunique : ∀ c, FirstNewest l c → c.key = e.key → c = old := by
        intro c hc hckey
        have hfind' := (find?_eq_some_of_sorted hsorted e.key).2 ⟨ih.2 hc, hckey⟩
        exact Option.some.inj (hfind'.symm.trans hfind)
      by_cases hle : e.seq ≤ old.seq
      · rw [if_pos (by simpa using hle), ih]
        constructor
        · intro hd
          refine .inl ⟨hd, fun hdkey => ?_⟩
          rw [hunique d hd hdkey.symm]
          exact hle
        · rintro (⟨hd, -⟩ | ⟨-, hnew⟩)
          · exact hd
          · exact absurd (hnew old hold.mem hkey) (not_lt.2 hle)
      · rw [if_neg (by simpa using hle), mem_upsert, ih]
        constructor
        · rintro (rfl | ⟨hd, hne⟩)
          · refine .inr ⟨rfl, fun c hc hckey => ?_⟩
            exact lt_of_le_of_lt (hold.seq_le hc (hckey.trans hkey.symm)) (not_le.1 hle)
          · exact .inl ⟨hd, fun hdkey => absurd hdkey.symm hne⟩
        · rintro (⟨hd, hnewer⟩ | ⟨rfl, -⟩)
          · refine .inr ⟨hd, fun hdkey => hle ?_⟩
            rw [← hunique d hd hdkey]
            exact hnewer hdkey.symm
          · exact .inl rfl

/-- For every generator and every sequence of writes, a list is the ordered map that keeps the
first newest write of each key. -/
theorem skipList_refines_map (l : List TableEntry) (rnd : Rand) :
    let s := (putAll l (newSkipList, rnd)).1
    (∀ k e, s.get k = some e ↔ FirstNewest l e ∧ e.key = k) ∧
      (∀ k, s.get k = none ↔ ∀ d ∈ l, d.key ≠ k) ∧
      (∀ e rnd', (s.put e rnd').isSome ↔ ∀ old, s.get e.key = some old → old.seq < e.seq) ∧
      s.entries.Pairwise (fun a b => a.key < b.key) ∧
      (∀ e, e ∈ s.entries ↔ s.get e.key = some e) ∧
      ∀ rnd₂, let s₂ := (putAll l (newSkipList, rnd₂)).1
        s₂.entries = s.entries ∧ (∀ k, s₂.get k = s.get k) ∧
          ∀ e draw draw₂, (s₂.put e draw₂).isSome = (s.put e draw).isSome := by
  have hput {s : SkipList} {order : List NodeID} (h : s.Ordered order) (e : TableEntry)
      (draw : Rand) : (s.put e draw).isSome ↔ ∀ old, s.get e.key = some old → old.seq < e.seq := by
    rcases h.put e draw with ⟨hnone, old, hold, hle⟩ | ⟨s', rnd', order', hsome, -, -, hnew⟩
    · rw [hnone]
      constructor
      · exact fun hfalse => absurd hfalse (by simp)
      · exact fun hall => absurd (hall old hold) (not_lt.2 hle)
    · rw [hsome]
      exact ⟨fun _ => hnew, fun _ => rfl⟩
  have hrun (draws : Rand) : ∃ order, (putAll l (newSkipList, draws)).1.Ordered order ∧
      (putAll l (newSkipList, draws)).1.entries = written l := by
    obtain ⟨order, hord, hentries⟩ := ordered_newSkipList.putAll l draws
    exact ⟨order, hord, hentries.trans (by rw [ordered_newSkipList.entries_eq]; rfl)⟩
  obtain ⟨order, hord, hentries⟩ := hrun rnd
  have hget (k : Bytes) (e : TableEntry) : (putAll l (newSkipList, rnd)).1.get k = some e ↔
      FirstNewest l e ∧ e.key = k := by
    rw [hord.get_eq, hentries, find?_eq_some_of_sorted (sorted_written l), mem_written]
  refine ⟨hget, fun k => ?_, hput hord, hord.sorted_entries, fun e => ?_, fun rnd₂ => ?_⟩
  · rw [Option.eq_none_iff_forall_ne_some]
    constructor
    · intro hnone d hd hkey
      obtain ⟨e, he⟩ := exists_firstNewest ⟨d, hd, hkey⟩
      exact hnone e ((hget k e).2 he)
    · intro hall e hsome
      obtain ⟨he, hkey⟩ := (hget k e).1 hsome
      exact hall e he.mem hkey
  · rw [hget, hentries, mem_written]
    exact ⟨fun he => ⟨he, rfl⟩, And.left⟩
  · obtain ⟨order₂, hord₂, hentries₂⟩ := hrun rnd₂
    have hsame (k : Bytes) : (putAll l (newSkipList, rnd₂)).1.get k =
        (putAll l (newSkipList, rnd)).1.get k := by
      rw [hord₂.get_eq, hord.get_eq, hentries₂, hentries]
    refine ⟨hentries₂.trans hentries.symm, hsame, fun e draw draw₂ => ?_⟩
    rw [Bool.eq_iff_iff, hput hord, hput hord₂, hsame]

end SkipList

/-! ### Memtables -/

def Memtable := { s : SkipList // ∃ order, s.Ordered order }

namespace Memtable

def empty : Memtable := ⟨SkipList.newSkipList, [], SkipList.ordered_newSkipList⟩

def entries (m : Memtable) : List TableEntry := m.1.entries

def get (m : Memtable) (key : Bytes) : Option TableEntry := m.1.get key

def put (m : Memtable) (e : TableEntry) (rnd : Rand) : Option (Memtable × Rand) :=
  match h : m.1.put e rnd with
  | none => none
  | some r => some (⟨r.1, by
      obtain ⟨order, hord⟩ := m.2
      rcases hord.put e rnd with ⟨hnone, -⟩ | ⟨s', rnd', order', hput, hord', -⟩
      · rw [hnone] at h
        cases h
      · cases hput.symm.trans h
        exact ⟨order', hord'⟩⟩, r.2)

theorem entries_empty : empty.entries = [] := by
  rw [entries, empty, SkipList.ordered_newSkipList.entries_eq]
  rfl

theorem sorted (m : Memtable) : m.entries.Pairwise fun a b => a.key < b.key := by
  obtain ⟨order, hord⟩ := m.2
  rw [entries, hord.entries_eq]
  exact hord.sorted_content

theorem get_eq (m : Memtable) (key : Bytes) : m.get key = m.entries.find? fun e => e.key = key := by
  obtain ⟨order, hord⟩ := m.2
  exact hord.get_eq key

theorem get_eq_some {m : Memtable} {key : Bytes} {e : TableEntry} :
    m.get key = some e ↔ e ∈ m.entries ∧ e.key = key := by
  rw [get_eq, SkipList.find?_eq_some_of_sorted m.sorted]

theorem perm_upsert (m : Memtable) (e : TableEntry) :
    ∃ rest, m.entries.Perm ((m.get e.key).toList ++ rest) ∧
      (SkipList.upsert e m.entries).Perm (e :: rest) := by
  cases hget : m.get e.key with
  | none =>
    rw [get_eq, List.find?_eq_none] at hget
    have hne (d : TableEntry) (hd : d ∈ m.entries) : d.key ≠ e.key := by
      simpa using hget d hd
    refine ⟨m.entries, .refl _, List.perm_middle.trans (List.Perm.cons e ?_)⟩
    refine .trans (.of_eq ?_) (List.filter_append_perm (fun d => d.key < e.key) m.entries)
    congr 1
    refine List.filter_congr fun d hd => ?_
    rw [← decide_not, decide_eq_decide, not_lt]
    exact ⟨le_of_lt, fun hle => lt_of_le_of_ne hle (hne d hd).symm⟩
  | some old =>
    obtain ⟨hold, hkey⟩ := get_eq_some.1 hget
    obtain ⟨as, bs, hsplit⟩ := List.append_of_mem hold
    have hsorted := m.sorted
    rw [hsplit] at hsorted ⊢
    obtain ⟨-, hbs, has⟩ := List.pairwise_append.1 hsorted
    have hupsert : SkipList.upsert e (as ++ [old] ++ bs) = as ++ e :: bs :=
      SkipList.upsert_split (fun d hd => hkey ▸ has d hd old List.mem_cons_self)
        (by simpa using hkey) (fun d hd => hkey ▸ List.rel_of_pairwise_cons hbs hd)
    rw [List.append_assoc, List.singleton_append] at hupsert
    exact ⟨as ++ bs, List.perm_middle, hupsert ▸ List.perm_middle⟩

theorem length_upsert (m : Memtable) (e : TableEntry) :
    (SkipList.upsert e m.entries).length =
      if (m.get e.key).isSome then m.entries.length else m.entries.length + 1 := by
  obtain ⟨rest, hold, hnew⟩ := m.perm_upsert e
  rw [hold.length_eq, hnew.length_eq]
  cases m.get e.key with
  | none => simp
  | some old => simp

theorem put_spec (m : Memtable) (e : TableEntry) (rnd : Rand) :
    (m.put e rnd = none ∧ ∃ old, m.get e.key = some old ∧ e.seq ≤ old.seq) ∨
    ∃ m' rnd', m.put e rnd = some (m', rnd') ∧ m'.entries = SkipList.upsert e m.entries ∧
      ∀ old, m.get e.key = some old → old.seq < e.seq := by
  obtain ⟨order, hord⟩ := m.2
  rw [put]
  rcases hord.put e rnd with ⟨hnone, hold⟩ | ⟨s', rnd', order', hput, hord', hentries, hnew⟩
  · refine .inl ⟨?_, hold⟩
    split
    · rfl
    · rename_i r hr
      rw [hnone] at hr
      cases hr
  · split
    · rename_i hr
      rw [hput] at hr
      cases hr
    · rename_i r hr
      cases hput.symm.trans hr
      exact .inr ⟨_, _, rfl, hentries, hnew⟩

end Memtable

end MiniQuorum.Lsm
