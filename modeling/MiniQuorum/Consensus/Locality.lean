import Mathlib.Data.List.Dedup
import Mathlib.Data.List.Pairwise
import Mathlib.Data.List.Sort
import Mathlib.Order.Nat
import MiniQuorum.Consensus.Linearizability

/-! Locality of linearizability: a history of operations on independent objects can be
linearized exactly when the part of each object can be.  The orders of the parts are merged
by linearization points, one for each operation, that lie between its call and its return. -/

namespace MiniQuorum.Consensus

/-! ### Merging orders -/

section Merge

variable {α K T : Type*} [LinearOrder T] {call ret : α → T}

def RespectsTime (call ret : α → T) (order : List α) : Prop :=
  order.Pairwise fun a b => call a ≤ ret b

def withPoints (call : α → T) : T → List α → List (T × α)
  | _, [] => []
  | t, a :: order => (max t (call a), a) :: withPoints call (max t (call a)) order

theorem map_snd_withPoints (call : α → T) (t : T) (order : List α) :
    (withPoints call t order).map Prod.snd = order := by
  induction order generalizing t with
  | nil => rfl
  | cons a order ih => rw [withPoints, List.map_cons, ih]

theorem le_of_mem_withPoints {t : T} {order : List α} {x : T × α}
    (hx : x ∈ withPoints call t order) : t ≤ x.1 := by
  induction order generalizing t with
  | nil => cases hx
  | cons a order ih =>
    rcases List.mem_cons.1 hx with rfl | hx
    · exact le_max_left _ _
    · exact (le_max_left _ _).trans (ih hx)

theorem pairwise_withPoints (t : T) (order : List α) :
    (withPoints call t order).Pairwise (fun x y => x.1 ≤ y.1) := by
  induction order generalizing t with
  | nil => exact .nil
  | cons a order ih => exact .cons (fun x hx => le_of_mem_withPoints hx) (ih _)

theorem point_bounds {t : T} {order : List α} (h : RespectsTime call ret order)
    (hcall : ∀ a ∈ order, call a ≤ ret a) (ht : ∀ a ∈ order, t ≤ ret a) {x : T × α}
    (hx : x ∈ withPoints call t order) : call x.2 ≤ x.1 ∧ x.1 ≤ ret x.2 := by
  induction order generalizing t with
  | nil => cases hx
  | cons a order ih =>
    obtain ⟨hhead, htail⟩ := List.pairwise_cons.1 h
    rcases List.mem_cons.1 hx with rfl | hx
    · exact ⟨le_max_right _ _, max_le (ht a (by simp)) (hcall a (by simp))⟩
    · refine ih htail (fun b hb => hcall b (by simp [hb])) ?_ hx
      intro b hb
      exact max_le (ht b (by simp [hb])) (hhead b hb)

theorem exists_merge [OrderBot T] (call ret : α → T) (keys : List K) (order : K → List α)
    (htime : ∀ k ∈ keys, RespectsTime call ret (order k))
    (hcall : ∀ k ∈ keys, ∀ a ∈ order k, call a ≤ ret a) :
    ∃ merged, merged.Perm (keys.flatMap order) ∧ (∀ k ∈ keys, (order k).Sublist merged) ∧
      RespectsTime call ret merged := by
  let pointed := keys.flatMap fun k => withPoints call ⊥ (order k)
  let sorted := pointed.insertionSort fun x y => x.1 ≤ y.1
  have hperm : sorted.Perm pointed := List.perm_insertionSort _ _
  have hbounds (x : T × α) (hx : x ∈ sorted) : call x.2 ≤ x.1 ∧ x.1 ≤ ret x.2 := by
    obtain ⟨k, hk, hx⟩ := List.mem_flatMap.1 (hperm.mem_iff.1 hx)
    exact point_bounds (htime k hk) (hcall k hk) (fun _ _ => bot_le) hx
  refine ⟨sorted.map Prod.snd, ?_, ?_, ?_⟩
  · have hmap : pointed.map Prod.snd = keys.flatMap order := by
      simp only [pointed, List.map_flatMap, map_snd_withPoints]
    rw [← hmap]
    exact hperm.map _
  · intro k hk
    have hsub : (withPoints call ⊥ (order k)).Sublist pointed :=
      List.sublist_flatten_of_mem (List.mem_map_of_mem hk)
    rw [← map_snd_withPoints call ⊥ (order k)]
    exact (List.sublist_insertionSort (pairwise_withPoints _ _) hsub).map _
  · have hsorted : sorted.Pairwise fun x y => x.1 ≤ y.1 := by
      have : IsTrans (T × α) fun x y => x.1 ≤ y.1 := ⟨fun _ _ _ => le_trans⟩
      have : Std.Total fun x y : T × α => x.1 ≤ y.1 := ⟨fun x y => le_total x.1 y.1⟩
      exact List.pairwise_insertionSort _ _
    refine List.pairwise_map.2 (hsorted.imp_of_mem ?_)
    intro x y hx hy hxy
    exact ((hbounds x hx).1.trans hxy).trans (hbounds y hy).2

end Merge

/-! ### Models of independent objects -/

/-- A sequential object as a checker sees it: whether it can answer an input with an output,
and the state after it. -/
structure CheckedSpec (σ ι ρ : Type*) where
  init : σ
  step : σ → ι → ρ → Bool × σ

variable {κ σ ι ρ K τ : Type*}

namespace CheckedSpec

def accepts (M : CheckedSpec σ ι ρ) : σ → List (ι × ρ) → Bool
  | _, [] => true
  | s, (i, r) :: rest => (M.step s i r).1 && M.accepts (M.step s i r).2 rest

/-- Each input concerns the part of the state under its key and no other one. -/
structure Local (M : CheckedSpec σ ι ρ) (key : ι → K) (view : K → σ → τ) : Prop where
  step_congr : ∀ {s t i} r, view (key i) s = view (key i) t →
    (M.step s i r).1 = (M.step t i r).1 ∧
      view (key i) (M.step s i r).2 = view (key i) (M.step t i r).2
  step_other : ∀ {k i} s r, k ≠ key i → view k (M.step s i r).2 = view k s

theorem Local.accepts_iff [DecidableEq K] {M : CheckedSpec σ ι ρ} {key : ι → K}
    {view : K → σ → τ} (hM : M.Local key view) {s : σ} {t : K → σ}
    (hview : ∀ k, view k s = view k (t k)) (l : List (ι × ρ)) :
    M.accepts s l = true ↔ ∀ k, M.accepts (t k) (l.filter (key ·.1 = k)) = true := by
  induction l generalizing s t with
  | nil => simp [accepts]
  | cons x l ih =>
    obtain ⟨i, r⟩ := x
    obtain ⟨haccept, hnext⟩ := hM.step_congr r (hview (key i))
    let t' := Function.update t (key i) (M.step (t (key i)) i r).2
    have hview' (k : K) : view k (M.step s i r).2 = view k (t' k) := by
      by_cases hk : k = key i
      · subst hk
        simp only [hnext, t', Function.update_self]
      · simp only [hM.step_other s r hk, hview k, t', Function.update_of_ne hk]
    have hpart (k : K) : M.accepts (t k) (((i, r) :: l).filter (key ·.1 = k)) = true ↔
        (k = key i → (M.step (t k) i r).1 = true) ∧
          M.accepts (t' k) (l.filter (key ·.1 = k)) = true := by
      by_cases hk : k = key i
      · subst hk
        rw [List.filter_cons_of_pos (by simp), accepts, Bool.and_eq_true]
        simp [t']
      · rw [List.filter_cons_of_neg (by simpa using Ne.symm hk)]
        simp [t', hk]
    simp only [hpart, forall_and, forall_eq, accepts, Bool.and_eq_true]
    rw [← ih hview', haccept]

end CheckedSpec

/-! ### Complete histories -/

namespace OpEvent

def op : OpEvent κ ι ρ → κ
  | .invoke op _ => op
  | .respond op _ => op

def invoked : OpEvent κ ι ρ → Option κ
  | .invoke op _ => some op
  | .respond _ _ => none

def responded : OpEvent κ ι ρ → Option κ
  | .invoke _ _ => none
  | .respond op _ => some op

end OpEvent

structure Complete (h : List (OpEvent κ ι ρ)) : Prop where
  invokedOnce : (h.filterMap OpEvent.invoked).Nodup
  respondedOnce : (h.filterMap OpEvent.responded).Nodup
  responds : ∀ {op i}, .invoke op i ∈ h → ∃ r, [.invoke op i, .respond op r].Sublist h
  invokes : ∀ {op r}, .respond op r ∈ h → ∃ i, .invoke op i ∈ h

/-- An order of the operations of a complete history that the model accepts and that does
not contradict their order in time. -/
structure LinearizedBy (M : CheckedSpec σ ι ρ) (h : List (OpEvent κ ι ρ))
    (order : List (κ × ι × ρ)) : Prop where
  nodup : order.Nodup
  mem_iff : ∀ {op i r}, (op, i, r) ∈ order ↔ .invoke op i ∈ h ∧ .respond op r ∈ h
  realTime : order.Pairwise fun a b => ¬Precedes h b.1 a.1
  accepted : M.accepts M.init (order.map Prod.snd) = true

section Positions

variable {h early late : List (OpEvent κ ι ρ)} {op op' : κ} {i : ι} {r : ρ}

def eventIndex [DecidableEq κ] (name : OpEvent κ ι ρ → Option κ) (h : List (OpEvent κ ι ρ))
    (op : κ) : Nat :=
  h.findIdx (name · = some op)

theorem length_le_eventIndex [DecidableEq κ] {name : OpEvent κ ι ρ → Option κ}
    (hearly : op ∉ early.filterMap name) (late : List (OpEvent κ ι ρ)) :
    early.length ≤ eventIndex name (early ++ late) op := by
  have hnone : early.findIdx (name · = some op) = early.length := by
    refine List.findIdx_eq_length_of_false ?_
    intro e he
    exact decide_eq_false fun hop => hearly (List.mem_filterMap.2 ⟨e, he, hop⟩)
  rw [eventIndex, List.findIdx_append, hnone, if_neg (lt_irrefl _)]
  exact Nat.le_add_left _ _

theorem eventIndex_lt [DecidableEq κ] {first second : OpEvent κ ι ρ → Option κ}
    (hn : ((early ++ late).filterMap second).Nodup) (hop : op ∈ early.filterMap first)
    (hop' : op' ∈ late.filterMap second) :
    eventIndex first (early ++ late) op < eventIndex second (early ++ late) op' := by
  have hfirst : eventIndex first (early ++ late) op < early.length := by
    obtain ⟨e, he, hname⟩ := List.mem_filterMap.1 hop
    have hlt : early.findIdx (first · = some op) < early.length :=
      List.findIdx_lt_length_of_exists ⟨e, he, decide_eq_true hname⟩
    rw [eventIndex, List.findIdx_append, if_pos hlt]
    exact hlt
  rw [List.filterMap_append] at hn
  have hsecond : op' ∉ early.filterMap second := fun hearly =>
    List.disjoint_of_nodup_append hn hearly hop'
  exact hfirst.trans_le (length_le_eventIndex hsecond late)

theorem mem_filterMap_invoked : op ∈ h.filterMap OpEvent.invoked ↔ ∃ i, .invoke op i ∈ h := by
  rw [List.mem_filterMap]
  constructor
  · rintro ⟨e, he, hop⟩
    cases e with
    | invoke a i =>
      cases hop
      exact ⟨i, he⟩
    | respond a r => cases hop
  · rintro ⟨i, hi⟩
    exact ⟨_, hi, rfl⟩

theorem mem_filterMap_responded : op ∈ h.filterMap OpEvent.responded ↔ ∃ r, .respond op r ∈ h := by
  rw [List.mem_filterMap]
  constructor
  · rintro ⟨e, he, hop⟩
    cases e with
    | invoke a i => cases hop
    | respond a r =>
      cases hop
      exact ⟨r, he⟩
  · rintro ⟨r, hr⟩
    exact ⟨_, hr, rfl⟩

theorem eq_of_nodup_filterMap {name : OpEvent κ ι ρ → Option κ} (hn : (h.filterMap name).Nodup)
    {e d : OpEvent κ ι ρ} (he : e ∈ h) (hd : d ∈ h) (hop : name e = some op)
    (hop' : name d = some op) : e = d := by
  by_contra hne
  have hpairs := List.pairwise_filterMap.1 hn
  have hsymm : Std.Symm fun a b : OpEvent κ ι ρ =>
      ∀ x, name a = some x → ∀ y, name b = some y → x ≠ y :=
    ⟨fun _ _ hab x hx y hy => (hab y hy x hx).symm⟩
  exact hpairs.forall he hd hne op hop op hop' rfl

theorem Complete.invoke_unique (hc : Complete h) {i' : ι} (hi : .invoke op i ∈ h)
    (hi' : .invoke op i' ∈ h) : i = i' := by
  cases eq_of_nodup_filterMap hc.invokedOnce hi hi' rfl rfl
  rfl

variable [DecidableEq κ]

theorem Complete.precedes_iff (hc : Complete h) (hi : .invoke op' i ∈ h) :
    Precedes h op op' ↔ eventIndex OpEvent.responded h op < eventIndex OpEvent.invoked h op' := by
  constructor
  · rintro ⟨early, late, rfl, hr, hi⟩
    exact eventIndex_lt hc.invokedOnce (mem_filterMap_responded.2 hr) (mem_filterMap_invoked.2 hi)
  · intro hlt
    have hcall : eventIndex OpEvent.invoked h op' < h.length :=
      List.findIdx_lt_length_of_exists ⟨_, hi, decide_eq_true rfl⟩
    refine ⟨h.take (eventIndex OpEvent.invoked h op'), h.drop (eventIndex OpEvent.invoked h op'),
      (List.take_append_drop _ _).symm, ?_, ?_⟩
    · rw [← mem_filterMap_responded]
      by_contra hnone
      have hle := length_le_eventIndex hnone (h.drop (eventIndex OpEvent.invoked h op'))
      rw [List.take_append_drop, List.length_take, min_eq_left hcall.le] at hle
      exact hlt.not_ge hle
    · rw [← mem_filterMap_invoked, List.drop_eq_getElem_cons hcall]
      refine List.mem_filterMap.2 ⟨_, List.mem_cons_self, ?_⟩
      exact of_decide_eq_true (List.findIdx_getElem (w := hcall))

theorem Complete.invoked_le_responded (hc : Complete h) (hi : .invoke op i ∈ h) :
    eventIndex OpEvent.invoked h op ≤ eventIndex OpEvent.responded h op := by
  obtain ⟨r, hr⟩ := hc.responds hi
  obtain ⟨early, late, rfl, hcall, hreturn⟩ := List.cons_sublist_iff.1 hr
  have hreturn := List.singleton_sublist.1 hreturn
  exact (eventIndex_lt hc.respondedOnce (mem_filterMap_invoked.2 ⟨i, hcall⟩)
    (mem_filterMap_responded.2 ⟨r, hreturn⟩)).le

theorem Complete.invoked_before (hc : Complete (early ++ .respond op r :: late)) :
    ∃ i, .invoke op i ∈ early := by
  obtain ⟨i, hi⟩ := hc.invokes (List.mem_append_right _ List.mem_cons_self)
  rcases List.mem_append.1 hi with hearly | hlate
  · exact ⟨i, hearly⟩
  · -- behind its response, its position would be greater
    have hlate : .invoke op i ∈ late := by simpa using hlate
    have hle := hc.invoked_le_responded hi
    have hcut : early ++ .respond op r :: late = (early ++ [.respond op r]) ++ late := by simp
    have hc := hc.invokedOnce
    rw [hcut] at hc hle
    have hearly : op ∈ (early ++ [OpEvent.respond op r]).filterMap OpEvent.responded :=
      mem_filterMap_responded.2 ⟨r, by simp⟩
    have hlt := eventIndex_lt hc hearly (mem_filterMap_invoked.2 ⟨i, hlate⟩)
    exact absurd hle hlt.not_ge

end Positions

/-! ### Locality -/

section Locality

variable [DecidableEq K] {h : List (OpEvent κ ι ρ)} {keyOf : κ → K} {k : K} {op op' : κ}

def restrict (keyOf : κ → K) (k : K) (h : List (OpEvent κ ι ρ)) : List (OpEvent κ ι ρ) :=
  h.filter (keyOf ·.op = k)

theorem mem_restrict {e : OpEvent κ ι ρ} : e ∈ restrict keyOf k h ↔ e ∈ h ∧ keyOf e.op = k := by
  rw [restrict, List.mem_filter, decide_eq_true_eq]

theorem precedes_restrict (hop : keyOf op = k) (hop' : keyOf op' = k) :
    Precedes (restrict keyOf k h) op op' ↔ Precedes h op op' := by
  constructor
  · rintro ⟨early, late, heq, ⟨r, hr⟩, i, hi⟩
    obtain ⟨early, late, rfl, rfl, rfl⟩ := List.filter_eq_append_iff.1 heq
    exact ⟨early, late, rfl, ⟨r, List.mem_of_mem_filter hr⟩, i, List.mem_of_mem_filter hi⟩
  · rintro ⟨early, late, rfl, ⟨r, hr⟩, i, hi⟩
    refine ⟨restrict keyOf k early, restrict keyOf k late, List.filter_append .., ?_, ?_⟩
    · exact ⟨r, mem_restrict.2 ⟨hr, hop⟩⟩
    · exact ⟨i, mem_restrict.2 ⟨hi, hop'⟩⟩

variable {M : CheckedSpec σ ι ρ} {key : ι → K} {view : K → σ → τ} {order : List (κ × ι × ρ)}

theorem filter_map_snd (hkey : ∀ x ∈ order, keyOf x.1 = key x.2.1) (k : K) :
    (order.map Prod.snd).filter (key ·.1 = k) = (order.filter (keyOf ·.1 = k)).map Prod.snd := by
  rw [List.filter_map]
  refine congrArg _ (List.filter_congr ?_)
  intro x hx
  simp [hkey x hx]

theorem LinearizedBy.restrict (hl : LinearizedBy M h order)
    (hkey : ∀ {op i}, .invoke op i ∈ h → keyOf op = key i) (hM : M.Local key view) (k : K) :
    LinearizedBy M (restrict keyOf k h) (order.filter (keyOf ·.1 = k)) where
  nodup := hl.nodup.filter _
  mem_iff {op i r} := by
    rw [List.mem_filter, hl.mem_iff, mem_restrict, mem_restrict, decide_eq_true_eq]
    exact ⟨fun h => ⟨⟨h.1.1, h.2⟩, h.1.2, h.2⟩, fun h => ⟨⟨h.1.1, h.2.1⟩, h.1.2⟩⟩
  realTime := by
    refine (hl.realTime.filter _).imp_of_mem ?_
    intro a b ha hb hab
    rwa [precedes_restrict (of_decide_eq_true (List.mem_filter.1 hb).2)
      (of_decide_eq_true (List.mem_filter.1 ha).2)]
  accepted := by
    have hparts := (hM.accepts_iff (fun _ => rfl) _).1 hl.accepted k
    rwa [filter_map_snd fun x hx => hkey (hl.mem_iff.1 hx).1] at hparts

theorem LinearizedBy.merge [DecidableEq κ] (hc : Complete h)
    (hkey : ∀ {op i}, .invoke op i ∈ h → keyOf op = key i) (hM : M.Local key view)
    {order : K → List (κ × ι × ρ)}
    (hl : ∀ k, LinearizedBy M (Consensus.restrict keyOf k h) (order k)) :
    ∃ merged, LinearizedBy M h merged := by
  let keys := (h.map (keyOf ·.op)).dedup
  have hmem {k : K} {x : κ × ι × ρ} (hx : x ∈ order k) :
      .invoke x.1 x.2.1 ∈ h ∧ .respond x.1 x.2.2 ∈ h ∧ keyOf x.1 = k := by
    obtain ⟨hi, hr⟩ := (hl k).mem_iff.1 hx
    exact ⟨(mem_restrict.1 hi).1, (mem_restrict.1 hr).1, (mem_restrict.1 hi).2⟩
  -- in positions, the orders of the parts respect the time of the whole history
  have htime (k : K) : RespectsTime (fun x : κ × ι × ρ => eventIndex OpEvent.invoked h x.1)
      (fun x => eventIndex OpEvent.responded h x.1) (order k) := by
    refine (hl k).realTime.imp_of_mem ?_
    intro a b ha hb hab
    rw [precedes_restrict (hmem hb).2.2 (hmem ha).2.2, hc.precedes_iff (hmem ha).1] at hab
    exact not_lt.1 hab
  obtain ⟨merged, hperm, hsub, htime⟩ := exists_merge _ _ keys order (fun k _ => htime k)
    fun k _ a ha => hc.invoked_le_responded (hmem ha).1
  have hmerged {x : κ × ι × ρ} : x ∈ merged ↔ x ∈ order (keyOf x.1) := by
    rw [hperm.mem_iff, List.mem_flatMap]
    constructor
    · rintro ⟨k, -, hx⟩
      rwa [(hmem hx).2.2]
    · intro hx
      refine ⟨_, List.mem_dedup.2 (List.mem_map.2 ⟨_, (hmem hx).1, rfl⟩), hx⟩
  have hnodup : merged.Nodup := by
    rw [hperm.nodup_iff, List.nodup_flatMap]
    refine ⟨fun k _ => (hl k).nodup, (List.nodup_dedup _).imp ?_⟩
    intro k k' hne x hx hx'
    exact hne ((hmem hx).2.2.symm.trans (hmem hx').2.2)
  have hpart (k : K) : merged.filter (keyOf ·.1 = k) = order k := by
    have hsame : (order k).Perm (merged.filter (keyOf ·.1 = k)) := by
      rw [List.perm_ext_iff_of_nodup (hl k).nodup (hnodup.filter _)]
      intro x
      rw [List.mem_filter, hmerged, decide_eq_true_eq]
      constructor
      · intro hx
        rw [(hmem hx).2.2]
        exact ⟨hx, rfl⟩
      · rintro ⟨hx, rfl⟩
        exact hx
    have hsub : (order k).Sublist merged := by
      by_cases hk : k ∈ keys
      · exact hsub k hk
      · have hempty : order k = [] := by
          rw [List.eq_nil_iff_forall_not_mem]
          intro x hx
          exact hk (List.mem_dedup.2 (List.mem_map.2 ⟨_, (hmem hx).1, (hmem hx).2.2⟩))
        rw [hempty]
        exact List.nil_sublist _
    refine (List.Sublist.eq_of_length ?_ hsame.length_eq).symm
    have hall : (order k).filter (keyOf ·.1 = k) = order k :=
      List.filter_eq_self.2 fun x hx => decide_eq_true (hmem hx).2.2
    rw [← hall]
    exact hsub.filter _
  refine ⟨merged, hnodup, ?_, ?_, ?_⟩
  · intro op i r
    rw [hmerged, (hl _).mem_iff, mem_restrict, mem_restrict]
    exact ⟨fun h => ⟨h.1.1, h.2.1⟩, fun h => ⟨⟨h.1, rfl⟩, h.2, rfl⟩⟩
  · refine htime.imp_of_mem ?_
    intro a b ha hb hab
    rw [hc.precedes_iff (hmem (hmerged.1 ha)).1]
    exact not_lt.2 hab
  · refine (hM.accepts_iff (fun _ => rfl) _).2 ?_
    intro k
    rw [filter_map_snd fun x hx => hkey (hmem (hmerged.1 hx)).1, hpart]
    exact (hl k).accepted

theorem linearizable_iff_restrict [DecidableEq κ] (hc : Complete h)
    (hkey : ∀ {op i}, .invoke op i ∈ h → keyOf op = key i) (hM : M.Local key view) :
    (∃ order, LinearizedBy M h order) ↔ ∀ k, ∃ order, LinearizedBy M (restrict keyOf k h) order := by
  constructor
  · rintro ⟨order, hl⟩ k
    exact ⟨_, hl.restrict hkey hM k⟩
  · intro hparts
    choose order hl using hparts
    exact LinearizedBy.merge hc hkey hM hl

end Locality

end MiniQuorum.Consensus
