import Mathlib.Data.Set.Basic
import Mathlib.Order.Defs.LinearOrder

/-! Numbered versions of keyed records: the newest of a key, and the sets that lose none. -/

namespace MiniQuorum.Collections

variable {ρ κ ν : Type} [LinearOrder ν] (key : ρ → κ) (seq : ρ → ν)

def Finds (R : Set ρ) (k : κ) : Option ρ → Prop
  | none => ∀ r ∈ R, key r ≠ k
  | some r => r ∈ R ∧ key r = k ∧ ∀ s ∈ R, key s = k → seq s ≤ seq r

/-- `S` are some of the records `R`, and each that is missing has a newer one of its key. -/
structure Condenses (S R : Set ρ) : Prop where
  subset : S ⊆ R
  newer : ∀ r ∈ R, r ∉ S → ∃ s ∈ S, key s = key r ∧ seq r < seq s

variable {key seq} {R R' S S' : Set ρ} {k : κ}

/-! ### Losing no newest record -/

theorem Condenses.refl (R : Set ρ) : Condenses key seq R R :=
  ⟨subset_rfl, fun _ hr hnot => absurd hr hnot⟩

theorem Condenses.trans (h : Condenses key seq S R) (h' : Condenses key seq R R') :
    Condenses key seq S R' := by
  refine ⟨h.subset.trans h'.subset, ?_⟩
  intro r hr hnot
  by_cases hrR : r ∈ R
  · exact h.newer r hrR hnot
  · obtain ⟨s, hs, hkey, hlt⟩ := h'.newer r hr hrR
    by_cases hsS : s ∈ S
    · exact ⟨s, hsS, hkey, hlt⟩
    · obtain ⟨t, ht, hkey', hlt'⟩ := h.newer s hs hsS
      exact ⟨t, ht, hkey'.trans hkey, hlt.trans hlt'⟩

theorem Condenses.union (h : Condenses key seq S R) (h' : Condenses key seq S' R') :
    Condenses key seq (S ∪ S') (R ∪ R') := by
  refine ⟨Set.union_subset_union h.subset h'.subset, ?_⟩
  rintro r (hr | hr) hnot
  · obtain ⟨s, hs, hnewer⟩ := h.newer r hr fun hrS => hnot (.inl hrS)
    exact ⟨s, .inl hs, hnewer⟩
  · obtain ⟨s, hs, hnewer⟩ := h'.newer r hr fun hrS => hnot (.inr hrS)
    exact ⟨s, .inr hs, hnewer⟩

theorem Condenses.covers (h : Condenses key seq S R) {r : ρ} (hr : r ∈ R) :
    ∃ s ∈ S, key s = key r ∧ seq r ≤ seq s := by
  by_cases hrS : r ∈ S
  · exact ⟨r, hrS, rfl, le_rfl⟩
  · obtain ⟨s, hs, hkey, hlt⟩ := h.newer r hr hrS
    exact ⟨s, hs, hkey, hlt.le⟩

theorem Condenses.finds_iff (h : Condenses key seq S R) {found : Option ρ} :
    Finds key seq S k found ↔ Finds key seq R k found := by
  cases found with
  | none =>
    constructor
    · intro hfound r hr hk
      obtain ⟨s, hs, hkey, -⟩ := h.covers hr
      exact hfound s hs (hkey.trans hk)
    · intro hfound r hr
      exact hfound r (h.subset hr)
  | some s =>
    constructor
    · rintro ⟨hs, hkey, hle⟩
      refine ⟨h.subset hs, hkey, ?_⟩
      intro r hr hk
      obtain ⟨t, ht, hkey', hnewer⟩ := h.covers hr
      exact hnewer.trans (hle t ht (hkey'.trans hk))
    · rintro ⟨hs, hkey, hle⟩
      refine ⟨?_, hkey, fun r hr => hle r (h.subset hr)⟩
      by_contra hnot
      obtain ⟨t, ht, hkey', hlt⟩ := h.newer s hs hnot
      exact absurd (hle t (h.subset ht) (hkey'.trans hkey)) (not_le.2 hlt)

end MiniQuorum.Collections
