import Mathlib.Data.Finset.Card
import Mathlib.Tactic.Linarith

namespace MiniQuorum.Consensus

variable {N : Type*} [DecidableEq N] {members P Q : Finset N}

/-- A strict majority of `members`. -/
structure IsQuorum (members Q : Finset N) : Prop where
  subset : Q ⊆ members
  majority : members.card < 2 * Q.card

theorem IsQuorum.inter (hP : IsQuorum members P) (hQ : IsQuorum members Q) :
    ∃ n, n ∈ P ∧ n ∈ Q := by
  by_contra h
  have hdisj : Disjoint P Q := by
    rw [Finset.disjoint_left]
    intro n hnP hnQ
    exact h ⟨n, hnP, hnQ⟩
  have hunion : (P ∪ Q).card ≤ members.card :=
    Finset.card_le_card (Finset.union_subset hP.subset hQ.subset)
  rw [Finset.card_union_of_disjoint hdisj] at hunion
  have := hP.majority
  have := hQ.majority
  omega

theorem IsQuorum.nonempty (hQ : IsQuorum members Q) : ∃ n, n ∈ Q := by
  obtain ⟨n, hn, _⟩ := hQ.inter hQ
  exact ⟨n, hn⟩

end MiniQuorum.Consensus
