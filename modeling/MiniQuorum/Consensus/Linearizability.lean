import Mathlib.Data.List.Basic
import Mathlib.Data.List.Nodup

/-! Linearizability of operation histories, proved by linearization points: an order that
starts empty, takes an operation at its end at some moment between its invocation and its
response, and never changes what it already holds. -/

namespace MiniQuorum.Consensus

structure SeqSpec (σ ι ρ : Type*) where
  init : σ
  step : σ → ι → σ × ρ

inductive OpEvent (κ ι ρ : Type*)
  | invoke (op : κ) (input : ι)
  | respond (op : κ) (output : ρ)
  deriving DecidableEq, Repr

variable {κ σ ι ρ : Type*}

namespace SeqSpec

def run (spec : SeqSpec σ ι ρ) (inputs : List ι) : σ :=
  inputs.foldl (fun s i => (spec.step s i).1) spec.init

def answer (spec : SeqSpec σ ι ρ) (inputs : List ι) (input : ι) : ρ :=
  (spec.step (spec.run inputs) input).2

theorem run_concat (spec : SeqSpec σ ι ρ) (inputs : List ι) (input : ι) :
    spec.run (inputs ++ [input]) = (spec.step (spec.run inputs) input).1 := by
  rw [run, List.foldl_append]
  rfl

end SeqSpec

def Precedes (h : List (OpEvent κ ι ρ)) (op op' : κ) : Prop :=
  ∃ early late, h = early ++ late ∧ (∃ r, .respond op r ∈ early) ∧ ∃ i, .invoke op' i ∈ late

def AnswersIn (spec : SeqSpec σ ι ρ) (order : List (κ × ι)) (op : κ) (output : ρ) : Prop :=
  ∃ before input after, order = before ++ (op, input) :: after ∧
    spec.answer (before.map Prod.snd) input = output

/-- A sequential order that explains a history. -/
structure Linearizes (spec : SeqSpec σ ι ρ) (h : List (OpEvent κ ι ρ)) (order : List (κ × ι)) :
    Prop where
  nodup : (order.map Prod.fst).Nodup
  invoked : ∀ x ∈ order, .invoke x.1 x.2 ∈ h
  answers : ∀ {op r}, .respond op r ∈ h → AnswersIn spec order op r
  realTime : ∀ {op op'}, Precedes h op op' → op' ∈ order.map Prod.fst →
    [op, op'].Sublist (order.map Prod.fst)

def Linearizable (spec : SeqSpec σ ι ρ) (h : List (OpEvent κ ι ρ)) : Prop :=
  ∃ order, Linearizes spec h order

section Precedes

variable {h : List (OpEvent κ ι ρ)} {op op' : κ}

theorem Precedes.concat {e : OpEvent κ ι ρ} (hp : Precedes (h ++ [e]) op op') :
    Precedes h op op' ∨ (∃ r, .respond op r ∈ h) ∧ ∃ i, e = .invoke op' i := by
  obtain ⟨early, late, heq, ⟨r, hr⟩, i, hi⟩ := hp
  rcases List.eq_nil_or_concat late with rfl | ⟨late, last, rfl⟩
  · cases hi
  · rw [List.concat_eq_append, ← List.append_assoc] at heq
    obtain ⟨rfl, hlast⟩ := List.append_inj' heq rfl
    rw [List.concat_eq_append, List.mem_append] at hi
    rcases hi with hi | hi
    · exact .inl ⟨early, late, rfl, ⟨r, hr⟩, i, hi⟩
    · right
      refine ⟨⟨r, List.mem_append_left _ hr⟩, i, ?_⟩
      rw [List.cons.inj hlast |>.1]
      exact (List.mem_singleton.mp hi).symm

theorem Precedes.responded (hp : Precedes h op op') : ∃ r, .respond op r ∈ h := by
  obtain ⟨early, late, rfl, ⟨r, hr⟩, _⟩ := hp
  exact ⟨r, List.mem_append_left _ hr⟩

end Precedes

namespace AnswersIn

variable {spec : SeqSpec σ ι ρ} {order order' : List (κ × ι)} {op : κ} {r : ρ}

theorem mono (ha : AnswersIn spec order op r) (h : order <+: order') :
    AnswersIn spec order' op r := by
  obtain ⟨before, input, after, rfl, hr⟩ := ha
  obtain ⟨rest, rfl⟩ := h
  exact ⟨before, input, after ++ rest, by simp, hr⟩

theorem mem (ha : AnswersIn spec order op r) : op ∈ order.map Prod.fst := by
  obtain ⟨before, input, after, rfl, _⟩ := ha
  simp

theorem concat (spec : SeqSpec σ ι ρ) (order : List (κ × ι)) (op : κ) (input : ι) :
    AnswersIn spec (order ++ [(op, input)]) op (spec.answer (order.map Prod.snd) input) :=
  ⟨order, input, [], rfl, rfl⟩

end AnswersIn

namespace Linearizes

variable {spec : SeqSpec σ ι ρ} {h : List (OpEvent κ ι ρ)} {order : List (κ × ι)} {op : κ}

theorem nil (spec : SeqSpec σ ι ρ) : Linearizes spec ([] : List (OpEvent κ ι ρ)) [] where
  nodup := List.nodup_nil
  invoked := by rintro x ⟨⟩
  answers := by rintro op r ⟨⟩
  realTime := by rintro op op' _ ⟨⟩

theorem mem_invoked (hl : Linearizes spec h order) (hop : op ∈ order.map Prod.fst) :
    ∃ i, .invoke op i ∈ h := by
  obtain ⟨x, hx, rfl⟩ := List.mem_map.mp hop
  exact ⟨x.2, hl.invoked x hx⟩

theorem invoke (hl : Linearizes spec h order) {input : ι} (hnew : ∀ i, .invoke op i ∉ h) :
    Linearizes spec (h ++ [.invoke op input]) order where
  nodup := hl.nodup
  invoked x hx := List.mem_append_left _ (hl.invoked x hx)
  answers hr := hl.answers (by simpa using hr)
  realTime hp hmem := by
    rcases hp.concat with hp | ⟨_, i, heq⟩
    · exact hl.realTime hp hmem
    · cases heq
      obtain ⟨i, hi⟩ := hl.mem_invoked hmem
      exact absurd hi (hnew i)

theorem linearize (hl : Linearizes spec h order) {input : ι} (hin : .invoke op input ∈ h)
    (hnew : op ∉ order.map Prod.fst) : Linearizes spec h (order ++ [(op, input)]) where
  nodup := by
    rw [List.map_append, List.map_singleton]
    exact hl.nodup.append (List.nodup_singleton op) (List.disjoint_singleton.mpr hnew)
  invoked x hx := by
    rcases List.mem_append.mp hx with hx | hx
    · exact hl.invoked x hx
    · rw [List.mem_singleton.mp hx]
      exact hin
  answers hr := (hl.answers hr).mono (List.prefix_append _ _)
  realTime {a b} hp hmem := by
    rw [List.map_append, List.map_singleton] at hmem ⊢
    obtain ⟨r, hr⟩ := hp.responded
    rcases List.mem_append.mp hmem with hmem | hmem
    · exact (hl.realTime hp hmem).trans (List.sublist_append_left _ _)
    · -- whatever has responded is in the order already
      have ha : [a].Sublist (order.map Prod.fst) :=
        List.singleton_sublist.mpr (hl.answers hr).mem
      rw [List.mem_singleton.mp hmem]
      exact ha.append (List.Sublist.refl [op])

theorem respond (hl : Linearizes spec h order) {r : ρ} (hr : AnswersIn spec order op r) :
    Linearizes spec (h ++ [.respond op r]) order where
  nodup := hl.nodup
  invoked x hx := List.mem_append_left _ (hl.invoked x hx)
  answers {a s} hs := by
    rcases List.mem_append.mp hs with hs | hs
    · exact hl.answers hs
    · cases List.mem_singleton.mp hs
      exact hr
  realTime hp hmem := by
    rcases hp.concat with hp | ⟨_, i, heq⟩
    · exact hl.realTime hp hmem
    · cases heq

end Linearizes

end MiniQuorum.Consensus
