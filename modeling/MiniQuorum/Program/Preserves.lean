import MiniQuorum.Program.Wp

/-! Programs that keep an invariant of their state, whether they return or fail. -/

namespace MiniQuorum.Program

variable {σ τ ε α β : Type}

def Preserves (I : σ → Prop) (x : Prog σ ε α) : Prop :=
  ∀ s, I s → wp x (fun _ => I) (fun _ => I) s

namespace Preserves

variable {I : σ → Prop}

theorem run {x : Prog σ ε α} {s : σ} (h : Preserves I x) (hs : I s) : I (x s).2 := by
  have hx := h s hs
  rw [wp] at hx
  rcases hrun : x s with ⟨r, t⟩
  rw [hrun] at hx
  cases r with
  | ok a => exact hx
  | error e => exact hx

theorem pure (a : α) : Preserves I (Pure.pure a : Prog σ ε α) := fun _ h => h

theorem throw (e : ε) : Preserves I (throw e : Prog σ ε α) := fun _ h => h

theorem bind {x : Prog σ ε β} {f : β → Prog σ ε α} (hx : Preserves I x)
    (hf : ∀ b, Preserves I (f b)) : Preserves I (x >>= f) := by
  intro s h
  rw [wp_bind]
  exact wp_mono (hx s h) (fun b t ht => hf b t ht) (fun _ _ h => h)

theorem attempt {x : Prog σ ε α} (hx : Preserves I x) : Preserves I x.attempt := by
  intro s h
  rw [wp_attempt]
  exact hx s h

theorem wrap {x : Prog σ ε α} (f : ε → ε) (hx : Preserves I x) : Preserves I (x.wrap f) := by
  intro s h
  rw [wp_wrap]
  exact hx s h

theorem liftExcept (r : Except ε α) : Preserves I (Prog.liftExcept r : Prog σ ε α) := by
  intro s h
  rw [wp_liftExcept]
  exact ⟨fun _ _ => h, fun _ _ => h⟩

theorem failIf {c : Prop} [Decidable c] (e : ε) : Preserves I (Prog.failIf c e : Prog σ ε Unit) := by
  intro s h
  rw [wp_failIf]
  exact ⟨fun _ => h, fun _ => h⟩

theorem ite {c : Prop} [Decidable c] {x y : Prog σ ε α} (hx : Preserves I x)
    (hy : Preserves I y) : Preserves I (if c then x else y) :=
  fun s h => wp_ite (fun _ => hx s h) (fun _ => hy s h)

theorem when {c : Prop} [Decidable c] {x : Prog σ ε Unit} {f : Unit → Prog σ ε α}
    (hx : Preserves I x) (hf : Preserves I (f ())) :
    Preserves I (if c then x >>= f else f ()) :=
  ite (bind hx fun _ => hf) hf

theorem zoom {J : τ → Prop} {get : τ → σ} {put : σ → τ → τ} (x : Prog σ ε α)
    (hput : ∀ s t, J t → J (put s t)) : Preserves J (x.zoom get put) := by
  intro t h
  rw [wp_zoom]
  exact wp_iff.2 ⟨fun _ s _ => hput s t h, fun _ s _ => hput s t h⟩

theorem foldlM {f : β → α → Prog σ ε β} (hf : ∀ b a, Preserves I (f b a)) (l : List α) (b : β) :
    Preserves I (l.foldlM f b) := by
  induction l generalizing b with
  | nil => exact pure b
  | cons a l ih => exact bind (hf b a) ih

theorem forM {f : α → Prog σ ε PUnit} (hf : ∀ a, Preserves I (f a)) (l : List α) :
    Preserves I (l.forM f) := by
  induction l with
  | nil => exact pure _
  | cons a l ih => exact bind (hf a) fun _ => ih

end Preserves

end MiniQuorum.Program
