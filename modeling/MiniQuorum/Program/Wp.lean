/-! Programs with state and errors, and their weakest preconditions. -/

namespace MiniQuorum.Program

abbrev Prog (σ ε : Type) := ExceptT ε (StateM σ)

variable {σ τ ε α β : Type}

namespace Prog

def attempt (x : Prog σ ε α) : Prog σ ε (Except ε α) := fun s =>
  let r := x s
  (.ok r.1, r.2)

def error? (x : Prog σ ε Unit) : Prog σ ε (Option ε) := fun s =>
  match x s with
  | (.ok _, t) => (.ok none, t)
  | (.error e, t) => (.ok (some e), t)

def wrap (f : ε → ε) (x : Prog σ ε α) : Prog σ ε α := fun s =>
  let r := x s
  (r.1.mapError f, r.2)

def failIf (c : Prop) [Decidable c] (e : ε) : Prog σ ε Unit := if c then throw e else pure ()

def liftExcept (r : Except ε α) : Prog σ ε α := fun s => (r, s)

def zoom (get : τ → σ) (put : σ → τ → τ) (x : Prog σ ε α) : Prog τ ε α := fun t =>
  let r := x (get t)
  (r.1, put r.2 t)

end Prog

def wp (x : Prog σ ε α) (Q : α → σ → Prop) (E : ε → σ → Prop) (s : σ) : Prop :=
  match x s with
  | (.ok a, s') => Q a s'
  | (.error e, s') => E e s'

section Rules

variable {Q Q' : α → σ → Prop} {E E' : ε → σ → Prop} {s : σ}

theorem wp_iff {x : Prog σ ε α} :
    wp x Q E s ↔ (∀ a s', x s = (.ok a, s') → Q a s') ∧ ∀ e s', x s = (.error e, s') → E e s' := by
  rw [wp]
  rcases hx : x s with ⟨r, s'⟩
  cases r with
  | ok a =>
    constructor
    · intro h
      refine ⟨?_, ?_⟩
      · intro b t hbt
        cases hbt
        exact h
      · intro e t het
        cases het
    · intro h
      exact h.1 a s' rfl
  | error e =>
    constructor
    · intro h
      refine ⟨?_, ?_⟩
      · intro b t hbt
        cases hbt
      · intro d t hdt
        cases hdt
        exact h
    · intro h
      exact h.2 e s' rfl

theorem wp_mono {x : Prog σ ε α} (h : wp x Q E s) (hQ : ∀ a s', Q a s' → Q' a s')
    (hE : ∀ e s', E e s' → E' e s') : wp x Q' E' s := by
  rw [wp] at h ⊢
  split
  · next hx =>
    rw [hx] at h
    exact hQ _ _ h
  · next hx =>
    rw [hx] at h
    exact hE _ _ h

theorem wp_imp {x : Prog σ ε α} (h : wp x Q E s) (hQ : ∀ a s', Q a s' → Q' a s') :
    wp x Q' (fun _ _ => True) s :=
  wp_mono h hQ fun _ _ _ => trivial

theorem wp_true (x : Prog σ ε α) : wp x (fun _ _ => True) (fun _ _ => True) s :=
  wp_iff.2 ⟨fun _ _ _ => trivial, fun _ _ _ => trivial⟩

theorem wp_self {x : Prog σ ε α} (h : wp x Q E s) :
    wp x (fun a s' => Q a s' ∧ x s = (.ok a, s')) (fun e s' => E e s' ∧ x s = (.error e, s')) s :=
  wp_iff.2 ⟨fun a s' hx => ⟨(wp_iff.1 h).1 a s' hx, hx⟩, fun e s' hx => ⟨(wp_iff.1 h).2 e s' hx, hx⟩⟩

theorem eq_of_wp {x : Prog σ ε α} {r : Except ε α × σ}
    (h : wp x (fun a t => (.ok a, t) = r) (fun e t => (.error e, t) = r) s) : x s = r := by
  rw [wp] at h
  split at h
  · next hx => rw [hx, h]
  · next hx => rw [hx, h]

theorem exists_eq_ok {x : Prog σ ε α} (h : (x s).1.isOk = true) : ∃ a s', x s = (.ok a, s') := by
  rcases hx : x s with ⟨_ | a, s'⟩
  · rw [hx] at h
    cases h
  · exact ⟨a, s', rfl⟩

@[simp] theorem wp_pure (a : α) : wp (pure a : Prog σ ε α) Q E s ↔ Q a s := Iff.rfl

@[simp] theorem wp_throw (e : ε) : wp (throw e : Prog σ ε α) Q E s ↔ E e s := Iff.rfl

@[simp] theorem wp_bind (x : Prog σ ε β) (f : β → Prog σ ε α) :
    wp (x >>= f) Q E s ↔ wp x (fun b t => wp (f b) Q E t) E s := by
  have hbind : (x >>= f) s = match x s with
      | (.ok b, t) => f b t
      | (.error e, t) => (.error e, t) := by
    show (ExceptT.bind x f) s = _
    simp only [ExceptT.bind, ExceptT.mk, bind, StateT.bind, ExceptT.bindCont]
    rcases x s with ⟨r, t⟩
    cases r <;> rfl
  rw [wp, wp, hbind]
  rcases x s with ⟨r, t⟩
  cases r <;> rfl

@[simp] theorem wp_map (f : β → α) (x : Prog σ ε β) :
    wp (f <$> x) Q E s ↔ wp x (fun b t => Q (f b) t) E s := by
  have hmap : (f <$> x) s = ((x s).1.map f, (x s).2) := by
    show (ExceptT.map f x) s = _
    simp only [ExceptT.map, ExceptT.mk, bind, StateT.bind]
    rcases x s with ⟨r, t⟩
    cases r <;> rfl
  rw [wp, wp, hmap]
  rcases x s with ⟨r, t⟩
  cases r <;> rfl

@[simp] theorem wp_get {Q : σ → σ → Prop} : wp (get : Prog σ ε σ) Q E s ↔ Q s s := Iff.rfl

@[simp] theorem wp_set {Q : PUnit → σ → Prop} (t : σ) :
    wp (set t : Prog σ ε PUnit) Q E s ↔ Q ⟨⟩ t := Iff.rfl

@[simp] theorem wp_modify {Q : PUnit → σ → Prop} (f : σ → σ) :
    wp (modify f : Prog σ ε PUnit) Q E s ↔ Q ⟨⟩ (f s) := Iff.rfl

@[simp] theorem wp_attempt {Q : Except ε α → σ → Prop} (x : Prog σ ε α) :
    wp x.attempt Q E s ↔ wp x (fun a t => Q (.ok a) t) (fun e t => Q (.error e) t) s := by
  rw [wp, wp, Prog.attempt]
  rcases x s with ⟨r, t⟩
  cases r <;> rfl

@[simp] theorem wp_error? {Q : Option ε → σ → Prop} (x : Prog σ ε Unit) :
    wp x.error? Q E s ↔ wp x (fun _ t => Q none t) (fun e t => Q (some e) t) s := by
  rw [wp, wp, Prog.error?]
  rcases x s with ⟨r, t⟩
  cases r <;> rfl

@[simp] theorem wp_wrap (f : ε → ε) (x : Prog σ ε α) :
    wp (x.wrap f) Q E s ↔ wp x Q (fun e t => E (f e) t) s := by
  rw [wp, wp, Prog.wrap]
  rcases x s with ⟨r, t⟩
  cases r <;> rfl

@[simp] theorem wp_zoom {Q : α → τ → Prop} {E : ε → τ → Prop} (get : τ → σ) (put : σ → τ → τ)
    (x : Prog σ ε α) (t : τ) :
    wp (x.zoom get put) Q E t ↔
      wp x (fun a s => Q a (put s t)) (fun e s => E e (put s t)) (get t) := by
  rw [wp, wp, Prog.zoom]
  rcases x (get t) with ⟨r, s⟩
  cases r <;> rfl

@[simp] theorem wp_liftExcept (r : Except ε α) :
    wp (Prog.liftExcept r) Q E s ↔ (∀ a, r = .ok a → Q a s) ∧ ∀ e, r = .error e → E e s := by
  rw [wp, Prog.liftExcept]
  cases r <;> simp

@[simp] theorem wp_failIf {Q : Unit → σ → Prop} {c : Prop} [Decidable c] (e : ε) :
    wp (Prog.failIf c e) Q E s ↔ (c → E e s) ∧ (¬c → Q () s) := by
  rw [Prog.failIf]
  split
  · next h => simp [h]
  · next h => simp [h]

theorem wp_ite {c : Prop} [Decidable c] {x y : Prog σ ε α} (hx : c → wp x Q E s)
    (hy : ¬c → wp y Q E s) : wp (if c then x else y) Q E s := by
  split
  · next h => exact hx h
  · next h => exact hy h

theorem wp_throws (x : Prog σ ε β) (f : β → ε) :
    wp (x >>= fun b => throw (f b)) Q (fun _ _ => True) s := by
  rw [wp_bind]
  exact wp_imp (wp_true x) fun _ _ _ => trivial

theorem wp_foldlM {f : β → α → Prog σ ε β} {l : List α} {b : β}
    (P : List α → β → σ → Prop) {E : ε → σ → Prop} (hstart : P [] b s)
    (hstep : ∀ done a rest b s, l = done ++ a :: rest → P done b s →
      wp (f b a) (P (done ++ [a])) E s) : wp (l.foldlM f b) (P l) E s := by
  suffices h : ∀ done rest b s, l = done ++ rest → P done b s → wp (rest.foldlM f b) (P l) E s from
    h [] l b s rfl hstart
  intro done rest
  induction rest generalizing done with
  | nil =>
    intro b s hl hP
    rw [List.append_nil] at hl
    rw [hl]
    exact hP
  | cons a rest ih =>
    intro b s hl hP
    rw [List.foldlM_cons, wp_bind]
    refine wp_mono (hstep done a rest b s hl hP) ?_ (fun _ _ h => h)
    intro b' s' hP'
    exact ih (done ++ [a]) b' s' (by simpa using hl) hP'

theorem wp_forM {f : α → Prog σ ε PUnit} {l : List α} (P : List α → σ → Prop) {E : ε → σ → Prop}
    (hstart : P [] s)
    (hstep : ∀ done a rest s, l = done ++ a :: rest → P done s →
      wp (f a) (fun _ => P (done ++ [a])) E s) : wp (l.forM f) (fun _ => P l) E s := by
  suffices h : ∀ done rest s, l = done ++ rest → P done s → wp (rest.forM f) (fun _ => P l) E s from
    h [] l s rfl hstart
  intro done rest
  induction rest generalizing done with
  | nil =>
    intro s hl hP
    rw [List.append_nil] at hl
    rw [hl]
    exact hP
  | cons a rest ih =>
    intro s hl hP
    rw [List.forM, wp_bind]
    refine wp_mono (hstep done a rest s hl hP) ?_ (fun _ _ h => h)
    intro _ s' hP'
    exact ih (done ++ [a]) s' (by simpa using hl) hP'

end Rules

/-! ### Invariants -/

def Maintains (I : σ → Prop) (x : Prog σ ε α) : Prop :=
  ∀ s, I s → wp x (fun _ => I) (fun _ _ => True) s

namespace Maintains

variable {I : σ → Prop}

theorem pure (a : α) : Maintains I (Pure.pure a : Prog σ ε α) := fun _ h => h

theorem bind {x : Prog σ ε β} {f : β → Prog σ ε α} (hx : Maintains I x)
    (hf : ∀ b, Maintains I (f b)) : Maintains I (x >>= f) := by
  intro s h
  rw [wp_bind]
  exact wp_mono (hx s h) (fun b t ht => hf b t ht) (fun _ _ h => h)

theorem get : Maintains I (MonadState.get : Prog σ ε σ) := fun _ h => h

theorem get_bind {f : σ → Prog σ ε α}
    (hf : ∀ s, I s → wp (f s) (fun _ => I) (fun _ _ => True) s) :
    Maintains I ((MonadState.get : Prog σ ε σ) >>= f) := by
  intro s h
  rw [wp_bind, wp_get]
  exact hf s h

theorem modify {f : σ → σ} (hf : ∀ s, I s → I (f s)) :
    Maintains I (modify f : Prog σ ε PUnit) := hf

theorem ite {c : Prop} [Decidable c] {x y : Prog σ ε α} (hx : Maintains I x)
    (hy : Maintains I y) : Maintains I (if c then x else y) :=
  fun s h => wp_ite (fun _ => hx s h) (fun _ => hy s h)

theorem liftExcept (r : Except ε α) : Maintains I (Prog.liftExcept r : Prog σ ε α) := by
  intro s h
  rw [wp_liftExcept]
  exact ⟨fun _ _ => h, fun _ _ => trivial⟩

end Maintains

end MiniQuorum.Program
