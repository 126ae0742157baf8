import MiniQuorum.Program.Wp

/-! Computations that read a byte source piece by piece, given apart from the source. -/

namespace MiniQuorum.Program

variable {σ ε α β : Type}

theorem bind_eq_ok {x : Except ε α} {f : α → Except ε β} {b : β} :
    (x >>= f) = .ok b ↔ ∃ a, x = .ok a ∧ f a = .ok b := by
  cases x with
  | error e => simp [bind, Except.bind]
  | ok a => simp [bind, Except.bind]

/-- `read` asks for exactly `length` bytes at `offset` and turns a refusal into its own
error. -/
inductive Reading (ε α : Type)
  | done (a : α)
  | fail (e : ε)
  | read (length offset : Nat) (onError : ε → ε) (next : List UInt8 → Reading ε α)

namespace Reading

def bind : Reading ε α → (α → Reading ε β) → Reading ε β
  | .done a, f => f a
  | .fail e, _ => .fail e
  | .read length offset onError next, f => .read length offset onError fun b => (next b).bind f

instance : Monad (Reading ε) where
  pure := .done
  bind := bind

def failIf (c : Prop) [Decidable c] (e : ε) : Reading ε Unit := if c then .fail e else .done ()

def ofExcept : Except ε α → Reading ε α
  | .ok a => .done a
  | .error e => .fail e

def ask (length offset : Nat) (onError : ε → ε) : Reading ε (List UInt8) :=
  .read length offset onError .done

def eval (source : Nat → Nat → Option (List UInt8)) (missing : ε) : Reading ε α → Except ε α
  | .done a => .ok a
  | .fail e => .error e
  | .read length offset onError next =>
    match source length offset with
    | some b => (next b).eval source missing
    | none => .error (onError missing)

def run (readAt : Nat → Nat → Prog σ ε (List UInt8)) : Reading ε α → Prog σ ε α
  | .done a => pure a
  | .fail e => throw e
  | .read length offset onError next => do
    let b ← (readAt length offset).wrap onError
    (next b).run readAt

section Eval

variable {source : Nat → Nat → Option (List UInt8)} {missing : ε}

@[simp] theorem eval_pure (a : α) : (pure a : Reading ε α).eval source missing = .ok a := rfl

@[simp] theorem eval_fail (e : ε) : (fail e : Reading ε α).eval source missing = .error e := rfl

@[simp] theorem eval_ofExcept (r : Except ε α) : (ofExcept r).eval source missing = r := by
  cases r <;> rfl

theorem eval_bind (x : Reading ε α) (f : α → Reading ε β) :
    (x >>= f).eval source missing =
      match x.eval source missing with
      | .ok a => (f a).eval source missing
      | .error e => .error e := by
  show (x.bind f).eval source missing = _
  induction x with
  | done a => rfl
  | fail e => rfl
  | read length offset onError next ih =>
    simp only [bind, eval]
    cases source length offset with
    | none => rfl
    | some b => exact ih b

theorem eval_bind_assoc {γ : Type} (x : Reading ε α) (f : α → Reading ε β) (g : β → Reading ε γ) :
    ((x >>= f) >>= g).eval source missing = (x >>= fun a => f a >>= g).eval source missing := by
  simp only [eval_bind]
  cases x.eval source missing with
  | error e => rfl
  | ok a => rfl

theorem eval_bind_eq_ok {x : Reading ε α} {f : α → Reading ε β} {b : β} :
    (x >>= f).eval source missing = .ok b ↔
      ∃ a, x.eval source missing = .ok a ∧ (f a).eval source missing = .ok b := by
  rw [eval_bind]
  cases x.eval source missing with
  | error e => simp
  | ok a => simp

theorem eval_bind_of_ok {x : Reading ε α} {f : α → Reading ε β} {a : α}
    (h : x.eval source missing = .ok a) :
    (x >>= f).eval source missing = (f a).eval source missing := by
  rw [eval_bind, h]

theorem eval_failIf_bind {c : Prop} [Decidable c] {e : ε} {f : Unit → Reading ε β} (h : ¬c) :
    (failIf c e >>= f).eval source missing = (f ()).eval source missing := by
  rw [eval_bind, failIf, if_neg h]
  rfl

@[simp] theorem eval_failIf_eq_ok {c : Prop} [Decidable c] {e : ε} {u : Unit} :
    (failIf c e).eval source missing = .ok u ↔ ¬c := by
  by_cases h : c
  · simp [failIf, h]
  · simp [failIf, eval, h]

theorem eval_ask {length offset : Nat} {onError : ε → ε} {b : List UInt8}
    (h : source length offset = some b) :
    (ask length offset onError).eval source missing = .ok b := by
  rw [ask, eval, h]
  rfl

end Eval

end Reading

end MiniQuorum.Program
