import MiniQuorum.Codec.Frame

/-! Codes whose words tell where they end.  Each holds for the values in a domain, such as the
numbers that fit into a word. -/

namespace MiniQuorum.Codec

variable {α β : Type*}

def SelfDelimiting (P : α → Prop) (put : α → List UInt8) : Prop :=
  ∀ ⦃a b rest rest'⦄, P a → P b → put a ++ rest = put b ++ rest' → a = b ∧ rest = rest'

namespace SelfDelimiting

variable {P : α → Prop} {Q : β → Prop} {put : α → List UInt8} {put' : β → List UInt8}

theorem injOn (h : SelfDelimiting P put) {a b : α} (ha : P a) (hb : P b) (heq : put a = put b) :
    a = b :=
  (h ha hb (congrArg (· ++ []) heq)).1

theorem of_length {n : Nat} (hlength : ∀ a, (put a).length = n)
    (hinj : ∀ a b, P a → P b → put a = put b → a = b) : SelfDelimiting P put := by
  intro a b rest rest' ha hb heq
  obtain ⟨hput, hrest⟩ := List.append_inj heq ((hlength a).trans (hlength b).symm)
  exact ⟨hinj a b ha hb hput, hrest⟩

theorem comap (h : SelfDelimiting P put) (f : β → α)
    (hinj : ∀ x y, Q x → Q y → f x = f y → x = y) (hP : ∀ x, Q x → P (f x)) :
    SelfDelimiting Q fun x => put (f x) := by
  intro x y rest rest' hx hy heq
  obtain ⟨hf, hrest⟩ := h (hP x hx) (hP y hy) heq
  exact ⟨hinj x y hx hy hf, hrest⟩

theorem append (h : SelfDelimiting P put) (h' : SelfDelimiting Q put') :
    SelfDelimiting (fun x : α × β => P x.1 ∧ Q x.2) fun x => put x.1 ++ put' x.2 := by
  rintro ⟨a, x⟩ ⟨b, y⟩ rest rest' ⟨ha, hx⟩ ⟨hb, hy⟩ heq
  simp only [List.append_assoc] at heq
  obtain ⟨hfirst, htail⟩ := h ha hb heq
  obtain ⟨hsecond, hrest⟩ := h' hx hy htail
  exact ⟨Prod.ext hfirst hsecond, hrest⟩

theorem flatMap (h : SelfDelimiting P put) {l l' : List α} {rest rest' : List UInt8}
    (hlength : l.length = l'.length) (hl : ∀ a ∈ l, P a) (hl' : ∀ a ∈ l', P a)
    (heq : l.flatMap put ++ rest = l'.flatMap put ++ rest') : l = l' ∧ rest = rest' := by
  induction l generalizing l' with
  | nil =>
    cases List.length_eq_zero_iff.1 hlength.symm
    exact ⟨rfl, heq⟩
  | cons a l ih =>
    cases l' with
    | nil => cases hlength
    | cons b l' =>
      rw [List.forall_mem_cons] at hl hl'
      rw [List.flatMap_cons, List.flatMap_cons, List.append_assoc, List.append_assoc] at heq
      obtain ⟨rfl, htail⟩ := h hl.1 hl'.1 heq
      obtain ⟨rfl, hrest⟩ := ih (Nat.succ.inj hlength) hl.2 hl'.2 htail
      exact ⟨rfl, hrest⟩

theorem counted {R : Nat → Prop} {count : Nat → List UInt8} (hcount : SelfDelimiting R count)
    (h : SelfDelimiting P put) :
    SelfDelimiting (fun l : List α => R l.length ∧ ∀ a ∈ l, P a)
      fun l => count l.length ++ l.flatMap put := by
  rintro l l' rest rest' ⟨hR, hl⟩ ⟨hR', hl'⟩ heq
  simp only [List.append_assoc] at heq
  obtain ⟨hlength, heq⟩ := hcount hR hR' heq
  exact h.flatMap hlength hl hl' heq

end SelfDelimiting

def bigEndian (k n : Nat) : List UInt8 := (littleEndian k n).reverse

theorem selfDelimiting_bigEndian (k : Nat) : SelfDelimiting (· < 256 ^ k) (bigEndian k) := by
  refine .of_length (n := k) (fun n => by simp [bigEndian]) ?_
  intro a b ha hb heq
  have hlittle := congrArg ofLittleEndian (List.reverse_inj.1 heq)
  rwa [ofLittleEndian_littleEndian, ofLittleEndian_littleEndian, Nat.mod_eq_of_lt ha,
    Nat.mod_eq_of_lt hb] at hlittle

theorem selfDelimiting_sized {R : Nat → Prop} {count : Nat → List UInt8}
    (hcount : SelfDelimiting R count) :
    SelfDelimiting (fun bytes : List UInt8 => R bytes.length)
      fun bytes => count bytes.length ++ bytes := by
  intro bytes bytes' rest rest' hR hR' heq
  simp only [List.append_assoc] at heq
  obtain ⟨hlength, heq⟩ := hcount hR hR' heq
  exact List.append_inj heq hlength

end MiniQuorum.Codec
