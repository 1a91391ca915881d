import Mathlib.Tactic.Common

/-!
# Checked computations

`Checked α` is the result of a computation over a bounded memory: a value, or `fault`, an
access outside the bounds. Nothing is observed after a fault, so it absorbs what follows.
`Returns x P` is total correctness of `x`: no fault, and a value that satisfies `P`.
-/

namespace NmOtool

/-- A value, or an access outside the memory. -/
inductive Checked (α : Type) where
  | ok (a : α)
  | fault
  deriving DecidableEq, Repr

namespace Checked

variable {α β γ : Type}

def bind : Checked α → (α → Checked β) → Checked β
  | ok a, f => f a
  | fault, _ => fault

instance : Monad Checked where
  pure := ok
  bind := bind

@[simp] theorem pure_eq (a : α) : (pure a : Checked α) = ok a := rfl

-- Not by a bare `rfl`: the kernel would evaluate the bounds checks in `f a`.
@[simp] theorem ok_bind (a : α) (f : α → Checked β) : (ok a >>= f) = f a := (rfl)

@[simp] theorem fault_bind (f : α → Checked β) : ((fault : Checked α) >>= f) = fault := rfl

theorem bind_assoc (x : Checked α) (f : α → Checked β) (g : β → Checked γ) :
    (x >>= f) >>= g = x >>= fun a => f a >>= g := by
  cases x <;> rfl

/-- A `do` block duplicates what follows an `if`; this shares it again. -/
theorem ite_bind {c : Prop} [Decidable c] {x y : Checked α} {f : α → Checked β} :
    (if c then x >>= f else y >>= f) = (if c then x else y) >>= f := by
  split <;> rfl

theorem bind_eq_ok {x : Checked α} {f : α → Checked β} {b : β} :
    (x >>= f) = ok b ↔ ∃ a, x = ok a ∧ f a = ok b := by
  cases x <;> simp

/-- The value, or `a` in the place of a fault. -/
def getD : Checked α → α → α
  | ok b, _ => b
  | fault, a => a

/-! ## Computations that return their state

`keep s x` is `x` with `s` for the state it returns: a computation with `x = keep s x` leaves the
state as it was. -/

section
variable {σ : Type}

def keep (s : σ) (x : Checked (α × σ)) : Checked (α × σ) := x >>= fun r => ok (r.1, s)

@[simp] theorem keep_ok (s t : σ) (a : α) : keep s (ok (a, t)) = ok (a, s) := rfl

@[simp] theorem keep_fault (s : σ) : keep s (fault : Checked (α × σ)) = fault := rfl

theorem keep_bind (s : σ) (x : Checked β) (f : β → Checked (α × σ)) :
    keep s (x >>= f) = x >>= fun b => keep s (f b) := bind_assoc x f _

/-- The value of a computation, without the state. -/
def answer : Checked (α × σ) → Option α
  | ok r => some r.1
  | fault => none

theorem answer_eq_some {x : Checked (α × σ)} {a : α} : answer x = some a ↔ ∃ s, x = ok (a, s) := by
  cases x with
  | ok r =>
    obtain ⟨b, s⟩ := r
    simp [answer]
  | fault => simp [answer]

/-- A computation that keeps its state is a value or a fault, and nothing else. -/
theorem keep_cases {s : σ} {x : Checked (α × σ)} (h : x = keep s x) :
    x = fault ∨ ∃ a, x = ok (a, s) := by
  cases x with
  | fault => exact .inl rfl
  | ok r => exact .inr ⟨r.1, h⟩

end

/-! ## Total correctness -/

/-- `x` does not fault and its value satisfies `P`. -/
def Returns (x : Checked α) (P : α → Prop) : Prop := ∃ a, x = ok a ∧ P a

theorem Returns.ok {a : α} {P : α → Prop} (h : P a) : (ok a).Returns P := ⟨a, rfl, h⟩

theorem Returns.mono {x : Checked α} {P Q : α → Prop} (h : x.Returns P) (hPQ : ∀ a, P a → Q a) :
    x.Returns Q := by
  obtain ⟨a, hx, ha⟩ := h; exact ⟨a, hx, hPQ a ha⟩

theorem Returns.bind {x : Checked α} {f : α → Checked β} {P : α → Prop} {Q : β → Prop}
    (hx : x.Returns P) (hf : ∀ a, P a → (f a).Returns Q) : (x >>= f).Returns Q := by
  obtain ⟨a, rfl, ha⟩ := hx; exact hf a ha

/-! Read from right to left, the rules give what a computation requires of its input. -/

@[simp] theorem returns_ok {a : α} {P : α → Prop} : (ok a).Returns P ↔ P a := by
  simp [Returns]

@[simp] theorem returns_fault {P : α → Prop} : ¬ (fault : Checked α).Returns P := by
  simp [Returns]

theorem returns_bind {x : Checked α} {f : α → Checked β} {P : β → Prop} :
    (x >>= f).Returns P ↔ x.Returns fun a => (f a).Returns P := by
  cases x <;> simp

theorem returns_ite {c : Prop} [Decidable c] {x y : Checked α} {P : α → Prop} {A B : Prop}
    (hx : x.Returns P ↔ A) (hy : y.Returns P ↔ B) :
    (if c then x else y).Returns P ↔ if c then A else B := by
  split <;> assumption

theorem returns_congr {x : Checked α} {P Q : α → Prop} (h : ∀ a, x = ok a → (P a ↔ Q a)) :
    x.Returns P ↔ x.Returns Q := by
  cases x with
  | ok a => simpa using h a rfl
  | fault => simp

theorem returns_eq {x : Checked α} {a : α} : (x.Returns fun b => b = a) ↔ x = ok a := by
  constructor
  · rintro ⟨b, rfl, rfl⟩
    rfl
  · exact fun h => ⟨a, h, rfl⟩

theorem returns_true {x : Checked α} : (x.Returns fun _ => True) ↔ x ≠ fault := by
  cases x <;> simp

end Checked

end NmOtool
