import Mathlib.Control.Basic

/-
  Lib/EarlyExit.lean --- what holds at the end of a computation that may stop early.

  `Ends x Q E` says of `x : Except ε α` that its value, if it has one, is in `Q`, and that
  what it stops with, if it stops early, is in `E`.  The error of such a computation is
  often a whole state, and then `E` is a postcondition like any other.
-/
set_option autoImplicit false

namespace Pelorus.Lib

universe u

variable {ε α β : Type u}

/-- Both parts of a computation that succeeds succeed. -/
theorem bind_eq_ok {x : Except ε α} {f : α → Except ε β} {b : β} :
    (x >>= f) = .ok b ↔ ∃ a, x = .ok a ∧ f a = .ok b := by
  cases x with
  | error e =>
      constructor
      · intro h
        cases h
      · rintro ⟨a, h, -⟩
        cases h
  | ok a =>
      constructor
      · intro h
        exact ⟨a, rfl, h⟩
      · rintro ⟨a', h, hf⟩
        cases h
        exact hf

/-- Two continuations that agree on what a computation returns. -/
theorem bind_congr_ok {x : Except ε α} {f g : α → Except ε β} (h : ∀ a, x = .ok a → f a = g a) :
    (x >>= f) = (x >>= g) := by
  cases x with
  | error e => rfl
  | ok a => exact h a rfl

theorem map_eq_ok {x : Except ε α} {f : α → β} {b : β} : x.map f = .ok b ↔ ∃ a, x = .ok a ∧ f a = b := by
  cases x with
  | error e =>
      constructor
      · intro h
        cases h
      · rintro ⟨a, h, -⟩
        cases h
  | ok a =>
      constructor
      · intro h
        cases h
        exact ⟨a, rfl, rfl⟩
      · rintro ⟨a', h, hf⟩
        cases h
        exact congrArg Except.ok hf

/-- The value is in `Q`, or the computation stopped with something in `E`. -/
def Ends (x : Except ε α) (Q : α → Prop) (E : ε → Prop) : Prop :=
  (∀ a, x = .ok a → Q a) ∧ ∀ e, x = .error e → E e

namespace Ends

variable {x : Except ε α} {Q Q' : α → Prop} {E E' : ε → Prop}

theorem ok {a : α} (h : Q a) : Ends (.ok a : Except ε α) Q E := by
  constructor
  · intro b heq
    cases heq
    exact h
  · intro e heq
    cases heq

theorem error {e : ε} (h : E e) : Ends (.error e : Except ε α) Q E := by
  constructor
  · intro a heq
    cases heq
  · intro e' heq
    cases heq
    exact h

theorem mono (hx : Ends x Q E) (hQ : ∀ a, Q a → Q' a) (hE : ∀ e, E e → E' e) : Ends x Q' E' :=
  ⟨fun a ha => hQ a (hx.1 a ha), fun e he => hE e (hx.2 e he)⟩

/-- What comes after meets only the values of what came before. -/
theorem bind {f : α → Except ε β} {R : β → Prop} (hx : Ends x Q E) (hf : ∀ a, Q a → Ends (f a) R E) :
    Ends (x >>= f) R E := by
  cases x with
  | ok a => exact hf a (hx.1 a rfl)
  | error e => exact error (hx.2 e rfl)

/-- The value and the early end, each where it is known to be. -/
theorem of_ok {a : α} (hx : Ends x Q E) (h : x = .ok a) : Q a := hx.1 a h

theorem of_error {e : ε} (hx : Ends x Q E) (h : x = .error e) : E e := hx.2 e h

theorem map {f : α → β} {R : β → Prop} (hx : Ends x Q E) (hf : ∀ a, Q a → R (f a)) :
    Ends (x.map f) R E := by
  cases x with
  | ok a => exact ok (hf a (hx.1 a rfl))
  | error e => exact error (hx.2 e rfl)

end Ends

end Pelorus.Lib
