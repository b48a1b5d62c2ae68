import Mathlib.Data.List.Infix

/-
  Lib/Incremental.lean --- reading an input that is still arriving.

  A reader of a prefix either asks for more, with one error kept for that, or has made up
  its mind.  What SETTLES is a reader whose mind no later input changes: whoever reads on
  until it stops asking gets what the whole input gives, wherever the input was cut.
-/
set_option autoImplicit false

universe u v w

namespace Pelorus.Lib

variable {α : Type u} {β γ : Type v} {ε : Type w} {more : ε}

/-- Unless `p` asks for more, what follows changes nothing. -/
def Settles (more : ε) (p : List α → Except ε β) : Prop :=
  ∀ a b : List α, p a ≠ .error more → p (a ++ b) = p a

namespace Settles

variable {p : List α → Except ε β} {q : β → List α → Except ε γ}

theorem const (x : Except ε β) : Settles more fun _ : List α => x := fun _ _ _ => rfl

/-- The second reader starts from what the first one found, on the same input. -/
theorem bind (hp : Settles more p) (hq : ∀ x, Settles more (q x)) :
    Settles more fun l => p l >>= fun x => q x l := by
  intro a b hmore
  change (p a >>= fun x => q x a) ≠ .error more at hmore
  have hpa : p a ≠ .error more := by
    intro h
    exact hmore (by rw [h]; rfl)
  show (p (a ++ b) >>= fun x => q x (a ++ b)) = p a >>= fun x => q x a
  rw [hp a b hpa]
  cases hx : p a with
  | error e => rfl
  | ok x =>
      rw [hx] at hmore
      exact hq x a b hmore

/-- Reading from a position.  Past the end of `a` nothing was read yet, and `p` settled
on nothing gives the same on everything. -/
theorem drop (hp : Settles more p) (n : Nat) : Settles more fun l => p (l.drop n) := by
  intro a b hmore
  by_cases hn : n ≤ a.length
  · show p ((a ++ b).drop n) = p (a.drop n)
    rw [List.drop_append_of_le_length hn]
    exact hp _ b hmore
  · have hnil : a.drop n = [] := List.drop_eq_nil_of_le (by omega)
    have hempty : p [] ≠ .error more := by rw [← hnil]; exact hmore
    show p ((a ++ b).drop n) = p (a.drop n)
    rw [hnil, ← List.nil_append ((a ++ b).drop n)]
    exact hp [] _ hempty

theorem map (hp : Settles more p) (f : β → γ) : Settles more fun l => (p l).map f := by
  intro a b hmore
  change (p a).map f ≠ .error more at hmore
  have hpa : p a ≠ .error more := by
    intro h
    exact hmore (by rw [h]; rfl)
  show (p (a ++ b)).map f = (p a).map f
  rw [hp a b hpa]

/-- A loop settles when its turns do: of a state a turn makes a result or the next state, and
makes something smaller of what is left to read. -/
theorem loop {σ : Type v} {run : σ → List α → Except ε β} (step : σ → List α → Except ε (β ⊕ σ))
    (hrun : ∀ s l, run s l = step s l >>= Sum.elim .ok fun t => run t l) (left : List α → σ → Nat)
    (hleft : ∀ s t l, step s l = .ok (.inr t) → left l t < left l s) (hstep : ∀ s, Settles more (step s)) :
    ∀ s, Settles more (run s) := by
  intro s a b
  induction hn : left a s using Nat.strong_induction_on generalizing s with
  | h n ih =>
      intro hmore
      rw [hrun] at hmore ⊢
      have hsame : step s (a ++ b) = step s a := by
        refine hstep s a b fun h => hmore ?_
        rw [h]
        rfl
      rw [hsame, hrun s a]
      cases hs : step s a with
      | error e => rfl
      | ok next =>
          rw [hs] at hmore
          cases next with
          | inl x => rfl
          | inr t =>
              have hlt := hleft s t a hs
              exact ih (left a t) (hn ▸ hlt) t rfl hmore

/-- What a prefix gives, the whole input gives. -/
theorem of_longer (hp : Settles more p) {a l : List α} (h : a <+: l) (hmore : p a ≠ .error more) :
    p l = p a := by
  obtain ⟨b, rfl⟩ := h
  exact hp a b hmore

end Settles

end Pelorus.Lib
