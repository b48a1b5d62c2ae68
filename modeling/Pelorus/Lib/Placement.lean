import Mathlib.Data.List.Basic
import Mathlib.Order.Basic

/-
  Lib/Placement.lean --- placing parts one after another, each at the first place it fits.

  A PART says for each place where it would end if it stood there.  Parts are placed in
  order on a line, none before the end of the one before it.

  GREED IS ENOUGH where a part that stands later does not end earlier: what can be completed
  after some place of a part can be completed after its first place.
-/
set_option autoImplicit false

namespace Pelorus.Lib.Placement

/-- Where a part ends that stands at a place, if it can stand there. -/
abbrev Part : Type := Nat → Option Nat

/-- A part that stands later does not end earlier. -/
def Steady (f : Part) : Prop := ∀ {p p' e e' : Nat}, p ≤ p' → f p = some e → f p' = some e' → e ≤ e'

/-- From a place on, the parts can be placed up to a limit so that the last one ends well. -/
def Completes (limit : Nat) (good : Nat → Prop) : List Part → Nat → Prop
  | [], place => good place
  | f :: fs, place => ∃ p e, place ≤ p ∧ p ≤ limit ∧ f p = some e ∧ Completes limit good fs e

/-- The end of a part at the first place from `place` on where it can stand. -/
def firstEnd (limit : Nat) (f : Part) (place : Nat) : Option Nat :=
  (List.range' place (limit + 1 - place)).findSome? f

variable {limit : Nat} {good : Nat → Prop}
variable {place : Nat} {f : Part}

theorem mem_places {p : Nat} : p ∈ List.range' place (limit + 1 - place) ↔ place ≤ p ∧ p ≤ limit := by
  rw [List.mem_range'_1]
  omega

theorem firstEnd_eq_none (h : firstEnd limit f place = none) {p : Nat} (hp : place ≤ p)
    (hlimit : p ≤ limit) : f p = none :=
  List.findSome?_eq_none_iff.mp h p (mem_places.mpr ⟨hp, hlimit⟩)

/-- The first place there is ends a part no later than any other. -/
theorem firstEnd_eq_some (hf : Steady f) {place e : Nat} (h : firstEnd limit f place = some e) :
    (∃ p, place ≤ p ∧ p ≤ limit ∧ f p = some e) ∧
      ∀ {p' e'}, place ≤ p' → p' ≤ limit → f p' = some e' → e ≤ e' := by
  obtain ⟨before, p, after, hplaces, hp, hnone⟩ := List.findSome?_eq_some_iff.mp h
  have hmem : p ∈ List.range' place (limit + 1 - place) := by
    rw [hplaces]
    exact List.mem_append_right _ List.mem_cons_self
  obtain ⟨hlow, hhigh⟩ := mem_places.mp hmem
  refine ⟨⟨p, hlow, hhigh, hp⟩, fun {p' e'} hlow' hhigh' hp' => hf ?_ hp hp'⟩
  have hmem' : p' ∈ before ++ p :: after := hplaces ▸ mem_places.mpr ⟨hlow', hhigh'⟩
  rcases List.mem_append.mp hmem' with hbefore | hafter
  · rw [hnone p' hbefore] at hp'
    cases hp'
  · have hsorted : (before ++ p :: after).Pairwise (· ≤ ·) := by
      rw [← hplaces]
      exact List.pairwise_le_range'
    rcases List.mem_cons.mp hafter with rfl | hafter
    · exact Nat.le_refl _
    · exact (List.pairwise_cons.mp (List.pairwise_append.mp hsorted).2.1).1 p' hafter

/-- What can be completed from a place on can be completed from an earlier one. -/
theorem Completes.earlier {fs : List Part} {place' : Nat} (h : Completes limit good (f :: fs) place)
    (hle : place' ≤ place) : Completes limit good (f :: fs) place' := by
  obtain ⟨p, e, hp, hlimit, hf, hrest⟩ := h
  exact ⟨p, e, Nat.le_trans hle hp, hlimit, hf, hrest⟩

/-- A part that others follow can stand at its first place. -/
theorem completes_cons_iff {g : Part} {fs : List Part} (hf : Steady f) :
    Completes limit good (f :: g :: fs) place ↔ ∃ e ∈ firstEnd limit f place, Completes limit good (g :: fs) e := by
  constructor
  · intro h
    obtain ⟨p', e', hp', hlimit', hf', hrest⟩ := h
    cases hfirst : firstEnd limit f place with
    | none =>
        rw [firstEnd_eq_none hfirst hp' hlimit'] at hf'
        cases hf'
    | some e => exact ⟨e, rfl, hrest.earlier ((firstEnd_eq_some hf hfirst).2 hp' hlimit' hf')⟩
  · intro h
    obtain ⟨e, hfirst, hrest⟩ := h
    obtain ⟨p, hp, hlimit, hpe⟩ := (firstEnd_eq_some hf hfirst).1
    exact ⟨p, e, hp, hlimit, hpe, hrest⟩

/-- The last part, where it may end anywhere, can stand at its first place. -/
theorem completes_singleton_iff (hf : Steady f) (hgood : ∀ e, good e) :
    Completes limit good [f] place ↔ ∃ e, e ∈ firstEnd limit f place := by
  constructor
  · intro h
    obtain ⟨p', e', hp', hlimit', hf', _⟩ := h
    cases hfirst : firstEnd limit f place with
    | none =>
        rw [firstEnd_eq_none hfirst hp' hlimit'] at hf'
        cases hf'
    | some e => exact ⟨e, rfl⟩
  · intro h
    obtain ⟨e, hfirst⟩ := h
    obtain ⟨p, hp, hlimit, hpe⟩ := (firstEnd_eq_some hf hfirst).1
    exact ⟨p, e, hp, hlimit, hpe, hgood e⟩

end Pelorus.Lib.Placement
