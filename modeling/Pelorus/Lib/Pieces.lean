import Mathlib.Data.List.Basic

/-
  Lib/Pieces.lean --- cutting a list, or a range of rows, into pieces of one size.

  PIECES of a list are its consecutive parts of `n` elements, the last one shorter if it has
  to be.  BANDS of a range are the same for numbers: where each part starts and how long it
  is.  Both are made by cutting one piece off the front, and that is how both are reasoned about.
-/
set_option autoImplicit false

namespace Pelorus.Lib

universe u

variable {α : Type u}

/-! ## Lists -/

/-- Parts of `n` elements, in order. -/
def pieces (n : Nat) (l : List α) : List (List α) :=
  if 0 < n ∧ l ≠ [] then l.take n :: pieces n (l.drop n) else []
termination_by l.length
decreasing_by
  rename_i h
  have hpos := List.length_pos_of_ne_nil h.2
  rw [List.length_drop]
  omega

/-! ## Ranges -/

/-- Where the parts of a range start, and how long each is. -/
def bands (size total first : Nat) : List (Nat × Nat) :=
  if first < total ∧ 0 < size then
    (first, min size (total - first)) :: bands size total (first + min size (total - first))
  else []
termination_by total - first
decreasing_by omega

theorem bands_of_le {size total first : Nat} (h : total ≤ first) : bands size total first = [] := by
  rw [bands, if_neg (by omega)]

theorem bands_of_lt {size total first : Nat} (hsize : 0 < size) (h : first < total) :
    bands size total first =
      (first, min size (total - first)) :: bands size total (first + min size (total - first)) := by
  rw [bands, if_pos ⟨h, hsize⟩]

theorem le_of_mem_bands {size total first : Nat} {b : Nat × Nat} (h : b ∈ bands size total first) :
    b.1 + b.2 ≤ total := by
  fun_induction bands size total first with
  | case1 first hroom ih =>
      rcases List.mem_cons.mp h with rfl | hmem
      · dsimp only
        omega
      · exact ih hmem
  | case2 => cases h

end Pelorus.Lib
