import Pelorus.Lib.Updates

/-
  Layout/Table/Columns.lean --- column widths: the arithmetic of CSS 2.1 section 17.5.2.

  Widths are integers of app units, away from the ends of `Au`; percentages are hundredths of a
  percent.  `split` shares by cumulative rounding, so no unit is lost or invented; the rest is
  bookkeeping over a running remainder.  Where there is nothing to hand the widths to (no
  weights, no columns, a span that covers none) nothing is handed out.
-/
set_option autoImplicit false

namespace Pelorus.Layout.Table

open Lib

/-- What the cells and `<col>` elements say about one grid column. -/
structure Col where
  min : Int := 0
  max : Int := 0
  fixed : Option Int := none
  pct : Int := 0
  deriving DecidableEq, Repr, Inhabited

/-- A cell (or `<col>`) spanning several columns. -/
structure Span where
  start : Nat
  count : Nat
  min : Int
  max : Int
  fixed : Option Int
  pct : Int
  deriving DecidableEq, Repr

/-! ## Splitting -/

/-- The differences of the cumulative shares, from a cumulative weight and a cumulative share. -/
def cuts (t sum : Int) : Int → Int → List Int → List Int
  | _, _, [] => []
  | cumW, prev, w :: weights =>
      let cumW := cumW + max w 0
      let cum := (t * cumW).tdiv sum
      (cum - prev) :: cuts t sum cumW cum weights

/-- Split `total` in proportion to `weights`, in equal shares when they are all zero. -/
def split (total : Int) (weights : List Int) : List Int :=
  let sum := (weights.map fun w => max w 0).sum
  if sum ≤ 0 then cuts total (max weights.length 1) 0 0 (List.replicate weights.length 1)
  else cuts total sum 0 0 weights

/-! ## Spanning cells -/

def colAt (cols : List Col) (i : Nat) : Col := cols.getD i {}

/-- The indices of the columns a span covers. -/
def Span.range (s : Span) (n : Nat) : List Nat := List.range' s.start (Min.min (s.start + s.count) n - s.start)

/-- The spacing inside a span. -/
def Span.inner (s : Span) (spacing : Int) (n : Nat) : Int :=
  spacing * ((Min.min (s.start + s.count) n : Nat) - s.start - 1)

/-- The columns of a range that have no stated width. -/
def unstated (cols : List Col) (range : List Nat) : List Nat :=
  range.filter fun i => (colAt cols i).fixed.isNone

/-- The weights of columns: their max-content widths, at least one unit each. -/
def maxWeights (cols : List Col) (idx : List Nat) : List Int := idx.map fun i => max (colAt cols i).max 1

/-- A column's minimum raised, its maximum kept above it. -/
def Col.raiseMin (d : Int) (c : Col) : Col :=
  { c with min := c.min + d, max := if c.max < c.min + d then c.min + d else c.max }

def Col.raiseMax (d : Int) (c : Col) : Col := { c with max := c.max + d }

/-- A column's stated width, from the minimum up. -/
def Col.stateWidth (d : Int) (c : Col) : Col :=
  { c with fixed := some (c.min + d), max := Max.max c.max (c.min + d) }

def Col.setPct (d : Int) (c : Col) : Col := { c with pct := d }

/-- Spread what a span's minimum asks beyond its columns' over its free columns. -/
def spreadMin (cols : List Col) (range free : List Nat) (weights : List Int) (need : Int) : List Col :=
  let had := total Col.min range cols
  if need > had then updateAll Col.raiseMin cols (free.zip (split (need - had) weights)) else cols

def spreadMax (cols : List Col) (range free : List Nat) (weights : List Int) (need : Int) : List Col :=
  let had := total Col.max range cols
  if need > had then updateAll Col.raiseMax cols (free.zip (split (need - had) weights)) else cols

def spreadFixed (cols : List Col) (range : List Nat) (inner : Int) (fixed : Option Int) : List Col :=
  match fixed with
  | none => cols
  | some f =>
      let had := total (fun c => c.fixed.getD c.min) range cols
      let need := f - inner
      if need > had then
        let free := unstated cols range
        if free ≠ [] then
          updateAll Col.stateWidth cols (free.zip (split (need - had) (maxWeights cols free)))
        else cols
      else cols

def spreadPct (cols : List Col) (range : List Nat) (pct : Int) : List Col :=
  if pct > 0 then
    let had := total Col.pct range cols
    if pct > had then
      let free := range.filter fun i => (colAt cols i).pct = 0
      if free ≠ [] then
        updateAll Col.setPct cols (free.zip (split (pct - had) (maxWeights cols free)))
      else cols
    else cols
  else cols

/-- Fold one spanning cell into the columns. -/
def applySpan (spacing : Int) (cols : List Col) (s : Span) : List Col :=
  if s.start ≥ min (s.start + s.count) cols.length then cols
  else
    let inner := s.inner spacing cols.length
    let range := s.range cols.length
    let free := if unstated cols range = [] then range else unstated cols range
    let weights := maxWeights cols free
    let cols := spreadMin cols range free weights (s.min - inner)
    let cols := spreadMax cols range free weights (s.max - inner)
    let cols := spreadFixed cols range inner s.fixed
    spreadPct cols range s.pct

def applySpans (cols : List Col) (spans : List Span) (spacing : Int) : List Col :=
  spans.foldl (applySpan spacing) cols

/-! ## Distribution -/

/-- Percentage columns take their share of the table, the others their minimum. -/
def takePct (cols : List Col) (total : Int) : List Int :=
  let pctSum := (cols.map Col.pct).sum
  cols.map fun c =>
    if c.pct > 0 then
      let scaled := if pctSum > 10000 then (c.pct * 10000).tdiv pctSum else c.pct
      max ((total * scaled).tdiv 10000) c.min
    else c.min

/-- How far each percentage column is above its minimum. -/
def slack (cols : List Col) (w : List Int) : List Int :=
  List.zipWith (fun c w => if c.pct > 0 then max (w - c.min) 0 else 0) cols w

/-- The percentages asked for more than there is: take it back from their excess. -/
def takeBack (cols : List Col) (total : Int) (w : List Int) : List Int :=
  if w.sum > total then
    let excess := w.sum - total
    let slack := slack cols w
    if slack.sum > 0 then List.zipWith (· - ·) w (split (min excess slack.sum) slack) else w
  else w

/-- Widths with shares added at some places. -/
def pour (w : List Int) (idx : List Nat) (shares : List Int) : List Int :=
  updateAll (fun d x => x + d) w (idx.zip shares)

/-- The columns one of the two growing passes is about. -/
def growing (cols : List Col) (pass : Nat) : List Nat :=
  (List.range cols.length).filter fun i =>
    (colAt cols i).pct = 0 ∧
      if pass = 0 then (colAt cols i).fixed.isSome = true else (colAt cols i).fixed.isNone = true

/-- How much each of them wants: up to its stated width, or to its max-content width. -/
def wants (cols : List Col) (w : List Int) (pass : Nat) (idx : List Nat) : List Int :=
  idx.map fun i =>
    let c := colAt cols i
    let target := if pass = 0 then max (c.fixed.getD c.max) c.min else c.max
    max (target - w.getD i 0) 0

/-- One growing pass over the widths and what remains. -/
def growPass (cols : List Col) (pass : Nat) (w : List Int) (remaining : Int) : List Int × Int :=
  let idx := growing cols pass
  let want := wants cols w pass idx
  let totalWant := want.sum
  if totalWant = 0 then (w, remaining)
  else
    let give := min remaining totalWant
    (pour w idx (split give want), remaining - give)

/-- The columns that share what is still left, and in what order of preference. -/
def sharing (cols : List Col) (pass : Nat) : List Nat :=
  (List.range cols.length).filter fun i =>
    match pass with
    | 0 => decide ((colAt cols i).pct = 0) && (colAt cols i).fixed.isNone
    | 1 => decide ((colAt cols i).pct = 0)
    | _ => true

/-- The first of the passes with any column shares all that remains. -/
def shareRest (cols : List Col) (w : List Int) (remaining : Int) : List Nat → List Int
  | [] => w
  | pass :: passes =>
      let idx := sharing cols pass
      if idx = [] then shareRest cols w remaining passes
      else pour w idx (split remaining (idx.map fun i => w.getD i 0))

/-- Distribute `total` over the columns of an auto-layout table. -/
def distribute (cols : List Col) (total : Int) : List Int :=
  let w := cols.map Col.min
  if cols.length = 0 ∨ total ≤ w.sum then w
  else
    let w := takeBack cols total (takePct cols total)
    let remaining := total - w.sum
    if remaining ≤ 0 then w
    else
      let (w, remaining) := growPass cols 0 w remaining
      if remaining ≤ 0 then w
      else
        let (w, remaining) := growPass cols 1 w remaining
        if remaining ≤ 0 then w
        else shareRest cols w remaining [0, 1, 2]

/-! ## Splitting is exact -/

@[simp] theorem length_cuts (t sum : Int) (weights : List Int) : ∀ cumW prev : Int,
    (cuts t sum cumW prev weights).length = weights.length := by
  induction weights with
  | nil => exact fun _ _ => rfl
  | cons w weights ih => exact fun _ _ => congrArg (· + 1) (ih _ _)

/-- The cuts from a cumulative weight add up to the share between it and the end. -/
theorem sum_cuts (t sum : Int) (weights : List Int) : ∀ cumW : Int,
    (cuts t sum cumW ((t * cumW).tdiv sum) weights).sum =
      (t * (cumW + (weights.map fun w => max w 0).sum)).tdiv sum - (t * cumW).tdiv sum := by
  induction weights with
  | nil =>
      intro cumW
      rw [cuts, List.map_nil, List.sum_nil, Int.add_zero, Int.sub_self]
  | cons w weights ih =>
      intro cumW
      rw [cuts, List.sum_cons, ih, List.map_cons, List.sum_cons, Int.add_assoc]
      omega

theorem cuts_nonneg {t sum : Int} (ht : 0 ≤ t) (hsum : 0 < sum) (weights : List Int) : ∀ cumW : Int,
    0 ≤ cumW → ∀ d ∈ cuts t sum cumW ((t * cumW).tdiv sum) weights, 0 ≤ d := by
  induction weights with
  | nil => exact fun _ _ d hd => absurd hd List.not_mem_nil
  | cons w weights ih =>
      intro cumW hcum d hd
      have hmul : t * cumW ≤ t * (cumW + max w 0) := Int.mul_le_mul_of_nonneg_left (by omega) ht
      have hle := Int.tdiv_le_tdiv hsum hmul
      rcases List.mem_cons.mp hd with rfl | hd
      · omega
      · exact ih _ (by omega) d hd

/-- Splitting no more than the weights gives nobody more than its weight. -/
theorem cuts_le {t sum : Int} (ht : 0 ≤ t) (hsum : 0 < sum) (hle : t ≤ sum) (weights : List Int) :
    ∀ cumW : Int, 0 ≤ cumW →
      List.Forall₂ (fun w d => d ≤ max w 0) weights (cuts t sum cumW ((t * cumW).tdiv sum) weights) := by
  induction weights with
  | nil => exact fun _ _ => .nil
  | cons w weights ih =>
      intro cumW hcum
      refine .cons ?_ (ih _ (by omega))
      have hw : 0 ≤ max w 0 := le_max_right _ _
      have hmul : t * (cumW + max w 0) ≤ t * cumW + max w 0 * sum := by
        rw [Int.mul_add, Int.mul_comm (max w 0)]
        exact Int.add_le_add_left (Int.mul_le_mul_of_nonneg_right hle hw) _
      have hnum := Int.mul_nonneg ht (Int.add_nonneg hcum hw)
      have hdiv := Int.tdiv_le_tdiv hsum hmul
      rw [Int.tdiv_eq_ediv_of_nonneg (a := t * cumW + max w 0 * sum) (hnum.trans hmul),
        Int.add_mul_ediv_right _ _ hsum.ne', ← Int.tdiv_eq_ediv_of_nonneg (Int.mul_nonneg ht hcum)] at hdiv
      omega

@[simp] theorem length_split (total : Int) (weights : List Int) :
    (split total weights).length = weights.length := by
  rw [split]
  split
  · rw [length_cuts, List.length_replicate]
  · rw [length_cuts]

theorem sum_ones (n : Nat) : ((List.replicate n (1 : Int)).map fun w => max w 0).sum = n := by
  simp

/-- The shares add up to the total. -/
theorem sum_split (total : Int) {weights : List Int} (hne : weights ≠ []) :
    (split total weights).sum = total := by
  have hcuts : ∀ (sum : Int) (ws : List Int), sum ≠ 0 → (ws.map fun w => max w 0).sum = sum →
      (cuts total sum 0 0 ws).sum = total := by
    intro sum ws hsum hws
    have h := sum_cuts total sum ws 0
    rw [Int.mul_zero, Int.zero_tdiv, hws, Int.zero_add, Int.sub_zero, Int.mul_tdiv_cancel _ hsum] at h
    exact h
  have hlen : 0 < weights.length := List.length_pos_of_ne_nil hne
  rw [split]
  split
  · refine hcuts _ _ (by omega) ?_
    rw [sum_ones]
    omega
  · exact hcuts _ _ (by omega) rfl

theorem split_nonneg {total : Int} (h : 0 ≤ total) (weights : List Int) :
    ∀ d ∈ split total weights, 0 ≤ d := by
  have hcuts : ∀ (sum : Int) (ws : List Int), 0 < sum → ∀ d ∈ cuts total sum 0 0 ws, 0 ≤ d := by
    intro sum ws hsum
    have := cuts_nonneg h hsum ws 0 (Int.le_refl 0)
    rwa [Int.mul_zero, Int.zero_tdiv] at this
  rw [split]
  split
  · exact hcuts _ _ (by omega)
  · exact hcuts _ _ (by omega)

theorem split_le {total : Int} {weights : List Int} (h : 0 ≤ total)
    (hle : total ≤ (weights.map fun w => max w 0).sum) (hpos : 0 < (weights.map fun w => max w 0).sum) :
    List.Forall₂ (fun w d => d ≤ max w 0) weights (split total weights) := by
  have := cuts_le h hpos hle weights 0 (Int.le_refl 0)
  rw [Int.mul_zero, Int.zero_tdiv] at this
  rwa [split, if_neg (Int.not_le.mpr hpos)]

/-! ## Spanning cells only widen -/

/-- A column after some spans: neither width has shrunk, and the minimum is below the maximum if
it was. -/
structure Col.Widened (c c' : Col) : Prop where
  min_le : c.min ≤ c'.min
  max_le : c.max ≤ c'.max
  ordered : c.min ≤ c.max → c'.min ≤ c'.max

theorem Col.Widened.refl (c : Col) : c.Widened c := ⟨Int.le_refl _, Int.le_refl _, id⟩

theorem Col.Widened.trans (a b c : Col) (h : a.Widened b) (h' : b.Widened c) : a.Widened c :=
  ⟨h.min_le.trans h'.min_le, h.max_le.trans h'.max_le, h'.ordered ∘ h.ordered⟩

theorem Col.widened_raiseMin {d : Int} (hd : 0 ≤ d) (c : Col) : c.Widened (c.raiseMin d) := by
  refine ⟨?_, ?_, fun h => ?_⟩ <;> simp only [Col.raiseMin]
  · omega
  · split <;> omega
  · split <;> omega

theorem Col.widened_raiseMax {d : Int} (hd : 0 ≤ d) (c : Col) : c.Widened (c.raiseMax d) := by
  refine ⟨Int.le_refl _, ?_, fun h => ?_⟩ <;> simp only [Col.raiseMax] <;> omega

theorem Col.widened_stateWidth (d : Int) (c : Col) : c.Widened (c.stateWidth d) :=
  ⟨Int.le_refl _, le_max_left _ _, fun h => h.trans (le_max_left _ _)⟩

theorem Col.widened_setPct (d : Int) (c : Col) : c.Widened (c.setPct d) := ⟨Int.le_refl _, Int.le_refl _, id⟩

/-- The columns of a table after some spans. -/
abbrev Widened : List Col → List Col → Prop := Along Col.Widened

theorem Widened.refl (cols : List Col) : Widened cols cols := Along.refl Col.Widened.refl cols

theorem Widened.trans {as bs cs : List Col} (h : Widened as bs) (h' : Widened bs cs) : Widened as cs :=
  Along.trans Col.Widened.trans h h'

theorem widened_updateAll {f : Int → Col → Col} {us : List (Nat × Int)} (cols : List Col)
    (h : ∀ u ∈ us, ∀ c : Col, c.Widened (f u.2 c)) : Widened cols (updateAll f cols us) :=
  along_updateAll Col.Widened.refl Col.Widened.trans us cols h

section Spans

variable {cols : List Col} {range free : List Nat} {weights : List Int} {need spacing : Int} {s : Span}

/-- What is spread over the free columns of a range, one share each. -/
theorem zip_split (hfree : free ≠ []) (hlen : weights.length = free.length) (t : Int) :
    ((free.zip (split t weights)).map Prod.snd).sum = t := by
  have hne : weights ≠ [] := by
    rw [← List.length_pos_iff, hlen]
    exact List.length_pos_of_ne_nil hfree
  rw [List.map_snd_zip (by rw [length_split, hlen]), sum_split t hne]

theorem mem_zip_split {t : Int} (ht : 0 ≤ t) {u : Nat × Int} (hu : u ∈ free.zip (split t weights)) :
    u.1 ∈ free ∧ 0 ≤ u.2 :=
  ⟨(List.of_mem_zip hu).1, split_nonneg ht _ _ (List.of_mem_zip hu).2⟩

theorem widened_spreadMin (cols : List Col) (range free : List Nat) (weights : List Int) (need : Int) :
    Widened cols (spreadMin cols range free weights need) := by
  rw [spreadMin]
  split
  · refine widened_updateAll cols fun u hu c => Col.widened_raiseMin ?_ c
    exact (mem_zip_split (by omega) hu).2
  · exact Widened.refl cols

theorem widened_spreadMax (cols : List Col) (range free : List Nat) (weights : List Int) (need : Int) :
    Widened cols (spreadMax cols range free weights need) := by
  rw [spreadMax]
  split
  · refine widened_updateAll cols fun u hu c => Col.widened_raiseMax ?_ c
    exact (mem_zip_split (by omega) hu).2
  · exact Widened.refl cols

theorem widened_spreadFixed (cols : List Col) (range : List Nat) (inner : Int) (fixed : Option Int) :
    Widened cols (spreadFixed cols range inner fixed) := by
  cases fixed with
  | none => exact Widened.refl cols
  | some f =>
      simp only [spreadFixed]
      split
      · split
        · exact widened_updateAll cols fun u _ c => Col.widened_stateWidth _ c
        · exact Widened.refl cols
      · exact Widened.refl cols

theorem widened_spreadPct (cols : List Col) (range : List Nat) (pct : Int) : Widened cols (spreadPct cols range pct) := by
  simp only [spreadPct]
  split
  · split
    · split
      · exact widened_updateAll cols fun u _ c => Col.widened_setPct _ c
      · exact Widened.refl cols
    · exact Widened.refl cols
  · exact Widened.refl cols

theorem le_total_spreadMin (need : Int) (hnodup : range.Nodup) (hsub : ∀ i ∈ free, i ∈ range ∧ i < cols.length)
    (hfree : free ≠ []) (hlen : weights.length = free.length) :
    need ≤ total Col.min range (spreadMin cols range free weights need) := by
  simp only [spreadMin]
  split
  · rw [total_updateAll (f := Col.raiseMin) (fun _ _ => rfl) hnodup _ _ fun u hu =>
      hsub _ (List.of_mem_zip hu).1, zip_split hfree hlen]
    omega
  · omega

theorem le_total_spreadMax (need : Int) (hnodup : range.Nodup) (hsub : ∀ i ∈ free, i ∈ range ∧ i < cols.length)
    (hfree : free ≠ []) (hlen : weights.length = free.length) :
    need ≤ total Col.max range (spreadMax cols range free weights need) := by
  simp only [spreadMax]
  split
  · rw [total_updateAll (f := Col.raiseMax) (fun _ _ => rfl) hnodup _ _ fun u hu =>
      hsub _ (List.of_mem_zip hu).1, zip_split hfree hlen]
    omega
  · omega

/-- A span covers at least one of `n` columns. -/
def Span.Covers (s : Span) (n : Nat) : Prop := s.start < Min.min (s.start + s.count) n

/-- The columns a span covers have room for its widths, spacing included. -/
structure Span.Satisfied (s : Span) (spacing : Int) (cols : List Col) : Prop where
  min_le : s.min ≤ total Col.min (s.range cols.length) cols + s.inner spacing cols.length
  max_le : s.max ≤ total Col.max (s.range cols.length) cols + s.inner spacing cols.length

theorem Span.Satisfied.mono {cols' : List Col} (h : s.Satisfied spacing cols) (hw : Widened cols cols') :
    s.Satisfied spacing cols' := by
  have hmin := total_mono (m := Col.min) (fun _ _ h => h.min_le) (s.range cols.length) hw
  have hmax := total_mono (m := Col.max) (fun _ _ h => h.max_le) (s.range cols.length) hw
  refine ⟨h.min_le.trans ?_, h.max_le.trans ?_⟩ <;> rw [← hw.length_eq] <;> omega

theorem mem_range {i n : Nat} : i ∈ s.range n ↔ s.start ≤ i ∧ i < Min.min (s.start + s.count) n := by
  rw [Span.range, List.mem_range'_1]
  omega

/-- The columns a shortfall goes to: some of the covered ones. -/
theorem mem_free (cols : List Col) {n : Nat} (hcover : s.Covers n) :
    (if unstated cols (s.range n) = [] then s.range n else unstated cols (s.range n)) ≠ [] ∧
      ∀ i ∈ (if unstated cols (s.range n) = [] then s.range n else unstated cols (s.range n)),
        i ∈ s.range n ∧ i < n := by
  have hlt : ∀ i ∈ s.range n, i ∈ s.range n ∧ i < n := fun i hi =>
    ⟨hi, (mem_range.mp hi).2.trans_le (min_le_right _ _)⟩
  split
  · exact ⟨List.ne_nil_of_mem (mem_range.mpr ⟨Nat.le_refl _, hcover⟩), hlt⟩
  · exact ⟨‹_›, fun i hi => hlt i (List.mem_filter.mp hi).1⟩

theorem applySpan_spec (spacing : Int) (cols : List Col) (s : Span) :
    Widened cols (applySpan spacing cols s) ∧
      (s.Covers cols.length → s.Satisfied spacing (applySpan spacing cols s)) := by
  by_cases hcover : s.Covers cols.length
  · rw [applySpan, if_neg (Nat.not_le.mpr hcover)]
    dsimp only
    obtain ⟨hfree, hsub⟩ := mem_free cols hcover
    generalize (if unstated cols (s.range cols.length) = [] then s.range cols.length
      else unstated cols (s.range cols.length)) = free at hfree hsub
    have hlen : (maxWeights cols free).length = free.length := List.length_map _
    have hnodup : (s.range cols.length).Nodup := List.nodup_range'
    generalize maxWeights cols free = weights at hlen
    have h1 : Widened cols _ := widened_spreadMin cols (s.range cols.length) free weights
      (s.min - s.inner spacing cols.length)
    have hmin := le_total_spreadMin (s.min - s.inner spacing cols.length) hnodup hsub hfree hlen
    generalize spreadMin cols (s.range cols.length) free weights
      (s.min - s.inner spacing cols.length) = cols₁ at h1 hmin
    have hsub₁ : ∀ i ∈ free, i ∈ s.range cols.length ∧ i < cols₁.length := h1.length_eq ▸ hsub
    have h2 : Widened cols₁ _ := widened_spreadMax cols₁ (s.range cols.length) free weights
      (s.max - s.inner spacing cols.length)
    have hmax := le_total_spreadMax (s.max - s.inner spacing cols.length) hnodup hsub₁ hfree hlen
    generalize spreadMax cols₁ (s.range cols.length) free weights
      (s.max - s.inner spacing cols.length) = cols₂ at h2 hmax
    have h3 : Widened cols₂ _ := (widened_spreadFixed cols₂ (s.range cols.length)
      (s.inner spacing cols.length) s.fixed).trans (widened_spreadPct _ (s.range cols.length) s.pct)
    generalize spreadPct (spreadFixed cols₂ (s.range cols.length) (s.inner spacing cols.length) s.fixed)
      (s.range cols.length) s.pct = cols₃ at h3
    have hwide := h1.trans (h2.trans h3)
    have hmin' := total_mono (m := Col.min) (fun _ _ h => h.min_le) (s.range cols.length) (h2.trans h3)
    have hmax' := total_mono (m := Col.max) (fun _ _ h => h.max_le) (s.range cols.length) h3
    refine ⟨hwide, fun _ => ⟨?_, ?_⟩⟩ <;> rw [← hwide.length_eq] <;> omega
  · rw [applySpan, if_pos (Nat.not_lt.mp hcover)]
    exact ⟨Widened.refl cols, fun h => absurd h hcover⟩

/-- Every run over the spans widens the columns, and satisfies each span that covers a column. -/
theorem applySpans_spec (spacing : Int) (spans : List Span) : ∀ cols : List Col,
    Widened cols (applySpans cols spans spacing) ∧
      ∀ s ∈ spans, s.Covers cols.length → s.Satisfied spacing (applySpans cols spans spacing) := by
  induction spans with
  | nil => exact fun cols => ⟨Widened.refl cols, fun s hs => absurd hs List.not_mem_nil⟩
  | cons s spans ih =>
      intro cols
      obtain ⟨hstep, hsat⟩ := applySpan_spec spacing cols s
      obtain ⟨hrest, hall⟩ := ih (applySpan spacing cols s)
      refine ⟨hstep.trans hrest, fun s' hs' hcover => ?_⟩
      rcases List.mem_cons.mp hs' with rfl | hs'
      · exact (hsat hcover).mono hrest
      · exact hall s' hs' (hstep.length_eq ▸ hcover)

end Spans

/-! ## Distribution adds up -/

section Distribution

variable {cols : List Col} {w : List Int} {total : Int}

/-- No width is below its column's minimum. -/
abbrev AboveMin (cols : List Col) (w : List Int) : Prop := List.Forall₂ (fun c x => c.min ≤ x) cols w

theorem aboveMin_takePct (cols : List Col) (total : Int) : AboveMin cols (takePct cols total) := by
  refine List.forall₂_map_right_iff.mpr (List.forall₂_same.mpr fun c _ => ?_)
  split
  · exact le_max_right _ _
  · exact Int.le_refl _

theorem slack_nonneg (cols : List Col) (w : List Int) : ∀ x ∈ slack cols w, 0 ≤ x := by
  intro x hx
  obtain ⟨i, hi, rfl⟩ := List.getElem_of_mem hx
  simp only [slack, List.getElem_zipWith]
  split <;> omega

/-- The slack of the percentage columns is all there is above the minimums. -/
theorem sum_slack (cols : List Col) (total : Int) :
    (slack cols (takePct cols total)).sum = (takePct cols total).sum - (cols.map Col.min).sum := by
  have hmap : ∀ (f : Col → Int) (cs : List Col),
      (List.zipWith (fun c w => if c.pct > 0 then max (w - c.min) 0 else 0) cs (cs.map fun c =>
        if c.pct > 0 then max (f c) c.min else c.min)).sum =
      (cs.map fun c => if c.pct > 0 then max (f c) c.min else c.min).sum - (cs.map Col.min).sum := by
    intro f cs
    induction cs with
    | nil => rfl
    | cons c cs ih =>
        simp only [List.map_cons, List.zipWith_cons_cons, List.sum_cons]
        rw [ih]
        split <;> omega
  exact hmap _ cols

theorem sum_zipWith_sub {w d : List Int} (h : w.length = d.length) :
    (List.zipWith (· - ·) w d).sum = w.sum - d.sum := by
  induction w generalizing d with
  | nil =>
      cases d with
      | nil => rfl
      | cons => cases h
  | cons x w ih =>
      cases d with
      | nil => cases h
      | cons y d =>
          rw [List.zipWith_cons_cons, List.sum_cons, ih (Nat.succ.inj h), List.sum_cons, List.sum_cons]
          omega

/-- Taking back no more than the slack leaves every column its minimum. -/
theorem aboveMin_sub {d : List Int} (h : AboveMin cols w)
    (hd : List.Forall₂ (fun s d => d ≤ max s 0) (slack cols w) d) :
    AboveMin cols (List.zipWith (· - ·) w d) := by
  induction h generalizing d with
  | nil => exact .nil
  | @cons c x cols w hle _ ih =>
      cases hd with
      | @cons _ y _ d hy hd =>
          refine .cons ?_ (ih hd)
          dsimp only at hy ⊢
          split at hy <;> omega

/-- The taking back ends at `total` when the percentages asked for more, and keeps the minimums. -/
theorem takeBack_spec (hmin : (cols.map Col.min).sum < total) :
    AboveMin cols (takeBack cols total (takePct cols total)) ∧
      (takeBack cols total (takePct cols total)).sum ≤ total := by
  have habove := aboveMin_takePct cols total
  have hslack := sum_slack cols total
  rw [takeBack]
  generalize takePct cols total = w at habove hslack
  split
  · rename_i hover
    dsimp only
    rw [if_pos (by omega), min_eq_left (by omega)]
    have hlen : w.length = (split (w.sum - total) (slack cols w)).length := by
      rw [length_split, slack, List.length_zipWith, habove.length_eq, min_self]
    have hmax : ((slack cols w).map fun x => max x 0) = slack cols w :=
      (List.map_congr_left fun x hx => max_eq_left (slack_nonneg cols w x hx)).trans (List.map_id _)
    have hne : slack cols w ≠ [] := fun h => by
      rw [h, List.sum_nil] at hslack
      omega
    refine ⟨aboveMin_sub habove (split_le (by omega) ?_ ?_), ?_⟩
    · rw [hmax]
      omega
    · rw [hmax]
      omega
    · rw [sum_zipWith_sub hlen, sum_split _ hne]
      omega
  · exact ⟨habove, Int.not_lt.mp ‹_›⟩

/-- Pouring nonnegative shares keeps the minimums and adds their sum. -/
theorem pour_spec {idx : List Nat} {shares : List Int} (hlen : shares.length = idx.length)
    (hidx : ∀ i ∈ idx, i < w.length) (hshares : ∀ d ∈ shares, 0 ≤ d) (habove : AboveMin cols w) :
    AboveMin cols (pour w idx shares) ∧ (pour w idx shares).sum = w.sum + shares.sum := by
  constructor
  · have halong : Along (· ≤ ·) w (pour w idx shares) :=
      along_updateAll (fun _ => Int.le_refl _) (fun _ _ _ => Int.le_trans) _ w fun u hu x => by
        have := hshares u.2 (List.of_mem_zip hu).2
        omega
    obtain ⟨hsize, hget⟩ := List.forall₂_iff_get.mp habove
    refine List.forall₂_iff_get.mpr ⟨hsize.trans halong.length_eq, fun i hi hi' => ?_⟩
    have hiw : i < w.length := hsize ▸ hi
    exact (hget i hi hiw).trans
      (halong.rel (List.getElem?_eq_getElem hiw) (List.getElem?_eq_getElem hi'))
  · have hsum := total_updateAll (m := id) (f := fun d x => x + d) (fun _ _ => rfl)
      (List.nodup_range (n := w.length)) (idx.zip shares) w fun u hu =>
        have hmem := hidx u.1 (List.of_mem_zip hu).1
        ⟨List.mem_range.mpr hmem, hmem⟩
    rw [List.map_snd_zip (by omega), total_range, List.map_id] at hsum
    have hsize : (updateAll (fun d x => x + d) w (idx.zip shares)).length = w.length := length_updateAll ..
    rw [← hsize, total_range, List.map_id] at hsum
    exact hsum

theorem wants_nonneg (cols : List Col) (w : List Int) (pass : Nat) (idx : List Nat) :
    ∀ x ∈ wants cols w pass idx, 0 ≤ x := by
  intro x hx
  obtain ⟨i, -, rfl⟩ := List.mem_map.mp hx
  exact le_max_right _ _

theorem lt_of_mem_filter_range {n i : Nat} {p : Nat → Bool} (h : i ∈ (List.range n).filter p) : i < n :=
  List.mem_range.mp (List.mem_filter.mp h).1

/-- The widths and what remains of the total, between two passes. -/
structure Pass (cols : List Col) (total : Int) (w : List Int) (remaining : Int) : Prop where
  aboveMin : AboveMin cols w
  conserved : w.sum + remaining = total
  remaining_nonneg : 0 ≤ remaining

theorem Pass.grow {remaining : Int} (h : Pass cols total w remaining) (pass : Nat) :
    Pass cols total (growPass cols pass w remaining).1 (growPass cols pass w remaining).2 := by
  rw [growPass]
  dsimp only
  split
  · exact h
  · rename_i hwant
    have hnonneg := wants_nonneg cols w pass (growing cols pass)
    have hsum := List.sum_nonneg hnonneg
    have hne : wants cols w pass (growing cols pass) ≠ [] := fun hnil => hwant (by rw [hnil]; rfl)
    have hgive : 0 ≤ min remaining (wants cols w pass (growing cols pass)).sum :=
      le_min h.remaining_nonneg hsum
    obtain ⟨habove, htotal⟩ := @pour_spec cols w (growing cols pass)
      (split (min remaining (wants cols w pass (growing cols pass)).sum)
        (wants cols w pass (growing cols pass)))
      (by rw [length_split, wants, List.length_map])
      (fun i hi => h.aboveMin.length_eq ▸ lt_of_mem_filter_range hi)
      (split_nonneg hgive _) h.aboveMin
    rw [sum_split _ hne] at htotal
    have := h.conserved
    have := min_le_left remaining (wants cols w pass (growing cols pass)).sum
    exact ⟨habove, by dsimp only; omega, by dsimp only; omega⟩

/-- The rest is shared out whole by the first pass that has a column. -/
theorem Pass.share {remaining : Int} (h : Pass cols total w remaining) (hcols : cols ≠ []) (passes : List Nat) :
    2 ∈ passes → AboveMin cols (shareRest cols w remaining passes) ∧
      (shareRest cols w remaining passes).sum = total := by
  induction passes with
  | nil => exact fun hmem => absurd hmem List.not_mem_nil
  | cons pass passes ih =>
      intro hmem
      rw [shareRest]
      split
      · rename_i hnone
        refine ih ?_
        rcases List.mem_cons.mp hmem with rfl | hmem
        · have hall : sharing cols 2 = List.range cols.length := List.filter_true _
          rw [hall, List.range_eq_nil, List.length_eq_zero_iff] at hnone
          exact absurd hnone hcols
        · exact hmem
      · rename_i hsome
        have hne : (sharing cols pass).map (fun i => w.getD i 0) ≠ [] := by
          rwa [Ne, List.map_eq_nil_iff]
        obtain ⟨habove, htotal⟩ := @pour_spec cols w (sharing cols pass)
          (split remaining ((sharing cols pass).map fun i => w.getD i 0))
          (by rw [length_split, List.length_map])
          (fun i hi => h.aboveMin.length_eq ▸ lt_of_mem_filter_range hi)
          (split_nonneg h.remaining_nonneg _) h.aboveMin
        rw [sum_split _ hne, h.conserved] at htotal
        exact ⟨habove, htotal⟩

/-- Every width is at least its column's minimum, and together they are the larger of the total
and the sum of the minimums. -/
theorem distribute_spec (hcols : cols ≠ []) (total : Int) :
    AboveMin cols (distribute cols total) ∧
      (distribute cols total).sum = max total (cols.map Col.min).sum := by
  have hmins : AboveMin cols (cols.map Col.min) :=
    List.forall₂_map_right_iff.mpr (List.forall₂_same.mpr fun c _ => Int.le_refl _)
  rw [distribute]
  dsimp only
  split
  · rename_i hle
    refine ⟨hmins, (max_eq_right (hle.resolve_left ?_)).symm⟩
    exact fun h => hcols (List.length_eq_zero_iff.mp h)
  · rename_i hlt
    have hlt : (cols.map Col.min).sum < total := Int.not_le.mp (not_or.mp hlt).2
    obtain ⟨habove, hle⟩ := takeBack_spec hlt
    have hmax : max total (cols.map Col.min).sum = total := max_eq_left hlt.le
    rw [hmax]
    have hstart : Pass cols total (takeBack cols total (takePct cols total))
        (total - (takeBack cols total (takePct cols total)).sum) := ⟨habove, by omega, by omega⟩
    have hgrow := hstart.grow 0
    have hgrow' := hgrow.grow 1
    have hend : ∀ {w : List Int} {r : Int}, Pass cols total w r → r ≤ 0 →
        AboveMin cols w ∧ w.sum = total := fun {w r} h hr => by
      have := h.conserved
      have := h.remaining_nonneg
      exact ⟨h.aboveMin, by omega⟩
    split
    · exact hend hstart ‹_›
    · split
      · exact hend hgrow ‹_›
      · split
        · exact hend hgrow' ‹_›
        · exact hgrow'.share hcols [0, 1, 2] (by decide)

end Distribution

/-- **Column widths add up**, where there are columns to add up. -/
theorem column_widths_add_up {total : Int} {weights : List Int} (hweights : weights ≠ [])
    {cols : List Col} (hcols : cols ≠ []) (spans : List Span) (spacing : Int) :
    ((split total weights).length = weights.length ∧ (split total weights).sum = total ∧
        (0 ≤ total → ∀ d ∈ split total weights, 0 ≤ d)) ∧
      ((∀ s ∈ spans, s.Covers cols.length → s.Satisfied spacing (applySpans cols spans spacing)) ∧
        Along (fun c c' => c.min ≤ c'.min ∧ c.max ≤ c'.max) cols (applySpans cols spans spacing) ∧
        ((∀ c ∈ cols, c.min ≤ c.max) → ∀ c ∈ applySpans cols spans spacing, c.min ≤ c.max)) ∧
      List.Forall₂ (fun c w => c.min ≤ w) cols (distribute cols total) ∧
        (distribute cols total).sum = max total (cols.map Col.min).sum := by
  obtain ⟨hwide, hsat⟩ := applySpans_spec spacing spans cols
  refine ⟨⟨length_split _ _, sum_split _ hweights, fun h => split_nonneg h _⟩, ⟨hsat, ?_, ?_⟩,
    distribute_spec hcols total⟩
  · exact ⟨hwide.length_eq, fun hx hy => ⟨(hwide.rel hx hy).min_le, (hwide.rel hx hy).max_le⟩⟩
  · intro hordered c' hc'
    obtain ⟨i, hi, rfl⟩ := List.getElem_of_mem hc'
    have hi' : i < cols.length := hwide.length_eq ▸ hi
    exact (hwide.rel (List.getElem?_eq_getElem hi') (List.getElem?_eq_getElem hi)).ordered
      (hordered _ (List.getElem_mem hi'))

theorem column_widths_add_up_two :
    ((split 100 [1, 1, 1]).length = 3 ∧ (split 100 [1, 1, 1]).sum = 100 ∧
        (0 ≤ (100 : Int) → ∀ d ∈ split 100 [1, 1, 1], 0 ≤ d)) ∧
      ((∀ s ∈ [(⟨0, 2, 100, 100, none, 0⟩ : Span)], s.Covers 2 →
          s.Satisfied 0 (applySpans [{ min := 10, max := 20 }, { min := 10, max := 20 }]
            [⟨0, 2, 100, 100, none, 0⟩] 0)) ∧
        Along (fun c c' => c.min ≤ c'.min ∧ c.max ≤ c'.max)
          [{ min := 10, max := 20 }, { min := 10, max := 20 }]
          (applySpans [{ min := 10, max := 20 }, { min := 10, max := 20 }] [⟨0, 2, 100, 100, none, 0⟩] 0) ∧
        ((∀ c ∈ [({ min := 10, max := 20 } : Col), { min := 10, max := 20 }], c.min ≤ c.max) →
          ∀ c ∈ applySpans [{ min := 10, max := 20 }, { min := 10, max := 20 }]
            [⟨0, 2, 100, 100, none, 0⟩] 0, c.min ≤ c.max)) ∧
      List.Forall₂ (fun c w => c.min ≤ w) [({ min := 10, max := 20 } : Col), { min := 10, max := 20 }]
          (distribute [{ min := 10, max := 20 }, { min := 10, max := 20 }] 100) ∧
        (distribute [{ min := 10, max := 20 }, { min := 10, max := 20 }] 100).sum = 100 :=
  @column_widths_add_up 100 [1, 1, 1] (by decide)
    [{ min := 10, max := 20 }, { min := 10, max := 20 }] (by decide) [⟨0, 2, 100, 100, none, 0⟩] 0

/-- Without weights, without columns, or for a span past the last column, nothing adds up. -/
theorem no_columns_add_up :
    (split 1 []).sum ≠ 1 ∧ (distribute [] 5).sum ≠ max 5 0 ∧
      ¬ (⟨1, 1, 5, 5, none, 0⟩ : Span).Satisfied 0
        (applySpans [{ min := 1, max := 1 }] [⟨1, 1, 5, 5, none, 0⟩] 0) := by
  refine ⟨by decide, by decide, fun h => ?_⟩
  exact absurd h.min_le (by decide)

example : distribute [{ min := 10, max := 100 }, { min := 10, max := 300 }] 800 = [200, 600] := by decide

end Pelorus.Layout.Table
