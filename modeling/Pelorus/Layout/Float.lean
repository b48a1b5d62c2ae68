import Mathlib.Algebra.Order.Ring.Int
import Mathlib.Data.List.Basic
import Mathlib.Order.Bounds.Basic
import Pelorus.Lib.Runs

/-
  Layout/Float.lean --- where the floats of a formatting context land.

  A `FloatContext` is the list of floats placed so far.  `band` is the inline range that is
  free of them across a block range; `place` walks down through the bottom edges of the floats
  until the band across its whole height is wide enough.

  Trying the bottom edges alone misses nothing: between two of them the floats met only become
  more.  What goes wrong is the empty band.  Beside an inline-start float that sticks out of the
  container the band is empty and lies outside, and a float of no width fits it.

  Lengths are integers of app units, away from the ends of the range of `Au`.
-/
set_option autoImplicit false

namespace Pelorus.Layout

/-- Which edge a float is shifted to. -/
inductive FloatSide where
  | start
  | end
  deriving DecidableEq, Repr

/-- A size on the inline and the block axis. -/
structure LogicalSize where
  inline : Int
  block : Int
  deriving DecidableEq, Repr

/-- One float, already placed, as its margin box. -/
structure PlacedFloat where
  side : FloatSide
  inlineStart : Int
  inlineEnd : Int
  blockStart : Int
  blockEnd : Int
  deriving DecidableEq, Repr

/-- The floats placed so far in one block formatting context. -/
structure FloatContext where
  floats : List PlacedFloat
  deriving DecidableEq, Repr

/-- The float's block extent meets `[b₀, b₁)`. -/
def PlacedFloat.Meets (f : PlacedFloat) (b₀ b₁ : Int) : Prop := b₀ < f.blockEnd ∧ f.blockStart < b₁

instance (f : PlacedFloat) (b₀ b₁ : Int) : Decidable (f.Meets b₀ b₁) := inferInstanceAs (Decidable (_ ∧ _))

/-! ## The free range -/

/-- One float's effect on the free range: it narrows the range from its own side. -/
def narrow (b₀ b₁ : Int) (range : Int × Int) (float : PlacedFloat) : Int × Int :=
  if float.blockEnd ≤ b₀ ∨ float.blockStart ≥ b₁ then range
  else
    match float.side with
    | .start => (if float.inlineEnd > range.1 then float.inlineEnd else range.1, range.2)
    | .end => (range.1, if float.inlineStart < range.2 then float.inlineStart else range.2)

/-- The free inline range across the block range `[b₀, b₁)`. -/
def FloatContext.band (self : FloatContext) (b₀ b₁ available : Int) : Int × Int :=
  let range := self.floats.foldl (narrow b₀ b₁) (0, available)
  if range.2 < range.1 then (range.1, range.1) else range

/-- How wide the free range is. -/
def FloatContext.room (self : FloatContext) (b₀ b₁ available : Int) : Int :=
  (self.band b₀ b₁ available).2 - (self.band b₀ b₁ available).1

section Narrow

variable {b₀ b₁ : Int}

theorem narrow_start (range : Int × Int) (f : PlacedFloat) (x : Int) :
    (narrow b₀ b₁ range f).1 ≤ x ↔ range.1 ≤ x ∧ (f.side = .start → f.Meets b₀ b₁ → f.inlineEnd ≤ x) := by
  simp only [narrow, PlacedFloat.Meets]
  cases f.side <;> grind

theorem narrow_end (range : Int × Int) (f : PlacedFloat) (x : Int) :
    x ≤ (narrow b₀ b₁ range f).2 ↔ x ≤ range.2 ∧ (f.side = .end → f.Meets b₀ b₁ → x ≤ f.inlineStart) := by
  simp only [narrow, PlacedFloat.Meets]
  cases f.side <;> grind

theorem foldl_narrow_start (b₀ b₁ : Int) (floats : List PlacedFloat) : ∀ (range : Int × Int) (x : Int),
    (floats.foldl (narrow b₀ b₁) range).1 ≤ x ↔
      range.1 ≤ x ∧ ∀ f ∈ floats, f.side = .start → f.Meets b₀ b₁ → f.inlineEnd ≤ x := by
  induction floats with
  | nil => simp
  | cons f floats ih =>
      intro range x
      rw [List.foldl_cons, ih, narrow_start, and_assoc, List.forall_mem_cons]

theorem foldl_narrow_end (b₀ b₁ : Int) (floats : List PlacedFloat) : ∀ (range : Int × Int) (x : Int),
    x ≤ (floats.foldl (narrow b₀ b₁) range).2 ↔
      x ≤ range.2 ∧ ∀ f ∈ floats, f.side = .end → f.Meets b₀ b₁ → x ≤ f.inlineStart := by
  induction floats with
  | nil => simp
  | cons f floats ih =>
      intro range x
      rw [List.foldl_cons, ih, narrow_end, and_assoc, List.forall_mem_cons]

end Narrow

section Band

variable {self : FloatContext} {b₀ b₁ available : Int}

/-- The range starts at the furthest inline-start float met, or at the container's edge. -/
theorem band_start_le (x : Int) :
    (self.band b₀ b₁ available).1 ≤ x ↔
      0 ≤ x ∧ ∀ f ∈ self.floats, f.side = .start → f.Meets b₀ b₁ → f.inlineEnd ≤ x := by
  have h := foldl_narrow_start b₀ b₁ self.floats (0, available) x
  rw [FloatContext.band]
  dsimp only at h ⊢
  split <;> exact h

/-- Unless it is empty, the range ends at the nearest inline-end float met, or at the
container's edge. -/
theorem le_band_end {x : Int} (hx : (self.band b₀ b₁ available).1 < x) :
    x ≤ (self.band b₀ b₁ available).2 ↔
      x ≤ available ∧ ∀ f ∈ self.floats, f.side = .end → f.Meets b₀ b₁ → x ≤ f.inlineStart := by
  have h := foldl_narrow_end b₀ b₁ self.floats (0, available) x
  rw [FloatContext.band] at hx ⊢
  dsimp only at h hx ⊢
  rw [← h]
  split at hx
  · rename_i hempty
    rw [if_pos hempty]
    dsimp only at hx ⊢
    omega
  · rename_i hopen
    rw [if_neg hopen]

theorem room_nonneg (self : FloatContext) (b₀ b₁ available : Int) : 0 ≤ self.room b₀ b₁ available := by
  rw [FloatContext.room, FloatContext.band]
  split <;> omega

theorem band_start_nonneg (self : FloatContext) (b₀ b₁ available : Int) :
    0 ≤ (self.band b₀ b₁ available).1 := ((band_start_le _).mp (Int.le_refl _)).1

/-- A start float that is met ends before the range starts. -/
theorem inlineEnd_le_band (available : Int) {f : PlacedFloat} (hf : f ∈ self.floats) (hside : f.side = .start)
    (hmeets : f.Meets b₀ b₁) : f.inlineEnd ≤ (self.band b₀ b₁ available).1 :=
  ((band_start_le _).mp (Int.le_refl _)).2 f hf hside hmeets

/-- An end float that is met starts after the range ends, unless the range is empty. -/
theorem band_le_inlineStart (hopen : 0 < self.room b₀ b₁ available) {f : PlacedFloat}
    (hf : f ∈ self.floats) (hside : f.side = .end) (hmeets : f.Meets b₀ b₁) :
    (self.band b₀ b₁ available).2 ≤ f.inlineStart :=
  ((le_band_end (by rw [FloatContext.room] at hopen; omega)).mp (Int.le_refl _)).2 f hf hside hmeets

theorem band_le_available (hopen : 0 < self.room b₀ b₁ available) :
    (self.band b₀ b₁ available).2 ≤ available :=
  ((le_band_end (by rw [FloatContext.room] at hopen; omega)).mp (Int.le_refl _)).1

theorem room_anti {b₀' b₁' : Int} (h : ∀ f ∈ self.floats, f.Meets b₀ b₁ → f.Meets b₀' b₁') :
    self.room b₀' b₁' available ≤ self.room b₀ b₁ available := by
  by_cases hopen : 0 < self.room b₀' b₁' available
  · have hstart : (self.band b₀ b₁ available).1 ≤ (self.band b₀' b₁' available).1 :=
      (band_start_le _).mpr ⟨band_start_nonneg .., fun f hf hside hm =>
        inlineEnd_le_band available hf hside (h f hf hm)⟩
    have hend : (self.band b₀' b₁' available).2 ≤ (self.band b₀ b₁ available).2 :=
      (le_band_end (by rw [FloatContext.room] at hopen; omega)).mpr ⟨band_le_available hopen,
        fun f hf hside hm => band_le_inlineStart hopen hf hside (h f hf hm)⟩
    rw [FloatContext.room, FloatContext.room]
    omega
  · exact (Int.not_lt.mp hopen).trans (room_nonneg ..)

/-- Where no float is met the whole width is free. -/
theorem band_of_clear (self : FloatContext) (b₀ b₁ : Int) (hwidth : 0 ≤ available)
    (hclear : ∀ f ∈ self.floats, ¬ f.Meets b₀ b₁) :
    self.band b₀ b₁ available = (0, available) := by
  have hstart : (self.band b₀ b₁ available).1 = 0 :=
    Int.le_antisymm ((band_start_le _).mpr ⟨Int.le_refl _, fun f hf _ hm => absurd hm (hclear f hf)⟩)
      (band_start_nonneg ..)
  have hroom := room_nonneg self b₀ b₁ available
  refine Prod.ext hstart (Int.le_antisymm ?_ ?_)
  · rcases Int.lt_or_eq_of_le hroom with hopen | hempty
    · exact band_le_available hopen
    · rw [FloatContext.room] at hempty
      omega
  · rcases Int.lt_or_eq_of_le hwidth with hpos | rfl
    · exact (le_band_end (by omega)).mpr ⟨Int.le_refl _, fun f hf _ hm => absurd hm (hclear f hf)⟩
    · rw [FloatContext.room] at hroom
      omega

end Band

/-! ## The search -/

/-- The next band boundary strictly below `blockPosition`. -/
def FloatContext.nextEdgeBelow (self : FloatContext) (blockPosition : Int) : Option Int :=
  ((self.floats.map PlacedFloat.blockEnd).filter (· > blockPosition)).min?

/-- Record a float at a position already decided. -/
def FloatContext.push (self : FloatContext) (side : FloatSide) (inlineStart blockStart : Int)
    (size : LogicalSize) : FloatContext × PlacedFloat :=
  let placed : PlacedFloat :=
    { side, inlineStart, inlineEnd := inlineStart + size.inline,
      blockStart, blockEnd := blockStart + size.block }
  (⟨self.floats ++ [placed]⟩, placed)

/-- The floats whose bottom edge is still below a position. -/
def FloatContext.edgesBelow (self : FloatContext) (blockPosition : Int) : List PlacedFloat :=
  self.floats.filter fun f => blockPosition < f.blockEnd

theorem nextEdgeBelow_eq_some {self : FloatContext} {b next : Int} (h : self.nextEdgeBelow b = some next) :
    (∃ f ∈ self.floats, f.blockEnd = next) ∧ b < next ∧
      ∀ f ∈ self.floats, b < f.blockEnd → next ≤ f.blockEnd := by
  obtain ⟨hmem, hle⟩ := List.min?_eq_some_iff.mp h
  obtain ⟨hmem, hlt⟩ := List.mem_filter.mp hmem
  refine ⟨List.mem_map.mp hmem, of_decide_eq_true hlt, fun f hf hlt => hle _ ?_⟩
  exact List.mem_filter.mpr ⟨List.mem_map.mpr ⟨f, hf, rfl⟩, decide_eq_true hlt⟩

theorem nextEdgeBelow_eq_none {self : FloatContext} {b : Int} (h : self.nextEdgeBelow b = none) :
    ∀ f ∈ self.floats, f.blockEnd ≤ b := by
  intro f hf
  rw [FloatContext.nextEdgeBelow, List.min?_eq_none_iff, List.filter_eq_nil_iff] at h
  exact Int.not_lt.mp fun hlt => h _ (List.mem_map.mpr ⟨f, hf, rfl⟩) (decide_eq_true hlt)

theorem edgesBelow_next {self : FloatContext} {b next : Int} (h : self.nextEdgeBelow b = some next) :
    (self.edgesBelow next).length < (self.edgesBelow b).length := by
  obtain ⟨⟨f, hf, rfl⟩, hlt, -⟩ := nextEdgeBelow_eq_some h
  have hsub : self.edgesBelow f.blockEnd = (self.edgesBelow b).filter fun g => f.blockEnd < g.blockEnd := by
    rw [FloatContext.edgesBelow, FloatContext.edgesBelow, List.filter_filter]
    refine List.filter_congr fun g _ => ?_
    grind
  rw [hsub]
  refine List.length_filter_lt_length_iff_exists.mpr ⟨f, List.mem_filter.mpr ⟨hf, decide_eq_true hlt⟩, ?_⟩
  simp

/-- The loop of `place`: try a block position, and go on to the next edge below. -/
def FloatContext.placeFrom (self : FloatContext) (side : FloatSide) (size : LogicalSize)
    (available blockStart : Int) : FloatContext × PlacedFloat :=
  let range := self.band blockStart (blockStart + size.block) available
  if range.2 - range.1 ≥ size.inline then
    let inlineStart :=
      match side with
      | .start => range.1
      | .end => range.2 - size.inline
    self.push side inlineStart blockStart size
  else
    match _h : self.nextEdgeBelow blockStart with
    | none =>
        -- wider than the container: placed at its edge, overflowing
        let inlineStart :=
          match side with
          | .start => 0
          | .end => available - size.inline
        self.push side inlineStart blockStart size
    | some next => self.placeFrom side size available next
termination_by (self.edgesBelow blockStart).length
decreasing_by exact edgesBelow_next _h

/-- Place a float of margin-box `size` no earlier than `floor`, and return its margin box. -/
def FloatContext.place (self : FloatContext) (side : FloatSide) (size : LogicalSize)
    (floor available : Int) : FloatContext × PlacedFloat :=
  self.placeFrom side size available floor

/-! ## Where a float lands -/

/-- A float to be placed. -/
structure Call where
  side : FloatSide
  size : LogicalSize
  floor : Int
  deriving DecidableEq, Repr

/-- The room at a block position, across the whole height of the float. -/
def FloatContext.roomFor (self : FloatContext) (c : Call) (available b : Int) : Int :=
  self.room b (b + c.size.block) available

/-- The block positions the float may take at which it fits. -/
def FloatContext.fitting (self : FloatContext) (c : Call) (available : Int) : Set Int :=
  { b | c.floor ≤ b ∧ c.size.inline ≤ self.roomFor c available b }

/-- The block positions the float may take below every earlier float. -/
def FloatContext.clear (self : FloatContext) (c : Call) : Set Int :=
  { b | c.floor ≤ b ∧ ∀ f ∈ self.floats, f.blockEnd ≤ b }

/-- The float touches its own side of the range free at its position. -/
def PlacedFloat.TouchesSide (p : PlacedFloat) (range : Int × Int) : Prop :=
  match p.side with
  | .start => p.inlineStart = range.1
  | .end => p.inlineEnd = range.2

/-- What the search finds for a float: the first position at which it fits, or, if there is
none, the first one below every float. -/
structure Lands (context : FloatContext) (c : Call) (available : Int) (p : PlacedFloat) : Prop where
  side_eq : p.side = c.side
  inline_size : p.inlineEnd = p.inlineStart + c.size.inline
  block_size : p.blockEnd = p.blockStart + c.size.block
  position : IsLeast (context.fitting c available) p.blockStart ∨
    available < c.size.inline ∧ context.fitting c available = ∅ ∧ IsLeast (context.clear c) p.blockStart
  touches : p.TouchesSide (context.band p.blockStart p.blockEnd available)

section Search

variable {self : FloatContext} {c : Call} {available : Int}

/-- Nothing changes for the better before the next bottom edge. -/
theorem roomFor_until_next {b b' : Int} (hle : b ≤ b')
    (hnext : ∀ f ∈ self.floats, b < f.blockEnd → b' < f.blockEnd) :
    self.roomFor c available b' ≤ self.roomFor c available b :=
  room_anti fun f hf hm => ⟨hnext f hf hm.1, hm.2.trans_le (Int.add_le_add_right hle _)⟩

theorem roomFor_of_clear (c : Call) (hwidth : 0 ≤ available) {b : Int}
    (hclear : ∀ f ∈ self.floats, f.blockEnd ≤ b) : self.roomFor c available b = available := by
  have hband := band_of_clear self b (b + c.size.block) hwidth
    fun f hf hm => Int.not_lt.mpr (hclear f hf) hm.1
  rw [FloatContext.roomFor, FloatContext.room, hband]
  exact Int.sub_zero _

/-- The search has come to `b`: no position before it fits, and it is the floor or the bottom
edge of a float. -/
structure Searched (context : FloatContext) (c : Call) (available b : Int) : Prop where
  floor_le : c.floor ≤ b
  none_before : ∀ b', c.floor ≤ b' → b' < b → context.roomFor c available b' < c.size.inline
  edge : b = c.floor ∨ ∃ f ∈ context.floats, f.blockEnd = b

theorem Searched.next {b next : Int} (h : Searched self c available b)
    (hroom : self.roomFor c available b < c.size.inline) (hnext : self.nextEdgeBelow b = some next) :
    Searched self c available next := by
  obtain ⟨hedge, hlt, hleast⟩ := nextEdgeBelow_eq_some hnext
  refine ⟨h.floor_le.trans hlt.le, fun b' hfloor hb' => ?_, .inr hedge⟩
  rcases Int.lt_or_le b' b with hbefore | hafter
  · exact h.none_before b' hfloor hbefore
  · exact (roomFor_until_next hafter fun f hf hb => hb'.trans_le (hleast f hf hb)).trans_lt hroom

theorem Searched.lands_fitting {b : Int} (h : Searched self c available b)
    (hroom : c.size.inline ≤ self.roomFor c available b) {x : Int}
    (hx : x = match c.side with
      | .start => (self.band b (b + c.size.block) available).1
      | .end => (self.band b (b + c.size.block) available).2 - c.size.inline) :
    Lands self c available (self.push c.side x b c.size).2 where
  side_eq := rfl
  inline_size := rfl
  block_size := rfl
  position := .inl ⟨⟨h.floor_le, hroom⟩, fun b' hb' =>
    Int.not_lt.mp fun hlt => Int.not_lt.mpr hb'.2 (h.none_before b' hb'.1 hlt)⟩
  touches := by
    cases hside : c.side <;> simp only [hside, PlacedFloat.TouchesSide, FloatContext.push] at hx ⊢ <;> omega

theorem Searched.lands_clear {b : Int} (hwidth : 0 ≤ available) (h : Searched self c available b)
    (hroom : self.roomFor c available b < c.size.inline) (hnone : self.nextEdgeBelow b = none) {x : Int}
    (hx : x = match c.side with
      | .start => 0
      | .end => available - c.size.inline) :
    Lands self c available (self.push c.side x b c.size).2 := by
  have hclear := nextEdgeBelow_eq_none hnone
  have havail := roomFor_of_clear c hwidth hclear
  constructor
  case side_eq => rfl
  case inline_size => rfl
  case block_size => rfl
  case position =>
    refine .inr ⟨by omega, Set.eq_empty_iff_forall_notMem.mpr fun b' hb' => ?_, ⟨h.floor_le, hclear⟩, ?_⟩
    · refine Int.not_lt.mpr hb'.2 ?_
      rcases Int.lt_or_le b' b with hbefore | hafter
      · exact h.none_before b' hb'.1 hbefore
      · rw [roomFor_of_clear c hwidth fun f hf => (hclear f hf).trans hafter, ← havail]
        exact hroom
    · rintro b' ⟨hfloor, hb'⟩
      rcases h.edge with rfl | ⟨f, hf, rfl⟩
      · exact hfloor
      · exact hb' f hf
  case touches =>
    have hband := band_of_clear self b (b + c.size.block) hwidth
      fun f hf hm => Int.not_lt.mpr (hclear f hf) hm.1
    cases hside : c.side <;>
      simp only [hside, PlacedFloat.TouchesSide, FloatContext.push, hband] at hx ⊢ <;> omega

/-- Every position the loop tries is one it has come to. -/
theorem placeFrom_lands (hwidth : 0 ≤ available) {b : Int} (h : Searched self c available b) :
    Lands self c available (self.placeFrom c.side c.size available b).2 := by
  induction b using FloatContext.placeFrom.induct self c.side c.size available with
  | case1 b range hfits =>
      rw [FloatContext.placeFrom.eq_def]
      dsimp only
      rw [if_pos hfits]
      exact h.lands_fitting hfits rfl
  | case2 b range hnarrow hnone =>
      rw [FloatContext.placeFrom.eq_def]
      dsimp only
      rw [if_neg hnarrow]
      split
      · exact h.lands_clear hwidth (Int.not_le.mp hnarrow) hnone rfl
      · rename_i hsome
        rw [hnone] at hsome
        cases hsome
  | case3 b range hnarrow next hnext ih =>
      rw [FloatContext.placeFrom.eq_def]
      dsimp only
      rw [if_neg hnarrow]
      split
      · rename_i hnone
        rw [hnext] at hnone
        cases hnone
      · rename_i next' hsome
        rw [hnext] at hsome
        cases hsome
        exact ih (h.next (Int.not_le.mp hnarrow) hnext)

/-- **The search** finds the first position at which the float fits, or the first one below
every float. -/
theorem place_lands (hwidth : 0 ≤ available) (self : FloatContext) (c : Call) :
    Lands self c available (self.place c.side c.size c.floor available).2 :=
  placeFrom_lands hwidth ⟨Int.le_refl _, fun _ hle hlt => absurd hlt (Int.not_lt.mpr hle), .inl rfl⟩

theorem placeFrom_eq_push (self : FloatContext) (side : FloatSide) (size : LogicalSize)
    (available b : Int) : ∃ x b', self.placeFrom side size available b = self.push side x b' size := by
  induction b using FloatContext.placeFrom.induct self side size available with
  | case1 b range hfits =>
      rw [FloatContext.placeFrom.eq_def]
      dsimp only
      rw [if_pos hfits]
      exact ⟨_, _, rfl⟩
  | case2 b range hnarrow hnone =>
      rw [FloatContext.placeFrom.eq_def]
      dsimp only
      rw [if_neg hnarrow]
      split
      · exact ⟨_, _, rfl⟩
      · rename_i hsome
        rw [hnone] at hsome
        cases hsome
  | case3 b range hnarrow next hnext ih =>
      rw [FloatContext.placeFrom.eq_def]
      dsimp only
      rw [if_neg hnarrow]
      split
      · exact ⟨_, _, rfl⟩
      · rename_i next' hsome
        rw [hnext] at hsome
        cases hsome
        exact ih

/-- A placed float is recorded after the earlier ones. -/
theorem place_floats (self : FloatContext) (side : FloatSide) (size : LogicalSize) (floor available : Int) :
    (self.place side size floor available).1.floats =
      self.floats ++ [(self.place side size floor available).2] := by
  obtain ⟨x, b, h⟩ := placeFrom_eq_push self side size available floor
  rw [FloatContext.place, h]
  rfl

end Search

/-! ## Floats do not overlap -/

/-- The margin box has positive area. -/
def PlacedFloat.HasArea (f : PlacedFloat) : Prop := f.inlineStart < f.inlineEnd ∧ f.blockStart < f.blockEnd

/-- The two margin boxes have a point in common inside both. -/
def PlacedFloat.Overlaps (f g : PlacedFloat) : Prop :=
  (f.inlineStart < g.inlineEnd ∧ g.inlineStart < f.inlineEnd) ∧ g.Meets f.blockStart f.blockEnd

/-- Margin boxes of positive area do not overlap. -/
def PlacedFloat.Apart (f g : PlacedFloat) : Prop := f.HasArea → g.HasArea → ¬ f.Overlaps g

/-- The box is inside the container, or it is wider than it and beside no earlier float. -/
def FloatContext.Contains (self : FloatContext) (c : Call) (available : Int) (p : PlacedFloat) : Prop :=
  (0 ≤ p.inlineStart ∧ p.inlineEnd ≤ available) ∨
    (available < c.size.inline ∧ ∀ f ∈ self.floats, ¬ f.Meets p.blockStart p.blockEnd)

/-- A float of no width whose floor is beside an inline-start float that sticks out of the
container. -/
def FloatContext.BesideOverflow (self : FloatContext) (c : Call) (available : Int) : Prop :=
  c.size.inline = 0 ∧ ∃ f ∈ self.floats, f.side = .start ∧ f.Meets c.floor (c.floor + c.size.block) ∧
    available < f.inlineEnd

instance (self : FloatContext) (c : Call) (available : Int) : Decidable (self.BesideOverflow c available) :=
  inferInstanceAs (Decidable (_ ∧ _))

namespace Lands

variable {context : FloatContext} {c : Call} {available : Int} {p : PlacedFloat}

section

variable (h : Lands context c available p)

include h

theorem roomFor_eq :
    context.roomFor c available p.blockStart = context.room p.blockStart p.blockEnd available := by
  rw [FloatContext.roomFor, ← h.block_size]

/-- Where the float fits, its box is within the free range. -/
theorem within (hfits : c.size.inline ≤ context.roomFor c available p.blockStart) :
    (context.band p.blockStart p.blockEnd available).1 ≤ p.inlineStart ∧
      p.inlineEnd ≤ (context.band p.blockStart p.blockEnd available).2 := by
  have htouch := h.touches
  have hsize := h.inline_size
  rw [h.roomFor_eq, FloatContext.room] at hfits
  cases hside : p.side <;> simp only [PlacedFloat.TouchesSide, hside] at htouch <;> omega

theorem apart {f : PlacedFloat} (hf : f ∈ context.floats) : f.Apart p := by
  intro _ ⟨hwide, _⟩ ⟨⟨hleft, hright⟩, hvert⟩
  have hmeets : f.Meets p.blockStart p.blockEnd := ⟨hvert.2, hvert.1⟩
  rcases h.position with hfits | ⟨_, _, hclear⟩
  · have hfits := hfits.1.2
    obtain ⟨hlo, hhi⟩ := h.within hfits
    have hopen : 0 < context.room p.blockStart p.blockEnd available := by
      have := h.inline_size
      rw [← h.roomFor_eq]
      omega
    cases hside : f.side
    case start =>
      have := inlineEnd_le_band available hf hside hmeets
      omega
    case «end» =>
      have := band_le_inlineStart hopen hf hside hmeets
      omega
  · exact absurd hmeets.1 (Int.not_lt.mpr (hclear.1.2 f hf))

/-- A float of no width stays at its floor. -/
theorem at_floor (hwidth : 0 ≤ available) (hzero : c.size.inline = 0) : p.blockStart = c.floor := by
  rcases h.position with ⟨hmem, hleast⟩ | ⟨hwide, _⟩
  · have hfloor : c.floor ∈ context.fitting c available :=
      ⟨Int.le_refl _, hzero.trans_le (room_nonneg ..)⟩
    exact Int.le_antisymm (hleast hfloor) hmem.1
  · omega

/-- **The float stays in the container** exactly when it is no empty one beside an overflow. -/
theorem contains_iff (hwidth : 0 ≤ available) (hsize : 0 ≤ c.size.inline) :
    context.Contains c available p ↔ ¬ context.BesideOverflow c available := by
  constructor
  · rintro (⟨_, hin⟩ | ⟨hwide, _⟩) ⟨hzero, f, hf, hside, hmeets, hout⟩
    · have hfloor := h.at_floor hwidth hzero
      have hle := inlineEnd_le_band available hf hside hmeets
      have hfits : c.size.inline ≤ context.roomFor c available p.blockStart :=
        hzero.trans_le (room_nonneg ..)
      have hlo := (h.within hfits).1
      rw [h.block_size, hfloor] at hlo
      have := h.inline_size
      omega
    · omega
  · intro hno
    rcases h.position with hfits | ⟨hwide, _, hclear⟩
    · have hfits := hfits.1.2
      obtain ⟨hlo, hhi⟩ := h.within hfits
      have hstart := band_start_nonneg context p.blockStart p.blockEnd available
      refine .inl ⟨hstart.trans hlo, ?_⟩
      rcases Int.lt_or_eq_of_le (room_nonneg context p.blockStart p.blockEnd available) with hopen | hempty
      · exact hhi.trans (band_le_available hopen)
      · rw [h.roomFor_eq, ← hempty] at hfits
        have hzero : c.size.inline = 0 := by omega
        have hedge : (context.band p.blockStart p.blockEnd available).1 ≤ available := by
          rw [h.block_size, h.at_floor hwidth hzero]
          exact (band_start_le _).mpr ⟨hwidth, fun f hf hside hmeets =>
            Int.not_lt.mp fun hout => hno ⟨hzero, f, hf, hside, hmeets, hout⟩⟩
        rw [FloatContext.room] at hempty
        omega
    · exact .inr ⟨hwide, fun f hf hmeets => Int.not_lt.mpr (hclear.1.2 f hf) hmeets.1⟩

end

end Lands

/-! ## Every sequence of floats -/

/-- Place one float after the others. -/
def FloatContext.placed (available : Int) (self : FloatContext) (c : Call) : FloatContext :=
  (self.place c.side c.size c.floor available).1

/-- The context after a sequence of floats. -/
def placeAll (available : Int) (calls : List Call) : FloatContext :=
  Lib.runFrom (FloatContext.placed available) ⟨[]⟩ calls

/-- The band is a range, and no float that meets the block range has a point in it. -/
structure FloatContext.BandFree (self : FloatContext) (available b₀ b₁ : Int) : Prop where
  nonneg : 0 ≤ (self.band b₀ b₁ available).1
  ordered : (self.band b₀ b₁ available).1 ≤ (self.band b₀ b₁ available).2
  free : ∀ f ∈ self.floats, f.Meets b₀ b₁ → ∀ x, (self.band b₀ b₁ available).1 ≤ x →
    x < (self.band b₀ b₁ available).2 → ¬ (f.inlineStart ≤ x ∧ x < f.inlineEnd)

theorem bandFree (self : FloatContext) (available b₀ b₁ : Int) : self.BandFree available b₀ b₁ := by
  have hroom := room_nonneg self b₀ b₁ available
  refine ⟨band_start_nonneg .., by rw [FloatContext.room] at hroom; omega, ?_⟩
  rintro f hf hmeets x hlo hhi ⟨hstart, hend⟩
  cases hside : f.side
  case start =>
    have := inlineEnd_le_band available hf hside hmeets
    omega
  case «end» =>
    have hopen : 0 < self.room b₀ b₁ available := by
      rw [FloatContext.room]
      omega
    have := band_le_inlineStart hopen hf hside hmeets
    omega

theorem placed_apart {available : Int} (hwidth : 0 ≤ available) (self : FloatContext) (c : Call)
    (h : self.floats.Pairwise PlacedFloat.Apart) :
    (self.placed available c).floats.Pairwise PlacedFloat.Apart := by
  rw [FloatContext.placed, place_floats, List.pairwise_append]
  refine ⟨h, List.pairwise_singleton _ _, fun f hf p hp => ?_⟩
  rw [List.mem_singleton.mp hp]
  exact (place_lands hwidth self c).apart hf

/-- Whatever is placed, no two boxes of positive area overlap. -/
theorem placeAll_apart {available : Int} (hwidth : 0 ≤ available) (calls : List Call) :
    (placeAll available calls).floats.Pairwise PlacedFloat.Apart :=
  Lib.run_keeps (fun context c => placed_apart hwidth context c) .nil calls

/-- What a sequence of floats should end in. -/
structure Placements (available : Int) (calls : List Call) : Prop where
  apart : (placeAll available calls).floats.Pairwise PlacedFloat.Apart
  lands : ∀ past c later, calls = past ++ c :: later →
    Lands (placeAll available past) c available
      ((placeAll available past).place c.side c.size c.floor available).2
  contains : ∀ past c later, calls = past ++ c :: later →
    (placeAll available past).Contains c available
      ((placeAll available past).place c.side c.size c.floor available).2
  bandFree : ∀ b₀ b₁, (placeAll available calls).BandFree available b₀ b₁

end Pelorus.Layout
