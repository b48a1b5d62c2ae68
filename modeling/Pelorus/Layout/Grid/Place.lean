import Mathlib.Order.Lattice
import Mathlib.Data.Prod.Lex
import Mathlib.Order.Bounds.Basic
import Pelorus.Layout.Grid.Tracks
import Pelorus.Lib.Updates

/-
  Layout/Grid/Place.lean --- grid item placement.

  Three walks over the items: those definite in both axes; those locked to a major line, each
  at the first free minor line; and the rest, with the auto-placement cursor.  What is taken
  is kept as intervals of each major line, and every step of a search spends fuel.

  The searches are described by what they return while fuel is left and the bound is not
  reached: the least free position at or after the one they start from.
-/
set_option autoImplicit false

/-
  What the placement properties of a grid item resolve to in an axis.

  Lines are numbered from 1 and every line is clamped to `MAX_LINES` in magnitude, which keeps
  the saturating sums of the code away from the ends of `i32`.  A span carries that it is at
  least 1 and at most `MAX_LINES`; whatever the properties and the line names, `resolveAxis`
  returns such a span.
-/

namespace Pelorus.Layout.Grid

/-- The largest line number magnitude, and the largest span. -/
def MAX_LINES : Int := 10000

/-- A number of tracks to cover. -/
def Span : Type := { n : Int // 1 ≤ n ∧ n ≤ MAX_LINES }
  deriving DecidableEq

instance : Coe Span Int := ⟨Subtype.val⟩

theorem Span.pos (s : Span) : 1 ≤ (s : Int) := s.property.1

/-- `clamp(1, MAX_LINES)`. -/
def Span.clamp (n : Int) : Span :=
  ⟨max 1 (min n MAX_LINES), le_max_left _ _, max_le (by decide) (min_le_right _ _)⟩

/-- A placement in one axis. -/
inductive Resolved where
  | definite (start : Int) (span : Span)
  | auto (span : Span)
  deriving DecidableEq

end Pelorus.Layout.Grid

namespace Pelorus.Layout.Grid

/-- One item's placement in both axes, major first. -/
structure ItemPlace where
  major : Resolved
  minor : Resolved
  deriving DecidableEq

/-- An item's final lines. -/
structure Placed where
  majorStart : Int
  majorSpan : Span
  minorStart : Int
  minorSpan : Span
  deriving DecidableEq

def Placed.majorEnd (p : Placed) : Int := p.majorStart + p.majorSpan

def Placed.minorEnd (p : Placed) : Int := p.minorStart + p.minorSpan

/-- The lines from `start` on, as many as the span. -/
def linesOf (start : Int) (span : Span) : List Int :=
  (List.range span.val.toNat).map fun k : Nat => start + k

theorem mem_linesOf {start row : Int} {span : Span} :
    row ∈ linesOf start span ↔ start ≤ row ∧ row < start + span := by
  rw [linesOf, List.mem_map]
  constructor
  · rintro ⟨k, hk, rfl⟩
    have := List.mem_range.mp hk
    omega
  · rintro ⟨hle, hlt⟩
    exact ⟨(row - start).toNat, List.mem_range.mpr (by omega), by omega⟩

/-! ## Which cells are taken -/

/-- For each major line, the occupied minor intervals: none where the map has no entry. -/
structure Occupancy where
  rows : Int → List (Int × Int)

def Occupancy.empty : Occupancy := ⟨fun _ => []⟩

/-- Whether an interval of one of the listed lines meets the minor interval. -/
def Occupancy.overlapsIn (self : Occupancy) (minor «end» : Int) : List Int → Fuel → Bool × Fuel
  | [], fuel => (false, fuel)
  | row :: rows, fuel =>
      match fuel.spend 1 with
      | (false, fuel) => (false, fuel)
      | (true, fuel) =>
          match fuel.spend (self.rows row).length with
          | (false, fuel) => (false, fuel)
          | (true, fuel) =>
              if (self.rows row).any fun iv => iv.1 < «end» ∧ minor < iv.2 then (true, fuel)
              else self.overlapsIn minor «end» rows fuel

def Occupancy.overlaps (self : Occupancy) (p : Placed) (fuel : Fuel) : Bool × Fuel :=
  self.overlapsIn p.minorStart p.minorEnd (linesOf p.majorStart p.majorSpan) fuel

def Occupancy.push (self : Occupancy) (row : Int) (iv : Int × Int) : Occupancy :=
  ⟨fun r => if r = row then self.rows r ++ [iv] else self.rows r⟩

def Occupancy.insertIn (self : Occupancy) (iv : Int × Int) : List Int → Fuel → Occupancy × Fuel
  | [], fuel => (self, fuel)
  | row :: rows, fuel =>
      match fuel.spend 1 with
      | (false, fuel) => (self, fuel)
      | (true, fuel) => (self.push row iv).insertIn iv rows fuel

def Occupancy.insert (self : Occupancy) (p : Placed) (fuel : Fuel) : Occupancy × Fuel :=
  self.insertIn (p.minorStart, p.minorEnd) (linesOf p.majorStart p.majorSpan) fuel

/-! ## The searches -/

/-- The next position that is not taken, if it is below `MAX_LINES`. -/
def seek (taken : Int → Fuel → Bool × Fuel) (c : Int) (fuel : Fuel) : Int × Fuel :=
  if c < MAX_LINES then
    match taken c fuel with
    | (true, fuel) => seek taken (c + 1) fuel
    | (false, fuel) => (c, fuel)
  else (c, fuel)
termination_by (MAX_LINES - c).toNat

/-- The next free position on a line at which the span ends by `hi`. -/
def scanLine (taken : Int → Fuel → Bool × Fuel) (span : Span) (hi c : Int) (fuel : Fuel) :
    Option Int × Fuel :=
  if c + span ≤ hi then
    match taken c fuel with
    | (false, fuel) => (some c, fuel)
    | (true, fuel) => scanLine taken span hi (c + 1) fuel
  else (none, fuel)
termination_by (hi + 1 - span - c).toNat
decreasing_by omega

/-- The next free cell from the cursor on: along its line, then along the ones after it. -/
def seekCell (taken : Int → Int → Fuel → Bool × Fuel) (span : Span) (lo hi major minor : Int)
    (fuel : Fuel) : (Int × Int) × Fuel :=
  match scanLine (taken major) span hi minor fuel with
  | (some c, fuel) => ((major, c), fuel)
  | (none, fuel) =>
      if major + 1 ≥ MAX_LINES then ((major + 1, lo), fuel)
      else seekCell taken span lo hi (major + 1) lo fuel
termination_by (MAX_LINES - major).toNat

/-! ## The walks -/

/-- Step 1: anything not auto-positioned. -/
def placeDefinite (s : Occupancy × Fuel) (item : ItemPlace) : (Occupancy × Fuel) × Option Placed :=
  match item.major, item.minor with
  | .definite ms mspan, .definite ns nspan =>
      let p : Placed := ⟨ms, mspan, ns, nspan⟩
      (s.1.insert p s.2, some p)
  | _, _ => (s, none)

/-- What is carried through step 2: `lastInLine` is, for each major line, the end of the last
item locked to it. -/
structure LockedState where
  occupied : Occupancy
  lastInLine : Int → Option Int
  fuel : Fuel

/-- Where the search for an item locked to major lines starts: in sparse packing after the last
one on any of them. -/
def LockedState.cursor (s : LockedState) (dense : Bool) (ms : Int) (mspan : Span) : Int :=
  if dense then 1
  else (linesOf ms mspan).foldl (fun c row => match s.lastInLine row with
    | some «end» => max c «end»
    | none => c) 1

/-- Step 2: items locked to a major line. -/
def placeLocked (dense : Bool) (s : LockedState) (slot : ItemPlace × Option Placed) :
    LockedState × Option Placed :=
  match slot.1.major, slot.1.minor with
  | .definite ms mspan, .auto nspan =>
      let (c, fuel) := seek (fun c => s.occupied.overlaps ⟨ms, mspan, c, nspan⟩)
        (s.cursor dense ms mspan) s.fuel
      let p : Placed := ⟨ms, mspan, c, nspan⟩
      let (occupied, fuel) := s.occupied.insert p fuel
      let lastInLine :=
        if dense then s.lastInLine
        else fun row => if row ∈ linesOf ms mspan then some (c + nspan) else s.lastInLine row
      (⟨occupied, lastInLine, fuel⟩, some p)
  | _, _ => (s, slot.2)

/-- The lines of the implicit grid that the cursor respects. -/
structure Range where
  minorLo : Int
  minorHi : Int
  majorLo : Int
  deriving DecidableEq, Repr

def Range.extend (r : Range) (slot : ItemPlace × Option Placed) : Range :=
  match slot.2 with
  | some p => ⟨min r.minorLo p.minorStart, max r.minorHi p.minorEnd, min r.majorLo p.majorStart⟩
  | none =>
      let r : Range :=
        match slot.1.minor with
        | .definite start span => ⟨min r.minorLo start, max r.minorHi (start + span), r.majorLo⟩
        | .auto _ => r
      match slot.1.major with
      | .definite start _ => ⟨r.minorLo, r.minorHi, min r.majorLo start⟩
      | .auto _ => r

/-- The largest span, on the minor axis, of the items still to place. -/
def widest (slots : List (ItemPlace × Option Placed)) : Int :=
  ((slots.filter fun slot => slot.2.isNone).filterMap fun slot =>
    match slot.1.minor with
    | .auto span => some (span : Int)
    | .definite .. => none).foldl max 0

/-- Step 3: the minor axis of the implicit grid. -/
def implicitRange (slots : List (ItemPlace × Option Placed)) (explicitMinor : Int) : Range :=
  let r := slots.foldl Range.extend ⟨1, explicitMinor + 1, 1⟩
  if r.minorHi - r.minorLo < widest slots then { r with minorHi := r.minorLo + widest slots } else r

/-- What is carried through step 4. -/
structure CursorState where
  occupied : Occupancy
  major : Int
  minor : Int
  fuel : Fuel

/-- Step 4: everything else, with the auto-placement cursor. -/
def placeCursor (r : Range) (dense : Bool) (s : CursorState) (slot : ItemPlace × Option Placed) :
    CursorState × Option Placed :=
  match slot.2, slot.1.major with
  | some p, _ => (s, some p)
  | none, .definite .. => (s, none)
  | none, .auto mspan =>
      match slot.1.minor with
      | .definite start span =>
          let major := if dense then r.majorLo else if start < s.minor then s.major + 1 else s.major
          let (major, fuel) := seek (fun m => s.occupied.overlaps ⟨m, mspan, start, span⟩) major s.fuel
          let p : Placed := ⟨major, mspan, start, span⟩
          let (occupied, fuel) := s.occupied.insert p fuel
          (⟨occupied, major, start, fuel⟩, some p)
      | .auto span =>
          let major := if dense then r.majorLo else s.major
          let minor := if dense then r.minorLo else s.minor
          let ((major, minor), fuel) :=
            seekCell (fun m c => s.occupied.overlaps ⟨m, mspan, c, span⟩) span r.minorLo r.minorHi
              major minor s.fuel
          let p : Placed := ⟨major, mspan, minor, span⟩
          let (occupied, fuel) := s.occupied.insert p fuel
          (⟨occupied, major, minor, fuel⟩, some p)

/-- The result: every item's area and the extent of the implicit grid. -/
structure Placement where
  placed : List Placed
  majorLines : Int × Int
  minorLines : Int × Int
  deriving DecidableEq

/-- The items after step 2, with what is taken and the fuel left. -/
def lockedPass (items : List ItemPlace) (dense : Bool) (fuel : Fuel) :
    LockedState × List (ItemPlace × Option Placed) :=
  let (s, out) := Lib.mapAccum placeDefinite (Occupancy.empty, fuel) items
  let slots := items.zip out
  let (s, out) := Lib.mapAccum (placeLocked dense) ⟨s.1, fun _ => none, s.2⟩ slots
  (s, items.zip out)

/-- The lines of one axis, stretched to an area. -/
def stretch (lines : Int × Int) (start «end» : Int) : Int × Int := (min lines.1 start, max lines.2 «end»)

def onePlaced : Placed := ⟨1, Span.clamp 1, 1, Span.clamp 1⟩

/-- Run the placement algorithm over items in order-modified document order. -/
def place (items : List ItemPlace) (explicitMajor explicitMinor : Int) (dense : Bool) (fuel : Fuel) :
    Placement × Fuel :=
  let (s, slots) := lockedPass items dense fuel
  let r := implicitRange slots explicitMinor
  let (s, out) := Lib.mapAccum (placeCursor r dense) ⟨s.occupied, r.majorLo, r.minorLo, s.fuel⟩ slots
  let placed := out.map fun p => p.getD onePlaced
  (⟨placed, placed.foldl (fun lines p => stretch lines p.majorStart p.majorEnd) (1, explicitMajor + 1),
    placed.foldl (fun lines p => stretch lines p.minorStart p.minorEnd) (1, explicitMinor + 1)⟩, s.fuel)

/-! ## What is taken -/

/-- The two areas have a cell in common. -/
def Placed.Overlaps (p q : Placed) : Prop :=
  (p.majorStart < q.majorEnd ∧ q.majorStart < p.majorEnd) ∧ p.minorStart < q.minorEnd ∧ q.minorStart < p.minorEnd

theorem Placed.Overlaps.symm {p q : Placed} (h : p.Overlaps q) : q.Overlaps p :=
  ⟨h.1.symm, h.2.symm⟩

theorem exists_mem_linesOf {a b : Int} {s t : Span} :
    (∃ row ∈ linesOf a s, row ∈ linesOf b t) ↔ a < b + t ∧ b < a + s := by
  have := s.pos
  have := t.pos
  simp only [mem_linesOf]
  constructor
  · rintro ⟨row, ⟨_, _⟩, _, _⟩
    omega
  · intro h
    exact ⟨max a b, by omega, by omega⟩

/-- The intervals of each line are those of the listed areas that cross it. -/
def Occupancy.Records (self : Occupancy) (ps : List Placed) : Prop :=
  ∀ row iv, iv ∈ self.rows row ↔ ∃ p ∈ ps, row ∈ linesOf p.majorStart p.majorSpan ∧ iv = (p.minorStart, p.minorEnd)

theorem records_empty : Occupancy.empty.Records [] := by
  intro row iv
  simp [Occupancy.empty]

/-- Spending leaves no more than there was; while something is left, it succeeded. -/
theorem Fuel.spend_cases (fuel : Fuel) (amount : Nat) :
    (fuel.spend amount = (false, ⟨0⟩)) ∨
      (fuel.spend amount = (true, ⟨fuel.left - amount⟩) ∧ amount ≤ fuel.left) := by
  rw [Fuel.spend]
  split
  · exact .inl rfl
  · exact .inr ⟨rfl, by omega⟩

theorem overlapsIn_left_le (self : Occupancy) (minor «end» : Int) (rows : List Int) :
    ∀ fuel, (self.overlapsIn minor «end» rows fuel).2.left ≤ fuel.left := by
  induction rows with
  | nil => exact fun _ => Nat.le_refl _
  | cons row rows ih =>
      intro fuel
      rw [Occupancy.overlapsIn]
      rcases fuel.spend_cases 1 with h | ⟨h, _⟩
      · rw [h]
        exact Nat.zero_le _
      · rw [h]
        dsimp only
        rcases Fuel.spend_cases ⟨fuel.left - 1⟩ (self.rows row).length with h' | ⟨h', _⟩
        · rw [h']
          exact Nat.zero_le _
        · rw [h']
          dsimp only
          split
          · exact (Nat.sub_le _ _).trans (Nat.sub_le _ _)
          · exact (ih _).trans ((Nat.sub_le _ _).trans (Nat.sub_le _ _))

/-- While fuel is left every listed line has been looked at. -/
theorem overlapsIn_eq_true (self : Occupancy) (minor «end» : Int) (rows : List Int) :
    ∀ fuel, 0 < (self.overlapsIn minor «end» rows fuel).2.left →
      ((self.overlapsIn minor «end» rows fuel).1 = true ↔
        ∃ row ∈ rows, ∃ iv ∈ self.rows row, iv.1 < «end» ∧ minor < iv.2) := by
  induction rows with
  | nil =>
      intro fuel _
      simp [Occupancy.overlapsIn]
  | cons row rows ih =>
      intro fuel hleft
      rw [Occupancy.overlapsIn] at hleft ⊢
      rcases fuel.spend_cases 1 with h | ⟨h, _⟩
      · rw [h] at hleft
        exact absurd hleft (Nat.lt_irrefl 0)
      · rw [h] at hleft ⊢
        dsimp only at hleft ⊢
        rcases Fuel.spend_cases ⟨fuel.left - 1⟩ (self.rows row).length with h' | ⟨h', _⟩
        · rw [h'] at hleft
          exact absurd hleft (Nat.lt_irrefl 0)
        · rw [h'] at hleft ⊢
          dsimp only at hleft ⊢
          split
          · rename_i hany
            obtain ⟨iv, hiv, hmeet⟩ := List.any_eq_true.mp hany
            exact ⟨fun _ => ⟨row, List.mem_cons_self, iv, hiv, of_decide_eq_true hmeet⟩, fun _ => rfl⟩
          · rename_i hany
            rw [if_neg hany] at hleft
            rw [ih _ hleft]
            constructor
            · rintro ⟨row', hrow', h⟩
              exact ⟨row', List.mem_cons_of_mem _ hrow', h⟩
            · rintro ⟨row', hrow', iv, hiv, hmeet⟩
              rcases List.mem_cons.mp hrow' with rfl | hrow'
              · exact absurd (List.any_eq_true.mpr ⟨iv, hiv, decide_eq_true hmeet⟩) hany
              · exact ⟨row', hrow', iv, hiv, hmeet⟩

theorem insertIn_left_le (iv : Int × Int) (rows : List Int) :
    ∀ (self : Occupancy) fuel, (self.insertIn iv rows fuel).2.left ≤ fuel.left := by
  induction rows with
  | nil => exact fun _ _ => Nat.le_refl _
  | cons row rows ih =>
      intro self fuel
      rw [Occupancy.insertIn]
      rcases fuel.spend_cases 1 with h | ⟨h, _⟩
      · rw [h]
        exact Nat.zero_le _
      · rw [h]
        exact (ih _ _).trans (Nat.sub_le _ _)

theorem mem_insertIn (iv : Int × Int) (rows : List Int) :
    ∀ (self : Occupancy) fuel, 0 < (self.insertIn iv rows fuel).2.left → ∀ row iv',
      (iv' ∈ (self.insertIn iv rows fuel).1.rows row ↔ iv' ∈ self.rows row ∨ row ∈ rows ∧ iv' = iv) := by
  induction rows with
  | nil =>
      intro self fuel _ row iv'
      simp [Occupancy.insertIn]
  | cons r rows ih =>
      intro self fuel hleft row iv'
      rw [Occupancy.insertIn] at hleft ⊢
      rcases fuel.spend_cases 1 with h | ⟨h, _⟩
      · rw [h] at hleft
        exact absurd hleft (Nat.lt_irrefl 0)
      · rw [h] at hleft ⊢
        dsimp only at hleft ⊢
        rw [ih _ _ hleft, Occupancy.push]
        dsimp only
        split
        · rename_i hrow
          subst hrow
          simp only [List.mem_append, List.mem_cons, true_or, true_and]
          tauto
        · rename_i hrow
          simp [hrow]

section Records

variable {self : Occupancy} {ps : List Placed}

/-- **The overlap test** asks whether one of the recorded areas is in the way. -/
theorem Occupancy.Records.overlaps (h : self.Records ps) (p : Placed) {fuel : Fuel}
    (hleft : 0 < (self.overlaps p fuel).2.left) :
    (self.overlaps p fuel).1 = true ↔ ∃ q ∈ ps, q.Overlaps p := by
  rw [Occupancy.overlaps] at hleft ⊢
  rw [overlapsIn_eq_true _ _ _ _ _ hleft]
  constructor
  · rintro ⟨row, hrow, iv, hiv, hmeet⟩
    obtain ⟨q, hq, hline, rfl⟩ := (h row iv).mp hiv
    exact ⟨q, hq, exists_mem_linesOf.mp ⟨row, hline, hrow⟩, hmeet⟩
  · rintro ⟨q, hq, hmajor, hminor⟩
    obtain ⟨row, hline, hrow⟩ := exists_mem_linesOf.mpr hmajor
    exact ⟨row, hrow, _, (h row _).mpr ⟨q, hq, hline, rfl⟩, hminor⟩

theorem Occupancy.Records.insert (h : self.Records ps) (p : Placed) {fuel : Fuel}
    (hleft : 0 < (self.insert p fuel).2.left) : (self.insert p fuel).1.Records (ps ++ [p]) := by
  intro row iv
  rw [Occupancy.insert] at hleft ⊢
  rw [mem_insertIn _ _ _ _ hleft, h row iv]
  simp only [List.mem_append, List.mem_singleton]
  constructor
  · rintro (⟨q, hq, hline, rfl⟩ | ⟨hline, rfl⟩)
    · exact ⟨q, .inl hq, hline, rfl⟩
    · exact ⟨p, .inr rfl, hline, rfl⟩
  · rintro ⟨q, hq | rfl, hline, rfl⟩
    · exact .inl ⟨q, hq, hline, rfl⟩
    · exact .inr ⟨hline, rfl⟩

end Records

/-! ## What the searches find -/

/-- A test leaves no more fuel than there was. -/
def Spends (taken : Int → Fuel → Bool × Fuel) : Prop := ∀ c fuel, (taken c fuel).2.left ≤ fuel.left

theorem spends_overlaps (self : Occupancy) (area : Int → Placed) : Spends fun c => self.overlaps (area c) :=
  fun _ fuel => overlapsIn_left_le self _ _ _ fuel

/-- A test spends fuel, and tells whether `T` holds while fuel is left. -/
structure Probe (taken : Int → Fuel → Bool × Fuel) (T : Int → Prop) : Prop where
  spends : Spends taken
  reads : ∀ c fuel, 0 < (taken c fuel).2.left → ((taken c fuel).1 = true ↔ T c)

theorem Occupancy.Records.probe {self : Occupancy} {ps : List Placed} (h : self.Records ps)
    (area : Int → Placed) :
    Probe (fun c => self.overlaps (area c)) fun c => ∃ q ∈ ps, q.Overlaps (area c) where
  spends := spends_overlaps self area
  reads := fun c _ hleft => h.overlaps (area c) hleft

section Search

variable {taken : Int → Fuel → Bool × Fuel} {T : Int → Prop} {span : Span} {hi : Int}

theorem seek_left_le (h : Spends taken) (c : Int) (fuel : Fuel) : (seek taken c fuel).2.left ≤ fuel.left := by
  induction c, fuel using seek.induct taken with
  | case1 c fuel hlt fuel' hfree ih =>
      rw [seek, if_pos hlt, hfree]
      have := h c fuel
      rw [hfree] at this
      exact ih.trans this
  | case2 c fuel hlt fuel' htaken =>
      rw [seek, if_pos hlt, htaken]
      have := h c fuel
      rwa [htaken] at this
  | case3 c fuel hge => rw [seek, if_neg hge]

/-- The search finds the least free position from where it starts. -/
theorem seek_isLeast (h : Probe taken T) (c : Int) (fuel : Fuel) (hleft : 0 < (seek taken c fuel).2.left)
    (hlimit : (seek taken c fuel).1 < MAX_LINES) : IsLeast { x | c ≤ x ∧ ¬ T x } (seek taken c fuel).1 := by
  induction c, fuel using seek.induct taken with
  | case1 c fuel hlt fuel' htaken ih =>
      have heq : seek taken c fuel = seek taken (c + 1) fuel' := by rw [seek, if_pos hlt, htaken]
      rw [heq] at hleft hlimit ⊢
      have hT : T c := (h.reads c fuel (by
        rw [htaken]
        exact hleft.trans_le (seek_left_le h.spends _ _))).mp (by rw [htaken])
      obtain ⟨⟨hle, hfree⟩, hleast⟩ := ih hleft hlimit
      refine ⟨⟨by omega, hfree⟩, fun x hx => hleast ⟨?_, hx.2⟩⟩
      rcases Int.lt_or_eq_of_le hx.1 with hlt | rfl
      · exact hlt
      · exact absurd hT hx.2
  | case2 c fuel hlt fuel' hfree =>
      have heq : seek taken c fuel = (c, fuel') := by rw [seek, if_pos hlt, hfree]
      rw [heq] at hleft ⊢
      have hT : ¬ T c := fun hT => by
        have := (h.reads c fuel (by rwa [hfree])).mpr hT
        rw [hfree] at this
        cases this
      exact ⟨⟨Int.le_refl c, hT⟩, fun x hx => hx.1⟩
  | case3 c fuel hge =>
      rw [seek, if_neg hge] at hlimit
      exact absurd hlimit hge

theorem scanLine_left_le (span : Span) (hi : Int) (h : Spends taken) (c : Int) (fuel : Fuel) :
    (scanLine taken span hi c fuel).2.left ≤ fuel.left := by
  induction c, fuel using scanLine.induct taken span hi with
  | case1 c fuel hfits fuel' hfree =>
      rw [scanLine, if_pos hfits, hfree]
      have := h c fuel
      rwa [hfree] at this
  | case2 c fuel hfits fuel' htaken ih =>
      rw [scanLine, if_pos hfits, htaken]
      have := h c fuel
      rw [htaken] at this
      exact ih.trans this
  | case3 c fuel hge => rw [scanLine, if_neg hge]

/-- Along a line: the least free position at which the span fits, or there is none. -/
theorem scanLine_spec (span : Span) (hi : Int) (h : Probe taken T) (c : Int) (fuel : Fuel)
    (hleft : 0 < (scanLine taken span hi c fuel).2.left) :
    match (scanLine taken span hi c fuel).1 with
    | some x => IsLeast { x | c ≤ x ∧ x + span ≤ hi ∧ ¬ T x } x
    | none => ∀ x, c ≤ x → x + span ≤ hi → T x := by
  induction c, fuel using scanLine.induct taken span hi with
  | case1 c fuel hfits fuel' hfree =>
      have heq : scanLine taken span hi c fuel = (some c, fuel') := by rw [scanLine, if_pos hfits, hfree]
      rw [heq] at hleft ⊢
      have hT : ¬ T c := fun hT => by
        have := (h.reads c fuel (by rwa [hfree])).mpr hT
        rw [hfree] at this
        cases this
      exact ⟨⟨Int.le_refl c, hfits, hT⟩, fun x hx => hx.1⟩
  | case2 c fuel hfits fuel' htaken ih =>
      have heq : scanLine taken span hi c fuel = scanLine taken span hi (c + 1) fuel' := by
        rw [scanLine, if_pos hfits, htaken]
      rw [heq] at hleft ⊢
      have hT : T c := (h.reads c fuel (by
        rw [htaken]
        exact hleft.trans_le (scanLine_left_le _ _ h.spends _ _))).mp (by rw [htaken])
      have hrest := ih hleft
      cases hres : (scanLine taken span hi (c + 1) fuel').1 with
      | some x =>
          rw [hres] at hrest
          obtain ⟨⟨hle, hfit, hfree⟩, hleast⟩ := hrest
          refine ⟨⟨by omega, hfit, hfree⟩, fun y hy => hleast ⟨?_, hy.2⟩⟩
          rcases Int.lt_or_eq_of_le hy.1 with hlt | rfl
          · exact hlt
          · exact absurd hT hy.2.2
      | none =>
          rw [hres] at hrest
          intro x hx hfit
          rcases Int.lt_or_eq_of_le hx with hlt | rfl
          · exact hrest x hlt hfit
          · exact hT
  | case3 c fuel hge =>
      rw [scanLine, if_neg hge]
      intro x hx hfit
      omega

theorem seekCell_left_le {taken : Int → Int → Fuel → Bool × Fuel} (h : ∀ m, Spends (taken m)) (lo major minor : Int) (fuel : Fuel) :
    (seekCell taken span lo hi major minor fuel).2.left ≤ fuel.left := by
  induction major, minor, fuel using seekCell.induct taken span lo hi with
  | case1 major minor fuel c fuel' hfound =>
      rw [seekCell, hfound]
      have := scanLine_left_le span hi (h major) minor fuel
      rwa [hfound] at this
  | case2 major minor fuel fuel' hnone hlimit =>
      rw [seekCell, hnone]
      dsimp only
      rw [if_pos hlimit]
      have := scanLine_left_le span hi (h major) minor fuel
      rwa [hnone] at this
  | case3 major minor fuel fuel' hnone hlimit ih =>
      rw [seekCell, hnone]
      dsimp only
      rw [if_neg hlimit]
      have := scanLine_left_le span hi (h major) minor fuel
      rw [hnone] at this
      exact ih.trans this

/-- The free cells of the lines `lo` to `hi`, from a cell on. -/
def freeFrom (T : Int → Int → Prop) (span : Span) (lo hi : Int) (cursor : Int ×ₗ Int) : Set (Int ×ₗ Int) :=
  { pos | cursor ≤ pos ∧ lo ≤ (ofLex pos).2 ∧ (ofLex pos).2 + span ≤ hi ∧ ¬ T (ofLex pos).1 (ofLex pos).2 }

theorem seekCell_isLeast {taken : Int → Int → Fuel → Bool × Fuel} {T : Int → Int → Prop}
    (h : ∀ m, Probe (taken m) (T m)) (lo major minor : Int) (fuel : Fuel) (hlo : lo ≤ minor)
    (hleft : 0 < (seekCell taken span lo hi major minor fuel).2.left)
    (hlimit : (seekCell taken span lo hi major minor fuel).1.1 < MAX_LINES) :
    IsLeast (freeFrom T span lo hi (toLex (major, minor)))
      (toLex (seekCell taken span lo hi major minor fuel).1) := by
  induction major, minor, fuel using seekCell.induct taken span lo hi with
  | case1 major minor fuel c fuel' hfound =>
      rw [seekCell, hfound] at hleft ⊢
      have hscan := scanLine_spec span hi (h major) minor fuel (by rwa [hfound])
      rw [hfound] at hscan
      obtain ⟨⟨hle, hfit, hfree⟩, hleast⟩ := hscan
      refine ⟨⟨Prod.Lex.toLex_le_toLex.mpr (.inr ⟨rfl, hle⟩), hlo.trans hle, hfit, hfree⟩, ?_⟩
      rintro pos ⟨hpos, _, hfit', hfree'⟩
      rw [← toLex_ofLex pos] at hpos ⊢
      rw [Prod.Lex.toLex_le_toLex] at hpos ⊢
      rcases hpos with hlt | ⟨heq, hminor⟩
      · exact .inl hlt
      · dsimp only at heq hminor
        rw [← heq] at hfree'
        exact .inr ⟨heq, hleast ⟨hminor, hfit', hfree'⟩⟩
  | case2 major minor fuel fuel' hnone hend =>
      rw [seekCell, hnone] at hlimit
      dsimp only at hlimit
      rw [if_pos hend] at hlimit
      exact absurd hlimit (Int.not_lt.mpr hend)
  | case3 major minor fuel fuel' hnone hgo ih =>
      have heq : seekCell taken span lo hi major minor fuel =
          seekCell taken span lo hi (major + 1) lo fuel' := by
        rw [seekCell, hnone]
        dsimp only
        rw [if_neg hgo]
      rw [heq] at hleft hlimit ⊢
      have hscan := scanLine_spec span hi (h major) minor fuel (by
        rw [hnone]
        exact hleft.trans_le (seekCell_left_le (fun m => (h m).spends) _ _ _ _))
      rw [hnone] at hscan
      obtain ⟨⟨hafter, hrest⟩, hleast⟩ := ih (Int.le_refl lo) hleft hlimit
      refine ⟨⟨le_trans ?_ hafter, hrest⟩, ?_⟩
      · exact Prod.Lex.toLex_le_toLex.mpr (.inl (Int.lt_succ major))
      · rintro pos ⟨hpos, hlo', hfit, hfree⟩
        refine hleast ⟨?_, hlo', hfit, hfree⟩
        rw [← toLex_ofLex pos] at hpos ⊢
        rw [Prod.Lex.toLex_le_toLex] at hpos ⊢
        dsimp only at hpos ⊢
        rcases hpos with hlt | ⟨heq, hminor⟩
        · rcases Int.lt_or_eq_of_le (show major + 1 ≤ (ofLex pos).1 from hlt) with hlt' | heq'
          · exact .inl hlt'
          · exact .inr ⟨heq', hlo'⟩
        · rw [heq] at hscan
          exact absurd (hscan _ hminor hfit) hfree

end Search

end Pelorus.Layout.Grid
