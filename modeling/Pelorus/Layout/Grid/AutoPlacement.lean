import Mathlib.Data.List.Perm.Basic
import Pelorus.Layout.Grid.Place

/-
  Layout/Grid/AutoPlacement.lean --- what grid placement returns.

  Items are placed in three stages, so the order of placement is not the order of the list.
  Every walk keeps that what is recorded as taken are the areas of the items placed so far;
  an item of the second stage is free of all of them, and one of the third is at the first
  free position at or after the cursor.  The cursor is where the last item of that stage
  starts or, in dense packing, the first cell of the implicit grid.
-/
set_option autoImplicit false

namespace Pelorus.Layout.Grid

/-- When an item is placed. -/
inductive Stage where
  | definite
  | locked
  | cursor
  deriving DecidableEq, Repr

def ItemPlace.stage (item : ItemPlace) : Stage :=
  match item.major, item.minor with
  | .definite .., .definite .. => .definite
  | .definite .., .auto _ => .locked
  | .auto _, _ => .cursor

/-- The axis runs over the lines asked for. -/
def Resolved.Given (r : Resolved) (start : Int) (span : Span) : Prop :=
  match r with
  | .definite s n => start = s ∧ span = n
  | .auto n => span = n

/-- The area has the spans of its item, and the lines of the axes in which it is definite. -/
def Placed.Asked (p : Placed) (item : ItemPlace) : Prop :=
  item.major.Given p.majorStart p.majorSpan ∧ item.minor.Given p.minorStart p.minorSpan

/-- Where an area starts, line by line. -/
def Placed.start (p : Placed) : Int ×ₗ Int := toLex (p.majorStart, p.minorStart)

/-- An area the cursor may come to: automatic lines stay in the implicit grid. -/
def Placed.Suits (p : Placed) (r : Range) (item : ItemPlace) : Prop :=
  p.Asked item ∧ ∀ span, item.minor = .auto span → r.minorLo ≤ p.minorStart ∧ p.minorEnd ≤ r.minorHi

/-- The area is at the first position from the cursor on that is free of the earlier ones. -/
structure FirstFree (r : Range) (before : List Placed) (cursor : Int ×ₗ Int) (item : ItemPlace)
    (p : Placed) : Prop where
  suits : p.Suits r item
  after : cursor ≤ p.start
  free : ∀ q ∈ before, ¬ q.Overlaps p
  least : ∀ p' : Placed, p'.Suits r item → cursor ≤ p'.start → (∀ q ∈ before, ¬ q.Overlaps p') →
    p.start ≤ p'.start

/-! ## One step of each walk -/

theorem insert_left_le (self : Occupancy) (p : Placed) (fuel : Fuel) :
    (self.insert p fuel).2.left ≤ fuel.left := insertIn_left_le _ _ _ _

variable {slot : ItemPlace × Option Placed} {slots : List (ItemPlace × Option Placed)}

/-- Nothing happens to an item of another stage. -/
theorem placeLocked_of_ne {dense : Bool} {s : LockedState} (h : slot.1.stage ≠ .locked) :
    placeLocked dense s slot = (s, slot.2) := by
  rw [placeLocked]
  split
  · rename_i hmajor hminor
    exact absurd (by rw [ItemPlace.stage, hmajor, hminor]) h
  · rfl

/-- What step 2 does with an item of its own. -/
structure LockedStep (s s' : LockedState) (item : ItemPlace) (p : Placed) : Prop where
  asked : p.Asked item
  left_le : s'.fuel.left ≤ s.fuel.left
  records : ∀ {ps : List Placed}, s.occupied.Records ps → 0 < s'.fuel.left →
    s'.occupied.Records (ps ++ [p])
  free : ∀ {ps : List Placed}, s.occupied.Records ps → 0 < s'.fuel.left → p.minorStart < MAX_LINES →
    ∀ q ∈ ps, ¬ q.Overlaps p

theorem placeLocked_step (dense : Bool) (s : LockedState) (h : slot.1.stage = .locked) :
    ∃ p, (placeLocked dense s slot).2 = some p ∧ LockedStep s (placeLocked dense s slot).1 slot.1 p := by
  obtain ⟨⟨major, minor⟩, out⟩ := slot
  cases major with
  | auto mspan => cases h
  | definite ms mspan =>
      cases minor with
      | definite ns nspan => cases h
      | auto nspan =>
          have hseek : ∀ {ps : List Placed}, s.occupied.Records ps →
              Probe (fun c => s.occupied.overlaps ⟨ms, mspan, c, nspan⟩)
                fun c => ∃ q ∈ ps, q.Overlaps ⟨ms, mspan, c, nspan⟩ := fun hrec =>
            hrec.probe fun c => ⟨ms, mspan, c, nspan⟩
          refine ⟨_, rfl, ⟨⟨rfl, rfl⟩, rfl⟩, ?_, ?_, ?_⟩
          · exact (insert_left_le _ _ _).trans (seek_left_le (spends_overlaps _ _) _ _)
          · exact fun hrec hleft => hrec.insert _ hleft
          · intro ps hrec hleft hlimit q hq hover
            have hfuel := Nat.lt_of_lt_of_le hleft (insert_left_le _ _ _)
            exact (seek_isLeast (hseek hrec) _ _ hfuel hlimit).1.2 ⟨q, hq, hover⟩

variable {r : Range} {p : Placed} {stage : Stage} {item : ItemPlace}

theorem placeCursor_of_some {dense : Bool} {s : CursorState} (h : slot.2 = some p) :
    placeCursor r dense s slot = (s, some p) := by
  rw [placeCursor, h]

/-- The first cell of the implicit grid. -/
def Range.origin (r : Range) : Int ×ₗ Int := toLex (r.majorLo, r.minorLo)

/-- Where the search for an item starts. -/
def CursorState.cursor (s : CursorState) (r : Range) (dense : Bool) : Int ×ₗ Int :=
  if dense then r.origin else toLex (s.major, s.minor)

/-- The item does not ask for a minor line before the implicit grid. -/
def ItemPlace.Within (item : ItemPlace) (r : Range) : Prop :=
  ∀ start span, item.minor = .definite start span → r.minorLo ≤ start

/-- What step 4 does with an item of its own. -/
structure CursorStep (r : Range) (dense : Bool) (s s' : CursorState) (item : ItemPlace) (p : Placed) :
    Prop where
  asked : p.Asked item
  left_le : s'.fuel.left ≤ s.fuel.left
  cursor_eq : toLex (s'.major, s'.minor) = p.start
  records : ∀ {ps : List Placed}, s.occupied.Records ps → 0 < s'.fuel.left →
    s'.occupied.Records (ps ++ [p])
  firstFree : ∀ {ps : List Placed}, s.occupied.Records ps → 0 < s'.fuel.left →
    p.majorStart < MAX_LINES → r.minorLo ≤ s.minor → item.Within r →
      FirstFree r ps (s.cursor r dense) item p

theorem toLex_le {a b c d : Int} : toLex (a, b) ≤ toLex (c, d) ↔ a < c ∨ a = c ∧ b ≤ d :=
  Prod.Lex.toLex_le_toLex

/-- An item definite in the minor axis goes down its own lines. -/
theorem placeCursor_definite (r : Range) (dense : Bool) (s : CursorState) (mspan : Span) (start : Int)
    (span : Span) :
    ∃ p, (placeCursor r dense s (⟨.auto mspan, .definite start span⟩, none)).2 = some p ∧
      CursorStep r dense s (placeCursor r dense s (⟨.auto mspan, .definite start span⟩, none)).1
        ⟨.auto mspan, .definite start span⟩ p := by
  refine ⟨_, rfl, ⟨rfl, rfl, rfl⟩, ?_, rfl, fun hrec hleft => hrec.insert _ hleft, ?_⟩
  · exact (insert_left_le _ _ _).trans (seek_left_le (spends_overlaps _ _) _ _)
  · intro ps hrec hleft hlimit hminor hwithin
    have hfuel := Nat.lt_of_lt_of_le hleft (insert_left_le _ _ _)
    obtain ⟨⟨hle, hfree⟩, hleast⟩ := seek_isLeast (hrec.probe fun m => ⟨m, mspan, start, span⟩) _ _
      hfuel hlimit
    have hstart := hwithin start span rfl
    -- at or after the cursor is at or after the line from which the search starts
    have hafter : ∀ m : Int, s.cursor r dense ≤ toLex (m, start) ↔
        (if dense then r.majorLo else if start < s.minor then s.major + 1 else s.major) ≤ m := by
      intro m
      rw [CursorState.cursor]
      cases dense
      · simp only [Bool.false_eq_true, if_false, toLex_le]
        split <;> omega
      · simp only [if_true, Range.origin, toLex_le]
        omega
    constructor
    case suits => exact ⟨⟨rfl, rfl, rfl⟩, fun _ h => nomatch h⟩
    case after => exact (hafter _).mpr hle
    case free => exact fun q hq hover => hfree ⟨q, hq, hover⟩
    case least =>
      rintro ⟨m, mspan', start', span'⟩ ⟨⟨rfl, rfl, rfl⟩, _⟩ hcursor hfree'
      have hm := hleast ⟨(hafter m).mp hcursor, fun ⟨q, hq, hover⟩ => hfree' q hq hover⟩
      rcases Int.lt_or_eq_of_le hm with hlt | heq
      · exact toLex_le.mpr (.inl hlt)
      · exact toLex_le.mpr (.inr ⟨heq, Int.le_refl _⟩)

/-- An item automatic in both axes goes along the lines of the implicit grid. -/
theorem placeCursor_auto (r : Range) (dense : Bool) (s : CursorState) (mspan span : Span) :
    ∃ p, (placeCursor r dense s (⟨.auto mspan, .auto span⟩, none)).2 = some p ∧
      CursorStep r dense s (placeCursor r dense s (⟨.auto mspan, .auto span⟩, none)).1
        ⟨.auto mspan, .auto span⟩ p := by
  refine ⟨_, rfl, ⟨rfl, rfl⟩, ?_, rfl, fun hrec hleft => hrec.insert _ hleft, ?_⟩
  · exact (insert_left_le _ _ _).trans (seekCell_left_le (fun m => spends_overlaps _ _) _ _ _ _)
  · intro ps hrec hleft hlimit hminor _
    have hfuel := Nat.lt_of_lt_of_le hleft (insert_left_le _ _ _)
    have hlo : r.minorLo ≤ if dense then r.minorLo else s.minor := by
      split
      · exact Int.le_refl _
      · exact hminor
    have hcell := seekCell_isLeast (fun m => hrec.probe fun c => ⟨m, mspan, c, span⟩) _ _ _ _ hlo hfuel hlimit
    have hcursor : s.cursor r dense =
        toLex (if dense then r.majorLo else s.major, if dense then r.minorLo else s.minor) := by
      rw [CursorState.cursor]
      cases dense <;> rfl
    rw [← hcursor] at hcell
    obtain ⟨⟨hafter, hlo', hhi', hfree⟩, hleast⟩ := hcell
    constructor
    case suits => exact ⟨⟨rfl, rfl⟩, fun _ _ => ⟨hlo', hhi'⟩⟩
    case after => exact hafter
    case free => exact fun q hq hover => hfree ⟨q, hq, hover⟩
    case least =>
      rintro ⟨m, mspan', c, span'⟩ ⟨⟨rfl, rfl⟩, hin⟩ hcursor' hfree'
      obtain ⟨hlo'', hhi''⟩ := hin _ rfl
      exact hleast ⟨hcursor', hlo'', hhi'', fun ⟨q, hq, hover⟩ => hfree' q hq hover⟩

theorem placeCursor_step (r : Range) (dense : Bool) (s : CursorState) (h : item.stage = .cursor) :
    ∃ p, (placeCursor r dense s (item, none)).2 = some p ∧
      CursorStep r dense s (placeCursor r dense s (item, none)).1 item p := by
  obtain ⟨major, minor⟩ := item
  cases major with
  | definite ms mspan => cases minor <;> cases h
  | auto mspan =>
      cases minor with
      | definite start span => exact placeCursor_definite r dense s mspan start span
      | auto span => exact placeCursor_auto r dense s mspan span

/-! ## The walks -/

/-- The items of a stage that have been placed, with their areas. -/
def placedOf (stage : Stage) (slots : List (ItemPlace × Option Placed)) : List (ItemPlace × Placed) :=
  slots.filterMap fun slot => if slot.1.stage = stage then slot.2.map (slot.1, ·) else none

theorem placedOf_append (stage : Stage) (slots slots' : List (ItemPlace × Option Placed)) :
    placedOf stage (slots ++ slots') = placedOf stage slots ++ placedOf stage slots' :=
  List.filterMap_append

theorem placedOf_own (h : item.stage = stage) : placedOf stage [(item, some p)] = [(item, p)] := by
  simp [placedOf, h]

theorem placedOf_other (h : item.stage ≠ stage) (out : Option Placed) :
    placedOf stage [(item, out)] = [] := by
  simp [placedOf, h]

/-- The items with what a walk made of them. -/
def updated (done : List ((ItemPlace × Option Placed) × Option Placed)) : List (ItemPlace × Option Placed) :=
  done.map fun d => (d.1.1, d.2)

/-- Step 1 has recorded the definite items. -/
structure DefiniteWalk (s : Occupancy × Fuel) (done : List (ItemPlace × Option Placed)) : Prop where
  other : ∀ slot ∈ done, slot.1.stage ≠ .definite → slot.2 = none
  own : ∀ slot ∈ done, slot.1.stage = .definite → ∃ p, slot.2 = some p ∧ p.Asked slot.1
  records : 0 < s.2.left → s.1.Records ((placedOf .definite done).map Prod.snd)

theorem placeDefinite_step (s : Occupancy × Fuel) (h : item.stage = .definite) :
    ∃ p : Placed, placeDefinite s item = (s.1.insert p s.2, some p) ∧ p.Asked item := by
  obtain ⟨major, minor⟩ := item
  cases major with
  | auto mspan => cases h
  | definite ms mspan =>
      cases minor with
      | auto nspan => cases h
      | definite ns nspan => exact ⟨_, rfl, ⟨rfl, rfl⟩, rfl, rfl⟩

theorem placeDefinite_of_ne {s : Occupancy × Fuel} (h : item.stage ≠ .definite) :
    placeDefinite s item = (s, none) := by
  rw [placeDefinite]
  split
  · rename_i hmajor hminor
    exact absurd (by rw [ItemPlace.stage, hmajor, hminor]) h
  · rfl

theorem definiteWalk (items : List ItemPlace) (fuel : Fuel) :
    DefiniteWalk (Lib.mapAccum placeDefinite (Occupancy.empty, fuel) items).1
      (items.zip (Lib.mapAccum placeDefinite (Occupancy.empty, fuel) items).2) := by
  refine Lib.mapAccum_keeps (fun s done item _ h => ?_) ⟨by simp, by simp, fun _ => records_empty⟩
  by_cases hstage : item.stage = .definite
  · obtain ⟨p, hstep, hasked⟩ := placeDefinite_step s hstage
    rw [hstep]
    constructor
    case other => exact Lib.forall_mem_concat h.other fun hne => absurd hstage hne
    case own => exact Lib.forall_mem_concat h.own fun _ => ⟨p, rfl, hasked⟩
    case records =>
      intro hleft
      rw [placedOf_append, placedOf_own hstage, List.map_append]
      exact (h.records (Nat.lt_of_lt_of_le hleft (insert_left_le _ _ _))).insert p hleft
  · rw [placeDefinite_of_ne hstage]
    constructor
    case other => exact Lib.forall_mem_concat h.other fun _ => rfl
    case own => exact Lib.forall_mem_concat h.own fun hown => absurd hown hstage
    case records =>
      rw [placedOf_append, placedOf_other hstage, List.append_nil]
      exact h.records

/-- Step 2 has placed its items free of the definite ones and of each other. -/
structure LockedWalk (base : List Placed) (s : LockedState)
    (done : List ((ItemPlace × Option Placed) × Option Placed)) : Prop where
  other : ∀ d ∈ done, d.1.1.stage ≠ .locked → d.2 = d.1.2
  own : ∀ d ∈ done, d.1.1.stage = .locked → ∃ p, d.2 = some p ∧ p.Asked d.1.1
  records : 0 < s.fuel.left →
    s.occupied.Records (base ++ (placedOf .locked (updated done)).map Prod.snd)
  free : 0 < s.fuel.left → (∀ x ∈ placedOf .locked (updated done), x.2.minorStart < MAX_LINES) →
    ∀ before x after, placedOf .locked (updated done) = before ++ x :: after →
      ∀ q ∈ base ++ before.map Prod.snd, ¬ q.Overlaps x.2

theorem lockedWalk (dense : Bool) {base : List Placed} {s : LockedState}
    (hbase : 0 < s.fuel.left → s.occupied.Records base) (slots : List (ItemPlace × Option Placed)) :
    LockedWalk base (Lib.mapAccum (placeLocked dense) s slots).1
      (slots.zip (Lib.mapAccum (placeLocked dense) s slots).2) := by
  refine Lib.mapAccum_keeps (fun s done slot _ h => ?_)
    ⟨by simp, by simp, by simpa [updated, placedOf] using hbase, by simp [updated, placedOf]⟩
  have hupdated : ∀ d, updated (done ++ [d]) = updated done ++ [(d.1.1, d.2)] := fun d => List.map_append
  by_cases hstage : slot.1.stage = .locked
  · obtain ⟨p, hout, hstep⟩ := placeLocked_step dense s hstage
    have hlist : placedOf .locked (updated (done ++ [(slot, some p)])) =
        placedOf .locked (updated done) ++ [(slot.1, p)] := by
      rw [hupdated, placedOf_append, placedOf_own hstage]
    rw [hout]
    constructor
    case other => exact Lib.forall_mem_concat h.other fun hne => absurd hstage hne
    case own => exact Lib.forall_mem_concat h.own fun _ => ⟨p, rfl, hstep.asked⟩
    case records =>
      intro hleft
      rw [hlist, List.map_append, ← List.append_assoc]
      exact hstep.records (h.records (hleft.trans_le hstep.left_le)) hleft
    case free =>
      intro hleft hlimit
      have hbefore := hleft.trans_le hstep.left_le
      rw [hlist] at hlimit ⊢
      refine Lib.forall_split_concat.mpr ⟨h.free hbefore fun x hx => ?_, ?_⟩
      · exact hlimit x (List.mem_append_left _ hx)
      · exact hstep.free (h.records hbefore) hleft
          (hlimit _ (List.mem_append_right _ List.mem_cons_self))
  · rw [placeLocked_of_ne hstage]
    have hlist : placedOf .locked (updated (done ++ [(slot, slot.2)])) = placedOf .locked (updated done) := by
      rw [hupdated, placedOf_append, placedOf_other hstage, List.append_nil]
    constructor
    case other => exact Lib.forall_mem_concat h.other fun _ => rfl
    case own => exact Lib.forall_mem_concat h.own fun hown => absurd hown hstage
    case records => exact hlist.symm ▸ h.records
    case free => exact hlist.symm ▸ h.free

/-- Where the last of the placed items starts, or the first cell. -/
def lastStart (r : Range) (before : List (ItemPlace × Placed)) : Int ×ₗ Int :=
  match before.getLast? with
  | some x => x.2.start
  | none => r.origin

/-- Where the search for an item starts, after the items before it. -/
def cursorAfter (r : Range) (dense : Bool) (before : List (ItemPlace × Placed)) : Int ×ₗ Int :=
  if dense then r.origin else lastStart r before

/-- Step 4 has placed each of its items at the first free position from the cursor on. -/
structure CursorWalk (r : Range) (dense : Bool) (base : List Placed) (s : CursorState)
    (done : List ((ItemPlace × Option Placed) × Option Placed)) : Prop where
  other : ∀ d ∈ done, d.1.1.stage ≠ .cursor → d.2 = d.1.2
  own : ∀ d ∈ done, d.1.1.stage = .cursor → ∃ p, d.2 = some p ∧ p.Asked d.1.1
  cursor_eq : toLex (s.major, s.minor) = lastStart r (placedOf .cursor (updated done))
  records : 0 < s.fuel.left →
    s.occupied.Records (base ++ (placedOf .cursor (updated done)).map Prod.snd)
  minorLo_le : 0 < s.fuel.left → (∀ x ∈ placedOf .cursor (updated done), x.2.majorStart < MAX_LINES) →
    r.minorLo ≤ s.minor
  firstFree : 0 < s.fuel.left → (∀ x ∈ placedOf .cursor (updated done), x.2.majorStart < MAX_LINES) →
    ∀ before x after, placedOf .cursor (updated done) = before ++ x :: after →
      FirstFree r (base ++ before.map Prod.snd) (cursorAfter r dense before) x.1 x.2

theorem FirstFree.minorLo_le {before : List Placed} {cursor : Int ×ₗ Int}
    (h : FirstFree r before cursor item p) (hitem : item.Within r) : r.minorLo ≤ p.minorStart := by
  obtain ⟨⟨⟨_, hminor⟩, hin⟩, _, _, _⟩ := h
  cases hm : item.minor with
  | definite start span =>
      rw [hm] at hminor
      exact (hitem start span hm).trans hminor.1.ge
  | auto span => exact (hin span hm).1

theorem cursorWalk (r : Range) (dense : Bool) {base : List Placed} {s : CursorState}
    (hbase : 0 < s.fuel.left → s.occupied.Records base) (hcursor : toLex (s.major, s.minor) = r.origin)
    (slots : List (ItemPlace × Option Placed))
    (hslots : ∀ slot ∈ slots, if slot.1.stage = .cursor then slot.2 = none ∧ slot.1.Within r
      else slot.2.isSome) :
    CursorWalk r dense base (Lib.mapAccum (placeCursor r dense) s slots).1
      (slots.zip (Lib.mapAccum (placeCursor r dense) s slots).2) := by
  have hminor : s.minor = r.minorLo := (Prod.mk.injEq .. ▸ congrArg ofLex hcursor).2
  refine Lib.mapAccum_keeps (fun s done slot hslot h => ?_)
    ⟨by simp, by simp, hcursor, by simpa [updated, placedOf] using hbase, fun _ _ => hminor.ge,
      by simp [updated, placedOf]⟩
  have hupdated : ∀ d, updated (done ++ [d]) = updated done ++ [(d.1.1, d.2)] := fun d => List.map_append
  have hslot := hslots slot hslot
  obtain ⟨item, out⟩ := slot
  by_cases hstage : item.stage = .cursor
  · rw [if_pos hstage] at hslot
    obtain ⟨hnone, hwithin⟩ := hslot
    dsimp only at hnone
    subst hnone
    obtain ⟨p, hout, hstep⟩ := placeCursor_step r dense s hstage
    have hlist : placedOf .cursor (updated (done ++ [((item, none), some p)])) =
        placedOf .cursor (updated done) ++ [(item, p)] := by
      rw [hupdated, placedOf_append, placedOf_own hstage]
    have hcur : s.cursor r dense = cursorAfter r dense (placedOf .cursor (updated done)) := by
      rw [CursorState.cursor, cursorAfter, h.cursor_eq]
    rw [hout]
    generalize (placeCursor r dense s (item, none)).1 = s' at hstep
    have hfree : 0 < s'.fuel.left →
        (∀ x ∈ placedOf .cursor (updated (done ++ [((item, none), some p)])), x.2.majorStart < MAX_LINES) →
          FirstFree r (base ++ (placedOf .cursor (updated done)).map Prod.snd)
            (cursorAfter r dense (placedOf .cursor (updated done))) item p := by
      intro hleft hlimit
      have hbefore := hleft.trans_le hstep.left_le
      rw [hlist] at hlimit
      rw [← hcur]
      exact hstep.firstFree (h.records hbefore) hleft
        (hlimit _ (List.mem_append_right _ List.mem_cons_self))
        (h.minorLo_le hbefore fun x hx => hlimit x (List.mem_append_left _ hx)) hwithin
    constructor
    case other => exact Lib.forall_mem_concat h.other fun hne => absurd hstage hne
    case own => exact Lib.forall_mem_concat h.own fun _ => ⟨p, rfl, hstep.asked⟩
    case cursor_eq =>
      rw [hlist, lastStart, List.getLast?_concat]
      exact hstep.cursor_eq
    case records =>
      intro hleft
      rw [hlist, List.map_append, ← List.append_assoc]
      exact hstep.records (h.records (hleft.trans_le hstep.left_le)) hleft
    case minorLo_le =>
      intro hleft hlimit
      have hsame : s'.minor = p.minorStart := (Prod.mk.injEq .. ▸ congrArg ofLex hstep.cursor_eq).2
      exact hsame ▸ (hfree hleft hlimit).minorLo_le hwithin
    case firstFree =>
      intro hleft hlimit
      have hlast := hfree hleft hlimit
      rw [hlist] at hlimit ⊢
      exact Lib.forall_split_concat.mpr ⟨h.firstFree (hleft.trans_le hstep.left_le) fun x hx =>
        hlimit x (List.mem_append_left _ hx), hlast⟩
  · rw [if_neg hstage] at hslot
    obtain ⟨p, hsome⟩ := Option.isSome_iff_exists.mp hslot
    dsimp only at hsome
    subst hsome
    rw [placeCursor_of_some rfl]
    have hlist : placedOf .cursor (updated (done ++ [((item, some p), some p)])) =
        placedOf .cursor (updated done) := by
      rw [hupdated, placedOf_append, placedOf_other hstage, List.append_nil]
    constructor
    case other => exact Lib.forall_mem_concat h.other fun _ => rfl
    case own => exact Lib.forall_mem_concat h.own fun hown => absurd hown hstage
    case cursor_eq => exact hlist.symm ▸ h.cursor_eq
    case records => exact hlist.symm ▸ h.records
    case minorLo_le => exact hlist.symm ▸ h.minorLo_le
    case firstFree => exact hlist.symm ▸ h.firstFree

/-! ## The three walks together -/

theorem placeCursor_left_le (r : Range) (dense : Bool) (s : CursorState)
    (slot : ItemPlace × Option Placed) : (placeCursor r dense s slot).1.fuel.left ≤ s.fuel.left := by
  obtain ⟨item, out⟩ := slot
  cases out with
  | some p => rw [placeCursor_of_some rfl]
  | none =>
      by_cases hstage : item.stage = .cursor
      · obtain ⟨p, _, hstep⟩ := placeCursor_step r dense s hstage
        exact hstep.left_le
      · obtain ⟨major, minor⟩ := item
        cases major with
        | definite ms mspan => exact Nat.le_refl _
        | auto mspan => exact absurd rfl hstage

theorem walk_left_le (r : Range) (dense : Bool) (slots : List (ItemPlace × Option Placed)) (s : CursorState) :
    (Lib.mapAccum (placeCursor r dense) s slots).1.fuel.left ≤ s.fuel.left :=
  Lib.mapAccum_keeps (P := fun s' _ => s'.fuel.left ≤ s.fuel.left)
    (fun s' _ slot _ h => (placeCursor_left_le r dense s' slot).trans h) (Nat.le_refl _)

theorem extend_minorLo_le (r : Range) (slot : ItemPlace × Option Placed) :
    (r.extend slot).minorLo ≤ r.minorLo ∧ (slot.2 = none → slot.1.Within (r.extend slot)) := by
  obtain ⟨⟨major, minor⟩, out⟩ := slot
  cases out with
  | some p => exact ⟨min_le_left _ _, fun h => nomatch h⟩
  | none =>
      cases minor with
      | auto span => cases major <;> exact ⟨Int.le_refl _, fun _ _ _ h => nomatch h⟩
      | definite start span =>
          have hwithin : ∀ r' : Range, r'.minorLo = min r.minorLo start →
              ∀ start' span', Resolved.definite start span = .definite start' span' → r'.minorLo ≤ start' := by
            rintro r' hr _ _ ⟨rfl, rfl⟩
            exact hr ▸ min_le_right _ _
          cases major <;> exact ⟨min_le_left _ _, fun _ => hwithin _ rfl⟩

theorem foldl_extend (slots : List (ItemPlace × Option Placed)) : ∀ r : Range,
    (slots.foldl Range.extend r).minorLo ≤ r.minorLo ∧
      ∀ slot ∈ slots, slot.2 = none → slot.1.Within (slots.foldl Range.extend r) := by
  induction slots with
  | nil => exact fun r => ⟨Int.le_refl _, fun _ h => absurd h List.not_mem_nil⟩
  | cons slot slots ih =>
      intro r
      obtain ⟨hle, hwithin⟩ := extend_minorLo_le r slot
      obtain ⟨hle', hrest⟩ := ih (r.extend slot)
      refine ⟨hle'.trans hle, fun slot' hslot' hnone => ?_⟩
      rcases List.mem_cons.mp hslot' with rfl | hslot'
      · exact fun start span h => hle'.trans (hwithin hnone start span h)
      · exact hrest slot' hslot' hnone

/-- No item still to place asks for a minor line before the implicit grid. -/
theorem within_implicitRange (explicitMinor : Int) (hslot : slot ∈ slots) (hnone : slot.2 = none) :
    slot.1.Within (implicitRange slots explicitMinor) := by
  have h := (foldl_extend slots ⟨1, explicitMinor + 1, 1⟩).2 slot hslot hnone
  rw [implicitRange]
  split <;> exact h

theorem updated_zip (slots : List (ItemPlace × Option Placed)) (out : List (Option Placed)) :
    updated (slots.zip out) = (slots.map Prod.fst).zip out := by
  rw [List.zip_map_left]
  rfl

/-- A walk leaves the items of other stages as they are. -/
theorem placedOf_updated {own : Stage} (hne : stage ≠ own) {out : List (Option Placed)}
    (hlen : out.length = slots.length) (hother : ∀ d ∈ slots.zip out, d.1.1.stage ≠ own → d.2 = d.1.2) :
    placedOf stage (updated (slots.zip out)) = placedOf stage slots := by
  have hfst : (slots.zip out).map Prod.fst = slots := List.map_fst_zip hlen.ge
  calc placedOf stage (updated (slots.zip out))
      = (slots.zip out).filterMap
          ((fun slot : ItemPlace × Option Placed =>
            if slot.1.stage = stage then slot.2.map (slot.1, ·) else none) ∘ Prod.fst) := by
        rw [placedOf, updated, List.filterMap_map]
        refine List.filterMap_congr fun d hd => ?_
        simp only [Function.comp_apply]
        split
        · rename_i hstage
          rw [hother d hd (hstage ▸ hne)]
        · rfl
    _ = placedOf stage slots := by
        rw [← List.filterMap_map, hfst]
        rfl

/-- The items with the areas returned for them. -/
def areas (items : List ItemPlace) (pl : Placement) : List (ItemPlace × Placed) := items.zip pl.placed

def ofStage (stage : Stage) (zipped : List (ItemPlace × Placed)) : List (ItemPlace × Placed) :=
  zipped.filter fun x => x.1.stage = stage

/-- The items in the order in which they are placed. -/
def history (zipped : List (ItemPlace × Placed)) : List (ItemPlace × Placed) :=
  ofStage .definite zipped ++ ofStage .locked zipped ++ ofStage .cursor zipped

theorem placedOf_eq_ofStage (stage : Stage) (h : ∀ slot ∈ slots, ∃ p, slot.2 = some p) :
    placedOf stage slots = ofStage stage (slots.map fun slot => (slot.1, slot.2.getD onePlaced)) := by
  induction slots with
  | nil => rfl
  | cons slot slots ih =>
      obtain ⟨item, out⟩ := slot
      obtain ⟨p, hp⟩ := h _ List.mem_cons_self
      dsimp only at hp
      subst hp
      have hrest := ih fun slot hslot => h slot (List.mem_cons_of_mem _ hslot)
      rw [← List.singleton_append, placedOf_append, hrest, List.map_append, ofStage, ofStage,
        List.filter_append]
      by_cases hstage : item.stage = stage
      · rw [placedOf_own hstage]
        simp [hstage]
      · rw [placedOf_other hstage]
        simp [hstage]

theorem perm_history (zipped : List (ItemPlace × Placed)) : (history zipped).Perm zipped := by
  induction zipped with
  | nil => exact .nil
  | cons x zipped ih =>
      rw [history, ofStage, ofStage, ofStage] at ih ⊢
      cases hstage : x.1.stage with
      | definite => simpa [List.filter_cons, hstage] using ih
      | locked =>
          simp only [List.filter_cons, hstage, reduceCtorEq, decide_false, decide_true, Bool.false_eq_true,
            if_false, if_true]
          rw [List.append_assoc]
          rw [List.append_assoc] at ih
          exact List.perm_middle.trans (ih.cons x)
      | cursor =>
          simp only [List.filter_cons, hstage, reduceCtorEq, decide_false, decide_true, Bool.false_eq_true,
            if_false, if_true]
          exact List.perm_middle.trans (ih.cons x)

/-! ## Every item list -/

/-- What is known of an item, given those placed before it. -/
structure WellPlaced (r : Range) (dense : Bool) (before : List (ItemPlace × Placed))
    (x : ItemPlace × Placed) : Prop where
  early : x.1.stage = .definite → ∀ y ∈ before, y.1.stage = .definite
  free : x.1.stage ≠ .definite → ∀ y ∈ before, ¬ y.2.Overlaps x.2
  firstFree : x.1.stage = .cursor →
    FirstFree r (before.map Prod.snd) (cursorAfter r dense (ofStage .cursor before)) x.1 x.2

theorem ofStage_placedOf (stage stage' : Stage) (slots : List (ItemPlace × Option Placed)) :
    ofStage stage (placedOf stage' slots) = if stage' = stage then placedOf stage' slots else [] := by
  have hmem : ∀ x ∈ placedOf stage' slots, x.1.stage = stage' := by
    intro x hx
    obtain ⟨slot, _, hslot⟩ := List.mem_filterMap.mp hx
    split at hslot
    · rename_i hstage
      obtain ⟨p, _, rfl⟩ := Option.map_eq_some_iff.mp hslot
      exact hstage
    · cases hslot
  split
  · rename_i heq
    exact List.filter_eq_self.mpr fun x hx => decide_eq_true ((hmem x hx).trans heq)
  · rename_i hne
    exact List.filter_eq_nil_iff.mpr fun x hx h => hne ((hmem x hx).symm.trans (of_decide_eq_true h))

theorem ofStage_before {before after : List (ItemPlace × Placed)} {x : ItemPlace × Placed}
    (h : placedOf stage slots = before ++ x :: after) :
    ofStage stage before = before ∧ x.1.stage = stage := by
  have hall := ofStage_placedOf stage stage slots
  rw [if_pos rfl, h, ofStage, List.filter_eq_self] at hall
  exact ⟨List.filter_eq_self.mpr fun y hy => hall y (List.mem_append_left _ hy),
    of_decide_eq_true (hall x (List.mem_append_right _ List.mem_cons_self))⟩

/-- Where two areas start at the same cell they overlap. -/
theorem overlaps_of_start_eq {q : Placed} (h : p.start = q.start) : p.Overlaps q := by
  have hstart : (p.majorStart, p.minorStart) = (q.majorStart, q.minorStart) := congrArg ofLex h
  rw [Prod.mk.injEq] at hstart
  obtain ⟨hmajor, hminor⟩ := hstart
  have := p.majorSpan.pos
  have := p.minorSpan.pos
  have := q.majorSpan.pos
  have := q.minorSpan.pos
  simp only [Placed.Overlaps, Placed.majorEnd, Placed.minorEnd]
  omega

/-- In sparse packing the cursor only moves on. -/
theorem increasing_of_firstFree {l : List (ItemPlace × Placed)}
    (h : ∀ before x after, l = before ++ x :: after → (∀ y ∈ before, ¬ y.2.Overlaps x.2) ∧
      lastStart r before ≤ x.2.start) : l.Pairwise fun x y => x.2.start < y.2.start := by
  induction l using List.reverseRecOn with
  | nil => exact .nil
  | append_singleton l z ih =>
      obtain ⟨hsplit, hfree, hafter⟩ := (Lib.forall_split_concat (Q := fun before x =>
        (∀ y ∈ before, ¬ y.2.Overlaps x.2) ∧ lastStart r before ≤ x.2.start)).mp h
      have hl := ih hsplit
      refine List.pairwise_append.mpr ⟨hl, List.pairwise_singleton _ _, fun x hx z' hz' => ?_⟩
      rw [List.mem_singleton.mp hz']
      rcases List.eq_nil_or_concat l with rfl | ⟨init, y, rfl⟩
      · exact absurd hx List.not_mem_nil
      · rw [List.concat_eq_append] at hx hl hafter hfree
        rw [lastStart, List.getLast?_concat] at hafter
        have hlt : y.2.start < z.2.start := lt_of_le_of_ne hafter fun heq =>
          hfree y (List.mem_append_right _ List.mem_cons_self) (overlaps_of_start_eq heq)
        rcases List.mem_append.mp hx with hx | hx
        · exact ((List.pairwise_append.mp hl).2.2 x hx y List.mem_cons_self).trans hlt
        · rwa [List.mem_singleton.mp hx]

theorem foldl_stretch (f g : Placed → Int) (ps : List Placed) : ∀ lines : Int × Int,
    let lines' := ps.foldl (fun lines p => stretch lines (f p) (g p)) lines
    (lines'.1 ≤ lines.1 ∧ lines.2 ≤ lines'.2) ∧ ∀ p ∈ ps, lines'.1 ≤ f p ∧ g p ≤ lines'.2 := by
  induction ps with
  | nil => exact fun lines => ⟨⟨Int.le_refl _, Int.le_refl _⟩, fun _ h => absurd h List.not_mem_nil⟩
  | cons p ps ih =>
      intro lines
      obtain ⟨⟨hlo, hhi⟩, hrest⟩ := ih (stretch lines (f p) (g p))
      refine ⟨⟨hlo.trans (min_le_left _ _), (le_max_left _ _).trans hhi⟩, fun q hq => ?_⟩
      rcases List.mem_cons.mp hq with rfl | hq
      · exact ⟨hlo.trans (min_le_right _ _), (le_max_right _ _).trans hhi⟩
      · exact hrest q hq

/-- No search for a minor line, and no cursor, has come to the last line. -/
def BelowLimits (zipped : List (ItemPlace × Placed)) : Prop :=
  ∀ x ∈ zipped, (x.1.stage = .locked → x.2.minorStart < MAX_LINES) ∧
    (x.1.stage = .cursor → x.2.majorStart < MAX_LINES)

instance (zipped : List (ItemPlace × Placed)) : Decidable (BelowLimits zipped) :=
  inferInstanceAs (Decidable (∀ x ∈ zipped, _ ∧ _))

/-- What placement should return: `r` is the implicit grid that the cursor respects. -/
structure AutoPlaced (items : List ItemPlace) (r : Range) (dense : Bool) (pl : Placement) : Prop where
  length_eq : pl.placed.length = items.length
  asked : ∀ x ∈ areas items pl, x.2.Asked x.1
  apart : (areas items pl).Pairwise fun x y =>
    ¬ (x.1.stage = .definite ∧ y.1.stage = .definite) → ¬ x.2.Overlaps y.2
  inside : ∀ p ∈ pl.placed, (pl.majorLines.1 ≤ p.majorStart ∧ p.majorEnd ≤ pl.majorLines.2) ∧
    pl.minorLines.1 ≤ p.minorStart ∧ p.minorEnd ≤ pl.minorLines.2
  firstFree : ∀ before x after, history (areas items pl) = before ++ x :: after → x.1.stage = .cursor →
    FirstFree r (before.map Prod.snd) (cursorAfter r dense (ofStage .cursor before)) x.1 x.2
  increasing : dense = false →
    (ofStage .cursor (areas items pl)).Pairwise fun x y => x.2.start < y.2.start

section Place

variable (items : List ItemPlace) (explicitMajor explicitMinor : Int) (dense : Bool) (fuel : Fuel)

theorem lockedPass_spec :
    (∀ slot ∈ (lockedPass items dense fuel).2,
      if slot.1.stage = .cursor then slot.2 = none else ∃ p, slot.2 = some p ∧ p.Asked slot.1) ∧
    ((lockedPass items dense fuel).2.map Prod.fst = items) ∧
    (0 < (lockedPass items dense fuel).1.fuel.left →
      (lockedPass items dense fuel).1.occupied.Records
        ((placedOf .definite (lockedPass items dense fuel).2 ++
          placedOf .locked (lockedPass items dense fuel).2).map Prod.snd)) ∧
    (0 < (lockedPass items dense fuel).1.fuel.left →
      (∀ x ∈ placedOf .locked (lockedPass items dense fuel).2, x.2.minorStart < MAX_LINES) →
        ∀ before x after, placedOf .locked (lockedPass items dense fuel).2 = before ++ x :: after →
          ∀ q ∈ (placedOf .definite (lockedPass items dense fuel).2 ++ before).map Prod.snd,
            ¬ q.Overlaps x.2) := by
  have hfirst := definiteWalk items fuel
  have hlen := Lib.length_mapAccum (f := placeDefinite) (Occupancy.empty, fuel) items
  rw [lockedPass]
  dsimp only
  generalize Lib.mapAccum placeDefinite (Occupancy.empty, fuel) items = first at hfirst hlen
  have hlocked := lockedWalk dense (s := ⟨first.1.1, fun _ => none, first.1.2⟩)
    (fun hleft => hfirst.records hleft) (items.zip first.2)
  have hlen' := Lib.length_mapAccum (f := placeLocked dense) ⟨first.1.1, fun _ => none, first.1.2⟩
    (items.zip first.2)
  generalize Lib.mapAccum (placeLocked dense) ⟨first.1.1, fun _ => none, first.1.2⟩
    (items.zip first.2) = second at hlocked hlen'
  have hslots : updated ((items.zip first.2).zip second.2) = items.zip second.2 := by
    rw [updated_zip, List.map_fst_zip hlen.ge]
  have hdefinite : placedOf .definite (items.zip second.2) = placedOf .definite (items.zip first.2) := by
    rw [← hslots]
    exact placedOf_updated (by decide) hlen' hlocked.other
  refine ⟨?_, ?_, ?_, ?_⟩
  · rw [← hslots]
    intro slot hslot
    obtain ⟨d, hd, rfl⟩ := List.mem_map.mp hslot
    have hd1 := (List.of_mem_zip hd).1
    dsimp only
    cases hstage : d.1.1.stage with
    | definite =>
        rw [if_neg (by decide), hlocked.other d hd (by rw [hstage]; decide)]
        exact hfirst.own d.1 hd1 hstage
    | locked =>
        rw [if_neg (by decide)]
        exact hlocked.own d hd hstage
    | cursor =>
        rw [if_pos rfl, hlocked.other d hd (by rw [hstage]; decide)]
        exact hfirst.other d.1 hd1 (by rw [hstage]; decide)
  · exact List.map_fst_zip (by rw [hlen', List.length_zip, hlen, min_self])
  · rw [List.map_append, hdefinite, ← hslots]
    exact hlocked.records
  · intro hleft hlimit before x after hsplit q hq
    rw [List.map_append, hdefinite] at hq
    rw [← hslots] at hsplit hlimit
    exact hlocked.free hleft hlimit before x after hsplit q hq

/-- **Grid placement** follows the auto-placement algorithm, while fuel is left and no cursor has
come to the last line. -/
theorem place_autoPlaced (hfuel : 0 < (place items explicitMajor explicitMinor dense fuel).2.left)
    (hlimits : BelowLimits (areas items (place items explicitMajor explicitMinor dense fuel).1)) :
    AutoPlaced items (implicitRange (lockedPass items dense fuel).2 explicitMinor) dense
      (place items explicitMajor explicitMinor dense fuel).1 := by
  obtain ⟨hslots, hitems, hrec, hfree⟩ := lockedPass_spec items dense fuel
  rw [place] at hfuel hlimits ⊢
  dsimp only at hfuel hlimits ⊢
  generalize lockedPass items dense fuel = pass at hslots hitems hrec hfree hfuel hlimits ⊢
  generalize hr : implicitRange pass.2 explicitMinor = r at hfuel hlimits ⊢
  have hcursor := cursorWalk r dense (s := ⟨pass.1.occupied, r.majorLo, r.minorLo, pass.1.fuel⟩)
    hrec rfl pass.2 fun slot hslot => by
      have hspec := hslots slot hslot
      split at hspec
      · rw [if_pos ‹_›]
        exact ⟨hspec, hr ▸ within_implicitRange explicitMinor hslot hspec⟩
      · rw [if_neg ‹_›]
        obtain ⟨p, hp, _⟩ := hspec
        exact hp ▸ rfl
  have hspent := walk_left_le r dense pass.2 ⟨pass.1.occupied, r.majorLo, r.minorLo, pass.1.fuel⟩
  have hlen := Lib.length_mapAccum (f := placeCursor r dense)
    ⟨pass.1.occupied, r.majorLo, r.minorLo, pass.1.fuel⟩ pass.2
  generalize Lib.mapAccum (placeCursor r dense) ⟨pass.1.occupied, r.majorLo, r.minorLo, pass.1.fuel⟩
    pass.2 = third at hcursor hspent hlen hfuel hlimits ⊢
  have hleft := hfuel.trans_le hspent
  have hfinal : ∀ slot ∈ updated (pass.2.zip third.2), ∃ p, slot.2 = some p ∧ p.Asked slot.1 := by
    intro slot hslot
    obtain ⟨d, hd, rfl⟩ := List.mem_map.mp hslot
    by_cases hstage : d.1.1.stage = .cursor
    · exact hcursor.own d hd hstage
    · have hspec := hslots d.1 (List.of_mem_zip hd).1
      rw [if_neg hstage] at hspec
      dsimp only
      rwa [hcursor.other d hd hstage]
  -- the areas returned are those of the last walk
  have hareas : ∀ pl : Placement, pl.placed = third.2.map (fun p => p.getD onePlaced) → areas items pl =
      (updated (pass.2.zip third.2)).map fun slot => (slot.1, slot.2.getD onePlaced) := by
    intro pl hpl
    rw [areas, hpl, updated_zip, hitems, List.zip_map_right]
    rfl
  have hstages : ∀ (pl : Placement), pl.placed = third.2.map (fun p => p.getD onePlaced) → ∀ stage,
      ofStage stage (areas items pl) = placedOf stage (updated (pass.2.zip third.2)) := fun pl hpl stage => by
    rw [hareas pl hpl]
    exact (placedOf_eq_ofStage stage fun slot hslot => (hfinal slot hslot).imp fun p hp => hp.1).symm
  have hdefinite : placedOf .definite (updated (pass.2.zip third.2)) = placedOf .definite pass.2 :=
    placedOf_updated (by decide) hlen hcursor.other
  have hlocked : placedOf .locked (updated (pass.2.zip third.2)) = placedOf .locked pass.2 :=
    placedOf_updated (by decide) hlen hcursor.other
  generalize hpl : (⟨third.2.map fun p => p.getD onePlaced, _, _⟩ : Placement) = pl at hlimits ⊢
  have hplaced : pl.placed = third.2.map fun p => p.getD onePlaced := by rw [← hpl]
  have hstage := hstages pl hplaced
  have hsome : ∀ x ∈ areas items pl, x.2.Asked x.1 := by
    intro x hx
    rw [hareas pl hplaced] at hx
    obtain ⟨slot, hslot, rfl⟩ := List.mem_map.mp hx
    obtain ⟨p, hp, hasked⟩ := hfinal slot hslot
    rwa [hp]
  have hlimit : ∀ x ∈ placedOf .cursor (updated (pass.2.zip third.2)), x.2.majorStart < MAX_LINES := by
    intro x hx
    rw [← hstage] at hx
    obtain ⟨hx, hcur⟩ := List.mem_filter.mp hx
    exact (hlimits x hx).2 (of_decide_eq_true hcur)
  have hlimit' : ∀ x ∈ placedOf .locked pass.2, x.2.minorStart < MAX_LINES := by
    intro x hx
    rw [← hlocked, ← hstage] at hx
    obtain ⟨hx, hcur⟩ := List.mem_filter.mp hx
    exact (hlimits x hx).1 (of_decide_eq_true hcur)
  have hwell : ∀ before x after, history (areas items pl) = before ++ x :: after →
      WellPlaced r dense before x := by
    rw [history, hstage, hstage, hstage, hdefinite, hlocked]
    refine Lib.forall_split_append _ (Lib.forall_split_append _ ?_ ?_) ?_
    · intro before x after hsplit
      obtain ⟨hbefore, hx⟩ := ofStage_before hsplit
      refine ⟨fun _ y hy => ?_, fun h => absurd hx h, fun h => absurd (hx.symm.trans h) (by decide)⟩
      exact of_decide_eq_true (List.filter_eq_self.mp hbefore y hy)
    · intro before x after hsplit
      have hx := (ofStage_before hsplit).2
      refine ⟨fun h => absurd (hx.symm.trans h) (by decide), fun _ y hy => ?_,
        fun h => absurd (hx.symm.trans h) (by decide)⟩
      exact hfree hleft hlimit' before x after hsplit y.2 (List.mem_map_of_mem hy)
    · intro before x after hsplit
      have hfirst := hcursor.firstFree hfuel hlimit before x after hsplit
      have hx := (ofStage_before hsplit).2
      rw [← List.map_append] at hfirst
      refine ⟨fun h => absurd (hx.symm.trans h) (by decide),
        fun _ y hy => hfirst.free y.2 (List.mem_map_of_mem hy), fun _ => ?_⟩
      have hcur : ofStage .cursor
          (placedOf .definite pass.2 ++ placedOf .locked pass.2 ++ before) = before := by
        rw [ofStage, List.filter_append, List.filter_append]
        have h1 := ofStage_placedOf .cursor .definite pass.2
        have h2 := ofStage_placedOf .cursor .locked pass.2
        have h3 := (ofStage_before hsplit).1
        rw [ofStage] at h1 h2 h3
        rw [h1, h2, h3]
        rfl
      rwa [hcur]
  constructor
  case length_eq => rw [hplaced, List.length_map, hlen, ← hitems, List.length_map]
  case asked => exact hsome
  case apart =>
    have hsymm : ∀ {x y : ItemPlace × Placed},
        (¬ (x.1.stage = .definite ∧ y.1.stage = .definite) → ¬ x.2.Overlaps y.2) →
          ¬ (y.1.stage = .definite ∧ x.1.stage = .definite) → ¬ y.2.Overlaps x.2 :=
      fun h hne hover => h (fun hboth => hne hboth.symm) hover.symm
    refine ((perm_history (areas items pl)).pairwise_iff hsymm).mp ?_
    refine Lib.pairwise_of_splits fun before x after hsplit y hy hne => ?_
    have hx := hwell before x after hsplit
    by_cases hdef : x.1.stage = .definite
    · exact absurd ⟨hx.early hdef y hy, hdef⟩ hne
    · exact hx.free hdef y hy
  case inside =>
    rw [← hpl]
    intro p hp
    exact ⟨(foldl_stretch _ _ _ _).2 p hp, (foldl_stretch _ _ _ _).2 p hp⟩
  case firstFree => exact fun before x after hsplit => (hwell before x after hsplit).firstFree
  case increasing =>
    intro hsparse
    rw [hstage]
    refine increasing_of_firstFree (r := r) fun before x after hsplit => ?_
    have hfirst := hcursor.firstFree hfuel hlimit before x after hsplit
    rw [cursorAfter, hsparse] at hfirst
    exact ⟨fun y hy => hfirst.free y.2 (List.mem_append_right _ (List.mem_map_of_mem hy)), hfirst.after⟩

end Place

/-- One item of each stage, in an explicit grid of two by two. -/
theorem place_autoPlaced_three :
    AutoPlaced
      [⟨.auto (Span.clamp 1), .auto (Span.clamp 2)⟩, ⟨.definite 1 (Span.clamp 1), .definite 1 (Span.clamp 1)⟩,
        ⟨.definite 1 (Span.clamp 1), .auto (Span.clamp 1)⟩]
      (implicitRange (lockedPass
        [⟨.auto (Span.clamp 1), .auto (Span.clamp 2)⟩, ⟨.definite 1 (Span.clamp 1), .definite 1 (Span.clamp 1)⟩,
          ⟨.definite 1 (Span.clamp 1), .auto (Span.clamp 1)⟩] false ⟨100⟩).2 2) false
      (place
        [⟨.auto (Span.clamp 1), .auto (Span.clamp 2)⟩, ⟨.definite 1 (Span.clamp 1), .definite 1 (Span.clamp 1)⟩,
          ⟨.definite 1 (Span.clamp 1), .auto (Span.clamp 1)⟩] 2 2 false ⟨100⟩).1 :=
  place_autoPlaced _ 2 2 false ⟨100⟩ (by decide +kernel) (by decide +kernel)

end Pelorus.Layout.Grid
