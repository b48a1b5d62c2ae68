import Mathlib.Algebra.Order.Ring.Int
import Mathlib.Algebra.BigOperators.Group.List.Basic

/-
  Layout/Grid/Tracks.lean --- the tracks of a grid and the space they share.

  `fill` hands out a space in whole app units: every round gives each active track an equal
  share, the remainder one unit at a time to the earliest, and drops the tracks that have
  reached their room.  `maximizeInto` and `stretchAuto` are the two places that hand it the
  free space of the grid itself.

  Lengths are integers of app units, away from the ends of the range of `Au`.
-/
set_option autoImplicit false

namespace Pelorus.Layout.Grid

/-! ## Work -/

/-- A bound on the work one grid layout may do. -/
structure Fuel where
  left : Nat
  deriving DecidableEq, Repr

/-- Spend `amount`: `false` when the budget is exhausted. -/
def Fuel.spend (fuel : Fuel) (amount : Nat) : Bool × Fuel :=
  if fuel.left < amount then (false, ⟨0⟩) else (true, ⟨fuel.left - amount⟩)

theorem Fuel.spend_of_le {fuel : Fuel} {amount : Nat} (h : amount ≤ fuel.left) :
    fuel.spend amount = (true, ⟨fuel.left - amount⟩) := if_neg (Nat.not_lt.mpr h)

/-! ## Tracks -/

inductive MinFn where
  | fixed (a : Int)
  | auto
  | minContent
  | maxContent
  deriving DecidableEq, Repr

/-- What a maximum sizing function resolved to.  `flex` is in thousandths. -/
inductive MaxFn where
  | fixed (a : Int)
  | auto
  | minContent
  | maxContent
  | fitContent (a : Int)
  | flex (f : Int)
  deriving DecidableEq, Repr

/-- A grid track while it is being sized.  A `limit` of `none` is infinity. -/
structure Track where
  min : MinFn
  max : MaxFn
  base : Int
  limit : Option Int
  deriving DecidableEq, Repr

def Track.flexible (t : Track) : Bool :=
  match t.max with
  | .flex _ => true
  | _ => false

/-- The sum of the base sizes and the gutters. -/
def sumBases (tracks : List Track) (gaps : List Int) : Int :=
  (tracks.map Track.base).sum + gaps.sum

/-! ## Sharing -/

/-- What one round of sharing gave, spent, and kept active. -/
structure Round where
  given : List Int
  spent : Int
  still : List Nat
  deriving DecidableEq, Repr

/-- What the track at position `k` is offered: the share, and one unit of the remainder while it
lasts. -/
def want (share extra : Int) (k : Nat) : Int := share + if (k : Int) < extra then 1 else 0

/-- What a track can still take. -/
def can (room : Nat → Int) (i : Nat) (had : Int) : Int := max (room i - had) 0

/-- One round over the active tracks, the first of them at position `k`: each takes
what it is offered as far as its room allows, and is dropped once it has reached its room. -/
def fillRound (room : Nat → Int) (share extra : Int) : Nat → List Nat → List Int → Round
  | _, [], given => ⟨given, 0, []⟩
  | k, i :: active, given =>
      let had := given.getD i 0
      let take := min (want share extra k) (can room i had)
      let rest := fillRound room share extra (k + 1) active (given.set i (had + take))
      ⟨rest.given, take + rest.spent,
        if take < want share extra k ∨ can room i had = take then rest.still else i :: rest.still⟩

/-- What sharing leaves over, what it has given, and the work it did not need. -/
structure Filled where
  left : Int
  given : List Int
  fuel : Fuel
  deriving DecidableEq, Repr

theorem want_nonneg {share : Int} (h : 0 ≤ share) (extra : Int) (k : Nat) : 0 ≤ want share extra k := by
  unfold want
  split <;> omega

theorem can_nonneg (room : Nat → Int) (i : Nat) (had : Int) : 0 ≤ can room i had := le_max_right _ _

theorem fillRound_spent_nonneg (room : Nat → Int) {share : Int} (extra : Int) (hshare : 0 ≤ share)
    (active : List Nat) : ∀ (k : Nat) (given : List Int),
      0 ≤ (fillRound room share extra k active given).spent := by
  induction active with
  | nil => exact fun _ _ => Int.le_refl 0
  | cons i active ih =>
      intro k given
      exact Int.add_nonneg (le_min (want_nonneg hshare _ _) (can_nonneg _ _ _)) (ih _ _)

/-- Share `space` equally among `active`, giving each at most its room; remainder units go to
the earliest tracks. -/
def fill (room : Nat → Int) (space : Int) (active : List Nat) (given : List Int) (fuel : Fuel) :
    Filled :=
  if _hspace : 0 < space ∧ active ≠ [] then
    match fuel.spend active.length with
    | (false, fuel) => ⟨space, given, fuel⟩
    | (true, fuel) =>
        let round := fillRound room (space / active.length) (space % active.length) 0 active given
        if _hspent : round.spent = 0 then ⟨space, round.given, fuel⟩
        else fill room (space - round.spent) round.still round.given fuel
  else ⟨space, given, fuel⟩
termination_by space.toNat
decreasing_by
  have hnonneg := fillRound_spent_nonneg room (space % active.length)
    (Int.ediv_nonneg _hspace.1.le (Int.natCast_nonneg active.length)) active 0 given
  change ¬ (fillRound room (space / active.length) (space % active.length) 0 active given).spent = 0
    at _hspent
  change (space - (fillRound room (space / active.length) (space % active.length) 0 active
    given).spent).toNat < space.toNat
  omega

/-- More room than any track can use. -/
def INF : Int := (2 ^ 63 - 1) / 4

/-- How far a track is from its growth limit. -/
def limitRoom (tracks : List Track) (i : Nat) : Int :=
  match tracks[i]? with
  | none => 0
  | some t =>
      match t.limit with
      | some l => max (l - t.base) 0
      | none => INF

/-- The tracks with what they were given added to their base sizes. -/
def grow (tracks : List Track) (given : List Int) : List Track :=
  List.zipWith (fun t g => { t with base := t.base + g }) tracks given

/-- Section 11.6: the free space, shared up to the growth limits. -/
def maximizeInto (tracks : List Track) (gaps : List Int) (available : Int) (fuel : Fuel) :
    List Track × Fuel :=
  let free := max (available - sumBases tracks gaps) 0
  if free = 0 then (tracks, fuel)
  else
    let filled := fill (limitRoom tracks) free (List.range tracks.length)
      (List.replicate tracks.length 0) fuel
    (grow tracks filled.given, filled.fuel)

/-- The tracks whose maximum is `auto`. -/
def autoTracks (tracks : List Track) : List Nat :=
  (List.range tracks.length).filter fun i => (tracks[i]?.map Track.max) == some .auto

/-- Section 11.8: what is still free, shared among the `auto` tracks without limit. -/
def stretchAuto (tracks : List Track) (gaps : List Int) (target : Int) (fuel : Fuel) :
    List Track × Fuel :=
  let free := target - sumBases tracks gaps
  let idx := autoTracks tracks
  if 0 < free ∧ idx ≠ [] then
    let filled := fill (fun _ => INF) free idx (List.replicate tracks.length 0) fuel
    (grow tracks filled.given, filled.fuel)
  else (tracks, fuel)

end Pelorus.Layout.Grid
