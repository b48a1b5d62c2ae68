import Pelorus.Layout.Grid.Tracks
import Mathlib.Algebra.BigOperators.Ring.Finset
import Mathlib.Algebra.Order.BigOperators.Group.Finset
import Mathlib.Algebra.Order.Floor.Ring
import Mathlib.Data.Rat.Floor
import Mathlib.Tactic.Linarith
import Mathlib.Tactic.Positivity
import Mathlib.Tactic.Ring

/-
  Layout/Grid/Flexible.lean --- the size of an `fr`, and the tracks it fills.

  `findFr` divides the space that the inflexible tracks leave by the flex factors.  A track whose
  base is more than its share is treated as inflexible, and the division is made again.  Each
  round takes away at least as much space as its factors would have got, so the quotient only
  falls (`quotient_falls`): a track that was dropped stays above its share, and what the kept
  tracks get together fits into what is left.
-/
set_option autoImplicit false

namespace Pelorus.Layout.Grid

open scoped BigOperators

/-! ## The size of an fr -/

/-- An `fr`: `num / den` app units per flex unit, with `den` in thousandths. -/
structure Frac where
  num : Int
  den : Int
  deriving DecidableEq, Repr

namespace Frac

def ZERO : Frac := ⟨0, 1⟩

/-- The size of a track of `flexMilli` thousandths. -/
def of (fr : Frac) (flexMilli : Int) : Int :=
  if fr.den ≤ 0 ∨ fr.num ≤ 0 then 0 else (fr.num * flexMilli).tdiv (fr.den * 1000)

def greater (fr other : Frac) : Bool := decide (fr.num * other.den > other.num * fr.den)

end Frac

/-- The flex factor of a track, in thousandths. -/
def flexOf (tracks : List Track) (i : Nat) : Option Int :=
  match (tracks[i]?).map Track.max with
  | some (.flex f) => some f
  | _ => none

/-- The space the tracks outside `flexible` leave, and the factors of those inside. -/
def leftoverAndSum (tracks : List Track) (idx flexible : List Nat) (space : Int) : Int × Int :=
  idx.foldl (fun acc i =>
    match tracks[i]? with
    | none => acc
    | some t =>
        if i ∈ flexible then (acc.1, acc.2 + (flexOf tracks i).getD 0) else (acc.1 - t.base, acc.2))
    (space, 0)

/-- Whether a track's share is at least its base size. -/
def fitsShare (tracks : List Track) (leftover sum : Int) (i : Nat) : Bool :=
  match tracks[i]?, flexOf tracks i with
  | some t, some f => decide (leftover * f ≥ t.base * sum)
  | _, _ => false

/-- One round: the flexible tracks whose share is at least their base. -/
def retain (tracks : List Track) (idx : List Nat) (space : Int) (flexible : List Nat) : List Nat :=
  let round := leftoverAndSum tracks idx flexible space
  flexible.filter (fitsShare tracks round.1 (max round.2 1000))

theorem retain_sublist (tracks : List Track) (idx : List Nat) (space : Int) (flexible : List Nat) :
    (retain tracks idx space flexible).Sublist flexible := List.filter_sublist

/-- The fraction of one round. -/
def frac (tracks : List Track) (idx : List Nat) (space : Int) (flexible : List Nat) : Frac :=
  let round := leftoverAndSum tracks idx flexible space
  ⟨round.1 * 1000, max round.2 1000⟩

/-- The rounds of "Find the size of an fr": until none of the flexible tracks is dropped. -/
def findFrLoop (tracks : List Track) (idx : List Nat) (space : Int) (flexible : List Nat) : Frac :=
  if flexible = [] then Frac.ZERO
  else
    let kept := retain tracks idx space flexible
    if _h : kept.length = flexible.length then frac tracks idx space flexible
    else findFrLoop tracks idx space kept
termination_by flexible.length
decreasing_by
  exact Nat.lt_of_le_of_ne (retain_sublist tracks idx space flexible).length_le _h

/-- The tracks of `idx` that are flexible. -/
def flexibleIn (tracks : List Track) (idx : List Nat) : List Nat :=
  idx.filter fun i => (flexOf tracks i).isSome

/-- "Find the size of an fr" (section 11.7.1) over `idx`, filling `space`. -/
def findFr (tracks : List Track) (idx : List Nat) (gutters space : Int) : Frac :=
  findFrLoop tracks idx (space - gutters) (flexibleIn tracks idx)

/-! ## Expanding the flexible tracks -/

/-- What sizing reads of a grid item here. -/
structure Item where
  start : Nat
  span : Nat
  maxContent : Int
  deriving DecidableEq, Repr

inductive Avail where
  | definite (a : Int)
  | minContent
  | maxContent
  deriving DecidableEq, Repr

/-- The container's `min-*` and `max-*` in this axis, as inner sizes. -/
structure Limits where
  min : Int
  max : Option Int
  deriving DecidableEq, Repr

/-- The gutters inside a span. -/
def spanGaps (gaps : List Int) (start span : Nat) : Int := ((gaps.drop start).take (span - 1)).sum

/-- The `fr` of a definite space: nothing when the tracks already fill it. -/
def definiteFr (tracks : List Track) (gaps : List Int) (space : Int) : Frac :=
  if space - sumBases tracks gaps ≤ 0 then Frac.ZERO
  else findFr tracks (List.range tracks.length) gaps.sum space

/-- A flexible track grows to its share of `frac`. -/
def Track.applyFr (frac : Frac) (t : Track) : Track :=
  match t.max with
  | .flex f => if frac.of f > t.base then { t with base := frac.of f } else t
  | _ => t

/-- The `fr` at which every flexible track is as large as its base and every item that crosses
one as large as its max-content size. -/
def maxContentFr (tracks : List Track) (gaps : List Int) (items : List Item) : Frac :=
  let ofTracks := tracks.foldl (fun frac t =>
    match t.max with
    | .flex f =>
        let candidate : Frac := if f > 1000 then ⟨t.base * 1000, f⟩ else ⟨t.base * 1000, 1000⟩
        if candidate.greater frac then candidate else frac
    | _ => frac) Frac.ZERO
  items.foldl (fun frac item =>
    let stop := min (item.start + item.span) tracks.length
    let idx := (List.range (stop - item.start)).map (item.start + ·)
    if idx.any fun i => (flexOf tracks i).isSome then
      let candidate := findFr tracks idx (spanGaps gaps item.start (stop - item.start)) item.maxContent
      if candidate.greater frac then candidate else frac
    else frac) ofTracks

/-- Section 11.7. -/
def expandFlexible (tracks : List Track) (gaps : List Int) (items : List Item) (avail : Avail)
    (limits : Limits) : List Track :=
  if ¬ tracks.any Track.flexible then tracks
  else
    match avail with
    | .minContent => tracks
    | .definite a => tracks.map (Track.applyFr (definiteFr tracks gaps a))
    | .maxContent =>
        let frac := maxContentFr tracks gaps items
        let total := gaps.sum + (tracks.map fun t =>
          match t.max with
          | .flex f => max t.base (frac.of f)
          | _ => t.base).sum
        let frac :=
          if total < limits.min then definiteFr tracks gaps limits.min
          else match limits.max with
            | some m => if total > m then definiteFr tracks gaps m else frac
            | none => frac
        tracks.map (Track.applyFr frac)

/-! ## One round -/

section Rounds

variable {tracks : List Track} {space : Int}

/-- The base size of the track at an index. -/
def baseOf (tracks : List Track) (i : Nat) : Int := ((tracks[i]?).map Track.base).getD 0

/-- The flex factor of the track at an index, zero when it has none. -/
def factorOf (tracks : List Track) (i : Nat) : Int := (flexOf tracks i).getD 0

theorem leftoverAndSum_eq (idx flexible : List Nat) : ∀ acc : Int × Int,
    (idx.foldl (fun acc i =>
        match tracks[i]? with
        | none => acc
        | some t =>
            if i ∈ flexible then (acc.1, acc.2 + (flexOf tracks i).getD 0)
            else (acc.1 - t.base, acc.2)) acc) =
      (acc.1 - (idx.map fun i => if i ∈ flexible then 0 else baseOf tracks i).sum,
        acc.2 + (idx.map fun i => if i ∈ flexible then factorOf tracks i else 0).sum) := by
  induction idx with
  | nil => intro acc; simp
  | cons i idx ih =>
      intro acc
      rw [List.foldl_cons, ih]
      simp only [List.map_cons, List.sum_cons]
      cases ht : tracks[i]? with
      | none =>
          have hf : factorOf tracks i = 0 := by simp [factorOf, flexOf, ht]
          have hb : baseOf tracks i = 0 := by simp [baseOf, ht]
          simp only [hf, hb, ite_self, Int.zero_add]
      | some t =>
          have hb : baseOf tracks i = t.base := by simp [baseOf, ht]
          by_cases hi : i ∈ flexible
          · simp only [hi, if_true, factorOf, Int.zero_add, Int.add_assoc]
          · simp only [hi, if_false, hb, Int.zero_add]
            exact congrArg (·, _) (by omega)

/-- The space that the tracks outside `flexible` leave. -/
def leftover (tracks : List Track) (space : Int) (flexible : List Nat) : Int :=
  space - ∑ i ∈ Finset.range tracks.length, if i ∈ flexible then 0 else baseOf tracks i

/-- The factors of the tracks inside `flexible`. -/
def factors (tracks : List Track) (flexible : List Nat) : Int :=
  ∑ i ∈ Finset.range tracks.length, if i ∈ flexible then factorOf tracks i else 0

/-- What the space is divided by. -/
def divisor (tracks : List Track) (flexible : List Nat) : Int := max (factors tracks flexible) 1000

theorem divisor_pos (tracks : List Track) (flexible : List Nat) : 0 < divisor tracks flexible :=
  lt_of_lt_of_le (by decide) (le_max_right _ _)

theorem leftoverAndSum_range (flexible : List Nat) :
    leftoverAndSum tracks (List.range tracks.length) flexible space =
      (leftover tracks space flexible, factors tracks flexible) := by
  rw [leftoverAndSum, leftoverAndSum_eq, Int.zero_add]
  rfl

theorem frac_range (flexible : List Nat) :
    frac tracks (List.range tracks.length) space flexible =
      ⟨leftover tracks space flexible * 1000, divisor tracks flexible⟩ := by
  rw [frac, leftoverAndSum_range, divisor]

variable {flexible : List Nat}

theorem mem_retain {i : Nat} (hflex : ∀ i ∈ flexible, (flexOf tracks i).isSome) :
    i ∈ retain tracks (List.range tracks.length) space flexible ↔
      i ∈ flexible ∧ baseOf tracks i * divisor tracks flexible ≤
        leftover tracks space flexible * factorOf tracks i := by
  rw [retain, leftoverAndSum_range, List.mem_filter]
  refine and_congr_right fun hi => ?_
  obtain ⟨f, hf⟩ := Option.isSome_iff_exists.mp (hflex i hi)
  obtain ⟨t, ht⟩ : ∃ t, tracks[i]? = some t := by
    cases ht : tracks[i]? with
    | none => simp [flexOf, ht] at hf
    | some t => exact ⟨t, rfl⟩
  simp only [fitsShare, ht, hf, decide_eq_true_eq, baseOf, factorOf, divisor, Option.map_some,
    Option.getD_some, ge_iff_le]

/-- Bases and factors are not negative. -/
structure Sized (tracks : List Track) : Prop where
  base_nonneg : ∀ i, 0 ≤ baseOf tracks i
  factor_nonneg : ∀ i, 0 ≤ factorOf tracks i

/-- What a round takes out of the flexible tracks. -/
def dropped (tracks : List Track) (amount : Nat → Int) (flexible kept : List Nat) : Int :=
  ∑ i ∈ Finset.range tracks.length, if i ∈ flexible ∧ i ∉ kept then amount i else 0

theorem leftover_drop (tracks : List Track) (space : Int) {kept : List Nat} (h : kept ⊆ flexible) :
    leftover tracks space flexible =
      leftover tracks space kept + dropped tracks (baseOf tracks) flexible kept := by
  have hsum : (∑ i ∈ Finset.range tracks.length, if i ∈ kept then 0 else baseOf tracks i) =
      (∑ i ∈ Finset.range tracks.length, if i ∈ flexible then 0 else baseOf tracks i) +
        dropped tracks (baseOf tracks) flexible kept := by
    rw [dropped, ← Finset.sum_add_distrib]
    refine Finset.sum_congr rfl fun i _ => ?_
    by_cases hk : i ∈ kept
    · simp [hk, h hk]
    · by_cases hi : i ∈ flexible <;> simp [hk, hi]
  rw [leftover, leftover, hsum]
  omega

theorem factors_drop (tracks : List Track) {kept : List Nat} (h : kept ⊆ flexible) :
    factors tracks flexible = factors tracks kept + dropped tracks (factorOf tracks) flexible kept := by
  rw [factors, factors, dropped, ← Finset.sum_add_distrib]
  refine Finset.sum_congr rfl fun i _ => ?_
  by_cases hk : i ∈ kept
  · simp [hk, h hk]
  · by_cases hi : i ∈ flexible <;> simp [hk, hi]

theorem leftover_nonneg (hsized : Sized tracks)
    (hfit : ∑ i ∈ Finset.range tracks.length, baseOf tracks i ≤ space) (flexible : List Nat) :
    0 ≤ leftover tracks space flexible := by
  have hle : (∑ i ∈ Finset.range tracks.length, if i ∈ flexible then 0 else baseOf tracks i) ≤
      ∑ i ∈ Finset.range tracks.length, baseOf tracks i :=
    Finset.sum_le_sum fun i _ => by
      have := hsized.base_nonneg i
      split <;> omega
  rw [leftover]
  omega

/-- The dropped tracks take at least as much space with them as their factors would have got. -/
theorem dropped_share (space : Int) (hflex : ∀ i ∈ flexible, (flexOf tracks i).isSome) :
    leftover tracks space flexible * dropped tracks (factorOf tracks) flexible
        (retain tracks (List.range tracks.length) space flexible) ≤
      dropped tracks (baseOf tracks) flexible
        (retain tracks (List.range tracks.length) space flexible) * divisor tracks flexible := by
  rw [dropped, dropped, Finset.mul_sum, Finset.sum_mul]
  refine Finset.sum_le_sum fun i _ => ?_
  split
  · rename_i h
    have := mt (mem_retain hflex).mpr h.2
    exact (Int.not_le.mp fun hle => this ⟨h.1, hle⟩).le
  · rw [Int.mul_zero, Int.zero_mul]

/-- **The quotient falls** from round to round. -/
theorem quotient_falls (hsized : Sized tracks)
    (hfit : ∑ i ∈ Finset.range tracks.length, baseOf tracks i ≤ space)
    (hflex : ∀ i ∈ flexible, (flexOf tracks i).isSome) :
    leftover tracks space (retain tracks (List.range tracks.length) space flexible) *
        divisor tracks flexible ≤
      leftover tracks space flexible *
        divisor tracks (retain tracks (List.range tracks.length) space flexible) := by
  have hshare := dropped_share space hflex
  have hL := leftover_nonneg hsized hfit flexible
  have hsub := (retain_sublist tracks (List.range tracks.length) space flexible).subset
  have hleft := leftover_drop tracks space hsub
  have hfac := factors_drop tracks hsub
  generalize retain tracks (List.range tracks.length) space flexible = kept at *
  have hΦ : 0 ≤ dropped tracks (factorOf tracks) flexible kept :=
    Finset.sum_nonneg fun i _ => by
      have := hsized.factor_nonneg i
      split <;> omega
  have hdiv : divisor tracks flexible - dropped tracks (factorOf tracks) flexible kept ≤
      divisor tracks kept := by
    rw [divisor, divisor]
    omega
  have hmul := Int.mul_le_mul_of_nonneg_left hdiv hL
  have hkept : leftover tracks space kept =
      leftover tracks space flexible - dropped tracks (baseOf tracks) flexible kept := by omega
  rw [hkept, Int.sub_mul]
  rw [Int.mul_sub] at hmul
  omega

/-- The share of a track is below its base size. -/
def Frac.Below (fr : Frac) (tracks : List Track) (i : Nat) : Prop :=
  fr.num * factorOf tracks i < baseOf tracks i * (fr.den * 1000)

/-- A dropped track is above its share of every quotient no larger than the one that dropped it. -/
theorem below_of_not_retained {fr : Frac} (hsized : Sized tracks)
    (hflex : ∀ i ∈ flexible, (flexOf tracks i).isSome) (hden : 0 < fr.den)
    (hfalls : fr.num * divisor tracks flexible ≤ leftover tracks space flexible * 1000 * fr.den)
    {i : Nat} (hi : i ∈ flexible) (hout : i ∉ retain tracks (List.range tracks.length) space flexible) :
    fr.Below tracks i := by
  have hlt : leftover tracks space flexible * factorOf tracks i <
      baseOf tracks i * divisor tracks flexible :=
    Int.not_le.mp fun hle => hout ((mem_retain hflex).mpr ⟨hi, hle⟩)
  have h1 := Int.mul_le_mul_of_nonneg_right hfalls (hsized.factor_nonneg i)
  have h2 := Int.mul_lt_mul_of_pos_right hlt (Int.mul_pos (by decide : (0 : Int) < 1000) hden)
  refine lt_of_mul_lt_mul_right ?_ (divisor_pos tracks flexible).le
  nlinarith

/-- What the rounds end in: the tracks that stay flexible fit their shares, those that were
dropped are above theirs, and the quotient is no larger than at the start. -/
structure Settled (tracks : List Track) (space : Int) (flexible : List Nat) (fr : Frac)
    (kept : List Nat) : Prop where
  sublist : kept.Sublist flexible
  den_pos : 0 < fr.den
  num_nonneg : 0 ≤ fr.num
  frac_eq : fr = if kept = [] then Frac.ZERO
    else ⟨leftover tracks space kept * 1000, divisor tracks kept⟩
  fits : ∀ i ∈ kept, baseOf tracks i * divisor tracks kept ≤ leftover tracks space kept * factorOf tracks i
  above : ∀ i ∈ flexible, i ∉ kept → fr.Below tracks i
  falls : fr.num * divisor tracks flexible ≤ leftover tracks space flexible * 1000 * fr.den

theorem findFrLoop_settled (hsized : Sized tracks)
    (hfit : ∑ i ∈ Finset.range tracks.length, baseOf tracks i ≤ space) (flexible : List Nat)
    (hflex : ∀ i ∈ flexible, (flexOf tracks i).isSome) :
    ∃ kept, Settled tracks space flexible
      (findFrLoop tracks (List.range tracks.length) space flexible) kept := by
  induction flexible using findFrLoop.induct tracks (List.range tracks.length) space with
  | case1 =>
      refine ⟨[], .slnil, ?_, ?_, ?_, by simp, by simp, ?_⟩
      all_goals rw [findFrLoop, if_pos rfl]
      · decide
      · decide
      · rw [if_pos rfl]
      · have := leftover_nonneg hsized hfit []
        simp only [Frac.ZERO, Int.zero_mul, Int.mul_one]
        omega
  | case2 flexible hne kept hsame =>
      have hkept : retain tracks (List.range tracks.length) space flexible = flexible :=
        (retain_sublist ..).eq_of_length hsame
      have hL := leftover_nonneg hsized hfit flexible
      refine ⟨flexible, .refl _, ?_, ?_, ?_, ?_, fun i hi hout => absurd hi hout, ?_⟩
      · rw [findFrLoop, if_neg hne]
        dsimp only
        rw [dif_pos hsame, frac_range]
        exact divisor_pos _ _
      · rw [findFrLoop, if_neg hne]
        dsimp only
        rw [dif_pos hsame, frac_range]
        dsimp only
        omega
      · rw [findFrLoop, if_neg hne]
        dsimp only
        rw [dif_pos hsame, frac_range, if_neg hne]
      · intro i hi
        rw [← hkept] at hi
        exact ((mem_retain hflex).mp hi).2
      · rw [findFrLoop, if_neg hne]
        dsimp only
        rw [dif_pos hsame, frac_range]
  | case3 flexible hne kept hless ih =>
      have hloop : findFrLoop tracks (List.range tracks.length) space flexible =
          findFrLoop tracks (List.range tracks.length) space
            (retain tracks (List.range tracks.length) space flexible) := by
        rw [findFrLoop, if_neg hne]
        dsimp only
        rw [dif_neg hless]
      have hsub := retain_sublist tracks (List.range tracks.length) space flexible
      obtain ⟨final, h⟩ := ih fun i hi => hflex i (hsub.subset hi)
      have hfall := quotient_falls hsized hfit hflex
      have hpos := divisor_pos tracks kept
      rw [hloop]
      change Settled tracks space kept _ final at h
      change leftover tracks space kept * _ ≤ _ * divisor tracks kept at hfall
      change ∃ kept_1, Settled tracks space flexible (findFrLoop tracks _ space kept) kept_1
      generalize findFrLoop tracks (List.range tracks.length) space kept = fr at h
      have hfalls : fr.num * divisor tracks flexible ≤ leftover tracks space flexible * 1000 * fr.den := by
        have h1 := Int.mul_le_mul_of_nonneg_right h.falls (divisor_pos tracks flexible).le
        have h2 := Int.mul_le_mul_of_nonneg_right hfall (Int.mul_nonneg (by decide : (0 : Int) ≤ 1000) h.den_pos.le)
        refine Int.le_of_mul_le_mul_right ?_ hpos
        nlinarith
      refine ⟨final, h.sublist.trans hsub, h.den_pos, h.num_nonneg, h.frac_eq, h.fits, ?_, hfalls⟩
      intro i hi hout
      by_cases hk : i ∈ kept
      · exact h.above i hk hout
      · exact below_of_not_retained hsized hflex h.den_pos hfalls hi hk

end Rounds

/-! ## Growing to the share -/

section Growing

variable {tracks : List Track} {gaps : List Int} {fr : Frac}

/-- The app units per flex unit. -/
def Frac.value (fr : Frac) : ℚ := fr.num / fr.den

variable {f : Int} {i : Nat}

theorem Frac.of_eq (hden : 0 < fr.den) (hnum : 0 ≤ fr.num) (hf : 0 ≤ f) :
    fr.of f = fr.num * f / (fr.den * 1000) := by
  unfold Frac.of
  split
  · rename_i h
    have hzero : fr.num = 0 := by omega
    rw [hzero, Int.zero_mul, Int.zero_ediv]
  · exact Int.tdiv_eq_ediv_of_nonneg (Int.mul_nonneg hnum hf)

theorem Frac.of_eq_floor (hden : 0 < fr.den) (hnum : 0 ≤ fr.num) (hf : 0 ≤ f) :
    fr.of f = ⌊fr.value * (f / 1000)⌋ := by
  have hnat : ((fr.den * 1000).toNat : Int) = fr.den * 1000 := Int.toNat_of_nonneg (by omega)
  have hval : fr.value * ((f : ℚ) / 1000) = ((fr.num * f : Int) : ℚ) / ((fr.den * 1000).toNat : ℕ) := by
    rw [← Int.cast_natCast (R := ℚ), hnat, Frac.value]
    push_cast
    rw [div_mul_div_comm]
  rw [Frac.of_eq hden hnum hf, hval, Rat.floor_intCast_div_natCast, hnat]

theorem flexOf_eq_some : flexOf tracks i = some f ↔ ∃ t, tracks[i]? = some t ∧ t.max = .flex f := by
  unfold flexOf
  cases ht : tracks[i]? with
  | none => simp
  | some t => cases hm : t.max <;> simp [hm]

theorem baseOf_map_applyFr (i : Nat) :
    baseOf (tracks.map (Track.applyFr fr)) i =
      match flexOf tracks i with
      | some f => max (baseOf tracks i) (fr.of f)
      | none => baseOf tracks i := by
  rw [baseOf, baseOf, List.getElem?_map, flexOf]
  cases ht : tracks[i]? with
  | none => rfl
  | some t =>
      cases hm : t.max with
      | flex f =>
          simp only [Option.map_some, Option.getD_some, Track.applyFr, hm]
          split
          · exact (max_eq_right (Int.le_of_lt ‹_›)).symm
          · exact (max_eq_left (Int.not_lt.mp ‹_›)).symm
      | fixed | auto | minContent | maxContent | fitContent =>
          simp only [Option.map_some, Option.getD_some, Track.applyFr, hm]

theorem sum_base_eq (tracks : List Track) :
    (tracks.map Track.base).sum = ∑ i ∈ Finset.range tracks.length, baseOf tracks i := by
  induction tracks with
  | nil => rfl
  | cons t tracks ih =>
      rw [List.map_cons, List.sum_cons, ih, List.length_cons, Finset.sum_range_succ']
      exact Int.add_comm _ _

/-- A track after the flexible ones have grown: only the base of a flexible one is larger. -/
structure Track.Grew (t t' : Track) : Prop where
  base_le : t.base ≤ t'.base
  same : t' = { t with base := t'.base }
  inflexible : t.flexible = false → t' = t

theorem Track.grew_applyFr (fr : Frac) (t : Track) : t.Grew (t.applyFr fr) := by
  cases hm : t.max with
  | flex f =>
      have happly : t.applyFr fr = if fr.of f > t.base then { t with base := fr.of f } else t := by
        rw [Track.applyFr, hm]
      rw [happly]
      split
      · exact ⟨Int.le_of_lt ‹_›, rfl, fun h => by simp [Track.flexible, hm] at h⟩
      · exact ⟨Int.le_refl _, rfl, fun _ => rfl⟩
  | fixed | auto | minContent | maxContent | fitContent =>
      have happly : t.applyFr fr = t := by rw [Track.applyFr, hm]
      rw [happly]
      exact ⟨Int.le_refl _, rfl, fun _ => rfl⟩

variable {space : Int} {flexible kept : List Nat}

theorem Settled.baseOf_grown (h : Settled tracks space flexible fr kept)
    (hsized : Sized tracks) (hall : ∀ i, i ∈ flexible ↔ (flexOf tracks i).isSome) (i : Nat) :
    baseOf (tracks.map (Track.applyFr fr)) i =
      if i ∈ kept then leftover tracks space kept * factorOf tracks i / divisor tracks kept
      else baseOf tracks i := by
  rw [baseOf_map_applyFr]
  have hpos := divisor_pos tracks kept
  cases hf : flexOf tracks i with
  | none =>
      have hout : i ∉ kept := fun hk => by
        have := (hall i).mp (h.sublist.subset hk)
        simp [hf] at this
      rw [if_neg hout]
  | some f =>
      have hfac : factorOf tracks i = f := by simp [factorOf, hf]
      have hf0 : 0 ≤ f := hfac ▸ hsized.factor_nonneg i
      dsimp only
      rw [Frac.of_eq h.den_pos h.num_nonneg hf0]
      split
      · rename_i hk
        have hne : kept ≠ [] := List.ne_nil_of_mem hk
        have hfr := h.frac_eq
        rw [if_neg hne] at hfr
        have hfits := h.fits i hk
        rw [hfr, hfac]
        dsimp only
        rw [Int.mul_right_comm, Int.mul_ediv_mul_of_pos_left _ _ (by decide : (0 : Int) < 1000)]
        rw [hfac] at hfits
        exact max_eq_right ((Int.le_ediv_iff_mul_le hpos).mpr hfits)
      · rename_i hk
        have habove := h.above i ((hall i).mpr (by rw [hf]; rfl)) hk
        rw [Frac.Below, hfac] at habove
        exact max_eq_left (Int.ediv_lt_of_lt_mul (Int.mul_pos h.den_pos (by decide)) habove).le

/-- What the kept tracks get together is no more than is left, and less than one unit a track
short of it when their factors sum to one. -/
theorem sum_shares (hL : 0 ≤ leftover tracks space kept) :
    (∑ i ∈ Finset.range tracks.length, if i ∈ kept then
        leftover tracks space kept * factorOf tracks i / divisor tracks kept else 0) ≤
      leftover tracks space kept ∧
    (1000 ≤ factors tracks kept → leftover tracks space kept -
        (∑ i ∈ Finset.range tracks.length, if i ∈ kept then 1 else 0) <
      ∑ i ∈ Finset.range tracks.length, if i ∈ kept then
        leftover tracks space kept * factorOf tracks i / divisor tracks kept else 0) := by
  have hpos := divisor_pos tracks kept
  generalize hS : divisor tracks kept = S at hpos
  generalize leftover tracks space kept = L at hL
  have hsum : L * factors tracks kept =
      ∑ i ∈ Finset.range tracks.length, if i ∈ kept then L * factorOf tracks i else 0 := by
    rw [factors, Finset.mul_sum]
    exact Finset.sum_congr rfl fun i _ => by split <;> simp
  have hle : factors tracks kept ≤ S := hS ▸ le_max_left _ _
  constructor
  · have hfloors : (∑ i ∈ Finset.range tracks.length, if i ∈ kept then L * factorOf tracks i / S else 0) * S ≤
        L * factors tracks kept := by
      rw [hsum, Finset.sum_mul]
      refine Finset.sum_le_sum fun i _ => ?_
      split
      · exact Int.ediv_mul_le _ hpos.ne'
      · rw [Int.zero_mul]
    exact Int.le_of_mul_le_mul_right (hfloors.trans (Int.mul_le_mul_of_nonneg_left hle hL)) hpos
  · intro hone
    have hfull : S = factors tracks kept := by
      rw [← hS, divisor]
      omega
    obtain ⟨j, hj, hne⟩ := Finset.exists_ne_zero_of_sum_ne_zero
      (show factors tracks kept ≠ 0 by omega)
    have hjk : j ∈ kept := by
      by_contra hout
      exact hne (if_neg hout)
    have hterm : ∀ i, (if i ∈ kept then L * factorOf tracks i else 0) ≤
        ((if i ∈ kept then L * factorOf tracks i / S else 0) + if i ∈ kept then 1 else 0) * S := by
      intro i
      split
      · exact (Int.lt_ediv_add_one_mul_self _ hpos).le
      · rw [Int.add_zero, Int.zero_mul]
    have hstrict := Finset.sum_lt_sum (s := Finset.range tracks.length) (fun i _ => hterm i)
      ⟨j, hj, by
        rw [if_pos hjk, if_pos hjk, if_pos hjk]
        exact Int.lt_ediv_add_one_mul_self _ hpos⟩
    rw [← hsum, ← Finset.sum_mul, Finset.sum_add_distrib, ← hfull] at hstrict
    have := lt_of_mul_lt_mul_right hstrict hpos.le
    omega

/-! ## The whole expansion -/

theorem mem_flexibleIn : i ∈ flexibleIn tracks (List.range tracks.length) ↔ (flexOf tracks i).isSome := by
  rw [flexibleIn, List.mem_filter, List.mem_range]
  refine and_iff_right_of_imp fun h => ?_
  obtain ⟨f, hf⟩ := Option.isSome_iff_exists.mp h
  obtain ⟨t, ht, -⟩ := flexOf_eq_some.mp hf
  exact (List.getElem?_eq_some_iff.mp ht).1

/-- The lists of flexible tracks that the rounds of `findFr` run over. -/
inductive Considers (tracks : List Track) (idx : List Nat) (space : Int) : List Nat → Prop
  | start : Considers tracks idx space (flexibleIn tracks idx)
  | next {flexible : List Nat} : Considers tracks idx space flexible →
      Considers tracks idx space (retain tracks idx space flexible)

theorem Considers.sublist {idx : List Nat} (h : Considers tracks idx space flexible) :
    flexible.Sublist (flexibleIn tracks idx) := by
  induction h with
  | start => exact .refl _
  | next _ ih => exact (retain_sublist ..).trans ih

/-- Whatever list a round of `findFr` runs over, the rounds from there give its result. -/
theorem Considers.findFr_eq {idx : List Nat} {gutters : Int}
    (h : Considers tracks idx (space - gutters) flexible) :
    findFr tracks idx gutters space = findFrLoop tracks idx (space - gutters) flexible := by
  induction h with
  | start => rfl
  | @next flexible _ ih =>
      rw [ih]
      by_cases hne : flexible = []
      · subst hne
        rfl
      · by_cases hsame : (retain tracks idx (space - gutters) flexible).length = flexible.length
        · rw [(retain_sublist ..).eq_of_length hsame]
        · rw [findFrLoop, if_neg hne]
          dsimp only
          rw [dif_neg hsame]

/-- The flexible tracks that end at their share of `fr`. -/
def ending (tracks after : List Track) (fr : ℚ) : Finset Nat :=
  {i ∈ Finset.range tracks.length | (flexOf tracks i).isSome ∧
    baseOf after i = ⌊fr * ((factorOf tracks i : ℚ) / 1000)⌋}

/-- What expanding the flexible tracks into a definite space should come to. -/
structure Expanded (tracks : List Track) (gaps : List Int) (a : Int) (after : List Track) : Prop where
  grew : List.Forall₂ Track.Grew tracks after
  within : sumBases tracks gaps ≤ a → sumBases after gaps ≤ a
  common : ∃ fr : ℚ, (∀ i f, flexOf tracks i = some f →
      baseOf after i = max (baseOf tracks i) ⌊fr * ((f : ℚ) / 1000)⌋) ∧
    (1000 ≤ ∑ i ∈ ending tracks after fr, factorOf tracks i →
      a - (ending tracks after fr).card < sumBases after gaps)
  dropped : ∀ flexible, Considers tracks (List.range tracks.length) (a - gaps.sum) flexible →
    ∀ i ∈ flexible, i ∉ retain tracks (List.range tracks.length) (a - gaps.sum) flexible →
      baseOf after i = baseOf tracks i

theorem expandFlexible_definite (items : List Item) (a : Int) (limits : Limits) :
    expandFlexible tracks gaps items (.definite a) limits =
      tracks.map (Track.applyFr (definiteFr tracks gaps a)) := by
  rw [expandFlexible]
  split
  · rename_i hnone
    have hnone : ∀ t ∈ tracks, t.flexible = false := by simpa using hnone
    have hsame : ∀ t ∈ tracks, t.applyFr (definiteFr tracks gaps a) = t := fun t ht =>
      (Track.grew_applyFr _ t).inflexible (hnone t ht)
    exact (List.map_id' tracks).symm.trans (List.map_congr_left fun t ht => (hsame t ht).symm)
  · rfl

theorem length_map_applyFr : (tracks.map (Track.applyFr fr)).length = tracks.length := List.length_map _

/-- A quotient that no track reaches changes nothing. -/
theorem baseOf_map_ZERO (hsized : Sized tracks) (i : Nat) :
    baseOf (tracks.map (Track.applyFr Frac.ZERO)) i = baseOf tracks i := by
  rw [baseOf_map_applyFr]
  cases flexOf tracks i with
  | none => rfl
  | some f =>
      have hzero : Frac.ZERO.of f = 0 := if_pos (Or.inr (Int.le_refl 0))
      dsimp only
      rw [hzero]
      exact max_eq_left (hsized.base_nonneg i)

/-- In one common `fr` every flexible track ends at the larger of its base and its share. -/
theorem baseOf_grown_floor (hsized : Sized tracks) (hden : 0 < fr.den) (hnum : 0 ≤ fr.num)
    (hf : flexOf tracks i = some f) :
    baseOf (tracks.map (Track.applyFr fr)) i = max (baseOf tracks i) ⌊fr.value * ((f : ℚ) / 1000)⌋ := by
  have hf0 : 0 ≤ f := by simpa [factorOf, hf] using hsized.factor_nonneg i
  rw [baseOf_map_applyFr, hf, ← Frac.of_eq_floor hden hnum hf0]

/-- The tracks that end at their share are the ones that stayed flexible. -/
theorem Settled.mem_ending
    (h : Settled tracks space (flexibleIn tracks (List.range tracks.length)) fr kept)
    (hsized : Sized tracks) (hi : i ∈ Finset.range tracks.length) :
    i ∈ ending tracks (tracks.map (Track.applyFr fr)) fr.value ↔ i ∈ kept := by
  rw [ending, Finset.mem_filter, and_iff_right hi]
  constructor
  · rintro ⟨hflex, hbase⟩
    by_contra hout
    obtain ⟨f, hf⟩ := Option.isSome_iff_exists.mp hflex
    have hfac : factorOf tracks i = f := by simp [factorOf, hf]
    have hf0 : 0 ≤ f := hfac ▸ hsized.factor_nonneg i
    rw [h.baseOf_grown hsized (fun i => mem_flexibleIn) i, if_neg hout, hfac,
      ← Frac.of_eq_floor h.den_pos h.num_nonneg hf0, Frac.of_eq h.den_pos h.num_nonneg hf0] at hbase
    have habove := h.above i (mem_flexibleIn.mpr hflex) hout
    rw [Frac.Below, hfac] at habove
    have := Int.ediv_lt_of_lt_mul (Int.mul_pos h.den_pos (by decide)) habove
    omega
  · intro hk
    have hflex := mem_flexibleIn.mp (h.sublist.subset hk)
    obtain ⟨f, hf⟩ := Option.isSome_iff_exists.mp hflex
    have hfac : factorOf tracks i = f := by simp [factorOf, hf]
    refine ⟨hflex, ?_⟩
    have hmax := baseOf_grown_floor hsized h.den_pos h.num_nonneg hf
    have hge : baseOf tracks i ≤ ⌊fr.value * ((f : ℚ) / 1000)⌋ := by
      have hf0 : 0 ≤ f := hfac ▸ hsized.factor_nonneg i
      have hne : kept ≠ [] := List.ne_nil_of_mem hk
      have hfr := h.frac_eq
      rw [if_neg hne] at hfr
      have hfits := h.fits i hk
      rw [hfac] at hfits
      rw [← Frac.of_eq_floor h.den_pos h.num_nonneg hf0, Frac.of_eq h.den_pos h.num_nonneg hf0, hfr]
      dsimp only
      rw [Int.mul_right_comm, Int.mul_ediv_mul_of_pos_left _ _ (by decide : (0 : Int) < 1000)]
      exact (Int.le_ediv_iff_mul_le (divisor_pos _ _)).mpr hfits
    rw [hmax, hfac]
    exact max_eq_right hge

theorem Settled.ending_eq
    (h : Settled tracks space (flexibleIn tracks (List.range tracks.length)) fr kept) (hsized : Sized tracks) :
    ending tracks (tracks.map (Track.applyFr fr)) fr.value =
      {i ∈ Finset.range tracks.length | i ∈ kept} := by
  ext i
  rw [Finset.mem_filter]
  constructor
  · intro hi
    have hrange := (Finset.mem_filter.mp hi).1
    exact ⟨hrange, (h.mem_ending hsized hrange).mp hi⟩
  · exact fun hi => (h.mem_ending hsized hi.1).mpr hi.2

theorem Settled.sum_grown (h : Settled tracks space flexible fr kept)
    (hsized : Sized tracks) (hall : ∀ i, i ∈ flexible ↔ (flexOf tracks i).isSome) :
    ((tracks.map (Track.applyFr fr)).map Track.base).sum = space - leftover tracks space kept +
      ∑ i ∈ Finset.range tracks.length, if i ∈ kept then
        leftover tracks space kept * factorOf tracks i / divisor tracks kept else 0 := by
  rw [sum_base_eq, length_map_applyFr, leftover, Int.sub_sub_self, ← leftover,
    ← Finset.sum_add_distrib]
  refine Finset.sum_congr rfl fun i _ => ?_
  rw [h.baseOf_grown hsized hall i]
  split <;> simp

theorem expanded_definite (hsized : Sized tracks) (a : Int) :
    Expanded tracks gaps a (tracks.map (Track.applyFr (definiteFr tracks gaps a))) := by
  have hgrew : List.Forall₂ Track.Grew tracks (tracks.map (Track.applyFr (definiteFr tracks gaps a))) := by
    rw [List.forall₂_map_right_iff]
    exact List.forall₂_same.mpr fun t _ => Track.grew_applyFr _ t
  by_cases hfull : a - sumBases tracks gaps ≤ 0
  · -- there is nothing to share
    have hfr : definiteFr tracks gaps a = Frac.ZERO := if_pos hfull
    rw [hfr] at hgrew ⊢
    have hsame : sumBases (tracks.map (Track.applyFr Frac.ZERO)) gaps = sumBases tracks gaps := by
      rw [sumBases, sumBases, sum_base_eq, sum_base_eq, length_map_applyFr]
      exact congrArg (· + gaps.sum) (Finset.sum_congr rfl fun i _ => baseOf_map_ZERO hsized i)
    refine ⟨hgrew, fun h => hsame ▸ h, ⟨Frac.ZERO.value, fun i f hf => ?_, fun hone => ?_⟩,
      fun _ _ i _ _ => baseOf_map_ZERO hsized i⟩
    · exact baseOf_grown_floor hsized (by decide) (by decide) hf
    · have hcard : 0 < (ending tracks (tracks.map (Track.applyFr Frac.ZERO)) Frac.ZERO.value).card := by
        rw [Finset.card_pos, Finset.nonempty_iff_ne_empty]
        intro hnone
        rw [hnone, Finset.sum_empty] at hone
        exact absurd hone (by decide)
      omega
  · have hfr : definiteFr tracks gaps a =
        findFr tracks (List.range tracks.length) gaps.sum a := if_neg hfull
    have hfit : ∑ i ∈ Finset.range tracks.length, baseOf tracks i ≤ a - gaps.sum := by
      rw [sumBases, sum_base_eq] at hfull
      omega
    obtain ⟨kept, h⟩ := findFrLoop_settled hsized hfit (flexibleIn tracks (List.range tracks.length))
      fun i hi => mem_flexibleIn.mp hi
    rw [hfr] at hgrew ⊢
    rw [← show findFr tracks (List.range tracks.length) gaps.sum a = findFrLoop tracks
      (List.range tracks.length) (a - gaps.sum) (flexibleIn tracks (List.range tracks.length)) from rfl] at h
    have hL := leftover_nonneg hsized hfit kept
    obtain ⟨hle, hlt⟩ := sum_shares hL
    have htotal := h.sum_grown hsized fun i => mem_flexibleIn
    have hend := h.ending_eq hsized
    refine ⟨hgrew, fun _ => ?_, ⟨_, fun i f hf => baseOf_grown_floor hsized h.den_pos h.num_nonneg hf,
      fun hone => ?_⟩, fun flexible hconsiders i hi hout => ?_⟩
    · rw [sumBases, htotal]
      omega
    · rw [hend, Finset.sum_filter] at hone
      rw [hend, Finset.card_filter, sumBases, htotal]
      have hone : 1000 ≤ factors tracks kept := hone
      have := hlt hone
      push_cast
      omega
    · have hflex : ∀ i ∈ flexible, (flexOf tracks i).isSome := fun i hi =>
        mem_flexibleIn.mp (hconsiders.sublist.subset hi)
      rw [hconsiders.findFr_eq]
      obtain ⟨_, hround⟩ := findFrLoop_settled hsized hfit flexible hflex
      have hbelow := below_of_not_retained hsized hflex hround.den_pos hround.falls hi hout
      rw [baseOf_map_applyFr]
      obtain ⟨f, hf⟩ := Option.isSome_iff_exists.mp (hflex i hi)
      have hfac : factorOf tracks i = f := by simp [factorOf, hf]
      have hf0 : 0 ≤ f := hfac ▸ hsized.factor_nonneg i
      rw [hf]
      dsimp only
      rw [Frac.of_eq hround.den_pos hround.num_nonneg hf0]
      rw [Frac.Below, hfac] at hbelow
      exact max_eq_left (Int.ediv_lt_of_lt_mul (Int.mul_pos hround.den_pos (by decide)) hbelow).le

/-- A length that can only fall settles within as many steps as it has. -/
theorem exists_stable {f : List Nat → List Nat} (hf : ∀ l, (f l).Sublist l) (l : List Nat) :
    ∃ n ≤ l.length, f (f^[n] l) = f^[n] l := by
  induction hlen : l.length using Nat.strong_induction_on generalizing l with
  | _ len ih =>
      by_cases hsame : (f l).length = l.length
      · exact ⟨0, Nat.zero_le _, (hf l).eq_of_length hsame⟩
      · have hlt : (f l).length < len := hlen ▸ lt_of_le_of_ne (hf l).length_le hsame
        obtain ⟨n, hn, hstable⟩ := ih _ hlt (f l) rfl
        exact ⟨n + 1, by omega, hstable⟩

end Growing

end Pelorus.Layout.Grid
