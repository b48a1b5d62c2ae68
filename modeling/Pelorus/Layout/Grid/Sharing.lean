import Pelorus.Layout.Grid.Tracks
import Mathlib.Algebra.Order.BigOperators.Group.List
import Mathlib.Tactic.Ring

/-
  Layout/Grid/Sharing.lean --- sharing the free space of a grid.

  `Sharing` is the invariant between two rounds of `fill`.  A round that spends nothing ends
  the loop.  From the second round on every active track still has room, so no round spends
  nothing (`Sharing.round_hungry`); only the FIRST round can, when there are fewer units than
  tracks and the tracks that are offered them are full.  That is `Stalls`, and
  `space_shared_iff` says that nothing else leaves space over that some track had room for.
-/
set_option autoImplicit false

namespace Pelorus.Layout.Grid

variable {room : Nat → Int} {share extra : Int}

/-! ## One round -/

theorem getD_set_self {given : List Int} {i : Nat} (h : i < given.length) (v : Int) :
    (given.set i v).getD i 0 = v := by
  simp [List.getD_eq_getElem?_getD, h]

theorem getD_set_ne {given : List Int} {i j : Nat} (h : i ≠ j) (v : Int) :
    (given.set i v).getD j 0 = given.getD j 0 := by
  simp [List.getD_eq_getElem?_getD, h]

theorem fillRound_length (room : Nat → Int) (share extra : Int) (active : List Nat) : ∀ (k : Nat) (given : List Int),
    (fillRound room share extra k active given).given.length = given.length := by
  induction active with
  | nil => exact fun _ _ => rfl
  | cons i active ih => exact fun k given => (ih _ _).trans (List.length_set ..)

theorem fillRound_frame (room : Nat → Int) (share extra : Int) (active : List Nat) : ∀ (k : Nat) (given : List Int) (j : Nat), j ∉ active →
    (fillRound room share extra k active given).given.getD j 0 = given.getD j 0 := by
  induction active with
  | nil => exact fun _ _ _ _ => rfl
  | cons i active ih =>
      intro k given j hj
      obtain ⟨hji, hj⟩ := not_or.mp (mt List.mem_cons.mpr hj)
      exact (ih _ _ j hj).trans (getD_set_ne (Ne.symm hji) _)

theorem fillRound_still_sublist (room : Nat → Int) (share extra : Int) (active : List Nat) : ∀ (k : Nat) (given : List Int),
    (fillRound room share extra k active given).still.Sublist active := by
  induction active with
  | nil => exact fun _ _ => .slnil
  | cons i active ih =>
      intro k given
      simp only [fillRound]
      split
      · exact (ih _ _).cons _
      · exact (ih _ _).cons_cons _

/-- What a round does to the tracks it runs over. -/
structure RoundSpec (room : Nat → Int) (active : List Nat) (given : List Int) (r : Round) : Prop where
  grows : ∀ j ∈ active, given.getD j 0 ≤ r.given.getD j 0
  bounded : ∀ j ∈ active, r.given.getD j 0 ≤ max 0 (room j)
  settled : ∀ j ∈ active, j ∉ r.still → r.given.getD j 0 = max 0 (room j)
  hungry : ∀ j ∈ r.still, r.given.getD j 0 < room j

theorem fillRound_spec (hshare : 0 ≤ share) (active : List Nat) : ∀ (k : Nat) (given : List Int),
    active.Nodup → (∀ i ∈ active, i < given.length) →
      (∀ i ∈ active, 0 ≤ given.getD i 0 ∧ given.getD i 0 ≤ max 0 (room i)) →
      RoundSpec room active given (fillRound room share extra k active given) := by
  induction active with
  | nil =>
      intro k given _ _ _
      exact ⟨by simp, by simp, by simp, by simp [fillRound]⟩
  | cons i active ih =>
      intro k given hnodup hrange hbounds
      obtain ⟨hfresh, hnodup⟩ := List.nodup_cons.mp hnodup
      have hi := hrange i List.mem_cons_self
      obtain ⟨h0, hle⟩ := hbounds i List.mem_cons_self
      have hw := want_nonneg hshare extra k
      have hcan : can room i (given.getD i 0) = max (room i - given.getD i 0) 0 := rfl
      simp only [fillRound]
      generalize want share extra k = w at hw ⊢
      generalize can room i (given.getD i 0) = c at hcan ⊢
      generalize htake : given.getD i 0 + min w c = v
      have hself := getD_set_self hi v
      have hne : ∀ j ∈ active, i ≠ j := fun j hj h => hfresh (h ▸ hj)
      have hrec := ih (k + 1) (given.set i v) hnodup
        (fun j hj => by
          rw [List.length_set]
          exact hrange j (List.mem_cons_of_mem _ hj))
        (fun j hj => by
          rw [getD_set_ne (hne j hj)]
          exact hbounds j (List.mem_cons_of_mem _ hj))
      have hrest_i := (fillRound_frame room share extra active (k + 1)
        (given.set i v) i hfresh).trans hself
      generalize fillRound room share extra (k + 1) active (given.set i v) = rest at hrec hrest_i ⊢
      constructor
      case grows =>
        intro j hj
        rcases List.mem_cons.mp hj with rfl | hj
        · rw [hrest_i]
          omega
        · exact (getD_set_ne (hne j hj) _).symm.trans_le (hrec.grows j hj)
      case bounded =>
        intro j hj
        rcases List.mem_cons.mp hj with rfl | hj
        · rw [hrest_i]
          omega
        · exact hrec.bounded j hj
      case settled =>
        intro j hj hout
        dsimp only at hout
        rcases List.mem_cons.mp hj with rfl | hj
        · rw [hrest_i]
          split at hout
          · omega
          · exact absurd List.mem_cons_self hout
        · refine hrec.settled j hj fun h => hout ?_
          split
          · exact h
          · exact List.mem_cons_of_mem _ h
      case hungry =>
        intro j hj
        dsimp only at hj
        split at hj
        · exact hrec.hungry j hj
        · rcases List.mem_cons.mp hj with rfl | hj
          · rw [hrest_i]
            omega
          · exact hrec.hungry j hj

/-! ## What a round spends -/

/-- What the tracks of a round are offered together, `n` of them from position `k`. -/
def offered (share extra : Int) : Nat → Nat → Int
  | _, 0 => 0
  | k, n + 1 => want share extra k + offered share extra (k + 1) n

theorem offered_eq (n : Nat) : ∀ k : Nat,
    offered share extra k n = n * share + max 0 (min (extra - k) n) := by
  induction n with
  | zero =>
      intro k
      rw [offered]
      omega
  | succ n ih =>
      intro k
      have hmul : ((n + 1 : Nat) : Int) * share = n * share + share := by
        rw [Nat.cast_succ, Int.add_mul, Int.one_mul]
      rw [offered, ih (k + 1), hmul, want]
      split <;> omega

theorem offered_space (space : Int) {n : Nat} (hn : n ≠ 0) :
    offered (space / n) (space % n) 0 n = space := by
  have hpos : (0 : Int) < n := by omega
  have hlt := Int.emod_lt_of_pos space hpos
  have hnonneg := Int.emod_nonneg space hpos.ne'
  have hdiv := Int.mul_ediv_add_emod space n
  rw [offered_eq]
  omega

theorem fillRound_spent_le (room : Nat → Int) (share extra : Int) (active : List Nat) : ∀ (k : Nat) (given : List Int),
    (fillRound room share extra k active given).spent ≤ offered share extra k active.length := by
  induction active with
  | nil => exact fun _ _ => Int.le_refl 0
  | cons i active ih => exact fun k given => Int.add_le_add (min_le_left _ _) (ih _ _)

theorem fillRound_spent_of_still (active : List Nat) : ∀ (k : Nat) (given : List Int),
    active.length ≤ (fillRound room share extra k active given).still.length →
      (fillRound room share extra k active given).spent = offered share extra k active.length := by
  induction active with
  | nil => exact fun _ _ _ => rfl
  | cons i active ih =>
      intro k given hlen
      simp only [fillRound, List.length_cons] at hlen ⊢
      split at hlen
      · exact absurd (hlen.trans (fillRound_still_sublist _ _ _ _ _ _).length_le) (Nat.not_succ_le_self _)
      · rename_i hopen
        rw [ih _ _ (Nat.le_of_succ_le_succ hlen), offered]
        omega

/-- A round that spends nothing found no room in any track it offered a unit. -/
theorem can_of_spent_zero (hshare : 0 ≤ share) (active : List Nat) :
    ∀ (k : Nat) (given : List Int), active.Nodup →
      (fillRound room share extra k active given).spent = 0 →
      ∀ p (hp : p < active.length), 0 < want share extra (k + p) →
        room active[p] ≤ given.getD active[p] 0 := by
  induction active with
  | nil => exact fun _ _ _ _ p hp => absurd hp (Nat.not_lt_zero p)
  | cons i active ih =>
      intro k given hnodup hspent p hp hoffer
      obtain ⟨hfresh, hnodup⟩ := List.nodup_cons.mp hnodup
      have htake := le_min (want_nonneg hshare extra k) (can_nonneg room i (given.getD i 0))
      have hrest := fillRound_spent_nonneg room extra hshare active (k + 1)
        (given.set i (given.getD i 0 + min (want share extra k) (can room i (given.getD i 0))))
      simp only [fillRound] at hspent
      have hzero : min (want share extra k) (can room i (given.getD i 0)) = 0 := by omega
      cases p with
      | zero =>
          have hcan : can room i (given.getD i 0) = max (room i - given.getD i 0) 0 := rfl
          simp only [List.getElem_cons_zero, Nat.add_zero] at hoffer ⊢
          omega
      | succ p =>
          have hp := Nat.lt_of_succ_lt_succ hp
          have hne : i ≠ active[p] := fun h => hfresh (h ▸ List.getElem_mem hp)
          rw [List.getElem_cons_succ, ← getD_set_ne hne
            (given.getD i 0 + min (want share extra k) (can room i (given.getD i 0)))]
          refine ih (k + 1) _ hnodup (by omega) p hp ?_
          rwa [Nat.add_assoc, Nat.add_comm 1 p]

/-! ## Sums over the listed tracks -/

/-- What the listed tracks have been given together. -/
def total (idx : List Nat) (given : List Int) : Int := (idx.map fun i => given.getD i 0).sum

theorem total_set {idx : List Nat} {given : List Int} {i : Nat} (hnodup : idx.Nodup)
    (hi : i < given.length) (v : Int) :
    total idx (given.set i v) = total idx given + if i ∈ idx then v - given.getD i 0 else 0 := by
  induction idx with
  | nil => rfl
  | cons j idx ih =>
      obtain ⟨hfresh, hnodup⟩ := List.nodup_cons.mp hnodup
      simp only [total, List.map_cons, List.sum_cons] at ih ⊢
      rw [ih hnodup]
      by_cases hij : i = j
      · subst hij
        rw [getD_set_self hi, if_neg hfresh, if_pos List.mem_cons_self]
        omega
      · rw [getD_set_ne hij]
        simp only [List.mem_cons, hij, false_or]
        omega

theorem fillRound_total (room : Nat → Int) (share extra : Int) {idx : List Nat} (hidx : idx.Nodup) (active : List Nat) :
    ∀ (k : Nat) (given : List Int), active ⊆ idx → (∀ i ∈ idx, i < given.length) →
      total idx (fillRound room share extra k active given).given =
        total idx given + (fillRound room share extra k active given).spent := by
  induction active with
  | nil =>
      intro k given _ _
      simp only [fillRound, Int.add_zero]
  | cons i active ih =>
      intro k given hsub hrange
      have hi := hsub List.mem_cons_self
      simp only [fillRound]
      rw [ih (k + 1) _ (fun j hj => hsub (List.mem_cons_of_mem _ hj))
        (fun j hj => by
          rw [List.length_set]
          exact hrange j hj), total_set hidx (hrange i hi), if_pos hi]
      omega

/-! ## Every round -/

/-- The state of the sharing between two rounds: what has been given stays within the rooms, no
unit is lost, and every track that is no longer active is at its room. -/
structure Sharing (room : Nat → Int) (idx : List Nat) (whole : Int) (active : List Nat)
    (given : List Int) (space : Int) : Prop where
  inRange : ∀ i ∈ idx, i < given.length
  nonneg : ∀ i ∈ idx, 0 ≤ given.getD i 0
  bounded : ∀ i ∈ idx, given.getD i 0 ≤ max 0 (room i)
  conserved : total idx given + space = whole
  space_nonneg : 0 ≤ space
  sub : active ⊆ idx
  nodup : active.Nodup
  settled : ∀ i ∈ idx, i ∉ active → given.getD i 0 = max 0 (room i)

/-- Every active track still has room. -/
def Hungry (room : Nat → Int) (active : List Nat) (given : List Int) : Prop :=
  ∀ i ∈ active, given.getD i 0 < room i

section Rounds

variable {idx active : List Nat} {given : List Int} {whole space : Int}

theorem Sharing.roundSpec (h : Sharing room idx whole active given space) (hshare : 0 ≤ share)
    (extra : Int) (k : Nat) :
    RoundSpec room active given (fillRound room share extra k active given) :=
  fillRound_spec hshare active k given h.nodup (fun i hi => h.inRange i (h.sub hi))
    fun i hi => ⟨h.nonneg i (h.sub hi), h.bounded i (h.sub hi)⟩

theorem Sharing.round (h : Sharing room idx whole active given space) (hidx : idx.Nodup)
    (hactive : active ≠ []) {r : Round}
    (hr : r = fillRound room (space / active.length) (space % active.length) 0 active given) :
    Sharing room idx whole r.still r.given (space - r.spent) := by
  have hshare : 0 ≤ space / (active.length : Int) :=
    Int.ediv_nonneg h.space_nonneg (Int.natCast_nonneg _)
  have hspec := h.roundSpec hshare (space % active.length) 0
  have hframe := fillRound_frame room (space / active.length) (space % active.length)
    active 0 given
  have hlength := fillRound_length room (space / active.length) (space % active.length)
    active 0 given
  have hsub := fillRound_still_sublist room (space / active.length) (space % active.length)
    active 0 given
  have htotal := fillRound_total room (space / active.length) (space % active.length)
    hidx active 0 given h.sub h.inRange
  have hspent := fillRound_spent_le room (space / active.length) (space % active.length)
    active 0 given
  rw [offered_space space (by simpa using hactive)] at hspent
  rw [← hr] at hspec hframe hlength hsub htotal hspent
  constructor
  case inRange => exact fun i hi => hlength.symm ▸ h.inRange i hi
  case nonneg =>
    intro i hi
    by_cases hmem : i ∈ active
    · exact (h.nonneg i hi).trans (hspec.grows i hmem)
    · exact (hframe i hmem).symm ▸ h.nonneg i hi
  case bounded =>
    intro i hi
    by_cases hmem : i ∈ active
    · exact hspec.bounded i hmem
    · exact (hframe i hmem).symm ▸ h.bounded i hi
  case conserved =>
    have := h.conserved
    omega
  case space_nonneg => omega
  case sub => exact fun i hi => h.sub (hsub.subset hi)
  case nodup => exact hsub.nodup h.nodup
  case settled =>
    intro i hi hout
    by_cases hmem : i ∈ active
    · exact hspec.settled i hmem hout
    · exact (hframe i hmem).trans (h.settled i hi hmem)

/-- With room in every active track, a round spends something, and afterwards every track that
is still active has room. -/
theorem Sharing.round_hungry (h : Sharing room idx whole active given space) (hspace : 0 < space)
    (hactive : active ≠ []) (hhungry : Hungry room active given) {r : Round}
    (hr : r = fillRound room (space / active.length) (space % active.length) 0 active given) :
    r.spent ≠ 0 ∧ Hungry room r.still r.given := by
  have hpos : 0 < active.length := List.length_pos_of_ne_nil hactive
  have hshare : 0 ≤ space / (active.length : Int) :=
    Int.ediv_nonneg h.space_nonneg (Int.natCast_nonneg _)
  refine ⟨fun hzero => ?_, fun i hi => ?_⟩
  · rw [hr] at hzero
    have hdiv := Int.mul_ediv_add_emod space active.length
    have hwant : 0 < want (space / active.length) (space % active.length) (0 + 0) := by
      have hmod := Int.emod_nonneg space (b := active.length) (by omega)
      unfold want
      split
      · omega
      · -- nothing remains over, so the share itself is positive
        have hne : space / (active.length : Int) ≠ 0 := fun h => by
          rw [h, Int.mul_zero] at hdiv
          omega
        omega
    have := can_of_spent_zero hshare active 0 given h.nodup hzero 0 hpos hwant
    have := hhungry active[0] (List.getElem_mem hpos)
    omega
  · rw [hr] at hi ⊢
    exact (h.roundSpec hshare _ 0).hungry i hi

theorem Sharing.fill (hidx : idx.Nodup) (fuel : Fuel) (h : Sharing room idx whole active given space) :
    ∃ rest, Sharing room idx whole rest (fill room space active given fuel).given
        (fill room space active given fuel).left ∧
      (Hungry room active given → active.length ^ 2 ≤ fuel.left →
        (fill room space active given fuel).left = 0 ∨ rest = []) := by
  induction space, active, given, fuel using fill.induct room with
  | case1 space active given fuel hloop spent hspend =>
      rw [Grid.fill, dif_pos hloop, hspend]
      refine ⟨active, h, fun _ hfuel => ?_⟩
      have hle : active.length ≤ active.length ^ 2 := Nat.le_self_pow two_ne_zero _
      rw [Fuel.spend_of_le (hle.trans hfuel)] at hspend
      cases hspend
  | case2 space active given fuel hloop spent hspend round hzero =>
      rw [Grid.fill, dif_pos hloop, hspend]
      dsimp only
      rw [dif_pos hzero]
      have hround := h.round hidx hloop.2 rfl
      have hspec := h.round_hungry (r := round) hloop.1 hloop.2
      refine ⟨round.still, ?_, fun hhungry _ => absurd hzero (hspec hhungry rfl).1⟩
      rwa [show (fillRound room (space / active.length) (space % active.length) 0 active given).spent
        = 0 from hzero, Int.sub_zero] at hround
  | case3 space active given fuel hloop spent hspend round hspent ih =>
      rw [Grid.fill, dif_pos hloop, hspend]
      dsimp only
      rw [dif_neg hspent]
      have hround : Sharing room idx whole round.still round.given (space - round.spent) :=
        h.round hidx hloop.2 rfl
      obtain ⟨rest, hrest, hdone⟩ := ih hround
      refine ⟨rest, hrest, fun hhungry hfuel => ?_⟩
      have hhungry' := (h.round_hungry (r := round) hloop.1 hloop.2 hhungry rfl).2
      have hlen : round.still.length ≤ active.length := (fillRound_still_sublist _ _ _ active 0 given).length_le
      have hpos := List.length_pos_of_ne_nil hloop.2
      have hle : active.length ≤ active.length ^ 2 := Nat.le_self_pow two_ne_zero _
      rw [Fuel.spend_of_le (hle.trans hfuel), Prod.mk.injEq] at hspend
      obtain ⟨-, rfl⟩ := hspend
      by_cases hsame : active.length ≤ round.still.length
      · -- no track was dropped, so all the space is spent
        have hall : round.spent = space :=
          (fillRound_spent_of_still active 0 given hsame).trans (offered_space space hpos.ne')
        left
        rw [hall, Int.sub_self, Grid.fill, dif_neg (fun h => absurd h.1 (Int.lt_irrefl 0))]
      · refine hdone hhungry' ?_
        have hpred : round.still.length ≤ active.length - 1 := by omega
        have hsq := Nat.pow_le_pow_left hpred 2
        obtain ⟨n, hn⟩ : ∃ n, active.length = n + 1 := ⟨active.length - 1, by omega⟩
        rw [hn, Nat.add_sub_cancel] at hsq
        rw [hn] at hfuel ⊢
        have hexp : (n + 1) ^ 2 = n ^ 2 + 2 * n + 1 := by ring
        dsimp only
        omega
  | case4 space active given fuel hdone =>
      rw [Grid.fill, dif_neg hdone]
      refine ⟨active, h, fun _ _ => ?_⟩
      rcases not_and_or.mp hdone with hspace | hactive
      · exact Or.inl (Int.le_antisymm (Int.not_lt.mp hspace) h.space_nonneg)
      · exact Or.inr (not_not.mp hactive)

end Rounds

/-! ## Sharing loses nothing, unless the first round stalls -/

/-- What sharing a space among the listed tracks should end in. -/
structure Fills (room : Nat → Int) (idx : List Nat) (space : Int) (r : Filled) : Prop where
  bounded : ∀ i ∈ idx, 0 ≤ r.given.getD i 0 ∧ r.given.getD i 0 ≤ max 0 (room i)
  conserved : total idx r.given + r.left = space
  left_nonneg : 0 ≤ r.left
  full : 0 < r.left → ∀ i ∈ idx, r.given.getD i 0 = max 0 (room i)

/-- There are more tracks than units to share, the first of them, as many as there are units,
have no room, and some later one has. -/
def Stalls (room : Nat → Int) (idx : List Nat) (space : Int) : Prop :=
  0 < space ∧ space < idx.length ∧ (∀ i ∈ idx.take space.toNat, room i ≤ 0) ∧ ∃ i ∈ idx, 0 < room i

instance (room : Nat → Int) (idx : List Nat) (space : Int) : Decidable (Stalls room idx space) :=
  inferInstanceAs (Decidable (_ ∧ _ ∧ _ ∧ _))

section Start

variable {idx : List Nat} {given : List Int} {space : Int} {fuel : Fuel}

/-- The sharing before its first round. -/
theorem Sharing.start (room : Nat → Int) (hidx : idx.Nodup) (hgiven : ∀ i ∈ idx, given[i]? = some 0)
    (hspace : 0 ≤ space) : Sharing room idx space idx given space where
  inRange i hi := (List.getElem?_eq_some_iff.mp (hgiven i hi)).1
  nonneg i hi := by simp [List.getD_eq_getElem?_getD, hgiven i hi]
  bounded i hi := by simp [List.getD_eq_getElem?_getD, hgiven i hi]
  conserved := by
    have hzero : total idx given = (idx.map fun _ => (0 : Int)).sum := by
      refine congrArg List.sum (List.map_congr_left fun i hi => ?_)
      simp [List.getD_eq_getElem?_getD, hgiven i hi]
    rw [hzero]
    simp
  space_nonneg := hspace
  sub := List.Subset.refl idx
  nodup := hidx
  settled i hi hout := absurd hi hout

/-- A first round that spends nothing although some track has room is a stall. -/
theorem stalls_of_spent_zero (h : Sharing room idx space idx given space) (hspace : 0 < space)
    (hgiven : ∀ i ∈ idx, given.getD i 0 = 0)
    (hzero : (fillRound room (space / idx.length) (space % idx.length) 0 idx given).spent = 0)
    (hroom : ∃ i ∈ idx, 0 < room i) : Stalls room idx space := by
  have hshare : 0 ≤ space / (idx.length : Int) :=
    Int.ediv_nonneg hspace.le (Int.natCast_nonneg _)
  have hnone := can_of_spent_zero hshare idx 0 given h.nodup hzero
  obtain ⟨i, hi, hpos⟩ := hroom
  have hlt : space < idx.length := by
    by_contra hge
    obtain ⟨p, hp, rfl⟩ := List.getElem_of_mem hi
    have hone : 1 ≤ space / (idx.length : Int) :=
      (Int.le_ediv_iff_mul_le (by omega)).mpr (by omega)
    have hwant : 0 < want (space / idx.length) (space % idx.length) (0 + p) := by
      unfold want
      split <;> omega
    have := hnone p hp hwant
    have := hgiven _ hi
    omega
  refine ⟨hspace, hlt, fun j hj => ?_, i, hi, hpos⟩
  obtain ⟨p, hp, rfl⟩ := List.getElem_of_mem hj
  rw [List.length_take] at hp
  have hp' : p < idx.length := by omega
  rw [List.getElem_take]
  have hwant : 0 < want (space / idx.length) (space % idx.length) (0 + p) := by
    rw [Int.emod_eq_of_lt hspace.le hlt, want, if_pos (by omega)]
    omega
  have := hnone p hp' hwant
  have := hgiven _ (List.getElem_mem hp')
  omega

/-- A round over tracks that are all without room changes nothing. -/
theorem fillRound_of_no_room (hshare : 0 ≤ share) (active : List Nat) : ∀ (k : Nat) (given : List Int),
    active.Nodup → (∀ p (hp : p < active.length), 0 < want share extra (k + p) →
        room active[p] ≤ given.getD active[p] 0) →
      (fillRound room share extra k active given).spent = 0 ∧
        (fillRound room share extra k active given).given = given := by
  induction active with
  | nil => exact fun _ _ _ _ => ⟨rfl, rfl⟩
  | cons i active ih =>
      intro k given hnodup hnone
      obtain ⟨hfresh, hnodup⟩ := List.nodup_cons.mp hnodup
      have hw := want_nonneg hshare extra k
      have htake : min (want share extra k) (can room i (given.getD i 0)) = 0 := by
        have hcan : can room i (given.getD i 0) = max (room i - given.getD i 0) 0 := rfl
        rcases hw.eq_or_lt with hzero | hpos
        · omega
        · have := hnone 0 (Nat.succ_pos _) hpos
          rw [List.getElem_cons_zero] at this
          omega
      have hsame : given.set i (given.getD i 0) = given := by
        refine List.ext_getElem (List.length_set ..) fun n h h' => ?_
        rw [List.getElem_set]
        split
        · rename_i hin
          subst hin
          simp [h']
        · rfl
      simp only [fillRound, htake, Int.zero_add, Int.add_zero, hsame]
      refine ih (k + 1) _ hnodup fun p hp hwant => ?_
      have := hnone (p + 1) (Nat.succ_lt_succ hp) (by rwa [Nat.add_assoc, Nat.add_comm 1 p] at hwant)
      rwa [List.getElem_cons_succ] at this

theorem unchanged_of_stalls (given : List Int) (hidx : idx.Nodup) (hgiven : ∀ i ∈ idx, given.getD i 0 = 0)
    (h : Stalls room idx space) :
    (fillRound room (space / idx.length) (space % idx.length) 0 idx given).spent = 0 ∧
      (fillRound room (space / idx.length) (space % idx.length) 0 idx given).given = given := by
  obtain ⟨hspace, hlt, hnone, -⟩ := h
  rw [Int.emod_eq_of_lt hspace.le hlt, Int.ediv_eq_zero_of_lt hspace.le hlt]
  refine fillRound_of_no_room (Int.le_refl 0) idx 0 given hidx fun p hp hwant => ?_
  rw [hgiven _ (List.getElem_mem hp)]
  have hbelow : p < space.toNat := by
    unfold want at hwant
    split at hwant <;> omega
  refine hnone _ (List.mem_take_iff_getElem.mpr ⟨p, by omega, rfl⟩)

/-- Whatever the rooms and the fuel, nothing is given beyond a room and no unit is lost. -/
theorem fill_shares (room : Nat → Int) (hidx : idx.Nodup) (hgiven : ∀ i ∈ idx, given[i]? = some 0) (hspace : 0 ≤ space)
    (fuel : Fuel) :
    (∀ i ∈ idx, 0 ≤ (fill room space idx given fuel).given.getD i 0 ∧
        (fill room space idx given fuel).given.getD i 0 ≤ max 0 (room i)) ∧
      total idx (fill room space idx given fuel).given + (fill room space idx given fuel).left = space ∧
      0 ≤ (fill room space idx given fuel).left := by
  obtain ⟨rest, hrest, -⟩ := (Sharing.start room hidx hgiven hspace).fill hidx fuel
  exact ⟨fun i hi => ⟨hrest.nonneg i hi, hrest.bounded i hi⟩, hrest.conserved, hrest.space_nonneg⟩

/-- **Sharing loses nothing** exactly when its first round does not stall. -/
theorem fills_iff (room : Nat → Int) (fuel : Fuel) (hidx : idx.Nodup) (hgiven : ∀ i ∈ idx, given[i]? = some 0) (hspace : 0 ≤ space)
    (hfuel : idx.length ^ 2 + idx.length ≤ fuel.left) :
    Fills room idx space (fill room space idx given fuel) ↔ ¬ Stalls room idx space := by
  have hstart : Sharing room idx space idx given space := Sharing.start room hidx hgiven hspace
  have hzero : ∀ i ∈ idx, given.getD i 0 = 0 := fun i hi => by
    simp [List.getD_eq_getElem?_getD, hgiven i hi]
  have hspend := @Fuel.spend_of_le fuel idx.length (by omega)
  constructor
  · intro h hstall
    obtain ⟨hspent, hsame⟩ := unchanged_of_stalls given hidx hzero hstall
    obtain ⟨hpos, -, -, i, hi, hroom⟩ := hstall
    rw [fill, dif_pos ⟨hpos, List.ne_nil_of_mem hi⟩, hspend] at h
    dsimp only at h
    rw [dif_pos hspent, hsame] at h
    have hfull : given.getD i 0 = max 0 (room i) := h.full hpos i hi
    rw [hzero i hi] at hfull
    omega
  · intro hstall
    obtain ⟨hbound, hsum, hnonneg⟩ := fill_shares room hidx hgiven hspace fuel
    refine ⟨hbound, hsum, hnonneg, fun hleft => ?_⟩
    by_cases hroom : ∃ i ∈ idx, 0 < room i
    · by_cases hloop : 0 < space ∧ idx ≠ []
      · have hspent : (fillRound room (space / idx.length) (space % idx.length) 0 idx given).spent ≠ 0 :=
          fun h => hstall (stalls_of_spent_zero hstart hloop.1 hzero h hroom)
        -- from the second round on every active track has room
        rw [fill, dif_pos hloop, hspend] at hleft ⊢
        dsimp only at hleft ⊢
        rw [dif_neg hspent] at hleft ⊢
        have hlen := (fillRound_still_sublist room (space / idx.length)
          (space % idx.length) idx 0 given).length_le
        obtain ⟨rest, hrest, hdone⟩ :=
          (hstart.round hidx hloop.2 rfl).fill hidx ⟨fuel.left - idx.length⟩
        have hhungry := (hstart.roundSpec (Int.ediv_nonneg hspace (Int.natCast_nonneg idx.length))
          (space % idx.length) 0).hungry
        have hsq := Nat.pow_le_pow_left hlen 2
        rcases hdone hhungry (by dsimp only; omega) with hnone | rfl
        · omega
        · exact fun i hi => hrest.settled i hi (List.not_mem_nil)
      · rcases not_and_or.mp hloop with hno | hno
        · rw [fill, dif_neg hloop] at hleft
          exact absurd hleft hno
        · exact fun i hi => absurd (List.ne_nil_of_mem hi) hno
    · intro i hi
      have hle : room i ≤ 0 := Int.not_lt.mp fun h => hroom ⟨i, hi, h⟩
      have := hbound i hi
      omega

end Start

/-! ## The free space of the grid -/

variable {tracks : List Track} {gaps : List Int} {fuel : Fuel}

theorem fill_length (room : Nat → Int) (space : Int) (active : List Nat) (given : List Int) (fuel : Fuel) :
    (fill room space active given fuel).given.length = given.length := by
  induction space, active, given, fuel using fill.induct room with
  | case1 space active given fuel hloop spent hspend => rw [fill, dif_pos hloop, hspend]
  | case2 space active given fuel hloop spent hspend round hzero =>
      rw [fill, dif_pos hloop, hspend]
      dsimp only
      rw [dif_pos hzero]
      exact fillRound_length _ _ _ active 0 given
  | case3 space active given fuel hloop spent hspend round hspent ih =>
      rw [fill, dif_pos hloop, hspend]
      dsimp only
      rw [dif_neg hspent]
      exact ih.trans (fillRound_length _ _ _ active 0 given)
  | case4 space active given fuel hdone => rw [fill, dif_neg hdone]

theorem fill_frame (room : Nat → Int) (space : Int) (active : List Nat) (given : List Int) (fuel : Fuel) :
    ∀ j, j ∉ active → (fill room space active given fuel).given.getD j 0 = given.getD j 0 := by
  induction space, active, given, fuel using fill.induct room with
  | case1 space active given fuel hloop spent hspend =>
      rw [fill, dif_pos hloop, hspend]
      exact fun _ _ => rfl
  | case2 space active given fuel hloop spent hspend round hzero =>
      rw [fill, dif_pos hloop, hspend]
      dsimp only
      rw [dif_pos hzero]
      exact fillRound_frame _ _ _ active 0 given
  | case3 space active given fuel hloop spent hspend round hspent ih =>
      rw [fill, dif_pos hloop, hspend]
      dsimp only
      rw [dif_neg hspent]
      intro j hj
      have hsub : round.still.Sublist active := fillRound_still_sublist _ _ _ active 0 given
      exact (ih j fun h => hj (hsub.subset h)).trans (fillRound_frame _ _ _ active 0 given j hj)
  | case4 space active given fuel hdone =>
      rw [fill, dif_neg hdone]
      exact fun _ _ => rfl

theorem total_filter {idx : List Nat} {given : List Int} (p : Nat → Bool)
    (h : ∀ i ∈ idx, p i = false → given.getD i 0 = 0) : total (idx.filter p) given = total idx given := by
  induction idx with
  | nil => rfl
  | cons i idx ih =>
      have hrest := ih fun j hj => h j (List.mem_cons_of_mem _ hj)
      rw [total] at hrest ⊢
      cases hp : p i with
      | true => rw [List.filter_cons_of_pos hp, List.map_cons, List.sum_cons, hrest, total, total,
          List.map_cons, List.sum_cons]
      | false =>
          rw [List.filter_cons_of_neg (by simp [hp]), hrest, total, total, List.map_cons,
            List.sum_cons, h i List.mem_cons_self hp, Int.zero_add]

theorem sumBases_grow {given : List Int} (hlen : given.length = tracks.length) (gaps : List Int) :
    sumBases (grow tracks given) gaps = sumBases tracks gaps + given.sum := by
  induction tracks generalizing given with
  | nil =>
      rw [List.length_nil, List.length_eq_zero_iff] at hlen
      subst hlen
      simp [grow, sumBases]
  | cons t tracks ih =>
      cases given with
      | nil => cases hlen
      | cons g given =>
          have hrest := ih (Nat.succ.inj hlen)
          have hcons : grow (t :: tracks) (g :: given) =
              { t with base := t.base + g } :: grow tracks given := rfl
          rw [sumBases] at hrest ⊢
          rw [hcons, List.map_cons, List.sum_cons, sumBases, List.map_cons, List.sum_cons,
            List.sum_cons]
          rw [sumBases] at hrest
          dsimp only
          omega

theorem total_range (given : List Int) : total (List.range given.length) given = given.sum := by
  induction given with
  | nil => rfl
  | cons g given ih =>
      rw [total] at ih ⊢
      rw [List.length_cons, List.range_succ_eq_map, List.map_cons, List.sum_cons, List.map_map]
      exact congrArg (g + ·) ih

/-- A track has reached its growth limit. -/
def Track.AtLimit (t : Track) : Prop := ∃ l, t.limit = some l ∧ l ≤ t.base

theorem getElem?_replicate_zero {n : Nat} {idx : List Nat} (h : ∀ i ∈ idx, i < n) :
    ∀ i ∈ idx, (List.replicate n (0 : Int))[i]? = some 0 :=
  fun i hi => by rw [List.getElem?_replicate_of_lt (h i hi)]

theorem mem_grow {given : List Int} {t' : Track} (hlen : given.length = tracks.length) :
    t' ∈ grow tracks given ↔
      ∃ i, ∃ h : i < tracks.length, t' = { tracks[i] with base := tracks[i].base + given.getD i 0 } := by
  have hzip : (grow tracks given).length = tracks.length := by
    rw [grow, List.length_zipWith, hlen, min_self]
  rw [List.mem_iff_getElem]
  constructor
  · rintro ⟨i, hi, rfl⟩
    have hi' : i < given.length := by omega
    exact ⟨i, hzip ▸ hi, by simp [grow, hi']⟩
  · rintro ⟨i, hi, rfl⟩
    have hi' : i < given.length := by omega
    exact ⟨i, hzip.symm ▸ hi, by simp [grow, hi']⟩

/-- A term of a sum of nonnegative gifts is at most the sum. -/
theorem getD_le_total {idx : List Nat} {given : List Int} (h : ∀ i ∈ idx, 0 ≤ given.getD i 0) {i : Nat}
    (hi : i ∈ idx) : given.getD i 0 ≤ total idx given :=
  List.single_le_sum (by simpa using h) _ (List.mem_map.mpr ⟨i, hi, rfl⟩)

/-- Being at its growth limit is having been given all its room, for a track that cannot have
been given an infinite one. -/
theorem atLimit_grown {i : Nat} (hi : i < tracks.length) {g : Int} (h0 : 0 ≤ g)
    (hle : g ≤ max 0 (limitRoom tracks i)) (hfin : g < INF) :
    Track.AtLimit { tracks[i] with base := tracks[i].base + g } ↔ g = max 0 (limitRoom tracks i) := by
  have hINF : 0 ≤ INF := by decide
  rw [limitRoom, List.getElem?_eq_getElem hi] at hle ⊢
  cases hl : tracks[i].limit with
  | none =>
      simp only [hl, Track.AtLimit] at hle ⊢
      constructor
      · rintro ⟨l, h, -⟩
        cases h
      · intro h
        omega
  | some l =>
      simp only [hl, Track.AtLimit, Option.some.injEq, exists_eq_left'] at hle ⊢
      omega

/-- **Maximizing leaves free space only when every track is at its growth limit**, exactly when
the first round does not stall. -/
theorem maximizeInto_iff {available : Int} (hfree : available - sumBases tracks gaps ≤ INF)
    (hfuel : tracks.length ^ 2 + tracks.length ≤ fuel.left) :
    (0 < available - sumBases (maximizeInto tracks gaps available fuel).1 gaps →
        ∀ t ∈ (maximizeInto tracks gaps available fuel).1, t.AtLimit) ↔
      ¬ Stalls (limitRoom tracks) (List.range tracks.length) (available - sumBases tracks gaps) := by
  generalize hspace : available - sumBases tracks gaps = space at hfree
  by_cases hpos : 0 < space
  · have hrun : (maximizeInto tracks gaps available fuel).1 = grow tracks
        (fill (limitRoom tracks) space (List.range tracks.length)
          (List.replicate tracks.length 0) fuel).given := by
      rw [maximizeInto, hspace, max_eq_left hpos.le, if_neg hpos.ne']
    have hzero := @getElem?_replicate_zero tracks.length (List.range tracks.length)
      fun i hi => List.mem_range.mp hi
    have hlen := fill_length (limitRoom tracks) space (List.range tracks.length)
      (List.replicate tracks.length 0) fuel
    obtain ⟨hbound, hsum, hnonneg⟩ := fill_shares (limitRoom tracks) List.nodup_range hzero hpos.le fuel
    have hiff := fills_iff (limitRoom tracks) fuel List.nodup_range hzero hpos.le
      (by rwa [List.length_range])
    rw [List.length_replicate] at hlen
    rw [hrun, ← hiff]
    generalize fill (limitRoom tracks) space (List.range tracks.length)
      (List.replicate tracks.length 0) fuel = r at hlen hbound hsum hnonneg
    have hgrow := sumBases_grow hlen gaps
    have htotal : total (List.range tracks.length) r.given = r.given.sum := by
      rw [← hlen]
      exact total_range r.given
    have hleft : available - sumBases (grow tracks r.given) gaps = r.left := by omega
    have hAt : ∀ i (hi : i < tracks.length), 0 < r.left →
        (Track.AtLimit { tracks[i] with base := tracks[i].base + r.given.getD i 0 } ↔
          r.given.getD i 0 = max 0 (limitRoom tracks i)) := by
      intro i hi hl
      have hmem := List.mem_range.mpr hi
      have hle := getD_le_total (fun i hi => (hbound i hi).1) hmem
      exact atLimit_grown hi (hbound i hmem).1 (hbound i hmem).2 (by omega)
    rw [hleft]
    constructor
    · intro h
      refine ⟨hbound, hsum, hnonneg, fun hl i hi => ?_⟩
      have hi := List.mem_range.mp hi
      exact (hAt i hi hl).mp (h hl _ ((mem_grow hlen).mpr ⟨i, hi, rfl⟩))
    · intro h hl t ht
      obtain ⟨i, hi, rfl⟩ := (mem_grow hlen).mp ht
      exact (hAt i hi hl).mpr (h.full hl i (List.mem_range.mpr hi))
  · have hrun : (maximizeInto tracks gaps available fuel).1 = tracks := by
      rw [maximizeInto, hspace, max_eq_right (Int.not_lt.mp hpos), if_pos rfl]
    rw [hrun, hspace]
    exact ⟨fun _ h => hpos h.1, fun _ h => absurd h hpos⟩

/-- **Stretching uses up the free space**: no `auto` track runs out of room. -/
theorem stretchAuto_fills {target : Int} (hpos : 0 < target - sumBases tracks gaps)
    (hfree : target - sumBases tracks gaps ≤ INF) (hauto : autoTracks tracks ≠ [])
    (hfuel : tracks.length ^ 2 + tracks.length ≤ fuel.left) :
    sumBases (stretchAuto tracks gaps target fuel).1 gaps = target := by
  generalize hspace : target - sumBases tracks gaps = space at hfree hpos
  have hnodup : (autoTracks tracks).Nodup := List.nodup_range.filter _
  have hmem : ∀ i ∈ autoTracks tracks, i < tracks.length := fun i hi =>
    List.mem_range.mp (List.mem_filter.mp hi).1
  have hcount : (autoTracks tracks).length ≤ tracks.length :=
    (List.length_filter_le _ _).trans (List.length_range).le
  have hzero := getElem?_replicate_zero hmem
  have hlen := fill_length (fun _ => INF) space (autoTracks tracks)
    (List.replicate tracks.length 0) fuel
  rw [List.length_replicate] at hlen
  have hroom : (0 : Int) < INF := by decide
  have hfills := (fills_iff (fun _ => INF) fuel hnodup hzero hpos.le
    ((Nat.add_le_add (Nat.pow_le_pow_left hcount 2) hcount).trans hfuel)).mpr (by
      rintro ⟨-, -, hnone, -⟩
      cases hidx : autoTracks tracks with
      | nil => exact hauto hidx
      | cons i idx =>
          obtain ⟨n, hn⟩ : ∃ n, space.toNat = n + 1 := ⟨space.toNat - 1, by omega⟩
          rw [hidx, hn, List.take_succ_cons] at hnone
          exact absurd (hnone i List.mem_cons_self) (Int.not_le.mpr hroom))
  have hrest := fill_frame (fun _ => INF) space (autoTracks tracks)
    (List.replicate tracks.length 0) fuel
  rw [stretchAuto, hspace, if_pos ⟨hpos, hauto⟩]
  generalize fill (fun _ => INF) space (autoTracks tracks) (List.replicate tracks.length 0) fuel = r
    at hlen hfills hrest
  have htotal : total (autoTracks tracks) r.given = r.given.sum := by
    rw [← total_range r.given, hlen]
    refine total_filter _ fun i hi hout => ?_
    rw [hrest i fun h => by simp [autoTracks, hout] at h]
    simp [List.getD_eq_getElem?_getD, List.mem_range.mp hi]
  have hused : r.left = 0 := by
    by_contra hleft
    have hleft : 0 < r.left := lt_of_le_of_ne hfills.left_nonneg (Ne.symm hleft)
    obtain ⟨i, hi⟩ := List.exists_mem_of_ne_nil _ hauto
    have hfull := hfills.full hleft i hi
    have := getD_le_total (fun i hi => (hfills.bounded i hi).1) hi
    have := hfills.conserved
    omega
  have := hfills.conserved
  have := sumBases_grow hlen gaps
  dsimp only
  omega

/-- **Grid space sharing** loses nothing unless its first round stalls: in `fill` itself and in
maximizing, exactly then; in stretching, which never stalls, always. -/
theorem space_shared_iff {idx : List Nat} {given : List Int} {space available target : Int}
    {fuel fuel' : Fuel} (hidx : idx.Nodup) (hgiven : ∀ i ∈ idx, given[i]? = some 0) (hspace : 0 ≤ space)
    (hfuel : idx.length ^ 2 + idx.length ≤ fuel.left)
    (hfuel' : tracks.length ^ 2 + tracks.length ≤ fuel'.left)
    (hfree : available - sumBases tracks gaps ≤ INF) (htarget : target - sumBases tracks gaps ≤ INF) :
    (Fills room idx space (fill room space idx given fuel) ↔ ¬ Stalls room idx space) ∧
      ((0 < available - sumBases (maximizeInto tracks gaps available fuel').1 gaps →
          ∀ t ∈ (maximizeInto tracks gaps available fuel').1, t.AtLimit) ↔
        ¬ Stalls (limitRoom tracks) (List.range tracks.length) (available - sumBases tracks gaps)) ∧
      (0 < target - sumBases tracks gaps → autoTracks tracks ≠ [] →
        sumBases (stretchAuto tracks gaps target fuel').1 gaps = target) := by
  refine ⟨fills_iff room fuel hidx hgiven hspace hfuel, maximizeInto_iff hfree hfuel', fun hpos hauto => ?_⟩
  exact stretchAuto_fills hpos htarget hauto hfuel'

/-- Two tracks, the first of them full, and three units. -/
theorem space_shared_iff_three :
    (Fills (fun i => if i = 0 then 0 else 5) [0, 1] 3
        (fill (fun i => if i = 0 then 0 else 5) 3 [0, 1] [0, 0] ⟨6⟩) ↔
      ¬ Stalls (fun i => if i = 0 then 0 else 5) [0, 1] 3) ∧
    ((0 < 13 - sumBases (maximizeInto [⟨.fixed 10, .fixed 10, 10, some 10⟩] [0] 13 ⟨2⟩).1 [0] →
        ∀ t ∈ (maximizeInto [⟨.fixed 10, .fixed 10, 10, some 10⟩] [0] 13 ⟨2⟩).1, t.AtLimit) ↔
      ¬ Stalls (limitRoom [⟨.fixed 10, .fixed 10, 10, some 10⟩]) (List.range 1)
        (13 - sumBases [⟨.fixed 10, .fixed 10, 10, some 10⟩] [0])) ∧
    (0 < 10 - sumBases [⟨.fixed 10, .fixed 10, 10, some 10⟩] [0] →
      autoTracks [⟨.fixed 10, .fixed 10, 10, some 10⟩] ≠ [] →
      sumBases (stretchAuto [⟨.fixed 10, .fixed 10, 10, some 10⟩] [0] 10 ⟨2⟩).1 [0] = 10) :=
  space_shared_iff (by decide) (by decide) (by decide) (by decide) (by decide) (by decide) (by decide)

/-- One unit for a full track and a track with room: the unit is left over. -/
theorem unit_left_over :
    ¬ Fills (fun i => if i = 0 then 0 else 5) [0, 1] 1
      (fill (fun i => if i = 0 then 0 else 5) 1 [0, 1] [0, 0] ⟨40000000⟩) :=
  fun h => (fills_iff _ _ (by decide) (by decide) (by decide) (by decide)).mp h (by decide)

end Pelorus.Layout.Grid
