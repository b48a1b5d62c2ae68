import Mathlib.Logic.Relation
import Pelorus.Broker.Slots

/-
  Broker/Embedding.lean --- the frames embedded in a frame, and the removal of frames.

  A pass over the slots finds the slots whose parent was found before or during the pass.
  A pass that finds none has found them all, and there are not more passes that find one
  than there are slots: `descendants` returns exactly the slots reached from the seed by
  one or more steps from parent to child (`mem_descendants`).
-/
set_option autoImplicit false

namespace Pelorus.Broker.FrameTree

open Ipc (FrameId)

variable {t t' : FrameTree} {f g p : FrameId} {s s' : FrameSlot} {seed : Finset Nat}

/-- The frame in slot `i` is embedded in the one in slot `p`. -/
def Embeds (t : FrameTree) (p i : Nat) : Prop :=
  ∃ s, t.slots[i]? = some s ∧ s.lifecycle ≠ .free ∧ s.parent.bind t.resolve = some p

/-- What a pass over the slots from index `i` on did. -/
structure Pass (t : FrameTree) (seed : Finset Nat) (i : Nat) (found : Finset Nat)
    (result : Finset Nat × Bool) : Prop where
  grows : found ⊆ result.1
  strict : result.2 = true → found.card < result.1.card
  settled : result.2 = false → result.1 = found ∧
    ∀ j p, i ≤ j → t.Embeds p j → p ∈ seed ∨ p ∈ found → j ∈ found
  bounded : found ⊆ Finset.range t.slots.length → result.1 ⊆ Finset.range t.slots.length
  sound : ∀ T : Nat → Prop, (∀ p j, p ∈ seed ∨ T p → t.Embeds p j → T j) →
    (∀ j ∈ found, T j) → ∀ j ∈ result.1, T j

variable {i : Nat} {c : ChannelId}

theorem Pass.skip {found : Finset Nat} {result : Finset Nat × Bool}
    (h : Pass t seed (i + 1) found result)
    (hi : ∀ p, t.Embeds p i → p ∈ seed ∨ p ∈ found → i ∈ found) : Pass t seed i found result where
  grows := h.grows
  strict := h.strict
  bounded := h.bounded
  sound := h.sound
  settled hquiet := by
    obtain ⟨heq, hall⟩ := h.settled hquiet
    refine ⟨heq, fun j p hj hembeds hp => ?_⟩
    rcases Nat.eq_or_lt_of_le hj with rfl | hlt
    · exact hi p hembeds hp
    · exact hall j p hlt hembeds hp

theorem Pass.find {q : Nat} {found : Finset Nat} {result : Finset Nat × Bool}
    (h : Pass t seed (i + 1) (insert i found) result) (hnew : i ∉ found) (hembeds : t.Embeds q i)
    (hq : q ∈ seed ∨ q ∈ found) : Pass t seed i found (result.1, true) where
  grows := (Finset.subset_insert i found).trans h.grows
  strict _ := by
    calc found.card < (insert i found).card := by rw [Finset.card_insert_of_notMem hnew]; omega
      _ ≤ result.1.card := Finset.card_le_card h.grows
  settled hquiet := absurd hquiet (by simp)
  bounded hle := by
    apply h.bounded
    intro j hj
    rcases Finset.mem_insert.mp hj with rfl | hj
    · obtain ⟨s, hs, -⟩ := hembeds
      exact Finset.mem_range.mpr (List.getElem?_eq_some_iff.mp hs).1
    · exact hle hj
  sound T hT hfound := by
    apply h.sound T hT
    intro j hj
    rcases Finset.mem_insert.mp hj with rfl | hj
    · exact hT q j (hq.imp_right (hfound q)) hembeds
    · exact hfound j hj

theorem sweep_spec (t : FrameTree) (seed : Finset Nat) : ∀ (slots : List FrameSlot) (i : Nat)
    (found : Finset Nat), (∀ k, slots[k]? = t.slots[i + k]?) →
    Pass t seed i found (t.sweep seed i slots found)
  | [], i, found, hslots => by
      refine ⟨Finset.Subset.refl _, by simp [sweep], fun _ => ⟨rfl, ?_⟩, id, fun _ _ h => h⟩
      rintro j p hj ⟨s, hs, -⟩ -
      have hnone := hslots (j - i)
      rw [Nat.add_sub_cancel' hj, hs] at hnone
      cases hnone
  | slot :: slots, i, found, hslots => by
      have hslot : t.slots[i]? = some slot := (hslots 0).symm
      have hrest : ∀ k, slots[k]? = t.slots[i + 1 + k]? := fun k => by
        rw [Nat.add_right_comm]
        exact hslots (k + 1)
      unfold sweep
      split
      · rename_i hskip
        refine (sweep_spec t seed slots (i + 1) found hrest).skip fun p hembeds _ => ?_
        obtain ⟨s, hs, hfree, -⟩ := hembeds
        rw [hslot] at hs
        cases hs
        exact hskip.resolve_left hfree
      · rename_i hnot
        rw [not_or] at hnot
        split
        · rename_i hnone
          refine (sweep_spec t seed slots (i + 1) found hrest).skip fun p hembeds _ => ?_
          obtain ⟨s, hs, -, hp⟩ := hembeds
          rw [hslot] at hs
          cases hs
          rw [hnone] at hp
          cases hp
        · rename_i q hq
          split
          · rename_i hseen
            exact (sweep_spec t seed slots (i + 1) (insert i found) hrest).find hnot.2
              ⟨slot, hslot, hnot.1, hq⟩ hseen
          · rename_i hunseen
            refine (sweep_spec t seed slots (i + 1) found hrest).skip fun p hembeds hp => ?_
            obtain ⟨s, hs, -, hp'⟩ := hembeds
            rw [hslot] at hs
            cases hs
            rw [hq] at hp'
            cases hp'
            exact absurd hp hunseen

theorem sweeps_succ (t : FrameTree) (seed : Finset Nat) (fuel : Nat) (found : Finset Nat) :
    t.sweeps seed (fuel + 1) found =
      if (t.sweep seed 0 t.slots found).2 then t.sweeps seed fuel (t.sweep seed 0 t.slots found).1
      else (t.sweep seed 0 t.slots found).1 := rfl

/-- Nothing more is to be found. -/
def Closed (t : FrameTree) (seed found : Finset Nat) : Prop :=
  ∀ j p, t.Embeds p j → p ∈ seed ∨ p ∈ found → j ∈ found

theorem sweeps_closed (t : FrameTree) (seed : Finset Nat) : ∀ (fuel : Nat) (found : Finset Nat),
    found ⊆ Finset.range t.slots.length → t.slots.length < fuel + found.card →
    t.Closed seed (t.sweeps seed fuel found)
  | 0, found, hle, hfuel => by
      have hcard := Finset.card_le_card hle
      rw [Finset.card_range] at hcard
      omega
  | fuel + 1, found, hle, hfuel => by
      have hpass := sweep_spec t seed t.slots 0 found fun k => by rw [Nat.zero_add]
      rw [sweeps_succ]
      split
      · rename_i hgrew
        apply sweeps_closed t seed fuel _ (hpass.bounded hle)
        have := hpass.strict hgrew
        omega
      · rename_i hquiet
        obtain ⟨heq, hall⟩ := hpass.settled (by simpa using hquiet)
        rw [heq]
        exact fun j p => hall j p (Nat.zero_le j)

theorem sweeps_sound (t : FrameTree) (seed : Finset Nat) {T : Nat → Prop}
    (hT : ∀ p j, p ∈ seed ∨ T p → t.Embeds p j → T j) : ∀ (fuel : Nat) (found : Finset Nat),
    (∀ j ∈ found, T j) → ∀ j ∈ t.sweeps seed fuel found, T j
  | 0, _, hfound => hfound
  | fuel + 1, found, hfound => by
      have hpass := sweep_spec t seed t.slots 0 found fun k => by rw [Nat.zero_add]
      have hsound := hpass.sound T hT hfound
      rw [sweeps_succ]
      split
      · exact sweeps_sound t seed hT fuel _ hsound
      · exact hsound

/-- Below a slot of the seed. -/
def Below (t : FrameTree) (seed : Finset Nat) (i : Nat) : Prop :=
  ∃ r ∈ seed, Relation.TransGen t.Embeds r i

theorem Below.of_embeds {q : Nat} (hq : q ∈ seed ∨ t.Below seed q) (h : t.Embeds q i) : t.Below seed i := by
  rcases hq with hseed | ⟨r, hr, hbelow⟩
  · exact ⟨q, hseed, .single h⟩
  · exact ⟨r, hr, hbelow.tail h⟩

theorem Below.embeds (h : t.Below seed i) : ∃ q, t.Embeds q i ∧ (q ∈ seed ∨ t.Below seed q) := by
  obtain ⟨r, hr, hbelow⟩ := h
  rcases Relation.TransGen.tail'_iff.mp hbelow with ⟨q, hrefl, hembeds⟩
  refine ⟨q, hembeds, ?_⟩
  rcases Relation.reflTransGen_iff_eq_or_transGen.mp hrefl with rfl | htrans
  · exact .inl hr
  · exact .inr ⟨r, hr, htrans⟩

/-- `descendants` are the slots below the seed. -/
theorem mem_descendants : i ∈ t.descendants seed ↔ t.Below seed i := by
  constructor
  · exact sweeps_sound t seed (fun p j hp hembeds => .of_embeds hp hembeds) _ ∅ (by simp) i
  · have hclosed := sweeps_closed t seed (t.slots.length + 1) ∅ (by simp) (by simp)
    rintro ⟨r, hr, hbelow⟩
    induction hbelow with
    | single h => exact hclosed _ _ h (.inl hr)
    | tail _ h ih => exact hclosed _ _ h (.inr ih)

/-! ## Changing slots in place -/

/-- Every slot was changed by a function that keeps generations and revives nothing. -/
structure Updated (h : Nat → FrameSlot → FrameSlot) (t t' : FrameTree) : Prop where
  slots : ∀ i, t'.slots[i]? = (t.slots[i]?).map (h i)
  nextGroup : t'.nextGroup = t.nextGroup
  generation : ∀ i s, (h i s).generation = s.generation
  free : ∀ i s, s.lifecycle = .free → (h i s).lifecycle = .free
  parent : ∀ i s, (h i s).lifecycle ≠ .free → (h i s).parent = s.parent

namespace Updated

variable {h : Nat → FrameSlot → FrameSlot}

theorem at? (hu : Updated h t t') (f : FrameId) :
    t'.at? f = ((t.at? f).map (h f.index.toNat)).filter fun s => s.lifecycle ≠ .free := by
  apply Option.ext
  intro s
  rw [at?_eq_some, hu.slots, Option.filter_eq_some_iff]
  simp only [Option.map_eq_some_iff, at?_eq_some]
  constructor
  · rintro ⟨⟨a, ha, rfl⟩, hgen, hfree⟩
    rw [hu.generation] at hgen
    exact ⟨⟨a, ⟨ha, hgen, fun hf => hfree (hu.free _ _ hf)⟩, rfl⟩, by simpa using hfree⟩
  · rintro ⟨⟨a, ⟨ha, hgen, -⟩, rfl⟩, hfree⟩
    exact ⟨⟨a, ha, rfl⟩, by rw [hu.generation, hgen], by simpa using hfree⟩

theorem length (hu : Updated h t t') : t'.slots.length = t.slots.length := by
  have hnone : ∀ i, t'.slots[i]? = none ↔ t.slots[i]? = none := fun i => by
    rw [hu.slots, Option.map_eq_none_iff]
  simp only [List.getElem?_eq_none_iff] at hnone
  exact Nat.le_antisymm ((hnone _).mpr (Nat.le_refl _)) ((hnone _).mp (Nat.le_refl _))

theorem spent (hu : Updated h t t') (f : FrameId) : t'.Spent f ↔ t.Spent f := by
  unfold Spent
  rw [hu.slots]
  cases t.slots[f.index.toNat]? with
  | none => simp
  | some s => simp [hu.generation]

theorem children_length_le (hu : Updated h t t') (p : FrameId) :
    (t'.children p).length ≤ (t.children p).length := by
  have hslots : t'.slots = t.slots.mapIdx h := by
    apply List.ext_getElem?
    intro i
    rw [hu.slots, List.getElem?_mapIdx]
  have hle : ∀ (slots : List FrameSlot) (k : Nat → FrameSlot → FrameSlot),
      (∀ i s, (k i s).lifecycle ≠ .free → s.lifecycle ≠ .free ∧ (k i s).parent = s.parent) →
      ((slots.mapIdx k).filter fun slot => slot.lifecycle ≠ .free ∧ slot.parent = some p).length ≤
        (slots.filter fun slot => slot.lifecycle ≠ .free ∧ slot.parent = some p).length := by
    intro slots
    induction slots with
    | nil => exact fun _ _ => Nat.le_refl _
    | cons s slots ih =>
        intro k hk
        have ih := ih (fun i => k (i + 1)) fun i => hk (i + 1)
        rw [List.mapIdx_cons, List.filter_cons, List.filter_cons]
        by_cases hnew : (k 0 s).lifecycle ≠ .free ∧ (k 0 s).parent = some p
        · obtain ⟨hfree, hparent⟩ := hk 0 s hnew.1
          have hold : s.lifecycle ≠ .free ∧ s.parent = some p := ⟨hfree, hparent ▸ hnew.2⟩
          rw [if_pos (by simpa using hnew), if_pos (by simpa using hold)]
          exact Nat.succ_le_succ ih
        · rw [if_neg (by simpa using hnew)]
          split
          · exact Nat.le_succ_of_le ih
          · exact ih
  unfold children
  rw [hslots]
  exact hle t.slots h fun i s hfree => ⟨fun hf => hfree (hu.free i s hf), hu.parent i s hfree⟩

end Updated

theorem updated_modify {k : FrameSlot → FrameSlot} (hs : t.at? f = some s)
    (hgen : ∀ s, (k s).generation = s.generation) (hlife : ∀ s, (k s).lifecycle = s.lifecycle)
    (hparent : ∀ s, (k s).parent = s.parent) :
    Updated (fun i s => if i = f.index.toNat then k s else s) t (t.modify f k) := by
  unfold modify
  rw [resolve_of_at? hs]
  constructor
  · intro i
    show (t.slots.modify f.index.toNat k)[i]? = _
    rw [List.getElem?_modify]
    cases t.slots[i]? with
    | none => rfl
    | some s => simp [eq_comm]
  · rfl
  all_goals
    intro i s
    split
    · simp [hgen, hlife, hparent]
    · simp

theorem at?_modify {k : FrameSlot → FrameSlot} (hs : t.at? f = some s)
    (hgen : ∀ s, (k s).generation = s.generation) (hlife : ∀ s, (k s).lifecycle = s.lifecycle)
    (hparent : ∀ s, (k s).parent = s.parent) (g : FrameId) :
    (t.modify f k).at? g = if g = f then some (k s) else t.at? g := by
  rw [(updated_modify hs hgen hlife hparent).at?]
  by_cases hgf : g = f
  · subst hgf
    have hfree := (at?_eq_some.mp hs).2.2
    simp [hs, hlife, hfree, Option.filter]
  · rw [if_neg hgf]
    cases hg : t.at? g with
    | none => rfl
    | some s' =>
        have hi : g.index.toNat ≠ f.index.toNat := fun h =>
          hgf (eq_of_index hg hs (UInt32.toNat_inj.mp h))
        have hfree := (at?_eq_some.mp hg).2.2
        simp [hi, hfree, Option.filter]

theorem updated_freeIndices (indices : Finset Nat) :
    Updated (fun i s => if i ∈ indices then s.freed else s) t (t.freeIndices indices) where
  slots i := by
    show (t.slots.mapIdx _)[i]? = _
    rw [List.getElem?_mapIdx]
  nextGroup := rfl
  generation i s := by
    split <;> rfl
  free i s hfree := by
    split
    · rfl
    · exact hfree
  parent i s hfree := by
    split
    · rename_i hi
      rw [if_pos hi] at hfree
      exact absurd rfl hfree
    · rfl

theorem at?_freeIndices (indices : Finset Nat) (f : FrameId) :
    (t.freeIndices indices).at? f = if f.index.toNat ∈ indices then none else t.at? f := by
  rw [(updated_freeIndices indices).at?]
  cases hf : t.at? f with
  | none => simp [Option.filter]
  | some s =>
      have hfree := (at?_eq_some.mp hf).2.2
      by_cases hi : f.index.toNat ∈ indices
      · simp [hi, Option.filter, FrameSlot.freed]
      · simp [hi, Option.filter, hfree]

/-! ## The end of a channel -/

theorem mem_ownedBy : i ∈ t.ownedBy c ↔
    ∃ s, t.slots[i]? = some s ∧ s.lifecycle = .live ∧ s.owner = some c := by
  unfold ownedBy
  rw [Finset.mem_filter, Finset.mem_range]
  simp only [Option.mem_def]
  exact and_iff_right_of_imp fun ⟨s, hs, _⟩ => (List.getElem?_eq_some_iff.mp hs).1

theorem mem_ownedBy_of_at? (hs : t.at? f = some s) :
    f.index.toNat ∈ t.ownedBy c ↔ s.lifecycle = .live ∧ s.owner = some c := by
  have hslot := (at?_eq_some.mp hs).1
  rw [mem_ownedBy, hslot]
  simp

theorem at?_releaseAll (c : ChannelId) (f : FrameId) : (t.releaseAll c).at? f =
    if f.index.toNat ∈ t.descendants (t.ownedBy c) ∪ t.ownedBy c then none else t.at? f :=
  at?_freeIndices _ f

theorem Updated.trans {h k : Nat → FrameSlot → FrameSlot} {t'' : FrameTree} (hh : Updated h t t')
    (hk : Updated k t' t'') : Updated (fun i s => k i (h i s)) t t'' where
  slots i := by
    rw [hk.slots, hh.slots, Option.map_map]
    rfl
  nextGroup := hk.nextGroup.trans hh.nextGroup
  generation i s := (hk.generation i _).trans (hh.generation i s)
  free i s hfree := hk.free i _ (hh.free i s hfree)
  parent i s hfree := (hk.parent i _ hfree).trans
    (hh.parent i s fun hf => hfree (hk.free i _ hf))

/-- The notices for the frame in slot `i`. -/
def noticesAt (t : FrameTree) (c : ChannelId) (i : Nat) : List (ChannelId × FrameId) :=
  match t.slots[i]? with
  | none => []
  | some s =>
      ((s.parent.bind t.owner).filter fun o => o ≠ c).toList.map fun o =>
        (o, ⟨UInt32.ofNat i, s.generation⟩)

/-- The crash of the frame in slot `i`. -/
def crashAt (t : FrameTree) (i : Nat) : FrameTree :=
  { t with slots := t.slots.modify i FrameSlot.crash }

theorem crashOne_eq {notices : List (ChannelId × FrameId)} (hi : i < 2 ^ 32)
    (hs : t.slots[i]? = some s) :
    crashOne c (t, notices) i = (t.crashAt i, notices ++ t.noticesAt c i) := by
  simp only [crashOne, noticesAt, hs, if_pos hi]
  rfl

theorem slots_crashAt (i j : Nat) :
    (t.crashAt i).slots[j]? = (t.slots[j]?).map fun s => if j = i then s.crash else s := by
  show (t.slots.modify i FrameSlot.crash)[j]? = _
  rw [List.getElem?_modify]
  cases t.slots[j]? with
  | none => rfl
  | some s => simp [eq_comm]

theorem owner_crashAt (hp : p.index.toNat ≠ i) : (t.crashAt i).owner p = t.owner p := by
  have hat : (t.crashAt i).at? p = t.at? p := by
    apply Option.ext
    intro s
    rw [at?_eq_some, at?_eq_some, slots_crashAt]
    cases t.slots[p.index.toNat]? with
    | none => simp
    | some s' => simp [hp]
  unfold owner
  rw [hat]

/-- A frame that may be crashed: its parent is not among the frames to crash. -/
def Crashable (t : FrameTree) (l : List Nat) (i : Nat) : Prop :=
  i < 2 ^ 32 ∧ ∃ s, t.slots[i]? = some s ∧ s.lifecycle = .live ∧
    ∀ p, s.parent = some p → p.index.toNat ∉ l

theorem crash_fold {c : ChannelId} : ∀ (l : List Nat) (t : FrameTree)
    (notices : List (ChannelId × FrameId)), l.Nodup → (∀ i ∈ l, t.Crashable l i) →
    (∀ j, ((l.foldl (crashOne c) (t, notices)).1.slots[j]?) =
      (t.slots[j]?).map fun s => if j ∈ l then s.crash else s) ∧
    (l.foldl (crashOne c) (t, notices)).1.nextGroup = t.nextGroup ∧
    (l.foldl (crashOne c) (t, notices)).2 = notices ++ l.flatMap (t.noticesAt c)
  | [], t, notices, _, _ => by simp
  | i :: l, t, notices, hnodup, hall => by
      obtain ⟨hi, s, hs, hlive, hparent⟩ := hall i List.mem_cons_self
      obtain ⟨hnot, hnodup⟩ := List.nodup_cons.mp hnodup
      have hother : ∀ j ∈ l, (t.crashAt i).slots[j]? = t.slots[j]? := by
        intro j hj
        have hne : j ≠ i := fun h => hnot (h ▸ hj)
        rw [slots_crashAt]
        simp [hne]
      have hrest : ∀ j ∈ l, (t.crashAt i).Crashable l j := by
        intro j hj
        obtain ⟨hlt, s', hs', hlive', hparent'⟩ := hall j (List.mem_cons_of_mem i hj)
        exact ⟨hlt, s', (hother j hj).trans hs', hlive', fun p hp hmem =>
          hparent' p hp (List.mem_cons_of_mem i hmem)⟩
      have hnotices : ∀ j ∈ l, (t.crashAt i).noticesAt c j = t.noticesAt c j := by
        intro j hj
        obtain ⟨-, s', hs', -, hparent'⟩ := hall j (List.mem_cons_of_mem i hj)
        unfold noticesAt
        rw [hother j hj, hs']
        have howner : s'.parent.bind (t.crashAt i).owner = s'.parent.bind t.owner := by
          cases hp : s'.parent with
          | none => rfl
          | some p =>
              exact owner_crashAt fun h => hparent' p hp (h ▸ List.mem_cons_self)
        simp only [howner]
      rw [List.foldl_cons, crashOne_eq hi hs]
      obtain ⟨ihslots, ihgroup, ihnotices⟩ := crash_fold l (t.crashAt i) (notices ++ t.noticesAt c i)
        hnodup hrest
      refine ⟨fun j => ?_, ihgroup, ?_⟩
      · rw [ihslots, slots_crashAt]
        cases t.slots[j]? with
        | none => rfl
        | some s' =>
            by_cases hj : j = i
            · subst hj
              simp [hnot]
            · simp [hj]
      · rw [ihnotices, List.flatMap_cons, List.append_assoc, List.flatMap_congr hnotices]

/-- The slots that a crash of the channel keeps. -/
def crashList (t : FrameTree) (c : ChannelId) : List Nat :=
  (List.range t.slots.length).filter fun i => i ∈ t.ownedBy c ∧ i ∉ t.descendants (t.ownedBy c)

theorem mem_crashList : i ∈ t.crashList c ↔ i ∈ t.ownedBy c ∧ i ∉ t.descendants (t.ownedBy c) := by
  unfold crashList
  rw [List.mem_filter, List.mem_range, decide_eq_true_iff]
  refine and_iff_right_of_imp fun h => ?_
  obtain ⟨s, hs, -⟩ := mem_ownedBy.mp h.1
  exact (List.getElem?_eq_some_iff.mp hs).1

/-- What a crash of the channel does to a slot. -/
def crashSlot (t : FrameTree) (c : ChannelId) (i : Nat) (s : FrameSlot) : FrameSlot :=
  if i ∈ t.descendants (t.ownedBy c) then s.freed
  else if i ∈ t.ownedBy c ∧ s.lifecycle ≠ .free then s.crash
  else s

/-- Handles fit their type, and the parents of frames resolve. -/
structure Linked (t : FrameTree) : Prop where
  length_le : t.slots.length ≤ 2 ^ 32
  resolves : ∀ f s p, t.at? f = some s → s.parent = some p → ∃ sp, t.at? p = some sp

theorem crashable (hl : t.Linked) (c : ChannelId) : ∀ i ∈ t.crashList c, t.Crashable (t.crashList c) i := by
  intro i hi
  obtain ⟨howned, hsafe⟩ := mem_crashList.mp hi
  obtain ⟨s, hs, hlive, -⟩ := mem_ownedBy.mp howned
  have hfree : s.lifecycle ≠ .free := by rw [hlive]; exact Lifecycle.noConfusion
  have hlt : i < 2 ^ 32 := Nat.lt_of_lt_of_le (List.getElem?_eq_some_iff.mp hs).1 hl.length_le
  refine ⟨hlt, s, hs, hlive, fun p hp hmem => hsafe (mem_descendants.mpr ?_)⟩
  obtain ⟨sp, hsp⟩ := hl.resolves _ s p (at?_handle hlt hs hfree) hp
  have hembeds : t.Embeds p.index.toNat i := ⟨s, hs, hfree, by
    rw [hp]
    exact resolve_of_at? hsp⟩
  exact .of_embeds (.inl (mem_crashList.mp hmem).1) hembeds

theorem crashChannel_spec (hl : t.Linked) (c : ChannelId) :
    Updated (t.crashSlot c) t (t.crashChannel c).1 ∧
    (t.crashChannel c).2 = ((t.crashList c).flatMap (t.noticesAt c)).insertionSort noticeLe := by
  have hnodup : (t.crashList c).Nodup := List.Nodup.filter _ List.nodup_range
  obtain ⟨hslots, hgroup, hnotices⟩ := crash_fold (t.crashList c) t [] hnodup (crashable hl c)
  have hcrash : Updated (fun i s => if i ∈ t.crashList c ∧ s.lifecycle ≠ .free then s.crash else s) t
      ((t.crashList c).foldl (crashOne c) (t, [])).1 := by
    refine ⟨fun i => ?_, hgroup, fun i s => ?_, fun i s hfree => ?_, fun i s _ => ?_⟩
    · rw [hslots]
      cases hs : t.slots[i]? with
      | none => rfl
      | some s =>
          by_cases hi : i ∈ t.crashList c
          · obtain ⟨-, s', hs', hlive, -⟩ := crashable hl c i hi
            rw [hs] at hs'
            cases hs'
            simp [hlive]
          · simp [hi]
    · split <;> rfl
    · simp [hfree]
    · split <;> rfl
  constructor
  · have htrans := hcrash.trans (updated_freeIndices (t.descendants (t.ownedBy c)))
    refine ⟨fun i => ?_, htrans.nextGroup, fun i s => ?_, fun i s hfree => ?_, fun i s hfree => ?_⟩
    · show ((((t.crashList c).foldl (crashOne c) (t, [])).1.freeIndices _).slots[i]?) = _
      rw [htrans.slots]
      cases t.slots[i]? with
      | none => rfl
      | some s =>
          by_cases hi : i ∈ t.descendants (t.ownedBy c)
          · by_cases hc : i ∈ t.crashList c ∧ s.lifecycle ≠ .free
            · exact absurd hi (mem_crashList.mp hc.1).2
            · simp [crashSlot, hi, hc]
          · simp [crashSlot, hi, mem_crashList]
    · unfold crashSlot
      split
      · rfl
      · split <;> rfl
    · unfold crashSlot
      split
      · rfl
      · simp [hfree]
    · unfold crashSlot at hfree ⊢
      split
      · rename_i hi
        rw [if_pos hi] at hfree
        exact absurd rfl hfree
      · split <;> rfl
  · show (((t.crashList c).foldl (crashOne c) (t, [])).2).insertionSort noticeLe = _
    rw [hnotices, List.nil_append]

theorem at?_crashChannel (hl : t.Linked) (c : ChannelId) (f : FrameId) :
    (t.crashChannel c).1.at? f =
      if f.index.toNat ∈ t.descendants (t.ownedBy c) then none
      else if f.index.toNat ∈ t.ownedBy c then (t.at? f).map FrameSlot.crash
      else t.at? f := by
  rw [(crashChannel_spec hl c).1.at?]
  cases hf : t.at? f with
  | none => simp [Option.filter]
  | some s =>
      have hfree := (at?_eq_some.mp hf).2.2
      by_cases hdoomed : f.index.toNat ∈ t.descendants (t.ownedBy c)
      · simp [crashSlot, hdoomed, Option.filter, FrameSlot.freed]
      · by_cases howned : f.index.toNat ∈ t.ownedBy c
        · simp [crashSlot, hdoomed, howned, hfree, Option.filter, FrameSlot.crash]
        · simp [crashSlot, hdoomed, howned, hfree, Option.filter]

end Pelorus.Broker.FrameTree
