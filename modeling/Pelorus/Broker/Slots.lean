import Pelorus.Broker.FrameTree

/-
  Broker/Slots.lean --- what the operations on frames do to the slot that a handle
  resolves to.

  Every operation is described by `at?` after it:

      alloc         the new frame has its slot, every other handle the slot it had
      modify        the handle's slot is changed, no other
      freeIndices   the handles of the freed slots resolve no more

  SPENT.  A handle is spent if the slot at its index has had its generation.  A handle
  that resolves is spent, a spent handle stays spent, and a new handle is not yet spent:
  a handle is never given out twice.
-/
set_option autoImplicit false

namespace Pelorus.Broker

open Ipc (FrameId)

theorem checkedSucc_eq_some {α : Type} {toNat : α → Nat} {ofNat : Nat → α} {bound : Nat} {n m : α} :
    checkedSucc toNat ofNat bound n = some m ↔ toNat n + 1 < bound ∧ ofNat (toNat n + 1) = m := by
  simp [checkedSucc]

theorem succU8_toNat {n m : UInt8} (h : succU8 n = some m) : m.toNat = n.toNat + 1 := by
  obtain ⟨hlt, rfl⟩ := checkedSucc_eq_some.mp h
  exact Nat.mod_eq_of_lt hlt

theorem succU32_toNat {n m : UInt32} (h : succU32 n = some m) : m.toNat = n.toNat + 1 := by
  obtain ⟨hlt, rfl⟩ := checkedSucc_eq_some.mp h
  exact Nat.mod_eq_of_lt hlt

theorem succU64_toNat {n m : UInt64} (h : succU64 n = some m) : m.toNat = n.toNat + 1 := by
  obtain ⟨hlt, rfl⟩ := checkedSucc_eq_some.mp h
  exact Nat.mod_eq_of_lt hlt

theorem toNat_ofNat {n : Nat} (h : n < 2 ^ 32) : (UInt32.ofNat n).toNat = n := Nat.mod_eq_of_lt h

theorem frameId_eq {f g : FrameId} (hindex : f.index.toNat = g.index.toNat)
    (hgen : f.generation = g.generation) : f = g := by
  cases f
  cases g
  simp only [FrameId.mk.injEq]
  exact ⟨UInt32.toNat_inj.mp hindex, hgen⟩

/-- A slot whose generation is the last, and its retirement. -/
def Retires (s s' : FrameSlot) : Prop :=
  s' = s ∨ s.lifecycle = .free ∧ succU32 s.generation = none ∧ s' = { s with retired := true }

theorem Retires.generation {s s' : FrameSlot} (h : Retires s s') : s'.generation = s.generation := by
  obtain rfl | ⟨-, -, rfl⟩ := h <;> rfl

theorem Retires.lifecycle {s s' : FrameSlot} (h : Retires s s') : s'.lifecycle = s.lifecycle := by
  obtain rfl | ⟨-, -, rfl⟩ := h <;> rfl

theorem Retires.eq {s s' : FrameSlot} (h : Retires s s') (hfree : s.lifecycle ≠ .free) : s' = s := by
  obtain rfl | ⟨hf, -, -⟩ := h
  · rfl
  · exact absurd hf hfree

namespace FrameTree

variable {t t' : FrameTree} {f g p : FrameId} {s s' : FrameSlot}

/-! ## Handles -/

theorem resolve_eq_some {i : Nat} : t.resolve f = some i ↔
    i = f.index.toNat ∧ ∃ s, t.slots[i]? = some s ∧ s.generation = f.generation ∧ s.lifecycle ≠ .free := by
  unfold resolve
  split
  · rename_i hnone
    constructor
    · intro h
      cases h
    · rintro ⟨rfl, s, hs, -⟩
      rw [hnone] at hs
      cases hs
  · rename_i slot hslot
    constructor
    · intro h
      split at h
      · cases h
      · rename_i hlive
        cases h
        rw [not_or, not_not] at hlive
        exact ⟨rfl, slot, hslot, hlive⟩
    · rintro ⟨rfl, s, hs, hgen, hfree⟩
      rw [hslot] at hs
      cases hs
      rw [if_neg (by simp [hgen, hfree])]

theorem at?_eq_some : t.at? f = some s ↔
    t.slots[f.index.toNat]? = some s ∧ s.generation = f.generation ∧ s.lifecycle ≠ .free := by
  unfold at?
  rw [Option.bind_eq_some_iff]
  constructor
  · rintro ⟨i, hi, hs⟩
    obtain ⟨rfl, s', hs', hgen, hfree⟩ := resolve_eq_some.mp hi
    rw [hs'] at hs
    cases hs
    exact ⟨hs', hgen, hfree⟩
  · rintro ⟨hs, hgen, hfree⟩
    exact ⟨_, resolve_eq_some.mpr ⟨rfl, s, hs, hgen, hfree⟩, hs⟩

theorem resolve_of_at? (h : t.at? f = some s) : t.resolve f = some f.index.toNat := by
  obtain ⟨hs, hgen, hfree⟩ := at?_eq_some.mp h
  exact resolve_eq_some.mpr ⟨rfl, s, hs, hgen, hfree⟩

theorem exists?_eq : t.exists? f = (t.at? f).isSome := by
  unfold exists? at?
  cases h : t.resolve f with
  | none => rfl
  | some i =>
      obtain ⟨-, s, hs, -⟩ := resolve_eq_some.mp h
      simp [hs]

theorem owner_eq_some {c : ChannelId} : t.owner f = some c ↔ ∃ s, t.at? f = some s ∧ s.owner = some c :=
  Option.bind_eq_some_iff

theorem parent_eq_some : t.parent f = some p ↔ ∃ s, t.at? f = some s ∧ s.parent = some p :=
  Option.bind_eq_some_iff

theorem state_eq_live : t.state f = some .live ↔ ∃ s, t.at? f = some s ∧ s.lifecycle = .live := by
  unfold state
  rw [Option.bind_eq_some_iff]
  constructor
  · rintro ⟨s, hs, h⟩
    cases hl : s.lifecycle with
    | live => exact ⟨s, hs, hl⟩
    | free => simp [hl] at h
    | crashed => simp [hl] at h
  · rintro ⟨s, hs, h⟩
    exact ⟨s, hs, by simp [h]⟩

theorem at?_handle {i : Nat} (hi : i < 2 ^ 32) (hs : t.slots[i]? = some s) (hfree : s.lifecycle ≠ .free) :
    t.at? ⟨UInt32.ofNat i, s.generation⟩ = some s := by
  refine at?_eq_some.mpr ⟨?_, rfl, hfree⟩
  show t.slots[(UInt32.ofNat i).toNat]? = some s
  rw [toNat_ofNat hi, hs]

/-- Two handles that resolve to one slot are equal. -/
theorem eq_of_index (hf : t.at? f = some s) (hg : t.at? g = some s') (h : f.index = g.index) : f = g := by
  obtain ⟨hs, hgen, -⟩ := at?_eq_some.mp hf
  obtain ⟨hs', hgen', -⟩ := at?_eq_some.mp hg
  rw [h, hs'] at hs
  cases hs
  exact frameId_eq (congrArg _ h) (hgen.symm.trans hgen')

/-- The slot of the handle has had its generation. -/
def Spent (t : FrameTree) (f : FrameId) : Prop :=
  ∃ s, t.slots[f.index.toNat]? = some s ∧ f.generation.toNat ≤ s.generation.toNat

theorem spent_of_at? (h : t.at? f = some s) : t.Spent f := by
  obtain ⟨hs, hgen, -⟩ := at?_eq_some.mp h
  exact ⟨s, hs, by rw [hgen]⟩

/-! ## Retirement -/

/-- The trees differ in the retirement of slots. -/
def Retired (t t' : FrameTree) : Prop :=
  List.Forall₂ Retires t.slots t'.slots ∧ t'.nextGroup = t.nextGroup

variable {a b : List FrameSlot} {new : UInt32 → FrameSlot}

theorem getElem?_forall₂ (h : List.Forall₂ Retires a b) (i : Nat) :
    (a[i]? = none ∧ b[i]? = none) ∨ ∃ s s', a[i]? = some s ∧ b[i]? = some s' ∧ Retires s s' := by
  induction h generalizing i with
  | nil => exact .inl ⟨rfl, rfl⟩
  | cons hR hrest ih =>
      cases i with
      | zero => exact .inr ⟨_, _, rfl, rfl, hR⟩
      | succ i => simpa using ih i

theorem Retired.at? (h : Retired t t') (f : FrameId) : t'.at? f = t.at? f := by
  apply Option.ext
  intro s
  rw [at?_eq_some, at?_eq_some]
  obtain ⟨ha, hb⟩ | ⟨a, b, ha, hb, hR⟩ := getElem?_forall₂ h.1 f.index.toNat
  · simp [ha, hb]
  · rw [ha, hb]
    constructor
    · rintro ⟨hs, hgen, hfree⟩
      cases hs
      cases hR.eq (hR.lifecycle ▸ hfree)
      exact ⟨rfl, hgen, hfree⟩
    · rintro ⟨hs, hgen, hfree⟩
      cases hs
      cases hR.eq hfree
      exact ⟨rfl, hgen, hfree⟩

theorem Retired.spent (h : Retired t t') (f : FrameId) : t'.Spent f ↔ t.Spent f := by
  unfold Spent
  obtain ⟨ha, hb⟩ | ⟨a, b, ha, hb, hR⟩ := getElem?_forall₂ h.1 f.index.toNat
  · simp [ha, hb]
  · rw [ha, hb]
    simp [hR.generation]

theorem filter_forall₂ (h : List.Forall₂ Retires a b) (p : FrameId) :
    (b.filter fun slot => slot.lifecycle ≠ .free ∧ slot.parent = some p) =
      a.filter fun slot => slot.lifecycle ≠ .free ∧ slot.parent = some p := by
  induction h with
  | nil => rfl
  | @cons s s' a b hR hrest ih =>
      rw [List.filter_cons, List.filter_cons, ih]
      by_cases hfree : s.lifecycle = .free
      · have hfree' : s'.lifecycle = .free := hR.lifecycle.trans hfree
        simp [hfree, hfree']
      · rw [hR.eq hfree]

theorem Retired.children (h : Retired t t') (p : FrameId) : t'.children p = t.children p :=
  filter_forall₂ h.1 p

/-! ## Making frames -/

/-- What the loop of `alloc` did: it filled the first free slot that was not spent, or none. -/
inductive Reuse (new : UInt32 → FrameSlot) (k : Nat) (slots : List FrameSlot) :
    List FrameSlot × Option (Option FrameId) → Prop where
  | filled (before before' after : List FrameSlot) (old : FrameSlot) (next : UInt32)
      (hslots : slots = before ++ old :: after) (hbefore : List.Forall₂ Retires before before')
      (hfree : old.lifecycle = .free) (hnext : succU32 old.generation = some next)
      (hindex : k + before.length < 2 ^ 32) :
      Reuse new k slots
        (before' ++ new next :: after, some (some ⟨UInt32.ofNat (k + before.length), next⟩))
  | nothing (slots' : List FrameSlot) (result : Option (Option FrameId))
      (hslots : List.Forall₂ Retires slots slots')
      (hresult : result = none ∨ result = some none ∧ 2 ^ 32 < k + slots.length) :
      Reuse new k slots (slots', result)

theorem forall₂_refl (slots : List FrameSlot) : List.Forall₂ Retires slots slots :=
  List.forall₂_same.mpr fun _ _ => .inl rfl

theorem Reuse.cons {new : UInt32 → FrameSlot} {k : Nat} {slots : List FrameSlot}
    {result : List FrameSlot × Option (Option FrameId)} (h : Reuse new (k + 1) slots result)
    (hR : Retires s s') : Reuse new k (s :: slots) (s' :: result.1, result.2) := by
  cases h with
  | filled before before' after old next hslots hbefore hfree hnext hindex =>
      subst hslots
      have hlen : k + 1 + before.length = k + (s :: before).length := by
        rw [List.length_cons]
        omega
      rw [hlen] at hindex
      show Reuse new k _ ((s' :: before') ++ new next :: after, some (some ⟨UInt32.ofNat _, next⟩))
      rw [hlen]
      exact .filled (s :: before) (s' :: before') after old next rfl (.cons hR hbefore) hfree hnext hindex
  | nothing slots' result hslots hresult =>
      refine .nothing _ _ (.cons hR hslots) (hresult.imp_right fun h => ⟨h.1, ?_⟩)
      rw [List.length_cons]
      omega

theorem reuse_spec (new : UInt32 → FrameSlot) : ∀ (slots : List FrameSlot) (k : Nat),
    Reuse new k slots (reuse new k slots)
  | [], _ => .nothing [] none .nil (.inl rfl)
  | slot :: slots, k => by
      unfold reuse
      split
      · rename_i hfree
        split
        · rename_i next hnext
          split
          · rename_i hk
            exact .filled [] [] slots slot next rfl .nil hfree.1 hnext hk
          · rename_i hk
            exact .nothing _ _ (forall₂_refl _) (.inr ⟨rfl, by rw [List.length_cons]; omega⟩)
        · rename_i hnext
          exact (reuse_spec new slots (k + 1)).cons (.inr ⟨hfree.1, hnext, rfl⟩)
      · exact (reuse_spec new slots (k + 1)).cons (.inl rfl)

/-- A frame was made in a slot whose new contents are `new` of its generation. -/
structure Minted (new : UInt32 → FrameSlot) (t t' : FrameTree) (f : FrameId) : Prop where
  at? : ∀ g, t'.at? g = if g = f then some (new f.generation) else t.at? g
  fresh : ¬ t.Spent f
  spent : ∀ g, t.Spent g → t'.Spent g
  length : t.slots.length ≤ 2 ^ 32 → t'.slots.length ≤ 2 ^ 32
  children : ∀ p, (t'.children p).length =
    (t.children p).length + if (new f.generation).parent = some p then 1 else 0

theorem length_forall₂ (h : List.Forall₂ Retires a b) : b.length = a.length :=
  h.length_eq.symm

theorem getElem?_filled {before before' : List FrameSlot} (h : List.Forall₂ Retires before before')
    (after : List FrameSlot) (x y : FrameSlot) (i : Nat) :
    (i = before.length ∧ (before ++ x :: after)[i]? = some x ∧ (before' ++ y :: after)[i]? = some y) ∨
    (i ≠ before.length ∧ ∃ b b' : List FrameSlot, List.Forall₂ Retires b b' ∧
      (before ++ x :: after)[i]? = b[i]? ∧ (before' ++ y :: after)[i]? = b'[i]?) := by
  have hlen := length_forall₂ h
  by_cases hi : i = before.length
  · left
    subst hi
    refine ⟨rfl, by simp, ?_⟩
    rw [← hlen]
    simp
  · right
    refine ⟨hi, before ++ x :: after, before' ++ x :: after,
      List.rel_append h (forall₂_refl _), rfl, ?_⟩
    rcases Nat.lt_or_gt_of_ne hi with hlt | hgt
    · rw [List.getElem?_append_left (hlen ▸ hlt), List.getElem?_append_left (hlen ▸ hlt)]
    · rw [List.getElem?_append_right (by omega), List.getElem?_append_right (by omega)]
      obtain ⟨k, hk⟩ : ∃ k, i - before'.length = k + 1 := ⟨i - before'.length - 1, by omega⟩
      rw [hk, List.getElem?_cons_succ, List.getElem?_cons_succ]

/-- The slot that was filled, or the slots that were there up to retirement. -/
theorem Minted.of_slots (hgen : ∀ g, (new g).generation = g) (hlive : ∀ g, (new g).lifecycle = .live)
    {slots' : List FrameSlot} (hnew : slots'[f.index.toNat]? = some (new f.generation))
    (hold : ∀ s, t.slots[f.index.toNat]? = some s →
      s.lifecycle = .free ∧ s.generation.toNat < f.generation.toNat)
    (hother : ∀ i, i ≠ f.index.toNat → (t.slots[i]? = none ∧ slots'[i]? = none) ∨
      ∃ s s', t.slots[i]? = some s ∧ slots'[i]? = some s' ∧ Retires s s')
    (hlength : t.slots.length ≤ 2 ^ 32 → slots'.length ≤ 2 ^ 32)
    (hchildren : ∀ p, ((FrameTree.mk slots' t.nextGroup).children p).length =
      (t.children p).length + if (new f.generation).parent = some p then 1 else 0) :
    Minted new t { t with slots := slots' } f where
  length := hlength
  children := hchildren
  fresh := by
    rintro ⟨s, hs, hle⟩
    exact absurd hle (Nat.not_le.mpr (hold s hs).2)
  spent := by
    rintro g ⟨s, hs, hle⟩
    by_cases hi : g.index.toNat = f.index.toNat
    · rw [hi] at hs
      refine ⟨new f.generation, ?_, ?_⟩
      · show slots'[g.index.toNat]? = _
        rw [hi, hnew]
      · rw [hgen]
        exact Nat.le_of_lt (Nat.lt_of_le_of_lt hle (hold s hs).2)
    · obtain ⟨hnone, -⟩ | ⟨a, b, ha, hb, hR⟩ := hother _ hi
      · rw [hnone] at hs
        cases hs
      · rw [ha] at hs
        cases hs
        exact ⟨b, hb, by rw [hR.generation]; exact hle⟩
  at? := by
    intro g
    apply Option.ext
    intro s
    rw [at?_eq_some]
    show slots'[g.index.toNat]? = some s ∧ _ ↔ _
    by_cases hi : g.index.toNat = f.index.toNat
    · rw [hi, hnew]
      split
      · rename_i hgf
        subst hgf
        constructor
        · rintro ⟨h, -⟩
          exact h
        · intro h
          cases h
          exact ⟨rfl, hgen _, by rw [hlive]; exact Lifecycle.noConfusion⟩
      · rename_i hgf
        constructor
        · rintro ⟨h, hg, -⟩
          cases h
          rw [hgen] at hg
          exact absurd (frameId_eq hi hg.symm) hgf
        · intro h
          obtain ⟨hs, -, hfree⟩ := at?_eq_some.mp h
          rw [hi] at hs
          exact absurd (hold s hs).1 hfree
    · have hgf : g ≠ f := fun h => hi (h ▸ rfl)
      rw [if_neg hgf, at?_eq_some]
      obtain ⟨ha, hb⟩ | ⟨a, b, ha, hb, hR⟩ := hother _ hi
      · simp [ha, hb]
      · rw [ha, hb]
        constructor
        · rintro ⟨h, hg, hfree⟩
          cases h
          cases hR.eq (hR.lifecycle ▸ hfree)
          exact ⟨rfl, hg, hfree⟩
        · rintro ⟨h, hg, hfree⟩
          cases h
          cases hR.eq hfree
          exact ⟨rfl, hg, hfree⟩

theorem minted_filled (hgen : ∀ g, (new g).generation = g)
    (hlive : ∀ g, (new g).lifecycle = .live) {before before' after : List FrameSlot}
    {old : FrameSlot} {next : UInt32} (hslots : t.slots = before ++ old :: after)
    (hbefore : List.Forall₂ Retires before before') (hfree : old.lifecycle = .free)
    (hnext : succU32 old.generation = some next) (hindex : before.length < 2 ^ 32) :
    Minted new t { t with slots := before' ++ new next :: after }
      ⟨UInt32.ofNat before.length, next⟩ := by
  have hpos : (UInt32.ofNat before.length).toNat = before.length := toNat_ofNat hindex
  have hat := getElem?_filled hbefore after old (new next)
  have hself : (before ++ old :: after)[before.length]? = some old := by simp
  have hlen := length_forall₂ hbefore
  apply Minted.of_slots hgen hlive
  · show (before' ++ new next :: after)[(UInt32.ofNat before.length).toNat]? = some (new next)
    rw [hpos, ← hlen]
    simp
  · intro s hs
    have hs : (before ++ old :: after)[(UInt32.ofNat before.length).toNat]? = some s := hslots ▸ hs
    rw [hpos, hself] at hs
    cases hs
    refine ⟨hfree, ?_⟩
    show old.generation.toNat < next.toNat
    rw [succU32_toNat hnext]
    exact Nat.lt_succ_self _
  · intro i hi
    have hi : i ≠ before.length := fun h => hi (h.trans hpos.symm)
    rw [hslots]
    obtain ⟨h, -⟩ | ⟨-, b, b', hb, h, h'⟩ := hat i
    · exact absurd h hi
    · rw [h, h']
      exact getElem?_forall₂ hb i
  · rw [hslots]
    simp only [List.length_append, List.length_cons, hlen]
    exact id
  · intro p
    unfold children
    have hold : (before' ++ old :: after).filter
          (fun slot => slot.lifecycle ≠ .free ∧ slot.parent = some p) =
        t.slots.filter fun slot => slot.lifecycle ≠ .free ∧ slot.parent = some p := by
      rw [hslots]
      exact filter_forall₂ (List.rel_append hbefore (forall₂_refl _)) p
    rw [← hold]
    by_cases hp : (new next).parent = some p
    · simp [List.filter_append, hfree, hlive, hp]
      omega
    · simp [List.filter_append, hfree, hlive, hp]

/-- A slot was appended. -/
theorem minted_pushed (hgen : ∀ g, (new g).generation = g)
    (hlive : ∀ g, (new g).lifecycle = .live) {slots' : List FrameSlot}
    (hslots : List.Forall₂ Retires t.slots slots') (hindex : slots'.length < 2 ^ 32) :
    Minted new t { t with slots := slots' ++ [new 0] } ⟨UInt32.ofNat slots'.length, 0⟩ := by
  have hpos : (UInt32.ofNat slots'.length).toNat = slots'.length := toNat_ofNat hindex
  have hlen := length_forall₂ hslots
  apply Minted.of_slots hgen hlive
  · show (slots' ++ [new 0])[(UInt32.ofNat slots'.length).toNat]? = some (new 0)
    rw [hpos]
    simp
  · intro s hs
    have hs : t.slots[(UInt32.ofNat slots'.length).toNat]? = some s := hs
    rw [hpos, hlen, List.getElem?_eq_none (Nat.le_refl _)] at hs
    cases hs
  · intro i hi
    have hi : i ≠ slots'.length := fun h => hi (h.trans hpos.symm)
    rcases Nat.lt_or_gt_of_ne hi with hlt | hgt
    · rw [List.getElem?_append_left hlt]
      exact getElem?_forall₂ hslots i
    · left
      exact ⟨List.getElem?_eq_none (by omega), List.getElem?_eq_none (by simp; omega)⟩
  · rw [List.length_append]
    exact fun _ => hindex
  · intro p
    unfold children
    rw [← filter_forall₂ hslots p]
    by_cases hp : (new 0).parent = some p
    · simp [List.filter_append, hlive, hp]
    · simp [List.filter_append, hlive, hp]

/-- What `alloc` did. -/
inductive Alloc (new : UInt32 → FrameSlot) (t : FrameTree) : FrameTree × Option FrameId → Prop where
  | minted (t' : FrameTree) (f : FrameId) (h : Minted new t t' f) : Alloc new t (t', some f)
  | full (t' : FrameTree) (h : Retired t t') (hfull : 2 ^ 32 ≤ t.slots.length) : Alloc new t (t', none)

theorem alloc_spec (t : FrameTree) (hgen : ∀ g, (new g).generation = g)
    (hlive : ∀ g, (new g).lifecycle = .live) : Alloc new t (t.alloc new) := by
  have hspec := reuse_spec new t.slots 0
  unfold alloc
  generalize reuse new 0 t.slots = result at hspec
  cases hspec with
  | filled before before' after old next hslots hbefore hfree hnext hindex =>
      rw [Nat.zero_add] at hindex
      show Alloc new t (_, some ⟨UInt32.ofNat (0 + before.length), next⟩)
      rw [Nat.zero_add]
      exact .minted _ _ (minted_filled hgen hlive hslots hbefore hfree hnext hindex)
  | nothing slots' found hslots hresult =>
      obtain rfl | ⟨rfl, hlt⟩ := hresult
      · by_cases hroom : slots'.length < 2 ^ 32
        · simp only [if_pos hroom]
          exact .minted _ _ (minted_pushed hgen hlive hslots hroom)
        · simp only [if_neg hroom]
          exact .full _ ⟨hslots, rfl⟩ (length_forall₂ hslots ▸ Nat.not_lt.mp hroom)
      · exact .full _ ⟨hslots, rfl⟩ (by omega)

end FrameTree

end Pelorus.Broker
