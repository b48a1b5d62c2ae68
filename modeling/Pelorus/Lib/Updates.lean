import Mathlib.Algebra.Order.BigOperators.Group.List
import Mathlib.Algebra.Order.Ring.Int
import Mathlib.Data.List.Basic
import Mathlib.Data.List.Induction

/-
  Lib/Updates.lean --- several updates of one list, and sums over some of its places.

  `updateAll f xs us` runs over the updates `us` in order and changes one place each.  A measure
  that every update raises by a known amount is raised by the sum of these (`total_updateAll`);
  a relation that every update respects holds between the lists, place by place
  (`along_updateAll`).
-/
set_option autoImplicit false

namespace Pelorus.Lib

universe u v

variable {α : Type u} {δ : Type v}

/-- Run over the updates, each changing the element at its place. -/
def updateAll (f : δ → α → α) (xs : List α) (us : List (Nat × δ)) : List α :=
  us.foldl (fun xs u => xs.modify u.1 (f u.2)) xs

@[simp] theorem updateAll_cons (f : δ → α → α) (xs : List α) (u : Nat × δ) (us : List (Nat × δ)) :
    updateAll f xs (u :: us) = updateAll f (xs.modify u.1 (f u.2)) us := rfl

@[simp] theorem length_updateAll (f : δ → α → α) (us : List (Nat × δ)) :
    ∀ xs : List α, (updateAll f xs us).length = xs.length := by
  induction us with
  | nil => exact fun _ => rfl
  | cons u us ih => exact fun xs => (ih _).trans (List.length_modify ..)

/-- Two lists of one length are related place by place. -/
structure Along (R : α → α → Prop) (xs ys : List α) : Prop where
  length_eq : xs.length = ys.length
  rel : ∀ {i : Nat} {a b : α}, xs[i]? = some a → ys[i]? = some b → R a b

variable {R : α → α → Prop}

theorem Along.refl (hrefl : ∀ a, R a a) (xs : List α) : Along R xs xs :=
  ⟨rfl, fun hx hy => Option.some.inj (hx.symm.trans hy) ▸ hrefl _⟩

theorem Along.trans (htrans : ∀ a b c, R a b → R b c → R a c) {xs ys zs : List α}
    (h : Along R xs ys) (h' : Along R ys zs) : Along R xs zs := by
  refine ⟨h.length_eq.trans h'.length_eq, fun {i a c} hx hz => ?_⟩
  have hi : i < ys.length := h.length_eq ▸ (List.getElem?_eq_some_iff.mp hx).1
  have hy := List.getElem?_eq_getElem hi
  exact htrans _ _ _ (h.rel hx hy) (h'.rel hy hz)

theorem along_modify (hrefl : ∀ a, R a a) {f : α → α} (hf : ∀ a, R a (f a)) (i : Nat) (xs : List α) :
    Along R xs (xs.modify i f) := by
  refine ⟨(List.length_modify ..).symm, fun {j a b} hx hy => ?_⟩
  rw [List.getElem?_modify, hx] at hy
  cases hy
  dsimp only
  split
  · exact hf a
  · exact hrefl a

/-- A relation that every update respects holds at every place. -/
theorem along_updateAll (hrefl : ∀ a, R a a) (htrans : ∀ a b c, R a b → R b c → R a c)
    {f : δ → α → α} (us : List (Nat × δ)) :
    ∀ xs : List α, (∀ u ∈ us, ∀ a, R a (f u.2 a)) → Along R xs (updateAll f xs us) := by
  induction us with
  | nil => exact fun xs _ => Along.refl hrefl xs
  | cons u us ih =>
      intro xs h
      have hstep := along_modify hrefl (h u List.mem_cons_self) u.1 xs
      exact hstep.trans htrans (ih _ fun u hu => h u (List.mem_cons_of_mem _ hu))

/-! ## Sums over places -/

/-- The sum of a measure over some places of a list. -/
def total (m : α → Int) (places : List Nat) (xs : List α) : Int :=
  (places.map fun i => xs[i]?.elim 0 m).sum

theorem total_range (m : α → Int) (xs : List α) : total m (List.range xs.length) xs = (xs.map m).sum := by
  induction xs with
  | nil => rfl
  | cons a xs ih =>
      rw [total] at ih ⊢
      rw [List.length_cons, List.range_succ_eq_map, List.map_cons, List.sum_cons, List.map_map,
        List.map_cons, List.sum_cons, ← ih]
      rfl

variable {m : α → Int}

theorem total_mono (hm : ∀ a b, R a b → m a ≤ m b) (places : List Nat)
    {xs ys : List α} (h : Along R xs ys) : total m places xs ≤ total m places ys := by
  refine List.sum_le_sum fun i _ => ?_
  cases hx : xs[i]? with
  | none =>
      have hlen := h.length_eq
      have hy : ys[i]? = none := by
        rw [List.getElem?_eq_none_iff] at hx ⊢
        omega
      rw [hy]
  | some a =>
      have hi : i < ys.length := h.length_eq ▸ (List.getElem?_eq_some_iff.mp hx).1
      have hy := List.getElem?_eq_getElem hi
      rw [hy]
      exact hm _ _ (h.rel hx hy)

theorem total_modify {f : α → α} {d : Int} (hm : ∀ a, m (f a) = m a + d)
    {places : List Nat} (hnodup : places.Nodup) {xs : List α} {i : Nat} (hi : i < xs.length) :
    total m places (xs.modify i f) = total m places xs + if i ∈ places then d else 0 := by
  induction places with
  | nil => rfl
  | cons j places ih =>
      obtain ⟨hfresh, hnodup⟩ := List.nodup_cons.mp hnodup
      have hrest := ih hnodup
      rw [total] at hrest ⊢
      rw [List.map_cons, List.sum_cons, hrest, total, total, List.map_cons, List.sum_cons]
      by_cases hij : i = j
      · subst hij
        rw [List.getElem?_modify_eq, List.getElem?_eq_getElem hi, if_neg hfresh,
          if_pos List.mem_cons_self]
        simp only [Option.map_eq_map, Option.map_some, Option.elim_some, hm]
        omega
      · rw [List.getElem?_modify_ne _ _ hij]
        simp only [List.mem_cons, hij, false_or]
        omega

/-- A measure that every update raises by its own amount is raised by all of them together. -/
theorem total_updateAll {f : Int → α → α} (hm : ∀ d a, m (f d a) = m a + d)
    {places : List Nat} (hnodup : places.Nodup) (us : List (Nat × Int)) : ∀ xs : List α,
      (∀ u ∈ us, u.1 ∈ places ∧ u.1 < xs.length) →
      total m places (updateAll f xs us) = total m places xs + (us.map Prod.snd).sum := by
  induction us with
  | nil => exact fun xs _ => (Int.add_zero _).symm
  | cons u us ih =>
      intro xs h
      obtain ⟨hmem, hi⟩ := h u List.mem_cons_self
      rw [updateAll_cons, ih _ fun u hu => ?_, total_modify (hm u.2) hnodup hi, if_pos hmem,
        List.map_cons, List.sum_cons]
      · omega
      · rw [List.length_modify]
        exact h u (List.mem_cons_of_mem _ hu)

end Pelorus.Lib

/-
  A list walked from left to right with a state.

  `mapAccum f s as` gives each element its result and passes the state on.  What every step
  keeps of the state and of the elements done so far, with their results, holds of the whole
  walk (`mapAccum_keeps`).  A fact about each element and those before it is such a thing:
  it is extended one element at a time (`forall_split_concat`).
-/

namespace Pelorus.Lib

universe u v w

variable {σ : Type u} {α : Type v} {β : Type w}

/-- Give every element its result, passing on a state. -/
def mapAccum (f : σ → α → σ × β) : σ → List α → σ × List β
  | s, [] => (s, [])
  | s, a :: as =>
      let (s, b) := f s a
      let (s, bs) := mapAccum f s as
      (s, b :: bs)

variable {f : σ → α → σ × β}

@[simp] theorem mapAccum_nil (s : σ) : mapAccum f s [] = (s, []) := rfl

@[simp] theorem mapAccum_cons (s : σ) (a : α) (as : List α) :
    mapAccum f s (a :: as) =
      ((mapAccum f (f s a).1 as).1, (f s a).2 :: (mapAccum f (f s a).1 as).2) := rfl

@[simp] theorem length_mapAccum (s : σ) (as : List α) : (mapAccum f s as).2.length = as.length := by
  induction as generalizing s with
  | nil => rfl
  | cons a as ih => rw [mapAccum_cons, List.length_cons, List.length_cons, ih]

theorem mapAccum_keeps_from {P : σ → List (α × β) → Prop} (as : List α) :
    ∀ (s : σ) (done : List (α × β)),
      (∀ s done, ∀ a ∈ as, P s done → P (f s a).1 (done ++ [(a, (f s a).2)])) → P s done →
        P (mapAccum f s as).1 (done ++ as.zip (mapAccum f s as).2) := by
  induction as with
  | nil => exact fun s done _ h => by rwa [mapAccum_nil, List.zip_nil_left, List.append_nil]
  | cons a as ih =>
      intro s done hstep h
      have hrest := ih (f s a).1 _ (fun s done b hb => hstep s done b (List.mem_cons_of_mem _ hb))
        (hstep s done a List.mem_cons_self h)
      rwa [List.append_assoc, List.singleton_append] at hrest

/-- What every step keeps, of the state and of the elements done, the walk keeps. -/
theorem mapAccum_keeps {P : σ → List (α × β) → Prop} {as : List α}
    (hstep : ∀ s done, ∀ a ∈ as, P s done → P (f s a).1 (done ++ [(a, (f s a).2)])) {s : σ}
    (h : P s []) : P (mapAccum f s as).1 (as.zip (mapAccum f s as).2) :=
  mapAccum_keeps_from as s [] hstep h

variable {l : List α}

/-- A fact about each element, with one element more. -/
theorem forall_mem_concat {P : α → Prop} {z : α} (h : ∀ a ∈ l, P a) (hz : P z) : ∀ a ∈ l ++ [z], P a :=
  List.forall_mem_append.mpr ⟨h, List.forall_mem_singleton.mpr hz⟩

/-- A fact about each element and those before it, with one element more. -/
theorem forall_split_concat {Q : List α → α → Prop} {z : α} :
    (∀ before x after, l ++ [z] = before ++ x :: after → Q before x) ↔
      (∀ before x after, l = before ++ x :: after → Q before x) ∧ Q l z := by
  constructor
  · intro h
    refine ⟨fun before x after heq => h before x (after ++ [z]) (by simp [heq]), h l z [] rfl⟩
  · rintro ⟨h, hlast⟩ before x after heq
    rcases List.eq_nil_or_concat after with rfl | ⟨after, y, rfl⟩
    · obtain ⟨rfl, hz⟩ := List.append_inj' heq rfl
      obtain rfl := List.singleton_inj.mp hz
      exact hlast
    · rw [List.concat_eq_append, ← List.cons_append, ← List.append_assoc] at heq
      exact h before x after (List.append_inj_left' heq rfl)

/-- The elements of two lists in a row: those of the second come after the whole first. -/
theorem forall_split_append {Q : List α → α → Prop} {as : List α} (bs : List α)
    (h : ∀ before x after, as = before ++ x :: after → Q before x)
    (h' : ∀ before x after, bs = before ++ x :: after → Q (as ++ before) x) :
    ∀ before x after, as ++ bs = before ++ x :: after → Q before x := by
  induction bs using List.reverseRecOn with
  | nil => rwa [List.append_nil]
  | append_singleton bs z ih =>
      have hsplit := (forall_split_concat (Q := fun before x => Q (as ++ before) x)).mp h'
      rw [← List.append_assoc]
      exact forall_split_concat.mpr ⟨ih hsplit.1, hsplit.2⟩

/-- A relation between each element and those before it. -/
theorem pairwise_of_splits {R : α → α → Prop}
    (h : ∀ before x after, l = before ++ x :: after → ∀ y ∈ before, R y x) : l.Pairwise R := by
  induction l using List.reverseRecOn with
  | nil => exact .nil
  | append_singleton l z ih =>
      obtain ⟨hsplit, hlast⟩ := (forall_split_concat (Q := fun before x => ∀ y ∈ before, R y x)).mp h
      exact List.pairwise_append.mpr ⟨ih hsplit, List.pairwise_singleton _ _, fun y hy x hx =>
        List.mem_singleton.mp hx ▸ hlast y hy⟩

end Pelorus.Lib
