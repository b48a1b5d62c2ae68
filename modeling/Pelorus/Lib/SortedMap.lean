import Mathlib.Order.Lattice
import Mathlib.Algebra.GroupWithZero.Nat
import Mathlib.Data.List.Basic

/-
  Lib/SortedMap.lean --- finite maps as strictly sorted association lists.

  A map carries the proof that its keys are strictly increasing, so two maps with
  the same lookups are the same list (`ext_get?`): what is iterated in key order
  depends on the contents only.

  Besides lookups, the lemmas are about SUMS over the entries, which is how a
  running total is compared with what it should count: `sum_insert` and
  `sum_erase` for one update, `sum_le_sum` for a map contained in another.
-/
set_option autoImplicit false

namespace Pelorus.Lib

/-- A finite map, its entries in strictly increasing key order. -/
structure SortedMap (κ ν : Type) [LinearOrder κ] where
  entries : List (κ × ν)
  sorted : entries.Pairwise fun a b => a.1 < b.1

namespace SortedMap

variable {κ ν : Type} [LinearOrder κ]

/-! ## On lists -/

/-- The value of the first entry with this key. -/
def find (k : κ) : List (κ × ν) → Option ν
  | [] => none
  | (k', v) :: l => if k = k' then some v else find k l

/-- Insert in order, replacing an entry with the same key. -/
def place (k : κ) (v : ν) : List (κ × ν) → List (κ × ν)
  | [] => [(k, v)]
  | (k', v') :: l =>
      if k < k' then (k, v) :: (k', v') :: l
      else if k = k' then (k, v) :: l
      else (k', v') :: place k v l

theorem mem_place {k : κ} {v : ν} {e : κ × ν} : ∀ {l : List (κ × ν)}, e ∈ place k v l →
    e = (k, v) ∨ e ∈ l
  | [], h => by simpa [place] using h
  | (k', v') :: l, h => by
      unfold place at h
      split at h
      · simpa using h
      · split at h
        · rcases List.mem_cons.mp h with h | h
          · exact Or.inl h
          · exact Or.inr (by simp [h])
        · rcases List.mem_cons.mp h with h | h
          · exact Or.inr (by simp [h])
          · rcases mem_place h with h | h
            · exact Or.inl h
            · exact Or.inr (by simp [h])

theorem sorted_place (k : κ) (v : ν) : ∀ {l : List (κ × ν)},
    l.Pairwise (fun a b => a.1 < b.1) → (place k v l).Pairwise fun a b => a.1 < b.1
  | [], _ => by simp [place]
  | (k', v') :: l, h => by
      obtain ⟨hhead, htail⟩ := List.pairwise_cons.mp h
      unfold place
      split
      · rename_i hlt
        refine List.pairwise_cons.mpr ⟨?_, h⟩
        intro e he
        rcases List.mem_cons.mp he with rfl | he
        · exact hlt
        · exact lt_trans hlt (hhead e he)
      · rename_i hnlt
        split
        · rename_i heq
          exact List.pairwise_cons.mpr ⟨fun e he => heq ▸ hhead e he, htail⟩
        · rename_i hne
          have hgt : k' < k := lt_of_le_of_ne (not_lt.mp hnlt) (Ne.symm hne)
          refine List.pairwise_cons.mpr ⟨?_, sorted_place k v htail⟩
          intro e he
          rcases mem_place he with rfl | he
          · exact hgt
          · exact hhead e he

theorem find_place (k : κ) (v : ν) (k' : κ) : ∀ l : List (κ × ν),
    find k' (place k v l) = if k' = k then some v else find k' l
  | [] => by simp [place, find]
  | (k'', v'') :: l => by
      have ih := find_place k v k' l
      unfold place
      by_cases hlt : k < k''
      · simp [hlt, find]
      · by_cases heq : k = k''
        · subst heq
          by_cases hk : k' = k <;> simp [find, hk]
        · simp only [hlt, heq, if_false, find, ih]
          by_cases hk : k' = k''
          · simp [hk, Ne.symm heq]
          · simp [hk]

theorem find_eq_none_of_lt {k : κ} : ∀ {l : List (κ × ν)}, (∀ e ∈ l, k < e.1) → find k l = none
  | [], _ => rfl
  | (k', v) :: l, h => by
      have hne : k ≠ k' := ne_of_lt (h (k', v) (by simp))
      simp only [find, hne, if_false]
      exact find_eq_none_of_lt fun e he => h e (by simp [he])

theorem mem_iff_find {k : κ} {v : ν} : ∀ {l : List (κ × ν)},
    l.Pairwise (fun a b => a.1 < b.1) → ((k, v) ∈ l ↔ find k l = some v)
  | [], _ => by simp [find]
  | (k', v') :: l, h => by
      obtain ⟨hhead, htail⟩ := List.pairwise_cons.mp h
      by_cases hk : k = k'
      · subst hk
        have hnone := find_eq_none_of_lt hhead
        have hnot : (k, v) ∉ l := fun hmem => lt_irrefl k (hhead (k, v) hmem)
        simp only [List.mem_cons, Prod.mk.injEq, true_and, hnot, or_false, find, if_true,
          Option.some.injEq]
        exact eq_comm
      · simp [find, hk, mem_iff_find htail]

theorem find_filter {k : κ} (p : κ × ν → Bool) : ∀ {l : List (κ × ν)},
    l.Pairwise (fun a b => a.1 < b.1) →
    find k (l.filter p) = (find k l).filter fun v => p (k, v)
  | [], _ => rfl
  | (k', v') :: l, h => by
      obtain ⟨hhead, htail⟩ := List.pairwise_cons.mp h
      have ih := find_filter (k := k) p htail
      by_cases hk : k = k'
      · subst hk
        have hnone := find_eq_none_of_lt hhead
        by_cases hp : p (k, v') = true
        · simp [hp, find, Option.filter]
        · simp [hp, find, ih, hnone, Option.filter]
      · by_cases hp : p (k', v') = true
        · simp [hp, find, hk, ih]
        · simp [hp, find, hk, ih]

/-! ## The map -/

/-- The empty map. -/
def empty : SortedMap κ ν := ⟨[], .nil⟩

/-- Look a key up. -/
def get? (m : SortedMap κ ν) (k : κ) : Option ν := find k m.entries

/-- Set a key. -/
def insert (m : SortedMap κ ν) (k : κ) (v : ν) : SortedMap κ ν :=
  ⟨place k v m.entries, sorted_place k v m.sorted⟩

/-- Keep the entries that satisfy `p`. -/
def filter (m : SortedMap κ ν) (p : κ × ν → Bool) : SortedMap κ ν :=
  ⟨m.entries.filter p, m.sorted.filter p⟩

/-- Remove a key. -/
def erase (m : SortedMap κ ν) (k : κ) : SortedMap κ ν := m.filter fun e => e.1 ≠ k

/-- The number of entries. -/
def size (m : SortedMap κ ν) : Nat := m.entries.length

/-- The sum of `f` over the entries. -/
def sum (f : κ → ν → Nat) (m : SortedMap κ ν) : Nat := (m.entries.map fun e => f e.1 e.2).sum

@[simp] theorem get?_empty (k : κ) : (empty : SortedMap κ ν).get? k = none := rfl

theorem get?_insert (m : SortedMap κ ν) (k k' : κ) (v : ν) :
    (m.insert k v).get? k' = if k' = k then some v else m.get? k' :=
  find_place k v k' m.entries

@[simp] theorem get?_insert_self (m : SortedMap κ ν) (k : κ) (v : ν) : (m.insert k v).get? k = some v := by
  simp [get?_insert]

theorem get?_filter (m : SortedMap κ ν) (p : κ × ν → Bool) (k : κ) :
    (m.filter p).get? k = (m.get? k).filter fun v => p (k, v) :=
  find_filter p m.sorted

theorem get?_erase (m : SortedMap κ ν) (k k' : κ) :
    (m.erase k).get? k' = if k' = k then none else m.get? k' := by
  rw [erase, get?_filter]
  by_cases hk : k' = k
  · cases m.get? k' <;> simp [hk, Option.filter]
  · cases m.get? k' <;> simp [hk, Option.filter]

variable {m : SortedMap κ ν}

theorem mem_entries {k : κ} {v : ν} : (k, v) ∈ m.entries ↔ m.get? k = some v :=
  mem_iff_find m.sorted

theorem eq_of_entries {m' : SortedMap κ ν} (h : m.entries = m'.entries) : m = m' := by
  cases m
  cases m'
  simp_all

/-- Two sorted lists with the same lookups are the same. -/
theorem entries_eq_of_find : ∀ {l l' : List (κ × ν)}, l.Pairwise (fun a b => a.1 < b.1) →
    l'.Pairwise (fun a b => a.1 < b.1) → (∀ k, find k l = find k l') → l = l'
  | [], [], _, _, _ => rfl
  | [], (k, v) :: l', _, _, h => by
      have := h k
      simp [find] at this
  | (k, v) :: l, [], _, _, h => by
      have := h k
      simp [find] at this
  | (k, v) :: l, (k', v') :: l', hl, hl', h => by
      obtain ⟨hhead, htail⟩ := List.pairwise_cons.mp hl
      obtain ⟨hhead', htail'⟩ := List.pairwise_cons.mp hl'
      -- the least keys agree: each is found in the other list
      have hkk : k = k' := by
        rcases lt_trichotomy k k' with hlt | heq | hgt
        · have hk := h k
          have hnone : find k l' = none :=
            find_eq_none_of_lt fun e he => lt_trans hlt (hhead' e he)
          simp [find, ne_of_lt hlt, hnone] at hk
        · exact heq
        · have hk := h k'
          have hnone : find k' l = none :=
            find_eq_none_of_lt fun e he => lt_trans hgt (hhead e he)
          simp [find, ne_of_lt hgt, hnone] at hk
      subst hkk
      have hv : v = v' := by simpa [find] using h k
      subst hv
      have hrest : l = l' := by
        refine entries_eq_of_find htail htail' fun j => ?_
        have hj := h j
        by_cases hjk : j = k
        · subst hjk
          rw [find_eq_none_of_lt hhead, find_eq_none_of_lt hhead']
        · simpa [find, hjk] using hj
      rw [hrest]

theorem ext_get? {m' : SortedMap κ ν} (h : ∀ k, m.get? k = m'.get? k) : m = m' :=
  eq_of_entries (entries_eq_of_find m.sorted m'.sorted h)

/-! ## Renaming keys -/

/-- Rename every key. -/
def mapKeys (f : κ → κ) (m : SortedMap κ ν) : SortedMap κ ν :=
  m.entries.foldr (fun e acc => acc.insert (f e.1) e.2) empty

theorem get?_foldr_insert {f : κ → κ} {k' : κ} {v : ν} : ∀ {l : List (κ × ν)},
    (∀ a ∈ l, ∀ b ∈ l, f a.1 = f b.1 → a = b) →
    ((l.foldr (fun e acc => acc.insert (f e.1) e.2) (empty : SortedMap κ ν)).get? k' = some v ↔
      ∃ k, f k = k' ∧ (k, v) ∈ l)
  | [], _ => by simp
  | (k, w) :: l, h => by
      have hrest : ∀ a ∈ l, ∀ b ∈ l, f a.1 = f b.1 → a = b :=
        fun a ha b hb => h a (by simp [ha]) b (by simp [hb])
      rw [List.foldr_cons, get?_insert]
      by_cases hk : k' = f k
      · subst hk
        rw [if_pos rfl]
        constructor
        · intro hw
          cases hw
          exact ⟨k, rfl, by simp⟩
        · rintro ⟨j, hj, hmem⟩
          have := h (j, v) hmem (k, w) (by simp) hj
          cases this
          rfl
      · rw [if_neg hk, get?_foldr_insert hrest]
        constructor
        · rintro ⟨j, hj, hmem⟩
          exact ⟨j, hj, by simp [hmem]⟩
        · rintro ⟨j, hj, hmem⟩
          rcases List.mem_cons.mp hmem with heq | hmem
          · cases heq
            exact absurd hj.symm hk
          · exact ⟨j, hj, hmem⟩

/-- With no two keys renamed to one, each entry is found under its new key. -/
theorem get?_mapKeys {f : κ → κ}
    (hf : ∀ a b u v, m.get? a = some u → m.get? b = some v → f a = f b → a = b) {k' : κ} {v : ν} :
    (m.mapKeys f).get? k' = some v ↔ ∃ k, f k = k' ∧ m.get? k = some v := by
  have hinj : ∀ a ∈ m.entries, ∀ b ∈ m.entries, f a.1 = f b.1 → a = b := by
    rintro ⟨a, u⟩ ha ⟨b, w⟩ hb hab
    have hau := mem_entries.mp ha
    have hbw := mem_entries.mp hb
    obtain rfl := hf a b u w hau hbw hab
    rw [hau] at hbw
    cases hbw
    rfl
  rw [mapKeys, get?_foldr_insert hinj]
  simp only [mem_entries]

/-! ## Sums -/

theorem sum_place (f : κ → ν → Nat) (k : κ) (v : ν) : ∀ {l : List (κ × ν)},
    l.Pairwise (fun a b => a.1 < b.1) →
    ((place k v l).map fun e => f e.1 e.2).sum + ((find k l).elim 0 (f k)) =
      (l.map fun e => f e.1 e.2).sum + f k v
  | [], _ => by simp [place, find]
  | (k', v') :: l, h => by
      obtain ⟨hhead, htail⟩ := List.pairwise_cons.mp h
      unfold place
      by_cases hlt : k < k'
      · have hnone : find k ((k', v') :: l) = none := by
          refine find_eq_none_of_lt fun e he => ?_
          rcases List.mem_cons.mp he with rfl | he
          · exact hlt
          · exact lt_trans hlt (hhead e he)
        simp only [hlt, if_true, hnone, List.map_cons, List.sum_cons, Option.elim_none]
        omega
      · by_cases heq : k = k'
        · subst heq
          simp only [hlt, if_false, if_true, find, List.map_cons, List.sum_cons, Option.elim_some]
          omega
        · have ih := sum_place f k v htail
          simp only [hlt, heq, if_false, find, List.map_cons, List.sum_cons]
          omega

/-- Setting a key adds its new share and takes its old one away. -/
theorem sum_insert (f : κ → ν → Nat) (m : SortedMap κ ν) (k : κ) (v : ν) :
    (m.insert k v).sum f + (m.get? k).elim 0 (f k) = m.sum f + f k v :=
  sum_place f k v m.sorted

theorem sum_filter_ne (f : κ → ν → Nat) (k : κ) : ∀ {l : List (κ × ν)},
    l.Pairwise (fun a b => a.1 < b.1) →
    ((l.filter fun e => e.1 ≠ k).map fun e => f e.1 e.2).sum + (find k l).elim 0 (f k) =
      (l.map fun e => f e.1 e.2).sum
  | [], _ => rfl
  | (k', v') :: l, h => by
      obtain ⟨hhead, htail⟩ := List.pairwise_cons.mp h
      have ih := sum_filter_ne f k htail
      by_cases hk : k = k'
      · subst hk
        rw [find_eq_none_of_lt hhead] at ih
        simp only [ne_eq, List.filter_cons, not_true_eq_false, decide_false, Bool.false_eq_true,
          if_false, find, if_true, Option.elim_some, List.map_cons, List.sum_cons,
          Option.elim_none] at ih ⊢
        omega
      · have hne : ¬ k' = k := Ne.symm hk
        simp only [ne_eq, List.filter_cons, hne, not_false_eq_true, decide_true, if_true, find, hk,
          if_false, List.map_cons, List.sum_cons] at ih ⊢
        omega

/-- Removing a key takes its share away. -/
theorem sum_erase (f : κ → ν → Nat) (m : SortedMap κ ν) (k : κ) :
    (m.erase k).sum f + (m.get? k).elim 0 (f k) = m.sum f :=
  sum_filter_ne f k m.sorted

theorem le_sum {f : κ → ν → Nat} {k : κ} {v : ν} (h : m.get? k = some v) : f k v ≤ m.sum f := by
  have := sum_erase f m k
  rw [h, Option.elim_some] at this
  omega

/-- A map whose entries are covered by those of another sums to no more. -/
theorem sum_le_sum {ν' : Type} {f : κ → ν → Nat} {g : κ → ν' → Nat} :
    ∀ {m : SortedMap κ ν} {m' : SortedMap κ ν'},
    (∀ k v, m.get? k = some v → ∃ w, m'.get? k = some w ∧ f k v ≤ g k w) → m.sum f ≤ m'.sum g := by
  rintro ⟨l, hl⟩ m' h
  induction l generalizing m' with
  | nil => exact Nat.zero_le _
  | cons e l ih =>
      obtain ⟨k, v⟩ := e
      obtain ⟨hhead, htail⟩ := List.pairwise_cons.mp hl
      obtain ⟨w, hw, hle⟩ := h k v (by simp [get?, find])
      have hcover : ∀ j u, (⟨l, htail⟩ : SortedMap κ ν).get? j = some u →
          ∃ w', (m'.erase k).get? j = some w' ∧ f j u ≤ g j w' := by
        intro j u hj
        have hjk : j ≠ k := by
          rintro rfl
          have hnone := find_eq_none_of_lt hhead
          simp only [get?] at hj
          rw [hnone] at hj
          cases hj
        obtain ⟨w', hw', hle'⟩ := h j u (by simpa [get?, find, hjk] using hj)
        exact ⟨w', by rw [get?_erase, if_neg hjk, hw'], hle'⟩
      have hrest := ih htail hcover
      have hsum := sum_erase g m' k
      rw [hw, Option.elim_some] at hsum
      simp only [sum, List.map_cons, List.sum_cons] at hrest hsum ⊢
      omega

theorem sum_mul_left (c : Nat) (f : κ → ν → Nat) (m : SortedMap κ ν) :
    (m.sum fun k v => c * f k v) = c * m.sum f := by
  simp only [sum]
  induction m.entries with
  | nil => rfl
  | cons e l ih => simp [ih, Nat.mul_add]

theorem size_eq_sum (m : SortedMap κ ν) : m.size = m.sum fun _ _ => 1 := by
  simp [size, sum]

theorem size_insert (m : SortedMap κ ν) (k : κ) (v : ν) :
    (m.insert k v).size = m.size + if m.get? k = none then 1 else 0 := by
  have h := sum_insert (fun _ _ => 1) m k v
  rw [← size_eq_sum, ← size_eq_sum] at h
  cases hk : m.get? k with
  | none =>
      rw [hk] at h
      simpa using h
  | some w =>
      rw [hk] at h
      simp only [Option.elim_some] at h
      simp only [reduceCtorEq, if_false]
      omega

theorem size_pos_iff : 0 < m.size ↔ ∃ k v, m.get? k = some v := by
  obtain ⟨l, hl⟩ := m
  cases l with
  | nil => simp [size, get?, find]
  | cons e l =>
      obtain ⟨k, v⟩ := e
      simp only [size, List.length_cons, Nat.zero_lt_succ, true_iff]
      exact ⟨k, v, by simp [get?, find]⟩

end SortedMap

end Pelorus.Lib
