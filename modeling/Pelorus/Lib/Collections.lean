import Mathlib.Algebra.GroupWithZero.Nat
import Mathlib.Data.List.AList
import Mathlib.Data.List.Sort

/-
  Lib/Collections.lean --- hash maps, sorting by a key, and ascending lists.

  MAPS.  A hash map is an association list without duplicate keys; nothing below
  depends on the order of its entries.  `refine` visits every entry once and changes
  or drops it, which is `values_mut` and `retain` together.

  SORTING.  A stable sort keeps elements of one rank in the order they had
  (`pairwise_insertionSort`).  A list that grows only above its last element is
  ascending (`pairwise_concat`).
-/
set_option autoImplicit false

namespace Pelorus.Lib

universe u v

/-- A hash map. -/
abbrev Map (α : Type u) (β : Type v) : Type (max u v) := AList fun _ : α => β

namespace Map

variable {α : Type u} {β : Type v}

/-- Change or drop every entry. -/
def refine (f : α → β → Option β) (m : Map α β) : Map α β where
  entries := m.entries.filterMap fun e => (f e.1 e.2).map fun b => ⟨e.1, b⟩
  nodupKeys := by
    have hsub : ∀ l : List (Sigma fun _ : α => β),
        List.Sublist (l.filterMap fun e => (f e.1 e.2).map fun b => (⟨e.1, b⟩ : Sigma fun _ => β)).keys
          l.keys := by
      intro l
      induction l with
      | nil => exact List.Sublist.refl _
      | cons e l ih =>
          rw [List.filterMap_cons]
          cases f e.1 e.2 with
          | none => exact ih.trans (List.sublist_cons_self _ _)
          | some b => exact ih.cons_cons _
    exact (hsub m.entries).nodup m.nodupKeys

variable [DecidableEq α]

theorem lookup_refine (f : α → β → Option β) (m : Map α β) (a : α) :
    (refine f m).lookup a = (m.lookup a).bind (f a) := by
  obtain ⟨l, hl⟩ := m
  show (l.filterMap fun e => (f e.1 e.2).map fun b => (⟨e.1, b⟩ : Sigma fun _ => β)).dlookup a =
    (l.dlookup a).bind (f a)
  induction l with
  | nil => rfl
  | cons e l ih =>
      obtain ⟨k, b⟩ := e
      obtain ⟨hnot, hl'⟩ := List.nodupKeys_cons.mp hl
      have ih := ih hl'
      rw [List.filterMap_cons]
      by_cases hk : a = k
      · subst hk
        rw [List.dlookup_cons_eq, Option.bind_some]
        cases hf : f a b with
        | none =>
            have hnone : l.dlookup a = none := List.dlookup_eq_none.mpr hnot
            simp only [Option.map_none]
            rw [ih, hnone]
            rfl
        | some b' => simp only [Option.map_some, List.dlookup_cons_eq]
      · rw [List.dlookup_cons_ne l ⟨k, b⟩ (show a ≠ k from hk)]
        cases hf : f k b with
        | none =>
            simp only [Option.map_none]
            exact ih
        | some b' =>
            simp only [Option.map_some]
            rw [List.dlookup_cons_ne _ _ (show a ≠ k from hk)]
            exact ih

end Map

/-! ## Stable sorting -/

section Stable

variable {α : Type u} {r R : α → α → Prop} [DecidableRel r] [Std.Total r] [IsTrans α r]

theorem pairwise_orderedInsert {a : α} : ∀ {l : List α},
    l.Pairwise (fun b c => r b c ∧ (r c b → R b c)) → (∀ b ∈ l, R a b) →
    (l.orderedInsert r a).Pairwise fun b c => r b c ∧ (r c b → R b c)
  | [], _, _ => List.pairwise_singleton _ _
  | b :: l, hl, ha => by
      obtain ⟨hb, hrest⟩ := List.pairwise_cons.mp hl
      by_cases hab : r a b
      · rw [List.orderedInsert_cons_of_le _ _ hab]
        refine List.pairwise_cons.mpr ⟨fun c hc => ⟨?_, fun _ => ha c hc⟩, hl⟩
        rcases List.mem_cons.mp hc with rfl | hc
        · exact hab
        · exact IsTrans.trans _ _ _ hab (hb c hc).1
      · rw [List.orderedInsert_of_not_le _ _ hab]
        have ih := pairwise_orderedInsert hrest fun c hc => ha c (by simp [hc])
        refine List.pairwise_cons.mpr ⟨fun c hc => ?_, ih⟩
        rcases (List.mem_orderedInsert r).mp hc with rfl | hc
        · exact ⟨(Std.Total.total c b).resolve_left hab, fun h => absurd h hab⟩
        · exact hb c hc

/-- Elements of one rank stay in the order they had. -/
theorem pairwise_insertionSort : ∀ {l : List α}, l.Pairwise R →
    (l.insertionSort r).Pairwise fun b c => r b c ∧ (r c b → R b c)
  | [], _ => List.Pairwise.nil
  | a :: l, hl => by
      obtain ⟨ha, hrest⟩ := List.pairwise_cons.mp hl
      rw [List.insertionSort_cons]
      refine pairwise_orderedInsert (pairwise_insertionSort hrest) fun b hb => ?_
      exact ha b ((List.mem_insertionSort r).mp hb)

end Stable

/-! ## Ascending lists -/

section Ascending

variable {α : Type u} {R : α → α → Prop}

/-- An element above the last one is above all. -/
theorem pairwise_concat {l : List α} {a : α} (hl : l.Pairwise R)
    (htrans : ∀ a b c, R a b → R b c → R a c) (hlast : ∀ b ∈ l.getLast?, R b a) :
    (l ++ [a]).Pairwise R := by
  rcases List.eq_nil_or_concat l with rfl | ⟨init, last, rfl⟩
  · exact List.pairwise_singleton _ _
  · rw [List.concat_eq_append] at hl hlast ⊢
    have hla : R last a := hlast last (by simp)
    refine List.pairwise_append.mpr ⟨hl, List.pairwise_singleton _ _, fun b hb c hc => ?_⟩
    rw [List.mem_singleton.mp hc]
    rcases List.mem_append.mp hb with hb | hb
    · exact htrans b last a ((List.pairwise_append.mp hl).2.2 b hb last (by simp)) hla
    · rw [List.mem_singleton.mp hb]
      exact hla

theorem rel_getLast_of_pairwise {before after : List α} {a : α}
    (h : (before ++ a :: after).Pairwise R) : ∀ b ∈ before.getLast?, R b a := by
  intro b hb
  exact (List.pairwise_append.mp h).2.2 b (List.mem_of_getLast? hb) a (by simp)

end Ascending

end Pelorus.Lib
