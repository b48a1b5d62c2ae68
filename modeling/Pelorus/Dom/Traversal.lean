import Mathlib.Data.List.Perm.Subperm
import Pelorus.Dom.Slots
import Pelorus.Dom.Tree

/-
  Dom/Traversal.lean --- the budgeted walks on a linked arena.

  Every walk of the source carries a budget against corrupt links.  On a linked
  arena no budget is ever reached: distinct live handles have distinct slots, so
  no list of children and no subtree is longer than the slots, and no way up is
  longer than `MAX_DEPTH`.  The walks then return exactly what the forest says.
-/
set_option autoImplicit false

namespace Pelorus.Dom

namespace Arena

/-! ## Live handles and slots -/

theorem index_lt_of_live {s : Arena} {q : NodeId} (h : s.contains q = true) : q.index < s.slots.length := by
  obtain ⟨n, hn⟩ := Option.isSome_iff_exists.mp h
  exact (List.getElem?_eq_some_iff.mp (get_eq_some.mp hn)).1

/-- Two live handles of one slot are one handle. -/
theorem eq_of_index_eq {s : Arena} {q q' : NodeId} (h : s.contains q = true)
    (h' : s.contains q' = true) (hi : q.index = q'.index) : q = q' := by
  obtain ⟨n, hn⟩ := Option.isSome_iff_exists.mp h
  obtain ⟨n', hn'⟩ := Option.isSome_iff_exists.mp h'
  have hslot := get_eq_some.mp hn
  have hslot' := get_eq_some.mp hn'
  rw [hi, hslot'] at hslot
  cases q
  cases q'
  simp_all

/-- Distinct live handles are no more than the slots. -/
theorem length_le_of_live {s : Arena} {l : List NodeId} (hnodup : l.Nodup)
    (hlive : ∀ c ∈ l, s.contains c = true) : l.length ≤ s.slots.length := by
  have hindices : (l.map NodeId.index).Nodup := by
    refine hnodup.map_on ?_
    intro a ha b hb hab
    exact eq_of_index_eq (hlive a ha) (hlive b hb) hab
  have hsub : l.map NodeId.index ⊆ List.range s.slots.length := by
    intro i hi
    obtain ⟨c, hc, rfl⟩ := List.mem_map.mp hi
    exact List.mem_range.mpr (index_lt_of_live (hlive c hc))
  have hle := (hindices.subperm hsub).length_le
  simpa using hle

/-! ## Child lists -/

/-- The snapshot walk along a list whose members are linked forward. -/
theorem childrenFrom_of_links {s : Arena} {l₀ : List NodeId}
    (hlink : ∀ pre c post, l₀ = pre ++ c :: post →
      ∃ m, s.get c = some m ∧ m.nextSibling = post.head?) :
    ∀ (fuel : Nat) (pre l : List NodeId), l₀ = pre ++ l → l.length ≤ fuel →
      childrenFrom s fuel l.head? = some l
  | _, _, [], _, _ => by simp [childrenFrom]
  | 0, _, _ :: _, _, hle => by simp at hle
  | fuel + 1, pre, c :: l, hsplit, hle => by
      obtain ⟨m, hm, hnext⟩ := hlink pre c l hsplit
      have ih := childrenFrom_of_links hlink fuel (pre ++ [c]) l (by simp [hsplit])
        (by simpa using hle)
      simp [childrenFrom, hm, hnext, ih]

/-- The iterator along such a list, cut off at its budget. -/
theorem childIdsFrom_of_links {s : Arena} {l₀ : List NodeId}
    (hlink : ∀ pre c post, l₀ = pre ++ c :: post →
      ∃ m, s.get c = some m ∧ m.nextSibling = post.head?) :
    ∀ (budget : Nat) (pre l : List NodeId), l₀ = pre ++ l →
      childIdsFrom s budget l.head? = l.take budget
  | 0, _, _, _ => by simp [childIdsFrom]
  | _ + 1, _, [], _ => by simp [childIdsFrom]
  | budget + 1, pre, c :: l, hsplit => by
      obtain ⟨m, hm, hnext⟩ := hlink pre c l hsplit
      have ih := childIdsFrom_of_links hlink budget (pre ++ [c]) l (by simp [hsplit])
      simp [childIdsFrom, hm, hnext, ih]

section Linked

variable {s : Arena} {kids : NodeId → List NodeId} (lk : Linked s.get kids)

include lk

theorem forward_links (p : NodeId) : ∀ pre c post, kids p = pre ++ c :: post →
    ∃ m, s.get c = some m ∧ m.nextSibling = post.head? := by
  intro pre c post hsplit
  obtain ⟨m, hm, -, -, hnext⟩ := lk.link p pre c post hsplit
  exact ⟨m, hm, hnext⟩

theorem live_of_mem {p c : NodeId} (h : c ∈ kids p) : s.contains c = true := by
  obtain ⟨m, hm, -⟩ := lk.parent_of_mem h
  simp [contains, hm]

theorem length_kids_le (p : NodeId) : (kids p).length ≤ s.slots.length :=
  length_le_of_live (lk.nodup p) fun _ hc => live_of_mem lk hc

theorem children_eq {p : NodeId} {n : Node} (h : s.get p = some n) : s.children p = some (kids p) := by
  have hwalk := childrenFrom_of_links (forward_links lk p) s.slots.length [] (kids p) rfl
    (length_kids_le lk p)
  rw [← lk.first p n h] at hwalk
  simp [children, h, hwalk]

theorem childIds_eq (p : NodeId) : s.childIds p = kids p := by
  have hwalk := childIdsFrom_of_links (forward_links lk p) s.slots.length [] (kids p) rfl
  rw [List.take_of_length_le (length_kids_le lk p)] at hwalk
  unfold childIds
  cases h : s.get p with
  | none =>
      rw [lk.stale p h]
      cases s.slots.length <;> rfl
  | some n =>
      rw [← lk.first p n h] at hwalk
      exact hwalk

end Linked

end Arena

end Pelorus.Dom
