import Mathlib.Data.List.Flatten
import Mathlib.Data.List.Lex
import Pelorus.Lib.Forest

/-
  Lib/DocumentOrder.lean --- positions in an ordered forest, and their order.

  A POSITION is a node together with an offset between its children.  Its key is
  the list of numbers on the way to it: an odd number `2 i + 1` for each step
  into the `i`-th child, then the even number `2 k` for the offset.  Positions
  in one tree are ordered by their keys lexicographically: `2 k < 2 i + 1` says
  that the gap before child `k` is before everything in child `i` when `k ≤ i`.

  Cutting a child out and grafting one in act on keys through `cutKey` and
  `growKey` below the place of the edit.  Both maps are monotone, which is why an
  interval stays an interval.

  PREORDER.  The nodes of a tree listed parents first are sorted by address.
-/
set_option autoImplicit false

namespace Pelorus.Lib.DocumentOrder

open Lib.Forest

/-- The odd numbers of a way down. -/
def pathKey (path : List Nat) : List Nat := path.map fun i => 2 * i + 1

/-- The key of offset `k` in the node at `path`. -/
def key (path : List Nat) (k : Nat) : List Nat := pathKey path ++ [2 * k]

@[simp] theorem pathKey_nil : pathKey [] = [] := rfl

@[simp] theorem pathKey_cons (i : Nat) (path : List Nat) :
    pathKey (i :: path) = (2 * i + 1) :: pathKey path := rfl

@[simp] theorem key_nil (k : Nat) : key [] k = [2 * k] := rfl

@[simp] theorem key_cons (i : Nat) (path : List Nat) (k : Nat) :
    key (i :: path) k = (2 * i + 1) :: key path k := rfl

theorem key_append (lead path : List Nat) (k : Nat) :
    key (lead ++ path) k = pathKey lead ++ key path k := by
  simp [key, pathKey]

/-! ## Lexicographic order -/

theorem cons_le_cons_iff {a b : Nat} {l l' : List Nat} : a :: l ≤ b :: l' ↔ a < b ∨ a = b ∧ l ≤ l' := by
  rw [le_iff_lt_or_eq, le_iff_lt_or_eq, List.cons_lt_cons_iff, List.cons.injEq]
  tauto

theorem nil_le (l : List Nat) : [] ≤ l := not_lt.mp (List.not_lt_nil l)

theorem not_cons_le_nil (a : Nat) (l : List Nat) : ¬ a :: l ≤ [] :=
  not_le.mpr (List.nil_lt_cons a l)

/-- A map that respects the order. -/
def Mono (f : List Nat → List Nat) : Prop := ∀ a b, a ≤ b → f a ≤ f b

theorem append_le_append_iff (lead a b : List Nat) : lead ++ a ≤ lead ++ b ↔ a ≤ b := by
  induction lead with
  | nil => rfl
  | cons x lead ih =>
      rw [List.cons_append, List.cons_append, cons_le_cons_iff, ih]
      simp

theorem append_lt_append_iff (lead a b : List Nat) : lead ++ a < lead ++ b ↔ a < b := by
  induction lead with
  | nil => rfl
  | cons x lead ih =>
      rw [List.cons_append, List.cons_append, List.cons_lt_cons_iff, ih]
      simp

theorem mono_append (lead : List Nat) : Mono fun a => lead ++ a :=
  fun a b h => (append_le_append_iff lead a b).mpr h

theorem mono_onPrefix {f : List Nat → List Nat} (hf : Mono f) :
    ∀ lead : List Nat, Mono (onPrefix lead f)
  | [] => hf
  | x :: lead => by
      have ih := mono_onPrefix hf lead
      intro a b hab
      cases a with
      | nil => exact nil_le _
      | cons y a =>
          cases b with
          | nil => exact absurd hab (not_cons_le_nil _ _)
          | cons z b =>
              rw [cons_le_cons_iff] at hab
              by_cases hy : x = y
              · subst hy
                by_cases hz : x = z
                · subst hz
                  have hle : a ≤ b := by simpa using hab
                  simpa [onPrefix, cons_le_cons_iff] using ih a b hle
                · have hlt : x < z := by simpa [hz] using hab
                  simp [onPrefix, hz, cons_le_cons_iff, hlt]
              · by_cases hz : x = z
                · subst hz
                  have hlt : y < x := by simpa [Ne.symm hy] using hab
                  simp [onPrefix, hy, cons_le_cons_iff, hlt]
                · simpa [onPrefix, hy, hz, cons_le_cons_iff] using hab

/-- What cutting the `j`-th child out does to what follows its parent's key: all
in and around the child collapses to the gap it leaves. -/
def cutKey (j : Nat) : List Nat → List Nat
  | [] => []
  | v :: rest =>
      if v < 2 * j then v :: rest else if v ≤ 2 * j + 1 then [2 * j] else (v - 2) :: rest

/-- What a new `j`-th child does to what follows its parent's key. -/
def growKey (j : Nat) : List Nat → List Nat
  | [] => []
  | v :: rest => if v ≤ 2 * j then v :: rest else (v + 2) :: rest

theorem mono_cutKey (j : Nat) : Mono (cutKey j) := by
  intro a b hab
  cases a with
  | nil => exact nil_le _
  | cons v a =>
      cases b with
      | nil => exact absurd hab (not_cons_le_nil _ _)
      | cons w b =>
          rw [cons_le_cons_iff] at hab
          by_cases hv : v < 2 * j
          · by_cases hw : w < 2 * j
            · simpa [cutKey, hv, hw, cons_le_cons_iff] using hab
            · by_cases hw' : w ≤ 2 * j + 1
              · simp [cutKey, hv, hw, hw', cons_le_cons_iff]
              · have hlt : v < w - 2 := by omega
                simp [cutKey, hv, hw, hw', cons_le_cons_iff, hlt]
          · have hw : ¬ w < 2 * j := by omega
            by_cases hv' : v ≤ 2 * j + 1
            · by_cases hw' : w ≤ 2 * j + 1
              · simp [cutKey, hv, hw, hv', hw']
              · rcases Nat.lt_or_ge (2 * j) (w - 2) with hlt | hge
                · simp [cutKey, hv, hw, hv', hw', cons_le_cons_iff, hlt]
                · have heq : w - 2 = 2 * j := by omega
                  simp [cutKey, hv, hw, hv', hw', cons_le_cons_iff, heq, nil_le]
            · have hw' : ¬ w ≤ 2 * j + 1 := by omega
              rcases hab with hlt | ⟨rfl, hle⟩
              · have hlt' : v - 2 < w - 2 := by omega
                simp [cutKey, hv, hw, hv', hw', cons_le_cons_iff, hlt']
              · simp [cutKey, hv, hv', cons_le_cons_iff, hle]

theorem mono_growKey (j : Nat) : Mono (growKey j) := by
  intro a b hab
  cases a with
  | nil => exact nil_le _
  | cons v a =>
      cases b with
      | nil => exact absurd hab (not_cons_le_nil _ _)
      | cons w b =>
          rw [cons_le_cons_iff] at hab
          by_cases hv : v ≤ 2 * j
          · by_cases hw : w ≤ 2 * j
            · simpa [growKey, hv, hw, cons_le_cons_iff] using hab
            · have hlt : v < w + 2 := by omega
              simp [growKey, hv, hw, cons_le_cons_iff, hlt]
          · have hw : ¬ w ≤ 2 * j := by omega
            simpa [growKey, hv, hw, cons_le_cons_iff] using hab

/-! ## Keys under the two edits -/

/-- Editing an address below `lead` edits the key below `lead`'s. -/
theorem key_onPrefix {f g : List Nat → List Nat} {k : Nat} : ∀ lead path : List Nat,
    (∀ rest, path = lead ++ rest → key (g rest) k = f (key rest k)) →
    key (onPrefix lead g path) k = onPrefix (pathKey lead) f (key path k)
  | [], path, h => h path rfl
  | a :: lead, [], _ => by
      have hne : ¬ 2 * a + 1 = 2 * k := by omega
      simp [onPrefix, hne]
  | a :: lead, b :: path, h => by
      by_cases hab : a = b
      · subst hab
        have ih := key_onPrefix lead path fun rest hpath => h rest (by rw [hpath]; rfl)
        simp [onPrefix, ih]
      · have hne : ¬ 2 * a = 2 * b := by omega
        simp [onPrefix, hab, hne]

/-- A node that is neither the parent nor under the cut keeps its offsets. -/
theorem key_cut {lead path : List Nat} {j : Nat} (k : Nat) (hself : path ≠ lead)
    (hout : ∀ rest, path ≠ lead ++ j :: rest) :
    key (onPrefix lead (indexDown j) path) k = onPrefix (pathKey lead) (cutKey j) (key path k) := by
  refine key_onPrefix lead path ?_
  rintro rest rfl
  cases rest with
  | nil => simp at hself
  | cons i rest =>
      have hij : i ≠ j := fun h => hout rest (by rw [h])
      by_cases hlt : j < i
      · have h₁ : ¬ 2 * i + 1 < 2 * j := by omega
        have h₂ : ¬ 2 * i ≤ 2 * j := by omega
        have h₃ : 2 * (i - 1) + 1 = 2 * i + 1 - 2 := by omega
        simp [indexDown, cutKey, hlt, h₁, h₂, h₃]
      · have h₁ : 2 * i + 1 < 2 * j := by omega
        simp [indexDown, cutKey, hlt, h₁]

/-- The parent's offsets past the cut move down. -/
theorem key_cut_self (lead : List Nat) (j k : Nat) :
    key lead (if k > j then k - 1 else k) = onPrefix (pathKey lead) (cutKey j) (key lead k) := by
  rw [key, key, onPrefix_append]
  congr 1
  by_cases hgt : k > j
  · have h₁ : ¬ 2 * k < 2 * j := by omega
    have h₂ : ¬ 2 * k ≤ 2 * j + 1 := by omega
    have h₃ : 2 * (k - 1) = 2 * k - 2 := by omega
    simp [cutKey, hgt, h₁, h₂, h₃]
  · by_cases hlt : 2 * k < 2 * j
    · simp [cutKey, hgt, hlt]
    · have heq : k = j := by omega
      simp [cutKey, heq]

/-- Offsets under the cut collapse to the gap. -/
theorem key_cut_under (lead rest : List Nat) (j k : Nat) :
    key lead j = onPrefix (pathKey lead) (cutKey j) (key (lead ++ j :: rest) k) := by
  rw [key_append, onPrefix_append, key]
  have h₁ : ¬ 2 * j + 1 < 2 * j := by omega
  simp [cutKey, h₁]

/-- A node other than the parent keeps its offsets under a graft. -/
theorem key_graft {lead path : List Nat} {j : Nat} (k : Nat) (hself : path ≠ lead) :
    key (onPrefix lead (indexUp j) path) k = onPrefix (pathKey lead) (growKey j) (key path k) := by
  refine key_onPrefix lead path ?_
  rintro rest rfl
  cases rest with
  | nil => simp at hself
  | cons i rest =>
      by_cases hlt : i < j
      · have h₁ : 2 * i + 1 ≤ 2 * j := by omega
        simp [indexUp, growKey, hlt, h₁]
      · have h₁ : ¬ 2 * i + 1 ≤ 2 * j := by omega
        have h₂ : 2 * (i + 1) + 1 = 2 * i + 1 + 2 := by omega
        simp [indexUp, growKey, hlt, h₁, h₂]

/-- The parent's offsets past the graft move up. -/
theorem key_graft_self (lead : List Nat) (j k : Nat) :
    key lead (if k > j then k + 1 else k) = onPrefix (pathKey lead) (growKey j) (key lead k) := by
  rw [key, key, onPrefix_append]
  congr 1
  by_cases hgt : k > j
  · have h₁ : ¬ 2 * k ≤ 2 * j := by omega
    have h₂ : 2 * (k + 1) = 2 * k + 2 := by omega
    simp [growKey, hgt, h₁, h₂]
  · have h₁ : 2 * k ≤ 2 * j := by omega
    simp [growKey, hgt, h₁]

/-! ## Comparing keys -/

theorem key_lt_key_self (path : List Nat) (k l : Nat) : key path k < key path l ↔ k < l := by
  rw [key, key, append_lt_append_iff, List.cons_lt_cons_iff]
  simp

/-- An offset of a node against anything inside its `i`-th child. -/
theorem key_lt_key_under (path rest : List Nat) (i k l : Nat) :
    key path k < key (path ++ i :: rest) l ↔ k ≤ i := by
  rw [key_append, key, append_lt_append_iff, key_cons, List.cons_lt_cons_iff]
  constructor
  · rintro (h | ⟨h, -⟩) <;> omega
  · intro h
    exact Or.inl (by omega)

/-- A later node that is not a descendant has only later offsets. -/
theorem key_lt_key_of_lt {path path' : List Nat} (h : path < path')
    (hout : ∀ rest, path' ≠ path ++ rest) (k l : Nat) : key path k < key path' l := by
  induction path generalizing path' with
  | nil => exact absurd rfl (hout path')
  | cons i path ih =>
      cases path' with
      | nil => simp at h
      | cons j path' =>
          rw [List.cons_lt_cons_iff] at h
          rw [key_cons, key_cons, List.cons_lt_cons_iff]
          rcases h with hlt | ⟨rfl, hlt⟩
          · exact Or.inl (by omega)
          · exact Or.inr ⟨rfl, ih hlt fun rest hrest => hout rest (by rw [hrest]; rfl)⟩

/-! ## Preorder -/

section Preorder

variable {α : Type}

/-- A node and what is at most `depth` steps below it, parents first. -/
def preorder (kids : α → List α) : Nat → α → List α
  | 0, a => [a]
  | depth + 1, a => a :: (kids a).flatMap (preorder kids depth)

variable {kids : α → List α}

theorem mem_preorder {depth : Nat} {a c : α} :
    c ∈ preorder kids depth a ↔ ∃ path, path.length ≤ depth ∧ follow kids a path = some c := by
  induction depth generalizing a with
  | zero =>
      constructor
      · intro h
        simp only [preorder, List.mem_singleton] at h
        exact ⟨[], Nat.le_refl _, by rw [h]; rfl⟩
      · rintro ⟨path, hlen, hpath⟩
        obtain rfl := List.eq_nil_of_length_eq_zero (Nat.le_zero.mp hlen)
        cases hpath
        simp [preorder]
  | succ depth ih =>
      simp only [preorder, List.mem_cons, List.mem_flatMap]
      constructor
      · rintro (rfl | ⟨d, hd, hc⟩)
        · exact ⟨[], by simp, rfl⟩
        · obtain ⟨path, hlen, hpath⟩ := ih.mp hc
          obtain ⟨i, hi⟩ := List.mem_iff_getElem?.mp hd
          exact ⟨i :: path, by simpa using hlen, by simp [hi, hpath]⟩
      · rintro ⟨path, hlen, hpath⟩
        cases path with
        | nil =>
            cases hpath
            exact Or.inl rfl
        | cons i path =>
            obtain ⟨d, hd, hdc⟩ := Option.bind_eq_some_iff.mp hpath
            exact Or.inr ⟨d, List.mem_of_getElem? hd, ih.mpr ⟨path, by simpa using hlen, hdc⟩⟩

/-- Looking deeper than everything is finds nothing more. -/
theorem preorder_stable {depth : Nat} {a : α}
    (h : ∀ path c, follow kids a path = some c → path.length ≤ depth) :
    preorder kids (depth + 1) a = preorder kids depth a := by
  induction depth generalizing a with
  | zero =>
      have hnil : kids a = [] := by
        cases hk : kids a with
        | nil => rfl
        | cons d l =>
            have := h [0] d (by simp [hk])
            simp at this
      simp [preorder, hnil]
  | succ depth ih =>
      rw [preorder, preorder]
      congr 1
      refine List.flatMap_congr ?_
      intro d hd
      refine ih ?_
      intro path c hpath
      obtain ⟨i, hi⟩ := List.mem_iff_getElem?.mp hd
      have := h (i :: path) c (by simp [hi, hpath])
      simpa using this

/-- Of two nodes below `a`, the one with the smaller address is listed first. -/
theorem preorder_sorted {depth : Nat} {a x y : α} {path path' : List Nat}
    (hx : follow kids a path = some x) (hy : follow kids a path' = some y)
    (hlen : path.length ≤ depth) (hlen' : path'.length ≤ depth) (hlt : path < path') :
    ∃ pre post, preorder kids depth a = pre ++ x :: post ∧ y ∈ post := by
  induction depth generalizing a path path' with
  | zero =>
      obtain rfl := List.eq_nil_of_length_eq_zero (Nat.le_zero.mp hlen)
      obtain rfl := List.eq_nil_of_length_eq_zero (Nat.le_zero.mp hlen')
      simp at hlt
  | succ depth ih =>
      cases path' with
      | nil => simp at hlt
      | cons j path' =>
          obtain ⟨e, he, hey⟩ := Option.bind_eq_some_iff.mp hy
          have hmem : y ∈ preorder kids depth e := mem_preorder.mpr ⟨path', by simpa using hlen', hey⟩
          cases path with
          | nil =>
              cases hx
              refine ⟨[], _, rfl, ?_⟩
              exact List.mem_flatMap.mpr ⟨e, List.mem_of_getElem? he, hmem⟩
          | cons i path =>
              obtain ⟨d, hd, hdx⟩ := Option.bind_eq_some_iff.mp hx
              rw [List.cons_lt_cons_iff] at hlt
              rcases hlt with hij | ⟨rfl, hlt⟩
              · -- different children: `d` is listed whole before `e`
                obtain ⟨l₁, l₂, hsplit, hmem'⟩ := split_of_getElem? hd he hij
                obtain ⟨pre, post, hpre⟩ := List.append_of_mem
                  (mem_preorder.mpr ⟨path, by simpa using hlen, hdx⟩ :
                    x ∈ preorder kids depth d)
                refine ⟨a :: l₁.flatMap (preorder kids depth) ++ pre,
                  post ++ l₂.flatMap (preorder kids depth), ?_, ?_⟩
                · simp [preorder, hsplit, hpre]
                · exact List.mem_append_right _ (List.mem_flatMap.mpr ⟨e, hmem', hmem⟩)
              · rw [hd] at he
                cases he
                obtain ⟨pre, post, hpre, hin⟩ :=
                  ih hdx hey (by simpa using hlen) (by simpa using hlen') hlt
                obtain ⟨l₁, l₂, hsplit⟩ := List.append_of_mem (List.mem_of_getElem? hd)
                refine ⟨a :: l₁.flatMap (preorder kids depth) ++ pre,
                  post ++ l₂.flatMap (preorder kids depth), ?_, List.mem_append_left _ hin⟩
                simp [preorder, hsplit, hpre]
where
  /-- two entries of a list, the earlier one split off -/
  split_of_getElem? {l : List α} {i j : Nat} {d e : α} (hd : l[i]? = some d) (he : l[j]? = some e)
      (hij : i < j) : ∃ l₁ l₂, l = l₁ ++ d :: l₂ ∧ e ∈ l₂ := by
    obtain ⟨hi, hdi⟩ := List.getElem?_eq_some_iff.mp hd
    refine ⟨l.take i, l.drop (i + 1), ?_, ?_⟩
    · rw [← hdi, List.getElem_cons_drop, List.take_append_drop]
    · refine List.mem_of_getElem? (i := j - (i + 1)) ?_
      rw [List.getElem?_drop]
      have : i + 1 + (j - (i + 1)) = j := by omega
      rw [this, he]

/-- In a branching forest no node below a root is listed twice. -/
theorem preorder_nodup (tree : Branching kids) {r : α} : ∀ (depth : Nat) {a : α} {lead : List Nat},
    Addr kids r lead a → (preorder kids depth a).Nodup
  | 0, a, _, _ => by simp [preorder]
  | depth + 1, a, lead, haddr => by
      rw [preorder, List.nodup_cons]
      constructor
      · intro hmem
        obtain ⟨d, hd, hda⟩ := List.mem_flatMap.mp hmem
        obtain ⟨i, hi⟩ := List.mem_iff_getElem?.mp hd
        obtain ⟨path, -, hpath⟩ := mem_preorder.mp hda
        have hloop : follow kids a (i :: path) = some a := by simp [hi, hpath]
        have := tree.no_loop haddr hloop
        simp at this
      · rw [List.nodup_flatMap]
        constructor
        · intro d hd
          obtain ⟨i, hi⟩ := List.mem_iff_getElem?.mp hd
          exact preorder_nodup tree depth (haddr.child hi)
        · refine List.Pairwise.imp_of_mem ?_ (tree.nodup a)
          intro d e hd he hne x hxd hxe
          obtain ⟨i, hi⟩ := List.mem_iff_getElem?.mp hd
          obtain ⟨j, hj⟩ := List.mem_iff_getElem?.mp he
          obtain ⟨path, -, hpath⟩ := mem_preorder.mp hxd
          obtain ⟨path', -, hpath'⟩ := mem_preorder.mp hxe
          have h₁ := (haddr.child hi).below hpath
          have h₂ := (haddr.child hj).below hpath'
          have heq := (tree.addr_unique h₁ h₂).2
          rw [List.append_assoc, List.append_assoc] at heq
          have heq' := List.append_cancel_left heq
          simp only [List.cons_append, List.nil_append, List.cons.injEq] at heq'
          rw [heq'.1, hj] at hi
          exact hne (Option.some_inj.mp hi).symm

end Preorder

end Pelorus.Lib.DocumentOrder
