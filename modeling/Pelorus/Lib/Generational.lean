import Mathlib.Logic.Relation
import Mathlib.Data.List.Induction
import Mathlib.Data.List.Nodup

/-
  Lib/Generational.lean --- generational slot pools, over any occupant type.

  A pool is a list of cells and a free list.  A handle is an index and a
  generation; it resolves when the cell at the index is occupied and has that
  generation.  Freeing a cell bumps its generation, and a cell freed at the last
  generation is retired: it is vacant and not on the free list.

  The pool is described by its STEPS, not by an implementation: overwriting an
  occupant, reusing a vacant cell, extending the pool, releasing a cell, retiring
  one.  `Kind` separates the steps that may allocate from those that may free, so
  that an operation can say which of the two it does.

  IDENTITY.  `serial` numbers occupants.  An allocation hands out the next
  number (`births`) and an overwrite keeps it, so "the same occupant" is "the
  same serial", independently of any handle.

  Three facts carry everything else:

      Wf.step        the free list, the generations and the serials stay
                     consistent
      fate_step      a handle whose occupant has serial `k` keeps resolving to
                     it, or is dead together with `k`, and death is final
      retired_step   a retired cell stays retired
-/
set_option autoImplicit false

namespace Pelorus.Lib.Generational

/-- One cell: its generation and its occupant. -/
structure Cell (α : Type) where
  generation : Nat
  value : Option α

/-- Cells, the indices that may be reused, and the number of allocations so far. -/
structure Pool (α : Type) where
  cells : List (Cell α)
  free : List Nat
  births : Nat

/-- What a sequence of steps may do besides overwriting occupants. -/
inductive Kind where
  | grow
  | shrink

section

variable {α : Type} (last : Nat) (serial : α → Nat)

/-- Resolve the handle `(i, g)`. -/
def Pool.at? (p : Pool α) (i g : Nat) : Option α :=
  match p.cells[i]? with
  | none => none
  | some c => if c.generation ≠ g then none else c.value

/-- One change to a pool. -/
inductive Step : Kind → Pool α → Pool α → Prop where
  | write {kind : Kind} {p : Pool α} {i g : Nat} {a b : α}
      (cell : p.cells[i]? = some ⟨g, some a⟩) (same : serial b = serial a) :
      Step kind p { p with cells := p.cells.set i ⟨g, some b⟩ }
  | reuse {p : Pool α} {i g : Nat} {rest : List Nat} {v : Option α} {a : α}
      (top : p.free = i :: rest) (cell : p.cells[i]? = some ⟨g, v⟩)
      (born : serial a = p.births) :
      Step .grow p ⟨p.cells.set i ⟨g, some a⟩, rest, p.births + 1⟩
  | extend {p : Pool α} {a : α} (none_free : p.free = [])
      (born : serial a = p.births) :
      Step .grow p ⟨p.cells ++ [⟨1, some a⟩], [], p.births + 1⟩
  | release {p : Pool α} {i g : Nat} {a : α}
      (cell : p.cells[i]? = some ⟨g, some a⟩) (more : g < last) :
      Step .shrink p ⟨p.cells.set i ⟨g + 1, none⟩, i :: p.free, p.births⟩
  | retire {p : Pool α} {i g : Nat} {a : α}
      (cell : p.cells[i]? = some ⟨g, some a⟩) (spent : ¬ g < last) :
      Step .shrink p ⟨p.cells.set i ⟨g, none⟩, p.free, p.births⟩

/-- Any number of changes of one kind. -/
def Steps (kind : Kind) : Pool α → Pool α → Prop :=
  Relation.ReflTransGen (Step last serial kind)

/-- What one operation does to a pool: it allocates and overwrites, or it frees
and overwrites. -/
def Moves (p q : Pool α) : Prop := ∃ kind, Steps last serial kind p q

/-- The consistency of a pool. -/
structure Wf (p : Pool α) : Prop where
  free_nodup : p.free.Nodup
  free_vacant : ∀ i ∈ p.free, ∃ g : Nat, p.cells[i]? = some ⟨g, none⟩
  vacant_free : ∀ i g : Nat, p.cells[i]? = some ⟨g, none⟩ → g < last → i ∈ p.free
  generation_pos : ∀ (i : Nat) (c : Cell α), p.cells[i]? = some c → 1 ≤ c.generation
  generation_le : ∀ (i : Nat) (c : Cell α), p.cells[i]? = some c → c.generation ≤ last
  serial_lt : ∀ (i g : Nat) (a : α), p.cells[i]? = some ⟨g, some a⟩ → serial a < p.births
  serial_inj : ∀ (i j g h : Nat) (a b : α), p.cells[i]? = some ⟨g, some a⟩ →
    p.cells[j]? = some ⟨h, some b⟩ → serial a = serial b → i = j

/-- The occupant with this serial is in the pool, wherever it is. -/
def Held (p : Pool α) (k : Nat) : Prop :=
  ∃ (i g : Nat) (a : α), p.cells[i]? = some ⟨g, some a⟩ ∧ serial a = k

/-- The cell is vacant for good: its generations are spent. -/
def Retired (p : Pool α) (i : Nat) : Prop :=
  p.cells[i]? = some ⟨last, none⟩ ∧ i ∉ p.free

/-- The handle `(i, g)` resolves, to the occupant with serial `k`. -/
def Alive (p : Pool α) (i g k : Nat) : Prop :=
  ∃ a, p.cells[i]? = some ⟨g, some a⟩ ∧ serial a = k

/-- The handle `(i, g)` resolves no more, and neither is `k` held: the cell has
moved past generation `g`, or it was retired at it. -/
def Dead (p : Pool α) (i g k : Nat) : Prop :=
  (∃ c, p.cells[i]? = some c ∧ (g < c.generation ∨ (g = last ∧ Retired last p i))) ∧
    k < p.births ∧ ¬ Held serial p k

end

variable {α : Type} {last : Nat} {serial : α → Nat}
variable {a : α}

theorem at?_eq_some {p : Pool α} {i g : Nat} : p.at? i g = some a ↔ p.cells[i]? = some ⟨g, some a⟩ := by
  unfold Pool.at?
  constructor
  · intro h
    split at h
    · simp at h
    · rename_i c hc
      split at h
      · simp at h
      · rename_i hg
        obtain ⟨generation, value⟩ := c
        simp only [ne_eq, Decidable.not_not] at hg
        simp only at h
        rw [hc, hg, h]
  · intro h
    simp [h]

/-! ## Consistency -/

theorem wf_empty : Wf last serial (⟨[], [], 0⟩ : Pool α) := by
  constructor <;> simp

theorem Wf.write {p : Pool α} (wf : Wf last serial p) {i g : Nat} {b : α}
    (cell : p.cells[i]? = some ⟨g, some a⟩) (same : serial b = serial a) :
    Wf last serial { p with cells := p.cells.set i ⟨g, some b⟩ } := by
  obtain ⟨nodup, vacant, free, pos, le, lt, inj⟩ := wf
  constructor <;> simp only [List.getElem?_set] <;> grind

theorem Wf.reuse {p : Pool α} (wf : Wf last serial p) {i g : Nat} {rest : List Nat}
    {v : Option α} {a : α} (top : p.free = i :: rest) (cell : p.cells[i]? = some ⟨g, v⟩)
    (born : serial a = p.births) :
    Wf last serial ⟨p.cells.set i ⟨g, some a⟩, rest, p.births + 1⟩ := by
  obtain ⟨nodup, vacant, free, pos, le, lt, inj⟩ := wf
  constructor <;> simp only [List.getElem?_set] <;> grind

theorem Wf.extend {p : Pool α} (wf : Wf last serial p) (one : 1 ≤ last) (none_free : p.free = [])
    (born : serial a = p.births) :
    Wf last serial ⟨p.cells ++ [⟨1, some a⟩], [], p.births + 1⟩ := by
  obtain ⟨nodup, vacant, free, pos, le, lt, inj⟩ := wf
  constructor <;> simp only [List.getElem?_append] <;> grind

theorem Wf.release {p : Pool α} (wf : Wf last serial p) {i g : Nat} {a : α}
    (cell : p.cells[i]? = some ⟨g, some a⟩) (more : g < last) :
    Wf last serial ⟨p.cells.set i ⟨g + 1, none⟩, i :: p.free, p.births⟩ := by
  obtain ⟨nodup, vacant, free, pos, le, lt, inj⟩ := wf
  constructor <;> simp only [List.getElem?_set] <;> grind

theorem Wf.retire {p : Pool α} (wf : Wf last serial p) {i g : Nat} {a : α}
    (cell : p.cells[i]? = some ⟨g, some a⟩) (spent : ¬ g < last) :
    Wf last serial ⟨p.cells.set i ⟨g, none⟩, p.free, p.births⟩ := by
  obtain ⟨nodup, vacant, free, pos, le, lt, inj⟩ := wf
  constructor <;> simp only [List.getElem?_set] <;> grind

/-- Every step keeps a pool consistent. -/
theorem Wf.step (one : 1 ≤ last) {kind : Kind} {p q : Pool α} (wf : Wf last serial p)
    (h : Step last serial kind p q) : Wf last serial q := by
  cases h with
  | write cell same => exact wf.write cell same
  | reuse top cell born => exact wf.reuse top cell born
  | extend none_free born => exact wf.extend one none_free born
  | release cell more => exact wf.release cell more
  | retire cell spent => exact wf.retire cell spent

theorem Wf.steps (one : 1 ≤ last) {kind : Kind} {p q : Pool α} (wf : Wf last serial p)
    (h : Steps last serial kind p q) : Wf last serial q := by
  induction h with
  | refl => exact wf
  | tail _ hstep ih => exact ih.step one hstep

/-! ## The fate of a handle -/

theorem Alive.held {p : Pool α} {i g k : Nat} (h : Alive serial p i g k) : Held serial p k := by
  obtain ⟨a, cell, hk⟩ := h
  exact ⟨i, g, a, cell, hk⟩

/-- A handle's occupant is the only one with its serial. -/
theorem Held.alive {p : Pool α} (wf : Wf last serial p) {i g k : Nat}
    (alive : Alive serial p i g k) {j h : Nat} {b : α}
    (cell : p.cells[j]? = some ⟨h, some b⟩) (hb : serial b = k) : j = i ∧ h = g := by
  obtain ⟨a, ha, hk⟩ := alive
  have hji : j = i := wf.serial_inj j i h g b a cell ha (hb.trans hk.symm)
  subst hji
  rw [ha] at cell
  exact ⟨rfl, (Cell.mk.inj (Option.some.inj cell)).1.symm⟩

theorem not_alive_of_dead {p : Pool α} {i g k : Nat} (h : Dead last serial p i g k) (j : Nat) :
    ¬ Alive serial p i g j := by
  rintro ⟨a, cell, -⟩
  obtain ⟨⟨c, hc, past⟩, -, -⟩ := h
  rw [cell] at hc
  cases hc
  rcases past with hlt | ⟨-, ret, -⟩
  · exact absurd hlt (Nat.lt_irrefl g)
  · rw [cell] at ret
    simp at ret

/-- An allocating step never disturbs a handle that resolves. -/
theorem Alive.grow {p q : Pool α} (wf : Wf last serial p) {i g k : Nat}
    (alive : Alive serial p i g k) (h : Step last serial .grow p q) : Alive serial q i g k := by
  obtain ⟨a, cell, hk⟩ := alive
  cases h with
  | write hcell same =>
      unfold Alive
      simp only [List.getElem?_set]
      grind
  | @reuse _ j _ _ _ _ top hcell born =>
      -- the reused cell is vacant, so it is not the one the handle names
      obtain ⟨g', hv⟩ := wf.free_vacant j (by rw [top]; exact List.mem_cons_self)
      have hne : j ≠ i := by
        rintro rfl
        rw [cell] at hv
        simp at hv
      exact ⟨a, by simp [hne, cell], hk⟩
  | extend none_free born =>
      have hlt : i < p.cells.length := (List.getElem?_eq_some_iff.mp cell).1
      exact ⟨a, by simp [List.getElem?_append, hlt, ← cell], hk⟩

/-- A freeing step leaves a handle resolving to its occupant, or kills both. -/
theorem Alive.shrink {p q : Pool α} (wf : Wf last serial p) {i g k : Nat}
    (alive : Alive serial p i g k) (h : Step last serial .shrink p q) :
    Alive serial q i g k ∨ Dead last serial q i g k := by
  have hheld := fun {j h b} => @Held.alive α last serial p wf i g k alive j h b
  obtain ⟨a, cell, hk⟩ := alive
  have hlt := wf.serial_lt i g a cell
  have hle := wf.generation_le i _ cell
  have hfree : i ∉ p.free := by
    intro hmem
    obtain ⟨g', hv⟩ := wf.free_vacant i hmem
    rw [cell] at hv
    simp at hv
  cases h with
  | write hcell same =>
      left
      unfold Alive
      simp only [List.getElem?_set]
      grind
  | @release _ j _ _ hcell more =>
      by_cases hji : j = i
      · right
        subst hji
        rw [cell] at hcell
        cases hcell
        have hlen := (List.getElem?_eq_some_iff.mp cell).1
        refine ⟨⟨⟨g + 1, none⟩, by simp [hlen], Or.inl (Nat.lt_succ_self g)⟩, hk ▸ hlt, ?_⟩
        rintro ⟨j', h', b, hb, hbk⟩
        simp only [List.getElem?_set] at hb
        grind
      · left
        exact ⟨a, by simp [hji, cell], hk⟩
  | @retire _ j _ _ hcell spent =>
      by_cases hji : j = i
      · right
        subst hji
        rw [cell] at hcell
        cases hcell
        have hlen := (List.getElem?_eq_some_iff.mp cell).1
        have hg : g = last := Nat.le_antisymm hle (Nat.le_of_not_lt spent)
        refine ⟨⟨⟨g, none⟩, by simp [hlen], Or.inr ⟨hg, ?_, hfree⟩⟩, hk ▸ hlt, ?_⟩
        · simp [hlen, hg]
        · rintro ⟨j', h', b, hb, hbk⟩
          simp only [List.getElem?_set] at hb
          grind
      · left
        exact ⟨a, by simp [hji, cell], hk⟩

variable {kind : Kind}

/-- A retired cell stays retired: no step allocates it again. -/
theorem Retired.step {p q : Pool α} {i : Nat} (ret : Retired last p i)
    (h : Step last serial kind p q) : Retired last q i := by
  obtain ⟨cell, hfree⟩ := ret
  unfold Retired
  cases h with
  | write hcell _ => simp only [List.getElem?_set]; grind
  | reuse top hcell _ => simp only [List.getElem?_set]; grind
  | extend none_free _ => simp only [List.getElem?_append]; grind
  | release hcell _ => simp only [List.getElem?_set]; grind
  | retire hcell _ => simp only [List.getElem?_set]; grind

/-- Death is final. -/
theorem Dead.step {p q : Pool α} {i g k : Nat} (dead : Dead last serial p i g k)
    (h : Step last serial kind p q) : Dead last serial q i g k := by
  obtain ⟨⟨c, cell, past⟩, hlt, hheld⟩ := dead
  have hlen := (List.getElem?_eq_some_iff.mp cell).1
  have hret : Retired last p i → Retired last q i := fun r => r.step h
  have hnot : ∀ (j h : Nat) (b : α), p.cells[j]? = some ⟨h, some b⟩ → serial b ≠ k :=
    fun j h b hc he => hheld ⟨j, h, b, hc, he⟩
  have hgen : ∃ c', q.cells[i]? = some c' ∧ c.generation ≤ c'.generation := by
    cases h with
    | write hcell _ => simp only [List.getElem?_set]; grind
    | reuse top hcell _ => simp only [List.getElem?_set]; grind
    | extend none_free _ => simp only [List.getElem?_append]; grind
    | release hcell _ => simp only [List.getElem?_set]; grind
    | retire hcell _ => simp only [List.getElem?_set]; grind
  obtain ⟨c', cell', hle⟩ := hgen
  refine ⟨⟨c', cell', ?_⟩, ?_, ?_⟩
  · rcases past with hg | ⟨hg, hr⟩
    · exact Or.inl (Nat.lt_of_lt_of_le hg hle)
    · exact Or.inr ⟨hg, hret hr⟩
  · cases h <;> first | exact hlt | exact Nat.lt_succ_of_lt hlt
  · rintro ⟨j, g', b, hb, hbk⟩
    cases h with
    | write hcell _ => simp only [List.getElem?_set] at hb; grind
    | reuse top hcell _ => simp only [List.getElem?_set] at hb; grind
    | extend none_free _ => simp only [List.getElem?_append] at hb; grind
    | release hcell _ => simp only [List.getElem?_set] at hb; grind
    | retire hcell _ => simp only [List.getElem?_set] at hb; grind

/-- One step of either kind: the handle goes on resolving to its occupant, or it
is dead. -/
theorem Alive.step {p q : Pool α} (wf : Wf last serial p) {i g k : Nat}
    (alive : Alive serial p i g k) (h : Step last serial kind p q) :
    Alive serial q i g k ∨ Dead last serial q i g k := by
  cases kind with
  | grow => exact Or.inl (alive.grow wf h)
  | shrink => exact alive.shrink wf h

/-! ## Runs -/

section Runs

variable (one : 1 ≤ last)

include one

variable {p q : Pool α}
variable {g k : Nat}

theorem Alive.steps (wf : Wf last serial p) {i : Nat} (alive : Alive serial p i g k)
    (h : Steps last serial kind p q) :
    Alive serial q i g k ∨ Dead last serial q i g k := by
  induction h with
  | refl => exact Or.inl alive
  | tail hrest hstep ih =>
      rcases ih with ha | hd
      · exact ha.step (wf.steps one hrest) hstep
      · exact Or.inr (hd.step hstep)

theorem Alive.steps_grow (wf : Wf last serial p) {i : Nat} (alive : Alive serial p i g k)
    (h : Steps last serial .grow p q) :
    Alive serial q i g k := by
  induction h with
  | refl => exact alive
  | tail hrest hstep ih => exact ih.grow (wf.steps one hrest) hstep

variable {i : Nat}

omit one in
theorem Dead.steps (dead : Dead last serial p i g k) (h : Steps last serial kind p q) :
    Dead last serial q i g k := by
  induction h with
  | refl => exact dead
  | tail _ hstep ih => exact ih.step hstep

omit one in
theorem Retired.steps (ret : Retired last p i) (h : Steps last serial kind p q) : Retired last q i := by
  induction h with
  | refl => exact ret
  | tail _ hstep ih => exact ih.step hstep

omit one in
theorem Retired.of_grow (wf : Wf last serial p) (ret : Retired last q i)
    (h : Step last serial .grow p q) : Retired last p i := by
  obtain ⟨nodup, vacant, free, pos, le, lt, inj⟩ := wf
  obtain ⟨cell, hfree⟩ := ret
  unfold Retired
  cases h with
  | write hcell _ => simp only [List.getElem?_set] at cell; grind
  | reuse top hcell _ => simp only [List.getElem?_set] at cell; grind
  | extend none_free _ => simp only [List.getElem?_append] at cell; grind

omit one in
/-- What a freeing step finds occupied or retired was so before it. -/
theorem occupied_or_retired_of_shrink (h : Step last serial .shrink p q)
    (hq : Retired last q i ∨ ∃ k, Alive serial q i last k) (wf : Wf last serial p) :
    Retired last p i ∨ ∃ k, Alive serial p i last k := by
  obtain ⟨nodup, vacant, free, pos, le, lt, inj⟩ := wf
  unfold Retired Alive at *
  cases h with
  | write hcell _ => simp only [List.getElem?_set] at hq; grind
  | release hcell more => simp only [List.getElem?_set] at hq; grind
  | retire hcell spent => simp only [List.getElem?_set] at hq; grind

/-- A cell that an operation leaves retired was retired before it, or occupied
at the last generation. -/
theorem retired_of_moves (wf : Wf last serial p) (h : Moves last serial p q) (ret : Retired last q i) :
    Retired last p i ∨ ∃ k, Alive serial p i last k := by
  obtain ⟨kind, hsteps⟩ := h
  cases kind with
  | grow =>
      left
      induction hsteps with
      | refl => exact ret
      | tail hrest hstep ih => exact ih (ret.of_grow (wf.steps one hrest) hstep)
  | shrink =>
      have key : ∀ {q}, Steps last serial .shrink p q →
          (Retired last q i ∨ ∃ k, Alive serial q i last k) →
          Retired last p i ∨ ∃ k, Alive serial p i last k := by
        intro q hs
        induction hs with
        | refl => exact id
        | tail hrest hstep ih =>
            intro hq
            exact ih (occupied_or_retired_of_shrink hstep hq (wf.steps one hrest))
      exact key hsteps (Or.inl ret)

theorem Alive.moves (wf : Wf last serial p) (alive : Alive serial p i g k) (h : Moves last serial p q) :
    Alive serial q i g k ∨ Dead last serial q i g k := by
  obtain ⟨kind, hsteps⟩ := h
  exact alive.steps one wf hsteps

omit one in
theorem Dead.moves (dead : Dead last serial p i g k) (h : Moves last serial p q) :
    Dead last serial q i g k := by
  obtain ⟨kind, hsteps⟩ := h
  exact dead.steps hsteps

omit one in
theorem Retired.moves (ret : Retired last p i)
    (h : Moves last serial p q) : Retired last q i := by
  obtain ⟨kind, hsteps⟩ := h
  exact ret.steps hsteps

theorem Wf.moves (wf : Wf last serial p) (h : Moves last serial p q) : Wf last serial q := by
  obtain ⟨kind, hsteps⟩ := h
  exact wf.steps one hsteps

end Runs

/-- Changing every occupant, serials kept, is a run of writes. -/
theorem steps_map (kind : Kind) {f : α → α} (hf : ∀ a, serial (f a) = serial a)
    (free : List Nat) (births : Nat) : ∀ done rest : List (Cell α),
    Steps last serial kind ⟨done ++ rest, free, births⟩
      ⟨done ++ rest.map fun c => ⟨c.generation, c.value.map f⟩, free, births⟩
  | done, [] => by
      rw [List.map_nil]
      exact Relation.ReflTransGen.refl
  | done, ⟨g, none⟩ :: rest => by
      have ih := steps_map kind hf free births (done ++ [⟨g, none⟩]) rest
      simpa using ih
  | done, ⟨g, some a⟩ :: rest => by
      have ih := steps_map kind hf free births (done ++ [⟨g, some (f a)⟩]) rest
      have cell : (done ++ ⟨g, some a⟩ :: rest)[done.length]? = some ⟨g, some a⟩ := by simp
      have hstep : Step last serial kind ⟨done ++ ⟨g, some a⟩ :: rest, free, births⟩
          ⟨(done ++ ⟨g, some a⟩ :: rest).set done.length ⟨g, some (f a)⟩, free, births⟩ :=
        Step.write cell (hf a)
      refine Relation.ReflTransGen.head hstep ?_
      simpa [Steps] using ih

theorem Dead.retired {p : Pool α} (wf : Wf last serial p) {i k : Nat}
    (dead : Dead last serial p i last k) : Retired last p i := by
  obtain ⟨⟨c, cell, past⟩, -, -⟩ := dead
  rcases past with hlt | ⟨-, ret⟩
  · exact absurd (wf.generation_le i c cell) (Nat.not_le_of_lt hlt)
  · exact ret

theorem Wf.mem_free_iff {p : Pool α} (wf : Wf last serial p) (i : Nat) :
    i ∈ p.free ↔ (∃ g : Nat, p.cells[i]? = some ⟨g, none⟩) ∧ ¬ Retired last p i := by
  constructor
  · intro hmem
    exact ⟨wf.free_vacant i hmem, fun ret => ret.2 hmem⟩
  · rintro ⟨⟨g, cell⟩, hret⟩
    by_cases hg : g < last
    · exact wf.vacant_free i g cell hg
    · by_contra hmem
      have hle := wf.generation_le i _ cell
      have heq : g = last := Nat.le_antisymm hle (Nat.le_of_not_lt hg)
      exact hret ⟨heq ▸ cell, hmem⟩

/-! ## Histories

A history gives the pool after each sequence of operations.  It starts consistent
with nothing retired, and each operation allocates or frees. -/

section History

variable {ω : Type} {state : List ω → Pool α}

/-- The pools an operation sequence runs through, from a consistent one. -/
structure History (last : Nat) (serial : α → Nat) (state : List ω → Pool α) : Prop where
  one : 1 ≤ last
  start : Wf last serial (state [])
  none_retired : ∀ i, ¬ Retired last (state []) i
  moves : ∀ ops op, Moves last serial (state ops) (state (ops ++ [op]))

/-- Earlier in the sequence the cell was occupied at the last generation, and
its occupant has been freed since. -/
def RetiredAfter (last : Nat) (state : List ω → Pool α) (ops : List ω) (i : Nat) : Prop :=
  (∃ before after, ops = before ++ after ∧ (state before).at? i last ≠ none) ∧
    (state ops).at? i last = none

variable {i g k : Nat}
variable {p : Pool α}

theorem alive_iff_at? : Alive serial p i g k ↔ ∃ a, p.at? i g = some a ∧ serial a = k := by
  unfold Alive
  simp only [at?_eq_some]

theorem Dead.at?_eq_none (dead : Dead last serial p i g k) : p.at? i g = none := by
  cases h : p.at? i g with
  | none => rfl
  | some a => exact absurd (alive_iff_at?.mpr ⟨a, h, rfl⟩) (not_alive_of_dead dead (serial a))

theorem Retired.at?_eq_none (ret : Retired last p i) (g : Nat) : p.at? i g = none := by
  simp [Pool.at?, ret.1]

variable (hist : History last serial state)

include hist

theorem History.wf (ops : List ω) : Wf last serial (state ops) := by
  induction ops using List.reverseRecOn with
  | nil => exact hist.start
  | append_singleton ops op ih => exact ih.moves hist.one (hist.moves ops op)

variable {ops : List ω}

theorem History.dead (dead : Dead last serial (state ops) i g k)
    (more : List ω) : Dead last serial (state (ops ++ more)) i g k := by
  induction more using List.reverseRecOn with
  | nil => simpa using dead
  | append_singleton more op ih =>
      rw [← List.append_assoc]
      exact ih.moves (hist.moves _ op)

theorem History.retired (ret : Retired last (state ops) i)
    (more : List ω) : Retired last (state (ops ++ more)) i := by
  induction more using List.reverseRecOn with
  | nil => simpa using ret
  | append_singleton more op ih =>
      rw [← List.append_assoc]
      exact ih.moves (hist.moves _ op)

/-- A handle's fate over any continuation: it resolves to the same occupant, or
it is dead. -/
theorem History.fate (alive : Alive serial (state ops) i g k)
    (more : List ω) :
    Alive serial (state (ops ++ more)) i g k ∨ Dead last serial (state (ops ++ more)) i g k := by
  induction more using List.reverseRecOn with
  | nil => exact Or.inl (by simpa using alive)
  | append_singleton more op ih =>
      rw [← List.append_assoc]
      rcases ih with ha | hd
      · exact ha.moves hist.one (hist.wf _) (hist.moves _ op)
      · exact Or.inr (hd.moves (hist.moves _ op))

/-- While its occupant is held, a handle resolves to it. -/
theorem History.alive_of_held (alive : Alive serial (state ops) i g k) (more : List ω)
    (held : Held serial (state (ops ++ more)) k) : Alive serial (state (ops ++ more)) i g k := by
  rcases hist.fate alive more with ha | hd
  · exact ha
  · exact absurd held hd.2.2

/-- Once its occupant is gone, a handle never resolves again. -/
theorem History.none_of_not_held (alive : Alive serial (state ops) i g k) (more : List ω)
    (gone : ¬ Held serial (state (ops ++ more)) k) (later : List ω) :
    (state (ops ++ more ++ later)).at? i g = none := by
  rcases hist.fate alive more with ha | hd
  · exact absurd ha.held gone
  · exact (hist.dead hd later).at?_eq_none

/-- No handle resolves to two occupants. -/
theorem History.serial_unique {a b : α} (ha : (state ops).at? i g = some a) (more : List ω)
    (hb : (state (ops ++ more)).at? i g = some b) : serial b = serial a := by
  rcases hist.fate (alive_iff_at?.mpr ⟨a, ha, rfl⟩) more with h | h
  · obtain ⟨c, hc, hs⟩ := alive_iff_at?.mp h
    rw [hb] at hc
    cases hc
    exact hs
  · rw [h.at?_eq_none] at hb
    cases hb

theorem History.retired_iff (ops : List ω) (i : Nat) :
    Retired last (state ops) i ↔ RetiredAfter last state ops i := by
  constructor
  · intro ret
    refine ⟨?_, ret.at?_eq_none last⟩
    induction ops using List.reverseRecOn with
    | nil => exact absurd ret (hist.none_retired i)
    | append_singleton ops op ih =>
        -- the operation found the cell retired, or occupied at the last generation
        rcases retired_of_moves hist.one (hist.wf ops) (hist.moves ops op) ret with hr | ⟨k, ha⟩
        · obtain ⟨before, after, rfl, hocc⟩ := ih hr
          exact ⟨before, after ++ [op], by simp, hocc⟩
        · obtain ⟨a, ha, -⟩ := alive_iff_at?.mp ha
          exact ⟨ops, [op], rfl, by simp [ha]⟩
  · rintro ⟨⟨before, after, rfl, hocc⟩, hnone⟩
    obtain ⟨a, ha⟩ := Option.ne_none_iff_exists'.mp hocc
    rcases hist.fate (alive_iff_at?.mpr ⟨a, ha, rfl⟩) after with h | h
    · obtain ⟨c, hc, -⟩ := alive_iff_at?.mp h
      rw [hnone] at hc
      cases hc
    · exact h.retired (hist.wf _)

end History

end Pelorus.Lib.Generational
