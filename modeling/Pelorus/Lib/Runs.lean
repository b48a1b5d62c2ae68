import Mathlib.Data.List.Infix
import Mathlib.Data.List.Induction
import Mathlib.Logic.Relation

/-
  Lib/Runs.lean --- runs of a step function, and where a property began or ended.

  A run is a fold of the step over the operations, in order.  What every step keeps,
  a run keeps (`run_keeps`); what holds at the end and not at the start was entered at
  some step and held ever since (`exists_entry`); what holds at the start and not at
  the end was left at some step, for the first time (`exists_exit`).  A property that every
  step keeps under a condition on the step, and only then, holds throughout exactly the
  runs whose steps meet the condition (`prefixes_iff_steps`).
-/
set_option autoImplicit false

namespace Pelorus.Lib

universe u v

variable {σ : Type u} {ω : Type v} (step : σ → ω → σ)

/-- The state after operations in turn. -/
def runFrom (s : σ) (ops : List ω) : σ := ops.foldl step s

@[simp] theorem runFrom_nil (s : σ) : runFrom step s [] = s := rfl

@[simp] theorem runFrom_cons (s : σ) (op : ω) (ops : List ω) :
    runFrom step s (op :: ops) = runFrom step (step s op) ops := rfl

theorem runFrom_append (s : σ) (as bs : List ω) :
    runFrom step s (as ++ bs) = runFrom step (runFrom step s as) bs := List.foldl_append

theorem runFrom_snoc (s : σ) (ops : List ω) (op : ω) :
    runFrom step s (ops ++ [op]) = step (runFrom step s ops) op := by
  rw [runFrom_append]
  rfl

variable {step} {P : σ → Prop}

theorem run_keeps (hstep : ∀ s op, P s → P (step s op)) {s : σ} (h : P s) (ops : List ω) :
    P (runFrom step s ops) := by
  induction ops generalizing s with
  | nil => exact h
  | cons op ops ih => exact ih (hstep s op h)

/-- The last step that made the property hold, after which it held to the end. -/
theorem exists_entry {s : σ} {ops : List ω} (hstart : ¬ P s) (hend : P (runFrom step s ops)) :
    ∃ pre op post, ops = pre ++ op :: post ∧ ¬ P (runFrom step s pre) ∧
      ∀ mid, List.IsPrefix mid post → P (runFrom step s (pre ++ op :: mid)) := by
  induction ops using List.reverseRecOn with
  | nil => exact absurd hend hstart
  | append_singleton ops op ih =>
      by_cases hlast : P (runFrom step s ops)
      · obtain ⟨pre, op', post, rfl, hbefore, hsince⟩ := ih hlast
        refine ⟨pre, op', post ++ [op], by simp, hbefore, fun mid hmid => ?_⟩
        rcases List.prefix_concat_iff.mp hmid with rfl | hmid
        · simpa using hend
        · exact hsince mid hmid
      · refine ⟨ops, op, [], rfl, hlast, fun mid hmid => ?_⟩
        rw [List.prefix_nil.mp hmid]
        exact hend

/-- The first step that made the property fail. -/
theorem exists_exit {ops : List ω} : ∀ {s : σ}, P s → ¬ P (runFrom step s ops) →
    ∃ pre op post, ops = pre ++ op :: post ∧ P (runFrom step s pre) ∧
      ¬ P (step (runFrom step s pre) op) := by
  induction ops with
  | nil => exact fun hstart hend => absurd hstart hend
  | cons op ops ih =>
      intro s hstart hend
      by_cases hnext : P (step s op)
      · obtain ⟨pre, op', post, rfl, hbefore, hafter⟩ := ih hnext hend
        exact ⟨op :: pre, op', post, rfl, hbefore, hafter⟩
      · exact ⟨[], op, ops, rfl, hstart, hnext⟩

/-- Where every step from a past with `P` keeps `P` exactly if `C` holds of the step, `P` holds
throughout exactly if `C` holds of every step. -/
theorem prefixes_iff_steps {P : List ω → Prop} {C D : List ω → ω → Prop} (hnil : P [])
    (hstep : ∀ past op, D past op → P past → (P (past ++ [op]) ↔ C past op)) {ops : List ω}
    (hD : ∀ pre op post, ops = pre ++ op :: post → D pre op) :
    (∀ pre post, ops = pre ++ post → P pre) ↔ ∀ pre op post, ops = pre ++ op :: post → C pre op := by
  constructor
  · intro hall pre op post h
    have hsnoc : ops = pre ++ [op] ++ post := by simpa using h
    exact (hstep pre op (hD pre op post h) (hall pre _ h)).mp (hall _ _ hsnoc)
  · intro hall pre
    induction pre using List.reverseRecOn with
    | nil => exact fun _ _ => hnil
    | append_singleton pre op ih =>
        intro post h
        have hcons : ops = pre ++ op :: post := by simpa using h
        exact (hstep pre op (hD pre op post hcons) (ih _ hcons)).mpr (hall pre op post hcons)

end Pelorus.Lib

/-
  Programs that change a state and may fail, and what
  holds between the state before and the state after.

  A program is an `EStateM ε σ α`: on failure it still returns a state, the one
  it had reached.  `Follows P R m` says that from every state satisfying `P` the
  program ends, whether it succeeds or fails, in a state related to the first by
  `R`.  With `R` reflexive and transitive and `P` kept along `R`, the rules below
  compose it through the program's own structure.
-/

namespace Pelorus.Lib.StateRun

variable {ε σ α β : Type}

/-- The state a program ended in, whether it succeeded or failed. -/
def final : EStateM.Result ε σ α → σ
  | .ok _ s => s
  | .error _ s => s

@[simp] theorem final_ok (a : α) (s : σ) : final (EStateM.Result.ok a s : EStateM.Result ε σ α) = s := rfl

@[simp] theorem final_error (e : ε) (s : σ) :
    final (EStateM.Result.error e s : EStateM.Result ε σ α) = s := rfl

/-! ## Unfolding one operation of a program -/

@[simp] theorem run_pure (a : α) (s : σ) : (pure a : EStateM ε σ α) s = .ok a s := rfl

@[simp] theorem run_throw (e : ε) (s : σ) : (throw e : EStateM ε σ α) s = .error e s := rfl

@[simp] theorem run_get (s : σ) : (EStateM.get : EStateM ε σ σ) s = .ok s s := rfl

@[simp] theorem run_set (t s : σ) : (set t : EStateM ε σ PUnit) s = .ok ⟨⟩ t := rfl

@[simp] theorem run_modify (f : σ → σ) (s : σ) : (modify f : EStateM ε σ PUnit) s = .ok ⟨⟩ (f s) := rfl

@[simp] theorem run_modifyGet (f : σ → α × σ) (s : σ) :
    (modifyGet f : EStateM ε σ α) s = .ok (f s).1 (f s).2 := rfl

theorem run_bind (x : EStateM ε σ α) (f : α → EStateM ε σ β) (s : σ) :
    (x >>= f) s = match x s with
      | .ok a t => f a t
      | .error e t => .error e t := rfl

@[simp] theorem run_map (f : α → β) (x : EStateM ε σ α) (s : σ) :
    (f <$> x) s = match x s with
      | .ok a t => .ok (f a) t
      | .error e t => .error e t := rfl

theorem run_bind_ok {x : EStateM ε σ α} {f : α → EStateM ε σ β} {s t : σ} {a : α}
    (h : x s = .ok a t) : (x >>= f) s = f a t := by
  rw [run_bind, h]

theorem run_bind_error {x : EStateM ε σ α} {f : α → EStateM ε σ β} {s t : σ} {e : ε}
    (h : x s = .error e t) : (x >>= f) s = .error e t := by
  rw [run_bind, h]

/-! ## Relating the two ends of a run -/

/-- From every state satisfying `P`, `m` ends in a state related by `R`. -/
def Follows (P : σ → Prop) (R : σ → σ → Prop) (m : EStateM ε σ α) : Prop :=
  ∀ s, P s → R s (final (m s))

/-- What the composition rules need of `P` and `R`. -/
structure Composes (P : σ → Prop) (R : σ → σ → Prop) : Prop where
  refl : ∀ s, R s s
  trans : ∀ {s t u}, R s t → R t u → R s u
  keeps : ∀ {s t}, P s → R s t → P t

variable {P : σ → Prop} {R : σ → σ → Prop}

section Composition

variable (comp : Composes P R)

include comp

theorem follows_pure (a : α) : Follows P R (pure a : EStateM ε σ α) :=
  fun s _ => comp.refl s

theorem follows_throw (e : ε) : Follows P R (throw e : EStateM ε σ α) :=
  fun s _ => comp.refl s

theorem follows_get : Follows P R (EStateM.get : EStateM ε σ σ) :=
  fun s _ => comp.refl s

theorem Follows.bind {x : EStateM ε σ α} {f : α → EStateM ε σ β} (hx : Follows P R x)
    (hf : ∀ a, Follows P R (f a)) : Follows P R (x >>= f) := by
  intro s hs
  have h := hx s hs
  rw [run_bind]
  cases hr : x s with
  | ok a t =>
      rw [hr] at h
      exact comp.trans h (hf a t (comp.keeps hs h))
  | error e t =>
      rw [hr] at h
      exact h

theorem follows_forM {f : α → EStateM ε σ PUnit} (hf : ∀ a, Follows P R (f a)) :
    ∀ l : List α, Follows P R (l.forM f)
  | [] => follows_pure comp _
  | a :: l => Follows.bind comp (hf a) fun _ => follows_forM hf l

end Composition

end Pelorus.Lib.StateRun

/-
  What holds of each entry of a history, given the entries before it.

  `EachAfter P l` is the form that a safety property of a log has: of every entry of `l`,
  and of the entries before that one, `P` holds.  A log grows at its end, and then the new
  entries have to be looked at and the old ones do not (`eachAfter_append`).
-/

namespace Pelorus.Lib

universe u

variable {α : Type u} {P Q : List α → α → Prop} {l m : List α} {x : α}

/-- Of each entry, and of those before it. -/
def EachAfter (P : List α → α → Prop) (l : List α) : Prop :=
  ∀ before x after, l = before ++ x :: after → P before x

theorem eachAfter_nil : EachAfter P [] := by
  intro before x after h
  simp at h

theorem EachAfter.mono (h : EachAfter P l) (hPQ : ∀ before x, P before x → Q before x) : EachAfter Q l :=
  fun before x after heq => hPQ before x (h before x after heq)

/-- What is behind an entry does not matter to it. -/
theorem EachAfter.left (h : EachAfter P (l ++ m)) : EachAfter P l := by
  intro before x after heq
  refine h before x (after ++ m) ?_
  rw [heq, List.append_assoc, List.cons_append]

/-- New entries at the end are looked at after the old ones. -/
theorem eachAfter_append (hl : EachAfter P l) (hm : EachAfter (fun before x => P (l ++ before) x) m) :
    EachAfter P (l ++ m) := by
  intro before x after heq
  rcases List.append_eq_append_iff.mp heq with ⟨mid, hbefore, htail⟩ | ⟨mid, hl', htail⟩
  · rw [hbefore]
    exact hm mid x after htail
  · cases mid with
    | nil =>
        rw [List.nil_append] at htail
        rw [List.append_nil] at hl'
        have h : P (l ++ []) x := hm [] x after htail.symm
        rwa [List.append_nil, hl'] at h
    | cons y mid =>
        obtain ⟨rfl, _⟩ := List.cons.inj htail
        exact hl before x mid hl'

theorem eachAfter_singleton (h : P [] x) : EachAfter P [x] := by
  intro before y after heq
  cases before with
  | nil =>
      obtain ⟨rfl, _⟩ := List.cons.inj heq
      exact h
  | cons z before =>
      have hlen := congrArg List.length heq
      simp only [List.length_cons, List.length_nil, List.length_append] at hlen
      omega

/-- One new entry at the end. -/
theorem EachAfter.concat (hl : EachAfter P l) (hx : P l x) : EachAfter P (l ++ [x]) :=
  eachAfter_append hl (eachAfter_singleton (by rwa [List.append_nil]))

theorem EachAfter.of_mem (h : EachAfter P l) (hx : x ∈ l) : ∃ before, (∀ y ∈ before, y ∈ l) ∧ P before x := by
  obtain ⟨before, after, heq⟩ := List.append_of_mem hx
  refine ⟨before, ?_, h before x after heq⟩
  intro y hy
  rw [heq]
  exact List.mem_append_left _ hy

/-- Where each entry of a kind has at most `n` of them before it, there are at most `n + 1`. -/
theorem EachAfter.countP_le {p : α → Bool} {n : Nat}
    (h : EachAfter (fun before x => p x = true → before.countP p ≤ n) l) : l.countP p ≤ n + 1 := by
  induction l using List.reverseRecOn with
  | nil => exact Nat.zero_le _
  | append_singleton l x ih =>
      have hl := ih h.left
      rw [List.countP_append, List.countP_singleton]
      by_cases hx : p x = true
      · have hbefore := h l x [] rfl hx
        rw [if_pos hx]
        omega
      · rw [if_neg hx]
        omega

end Pelorus.Lib
