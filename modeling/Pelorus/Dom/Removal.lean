import Pelorus.Dom.Relink
import Pelorus.Dom.Traversal

/-
  Dom/Removal.lean --- the freeing walk of `remove_subtree`.

  THE WALK ENDS.  The loop of the source has no budget.  Each turn pops a handle;
  a turn that frees a slot pushes at most one handle for each slot and one for
  the template contents, and a slot is freed at most once.  `freeFrom_rule` is
  the invariant rule that follows, for any arena whatsoever: what holds of the
  stack and the arena before, and is kept by a turn, holds of the EMPTY stack
  and the arena after.

  WHAT IT LEAVES.  A node is freed before its children, so in a linked arena the
  freed nodes are closed upwards and, once the stack is empty, downwards: what
  is left is linked again (`Linked.restrict`).  The one thing the walk relies on
  is that a template's contents are not somebody's child (`DetachedContents`):
  they are freed without being unlinked.
-/
set_option autoImplicit false

namespace Pelorus.Dom

open Lib.StateRun Lib.Forest

namespace Arena

/-! ## One turn of the walk -/

variable {s : Arena} {id : NodeId}

/-- Freeing a live slot vacates that handle and no other. -/
theorem get_freeSlot {n : Node} (h : s.get id = some n) :
    (s.freeSlot id).2.get = Function.update s.get id none := by
  have hslot := get_eq_some.mp h
  have hlt := (List.getElem?_eq_some_iff.mp hslot).1
  rw [freeSlot_of_get h]
  funext q
  by_cases hq : q = id
  · subst hq
    rw [Function.update_self]
    by_cases hg : q.generation < u32Max <;> simp [hg, Arena.get, hlt]
  · rw [Function.update_of_ne hq]
    by_cases hi : q.index = id.index
    · have hg : id.generation ≠ q.generation := by
        intro hg
        apply hq
        cases q
        cases id
        simp_all
      have hold : s.get q = none := by simp [Arena.get, hi, hslot, hg]
      rw [hold]
      by_cases hmax : id.generation < u32Max <;> simp [hmax, Arena.get, hi, hlt]
    · by_cases hmax : id.generation < u32Max <;>
        simp [hmax, Arena.get, List.getElem?_set_ne (Ne.symm hi)]

theorem length_freeSlot (s : Arena) (id : NodeId) : (s.freeSlot id).2.slots.length = s.slots.length := by
  unfold freeSlot
  split
  · rfl
  · split
    · rfl
    · split <;> simp

theorem occupied_freeSlot {n : Node} (h : s.get id = some n) :
    (s.freeSlot id).2.occupied + 1 = s.occupied := by
  have hslot := get_eq_some.mp h
  rw [freeSlot_of_get h]
  have hcount : ∀ g, (s.slots.set id.index ⟨g, none⟩).countP (fun slot => slot.node.isSome) + 1
      = s.occupied := by
    intro g
    simpa [occupied] using countP_set_add hslot ⟨g, none⟩
  by_cases hg : id.generation < u32Max
  · simpa [hg, occupied] using hcount (id.generation + 1)
  · simpa [hg, occupied] using hcount id.generation

theorem occupied_le_length (s : Arena) : s.occupied ≤ s.slots.length :=
  List.countP_le_length

theorem childrenFrom_length (s : Arena) : ∀ (fuel : Nat) (cursor : Option NodeId)
    (l : List NodeId), childrenFrom s fuel cursor = some l → l.length ≤ fuel
  | _, none, l, h => by
      simp only [childrenFrom, Option.some.injEq] at h
      simp [← h]
  | 0, some _, l, h => by simp [childrenFrom] at h
  | fuel + 1, some current, l, h => by
      simp only [childrenFrom, Option.bind_eq_bind, Option.bind_eq_some_iff] at h
      obtain ⟨n, -, rest, hrest, hl⟩ := h
      have := childrenFrom_length s fuel _ rest hrest
      cases hl
      simp only [List.length_cons]
      omega

theorem children_eq_some {l : List NodeId} (h : s.children id = some l) :
    (∃ n, s.get id = some n) ∧ l.length ≤ s.slots.length := by
  simp only [children, Option.bind_eq_bind, Option.bind_eq_some_iff] at h
  obtain ⟨n, hn, hl⟩ := h
  exact ⟨⟨n, hn⟩, childrenFrom_length s _ _ l hl⟩

/-- The stack after a turn that frees `current`. -/
def pushFreed (s : Arena) (current : NodeId) (children stack : List NodeId) : List NodeId :=
  match (s.get current).bind fun n => n.data.templateContents with
  | some contents => contents :: (children.reverse ++ stack)
  | none => children.reverse ++ stack

theorem length_pushFreed (s : Arena) (current : NodeId) (children stack : List NodeId) :
    (s.pushFreed current children stack).length ≤ children.length + stack.length + 1 := by
  unfold pushFreed
  split <;> simp

/-- The invariant rule of the walk.  The fuel pays for the stack, and for every
slot that can still be freed together with what freeing it pushes. -/
theorem freeFrom_rule {inv : List NodeId → Arena → Prop}
    (skip : ∀ current stack s, inv (current :: stack) s → s.children current = none → inv stack s)
    (free : ∀ current stack s children, inv (current :: stack) s →
      s.children current = some children →
      inv (s.pushFreed current children stack) (s.freeSlot current).2) :
    ∀ (fuel : Nat) (stack : List NodeId) (freed : Nat) (s : Arena), inv stack s →
      stack.length + s.occupied * (s.slots.length + 1) < fuel →
      inv [] (freeFrom fuel stack freed s).2
  | 0, stack, _, s, _, hfuel => absurd hfuel (Nat.not_lt_zero _)
  | _ + 1, [], _, s, hinv, _ => hinv
  | fuel + 1, current :: stack, freed, s, hinv, hfuel => by
      unfold freeFrom
      cases hch : s.children current with
      | none =>
          refine freeFrom_rule skip free fuel stack freed s (skip current stack s hinv hch) ?_
          simp only [List.length_cons] at hfuel
          omega
      | some children =>
          obtain ⟨⟨n, hn⟩, hlen⟩ := children_eq_some hch
          have hocc := occupied_freeSlot hn
          have hpush := length_pushFreed s current children stack
          have hfuel' : (s.pushFreed current children stack).length +
              (s.freeSlot current).2.occupied * ((s.freeSlot current).2.slots.length + 1) < fuel := by
            rw [length_freeSlot]
            simp only [List.length_cons] at hfuel
            rw [← hocc, Nat.succ_mul] at hfuel
            omega
          exact freeFrom_rule skip free fuel _ _ _ (free current stack s children hinv hch) hfuel'

theorem freeFuel_enough (s : Arena) (id : NodeId) :
    [id].length + s.occupied * (s.slots.length + 1) < s.freeFuel := by
  have h := Nat.mul_le_mul_right (s.slots.length + 1) s.occupied_le_length
  simp only [freeFuel, List.length_cons, List.length_nil]
  omega

end Arena

/-! ## Dropping whole trees from a linked view -/

/-- The child lists of the nodes still in `view`. -/
def keptKids (view : NodeId → Option Node) (kids : NodeId → List NodeId) (p : NodeId) :
    List NodeId :=
  if view p = none then [] else kids p

variable {view : NodeId → Option Node}

theorem keptKids_of_live {p : NodeId} (h : view p ≠ none)
    (kids : NodeId → List NodeId) : keptKids view kids p = kids p := if_neg h

theorem keptKids_of_stale {p : NodeId} (h : view p = none)
    (kids : NodeId → List NodeId) : keptKids view kids p = [] := if_pos h

theorem addr_keptKids {kids : NodeId → List NodeId}
    (down : ∀ p c, c ∈ kids p → view p = none → view c = none) {r c : NodeId} {path : List Nat}
    (haddr : Addr kids r path c) (hc : view c ≠ none) : Addr (keptKids view kids) r path c := by
  have hway : ∀ rest a, follow kids a rest = some c →
      view a ≠ none ∧ follow (keptKids view kids) a rest = some c := by
    intro rest
    induction rest with
    | nil =>
        intro a ha
        cases ha
        exact ⟨hc, rfl⟩
    | cons i rest ih =>
        intro a ha
        obtain ⟨d, hd, hdc⟩ := Option.bind_eq_some_iff.mp ha
        obtain ⟨hlive, hfollow⟩ := ih d hdc
        have ha' : view a ≠ none := fun h => hlive (down a d (List.mem_of_getElem? hd) h)
        exact ⟨ha', by simp [keptKids_of_live ha', hd, hfollow]⟩
  refine ⟨?_, (hway path r haddr.leads).2⟩
  intro p hp
  by_cases h : view p = none
  · simp [keptKids_of_stale h] at hp
  · rw [keptKids_of_live h] at hp
    exact haddr.root p hp

/-- What is left when a set of nodes goes that contains the children of its
members, and the parent of every member that has one. -/
theorem Linked.restrict {view' : NodeId → Option Node} {kids : NodeId → List NodeId}
    (lk : Linked view kids) (keep : ∀ q, view' q = none ∨ view' q = view q)
    (up : ∀ p c, c ∈ kids p → view' c = none → view' p = none)
    (down : ∀ p c, c ∈ kids p → view' p = none → view' c = none) :
    Linked view' (keptKids view' kids) := by
  have live : ∀ {q n}, view' q = some n → view q = some n ∧ keptKids view' kids q = kids q := by
    intro q n hq
    refine ⟨?_, keptKids_of_live (by simp [hq]) kids⟩
    rcases keep q with h | h
    · rw [h] at hq; cases hq
    · rw [← h]; exact hq
  have sub : ∀ {p c}, c ∈ keptKids view' kids p → view' p ≠ none ∧ c ∈ kids p := by
    intro p c hc
    by_cases hp : view' p = none
    · simp [keptKids_of_stale hp] at hc
    · rw [keptKids_of_live hp] at hc
      exact ⟨hp, hc⟩
  refine ⟨fun p hp => keptKids_of_stale hp kids, ?_, ?_, ?_, ?_, ?_, ?_, ?_, ?_⟩
  · intro p
    by_cases hp : view' p = none
    · simp [keptKids_of_stale hp]
    · rw [keptKids_of_live hp]
      exact lk.nodup p
  · intro p n hp
    rw [(live hp).2]
    exact lk.first p n (live hp).1
  · intro p n hp
    rw [(live hp).2]
    exact lk.last p n (live hp).1
  · intro p pre c post hsplit
    have hmem : c ∈ keptKids view' kids p := by simp [hsplit]
    obtain ⟨hp, hc⟩ := sub hmem
    rw [keptKids_of_live hp] at hsplit
    obtain ⟨m, hm, hrest⟩ := lk.link p pre c post hsplit
    refine ⟨m, ?_, hrest⟩
    rcases keep c with h | h
    · exact absurd (up p c hc h) hp
    · rw [h, hm]
  · intro c m p hc hp
    have hmem := lk.member c m p (live hc).1 hp
    have hlive : view' p ≠ none := by
      intro h
      rw [down p c hmem h] at hc
      cases hc
    rw [keptKids_of_live hlive]
    exact hmem
  · intro c m hc hp
    exact lk.orphan c m (live hc).1 hp
  · intro p n hp hne
    rw [(live hp).2] at hne
    exact lk.container p n (live hp).1 hne
  · intro c m hc
    obtain ⟨r, path, haddr, hlen⟩ := lk.rooted c m (live hc).1
    exact ⟨r, path, addr_keptKids down haddr (by simp [hc]), hlen⟩

namespace Arena

/-! ## What the walk frees -/

/-- The handles `remove_subtree` visits from `id`: down the child lists and into
template contents. -/
inductive Visits (s : Arena) (id : NodeId) : NodeId → Prop
  | self : Visits s id id
  | child {p c : NodeId} : Visits s id p → c ∈ s.childIds p → Visits s id c
  | contents {t c : NodeId} {n : Node} : Visits s id t → s.get t = some n →
      n.data.templateContents = some c → Visits s id c

/-- Every template contents that `remove_subtree(id)` would free is a tree of its
own, or `id` itself, which is detached first. -/
def DetachedContents (s : Arena) (id : NodeId) : Prop :=
  ∀ t n c m, Visits s id t → s.get t = some n → n.data.templateContents = some c →
    s.get c = some m → m.parent = none ∨ c = id

/-- The walk in the arena `s₀` the node was detached in, `kids` its child lists
and `visits` the handles it may come to. -/
structure Freeing (s₀ : Arena) (kids : NodeId → List NodeId) (visits : NodeId → Prop)
    (stack : List NodeId) (t : Arena) : Prop where
  slots : t.slots.length = s₀.slots.length
  document : t.document = s₀.document
  ranges : t.ranges = s₀.ranges ∧ t.freeRanges = s₀.freeRanges ∧ t.rangeBirths = s₀.rangeBirths
  keep : ∀ q, t.get q = none ∨ t.get q = s₀.get q
  /-- a freed node and a stacked one have no live parent -/
  up : ∀ p c, c ∈ kids p → t.get c = none ∨ c ∈ stack → t.get p = none
  /-- the children of a freed node are freed or about to be -/
  down : ∀ p c, c ∈ kids p → t.get p = none → t.get c = none ∨ c ∈ stack
  stacked : ∀ c ∈ stack, visits c
  freed : ∀ q, s₀.get q ≠ none → t.get q = none → visits q

namespace Freeing

variable {s₀ : Arena} {kids : NodeId → List NodeId} {visits : NodeId → Prop}
  (lk : Linked s₀.get kids)

include lk

theorem start {id : NodeId} (hroot : IsRoot kids id) (hid : visits id) :
    Freeing s₀ kids visits [id] s₀ where
  slots := rfl
  document := rfl
  ranges := ⟨rfl, rfl, rfl⟩
  keep q := Or.inr rfl
  up p c hc h := by
    obtain ⟨m, hm, -⟩ := lk.parent_of_mem hc
    rcases h with h | h
    · rw [hm] at h; cases h
    · simp only [List.mem_singleton] at h
      exact absurd hc (h ▸ hroot p)
  down p c hc h := by
    obtain ⟨n, hn⟩ := lk.live_of_kids hc
    rw [hn] at h
    cases h
  stacked c hc := by simpa using (List.mem_singleton.mp hc).symm ▸ hid
  freed q hq h := absurd h hq

variable {current : NodeId} {stack : List NodeId} {t : Arena}
  (walk : Freeing s₀ kids visits (current :: stack) t)

include walk

theorem children {n : Node} (h : t.get current = some n) : t.children current = some (kids current) := by
  have hview : t.get current = s₀.get current := by
    rcases walk.keep current with h' | h'
    · rw [h'] at h; cases h
    · exact h'
  have hlink : ∀ pre c post, kids current = pre ++ c :: post →
      ∃ m, t.get c = some m ∧ m.nextSibling = post.head? := by
    intro pre c post hsplit
    obtain ⟨m, hm, -, -, hnext⟩ := lk.link current pre c post hsplit
    refine ⟨m, ?_, hnext⟩
    rcases walk.keep c with h' | h'
    · have hgone := walk.up current c (by simp [hsplit]) (Or.inl h')
      rw [h] at hgone
      cases hgone
    · rw [h', hm]
  have hwalk := childrenFrom_of_links hlink t.slots.length [] (kids current) rfl
    (by rw [walk.slots]; exact length_kids_le lk current)
  rw [← lk.first current n (hview ▸ h)] at hwalk
  simp [Arena.children, h, hwalk]

/-- A handle that does not resolve is skipped. -/
theorem skip (h : t.children current = none) : Freeing s₀ kids visits stack t := by
  have hgone : t.get current = none := by
    cases hget : t.get current with
    | none => rfl
    | some n =>
        rw [children lk walk hget] at h
        cases h
  refine ⟨walk.slots, walk.document, walk.ranges, walk.keep, ?_, ?_,
    fun c hc => walk.stacked c (by simp [hc]), walk.freed⟩
  · intro p c hc hor
    exact walk.up p c hc (hor.imp id fun h => by simp [h])
  · intro p c hc hp
    rcases walk.down p c hc hp with h | h
    · exact Or.inl h
    · rcases List.mem_cons.mp h with rfl | h
      · exact Or.inl hgone
      · exact Or.inr h

/-- A turn that frees a node, provided its template contents are nobody's child. -/
theorem free {l : List NodeId} (h : t.children current = some l)
    (hkids : ∀ p c, visits p → c ∈ kids p → visits c)
    (hcontents : ∀ q n c, visits q → s₀.get q = some n → n.data.templateContents = some c →
      visits c ∧ IsRoot kids c) :
    Freeing s₀ kids visits (t.pushFreed current l stack) (t.freeSlot current).2 := by
  obtain ⟨⟨n, hn⟩, -⟩ := children_eq_some h
  rw [children lk walk hn] at h
  cases h
  have hview : s₀.get current = some n := by
    rcases walk.keep current with h' | h'
    · rw [h'] at hn; cases hn
    · rw [← h', hn]
  have hcur : visits current := walk.stacked current (by simp)
  have hget := get_freeSlot hn
  have hmem : ∀ c, c ∈ t.pushFreed current (kids current) stack →
      n.data.templateContents = some c ∨ c ∈ kids current ∨ c ∈ stack := by
    intro c hc
    unfold pushFreed at hc
    rw [hn, Option.bind_some] at hc
    split at hc
    · rename_i contents hcont
      simp only [List.mem_cons, List.mem_append, List.mem_reverse] at hc
      rcases hc with rfl | hc
      · exact Or.inl hcont
      · exact Or.inr hc
    · right
      simpa using hc
  have hpushed : ∀ c, c ∈ kids current ∨ c ∈ stack →
      c ∈ t.pushFreed current (kids current) stack := by
    intro c hc
    unfold pushFreed
    split
    · simp only [List.mem_cons, List.mem_append, List.mem_reverse]
      exact Or.inr hc
    · simpa using hc
  refine ⟨by rw [length_freeSlot]; exact walk.slots, ?_, ?_, ?_, ?_, ?_, ?_, ?_⟩
  · rw [freeSlot_of_get hn]
    by_cases hg : current.generation < u32Max <;> simpa [hg] using walk.document
  · rw [freeSlot_of_get hn]
    by_cases hg : current.generation < u32Max <;> simpa [hg] using walk.ranges
  · intro q
    rw [hget]
    by_cases hq : q = current
    · simp [hq]
    · rw [Function.update_of_ne hq]
      exact walk.keep q
  · intro p c hc hor
    rw [hget] at hor ⊢
    by_cases hp : p = current
    · simp [hp]
    · rw [Function.update_of_ne hp]
      by_cases hcc : c = current
      · exact walk.up p c hc (Or.inr (by simp [hcc]))
      · rw [Function.update_of_ne hcc] at hor
        rcases hor with hor | hor
        · exact walk.up p c hc (Or.inl hor)
        · rcases hmem c hor with h | h | h
          · exact absurd hc ((hcontents current n c hcur hview h).2 p)
          · exact absurd (lk.owner_unique h hc) hp
          · exact walk.up p c hc (Or.inr (by simp [h]))
  · intro p c hc hp
    rw [hget] at hp ⊢
    by_cases hcc : c = current
    · simp [hcc]
    · rw [Function.update_of_ne hcc]
      by_cases hpc : p = current
      · exact Or.inr (hpushed c (Or.inl (hpc ▸ hc)))
      · rw [Function.update_of_ne hpc] at hp
        rcases walk.down p c hc hp with h | h
        · exact Or.inl h
        · rcases List.mem_cons.mp h with h | h
          · exact absurd h hcc
          · exact Or.inr (hpushed c (Or.inr h))
  · intro c hc
    rcases hmem c hc with h | h | h
    · exact (hcontents current n c hcur hview h).1
    · exact hkids current c hcur h
    · exact walk.stacked c (by simp [h])
  · intro q hq hgone
    rw [hget] at hgone
    by_cases hqc : q = current
    · rw [hqc]; exact hcur
    · rw [Function.update_of_ne hqc] at hgone
      exact walk.freed q hq hgone

end Freeing

/-- When the walk is over what is left is linked. -/
theorem Freeing.linked {s₀ t : Arena} {kids : NodeId → List NodeId} {visits : NodeId → Prop}
    (walk : Freeing s₀ kids visits [] t) (lk : Linked s₀.get kids) :
    Linked t.get (keptKids t.get kids) := by
  refine lk.restrict walk.keep ?_ ?_
  · intro p c hc h
    exact walk.up p c hc (Or.inl h)
  · intro p c hc h
    rcases walk.down p c hc h with h | h
    · exact h
    · simp at h

theorem freeSubtree_spec {s₀ : Arena} {kids : NodeId → List NodeId} {visits : NodeId → Prop}
    (lk : Linked s₀.get kids) {id : NodeId} (hroot : IsRoot kids id) (hid : visits id)
    (hkids : ∀ p c, visits p → c ∈ kids p → visits c)
    (hcontents : ∀ q n c, visits q → s₀.get q = some n → n.data.templateContents = some c →
      visits c ∧ IsRoot kids c) :
    ∃ count t, s₀.freeSubtree id = (count, t.dropDangling) ∧ Freeing s₀ kids visits [] t := by
  refine ⟨_, (freeFrom s₀.freeFuel [id] 0 s₀).2, rfl, ?_⟩
  refine @freeFrom_rule (Freeing s₀ kids visits) ?_ ?_ _ _ _ _
    (Freeing.start lk hroot hid) (freeFuel_enough s₀ id)
  · intro current stack s walk h
    exact walk.skip lk h
  · intro current stack s children walk h
    exact walk.free lk h hkids hcontents

@[simp] theorem slots_dropRange (s : Arena) (id : RangeId) : (s.dropRange id).2.slots = s.slots := by
  unfold dropRange
  split
  · rfl
  · split
    · rfl
    · split <;> rfl

@[simp] theorem slots_dropDangling (s : Arena) : s.dropDangling.slots = s.slots := by
  unfold dropDangling
  generalize s.danglingRanges = ids
  induction ids generalizing s with
  | nil => rfl
  | cons id ids ih =>
      rw [List.foldl_cons, ih]
      exact slots_dropRange s id

theorem get_of_slots {s t : Arena} (h : t.slots = s.slots) : t.get = s.get := by
  funext q
  unfold Arena.get
  rw [h]

/-- `remove_subtree` is refused and changes nothing, or it detaches the node and
frees all it visits. -/
theorem removeSubtree_spec {s : Arena} {kids : NodeId → List NodeId} (lk : Linked s.get kids)
    {id : NodeId} (hdet : s.DetachedContents id) :
    (∃ e, removeSubtree id s = .error e s) ∨
    ∃ s₀ kids₀ count t, Detached s kids id s₀ kids₀ ∧ Freeing s₀ kids₀ (Visits s id) [] t ∧
      removeSubtree id s = .ok count t.dropDangling ∧ id ≠ s.document := by
  by_cases hlive : s.contains id = true
  · by_cases hdoc : id = s.document
    · left
      exact ⟨.immovable, by simp [removeSubtree, run_bind, hdoc, hdoc ▸ hlive]⟩
    · right
      obtain ⟨n, hn⟩ := Option.isSome_iff_exists.mp hlive
      obtain ⟨s₀, kids₀, hrun, det⟩ := detach_spec lk hn
      have lk₀ := det.linked lk
      obtain ⟨m, hm, hmp⟩ := det.orphaned
      have hroot := (lk₀.isRoot_iff hm).mpr hmp
      have hkids : ∀ p c, Visits s id p → c ∈ kids₀ p → Visits s id c := by
        intro p c hp hc
        rw [det.kids_eq_filter lk, ← childIds_eq lk] at hc
        exact .child hp (List.mem_filter.mp hc).1
      have hcontents : ∀ q n c, Visits s id q → s₀.get q = some n →
          n.data.templateContents = some c → Visits s id c ∧ IsRoot kids₀ c := by
        intro q n c hq hget hc
        obtain ⟨n', hn', hdata⟩ : ∃ n', s.get q = some n' ∧ n'.data = n.data := by
          have hdata := det.data q
          rw [hget] at hdata
          exact Option.map_eq_some_iff.mp hdata.symm
        rw [← hdata] at hc
        refine ⟨.contents hq hn' hc, ?_⟩
        cases hc' : s.get c with
        | none =>
            intro p hmem
            have := live_of_mem lk₀ hmem
            rw [det.contains_eq] at this
            simp [contains, hc'] at this
        | some mc =>
            rcases hdet q n' c mc hq hn' hc hc' with hp | rfl
            · obtain ⟨m', hm', hp'⟩ := det.parent_none hc' hp
              exact (lk₀.isRoot_iff hm').mpr hp'
            · exact hroot
      obtain ⟨count, t, hfree, walk⟩ :=
        freeSubtree_spec lk₀ hroot Visits.self hkids hcontents
      refine ⟨s₀, kids₀, count, t, det, walk, ?_, hdoc⟩
      simp [removeSubtree, run_bind, hlive, hdoc, hrun, hfree]
  · left
    exact ⟨.noSuchNode, by simp [removeSubtree, run_bind, hlive]⟩

end Arena

end Pelorus.Dom
