import Mathlib.Data.Fintype.Card
import Mathlib.Data.Fintype.EquivFin
import Pelorus.Dom.TreeRun
import Pelorus.Lib.EarlyExit

/-
  Dom/Validate.lean --- `Arena::validate` decides whether the arena is a tree.

  The other files of this directory start from an arena whose links are sound.
  Nothing is assumed here: the links of a node may be any handles at all, live,
  stale or crossed, which is the only kind of arena `validate` is there for.

  TWO PASSES.  The first looks at one child list at a time.  Where it succeeds,
  every walk over children has ended by itself, so a list has no node twice and
  a listed node names the one node that lists it (`checkChildren_iff`).  The
  second walks down from the parentless nodes.  On lists that passed the first
  it marks exactly the nodes such a walk can come to, each of them once
  (`descend_spec`); the depth limit is the only way it can fail, and what it has
  not marked at the end has a parent that does not list it, or is in a cycle.
-/
set_option autoImplicit false

namespace Pelorus.Dom

open Lib (bind_eq_ok)

/-- What `validate` reports: the node at which it gave up, and why. -/
abbrev Violation : Type := NodeId × String

namespace Arena

/-! ## The first pass -/

/-- The handles of the occupied slots, in slot order.  A slot whose index no
handle can carry is passed over. -/
def handles (s : Arena) : List NodeId :=
  s.slots.zipIdx.filterMap fun (slot, index) =>
    if slot.node.isNone then none
    else if index > u32Max then none
    else some ⟨index, slot.generation⟩

/-- `first_child` against the forward walk. -/
def checkFirst (s : Arena) (id : NodeId) (node : Node) (children : List NodeId) :
    Except Violation Unit :=
  match node.firstChild with
  | some first =>
      if children.head? ≠ some first then
        .error (id, "first_child disagrees with the forward walk")
      else if ((s.get first).bind Node.prevSibling).isSome then
        .error (id, "the first child has a previous sibling")
      else .ok ()
  | none =>
      if children ≠ [] then .error (id, "no first_child, but the walk found children")
      else .ok ()

/-- `last_child` against the forward walk. -/
def checkLast (s : Arena) (id : NodeId) (node : Node) (children : List NodeId) :
    Except Violation Unit :=
  match node.lastChild with
  | some last =>
      if children.getLast? ≠ some last then
        .error (id, "last_child is not where the forward walk ends")
      else if ((s.get last).bind Node.nextSibling).isSome then
        .error (id, "the last child has a next sibling")
      else .ok ()
  | none =>
      if children ≠ [] then .error (id, "no last_child, but the walk found children")
      else .ok ()

/-- The members of a list, with the one looked at before. -/
def checkMembers (s : Arena) (id : NodeId) :
    Option NodeId → List NodeId → Except Violation Unit
  | _, [] => .ok ()
  | previous, child :: rest =>
      match s.get child with
      | none => .error (id, "a listed child does not resolve")
      | some m =>
          if m.parent ≠ some id then
            .error (child, "a child does not name the parent that lists it")
          else if m.prevSibling ≠ previous then
            .error (child, "the backward link disagrees with the forward walk")
          else checkMembers s id (some child) rest

/-- The child list of one node. -/
def checkChildren (s : Arena) (id : NodeId) (node : Node) : Except Violation Unit := do
  s.checkFirst id node (s.childIds id)
  s.checkLast id node (s.childIds id)
  s.checkMembers id none (s.childIds id)

/-- The first pass, over these nodes. -/
def checkLists (s : Arena) : List NodeId → Except Violation Unit
  | [] => .ok ()
  | id :: rest =>
      match s.get id with
      | none => checkLists s rest
      | some node => do
          s.checkChildren id node
          checkLists s rest

/-! ## The second pass -/

/-- The document resolves and has no parent. -/
def checkDocument (s : Arena) : Except Violation Unit :=
  match s.get s.document with
  | none => .error (s.document, "the document node does not resolve")
  | some node =>
      if node.parent.isSome then .error (s.document, "the document node has a parent")
      else .ok ()

/-- The stack the downward walk begins with: the parentless nodes, the last of
them on top. -/
def roots (s : Arena) : List (NodeId × Nat) :=
  ((s.handles.filter fun id => ((s.get id).bind Node.parent).isNone).map (·, 0)).reverse

/-- The downward walk, marking the slot of each node it pops.  A handle that has
no slot is passed over. -/
def descend (s : Arena) : Nat → List Bool → List (NodeId × Nat) → Except Violation (List Bool)
  | _, visited, [] => .ok visited
  | 0, _, (id, _) :: _ => .error (id, "the walk does not end")
  | fuel + 1, visited, (id, depth) :: stack =>
      if depth > MAX_DEPTH then .error (id, "a node sits past the depth limit")
      else
        match visited[id.index]? with
        | some true => .error (id, "a node is reachable from more than one parent")
        | some false =>
            descend s fuel (visited.set id.index true)
              (((s.childIds id).map (·, depth + 1)).reverse ++ stack)
        | none => descend s fuel visited stack

/-- More pops than the walk can make: each slot is marked at most once, and
pushes at most one handle for each slot. -/
def descendFuel (s : Arena) : Nat := s.slots.length * (s.slots.length + 2)

/-- Every occupied slot has been marked. -/
def checkReached (visited : List Bool) : List NodeId → Except Violation Unit
  | [] => .ok ()
  | id :: rest =>
      if visited[id.index]? = some false then
        .error (id, "a live node is reachable from no root, so it is in a cycle")
      else checkReached visited rest

def validate (s : Arena) : Except Violation Unit := do
  s.checkLists s.handles
  s.checkDocument
  let visited ← s.descend s.descendFuel (List.replicate s.slots.length false) s.roots
  checkReached visited s.handles

end Arena

/-! ## What a tree is -/

/-- The handles a node holds. -/
def Node.links (n : Node) : List NodeId :=
  [n.parent, n.firstChild, n.lastChild, n.prevSibling, n.nextSibling].filterMap id

/-- A handle carries a 32-bit index. -/
def NodeId.Representable (id : NodeId) : Prop := id.index ≤ u32Max

/-- The handles that the nodes hold are handles of the source: their index is a
`u32`. -/
def Arena.Representable (s : Arena) : Prop :=
  ∀ slot ∈ s.slots, ∀ n, slot.node = some n → ∀ id ∈ n.links, id.Representable

/-- The child list of a live node, followed from `first_child` by `next_sibling`:
its members are live, name the node as their parent, and are linked backwards. -/
def ChildList (s : Arena) (p : NodeId) (l : List NodeId) : Prop :=
  p.Representable ∧ ∃ n, s.get p = some n ∧ Siblings s p none n.firstChild l

/-- The arena is a tree under the document and under the parentless nodes. -/
structure IsTree (s : Arena) : Prop where
  /-- the document resolves and has no parent -/
  document : ∃ n, s.get s.document = some n ∧ n.parent = none
  /-- every live node's child list is sound, and ends at `last_child` -/
  lists : ∀ p n, p.Representable → s.get p = some n →
    ∃ l, Siblings s p none n.firstChild l ∧ n.lastChild = l.getLast?
  /-- every live node with a parent is once in one child list, and in no other -/
  listed : ∀ c m, c.Representable → s.get c = some m → m.parent ≠ none →
    ∃ q l, ChildList s q l ∧ l.count c = 1 ∧ ∀ q' l', ChildList s q' l' → c ∈ l' → q' = q
  /-- no node is above itself -/
  acyclic : ∀ c : NodeId, c.Representable → ¬ Relation.TransGen (ParentOf s) c c
  /-- no node is deeper than the limit -/
  shallow : ∀ c d, c.Representable → Depth s c d → d ≤ MAX_DEPTH

/-! ## Chains of siblings -/

section Siblings

variable {s : Arena} {p : NodeId}

/-- A chain ends, so it is the only one from where it starts. -/
theorem Siblings.unique {prev prev' first : Option NodeId} {l l' : List NodeId}
    (h : Siblings s p prev first l) (h' : Siblings s p prev' first l') : l = l' := by
  induction h generalizing prev' l' with
  | nil => cases h'; rfl
  | cons live _ _ _ ih =>
      cases h' with
      | cons live' _ _ rest' =>
          obtain rfl := Option.some.inj (live.symm.trans live')
          rw [ih rest']

variable {prev first : Option NodeId} {l : List NodeId}

section

variable (h : Siblings s p prev first l)

include h

/-- A member begins a chain of its own: the rest of the list. -/
theorem Siblings.suffix : ∀ {pre post : List NodeId} {c : NodeId},
      l = pre ++ c :: post → ∃ prev', Siblings s p prev' (some c) (c :: post) := by
  induction h with
  | nil =>
      intro pre post c hsplit
      simp at hsplit
  | cons live parent back rest ih =>
      intro pre post c hsplit
      cases pre with
      | nil =>
          obtain ⟨rfl, rfl⟩ := List.cons.inj hsplit
          exact ⟨_, .cons live parent back rest⟩
      | cons d pre => exact ih (List.cons.inj hsplit).2

theorem Siblings.nodup : l.Nodup := by
  induction h with
  | nil => exact List.nodup_nil
  | cons live parent back rest ih =>
      rename_i c m l
      refine List.nodup_cons.mpr ⟨fun hmem => ?_, ih⟩
      -- a second occurrence would begin the same chain, and end sooner
      obtain ⟨pre, post, rfl⟩ := List.append_of_mem hmem
      obtain ⟨prev', hsuffix⟩ := rest.suffix rfl
      have heq := hsuffix.unique (Siblings.cons live parent back rest)
      have hlen := congrArg List.length heq
      simp only [List.length_cons, List.length_append] at hlen
      omega

/-- A member is live and names the owner. -/
theorem Siblings.member {c : NodeId} (hc : c ∈ l) : ∃ m, s.get c = some m ∧ m.parent = some p := by
  obtain ⟨pre, post, hsplit⟩ := List.append_of_mem hc
  obtain ⟨prev', hsuffix⟩ := h.suffix hsplit
  cases hsuffix with
  | cons live parent _ _ => exact ⟨_, live, parent⟩

theorem Siblings.length_le : l.length ≤ s.slots.length :=
  Arena.length_le_of_live h.nodup fun c hc => by
    obtain ⟨m, hm, -⟩ := h.member hc
    simp [Arena.contains, hm]

/-- The iterator along a chain, cut off at its budget. -/
theorem Siblings.childIdsFrom_eq (budget : Nat) : Arena.childIdsFrom s budget first = l.take budget := by
  induction h generalizing budget with
  | nil => cases budget <;> simp [Arena.childIdsFrom]
  | cons live _ _ _ ih =>
      cases budget with
      | zero => simp [Arena.childIdsFrom]
      | succ budget => simp [Arena.childIdsFrom, live, ih]

end

theorem Siblings.childIds_eq {n : Node} (hp : s.get p = some n) (h : Siblings s p none n.firstChild l) :
    s.childIds p = l := by
  have hwalk := h.childIdsFrom_eq s.slots.length
  rw [List.take_of_length_le h.length_le] at hwalk
  simpa [Arena.childIds, hp] using hwalk

theorem Siblings.last_next
    (h : Siblings s p prev first l) {last : NodeId} (hlast : l.getLast? = some last) :
    (s.get last).bind Node.nextSibling = none := by
  obtain ⟨pre, rfl⟩ := List.getLast?_eq_some_iff.mp hlast
  obtain ⟨prev', hsuffix⟩ := h.suffix rfl
  cases hsuffix with
  | cons live _ _ rest =>
      generalize hnext : Node.nextSibling _ = next at rest
      cases rest
      simp [live, hnext]

theorem Siblings.head? (h : Siblings s p prev first l) : l.head? = first := by
  cases h <;> rfl

end Siblings

/-! ## What the first pass decides -/

theorem check_then_ok {ε : Type} {x y : Except ε Unit} :
    (x >>= fun _ => y) = .ok () ↔ x = .ok () ∧ y = .ok () := by
  rw [bind_eq_ok]
  constructor
  · rintro ⟨_, hx, hy⟩
    exact ⟨hx, hy⟩
  · rintro ⟨hx, hy⟩
    exact ⟨(), hx, hy⟩

namespace Arena

variable {s : Arena}
variable {id : NodeId}

theorem mem_handles : id ∈ s.handles ↔ s.contains id = true ∧ id.Representable := by
  unfold handles NodeId.Representable
  rw [List.mem_filterMap]
  constructor
  · rintro ⟨⟨⟨generation, node⟩, index⟩, hmem, h⟩
    have hslot := List.mem_zipIdx_iff_getElem?.mp hmem
    cases node with
    | none => simp at h
    | some n =>
        by_cases hindex : index > u32Max
        · simp [hindex] at h
        · have hid : (⟨index, generation⟩ : NodeId) = id := by simpa [hindex] using h
          subst hid
          have hget : s.get ⟨index, generation⟩ = some n := get_eq_some.mpr hslot
          exact ⟨by simp [contains, hget], Nat.le_of_not_lt hindex⟩
  · rintro ⟨hlive, hle⟩
    obtain ⟨n, hget⟩ := Option.isSome_iff_exists.mp hlive
    refine ⟨(⟨id.generation, some n⟩, id.index),
      List.mem_zipIdx_iff_getElem?.mpr (get_eq_some.mp hget), ?_⟩
    have hnot : ¬ id.index > u32Max := Nat.not_lt.mpr hle
    simp [hnot]

variable {node : Node}

theorem checkFirst_iff {children : List NodeId} :
    s.checkFirst id node children = .ok () ↔
      children.head? = node.firstChild ∧
        ∀ first, node.firstChild = some first → (s.get first).bind Node.prevSibling = none := by
  unfold checkFirst
  cases hfirst : node.firstChild with
  | none => cases children <;> simp
  | some first =>
      simp only [Option.some.injEq, forall_eq']
      generalize (s.get first).bind Node.prevSibling = before
      by_cases hhead : children.head? = some first
      · cases before <;> simp [hhead]
      · simp [hhead]

theorem checkLast_iff {children : List NodeId} :
    s.checkLast id node children = .ok () ↔
      children.getLast? = node.lastChild ∧
        ∀ last, node.lastChild = some last → (s.get last).bind Node.nextSibling = none := by
  unfold checkLast
  cases hlast : node.lastChild with
  | none => cases children <;> simp
  | some last =>
      simp only [Option.some.injEq, forall_eq']
      generalize (s.get last).bind Node.nextSibling = next
      by_cases hend : children.getLast? = some last
      · cases next <;> simp [hend]
      · simp [hend]

theorem checkMembers_cons {child : NodeId} {previous : Option NodeId} {rest : List NodeId} :
    s.checkMembers id previous (child :: rest) = .ok () ↔
      ∃ m, s.get child = some m ∧ m.parent = some id ∧ m.prevSibling = previous ∧
        s.checkMembers id (some child) rest = .ok () := by
  rw [checkMembers]
  cases s.get child with
  | none => simp
  | some m =>
      by_cases hparent : m.parent = some id
      · by_cases hprev : m.prevSibling = previous <;> simp [hparent, hprev]
      · simp [hparent]

/-- A walk whose members check out, and whose last member has nothing after it,
has come to the end of a chain: the budget did not cut it off. -/
theorem siblings_of_walk : ∀ (budget : Nat) (previous current : Option NodeId),
    s.checkMembers id previous (childIdsFrom s budget current) = .ok () →
    (childIdsFrom s budget current).head? = current →
    (∀ last, (childIdsFrom s budget current).getLast? = some last →
      (s.get last).bind Node.nextSibling = none) →
    Siblings s id previous current (childIdsFrom s budget current)
  | 0, _, current, _, hhead, _ => by
      cases current with
      | none => exact .nil
      | some child => simp [childIdsFrom] at hhead
  | _ + 1, _, none, _, _, _ => .nil
  | budget + 1, previous, some child, hcheck, _, hlast => by
      obtain ⟨m, hm, hparent, hprev, hrest⟩ := checkMembers_cons.mp hcheck
      have hstep : childIdsFrom s (budget + 1) (some child) =
          child :: childIdsFrom s budget m.nextSibling := by
        rw [childIdsFrom, hm, Option.bind_some]
      rw [hm, Option.bind_some] at hrest
      rw [hstep] at hlast ⊢
      refine .cons hm hparent hprev ?_
      cases hwalk : childIdsFrom s budget m.nextSibling with
      | nil =>
          have hnext := hlast child (by rw [hwalk]; rfl)
          rw [hm, Option.bind_some] at hnext
          rw [hnext]
          exact .nil
      | cons next rest =>
          rw [← hwalk]
          refine siblings_of_walk budget (some child) m.nextSibling hrest ?_ ?_
          · cases budget with
            | zero => simp [childIdsFrom] at hwalk
            | succ budget =>
                cases hnext : m.nextSibling with
                | none => simp [hnext, childIdsFrom] at hwalk
                | some next' => rfl
          · intro last hend
            refine hlast last ?_
            rw [hwalk] at hend ⊢
            rw [List.getLast?_cons_cons]
            exact hend

theorem checkMembers_of_siblings {previous first : Option NodeId} {l : List NodeId}
    (h : Siblings s id previous first l) : s.checkMembers id previous l = .ok () := by
  induction h with
  | nil => rfl
  | cons live parent back _ ih => exact checkMembers_cons.mpr ⟨_, live, parent, back, ih⟩

theorem checkChildren_iff (hid : s.get id = some node) :
    s.checkChildren id node = .ok () ↔
      ∃ l, Siblings s id none node.firstChild l ∧ node.lastChild = l.getLast? := by
  unfold checkChildren
  rw [check_then_ok, check_then_ok, checkFirst_iff, checkLast_iff]
  constructor
  · rintro ⟨⟨hhead, -⟩, ⟨hend, hlast⟩, hmembers⟩
    refine ⟨s.childIds id, ?_, hend.symm⟩
    have hwalk : s.childIds id = childIdsFrom s s.slots.length node.firstChild := by
      simp [childIds, hid]
    rw [hwalk] at hhead hend hmembers ⊢
    exact siblings_of_walk _ _ _ hmembers hhead fun last h => hlast last (hend ▸ h)
  · rintro ⟨l, hsiblings, hend⟩
    rw [hsiblings.childIds_eq hid]
    refine ⟨⟨hsiblings.head?, fun first hfirst => ?_⟩,
      ⟨hend.symm, fun last hlast => hsiblings.last_next (hend ▸ hlast)⟩,
      checkMembers_of_siblings hsiblings⟩
    rw [hfirst] at hsiblings
    cases hsiblings with
    | cons live _ back _ => simp [live, back]

theorem checkLists_iff : ∀ l : List NodeId, s.checkLists l = .ok () ↔
    ∀ id ∈ l, ∀ node, s.get id = some node → s.checkChildren id node = .ok ()
  | [] => by simp [checkLists]
  | id :: l => by
      unfold checkLists
      have ih := checkLists_iff l
      cases hid : s.get id with
      | none => simp [ih, hid]
      | some node => simp [check_then_ok, ih, hid]

theorem checkDocument_iff :
    s.checkDocument = .ok () ↔ ∃ n, s.get s.document = some n ∧ n.parent = none := by
  unfold checkDocument
  cases s.get s.document with
  | none => simp
  | some node => cases h : node.parent <;> simp [h]

theorem checkReached_iff {visited : List Bool} : ∀ l : List NodeId,
    checkReached visited l = .ok () ↔ ∀ id ∈ l, visited[id.index]? ≠ some false
  | [] => by simp [checkReached]
  | id :: l => by
      unfold checkReached
      have ih := @checkReached_iff visited l
      by_cases h : visited[id.index]? = some false <;> simp [h, ih]

end Arena

/-! ## Walking down

What the second pass does on lists that have passed the first.  -/

/-- Every child list has passed the first pass. -/
def ListsSound (s : Arena) : Prop :=
  ∀ p n, p.Representable → s.get p = some n →
    ∃ l, Siblings s p none n.firstChild l ∧ n.lastChild = l.getLast?

theorem Arena.checkLists_handles {s : Arena} : s.checkLists s.handles = .ok () ↔ ListsSound s := by
  rw [checkLists_iff]
  constructor
  · intro h p n hp hget
    exact (checkChildren_iff hget).mp (h p (mem_handles.mpr ⟨by simp [contains, hget], hp⟩) n hget)
  · intro h p hmem n hget
    exact (checkChildren_iff hget).mpr (h p n (mem_handles.mp hmem).2 hget)

/-- The nodes a walk down from the parentless ones comes to, with their depths. -/
inductive Reached (s : Arena) : NodeId → Nat → Prop
  | root {c : NodeId} {m : Node} (fits : c.Representable) (live : s.get c = some m)
      (parent : m.parent = none) : Reached s c 0
  | child {p c : NodeId} {d : Nat} (above : Reached s p d) (listed : c ∈ s.childIds p) :
      Reached s c (d + 1)

section Reached

variable {s : Arena} (typed : s.Representable) (lists : ListsSound s)
variable {p : NodeId}

theorem links_representable (typed : s.Representable) {n : Node} (hp : s.get p = some n) {q : NodeId}
    (hq : q ∈ n.links) : q.Representable :=
  typed _ (List.mem_of_getElem? (Arena.get_eq_some.mp hp)) n rfl q hq

/-- The members of a chain are handles the nodes hold. -/
theorem Siblings.representable (typed : s.Representable) {prev first : Option NodeId} {l : List NodeId}
    (h : Siblings s p prev first l) (hfirst : ∀ q, first = some q → q.Representable) :
    ∀ c ∈ l, c.Representable := by
  induction h with
  | nil =>
      intro c hc
      exact absurd hc List.not_mem_nil
  | cons live _ _ _ ih =>
      intro c hc
      rcases List.mem_cons.mp hc with rfl | hc
      · exact hfirst c rfl
      · refine ih (fun q hq => ?_) c hc
        exact links_representable typed live (by simp [Node.links, hq])

include typed lists

theorem childIds_sound {n : Node} (hp : p.Representable) (hget : s.get p = some n) :
    (s.childIds p).Nodup ∧ ∀ c ∈ s.childIds p,
      c.Representable ∧ ∃ m, s.get c = some m ∧ m.parent = some p := by
  obtain ⟨l, hsiblings, -⟩ := lists p n hp hget
  rw [hsiblings.childIds_eq hget]
  refine ⟨hsiblings.nodup, fun c hc => ⟨?_, hsiblings.member hc⟩⟩
  refine hsiblings.representable typed (fun q hq => ?_) c hc
  exact links_representable typed hget (by simp [Node.links, hq])

theorem Reached.live {c : NodeId} {d : Nat} (h : Reached s c d) :
    c.Representable ∧ ∃ m, s.get c = some m ∧ (m.parent = none ↔ d = 0) := by
  induction h with
  | root fits live parent => exact ⟨fits, _, live, by simp [parent]⟩
  | child above listed ih =>
      obtain ⟨hp, n, hget, -⟩ := ih
      obtain ⟨hc, m, hm, hparent⟩ := (childIds_sound typed lists hp hget).2 _ listed
      exact ⟨hc, m, hm, by simp [hparent]⟩

theorem Reached.depth {c : NodeId} {d : Nat} (h : Reached s c d) : Depth s c d := by
  induction h with
  | root _ live parent => exact .root live parent
  | child above listed ih =>
      obtain ⟨hp, n, hget, -⟩ := above.live typed lists
      obtain ⟨-, m, hm, hparent⟩ := (childIds_sound typed lists hp hget).2 _ listed
      exact .under hm hparent ih

end Reached

variable {c : NodeId}
variable {d : Nat}

theorem Depth.unique {s : Arena} {d' : Nat} (h : Depth s c d) (h' : Depth s c d') : d = d' := by
  induction h generalizing d' with
  | root live parent =>
      cases h' with
      | root => rfl
      | under live' parent' _ =>
          obtain rfl := Option.some.inj (live.symm.trans live')
          rw [parent] at parent'
          cases parent'
  | under live parent _ ih =>
      cases h' with
      | root live' parent' =>
          obtain rfl := Option.some.inj (live.symm.trans live')
          rw [parent] at parent'
          cases parent'
      | under live' parent' above' =>
          obtain rfl := Option.some.inj (live.symm.trans live')
          obtain rfl := Option.some.inj (parent.symm.trans parent')
          rw [ih above']

/-- The slot of the handle has been marked. -/
def Marked (visited : List Bool) (c : NodeId) : Prop := visited[c.index]? = some true

/-- What holds between two pops of the downward walk. -/
structure Frontier (s : Arena) (visited : List Bool) (stack : List (NodeId × Nat)) : Prop where
  length : visited.length = s.slots.length
  reached : ∀ a ∈ stack, Reached s a.1 a.2
  unmarked : ∀ a ∈ stack, ¬ Marked visited a.1
  nodup : (stack.map Prod.fst).Nodup
  marked : ∀ c, c.Representable → s.contains c = true → Marked visited c →
    ∃ d, Reached s c d ∧ d ≤ MAX_DEPTH
  /-- the parentless nodes have been popped, or will be -/
  top : ∀ c, Reached s c 0 → Marked visited c ∨ c ∈ stack.map Prod.fst
  /-- and so have the children of what was popped -/
  under : ∀ p d c, Reached s p d → Marked visited p → c ∈ s.childIds p →
    Marked visited c ∨ c ∈ stack.map Prod.fst
  /-- of the others' children, none has been come to -/
  up : ∀ p d c, Reached s p d → c ∈ s.childIds p →
    Marked visited c ∨ c ∈ stack.map Prod.fst → Marked visited p

theorem marked_set {s : Arena} {visited : List Bool} (hlen : visited.length = s.slots.length)
    {id : NodeId} (hid : s.contains id = true) (hc : s.contains c = true) :
    Marked (visited.set id.index true) c ↔ c = id ∨ Marked visited c := by
  unfold Marked
  by_cases h : id.index = c.index
  · have heq : id = c := Arena.eq_of_index_eq hid hc h
    subst heq
    have hlt : id.index < visited.length := hlen ▸ Arena.index_lt_of_live hid
    simp [hlt]
  · have hne : c ≠ id := fun heq => h (by rw [heq])
    rw [List.getElem?_set_ne h]
    simp [hne]

/-- Marking an unmarked slot leaves one fewer of them. -/
theorem count_set_true {visited : List Bool} {i : Nat} (h : visited[i]? = some false) :
    (visited.set i true).count false + 1 = visited.count false := by
  obtain ⟨hlt, hat⟩ := List.getElem?_eq_some_iff.mp h
  have hpos : 0 < visited.count false := List.count_pos_iff.mpr (List.mem_of_getElem? h)
  rw [List.count_set hlt, hat]
  simp only [BEq.rfl, if_true, Bool.true_eq_false, beq_iff_eq, if_false]
  omega

section Descent

variable {s : Arena} (typed : s.Representable) (lists : ListsSound s)

include typed lists

theorem Reached.contains {d : Nat} (h : Reached s c d) : s.contains c = true := by
  obtain ⟨-, m, hm, -⟩ := h.live typed lists
  simp [Arena.contains, hm]

theorem owner_unique {p q : NodeId} {d e : Nat} (hp : Reached s p d) (hq : Reached s q e)
    (hcp : c ∈ s.childIds p) (hcq : c ∈ s.childIds q) : p = q := by
  obtain ⟨hfits, n, hn, -⟩ := hp.live typed lists
  obtain ⟨hfits', n', hn', -⟩ := hq.live typed lists
  obtain ⟨-, m, hm, hparent⟩ := (childIds_sound typed lists hfits hn).2 c hcp
  obtain ⟨-, m', hm', hparent'⟩ := (childIds_sound typed lists hfits' hn').2 c hcq
  obtain rfl := Option.some.inj (hm.symm.trans hm')
  exact Option.some.inj (hparent.symm.trans hparent')

theorem Frontier.pop {visited : List Bool} {id : NodeId} {depth : Nat}
    {stack : List (NodeId × Nat)} (front : Frontier s visited ((id, depth) :: stack))
    (hdepth : depth ≤ MAX_DEPTH) :
    Frontier s (visited.set id.index true)
      (((s.childIds id).map (·, depth + 1)).reverse ++ stack) := by
  have hreached : Reached s id depth := front.reached (id, depth) List.mem_cons_self
  have hlive := hreached.contains typed lists
  obtain ⟨hfits, n, hn, -⟩ := hreached.live typed lists
  obtain ⟨hkids, hmember⟩ := childIds_sound typed lists hfits hn
  have hunmarked : ¬ Marked visited id := front.unmarked (id, depth) List.mem_cons_self
  have hstack := List.nodup_cons.mp front.nodup
  have hfst : (((s.childIds id).map (·, depth + 1)).reverse ++ stack).map Prod.fst =
      (s.childIds id).reverse ++ stack.map Prod.fst := by
    simp [List.map_reverse, Function.comp_def]
  have hset : ∀ c, s.contains c = true →
      (Marked (visited.set id.index true) c ↔ c = id ∨ Marked visited c) := fun c hc =>
    marked_set front.length hlive hc
  -- nothing under the popped node has been come to, since it was not marked
  have hfresh : ∀ c ∈ s.childIds id, ¬ Marked visited c ∧ c ≠ id ∧ c ∉ stack.map Prod.fst := by
    intro c hc
    have hnot : ¬ (Marked visited c ∨ c ∈ ((id, depth) :: stack).map Prod.fst) := fun h =>
      hunmarked (front.up id depth c hreached hc h)
    refine ⟨fun h => hnot (Or.inl h), ?_, fun h => hnot (Or.inr (List.mem_cons_of_mem _ h))⟩
    rintro rfl
    exact hnot (Or.inr List.mem_cons_self)
  have hkid : ∀ c ∈ s.childIds id, Reached s c (depth + 1) := fun c hc => .child hreached hc
  have hold : ∀ c, Reached s c 0 ∨ (∃ d, Reached s c d) →
      (Marked visited c ∨ c ∈ ((id, depth) :: stack).map Prod.fst) →
      Marked (visited.set id.index true) c ∨ c ∈ (s.childIds id).reverse ++ stack.map Prod.fst := by
    intro c hc h
    obtain ⟨d, hc⟩ : ∃ d, Reached s c d := hc.elim (fun h => ⟨0, h⟩) fun h => h
    rw [hset c (hc.contains typed lists)]
    rcases h with h | h
    · exact Or.inl (Or.inr h)
    · rcases List.mem_cons.mp h with h | h
      · exact Or.inl (Or.inl h)
      · exact Or.inr (List.mem_append_right _ h)
  constructor
  case length => rw [List.length_set]; exact front.length
  case reached =>
    intro a ha
    rcases List.mem_append.mp ha with ha | ha
    · obtain ⟨c, hc, rfl⟩ := List.mem_map.mp (List.mem_reverse.mp ha)
      exact hkid c hc
    · exact front.reached a (List.mem_cons_of_mem _ ha)
  case unmarked =>
    intro a ha
    rcases List.mem_append.mp ha with ha | ha
    · obtain ⟨c, hc, rfl⟩ := List.mem_map.mp (List.mem_reverse.mp ha)
      rw [hset c ((hkid c hc).contains typed lists)]
      rintro (h | h)
      · exact (hfresh c hc).2.1 h
      · exact (hfresh c hc).1 h
    · have hmem : a ∈ (id, depth) :: stack := List.mem_cons_of_mem _ ha
      rw [hset a.1 ((front.reached a hmem).contains typed lists)]
      rintro (h | h)
      · exact hstack.1 (h ▸ List.mem_map.mpr ⟨a, ha, rfl⟩)
      · exact front.unmarked a hmem h
  case nodup =>
    rw [hfst, List.nodup_append]
    refine ⟨List.nodup_reverse.mpr hkids, hstack.2, ?_⟩
    rintro c hc _ hc' rfl
    exact (hfresh c (List.mem_reverse.mp hc)).2.2 hc'
  case marked =>
    intro c hcfits hclive h
    rcases (hset c hclive).mp h with rfl | h
    · exact ⟨depth, hreached, hdepth⟩
    · exact front.marked c hcfits hclive h
  case top =>
    intro c hc
    rw [hfst]
    exact hold c (Or.inl hc) (front.top c hc)
  case under =>
    intro p d c hp hmark hc
    rw [hfst]
    rcases (hset p (hp.contains typed lists)).mp hmark with rfl | hmark
    · exact Or.inr (List.mem_append_left _ (List.mem_reverse.mpr hc))
    · exact hold c (Or.inr ⟨d + 1, .child hp hc⟩) (front.under p d c hp hmark hc)
  case up =>
    intro p d c hp hc h
    have hcreached : Reached s c (d + 1) := .child hp hc
    rw [hset p (hp.contains typed lists)]
    rw [hfst, hset c (hcreached.contains typed lists), List.mem_append, List.mem_reverse] at h
    rcases h with (rfl | h) | h | h
    · exact Or.inr (front.up p d c hp hc (Or.inr List.mem_cons_self))
    · exact Or.inr (front.up p d c hp hc (Or.inl h))
    · exact Or.inl (owner_unique typed lists hp hreached hc h)
    · exact Or.inr (front.up p d c hp hc (Or.inr (List.mem_cons_of_mem _ h)))

omit typed lists in
/-- When the stack is empty every node reached is marked. -/
theorem Frontier.all_marked {visited : List Bool} (front : Frontier s visited []) {d : Nat}
    (h : Reached s c d) : Marked visited c := by
  induction h with
  | root fits live parent =>
      rcases front.top _ (.root fits live parent) with h | h
      · exact h
      · exact absurd h List.not_mem_nil
  | child above listed ih =>
      rcases front.under _ _ _ above ih listed with h | h
      · exact h
      · exact absurd h List.not_mem_nil

/-- On lists that passed the first pass the walk ends, having marked what it
reached, or stops at a node past the limit. -/
theorem descend_spec : ∀ (fuel : Nat) (visited : List Bool) (stack : List (NodeId × Nat)),
    Frontier s visited stack → visited.count false ≤ fuel →
    (∃ v, s.descend fuel visited stack = .ok v ∧ Frontier s v []) ∨
      ((∃ e, s.descend fuel visited stack = .error e) ∧ ∃ c d, Reached s c d ∧ MAX_DEPTH < d)
  | fuel, visited, [], front, _ => Or.inl ⟨visited, by cases fuel <;> rfl, front⟩
  | fuel, visited, (id, depth) :: stack, front, hfuel => by
      have hreached : Reached s id depth := front.reached (id, depth) List.mem_cons_self
      have hlt : id.index < visited.length :=
        front.length ▸ Arena.index_lt_of_live (hreached.contains typed lists)
      have hfalse : visited[id.index]? = some false := by
        have hnot : ¬ Marked visited id := front.unmarked (id, depth) List.mem_cons_self
        unfold Marked at hnot
        rw [List.getElem?_eq_getElem hlt] at hnot ⊢
        cases hv : visited[id.index] with
        | false => rfl
        | true => exact absurd (by rw [hv]) hnot
      have hcount := count_set_true hfalse
      obtain ⟨fuel, rfl⟩ : ∃ k, fuel = k + 1 := ⟨fuel - 1, by omega⟩
      by_cases hdepth : depth > MAX_DEPTH
      · exact Or.inr ⟨⟨_, by rw [Arena.descend, if_pos hdepth]⟩, id, depth, hreached, hdepth⟩
      · have hstep : s.descend (fuel + 1) visited ((id, depth) :: stack) =
            s.descend fuel (visited.set id.index true)
              (((s.childIds id).map (·, depth + 1)).reverse ++ stack) := by
          rw [Arena.descend, if_neg hdepth, hfalse]
        rw [hstep]
        exact descend_spec fuel _ _ (front.pop typed lists (Nat.le_of_not_lt hdepth)) (by omega)

end Descent

/-! ## What the second pass decides -/

namespace Arena

variable {s : Arena}

theorem nodup_handles : s.handles.Nodup := by
  have hpairs : s.slots.zipIdx.Pairwise fun a b => a.2 < b.2 := by
    rw [← List.pairwise_map, List.zipIdx_map_snd]
    exact List.pairwise_lt_range'
  refine List.pairwise_filterMap.mpr (hpairs.imp ?_)
  rintro ⟨slot, index⟩ ⟨slot', index'⟩ hlt id hid id' hid' rfl
  have hof : ∀ (slot : Slot) (index : Nat), ((if slot.node.isNone then none
      else if index > u32Max then none
      else some ⟨index, slot.generation⟩ : Option NodeId) = some id) → id.index = index := by
    intro slot index h
    split at h
    · cases h
    · split at h
      · cases h
      · rw [← Option.some.inj h]
  have heq := (hof slot index hid).symm.trans (hof slot' index' hid')
  simp only at hlt
  omega

theorem mem_roots {a : NodeId × Nat} :
    a ∈ s.roots ↔ a.2 = 0 ∧ a.1.Representable ∧ ∃ m, s.get a.1 = some m ∧ m.parent = none := by
  obtain ⟨c, d⟩ := a
  unfold roots
  rw [List.mem_reverse, List.mem_map]
  constructor
  · rintro ⟨c', hc', heq⟩
    obtain ⟨rfl, rfl⟩ := Prod.mk.inj heq
    obtain ⟨hmem, hroot⟩ := List.mem_filter.mp hc'
    obtain ⟨hlive, hfits⟩ := mem_handles.mp hmem
    obtain ⟨m, hm⟩ := Option.isSome_iff_exists.mp hlive
    refine ⟨rfl, hfits, m, hm, ?_⟩
    simpa [hm] using hroot
  · rintro ⟨rfl, hfits, m, hm, hparent⟩
    refine ⟨c, List.mem_filter.mpr ⟨mem_handles.mpr ⟨by simp [contains, hm], hfits⟩, ?_⟩, rfl⟩
    simp [hm, hparent]

theorem frontier_roots (typed : s.Representable) (lists : ListsSound s) :
    Frontier s (List.replicate s.slots.length false) s.roots := by
  have hnone : ∀ c, ¬ Marked (List.replicate s.slots.length false) c := by
    intro c h
    unfold Marked at h
    rw [List.getElem?_replicate] at h
    split at h <;> simp at h
  constructor
  case length => exact List.length_replicate
  case reached =>
    rintro ⟨c, d⟩ ha
    obtain ⟨rfl, hfits, m, hm, hparent⟩ := mem_roots.mp ha
    exact .root hfits hm hparent
  case unmarked => exact fun a _ => hnone a.1
  case nodup =>
    have hfst : s.roots.map Prod.fst =
        (s.handles.filter fun id => ((s.get id).bind Node.parent).isNone).reverse := by
      simp [roots, List.map_reverse, Function.comp_def]
    rw [hfst]
    exact List.nodup_reverse.mpr (nodup_handles.filter _)
  case marked => exact fun c _ _ h => absurd h (hnone c)
  case top =>
    intro c hc
    cases hc with
    | root fits live parent =>
        exact Or.inr (List.mem_map.mpr ⟨(c, 0), mem_roots.mpr ⟨rfl, fits, _, live, parent⟩, rfl⟩)
  case under => exact fun p d c _ h _ => absurd h (hnone p)
  case up =>
    intro p d c hp hc h
    rcases h with h | h
    · exact absurd h (hnone c)
    · -- a root has no parent, and a listed node has one
      obtain ⟨⟨c', d'⟩, ha, rfl⟩ := List.mem_map.mp h
      obtain ⟨-, -, m, hm, hnoparent⟩ := mem_roots.mp ha
      obtain ⟨hfits, n, hn, -⟩ := hp.live typed lists
      obtain ⟨-, m', hm', hparent⟩ := (childIds_sound typed lists hfits hn).2 _ hc
      obtain rfl := Option.some.inj (hm.symm.trans hm')
      rw [hnoparent] at hparent
      cases hparent

/-- `validate` succeeds when the lists are sound, the document is a root, and the
walk down from the roots comes to every live node within the limit. -/
theorem validate_iff_reached (typed : s.Representable) :
    s.validate = .ok () ↔ ListsSound s ∧ (∃ n, s.get s.document = some n ∧ n.parent = none) ∧
      (∀ c d, Reached s c d → d ≤ MAX_DEPTH) ∧
      ∀ c, c.Representable → s.contains c = true → ∃ d, Reached s c d := by
  unfold validate
  rw [check_then_ok, check_then_ok, bind_eq_ok, checkLists_handles, checkDocument_iff]
  refine and_congr_right fun lists => and_congr_right fun _ => ?_
  have hfuel : (List.replicate s.slots.length false).count false ≤ s.descendFuel := by
    rw [List.count_replicate_self, descendFuel]
    exact Nat.le_mul_of_pos_right _ (by omega)
  rcases descend_spec typed lists _ _ _ (frontier_roots typed lists) hfuel with
    ⟨v, hwalk, front⟩ | ⟨⟨e, hwalk⟩, c, d, hreached, hdeep⟩
  · constructor
    · rintro ⟨v', hv', hall⟩
      obtain rfl := Except.ok.inj (hwalk.symm.trans hv')
      refine ⟨fun c d hc => ?_, fun c hfits hlive => ?_⟩
      · obtain ⟨hfits, -⟩ := hc.live typed lists
        obtain ⟨d', hd', hle⟩ := front.marked c hfits (hc.contains typed lists) (front.all_marked hc)
        rwa [(hc.depth typed lists).unique (hd'.depth typed lists)]
      · have hnot := (checkReached_iff _).mp hall c (mem_handles.mpr ⟨hlive, hfits⟩)
        have hlt : c.index < v.length := front.length ▸ index_lt_of_live hlive
        have hmark : Marked v c := by
          unfold Marked
          rw [List.getElem?_eq_getElem hlt] at hnot ⊢
          cases hv : v[c.index] with
          | true => rfl
          | false => exact absurd (by rw [hv]) hnot
        obtain ⟨d, hd, -⟩ := front.marked c hfits hlive hmark
        exact ⟨d, hd⟩
    · rintro ⟨-, hall⟩
      refine ⟨v, hwalk, (checkReached_iff _).mpr fun c hc => ?_⟩
      obtain ⟨hlive, hfits⟩ := mem_handles.mp hc
      obtain ⟨d, hd⟩ := hall c hfits hlive
      have hmark : v[c.index]? = some true := front.all_marked hd
      rw [hmark]
      simp
  · constructor
    · rintro ⟨v, hv, -⟩
      rw [hwalk] at hv
      cases hv
    · rintro ⟨hshallow, -⟩
      exact absurd (hshallow c d hreached) (Nat.not_le.mpr hdeep)

end Arena

/-! ## The decision -/

section Decision

variable {s : Arena} (typed : s.Representable) (lists : ListsSound s)

include typed lists

omit typed in
theorem childList_iff {p : NodeId} {l : List NodeId} :
    ChildList s p l ↔ p.Representable ∧ s.contains p = true ∧ l = s.childIds p := by
  constructor
  · rintro ⟨hfits, n, hn, hsiblings⟩
    exact ⟨hfits, by simp [Arena.contains, hn], (hsiblings.childIds_eq hn).symm⟩
  · rintro ⟨hfits, hlive, rfl⟩
    obtain ⟨n, hn⟩ := Option.isSome_iff_exists.mp hlive
    obtain ⟨l, hsiblings, -⟩ := lists p n hfits hn
    rw [hsiblings.childIds_eq hn]
    exact ⟨hfits, n, hn, hsiblings⟩

/-- The node that lists another is live, and is the one it names. -/
theorem owner_of_childList {q : NodeId} {l : List NodeId} {m : Node} (h : ChildList s q l) (hc : c ∈ l)
    (hm : s.get c = some m) : m.parent = some q := by
  obtain ⟨hq, hlive, rfl⟩ := (childList_iff lists).mp h
  obtain ⟨n, hn⟩ := Option.isSome_iff_exists.mp hlive
  obtain ⟨-, m', hm', hparent⟩ := (childIds_sound typed lists hq hn).2 c hc
  obtain rfl := Option.some.inj (hm.symm.trans hm')
  exact hparent

theorem listed_of_reached {m : Node} {d : Nat} (h : Reached s c d) (hm : s.get c = some m)
    (hparent : m.parent ≠ none) :
    ∃ q l, ChildList s q l ∧ l.count c = 1 ∧ ∀ q' l', ChildList s q' l' → c ∈ l' → q' = q := by
  cases h with
  | root _ live parent =>
      obtain rfl := Option.some.inj (hm.symm.trans live)
      exact absurd parent hparent
  | @child q _ _ above listed =>
      obtain ⟨hq, n, hn, -⟩ := above.live typed lists
      have hlist : ChildList s q (s.childIds q) :=
        (childList_iff lists).mpr ⟨hq, above.contains typed lists, rfl⟩
      refine ⟨q, _, hlist, ?_, fun q' l' hlist' hmem => ?_⟩
      · exact List.count_eq_one_of_mem (childIds_sound typed lists hq hn).1 listed
      · have h' := owner_of_childList typed lists hlist' hmem hm
        rw [owner_of_childList typed lists hlist listed hm] at h'
        exact (Option.some.inj h').symm

/-- Without cycles every live node is reached: its parent lists it, and parents
are finitely many. -/
theorem reached_of_acyclic
    (listed : ∀ c m, c.Representable → s.get c = some m → m.parent ≠ none →
      ∃ q l, ChildList s q l ∧ l.count c = 1 ∧ ∀ q' l', ChildList s q' l' → c ∈ l' → q' = q)
    (acyclic : ∀ c : NodeId, c.Representable → ¬ Relation.TransGen (ParentOf s) c c) (c : NodeId)
    (hfits : c.Representable) (hlive : s.contains c = true) : ∃ d, Reached s c d := by
  let Live := { c : NodeId // c.Representable ∧ s.contains c = true }
  let Above (a b : Live) : Prop := Relation.TransGen (ParentOf s) a.1 b.1
  have hfinite : Finite Live :=
    Finite.of_injective (fun a : Live => (⟨a.1.index, Arena.index_lt_of_live a.2.2⟩ : Fin s.slots.length))
      fun a b h => Subtype.ext (Arena.eq_of_index_eq a.2.2 b.2.2 (Fin.mk.inj h))
  have htrans : IsTrans Live Above := ⟨fun _ _ _ hab hbc => hab.trans hbc⟩
  have hirrefl : Std.Irrefl Above := ⟨fun a h => acyclic a.1 a.2.1 h⟩
  have hwf : WellFounded Above := Finite.wellFounded_of_trans_of_irrefl Above
  have hall : ∀ a : Live, ∃ d, Reached s a.1 d := by
    intro a
    induction a using hwf.induction with
    | _ a ih =>
        obtain ⟨c, hfits, hlive⟩ := a
        obtain ⟨m, hm⟩ := Option.isSome_iff_exists.mp hlive
        by_cases hparent : m.parent = none
        · exact ⟨0, .root hfits hm hparent⟩
        · obtain ⟨q, l, hlist, hcount, -⟩ := listed c m hfits hm hparent
          have hmem : c ∈ l := List.count_pos_iff.mp (by omega)
          have hq := owner_of_childList typed lists hlist hmem hm
          obtain ⟨hqfits, hqlive, rfl⟩ := (childList_iff lists).mp hlist
          obtain ⟨d, hd⟩ := ih ⟨q, hqfits, hqlive⟩ (.single ⟨m, hm, hq⟩)
          exact ⟨d + 1, .child hd hmem⟩
  exact hall ⟨c, hfits, hlive⟩

end Decision

/-- One parent link down is one deeper. -/
theorem Depth.of_parent {s : Arena} {p : NodeId} (h : Depth s c d) (hparent : ParentOf s p c) :
    ∃ e, d = e + 1 ∧ Depth s p e := by
  obtain ⟨m, hm, hp⟩ := hparent
  cases h with
  | root live parent =>
      obtain rfl := Option.some.inj (hm.symm.trans live)
      rw [hp] at parent
      cases parent
  | under live parent above =>
      obtain rfl := Option.some.inj (hm.symm.trans live)
      obtain rfl := Option.some.inj (hp.symm.trans parent)
      exact ⟨_, rfl, above⟩

theorem depth_lt_of_above {s : Arena} {a : NodeId} (h : Relation.TransGen (ParentOf s) a c)
    (hd : Depth s c d) : ∃ e, Depth s a e ∧ e < d := by
  induction h generalizing d with
  | single hparent =>
      obtain ⟨e, rfl, he⟩ := hd.of_parent hparent
      exact ⟨e, he, Nat.lt_succ_self e⟩
  | tail _ hparent ih =>
      obtain ⟨e, rfl, he⟩ := hd.of_parent hparent
      obtain ⟨e', he', hlt⟩ := ih he
      exact ⟨e', he', Nat.lt_succ_of_lt hlt⟩

theorem Depth.live {s : Arena} {c : NodeId} {d : Nat} (h : Depth s c d) : s.contains c = true := by
  cases h with
  | root live _ => simp [Arena.contains, live]
  | under live _ _ => simp [Arena.contains, live]

/-- On any arena whatsoever, `validate` succeeds exactly when it is a tree. -/
theorem validate_iff_isTree {s : Arena} (typed : s.Representable) : s.validate = .ok () ↔ IsTree s := by
  rw [Arena.validate_iff_reached typed]
  constructor
  · rintro ⟨lists, hdoc, hshallow, hall⟩
    refine ⟨hdoc, lists, ?_, ?_, ?_⟩
    · intro c m hfits hm hparent
      obtain ⟨d, hd⟩ := hall c hfits (by simp [Arena.contains, hm])
      exact listed_of_reached typed lists hd hm hparent
    · intro c hfits hloop
      obtain ⟨b, -, m, hm, -⟩ := Relation.TransGen.tail'_iff.mp hloop
      obtain ⟨d, hd⟩ := hall c hfits (by simp [Arena.contains, hm])
      have hdepth := hd.depth typed lists
      obtain ⟨e, he, hlt⟩ := depth_lt_of_above hloop hdepth
      exact absurd (he.unique hdepth) (Nat.ne_of_lt hlt)
    · intro c d hfits hdepth
      obtain ⟨d', hd'⟩ := hall c hfits hdepth.live
      rw [hdepth.unique (hd'.depth typed lists)]
      exact hshallow c d' hd'
  · rintro ⟨hdoc, lists, listed, acyclic, shallow⟩
    refine ⟨lists, hdoc, fun c d hd => ?_, reached_of_acyclic typed lists listed acyclic⟩
    exact shallow c d (hd.live typed lists).1 (hd.depth typed lists)

/-- Two nodes that are each other's parent, each the only child of the other. -/
def parentRing : Arena :=
  let node (other : NodeId) : Node :=
    { Node.new 0 .fragment with
      parent := some other, firstChild := some other, lastChild := some other }
  { Arena.new with
    slots := Arena.new.slots ++ [⟨1, some (node ⟨2, 1⟩)⟩, ⟨1, some (node ⟨1, 1⟩)⟩] }

/-- Each of the two passes the first pass, and neither is under a root. -/
theorem validate_iff_isTree_parentRing : parentRing.validate = .ok () ↔ IsTree parentRing :=
  validate_iff_isTree (by unfold Arena.Representable NodeId.Representable; decide)

example : parentRing.validate =
    .error (⟨1, 1⟩, "a live node is reachable from no root, so it is in a cycle") := by
  rfl

end Pelorus.Dom
