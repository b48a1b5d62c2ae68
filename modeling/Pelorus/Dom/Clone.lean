import Pelorus.Dom.Insertion

/-
  Dom/Clone.lean --- what `clone_subtree` makes, and what removing it takes along.

  The copying walk keeps a stack of pairs: a node still to copy, and the copy of
  its parent.  A prefix of the stack that came from one child list is a forest to
  be copied under one node, and the walk copies it before it looks at the rest
  (`cloneFrom_forest`); the induction is on how many nodes that forest has.
  Between two turns the nodes of before are as they were (`Grown`), and a turn
  only adds at the end of one list (`Extends`), so what has been copied is not
  touched again.

  The payload is copied with the node, and a template's payload holds the handle
  of its contents.  The copy then names the contents of the original, and
  `remove_subtree` follows that handle: removing the copy frees what the original
  still names (`clone_independent_iff`).
-/
set_option autoImplicit false

namespace Pelorus.Dom

open Lib.StateRun Lib.Generational Lib.Forest Lib.DocumentOrder

namespace Arena

/-! ## Room and the document's handle -/

/-- How many nodes can still be created. -/
def room (s : Arena) : Nat := s.free.length + (u32Max - s.slots.length)

/-- The handle of the document resolves, or never will. -/
def DocumentSettled (s : Arena) : Prop :=
  ∃ k, Alive Node.serial s.nodePool s.document.index s.document.generation k ∨
    Dead u32Max Node.serial s.nodePool s.document.index s.document.generation k

theorem DocumentSettled.evolves {s t : Arena} (wf : s.SlotWf) (h : s.DocumentSettled)
    {kind rangeKind : Kind} (step : Evolves kind rangeKind s t) : t.DocumentSettled := by
  obtain ⟨k, h⟩ := h
  unfold DocumentSettled
  rw [step.document]
  rcases h with h | h
  · exact ⟨k, h.steps one_le_u32Max wf.nodes step.nodes⟩
  · exact ⟨k, Or.inr (h.steps step.nodes)⟩

/-- While there is room `create` fills a handle that was stale, and that is not
the document's. -/
theorem create_of_room {s : Arena} (wf : s.SlotWf) (hdoc : s.DocumentSettled)
    (hroom : 0 < s.room) (data : NodeData) :
    ∃ id t, create data s = .ok id t ∧ s.get id = none ∧
      t.get = Function.update s.get id (some (Node.new s.births data)) ∧
      t.document = s.document ∧ t.room + 1 = s.room ∧ id ≠ s.document ∧ t.SlotWf ∧
      t.DocumentSettled := by
  have hevolves := follows_create .grow data s wf
  rcases create_view wf data with ⟨e, hrun⟩ | ⟨id, t, hrun, hfresh, hget, hdocument, -, -⟩
  · exfalso
    cases hfree : s.free with
    | cons index rest =>
        rcases create_cases wf data with ⟨_, _, _, _, _, h⟩ | ⟨h, _⟩ | h
        · rw [hrun] at h
          cases h
        · rw [hfree] at h
          cases h
        · have hmem : index ∈ s.nodePool.free := by simp [nodePool, hfree]
          obtain ⟨g, hcell⟩ := wf.nodes.free_vacant index hmem
          rw [create_of_free data hfree (cells_eq_slot.mp hcell)] at hrun
          cases hrun
    | nil =>
        have hlen : s.slots.length < u32Max := by
          rw [room, hfree, List.length_nil] at hroom
          omega
        rw [create_of_full data hfree hlen] at hrun
        cases hrun
  · rw [hrun, final_ok] at hevolves
    have hsettled := hdoc.evolves wf hevolves
    refine ⟨id, t, hrun, hfresh, hget, hdocument, ?_, ?_, wf.evolves hevolves, hsettled⟩
    · cases hfree : s.free with
      | nil =>
          have hlen : s.slots.length < u32Max := by
            rw [room, hfree, List.length_nil] at hroom
            omega
          rw [create_of_full data hfree hlen] at hrun
          cases hrun
          simp only [room, hfree, List.length_append, List.length_nil, List.length_singleton]
          omega
      | cons index rest =>
          have hmem : index ∈ s.nodePool.free := by simp [nodePool, hfree]
          obtain ⟨g, hcell⟩ := wf.nodes.free_vacant index hmem
          rw [create_of_free data hfree (cells_eq_slot.mp hcell)] at hrun
          cases hrun
          simp only [room, hfree, List.length_set, List.length_cons]
          omega
    · -- the document's handle is live already, or stays stale
      rintro rfl
      obtain ⟨k, h | h⟩ := hdoc
      · obtain ⟨n, hn, -⟩ := alive_iff_at?.mp h
        rw [← get_eq_at?, hfresh] at hn
        cases hn
      · have hnone := (h.steps hevolves.nodes).at?_eq_none
        rw [← get_eq_at?, hget, Function.update_self] at hnone
        cases hnone

end Arena

/-! ## Copies -/

/-- `q'` is a node that was not there in `s`, with the payload of `q`. -/
def CopyOf (s t : Arena) (q q' : NodeId) : Prop :=
  s.contains q' = false ∧ ∃ n n', s.get q = some n ∧ t.get q' = some n' ∧ n'.data = n.data

/-- The two trees have the same addresses, and copies at each. -/
def SameShape (s t : Arena) (kids kids' : NodeId → List NodeId) (a a' : NodeId) : Prop :=
  ∀ path, Option.Rel (CopyOf s t) (follow kids a path) (follow kids' a' path)

section Shape

variable {s t : Arena} {kids kids' : NodeId → List NodeId}
variable {a : NodeId}

theorem sameShape_of_children {a' : NodeId} (hcopy : CopyOf s t a a')
    (hkids : List.Forall₂ (SameShape s t kids kids') (kids a) (kids' a')) :
    SameShape s t kids kids' a a'
  | [] => .some hcopy
  | i :: path => by
      rw [follow_cons, follow_cons]
      have hlen := hkids.length_eq
      by_cases hi : i < (kids a).length
      · have hrel := List.forall₂_iff_get.mp hkids
        have hshape := hrel.2 i hi (hlen ▸ hi)
        rw [List.getElem?_eq_getElem hi, List.getElem?_eq_getElem (hlen ▸ hi)]
        exact hshape path
      · rw [List.getElem?_eq_none (Nat.le_of_not_lt hi),
          List.getElem?_eq_none (hlen ▸ Nat.le_of_not_lt hi)]
        exact .none

/-- The ways down are those of another forest with the same lists below. -/
theorem follow_congr (path : List Nat)
    (h : ∀ path q, follow kids a path = some q → kids' q = kids q) :
    follow kids' a path = follow kids a path := by
  induction path generalizing a with
  | nil => rfl
  | cons i path ih =>
      rw [follow_cons, follow_cons, h [] a rfl]
      cases hi : (kids a)[i]? with
      | none => rfl
      | some c =>
          refine ih fun path q hq => h (i :: path) q ?_
          rw [follow_cons, hi]
          exact hq

/-- A tree of copies stays one where its lists and its payloads do. -/
theorem SameShape.mono {u : Arena} {kids'' : NodeId → List NodeId} {a' : NodeId}
    (h : SameShape s t kids kids' a a')
    (hlists : ∀ path q, follow kids' a' path = some q → kids'' q = kids' q)
    (hdata : ∀ q n, t.get q = some n → ∃ m, u.get q = some m ∧ m.data = n.data) :
    SameShape s u kids kids'' a a' := by
  intro path
  rw [follow_congr path hlists]
  have hrel := h path
  generalize follow kids a path = source at hrel ⊢
  generalize follow kids' a' path = copy at hrel ⊢
  cases hrel with
  | none => exact .none
  | some hcopy =>
      obtain ⟨hnew, n, n', hn, hn', heq⟩ := hcopy
      obtain ⟨m, hm, hm'⟩ := hdata _ n' hn'
      exact .some ⟨hnew, n, m, hn, hm, hm'.trans heq⟩

end Shape

/-! ## Between two turns -/

/-- What the copying keeps of the arena `s` it began in. -/
structure Grown (s : Arena) (kids : NodeId → List NodeId) (t : Arena)
    (kids' : NodeId → List NodeId) : Prop where
  slots : t.SlotWf
  settled : t.DocumentSettled
  linked : Linked t.get kids'
  kept : ∀ q, s.contains q = true → t.get q = s.get q
  lists : ∀ q, s.contains q = true → kids' q = kids q
  payloads : ∀ q n, t.get q = some n → ∃ q₀ n₀, s.get q₀ = some n₀ ∧ n₀.data = n.data
  document : t.document = s.document

/-- The one list that has grown is that of `p`, at its end and by new nodes. -/
structure Extends (t : Arena) (kids : NodeId → List NodeId) (p : NodeId) (new : List NodeId)
    (u : Arena) (kids' : NodeId → List NodeId) : Prop where
  nodes : ∀ q n, t.get q = some n → ∃ m, u.get q = some m ∧ m.parent = n.parent ∧ m.data = n.data
  lists : ∀ q, t.contains q = true → q ≠ p → kids' q = kids q
  own : kids' p = kids p ++ new
  fresh : ∀ c ∈ new, t.contains c = false

theorem Extends.refl (t : Arena) (kids : NodeId → List NodeId) (p : NodeId) :
    Extends t kids p [] t kids where
  nodes := fun _ n h => ⟨n, h, rfl, rfl⟩
  lists := fun _ _ _ => rfl
  own := (List.append_nil _).symm
  fresh := fun _ h => absurd h List.not_mem_nil

section Extension

variable {t u v : Arena} {kids kids' kids'' : NodeId → List NodeId} {p c : NodeId}
  {new more : List NodeId}

theorem Extends.live (h : Extends t kids p new u kids') {q : NodeId} (hq : t.contains q = true) :
    u.contains q = true := by
  obtain ⟨n, hn⟩ := Option.isSome_iff_exists.mp hq
  obtain ⟨m, hm, -⟩ := h.nodes q n hn
  simp [Arena.contains, hm]

theorem Extends.depth (h : Extends t kids p new u kids') {q : NodeId} {d : Nat}
    (hd : Depth t q d) : Depth u q d := by
  induction hd with
  | root live parent =>
      obtain ⟨m, hm, hparent, -⟩ := h.nodes _ _ live
      exact .root hm (hparent.trans parent)
  | under live parent _ ih =>
      obtain ⟨m, hm, hparent, -⟩ := h.nodes _ _ live
      exact .under hm (hparent.trans parent) ih

/-- One list after the other. -/
theorem Extends.trans (h : Extends t kids p new u kids') (h' : Extends u kids' p more v kids'') :
    Extends t kids p (new ++ more) v kids'' where
  nodes := fun q n hn => by
    obtain ⟨m, hm, hparent, hdata⟩ := h.nodes q n hn
    obtain ⟨m', hm', hparent', hdata'⟩ := h'.nodes q m hm
    exact ⟨m', hm', hparent'.trans hparent, hdata'.trans hdata⟩
  lists := fun q hq hne => (h'.lists q (h.live hq) hne).trans (h.lists q hq hne)
  own := by rw [h'.own, h.own, List.append_assoc]
  fresh := fun c hc => by
    rcases List.mem_append.mp hc with hc | hc
    · exact h.fresh c hc
    · cases hlive : t.contains c with
      | false => rfl
      | true => exact absurd (h.live hlive) (by rw [h'.fresh c hc]; exact Bool.false_ne_true)

/-- What grows under a new node does not show among the nodes of before. -/
theorem Extends.under (h : Extends t kids p [c] u kids') (h' : Extends u kids' c more v kids'')
    (hp : t.contains p = true) : Extends t kids p [c] v kids'' where
  nodes := fun q n hn => by
    obtain ⟨m, hm, hparent, hdata⟩ := h.nodes q n hn
    obtain ⟨m', hm', hparent', hdata'⟩ := h'.nodes q m hm
    exact ⟨m', hm', hparent'.trans hparent, hdata'.trans hdata⟩
  lists := fun q hq hne => by
    have hqc : q ≠ c := by
      rintro rfl
      rw [h.fresh q (List.mem_singleton_self q)] at hq
      cases hq
    rw [h'.lists q (h.live hq) hqc, h.lists q hq hne]
  own := by
    have hpc : p ≠ c := by
      rintro rfl
      rw [h.fresh p (List.mem_singleton_self p)] at hp
      cases hp
    rw [h'.lists p (h.live hp) hpc, h.own]
  fresh := h.fresh

end Extension

/-! ## One copy -/

section Copying

variable {s t : Arena} {kids kids' : NodeId → List NodeId} (lk : Linked s.get kids)

include lk

variable {p c x : NodeId} {u : Arena} {n : Node}

/-- A node spliced in at the end of a list the arena of before does not have. -/
theorem Grown.append (grown : Grown s kids t kids')
    (hp : s.contains p = false) (hc : s.contains c = false)
    (att : Arena.Attached t kids' p c (kids' p) [] u) (hslots : u.SlotWf)
    (hsettled : u.DocumentSettled) :
    Grown s kids u (Function.update kids' p (kids' p ++ [c])) where
  slots := hslots
  settled := hsettled
  linked := att.linked grown.linked
  kept := fun q hq => by
    have hqp : q ≠ p := by
      rintro rfl
      rw [hp] at hq
      cases hq
    have hqc : q ≠ c := by
      rintro rfl
      rw [hc] at hq
      cases hq
    -- a node of before is in no list of a new node, so it is not the last of one
    have hlast : (kids' p).getLast? ≠ some q := by
      intro h
      obtain ⟨m, hm, hparent⟩ := grown.linked.parent_of_mem (List.mem_of_getLast? h)
      rw [grown.kept q hq] at hm
      obtain ⟨n, hn⟩ := lk.live_of_kids (lk.member q m p hm hparent)
      rw [Arena.contains, hn] at hp
      cases hp
    have hview := congrFun att.view q
    simp only [grown.kept q hq] at hview
    rw [hview]
    cases s.get q with
    | none => rfl
    | some m => simp [spliceInNode, hqp, hqc, hlast]
  lists := fun q hq => by
    have hqp : q ≠ p := by
      rintro rfl
      rw [hp] at hq
      cases hq
    rw [Function.update_of_ne hqp, grown.lists q hq]
  payloads := fun q n hn => by
    have hdata := att.data q
    rw [hn, Option.map_some] at hdata
    obtain ⟨m, hm, heq⟩ := Option.map_eq_some_iff.mp hdata.symm
    obtain ⟨q₀, n₀, hn₀, heq₀⟩ := grown.payloads q m hm
    exact ⟨q₀, n₀, hn₀, heq₀.trans heq⟩
  document := att.document_eq.trans grown.document

omit lk in
theorem extends_append (hc : t.contains c = false) {t₁ : Arena} {n : Node}
    (hget : t₁.get = Function.update t.get c (some n))
    (att : Arena.Attached t₁ kids' p c (kids' p) [] u) :
    Extends t kids' p [c] u (Function.update kids' p (kids' p ++ [c])) where
  nodes := fun q m hm => by
    have hqc : q ≠ c := by
      rintro rfl
      rw [Arena.contains, hm] at hc
      cases hc
    have hold : t₁.get q = some m := by rw [hget, Function.update_of_ne hqc, hm]
    have hdata := att.data q
    have hparent := att.parent_eq hqc
    rw [hold, Option.map_some] at hdata hparent
    obtain ⟨m', hm', hd⟩ := Option.map_eq_some_iff.mp hdata
    rw [hm', Option.map_some, Option.some.injEq] at hparent
    exact ⟨m', hm', hparent, hd⟩
  lists := fun q _ hne => Function.update_of_ne hne _ _
  own := Function.update_self _ _ _
  fresh := fun d hd => by
    rw [List.mem_singleton.mp hd]
    exact hc

omit lk in
theorem contains_of_get {q : NodeId} (h : s.get q = some n) : s.contains q = true := by
  rw [Arena.contains, h]
  rfl

omit lk in
/-- A node just created has nothing below it. -/
theorem height_of_fresh (hlinked : Linked t.get kids') (hkids : kids' c = []) : Height t c 0 := by
  refine ⟨⟨c, .self⟩, ?_⟩
  rintro k ⟨d, hd⟩
  obtain ⟨path, rfl, hpath⟩ := (Arena.below_iff hlinked).mp hd
  cases path with
  | nil => exact Nat.le_refl _
  | cons i path =>
      rw [follow_cons, hkids] at hpath
      cases hpath

omit lk in
theorem Grown.create (grown : Grown s kids t kids')
    (hx : s.get x = some n) (hroom : 0 < t.room) :
    ∃ c t₁, Arena.create n.data t = .ok c t₁ ∧ Grown s kids t₁ kids' ∧ t.contains c = false ∧
      s.contains c = false ∧ c ≠ t₁.document ∧ kids' c = [] ∧ t₁.room + 1 = t.room ∧
      t₁.get = Function.update t.get c (some (Node.new t.births n.data)) := by
  obtain ⟨c, t₁, hcreate, hfresh, hget, hdocument, hroom₁, hne, hslots, hsettled⟩ :=
    Arena.create_of_room grown.slots grown.settled hroom n.data
  have hstale : ∀ q m, t.get q = some m → q ≠ c := by
    rintro q m hm rfl
    rw [hfresh] at hm
    cases hm
  have hcs : s.contains c = false := by
    cases h : s.contains c with
    | false => rfl
    | true =>
        rw [Arena.contains, ← grown.kept c h, hfresh] at h
        cases h
  refine ⟨c, t₁, hcreate, ?_, by rw [Arena.contains, hfresh]; rfl, hcs,
    by rw [hdocument]; exact hne, grown.linked.stale c hfresh, hroom₁, hget⟩
  exact
    { slots := hslots
      settled := hsettled
      linked := by
        rw [hget]
        exact grown.linked.create hfresh _ _
      kept := fun q hq => by
        have hqc : q ≠ c := by
          rintro rfl
          rw [hcs] at hq
          cases hq
        rw [hget, Function.update_of_ne hqc, grown.kept q hq]
      lists := grown.lists
      payloads := fun q m hm => by
        by_cases hqc : q = c
        · subst hqc
          rw [hget, Function.update_self] at hm
          cases hm
          exact ⟨x, n, hx, rfl⟩
        · rw [hget, Function.update_of_ne hqc] at hm
          exact grown.payloads q m hm
      document := hdocument.trans grown.document }

/-- One turn, up to the children of the node copied. -/
theorem copy_one {d : Nat} (grown : Grown s kids t kids')
    (hx : s.get x = some n) (hp : t.contains p = true) (hnew : s.contains p = false)
    (hcont : ∃ m, t.get p = some m ∧ m.data.canHaveChildren = true) (hd : Depth t p d)
    (hdeep : d + 1 ≤ MAX_DEPTH) (hroom : 0 < t.room) :
    ∃ c t₁ u kids'', Arena.create n.data t = .ok c t₁ ∧ Arena.appendChild p c t₁ = .ok ⟨⟩ u ∧
      Grown s kids u kids'' ∧ Extends t kids' p [c] u kids'' ∧ CopyOf s u x c ∧ kids'' c = [] ∧
      Depth u c (d + 1) ∧ u.room + 1 = t.room := by
  obtain ⟨c, t₁, hcreate, grown₁, hc, hcs, hne, hkids, hroom₁, hget⟩ := grown.create hx hroom
  have hlinked := grown₁.linked
  have hpc : p ≠ c := by
    rintro rfl
    rw [hp] at hc
    cases hc
  have hgetc : t₁.get c = some (Node.new t.births n.data) := by rw [hget, Function.update_self]
  have hold : ∀ q m, t.get q = some m → t₁.get q = some m := by
    intro q m hm
    have hqc : q ≠ c := by
      rintro rfl
      rw [contains_of_get hm] at hc
      cases hc
    rw [hget, Function.update_of_ne hqc, hm]
  -- the copy goes in: it is nobody's child, and above nobody
  obtain ⟨m, hm, hcontainer⟩ := hcont
  have hdepth : Depth t₁ p d := by
    clear hdeep hcontainer hm hp hpc hnew hne
    induction hd with
    | root live parent => exact .root (hold _ _ live) parent
    | under live parent _ ih => exact .under (hold _ _ live) parent ih
  have hlegal : Legal t₁ p c :=
    { parent_live := contains_of_get (hold p m hm)
      child_live := contains_of_get hgetc
      movable := hne
      container := ⟨m, hold p m hm, hcontainer⟩
      acyclic := fun k hk => by
        obtain ⟨path, -, hpath⟩ := (Arena.below_iff hlinked).mp hk
        cases path with
        | nil => exact hpc (Option.some.inj hpath).symm
        | cons i path =>
            rw [follow_cons, hkids] at hpath
            cases hpath
      shallow := ⟨d, 0, hdepth, height_of_fresh hlinked hkids, hdeep⟩ }
  obtain ⟨t₂, kids₂, u, hdet, hatt, happend, -⟩ :=
    Arena.appendChild_accepted hlinked ((Arena.checkInsertable_iff hlinked).mpr hlegal)
  have hevolves := Arena.follows_appendChild .grow .grow p c t₁ grown₁.slots
  rw [happend, final_ok] at hevolves
  cases hdet with
  | spliced hid hparent _ _ _ =>
      rw [hgetc] at hid
      cases hid
      cases hparent
  | orphan _ _ =>
      have grown₂ := grown₁.append lk hnew hcs hatt (grown₁.slots.evolves hevolves)
        (grown₁.settled.evolves grown₁.slots hevolves)
      have hext := extends_append hc hget hatt
      have hroom₂ : u.room = t₁.room := by
        rw [Arena.room, Arena.room, hatt.frame.length, hatt.frame.eq]
      obtain ⟨mc, hmc, hparent⟩ := grown₂.linked.parent_of_mem
        (show c ∈ Function.update kids' p (kids' p ++ [c]) p by rw [hext.own]; simp)
      have hdata := hatt.data c
      rw [hgetc, hmc, Option.map_some, Option.map_some, Option.some.injEq] at hdata
      refine ⟨c, t₁, u, _, hcreate, happend, grown₂, hext, ⟨hcs, n, mc, hx, hmc, hdata⟩, ?_,
        .under hmc hparent (hext.depth hd), by rw [hroom₂, hroom₁]⟩
      rw [Function.update_of_ne (Ne.symm hpc), hkids]

/-! ## The walk -/

/-- How many nodes the trees of a list have. -/
def forestSize (kids : NodeId → List NodeId) (l : List NodeId) : Nat :=
  (l.flatMap (preorder kids MAX_DEPTH)).length

theorem forestSize_cons (hx : s.get x = some n) (rest : List NodeId) :
    forestSize kids (x :: rest) = forestSize kids (kids x) + forestSize kids rest + 1 := by
  unfold forestSize
  rw [List.flatMap_cons, Arena.preorder_of_live lk hx, List.length_append, List.length_cons]
  omega

omit lk in
theorem cloneFrom_turn {t₁ : Arena} {kids'' : NodeId → List NodeId}
    (grown : Grown s kids t kids') (hx : s.get x = some n)
    (hcreate : Arena.create n.data t = .ok c t₁) (happend : Arena.appendChild p c t₁ = .ok ⟨⟩ u)
    (grown' : Grown s kids u kids'') (budget : Nat) (stack : List (NodeId × NodeId)) :
    Arena.cloneFrom (budget + 1) ((x, p) :: stack) t =
      Arena.cloneFrom budget ((kids x).map (·, c) ++ stack) u := by
  have hlive := contains_of_get hx
  have hxt : t.get x = some n := (grown.kept x hlive).trans hx
  have hxu : u.get x = some n := (grown'.kept x hlive).trans hx
  have hchildren : u.children x = some (kids x) := by
    rw [Arena.children_eq grown'.linked hxu, grown'.lists x hlive]
  simp only [Arena.cloneFrom, run_bind, Arena.resolve_eq_ok hxt, hcreate, happend, run_get,
    hchildren]

/-- The walk copies a forest under one node, and then looks at the rest of the
stack. -/
theorem cloneFrom_forest (size : Nat) : ∀ {l : List NodeId} {t : Arena}
    {kids' : NodeId → List NodeId} {p : NodeId} {d : Nat}, Grown s kids t kids' →
    forestSize kids l = size → size ≤ t.room → t.contains p = true → s.contains p = false →
    (l ≠ [] → ∃ m, t.get p = some m ∧ m.data.canHaveChildren = true) → Depth t p d →
    (∀ x ∈ l, s.contains x = true ∧
      ∀ path c, follow kids x path = some c → d + 1 + path.length ≤ MAX_DEPTH) →
    ∀ (budget : Nat) (stack : List (NodeId × NodeId)), ∃ u kids'' new,
      Arena.cloneFrom (budget + size) (l.map (·, p) ++ stack) t = Arena.cloneFrom budget stack u ∧
      Grown s kids u kids'' ∧ Extends t kids' p new u kids'' ∧
      List.Forall₂ (SameShape s u kids kids'') l new ∧ u.room + size = t.room := by
  induction size using Nat.strong_induction_on with
  | _ size ih =>
    intro l t kids' p d grown hsize hroom hp hnew hcont hd hdeep budget stack
    cases l with
    | nil =>
        have hzero : size = 0 := by rw [← hsize]; rfl
        subst hzero
        exact ⟨t, kids', [], rfl, grown, .refl t kids' p, .nil, rfl⟩
    | cons x rest =>
        obtain ⟨hxlive, hxdeep⟩ := hdeep x List.mem_cons_self
        obtain ⟨n, hx⟩ := Option.isSome_iff_exists.mp hxlive
        rw [forestSize_cons lk hx] at hsize
        have hself := hxdeep [] x rfl
        rw [List.length_nil] at hself
        obtain ⟨c, t₁, u, k, hcreate, happend, hgrown, hext, hcopy, hck, hcd, hcroom⟩ :=
          copy_one lk grown hx hp hnew (hcont (List.cons_ne_nil _ _)) hd (by omega) (by omega)
        obtain ⟨hcnew, n', m', hn', hm', hdata⟩ := hcopy
        obtain rfl := Option.some.inj (hx.symm.trans hn')
        -- the children of `x`, under its copy
        have hkdeep : ∀ y ∈ kids x, s.contains y = true ∧
            ∀ path e, follow kids y path = some e → d + 1 + 1 + path.length ≤ MAX_DEPTH := by
          intro y hy
          obtain ⟨i, hi⟩ := List.mem_iff_getElem?.mp hy
          refine ⟨Arena.live_of_mem lk hy, fun path e hpath => ?_⟩
          have h := hxdeep (i :: path) e (by rw [follow_cons, hi]; exact hpath)
          rw [List.length_cons] at h
          omega
        obtain ⟨u₂, k₂, new, hwalk, hgrown₂, hext₂, hshapes, hroom₂⟩ :=
          ih (forestSize kids (kids x)) (by omega) hgrown rfl (by omega)
            (contains_of_get hm') hcnew
            (fun hne => ⟨m', hm', by rw [hdata]; exact lk.container x n hx hne⟩) hcd hkdeep
            (budget + forestSize kids rest) (rest.map (·, p) ++ stack)
        have hext' := hext.under hext₂ hp
        -- the siblings after `x`, under `p` again
        have hcont₃ : rest ≠ [] → ∃ m, u₂.get p = some m ∧ m.data.canHaveChildren = true := by
          intro _
          obtain ⟨m, hm, hcontainer⟩ := hcont (List.cons_ne_nil _ _)
          obtain ⟨m₂, hm₂, -, hd₂⟩ := hext'.nodes p m hm
          exact ⟨m₂, hm₂, by rw [hd₂]; exact hcontainer⟩
        obtain ⟨u₃, k₃, more, hwalk₃, hgrown₃, hext₃, hshapes₃, hroom₃⟩ :=
          ih (forestSize kids rest) (by omega) hgrown₂ rfl (by omega) (hext'.live hp) hnew hcont₃
            (hext'.depth hd) (fun y hy => hdeep y (List.mem_cons_of_mem x hy)) budget stack
        refine ⟨u₃, k₃, c :: more, ?_, hgrown₃, hext'.trans hext₃, .cons ?_ hshapes₃, by omega⟩
        · have hbudget : budget + size =
              budget + forestSize kids rest + forestSize kids (kids x) + 1 := by omega
          rw [hbudget, List.map_cons, List.cons_append,
            cloneFrom_turn grown hx hcreate happend hgrown, hwalk, hwalk₃]
        · have hshape : SameShape s u₂ kids k₂ x c := by
            refine sameShape_of_children ?_ ?_
            · obtain ⟨m₂, hm₂, -, hd₂⟩ := hext₂.nodes c m' hm'
              exact ⟨hcnew, n, m₂, hx, hm₂, hd₂.trans hdata⟩
            · rw [hext₂.own, hck, List.nil_append]
              exact hshapes
          refine hshape.mono (fun path q hq => ?_) fun q m hm => ?_
          · -- below the copy there is not its parent
            have hcp : c ∈ k₂ p := by rw [hext'.own]; simp
            obtain ⟨i, hi⟩ := List.mem_iff_getElem?.mp hcp
            refine hext₃.lists q ?_ ?_
            · cases path using List.reverseRecOn with
              | nil =>
                  cases hq
                  exact Arena.live_of_mem hgrown₂.linked hcp
              | append_singleton path j =>
                  obtain ⟨e, -, he⟩ := follow_snoc.mp hq
                  exact Arena.live_of_mem hgrown₂.linked (List.mem_of_getElem? he)
            · rintro rfl
              obtain ⟨m, hm⟩ := Option.isSome_iff_exists.mp (hext'.live hp)
              obtain ⟨r, lead, haddr, -⟩ := hgrown₂.linked.rooted q m hm
              have hself : follow k₂ q (i :: path) = some q := by
                rw [follow_cons, hi]
                exact hq
              cases hgrown₂.linked.branching.no_loop haddr hself
          · obtain ⟨m₃, hm₃, -, hd₃⟩ := hext₃.nodes q m hm
            exact ⟨m₃, hm₃, hd₃⟩

/-- The copy is detached, new, and has the shape of what was copied. -/
theorem cloneSubtree_spec {id : NodeId} (hslots : s.SlotWf)
    (hsettled : s.DocumentSettled) (hid : s.get id = some n)
    (hroom : (preorder kids MAX_DEPTH id).length ≤ s.room) :
    ∃ c t kids', Arena.cloneSubtree id s = .ok c t ∧ Grown s kids t kids' ∧
      SameShape s t kids kids' id c ∧ (∃ m, t.get c = some m ∧ m.parent = none) ∧
      c ≠ t.document := by
  have grown : Grown s kids s kids :=
    { slots := hslots
      settled := hsettled
      linked := lk
      kept := fun _ _ => rfl
      lists := fun _ _ => rfl
      payloads := fun q m hm => ⟨q, m, hm, rfl⟩
      document := rfl }
  have hlisting := Arena.preorder_of_live lk hid
  have hsize : forestSize kids (kids id) + 1 = (preorder kids MAX_DEPTH id).length := by
    rw [hlisting, List.length_cons]
    rfl
  obtain ⟨c, t₁, hcreate, grown₁, -, hcs, hne, hkids, hroom₁, hget⟩ :=
    grown.create hid (by omega)
  have hgetc : t₁.get c = some (Node.new s.births n.data) := by rw [hget, Function.update_self]
  have hlive := contains_of_get hid
  have hid₁ : t₁.get id = some n := (grown₁.kept id hlive).trans hid
  have hchildren : t₁.children id = some (kids id) := Arena.children_eq grown₁.linked hid₁
  -- the budget is the slots, and the nodes to copy are no more than those
  have hbudget : forestSize kids (kids id) ≤ t₁.slots.length + 1 := by
    obtain ⟨r, lead, haddr, -⟩ := lk.rooted id n hid
    have hnodup : (preorder kids MAX_DEPTH id).Nodup :=
      preorder_nodup lk.branching MAX_DEPTH haddr
    have hlen := @Arena.length_le_of_live t₁ _ hnodup fun q hq => by
      obtain ⟨path, -, hpath⟩ := mem_preorder.mp hq
      have hq' : s.contains q = true := by
        cases path using List.reverseRecOn with
        | nil =>
            cases hpath
            exact hlive
        | append_singleton path i =>
            obtain ⟨e, -, he⟩ := follow_snoc.mp hpath
            exact Arena.live_of_mem lk (List.mem_of_getElem? he)
      rw [Arena.contains, grown₁.kept q hq']
      exact hq'
    omega
  have hdeep : ∀ x ∈ kids id, s.contains x = true ∧
      ∀ path e, follow kids x path = some e → 0 + 1 + path.length ≤ MAX_DEPTH := by
    intro x hx
    obtain ⟨i, hi⟩ := List.mem_iff_getElem?.mp hx
    refine ⟨Arena.live_of_mem lk hx, fun path e hpath => ?_⟩
    have hfollow : follow kids id (i :: path) = some e := by
      rw [follow_cons, hi]
      exact hpath
    have h := Arena.length_le_depth lk hid hfollow
    rw [List.length_cons] at h
    omega
  have hcont : kids id ≠ [] → ∃ m, t₁.get c = some m ∧ m.data.canHaveChildren = true :=
    fun hne => ⟨_, hgetc, lk.container id n hid hne⟩
  obtain ⟨u, kids', new, hwalk, hgrown, hext, hshapes, -⟩ :=
    cloneFrom_forest lk (forestSize kids (kids id)) grown₁ rfl (by omega) (contains_of_get hgetc)
      hcs hcont (.root hgetc rfl) hdeep
      (t₁.slots.length + 1 - forestSize kids (kids id)) []
  obtain ⟨m, hm, hparent, hdata⟩ := hext.nodes c _ hgetc
  refine ⟨c, u, kids', ?_, hgrown, ?_, ⟨m, hm, hparent⟩, ?_⟩
  · rw [Nat.sub_add_cancel hbudget, List.append_nil] at hwalk
    simp only [Arena.cloneSubtree, run_bind, Arena.resolve_eq_ok hid, hcreate, run_get, hchildren,
      hwalk]
    generalize t₁.slots.length + 1 - forestSize kids (kids id) = rest
    cases rest <;> rfl
  · refine sameShape_of_children ⟨hcs, n, m, hid, hm, hdata⟩ ?_
    rw [hext.own, hkids, List.nil_append]
    exact hshapes
  · rw [hgrown.document, ← grown₁.document]
    exact hne

end Copying

/-! ## Removing the copy -/

namespace Arena

/-- The freeing walk, with what it owes to the contents of the nodes freed. -/
structure FreesContents (s : Arena) (kids : NodeId → List NodeId) (visits : NodeId → Prop)
    (id : NodeId) (stack : List NodeId) (t : Arena) : Prop where
  walk : Freeing s kids visits stack t
  start : t.get id = none ∨ id ∈ stack
  contents : ∀ q n c, s.get q = some n → n.data.templateContents = some c →
    t.get q = none → t.get c = none ∨ c ∈ stack

variable {s : Arena} {kids : NodeId → List NodeId} (lk : Linked s.get kids)

include lk

/-- The freeing walk frees where it began, and the contents of what it frees. -/
theorem freeSubtree_frees {visits : NodeId → Prop} {id : NodeId} (hroot : IsRoot kids id)
    (hid : visits id) (hkids : ∀ p c, visits p → c ∈ kids p → visits c)
    (hcontents : ∀ q n c, visits q → s.get q = some n → n.data.templateContents = some c →
      visits c ∧ IsRoot kids c) :
    ∃ count t, s.freeSubtree id = (count, t.dropDangling) ∧ Freeing s kids visits [] t ∧
      t.get id = none ∧ ∀ q n c, s.get q = some n → n.data.templateContents = some c →
        t.get q = none → t.get c = none := by
  have hend : FreesContents s kids visits id [] (freeFrom s.freeFuel [id] 0 s).2 := by
    refine freeFrom_rule ?_ ?_ _ _ _ _ ⟨Freeing.start lk hroot hid, by simp, ?_⟩
      (freeFuel_enough s id)
    · rintro current stack t ⟨walk, hself, hof⟩ hchildren
      have hgone : t.get current = none := by
        cases hget : t.get current with
        | none => rfl
        | some n =>
            rw [walk.children lk hget] at hchildren
            cases hchildren
      have hpop : ∀ c, t.get c = none ∨ c ∈ current :: stack → t.get c = none ∨ c ∈ stack := by
        rintro c (h | h)
        · exact Or.inl h
        · rcases List.mem_cons.mp h with rfl | h
          · exact Or.inl hgone
          · exact Or.inr h
      exact ⟨walk.skip lk hchildren, hpop id hself, fun q n c hq hc h => hpop c (hof q n c hq hc h)⟩
    · rintro current stack t children ⟨walk, hself, hof⟩ hchildren
      obtain ⟨⟨n, hn⟩, -⟩ := children_eq_some hchildren
      have hget := get_freeSlot hn
      have hpushed : ∀ c, c ∈ stack → c ∈ t.pushFreed current children stack := by
        intro c hc
        unfold pushFreed
        split <;> simp [hc]
      have hpop : ∀ c, t.get c = none ∨ c ∈ current :: stack →
          (t.freeSlot current).2.get c = none ∨ c ∈ t.pushFreed current children stack := by
        intro c h
        rw [hget]
        by_cases hc : c = current
        · subst hc
          exact Or.inl (Function.update_self _ _ _)
        · rw [Function.update_of_ne hc]
          rcases h with h | h
          · exact Or.inl h
          · exact Or.inr (hpushed c ((List.mem_cons.mp h).resolve_left hc))
      refine ⟨walk.free lk hchildren hkids hcontents, hpop id hself, fun q m c hq hc h => ?_⟩
      by_cases hqc : q = current
      · -- the node freed in this turn: its contents have just been pushed
        subst hqc
        have hview : s.get q = t.get q := by
          rcases walk.keep q with h' | h'
          · rw [hn] at h'
            cases h'
          · exact h'.symm
        rw [hview, hn] at hq
        cases hq
        refine Or.inr ?_
        unfold pushFreed
        rw [hn, Option.bind_some, hc]
        exact List.mem_cons_self
      · rw [hget, Function.update_of_ne hqc] at h
        exact hpop c (hof q m c hq hc h)
    · intro q n c hq _ h
      rw [hq] at h
      cases h
  obtain ⟨walk, hself, hof⟩ := hend
  refine ⟨_, _, rfl, walk, hself.resolve_right List.not_mem_nil, fun q n c hq hc h => ?_⟩
  exact (hof q n c hq hc h).resolve_right List.not_mem_nil

omit lk in
theorem removeSubtree_of_orphan {id : NodeId} {n : Node} (hid : s.get id = some n)
    (hparent : n.parent = none) (hne : id ≠ s.document) :
    removeSubtree id s = .ok (s.freeSubtree id).1 (s.freeSubtree id).2 := by
  have hlive : s.contains id = true := contains_of_get hid
  simp [removeSubtree, run_bind, hlive, hne, detach_of_orphan hid hparent]

end Arena

/-! ## Faithful and independent copies -/

/-- Each template element has a detached contents fragment, and no other has the same. -/
structure OwnContents (s : Arena) : Prop where
  fragment : ∀ q n f, s.get q = some n → n.data.templateContents = some f →
    ∃ m, s.get f = some m ∧ m.data = .fragment ∧ m.parent = none
  owner : ∀ q q' n n' f, s.get q = some n → s.get q' = some n' →
    n.data.templateContents = some f → n'.data.templateContents = some f → q = q'

/-- The copy is detached, of the same shape and made of new nodes; the nodes of
before are as they were, and they are so after the copy is removed again. -/
def IndependentClone (s : Arena) (id : NodeId) : Prop :=
  ∃ c t, Arena.cloneSubtree id s = .ok c t ∧ (∃ m, t.get c = some m ∧ m.parent = none) ∧
    SameShape s t s.childIds t.childIds id c ∧ (∀ q, s.contains q = true → t.get q = s.get q) ∧
    ∃ freed u, Arena.removeSubtree c t = .ok freed u ∧
      ∀ q, s.contains q = true → u.get q = s.get q

/-- What the removal of the copy does, where template contents are detached. -/
theorem removeSubtree_of_clone {s t : Arena} {kids kids' : NodeId → List NodeId}
    (grown : Grown s kids t kids') (owned : OwnContents s) {c : NodeId} {m : Node}
    (hc : t.get c = some m) (hparent : m.parent = none) (hne : c ≠ t.document) :
    ∃ freed u, Arena.removeSubtree c t = .ok freed u ∧
      (∀ q, u.get q = none ∨ u.get q = t.get q) ∧
      (∀ q, t.contains q = true → u.get q = none → Arena.Visits t c q) ∧
      (∀ path q, follow kids' c path = some q → u.get q = none) ∧
      ∀ q n f, t.get q = some n → n.data.templateContents = some f →
        u.get q = none → u.get f = none := by
  have lk := grown.linked
  have hchildIds : t.childIds = kids' := funext (Arena.childIds_eq lk)
  have hkids : ∀ p q, Arena.Visits t c p → q ∈ kids' p → Arena.Visits t c q :=
    fun p q hp hq => .child hp (hchildIds ▸ hq)
  -- the payloads are those of before, and so are the contents they name
  have hcontents : ∀ q n f, Arena.Visits t c q → t.get q = some n →
      n.data.templateContents = some f → Arena.Visits t c f ∧ IsRoot kids' f := by
    intro q n f hq hn hf
    refine ⟨.contents hq hn hf, ?_⟩
    obtain ⟨q₀, n₀, hn₀, hdata⟩ := grown.payloads q n hn
    obtain ⟨mf, hmf, -, horphan⟩ := owned.fragment q₀ n₀ f hn₀ (by rw [hdata]; exact hf)
    exact (lk.isRoot_iff ((grown.kept f (contains_of_get hmf)).trans hmf)).mpr horphan
  obtain ⟨count, u, hfree, walk, hself, hof⟩ :=
    Arena.freeSubtree_frees lk ((lk.isRoot_iff hc).mpr hparent) Arena.Visits.self hkids hcontents
  have hget : u.dropDangling.get = u.get := Arena.get_of_slots (Arena.slots_dropDangling u)
  refine ⟨count, u.dropDangling, ?_, ?_, ?_, ?_, ?_⟩
  · rw [Arena.removeSubtree_of_orphan hc hparent hne, hfree]
  · rw [hget]
    exact walk.keep
  · intro q hq hgone
    rw [hget] at hgone
    refine walk.freed q ?_ hgone
    obtain ⟨n, hn⟩ := Option.isSome_iff_exists.mp hq
    rw [hn]
    exact Option.some_ne_none n
  · intro path
    rw [hget]
    induction path using List.reverseRecOn with
    | nil =>
        intro q hq
        cases hq
        exact hself
    | append_singleton path i ih =>
        intro q hq
        obtain ⟨p, hp, hpq⟩ := follow_snoc.mp hq
        exact (walk.down p q (List.mem_of_getElem? hpq) (ih p hp)).resolve_right List.not_mem_nil
  · rw [hget]
    exact hof

section Claim

variable {s : Arena} {kids : NodeId → List NodeId} (lk : Linked s.get kids) (hslots : s.SlotWf)
  (hsettled : s.DocumentSettled) (owned : OwnContents s) {id : NodeId} {n : Node}
  (hid : s.get id = some n) (hroom : (preorder kids MAX_DEPTH id).length ≤ s.room)

include lk hslots hsettled owned hid hroom

/-- Where nothing copied is a template, the removal comes only to copies. -/
theorem independentClone_of_plain
    (hplain : ∀ path q m, follow kids id path = some q → s.get q = some m →
      m.data.templateContents = none) : IndependentClone s id := by
  obtain ⟨c, t, kids', hclone, grown, hshape, ⟨m, hm, hparent⟩, hne⟩ :=
    cloneSubtree_spec lk hslots hsettled hid hroom
  have hchildIds : t.childIds = kids' := funext (Arena.childIds_eq grown.linked)
  obtain ⟨freed, u, hremove, hkeep, hfreed, -⟩ := removeSubtree_of_clone grown owned hm hparent hne
  have hcopy : ∀ path q', follow kids' c path = some q' → ∃ q, follow kids id path = some q ∧
      CopyOf s t q q' := by
    intro path q' hq'
    have hrel := hshape path
    rw [hq'] at hrel
    generalize follow kids id path = source at hrel
    cases hrel with
    | some h => exact ⟨_, rfl, h⟩
  have hvisits : ∀ q, Arena.Visits t c q → ∃ path, follow kids' c path = some q := by
    intro q hq
    induction hq with
    | self => exact ⟨[], rfl⟩
    | @child p q _ hq ih =>
        obtain ⟨path, hpath⟩ := ih
        rw [hchildIds] at hq
        obtain ⟨i, hi⟩ := List.mem_iff_getElem?.mp hq
        exact ⟨path ++ [i], follow_snoc.mpr ⟨p, hpath, hi⟩⟩
    | @contents q f nq _ hnq hf ih =>
        obtain ⟨path, hpath⟩ := ih
        obtain ⟨q₀, hq₀, -, n₀, n', hn₀, hn', hdata⟩ := hcopy path q hpath
        obtain rfl := Option.some.inj (hnq.symm.trans hn')
        rw [hdata, hplain path q₀ n₀ hq₀ hn₀] at hf
        cases hf
  refine ⟨c, t, hclone, ⟨m, hm, hparent⟩, ?_, grown.kept, freed, u, hremove, fun q hq => ?_⟩
  · rw [hchildIds, funext (Arena.childIds_eq lk)]
    exact hshape
  · rw [← grown.kept q hq]
    refine (hkeep q).resolve_left fun hgone => ?_
    have hqt : t.contains q = true := by
      rw [Arena.contains, grown.kept q hq]
      exact hq
    obtain ⟨path, hpath⟩ := hvisits q (hfreed q hqt hgone)
    obtain ⟨_, -, hnew, -⟩ := hcopy path q hpath
    rw [hnew] at hq
    cases hq

/-- Where something copied is a template, the removal frees the contents that the
original names. -/
theorem plain_of_independentClone (hclone : IndependentClone s id) {path : List Nat} {q : NodeId}
    {m : Node} (hq : follow kids id path = some q) (hm : s.get q = some m) :
    m.data.templateContents = none := by
  obtain ⟨c, t, kids', hrun, grown, hshape, ⟨mc, hmc, hparent⟩, hne⟩ :=
    cloneSubtree_spec lk hslots hsettled hid hroom
  obtain ⟨freed, u, hremove, -, -, hbelow, hcontents⟩ :=
    removeSubtree_of_clone grown owned hmc hparent hne
  obtain ⟨c', t', hrun', -, -, -, freed', u', hremove', hkept⟩ := hclone
  obtain ⟨rfl, rfl⟩ := EStateM.Result.ok.inj (hrun.symm.trans hrun')
  obtain ⟨-, rfl⟩ := EStateM.Result.ok.inj (hremove.symm.trans hremove')
  cases hf : m.data.templateContents with
  | none => rfl
  | some f =>
      obtain ⟨mf, hmf, -, -⟩ := owned.fragment q m f hm hf
      have hrel := hshape path
      rw [hq] at hrel
      obtain ⟨q', hq', -, n₀, n', hn₀, hn', hdata⟩ : ∃ q', follow kids' c path = some q' ∧
          CopyOf s t q q' := by
        generalize follow kids' c path = copy at hrel
        cases hrel with
        | some h => exact ⟨_, rfl, h⟩
      obtain rfl := Option.some.inj (hm.symm.trans hn₀)
      have hgone := hcontents q' n' f hn' (by rw [hdata]; exact hf) (hbelow path q' hq')
      rw [hkept f (contains_of_get hmf), hmf] at hgone
      cases hgone

end Claim

theorem documentSettled_after (ops : List Op) : (after ops).DocumentSettled := by
  have hstep : ∀ (op : Op) (s : Arena), s.SlotWf ∧ s.DocumentSettled → True →
      (op.apply s).SlotWf ∧ (op.apply s).DocumentSettled := fun op s h _ =>
    ⟨h.1.evolves (op.evolves h.1), h.2.evolves h.1 (op.evolves h.1)⟩
  refine (run_induction hstep ops Arena.new ⟨Arena.slotWf_new, 0, Or.inl ?_⟩
    (each_of_forall ops _ fun _ _ _ => trivial)).2
  exact @alive_of_get Arena.new Arena.new.document _ rfl

/-- After every run in which each call meets its condition in the state it is made
in, a copy is faithful and independent exactly when nothing copied is a template. -/
theorem independentClone_iff (ops : List Op) (hops : Each Op.KeepsLinks ops Arena.new)
    (owned : OwnContents (after ops)) (id : NodeId) (hlive : (after ops).contains id = true)
    (hroom : ((after ops).descendants id).length ≤ (after ops).room) :
    IndependentClone (after ops) id ↔ ∀ q ∈ (after ops).descendants id, ∀ n,
      (after ops).get q = some n → n.data.templateContents = none := by
  have inv := linkInv_after hops
  obtain ⟨kids, lk⟩ := inv.linked
  obtain ⟨n, hid⟩ := Option.isSome_iff_exists.mp hlive
  have hsettled := documentSettled_after ops
  rw [Arena.descendants_eq lk hid] at hroom ⊢
  constructor
  · intro hclone q hq m hm
    obtain ⟨path, -, hpath⟩ := mem_preorder.mp hq
    exact plain_of_independentClone lk inv.slots hsettled owned hid hroom hclone hpath hm
  · intro hplain
    refine independentClone_of_plain lk inv.slots hsettled owned hid hroom fun path q m hq hm => ?_
    exact hplain q (mem_preorder.mpr ⟨path, Arena.length_le_depth lk hid hq, hq⟩) m hm

/-- The ownership of contents can be read off the slots. -/
theorem ownContents_of_slots {s : Arena}
    (hfragment : ∀ slot ∈ s.slots, ∀ n ∈ slot.node, ∀ f ∈ n.data.templateContents,
      ∃ m ∈ s.get f, m.data = .fragment ∧ m.parent = none)
    (howner : ∀ a ∈ s.slots.zipIdx, ∀ b ∈ s.slots.zipIdx, ∀ n ∈ a.1.node, ∀ m ∈ b.1.node,
      ∀ f ∈ n.data.templateContents, f ∈ m.data.templateContents → a.2 = b.2) :
    OwnContents s where
  fragment := fun _ n f hq hf =>
    hfragment _ (List.mem_of_getElem? (Arena.get_eq_some.mp hq)) n rfl f hf
  owner := fun q q' n n' f hq hq' hf hf' =>
    Arena.eq_of_index_eq (contains_of_get hq) (contains_of_get hq')
      (howner (⟨q.generation, some n⟩, q.index)
        (List.mem_zipIdx_iff_getElem?.mpr (Arena.get_eq_some.mp hq))
        (⟨q'.generation, some n'⟩, q'.index)
        (List.mem_zipIdx_iff_getElem?.mpr (Arena.get_eq_some.mp hq')) n rfl n' rfl f hf hf')

/-- A template with its contents, and a paragraph with a text. -/
def templateAndParagraph : List Op :=
  [.create .fragment, .create (.element ⟨none, "html", "template"⟩ [] (some ⟨1, 1⟩) false),
    .create (.element ⟨none, "html", "p"⟩ [] none false), .create (.text "a"),
    .appendChild ⟨3, 1⟩ ⟨4, 1⟩]

theorem ownContents_templateAndParagraph : OwnContents (after templateAndParagraph) :=
  ownContents_of_slots (by decide) (by decide)

/-- The paragraph is not a template, and has none in it. -/
theorem independentClone_iff_paragraph :
    IndependentClone (after templateAndParagraph) ⟨3, 1⟩ ↔
      ∀ q ∈ (after templateAndParagraph).descendants ⟨3, 1⟩, ∀ n,
        (after templateAndParagraph).get q = some n → n.data.templateContents = none :=
  independentClone_iff templateAndParagraph ⟨trivial, trivial, trivial, trivial, trivial, trivial⟩
    ownContents_templateAndParagraph ⟨3, 1⟩ (by decide) (by decide)

/-- Each template has contents of its own, and yet the copy of the template goes
with those of the original. -/
theorem template_clone_not_independent :
    OwnContents (after templateAndParagraph) ∧ (after templateAndParagraph).contains ⟨2, 1⟩ = true ∧
      ¬ IndependentClone (after templateAndParagraph) ⟨2, 1⟩ := by
  refine ⟨ownContents_templateAndParagraph, by decide, fun hclone => ?_⟩
  have inv : LinkInv (after templateAndParagraph) :=
    linkInv_after ⟨trivial, trivial, trivial, trivial, trivial, trivial⟩
  obtain ⟨kids, lk⟩ := inv.linked
  obtain ⟨n, hid⟩ : ∃ n, (after templateAndParagraph).get ⟨2, 1⟩ = some n := ⟨_, rfl⟩
  have hcontents : n.data.templateContents = some ⟨1, 1⟩ := by
    cases hid
    rfl
  have hroom : (preorder kids MAX_DEPTH ⟨2, 1⟩).length ≤ (after templateAndParagraph).room := by
    rw [← Arena.descendants_eq lk hid]
    decide
  have hplain := plain_of_independentClone lk inv.slots (documentSettled_after _)
    ownContents_templateAndParagraph hid hroom hclone (follow_nil _) hid
  rw [hplain] at hcontents
  cases hcontents

end Pelorus.Dom
