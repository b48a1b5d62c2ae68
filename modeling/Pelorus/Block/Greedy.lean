import Pelorus.Block.Glob
import Pelorus.Lib.Placement

/-
  Block/Greedy.lean --- the matcher finds exactly what a pattern means.

  THE MEANING of a pattern is declarative: each element takes a piece of the text, one after
  another, from a place where the pattern may start.

  THE MATCHER places a segment at its first place and never goes back.  A segment ends later
  only if it starts later, up to the end of the text, so that no match is lost.
-/
set_option autoImplicit false

namespace Pelorus.Block

open Lib Lib.Placement

/-! ## The meaning of a pattern -/

/-- The elements take the text from one position to another, each its piece. -/
inductive Takes (text : Bytes) : List Elem → Nat → Nat → Prop
  | done {p : Nat} (h : p ≤ text.length) : Takes text [] p p
  | lit {b : UInt8} {elems : List Elem} {p q : Nat} (h : text[p]? = some b) (rest : Takes text elems (p + 1) q) :
      Takes text (.lit b :: elems) p q
  | sep {b : UInt8} {elems : List Elem} {p q : Nat} (h : text[p]? = some b) (hb : isSeparator b = true)
      (rest : Takes text elems (p + 1) q) : Takes text (.sep :: elems) p q
  | sepEnd {elems : List Elem} {q : Nat} (rest : Takes text elems text.length q) :
      Takes text (.sep :: elems) text.length q
  | star {elems : List Elem} {p r q : Nat} (h : p ≤ r) (rest : Takes text elems r q) : Takes text (.star :: elems) p q

/-- The places where a pattern may start, in a text with a host. -/
def StartsAt (anchor : StartAnchor) (text : Bytes) (hs he p : Nat) : Prop :=
  match anchor with
  | .anywhere => p ≤ text.length
  | .start => p = 0
  | .host => p = hs ∨ ∃ i, hs ≤ i ∧ i < he ∧ text[i]? = some 0x2e ∧ p = i + 1

/-- What a pattern means: from a place where it may start, its elements take the text, up to the end if it is anchored
there. -/
def Means (elems : List Elem) (anchor : StartAnchor) (end_ : Bool) (text : Bytes) (hs he : Nat) : Prop :=
  ∃ p q, StartsAt anchor text hs he p ∧ Takes text elems p q ∧ (end_ = true → q = text.length)

theorem StartsAt.le {anchor : StartAnchor} {text : Bytes} {hs he p : Nat} (h : StartsAt anchor text hs he p) (hhs : hs ≤ he)
    (hhe : he ≤ text.length) : p ≤ text.length := by
  cases anchor with
  | anywhere => exact h
  | start =>
      cases h
      exact Nat.zero_le _
  | host =>
      rcases h with rfl | ⟨i, _, _, _, rfl⟩
      · exact Nat.le_trans hhs hhe
      · omega

/-! ## Taking pieces -/

section
variable {text : Bytes}
variable {p q cur he from_ hs : Nat} {seg : List Elem} {segs : List (List Elem)}

theorem Takes.bounds {elems : List Elem} (h : Takes text elems p q) : p ≤ q ∧ q ≤ text.length := by
  induction h with
  | done h => exact ⟨Nat.le_refl _, h⟩
  | lit _ _ ih => exact ⟨by omega, ih.2⟩
  | sep _ _ _ ih => exact ⟨by omega, ih.2⟩
  | sepEnd _ ih => exact ih
  | star h _ ih => exact ⟨Nat.le_trans h ih.1, ih.2⟩

theorem takes_nil_iff : Takes text [] p q ↔ p = q ∧ p ≤ text.length :=
  ⟨fun h => by cases h with | done h => exact ⟨rfl, h⟩, fun ⟨heq, h⟩ => heq ▸ .done h⟩

theorem takes_star_iff {elems : List Elem} :
    Takes text (.star :: elems) p q ↔ ∃ r, p ≤ r ∧ Takes text elems r q :=
  ⟨fun h => by cases h with | star h rest => exact ⟨_, h, rest⟩, fun ⟨_, h, rest⟩ => .star h rest⟩

theorem takes_append {a b : List Elem} :
    Takes text (a ++ b) p q ↔ ∃ r, Takes text a p r ∧ Takes text b r q := by
  induction a generalizing p with
  | nil =>
      constructor
      · exact fun h => ⟨p, .done (Nat.le_trans h.bounds.1 h.bounds.2), h⟩
      · intro h
        obtain ⟨r, hnil, h⟩ := h
        exact (takes_nil_iff.mp hnil).1 ▸ h
  | cons e a ih =>
      constructor
      · intro h
        cases h with
        | lit h rest => obtain ⟨r, ha, hb⟩ := ih.mp rest; exact ⟨r, .lit h ha, hb⟩
        | sep h hb rest => obtain ⟨r, ha, hb'⟩ := ih.mp rest; exact ⟨r, .sep h hb ha, hb'⟩
        | sepEnd rest => obtain ⟨r, ha, hb⟩ := ih.mp rest; exact ⟨r, .sepEnd ha, hb⟩
        | star h rest => obtain ⟨r, ha, hb⟩ := ih.mp rest; exact ⟨r, .star h ha, hb⟩
      · intro h
        obtain ⟨r, ha, hb⟩ := h
        cases ha with
        | lit h rest => exact .lit h (ih.mpr ⟨r, rest, hb⟩)
        | sep h hsep rest => exact .sep h hsep (ih.mpr ⟨r, rest, hb⟩)
        | sepEnd rest => exact .sepEnd (ih.mpr ⟨r, rest, hb⟩)
        | star h rest => exact .star h (ih.mpr ⟨r, rest, hb⟩)

/-- Without wildcards there is one way to take pieces, and `match_at` takes them so. -/
theorem matchAt_eq_some_iff (hseg : ∀ e ∈ seg, isStar e = false) (hp : p ≤ text.length) :
    matchAt seg text p = some q ↔ Takes text seg p q := by
  induction seg generalizing p with
  | nil => rw [takes_nil_iff, matchAt, Option.some.injEq, and_iff_left hp]
  | cons e seg ih =>
      have hrest := fun x hx => hseg x (List.mem_cons_of_mem e hx)
      cases e with
      | lit b =>
          have hsome : Takes text (.lit b :: seg) p q ↔ text[p]? = some b ∧ Takes text seg (p + 1) q := by
            constructor
            · intro h
              cases h with
              | lit h rest => exact ⟨h, rest⟩
            · exact fun h => .lit h.1 h.2
          rw [hsome, matchAt]
          split
          · rename_i hb
            rw [ih hrest (List.getElem?_eq_some_iff.mp hb).1, and_iff_right hb]
          · rename_i hb
            exact iff_of_false (Option.some_ne_none q).symm fun h => hb h.1
      | sep =>
          rw [matchAt]
          cases hc : text[p]? with
          | none =>
              have heq : p = text.length := Nat.le_antisymm hp (List.getElem?_eq_none_iff.mp hc)
              subst heq
              refine (ih hrest hp).trans (Iff.intro .sepEnd fun h => ?_)
              cases h with
              | sep h _ _ => rw [hc] at h; cases h
              | sepEnd rest => exact rest
          | some c =>
              have hlt := (List.getElem?_eq_some_iff.mp hc).1
              have hsome : Takes text (.sep :: seg) p q ↔ isSeparator c = true ∧ Takes text seg (p + 1) q := by
                constructor
                · intro h
                  cases h with
                  | sep h hb rest => rw [hc] at h; exact ⟨Option.some.inj h ▸ hb, rest⟩
                  | sepEnd _ => exact absurd hlt (Nat.lt_irrefl _)
                · exact fun h => .sep hc h.1 h.2
              rw [hsome]
              dsimp only
              split
              · rename_i hb
                rw [ih hrest hlt, and_iff_right hb]
              · rename_i hb
                exact iff_of_false (Option.some_ne_none q).symm fun h => hb h.1
      | star => exact absurd (hseg .star List.mem_cons_self) (by decide)

/-- Where a segment ends: as far on as it is long, and at most at the end of the text. -/
theorem matchAt_end (h : matchAt seg text p = some q) :
    p ≤ q ∧ q ≤ max p text.length ∧ q ≤ p + seg.length ∧ (q < text.length → q = p + seg.length) := by
  induction seg generalizing p with
  | nil =>
      cases h
      exact ⟨Nat.le_refl _, Nat.le_max_left _ _, Nat.le_refl _, fun _ => rfl⟩
  | cons e seg ih =>
      have hlen : (e :: seg).length = seg.length + 1 := rfl
      cases e with
      | lit b =>
          rw [matchAt] at h
          split at h
          · rename_i hb
            have hlt := (List.getElem?_eq_some_iff.mp hb).1
            have := ih h
            omega
          · cases h
      | sep =>
          rw [matchAt] at h
          cases hc : text[p]? with
          | none =>
              have hle := List.getElem?_eq_none_iff.mp hc
              rw [hc] at h
              have := ih h
              omega
          | some c =>
              have hlt := (List.getElem?_eq_some_iff.mp hc).1
              rw [hc] at h
              dsimp only at h
              split at h
              · have := ih h
                omega
              · cases h
      | star => cases h

theorem steady_matchAt (seg : List Elem) : Steady (matchAt seg text) := by
  intro p p' e e' hle he he'
  have hend := matchAt_end he
  have hend' := matchAt_end he'
  omega

/-! ## Segments -/

/-- A pattern is a first segment and others, each after a wildcard. -/
theorem segments (elems : List Elem) : ∃ (first : List Elem) (segs : List (List Elem)), elems = first ++ segs.flatMap (Elem.star :: ·) ∧
    (∀ e ∈ first, isStar e = false) ∧ (∀ seg ∈ segs, ∀ e ∈ seg, isStar e = false) ∧
      elems.splitOnP isStar = first :: segs := by
  have hsplit : ∃ (first : List Elem) (segs : List (List Elem)), elems = first ++ segs.flatMap (Elem.star :: ·) ∧
      (∀ e ∈ first, isStar e = false) ∧ (∀ seg ∈ segs, ∀ e ∈ seg, isStar e = false) := by
    induction elems with
    | nil => exact ⟨[], [], rfl, List.forall_mem_nil _, List.forall_mem_nil _⟩
    | cons e elems ih =>
        obtain ⟨first, segs, rfl, hfirst, hsegs⟩ := ih
        cases he : isStar e with
        | true =>
            rw [of_decide_eq_true he]
            exact ⟨[], first :: segs, rfl, List.forall_mem_nil _, List.forall_mem_cons.mpr ⟨hfirst, hsegs⟩⟩
        | false => exact ⟨e :: first, segs, rfl, List.forall_mem_cons.mpr ⟨he, hfirst⟩, hsegs⟩
  obtain ⟨first, segs, rfl, hfirst, hsegs⟩ := hsplit
  exact ⟨first, segs, rfl, hfirst, hsegs, Text.splitOnP_led rfl hfirst hsegs⟩

/-- Segments that stand after wildcards can be taken as parts can be placed. -/
theorem takes_led_iff {good : Nat → Prop} (hsegs : ∀ seg ∈ segs, ∀ e ∈ seg, isStar e = false)
    (hcur : cur ≤ text.length) :
    (∃ q, Takes text (segs.flatMap (Elem.star :: ·)) cur q ∧ good q) ↔
      Completes text.length good (segs.map fun seg => matchAt seg text) cur := by
  induction segs generalizing cur with
  | nil =>
      constructor
      · intro h
        obtain ⟨q, hnil, hgood⟩ := h
        exact (takes_nil_iff.mp hnil).1 ▸ hgood
      · exact fun h => ⟨cur, .done hcur, h⟩
  | cons seg segs ih =>
      obtain ⟨hseg, hrest⟩ := List.forall_mem_cons.mp hsegs
      rw [List.flatMap_cons, List.cons_append]
      constructor
      · intro h
        obtain ⟨q, hstar, hgood⟩ := h
        obtain ⟨p, hp, happend⟩ := takes_star_iff.mp hstar
        obtain ⟨e, hpiece, hled⟩ := takes_append.mp happend
        have hbounds := hpiece.bounds
        have hlimit := Nat.le_trans hbounds.1 hbounds.2
        exact ⟨p, e, hp, hlimit, (matchAt_eq_some_iff hseg hlimit).mpr hpiece, (ih hrest hbounds.2).mp ⟨q, hled, hgood⟩⟩
      · intro h
        obtain ⟨p, e, hp, hlimit, hmatch, hcomplete⟩ := h
        have hpiece := (matchAt_eq_some_iff hseg hlimit).mp hmatch
        obtain ⟨q, hled, hgood⟩ := (ih hrest hpiece.bounds.2).mpr hcomplete
        exact ⟨q, takes_star_iff.mpr ⟨p, hp, takes_append.mpr ⟨e, hpiece, hled⟩⟩, hgood⟩

/-! ## The matcher -/

/-- What a match must do at its end: reach the end of the text, if the pattern is anchored there. -/
def EndsWell (pattern : Pattern) (text : Bytes) (e : Nat) : Prop := pattern.end_ = true → e = text.length

variable {pattern : Pattern} {host : Option (Nat × Nat)}

/-- A segment that need not end the text is placed at its first place. -/
theorem matchSegs_later (h : (segs.isEmpty && pattern.end_) = false) :
    matchSegs pattern text host false cur (seg :: segs) = true ↔
      ∃ e ∈ firstEnd text.length (matchAt seg text) cur, matchSegs pattern text host false e segs = true := by
  have hfirst : firstEnd text.length (matchAt seg text) cur =
    (List.range' cur (text.length + 1 - cur)).findSome? (matchAt seg text) := rfl
  rw [matchSegs, hfirst]
  simp only [Bool.false_and, h, Bool.false_eq_true, if_false]
  cases (List.range' cur (text.length + 1 - cur)).findSome? (matchAt seg text) with
  | none => simp
  | some e => simp

/-- The last segment of a pattern anchored at the end is looked for where it can reach the end. -/
theorem matchSegs_last (h : pattern.end_ = true) :
    matchSegs pattern text host false cur [seg] = true ↔
      seg = [] ∨ ∃ p, max cur (text.length - seg.length) ≤ p ∧ p ≤ text.length ∧ matchAt seg text p = some text.length := by
  have hany : ((List.range' (max cur (text.length - seg.length)) (text.length + 1 - max cur (text.length - seg.length))).any
      fun p => matchAt seg text p = some text.length) = true ↔
      ∃ p, max cur (text.length - seg.length) ≤ p ∧ p ≤ text.length ∧ matchAt seg text p = some text.length := by
    rw [List.any_eq_true]
    refine exists_congr fun p => ?_
    rw [mem_places, decide_eq_true_iff, and_assoc]
  rw [← hany, matchSegs]
  simp only [Bool.false_and, List.isEmpty_nil, Bool.false_eq_true, if_false, h, Bool.and_true, if_true, matchSegs]
  cases seg <;> simp

/-- Looking only there is enough: a segment that reaches the end starts no further from it than it is long. -/
theorem last_completes_iff (hcur : cur ≤ text.length) (h : pattern.end_ = true) :
    matchSegs pattern text host false cur [seg] = true ↔
      Completes text.length (EndsWell pattern text) [matchAt seg text] cur := by
  rw [matchSegs_last h]
  constructor
  · intro hlast
    rcases hlast with rfl | ⟨p, hlow, hlimit, hp⟩
    · exact ⟨text.length, text.length, hcur, Nat.le_refl _, rfl, fun _ => rfl⟩
    · exact ⟨p, text.length, Nat.le_trans (Nat.le_max_left _ _) hlow, hlimit, hp, fun _ => rfl⟩
  · intro hcomplete
    obtain ⟨p, e, hlow, hlimit, hp, hgood⟩ := hcomplete
    rw [hgood h] at hp
    have hend := matchAt_end hp
    exact .inr ⟨p, by omega, hlimit, hp⟩

/-- The segments after the first are found just where they can be taken. -/
theorem matchSegs_iff (hcur : cur ≤ text.length)
    (hnone : segs = [] → EndsWell pattern text cur) :
    matchSegs pattern text host false cur segs = true ↔
      Completes text.length (EndsWell pattern text) (segs.map fun seg => matchAt seg text) cur := by
  induction segs generalizing cur with
  | nil => exact iff_of_true rfl (hnone rfl)
  | cons seg segs ih =>
      have hbound : ∀ e ∈ firstEnd text.length (matchAt seg text) cur, e ≤ text.length := by
        intro e he
        obtain ⟨p, _, hlimit, hp⟩ := (firstEnd_eq_some (steady_matchAt seg) he).1
        have hend := matchAt_end hp
        omega
      cases segs with
      | nil =>
          cases hend : pattern.end_ with
          | true => exact last_completes_iff hcur hend
          | false =>
              have hgood : ∀ e, EndsWell pattern text e := fun e h => by rw [hend] at h; cases h
              refine (matchSegs_later (by rw [hend]; rfl)).trans (Iff.trans ?_ (completes_singleton_iff (steady_matchAt seg) hgood).symm)
              exact exists_congr fun e => and_iff_left rfl
      | cons seg' segs =>
          rw [matchSegs_later rfl, List.map_cons, List.map_cons, completes_cons_iff (steady_matchAt seg)]
          exact exists_congr fun e => and_congr_right fun hfirst => ih (hbound e hfirst) fun h => by cases h

/-! ## The first segment -/

/-- The places where a host or one of its parents starts, from one of them on. -/
def Boundary (text : Bytes) (he from_ p : Nat) : Prop := p = from_ ∨ ∃ i, from_ ≤ i ∧ i < he ∧ text[i]? = some 0x2e ∧ p = i + 1

/-- The next boundary is just after the first dot. -/
theorem nextBoundary_le {i : Nat} (hhe : he ≤ text.length) (hfrom : from_ ≤ i) (hi : i < he)
    (hdot : text[i]? = some 0x2e) : ∃ q ∈ nextBoundary text from_ he, q ≤ i + 1 := by
  have hget : (text.extract from_ he)[i - from_]? = some 0x2e := by
    rw [List.extract_eq_take_drop, List.getElem?_take_of_lt (by omega), List.getElem?_drop, Nat.add_sub_cancel' hfrom, hdot]
  obtain ⟨hlt, hget⟩ := List.getElem?_eq_some_iff.mp hget
  cases hfind : (text.extract from_ he).findIdx? (fun b => b = 0x2e) with
  | none =>
      have hno := List.findIdx?_eq_none_iff.mp hfind _ (List.getElem_mem hlt)
      rw [hget] at hno
      cases hno
  | some rel =>
      obtain ⟨_, _, hmin⟩ := List.findIdx?_eq_some_iff_getElem.mp hfind
      have hle : rel ≤ i - from_ := by
        by_contra hgt
        exact hmin (i - from_) (by omega) (decide_eq_true hget)
      refine ⟨from_ + rel + 1, ?_, by omega⟩
      rw [nextBoundary, if_pos ⟨by omega, hhe⟩, hfind]
      rfl

theorem boundary_iff (hhe : he ≤ text.length) :
    Boundary text he from_ p ↔ p = from_ ∨ ∃ q ∈ nextBoundary text from_ he, Boundary text he q p := by
  refine or_congr_right ⟨?_, ?_⟩
  · intro h
    obtain ⟨i, hfrom, hi, hdot, rfl⟩ := h
    obtain ⟨q, hq, hle⟩ := nextBoundary_le hhe hfrom hi hdot
    refine ⟨q, hq, ?_⟩
    rcases Nat.lt_or_eq_of_le hle with hlt | heq
    · exact .inr ⟨i, by omega, hi, hdot, rfl⟩
    · exact .inl heq.symm
  · intro h
    obtain ⟨q, hq, hbound⟩ := h
    obtain ⟨hlt, hle, _, hdot⟩ := nextBoundary_eq_some hq
    rcases hbound with rfl | ⟨i, hqi, hi, hdot, rfl⟩
    · exact ⟨p - 1, by omega, by omega, hdot, by omega⟩
    · exact ⟨i, by omega, hi, hdot, rfl⟩

theorem Boundary.bounds (h : Boundary text he from_ p) (hfrom : from_ ≤ he) : from_ ≤ p ∧ p ≤ he := by
  rcases h with rfl | ⟨i, _, _, _, rfl⟩ <;> omega

variable {e : Nat}

/-- Where `match_at_host` ends a segment, a boundary is where the segment fits. -/
theorem boundary_of_matchAtHost {needEnd : Option Nat} (hhe : he ≤ text.length)
    (h : matchAtHost seg text he needEnd p = some e) :
    (∃ b, Boundary text he p b ∧ matchAt seg text b = some e) ∧ needEnd.all (fun n => e = n) = true := by
  fun_induction matchAtHost seg text he needEnd p with
  | case1 p e' hfound =>
      cases h
      obtain ⟨hmatch, hall⟩ := Option.filter_eq_some_iff.mp hfound
      exact ⟨⟨p, .inl rfl, hmatch⟩, hall⟩
  | case2 p _ q hq ih =>
      obtain ⟨⟨b, hb, hmatch⟩, hall⟩ := ih h
      exact ⟨⟨b, (boundary_iff hhe).mpr (.inr ⟨q, hq, hb⟩), hmatch⟩, hall⟩
  | case3 => cases h

/-- `match_at_host` finds a boundary where the segment fits, if there is one, and ends it no later than another would. -/
theorem matchAtHost_le {needEnd : Option Nat} (hhe : he ≤ text.length) (hp : p ≤ he) {b : Nat}
    (hb : Boundary text he p b) (hmatch : matchAt seg text b = some e)
    (hall : needEnd.all (fun n => e = n) = true) :
    ∃ e₀ ∈ matchAtHost seg text he needEnd p, e₀ ≤ e := by
  have hfits : ∀ {p}, (matchAt seg text p).filter (fun e => needEnd.all fun n => e = n) = none → b ≠ p := by
    intro p hnone heq
    subst heq
    rw [hmatch, Option.filter_some, hall] at hnone
    cases hnone
  fun_induction matchAtHost seg text he needEnd p with
  | case1 p e' hfound => 
      exact ⟨e', rfl, steady_matchAt seg (hb.bounds hp).1 (Option.filter_eq_some_iff.mp hfound).1 hmatch⟩
  | case2 p hnone q hq ih =>
      rcases (boundary_iff hhe).mp hb with heq | ⟨q', hq', hb⟩
      · exact absurd heq (hfits hnone)
      · cases hq.symm.trans hq'
        exact ih (nextBoundary_eq_some hq).2.1 hb
  | case3 p hnone hq =>
      rcases (boundary_iff hhe).mp hb with heq | ⟨q', hq', _⟩
      · exact absurd heq (hfits hnone)
      · cases hq.symm.trans hq'

/-- The segments after the first, from where the first may end. -/
theorem rest_iff {segs : List (List Elem)} {e : Nat} (he : e ≤ text.length) :
    ((if segs.isEmpty && pattern.end_ then some text.length else none).all (fun n => e = n) = true ∧
      matchSegs pattern text host false e segs = true) ↔
      Completes text.length (EndsWell pattern text) (segs.map fun seg => matchAt seg text) e := by
  cases segs with
  | nil =>
      refine (and_iff_left rfl).trans ?_
      cases hend : pattern.end_ with
      | true => simp [Completes, EndsWell, hend]
      | false => simp [Completes, EndsWell, hend]
  | cons seg segs =>
      refine (and_iff_right rfl).trans (matchSegs_iff he fun h => by cases h)

theorem exists_mem_some {found : Option Nat} {f : Nat → Bool} (h : found = some e) :
    f e = true ↔ ∃ e, e ∈ found ∧ f e = true :=
  ⟨fun hf => ⟨e, h, hf⟩, fun ⟨e', hmem, hf⟩ => Option.some.inj (h.symm.trans hmem) ▸ hf⟩

theorem exists_mem_none {found : Option Nat} {f : Nat → Bool} (h : found = none) :
    false = true ↔ ∃ e, e ∈ found ∧ f e = true :=
  ⟨fun hf => Bool.noConfusion hf, fun ⟨_, hmem, _⟩ => nomatch h.symm.trans hmem⟩

/-- A first segment that is anchored is placed once. -/
theorem matchSegs_anchored {first : List Elem} (h : pattern.start ≠ .anywhere) :
    matchSegs pattern text (some (hs, he)) true 0 (first :: segs) = true ↔
      ∃ e, e ∈ (if pattern.start = .start then
          (matchAt first text 0).filter fun e =>
            (if segs.isEmpty && pattern.end_ then some text.length else none).all fun n => e = n
        else matchAtHost first text he (if segs.isEmpty && pattern.end_ then some text.length else none) hs) ∧
        matchSegs pattern text (some (hs, he)) false e segs = true := by
  rw [matchSegs]
  simp only [Bool.true_and, decide_eq_true h, if_true]
  generalize (if (segs.isEmpty && pattern.end_) = true then some text.length else none) = needEnd
  cases hstart : pattern.start with
  | anywhere => exact absurd hstart h
  | start =>
      rw [if_pos rfl]
      split
      · rename_i e hfound
        exact exists_mem_some (f := fun e => matchSegs pattern text (some (hs, he)) false e segs) hfound
      · rename_i hfound
        exact exists_mem_none hfound
  | host =>
      rw [if_neg (by decide)]
      split
      · rename_i e hfound
        exact exists_mem_some (f := fun e => matchSegs pattern text (some (hs, he)) false e segs) hfound
      · rename_i hfound
        exact exists_mem_none hfound

/-- A pattern, in normal form or not, is matched as its first segment and the others can be placed. -/
theorem matchSegs_first_iff {first : List Elem} (hhs : hs ≤ he)
    (hhe : he ≤ text.length) :
    matchSegs pattern text (some (hs, he)) true 0 (first :: segs) = true ↔
      ∃ p e, StartsAt pattern.start text hs he p ∧ matchAt first text p = some e ∧
        Completes text.length (EndsWell pattern text) (segs.map fun seg => matchAt seg text) e := by
  cases hstart : pattern.start with
  | anywhere =>
      have hfloat : matchSegs pattern text (some (hs, he)) true 0 (first :: segs) =
          matchSegs pattern text (some (hs, he)) false 0 (first :: segs) := by
        rw [matchSegs, matchSegs]
        simp [hstart]
      rw [hfloat, matchSegs_iff (Nat.zero_le _) (fun h => by cases h), List.map_cons]
      refine exists_congr fun p => exists_congr fun e => ⟨fun h => h.2, fun h => ⟨Nat.zero_le _, h⟩⟩
  | start =>
      rw [matchSegs_anchored (by rw [hstart]; decide), hstart]
      simp only [if_true, Option.mem_def, Option.filter_eq_some_iff]
      constructor
      · intro h
        obtain ⟨e, ⟨hmatch, hall⟩, hrest⟩ := h
        have hbound := matchAt_end hmatch
        exact ⟨0, e, rfl, hmatch, (rest_iff (by omega)).mp ⟨hall, hrest⟩⟩
      · intro h
        obtain ⟨p, e, rfl, hmatch, hrest⟩ := h
        have hbound := matchAt_end hmatch
        obtain ⟨hall, hrest⟩ := (rest_iff (by omega)).mpr hrest
        exact ⟨e, ⟨hmatch, hall⟩, hrest⟩
  | host =>
      rw [matchSegs_anchored (by rw [hstart]; decide), hstart, if_neg (by decide)]
      constructor
      · intro h
        obtain ⟨e, hfound, hrest⟩ := h
        obtain ⟨⟨b, hb, hmatch⟩, hall⟩ := boundary_of_matchAtHost hhe hfound
        have hbound := matchAt_end hmatch
        have hboundary := hb.bounds hhs
        exact ⟨b, e, hb, hmatch, (rest_iff (by omega)).mp ⟨hall, hrest⟩⟩
      · intro h
        obtain ⟨b, e, hb, hmatch, hrest⟩ := h
        have hboundary := Boundary.bounds hb hhs
        have hbound := matchAt_end hmatch
        obtain ⟨hall, _⟩ := (@rest_iff text pattern (some (hs, he)) segs e (by omega)).mpr hrest
        obtain ⟨e₀, hfound, hle⟩ := matchAtHost_le hhe hhs hb hmatch hall
        refine ⟨e₀, hfound, ?_⟩
        cases segs with
        | nil => rfl
        | cons seg segs => exact (matchSegs_iff (by omega) fun h => by cases h).mpr (Completes.earlier hrest hle)

theorem matches_iff_means (hhs : hs ≤ he) (hhe : he ≤ text.length) :
    pattern.matches text (some (hs, he)) = true ↔ Means pattern.elems pattern.start pattern.end_ text hs he := by
  obtain ⟨first, segs, helems, hfirst, hsegs, hsplit⟩ := segments pattern.elems
  rw [Pattern.matches, hsplit, matchSegs_first_iff hhs hhe, Means, helems]
  constructor
  · intro h
    obtain ⟨p, e, hstart, hmatch, hrest⟩ := h
    have hpiece := (matchAt_eq_some_iff hfirst (hstart.le hhs hhe)).mp hmatch
    obtain ⟨q, hled, hgood⟩ := (takes_led_iff hsegs hpiece.bounds.2).mpr hrest
    exact ⟨p, q, hstart, takes_append.mpr ⟨e, hpiece, hled⟩, hgood⟩
  · intro h
    obtain ⟨p, q, hstart, hpieces, hgood⟩ := h
    obtain ⟨e, hpiece, hled⟩ := takes_append.mp hpieces
    exact ⟨p, e, hstart, (matchAt_eq_some_iff hfirst (hstart.le hhs hhe)).mpr hpiece,
      (takes_led_iff hsegs hpiece.bounds.2).mp ⟨q, hled, hgood⟩⟩

end

/-! ## Normal forms -/

section
variable {text : Bytes}

theorem takes_cons_congr (e : Elem) {a b : List Elem} (h : ∀ {p q : Nat}, Takes text a p q ↔ Takes text b p q) {p q : Nat} :
    Takes text (e :: a) p q ↔ Takes text (e :: b) p q := by
  have hsingle : ∀ l : List Elem, e :: l = [e] ++ l := fun l => rfl
  rw [hsingle a, hsingle b, takes_append, takes_append]
  exact exists_congr fun r => and_congr_right fun _ => h

variable {elems : List Elem} {anchor : StartAnchor}

/-- A run of wildcards takes what one wildcard takes. -/
theorem takes_collapseStars {p q : Nat} : Takes text (collapseStars elems) p q ↔ Takes text elems p q := by
  induction elems using collapseStars.induct generalizing p q with
  | case1 rest ih =>
      rw [collapseStars, ih, takes_star_iff, takes_star_iff]
      constructor
      · intro h
        obtain ⟨r, hr, hrest⟩ := h
        exact ⟨p, Nat.le_refl _, takes_star_iff.mpr ⟨r, hr, hrest⟩⟩
      · intro h
        obtain ⟨r, hr, hstar⟩ := h
        obtain ⟨r', hr', hrest⟩ := takes_star_iff.mp hstar
        exact ⟨r', Nat.le_trans hr hr', hrest⟩
  | case2 e rest hrest ih =>
      rw [collapseStars]
      · exact takes_cons_congr e ih
      · exact hrest
  | case3 => exact Iff.rfl

variable {end_ : Bool} {hs he : Nat}

/-- A first wildcard is the freedom to start anywhere, unless the pattern starts at a host. -/
theorem means_star_cons (hanchor : anchor ≠ .host) :
    Means (.star :: elems) anchor end_ text hs he ↔ Means elems .anywhere end_ text hs he := by
  constructor
  · intro h
    obtain ⟨p, q, _, hstar, hend⟩ := h
    obtain ⟨r, _, hrest⟩ := takes_star_iff.mp hstar
    exact ⟨r, q, Nat.le_trans hrest.bounds.1 hrest.bounds.2, hrest, hend⟩
  · intro h
    obtain ⟨p, q, _, hrest, hend⟩ := h
    refine ⟨0, q, ?_, takes_star_iff.mpr ⟨p, Nat.zero_le p, hrest⟩, hend⟩
    cases anchor with
    | anywhere => exact Nat.zero_le _
    | start => rfl
    | host => exact absurd rfl hanchor

/-- A last wildcard is the freedom to end anywhere. -/
theorem means_append_star :
    Means (elems ++ [.star]) anchor end_ text hs he ↔ Means elems anchor false text hs he := by
  constructor
  · intro h
    obtain ⟨p, q, hstart, happend, _⟩ := h
    obtain ⟨r, helems, _⟩ := takes_append.mp happend
    exact ⟨p, r, hstart, helems, fun h => by cases h⟩
  · intro h
    obtain ⟨p, q, hstart, helems, _⟩ := h
    exact ⟨p, text.length, hstart, takes_append.mpr ⟨q, helems, .star helems.bounds.2 (.done (Nat.le_refl _))⟩, fun _ => rfl⟩

theorem eq_star_cons {out : List Elem} (h : out.head?.any isStar = true) : out = .star :: out.drop 1 := by
  cases out with
  | nil => cases h
  | cons e out => rw [show e = .star from of_decide_eq_true h, List.drop_one, List.tail_cons]

theorem eq_append_star {out : List Elem} (h : out.getLast?.any isStar = true) : out = out.dropLast ++ [.star] := by
  cases hlast : out.getLast? with
  | none =>
      rw [hlast] at h
      cases h
  | some e =>
      rw [hlast] at h
      rw [← List.dropLast_append_getLast? e hlast, show e = .star from of_decide_eq_true h, List.dropLast_concat]

theorem means_new :
    Means (Pattern.new elems anchor end_).elems (Pattern.new elems anchor end_).start (Pattern.new elems anchor end_).end_
      text hs he ↔ Means elems anchor end_ text hs he := by
  have hcollapse : Means (collapseStars elems) anchor end_ text hs he ↔ Means elems anchor end_ text hs he :=
    exists_congr fun p => exists_congr fun q => and_congr_right fun _ => and_congr_left fun _ => takes_collapseStars
  rw [← hcollapse, Pattern.new]
  generalize collapseStars elems = out
  have hfirst : ∀ {out' : List Elem} {anchor' : StartAnchor},
      (if out.head?.any isStar && anchor ≠ .host then (out.drop 1, StartAnchor.anywhere) else (out, anchor)) = (out', anchor') →
      (Means out' anchor' end_ text hs he ↔ Means out anchor end_ text hs he) := by
    intro out' anchor' h
    split at h
    · rename_i hstar
      rw [Bool.and_eq_true, decide_eq_true_iff] at hstar
      cases h
      exact (means_star_cons hstar.2).symm.trans (by rw [← eq_star_cons hstar.1])
    · cases h
      exact Iff.rfl
  cases hpair : (if out.head?.any isStar && anchor ≠ .host then (out.drop 1, StartAnchor.anywhere) else (out, anchor)) with
  | mk out' anchor' =>
      rw [← hfirst hpair]
      dsimp only
      split
      · rename_i hstar
        exact means_append_star.symm.trans (by rw [← eq_append_star hstar])
      · exact Iff.rfl

end

/-! ## The main result -/

/-- THE GREEDY MATCHER FINDS WHAT A PATTERN MEANS.  For all elements and anchors, a text with a host is matched by the
normal form of the pattern just where the elements, as they were written, can take pieces of the text one after another
from a place where the pattern may start, up to the end of the text if the pattern is anchored there. -/
theorem matches_new_iff_means (elems : List Elem) (anchor : StartAnchor) (end_ : Bool) (text : Bytes) {hs he : Nat}
    (hhs : hs ≤ he) (hhe : he ≤ text.length) :
    (Pattern.new elems anchor end_).matches text (some (hs, he)) = true ↔ Means elems anchor end_ text hs he :=
  (matches_iff_means hhs hhe).trans means_new

/-- `||b^*` against `a.b/`, where `a.b` is the host. -/
theorem matches_new_iff_means_sample :
    (Pattern.new [.lit 0x62, .sep, .star] .host true).matches [0x61, 0x2e, 0x62, 0x2f] (some (0, 3)) = true ↔
      Means [.lit 0x62, .sep, .star] .host true [0x61, 0x2e, 0x62, 0x2f] 0 3 :=
  matches_new_iff_means _ _ _ _ (by decide) (by decide)

end Pelorus.Block
