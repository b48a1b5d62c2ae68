import Mathlib.Data.Finset.Order
import Pelorus.Layout.Inline.Opportunities

/-
  Layout/Inline/Lines.lean --- the lines of a text (`px-layout/src/text.rs`).

  `next_line` drops the spaces at the start of a line.  That is meant for a line after a soft break
  but done for every line, so a space that is preserved at the start of the text or after a forced
  break is on no line.  `lines_kept_iff` says which texts lose nothing, whatever the widths.
-/
set_option autoImplicit false

namespace Pelorus.Layout.Inline

open Lib

/-- A paragraph that is measured: the prefix sums of its advances and edges, and where it breaks. -/
structure Prepared where
  text : Text
  whiteSpace : WhiteSpace
  sums : List Int
  closeSums : List Int
  opps : List Opportunity
  hyphen : Option Int
  breaks : Breaks text opps

/-- One line: its content is `start..contentEnd`, and the next line is sought from `next`. -/
structure LineBreak where
  start : Nat
  contentEnd : Nat
  next : Nat
  width : Int
  hyphen : Bool
  forced : Bool
  last : Bool
  deriving DecidableEq

/-- `trim_end_matches` of the slice `start..stop`: where what is left ends. -/
def trimEnd (text : Text) (drops : Char → Bool) (start : Nat) : Nat → Nat
  | 0 => 0
  | n + 1 => if start ≤ n ∧ text[n]?.any drops then trimEnd text drops start n else n + 1

/-- The first loop of `next_line`, which takes at most a step for each character. -/
def skipSpaces (text : Text) : Nat → Nat → Nat
  | 0, i => i
  | fuel + 1, i => if text[i]? = some ' ' then skipSpaces text fuel (i + 1) else i

/-- The loop of `next_line`: the opportunity a line ends at. -/
def choose (fits : Opportunity → Bool) (soft emergency : Option Opportunity) :
    List Opportunity → Option Opportunity
  | [] => soft.or emergency
  | o :: rest =>
      match o.kind, fits o with
      | .hard, true => some o
      | .soft, true => choose fits (some o) emergency rest
      | .emergency, true => choose fits soft (some o) rest
      | _, false => some ((soft.or emergency).getD o)

namespace Prepared

/-- `paragraph`, given what the shaper measured. -/
def paragraph (segment graphemes : Text → List Nat) (hsegment : ∀ s : Text, s ≠ [] → s.length ∈ segment s)
    (options : Options) (text : Text) (atomics : List Nat) (sums closeSums : List Int)
    (hyphen : Option Int) : Prepared where
  text := text
  whiteSpace := options.whiteSpace
  sums := sums
  closeSums := closeSums
  opps := paragraphOpps segment graphemes options text atomics
  hyphen := hyphen
  breaks := breaks_paragraphOpps hsegment options text atomics

variable (p : Prepared)

def width (a b : Nat) : Int :=
  match p.sums[a]?, p.sums[b]?, p.closeSums[a]?, p.closeSums[b]? with
  | some lo, some hi, some clo, some chi => (hi - lo) + (chi - clo)
  | _, _, _, _ => 0

def trimsTrailingSpaces : Bool := p.whiteSpace ≠ .breakSpaces

def contentEnd (start stop : Nat) : Nat :=
  let stop := trimEnd p.text isForcedBreak start stop
  if p.trimsTrailingSpaces then trimEnd p.text (· = ' ') start stop else stop

def lineWidth (start stop : Nat) (hyphen : Bool) : Int :=
  p.width start (p.contentEnd start stop) + if hyphen then p.hyphen.getD 0 else 0

/-- Where a line starts that is sought from an offset. -/
def skip (start : Nat) : Nat :=
  if p.trimsTrailingSpaces then skipSpaces p.text p.text.length start else start

def nextLine (start : Nat) (available : Int) : Option LineBreak :=
  let start := p.skip start
  if p.text.length ≤ start then none
  else
    let fits := fun o : Opportunity => p.lineWidth start o.offset o.hyphen ≤ available
    (choose (fun o => fits o) none none (p.opps.filter (start < ·.offset))).map fun o =>
      { start := start
        contentEnd := p.contentEnd start o.offset
        next := o.offset
        width := p.lineWidth start o.offset o.hyphen
        hyphen := o.hyphen
        forced := o.kind = .hard ∧ p.text[o.offset - 1]?.any isForcedBreak
        last := p.text.length ≤ o.offset }

/-- A space, and the mode is not `break-spaces`. -/
def SpaceAt (i : Nat) : Prop := p.whiteSpace ≠ .breakSpaces ∧ p.text[i]? = some ' '

/-- Nothing but such spaces in `a..b`. -/
def Spaces (a b : Nat) : Prop := ∀ i, a ≤ i → i < b → p.SpaceAt i

/-- Nothing but such spaces and forced-break characters in `a..b`. -/
def Blank (a b : Nat) : Prop := ∀ i, a ≤ i → i < b → p.SpaceAt i ∨ p.text[i]?.any isForcedBreak

end Prepared

/-! ## One line -/

theorem trimEnd_spec (text : Text) (drops : Char → Bool) (start : Nat) : ∀ stop,
    (start ≤ stop → start ≤ trimEnd text drops start stop) ∧ trimEnd text drops start stop ≤ stop ∧
    ∀ i, trimEnd text drops start stop ≤ i → i < stop → text[i]?.any drops
  | 0 => ⟨id, Nat.le_refl 0, fun i _ h => absurd h (Nat.not_lt_zero i)⟩
  | n + 1 => by
      obtain ⟨hle, hstop, hdrops⟩ := trimEnd_spec text drops start n
      unfold trimEnd
      split
      · rename_i hn
        refine ⟨fun _ => hle hn.1, hstop.trans (Nat.le_succ n), fun i hi hlt => ?_⟩
        rcases Nat.lt_succ_iff_lt_or_eq.mp hlt with h | rfl
        · exact hdrops i hi h
        · exact hn.2
      · exact ⟨id, Nat.le_refl _, fun i hi hlt => absurd hlt (Nat.not_lt.mpr hi)⟩

theorem skipSpaces_spec (text : Text) : ∀ fuel i, i ≤ skipSpaces text fuel i ∧
    (∀ j, i ≤ j → j < skipSpaces text fuel i → text[j]? = some ' ') ∧
    (text.length ≤ i + fuel → text[skipSpaces text fuel i]? ≠ some ' ')
  | 0, i => ⟨Nat.le_refl i, fun j hj hlt => absurd hlt (Nat.not_lt.mpr hj), fun h => by
      rw [skipSpaces, List.getElem?_eq_none (by omega)]
      exact (Option.some_ne_none _).symm⟩
  | fuel + 1, i => by
      obtain ⟨hle, hspaces, hend⟩ := skipSpaces_spec text fuel (i + 1)
      unfold skipSpaces
      split
      · rename_i hi
        refine ⟨by omega, fun j hj hlt => ?_, fun h => hend (by omega)⟩
        rcases Nat.eq_or_lt_of_le hj with rfl | hj
        · exact hi
        · exact hspaces j hj hlt
      · rename_i hi
        exact ⟨Nat.le_refl i, fun j hj hlt => absurd hlt (Nat.not_lt.mpr hj), fun _ => hi⟩

/-- A line ends no later than a hard break, and at one if all fit. -/
theorem choose_spec (fits : Opportunity → Bool) {h : Opportunity} (hh : h.kind = .hard)
    (after : List Opportunity) : ∀ (before : List Opportunity) (soft emergency : Option Opportunity),
    ∃ o, choose fits soft emergency (before ++ h :: after) = some o ∧
      (o ∈ before ++ [h] ∨ soft = some o ∨ emergency = some o) ∧
      ((∀ x ∈ before ++ [h], fits x) → o.kind = .hard)
  | [], soft, emergency => by
      rw [List.nil_append, choose, hh]
      cases hfit : fits h
      · cases soft <;> cases emergency <;> simp [hfit]
      · simp [hh]
  | b :: before, soft, emergency => by
      have ih := choose_spec fits hh after before
      rw [List.cons_append, choose]
      cases hfit : fits b
      · refine ⟨(soft.or emergency).getD b, by cases b.kind <;> rfl, ?_, fun hall => ?_⟩
        · cases soft <;> cases emergency <;> simp
        · exact absurd (hall b List.mem_cons_self) (by simp [hfit])
      · cases hkind : b.kind with
        | hard => exact ⟨b, rfl, Or.inl List.mem_cons_self, fun _ => hkind⟩
        | soft =>
            obtain ⟨o, ho, hmem, hall⟩ := ih (some b) emergency
            exact ⟨o, ho, by grind, fun h => hall fun x hx => h x (List.mem_cons_of_mem b hx)⟩
        | emergency =>
            obtain ⟨o, ho, hmem, hall⟩ := ih soft (some b)
            exact ⟨o, ho, by grind, fun h => hall fun x hx => h x (List.mem_cons_of_mem b hx)⟩

namespace Prepared

variable {p : Prepared}

/-- What is dropped at the start of a line is spaces, and all of them. -/
theorem skip_spec (start : Nat) : start ≤ p.skip start ∧ p.Spaces start (p.skip start) ∧
    ¬ p.SpaceAt (p.skip start) := by
  unfold skip
  split
  · rename_i htrims
    obtain ⟨hle, hspaces, hend⟩ := skipSpaces_spec p.text p.text.length start
    exact ⟨hle, fun i hi hlt => ⟨of_decide_eq_true htrims, hspaces i hi hlt⟩, fun h => hend (by omega) h.2⟩
  · rename_i htrims
    exact ⟨Nat.le_refl _, fun i hi hlt => absurd hlt (Nat.not_lt.mpr hi), fun h => htrims (decide_eq_true h.1)⟩

/-- What is trimmed at the end of a line is spaces and what forces a break. -/
theorem contentEnd_spec {start stop : Nat} (h : start ≤ stop) : start ≤ p.contentEnd start stop ∧
    p.contentEnd start stop ≤ stop ∧ p.Blank (p.contentEnd start stop) stop := by
  obtain ⟨hle, hstop, hforced⟩ := trimEnd_spec p.text isForcedBreak start stop
  have hle := hle h
  unfold contentEnd
  dsimp only
  generalize trimEnd p.text isForcedBreak start stop = e at hle hstop hforced ⊢
  split
  · rename_i htrims
    obtain ⟨hle', hstop', hspace⟩ := trimEnd_spec p.text (· = ' ') start e
    refine ⟨hle' hle, hstop'.trans hstop, fun i hi hlt => ?_⟩
    rcases Nat.lt_or_ge i e with hin | hout
    · obtain ⟨c, hc, heq⟩ := (Option.any_eq_true _ _).mp (hspace i hi hin)
      exact Or.inl ⟨of_decide_eq_true htrims, by rw [hc, of_decide_eq_true heq]⟩
    · exact Or.inr (hforced i hout hlt)
  · exact ⟨hle, hstop, fun i hi hlt => Or.inr (hforced i hi hlt)⟩

/-- Before the end of the text there is an opportunity to end a line at, up to the next hard one. -/
theorem choose_opps {start : Nat} (hstart : start < p.text.length) (fits : Opportunity → Bool) :
    ∃ o ∈ p.opps, start < o.offset ∧ choose fits none none (p.opps.filter (start < ·.offset)) = some o ∧
      (∀ h ∈ p.opps, h.kind = .hard → start < h.offset → o.offset ≤ h.offset) ∧
      ((∀ x ∈ p.opps, fits x) → o.kind = .hard) := by
  have hhard : ∀ h ∈ p.opps, h.kind = .hard → start < h.offset →
      ∃ o ∈ p.opps, start < o.offset ∧ choose fits none none (p.opps.filter (start < ·.offset)) = some o ∧
        o.offset ≤ h.offset ∧ ((∀ x ∈ p.opps, fits x) → o.kind = .hard) := by
    intro h hh hkind hlt
    obtain ⟨before, after, hsplit⟩ := List.append_of_mem
      (List.mem_filter.mpr ⟨hh, decide_eq_true hlt⟩ : h ∈ p.opps.filter (start < ·.offset))
    have hsorted := p.breaks.sorted.filter (start < ·.offset)
    have hin : ∀ x ∈ before ++ [h], (x ∈ p.opps ∧ start < x.offset) ∧ x.offset ≤ h.offset := by
      intro x hx
      have hxmem : x ∈ p.opps.filter (start < ·.offset) := by
        rw [hsplit, List.append_cons]
        exact List.mem_append_left after hx
      refine ⟨(List.mem_filter.mp hxmem).imp_right of_decide_eq_true, ?_⟩
      rw [hsplit] at hsorted
      rcases List.mem_append.mp hx with hx | hx
      · exact ((List.pairwise_append.mp hsorted).2.2 x hx h List.mem_cons_self).le
      · exact (congrArg Opportunity.offset (List.mem_singleton.mp hx)).le
    obtain ⟨o, ho, hmem, hall⟩ := choose_spec fits hkind after before none none
    have ho' := hin o (hmem.resolve_right (by simp))
    exact ⟨o, ho'.1.1, ho'.1.2, hsplit ▸ ho, ho'.2, fun h => hall fun x hx => h x (hin x hx).1.1⟩
  obtain ⟨e, he, hkind, hend⟩ := p.breaks.last (List.ne_nil_of_length_pos (Nat.zero_lt_of_lt hstart))
  obtain ⟨o, ho, hlt, hsome, -, hall⟩ := hhard e he hkind (hend ▸ hstart)
  refine ⟨o, ho, hlt, hsome, fun h hh hkind hlt => ?_, hall⟩
  obtain ⟨o', -, -, hsome', hle, -⟩ := hhard h hh hkind hlt
  rwa [Option.some.inj (hsome.symm.trans hsome')]

/-- What `next_line` returns: a line that no hard break is inside of. -/
theorem nextLine_eq_some {start : Nat} {available : Int} {l : LineBreak}
    (h : p.nextLine start available = some l) : l.start = p.skip start ∧ l.start < l.next ∧
    l.contentEnd = p.contentEnd l.start l.next ∧
    (∀ h ∈ p.opps, h.kind = .hard → l.start < h.offset → l.next ≤ h.offset) ∧
    ∃ o ∈ p.opps, o.offset = l.next ∧
      (l.forced ↔ o.kind = .hard ∧ p.text[l.next - 1]?.any isForcedBreak) ∧
      ((∀ x ∈ p.opps, p.lineWidth l.start x.offset x.hyphen ≤ available) → o.kind = .hard) := by
  simp only [nextLine, Option.ite_none_left_eq_some, Nat.not_le] at h
  obtain ⟨hin, h⟩ := h
  obtain ⟨o, ho, hlt, hsome, hhard, hall⟩ :=
    choose_opps hin fun o => p.lineWidth (p.skip start) o.offset o.hyphen ≤ available
  rw [hsome] at h
  obtain rfl := Option.some.inj h
  exact ⟨rfl, hlt, rfl, hhard, o, ho, rfl, decide_eq_true_iff,
    fun h => hall fun x hx => decide_eq_true (h x hx)⟩

theorem nextLine_eq_none {start : Nat} {available : Int} (h : p.nextLine start available = none) :
    p.text.length ≤ p.skip start := by
  by_contra hin
  obtain ⟨o, -, -, hsome, -⟩ := choose_opps (Nat.lt_of_not_le hin)
    fun o => p.lineWidth (p.skip start) o.offset o.hyphen ≤ available
  rw [nextLine] at h
  dsimp only at h
  rw [if_neg hin, hsome] at h
  exact absurd h (Option.some_ne_none _)

/-- The lines of a text from an offset on, each call of `next_line` with a width of its own. -/
def lines (p : Prepared) (widths : Nat → Int) (start : Nat) : List LineBreak :=
  match h : p.nextLine start (widths 0) with
  | none => []
  | some l => l :: p.lines (fun k => widths (k + 1)) l.next
termination_by p.text.length - start
decreasing_by
  obtain ⟨hstart, hlt, -, -, o, ho, hoff, -⟩ := nextLine_eq_some h
  have hle := (p.breaks.inside o ho).2
  have hskip := (p.skip_spec start).1
  omega

/-! ## All lines -/

/-- What the lines from an offset on make of the text, in order: what a line drops before its
content, which is nothing unless it comes after a soft break or is blank, its content, and what it
trims; and after the last line the spaces that are left. -/
def Kept (p : Prepared) (soft : Bool) (start : Nat) : List LineBreak → Prop
  | [] => p.Spaces start p.text.length
  | l :: ls =>
      (start ≤ l.start ∧ l.start ≤ l.contentEnd ∧ l.contentEnd ≤ l.next ∧ start < l.next) ∧
      (p.Spaces start l.start ∧ (start = l.start ∨ soft ∨ p.Blank l.start l.next)) ∧
      p.Blank l.contentEnd l.next ∧ p.Kept (!l.forced) l.next ls

/-- Up to the next place where a line has to end there is nothing else. -/
def BlankLine (p : Prepared) (r : Nat) : Prop :=
  ∃ h ∈ p.opps, h.kind = .hard ∧ r < h.offset ∧ p.Blank r h.offset

/-- What starts with a space, the text or what is after a place where a line has to end, is blank up
to the next. -/
def StartsBlank (p : Prepared) : Prop :=
  ∀ r, (r = 0 ∨ ∃ h ∈ p.opps, h.kind = .hard ∧ h.offset = r) → p.SpaceAt r → p.BlankLine r

/-- A hard break is not inside of the spaces that are dropped. -/
theorem skip_lt_hard {start : Nat} {h : Opportunity} (hh : h ∈ p.opps) (hkind : h.kind = .hard)
    (hlt : start < h.offset) (hin : p.skip start < p.text.length) : p.skip start < h.offset := by
  by_contra hnot
  rcases p.breaks.hard h hh hkind with heq | hforced
  · omega
  · rw [((p.skip_spec start).2.1 (h.offset - 1) (by omega) (by omega)).2] at hforced
    exact absurd hforced (by decide)

/-- With lines that are wide enough a space that comes first is lost. -/
theorem not_kept_wide {w : Int}
    (hw : ∀ start < p.text.length, ∀ o ∈ p.opps, p.lineWidth start o.offset o.hyphen ≤ w) {r : Nat}
    (hspace : p.SpaceAt r) (hnone : ¬ p.BlankLine r) (start : Nat) (hle : start ≤ r)
    (hr : r = start ∨ ∃ h ∈ p.opps, h.kind = .hard ∧ h.offset = r) :
    ¬ p.Kept false start (p.lines (fun _ => w) start) := by
  have hlen : r < p.text.length := (List.getElem?_eq_some_iff.mp hspace.2).1
  generalize hwidths : (fun _ : Nat => w) = widths
  fun_induction lines p widths start with
  | case1 widths start h =>
      intro hspaces
      obtain ⟨e, he, hkind, hend⟩ := p.breaks.last (List.ne_nil_of_length_pos (Nat.zero_lt_of_lt hlen))
      exact hnone ⟨e, he, hkind, hend ▸ hlen, fun i hi hlt => Or.inl (hspaces i (hle.trans hi) (hend ▸ hlt))⟩
  | case2 widths start l h ih =>
      subst hwidths
      rintro ⟨-, ⟨hspaces, hfirst⟩, -, hrest⟩
      obtain ⟨hstart, hlt, -, hhard, o, ho, hoff, hforced, hall⟩ := nextLine_eq_some h
      obtain ⟨hskip, -, hnot⟩ := p.skip_spec start
      have hin := (p.breaks.inside o ho).2
      have hkind := hall (hw l.start (by omega))
      rcases Nat.eq_or_lt_of_le hle with rfl | hlt'
      · have hne : start ≠ l.start := fun heq => hnot (hstart ▸ heq ▸ hspace)
        have hblank := (hfirst.resolve_left hne).resolve_left Bool.false_ne_true
        refine hnone ⟨o, ho, hkind, by omega, fun i hi hend => ?_⟩
        rcases Nat.lt_or_ge i l.start with hbefore | hafter
        · exact Or.inl (hspaces i hi hbefore)
        · exact hblank i hafter (hoff ▸ hend)
      · obtain ⟨e, he, hekind, heoff⟩ := hr.resolve_left hlt'.ne'
        have hnext := hhard e he hekind (hstart ▸ skip_lt_hard he hekind (heoff ▸ hlt') (by omega))
        have hbreak := (p.breaks.hard o ho hkind).resolve_left (by omega)
        rw [hforced.mpr ⟨hkind, hoff ▸ hbreak⟩] at hrest
        exact ih (by omega) (Or.inr ⟨e, he, hekind, heoff⟩) rfl hrest

/-- A space that comes first has nothing else after it on its line. -/
theorem kept_lines (hblank : p.StartsBlank) (widths : Nat → Int) (soft : Bool) (start : Nat)
    (hr : soft = false → start = 0 ∨ ∃ h ∈ p.opps, h.kind = .hard ∧ h.offset = start) :
    p.Kept soft start (p.lines widths start) := by
  fun_induction lines p widths start generalizing soft with
  | case1 widths start h =>
      have hend := nextLine_eq_none h
      exact fun i hi hlt => (p.skip_spec start).2.1 i hi (by omega)
  | case2 widths start l h ih =>
      obtain ⟨hstart, hlt, hend, hhard, o, ho, hoff, hforced, -⟩ := nextLine_eq_some h
      obtain ⟨hle, hstop, htrim⟩ := contentEnd_spec (p := p) hlt.le
      rw [← hend] at hle hstop htrim
      obtain ⟨hskip, hspaces, -⟩ := p.skip_spec start
      rw [← hstart] at hskip hspaces
      refine ⟨⟨hskip, hle, hstop, by omega⟩, ⟨hspaces, ?_⟩, htrim, ih _ fun h => ?_⟩
      · by_contra hnot
        obtain ⟨hne, hsoft, hrest⟩ : start ≠ l.start ∧ soft = false ∧ ¬ p.Blank l.start l.next := by
          simpa using hnot
        obtain ⟨e, he, hkind, hlte, hto⟩ := hblank start (hr hsoft) (hspaces start (Nat.le_refl _) (by omega))
        have hin := (p.breaks.inside o ho).2
        have hnext := hhard e he hkind (hstart ▸ skip_lt_hard he hkind hlte (by omega))
        exact hrest fun i hi hlt => hto i (by omega) (by omega)
      · exact Or.inr ⟨o, ho, (hforced.mp (by simpa using h)).1, hoff⟩

/-- The lines lose nothing, whatever the widths, exactly if no line but one after a soft break starts
with a space and goes on with something else. -/
theorem lines_kept_iff (p : Prepared) : (∀ widths, p.Kept false 0 (p.lines widths 0)) ↔ p.StartsBlank := by
  refine ⟨fun hkept r hr hspace => ?_, fun hblank widths => kept_lines hblank widths false 0 fun _ => Or.inl rfl⟩
  by_contra hnone
  -- a width that is enough for every line
  obtain ⟨w, hw⟩ := ((List.range p.text.length).flatMap fun start =>
    p.opps.map fun o => p.lineWidth start o.offset o.hyphen).toFinset.exists_le
  refine not_kept_wide (w := w) (fun start hstart o ho => hw _ (List.mem_toFinset.mpr ?_)) hspace hnone 0
    (Nat.zero_le r) hr (hkept fun _ => w)
  exact List.mem_flatMap.mpr ⟨start, List.mem_range.mpr hstart, List.mem_map_of_mem ho⟩

/-- In `pre` the first space of the text is on no line. -/
theorem leading_space_lost : ¬ ∀ (p : Prepared) (widths : Nat → Int), p.Kept false 0 (p.lines widths 0) := by
  intro h
  have hkept := h (paragraph (fun s => [s.length]) (fun _ => []) (fun s _ => List.mem_singleton_self _)
    ⟨.normal, .normal, .pre, .manual⟩ [' ', 'a'] [] [] [] none) fun _ => 0
  unfold lines at hkept
  split at hkept
  · rename_i hnone
    exact absurd (nextLine_eq_none hnone) (by decide)
  · rename_i l hsome
    obtain ⟨-, ⟨-, hfirst⟩, -⟩ := hkept
    obtain ⟨hstart, hlt, -⟩ := nextLine_eq_some hsome
    have hone : l.start = 1 := hstart
    rw [hone] at hfirst hlt
    rcases hfirst with hzero | hsoft | hblank
    · exact absurd hzero (by decide)
    · exact absurd hsoft (by decide)
    · rcases hblank 1 (Nat.le_refl 1) hlt with ⟨-, hspace⟩ | hforced
      · exact absurd hspace (by decide)
      · exact absurd hforced (by decide)

end Prepared

end Pelorus.Layout.Inline
