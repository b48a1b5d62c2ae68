import Pelorus.Layout.Inline.WhiteSpace

/-
  Layout/Inline/Opportunities.lean --- where a line may end (`px-text/src/linebreak.rs`, and the
  atomics of `Prepared::paragraph` in `px-layout/src/text.rs`).

  Offsets count characters: each that the source forms is at the start of one, or at the end.  The
  two segmenters are parameters; that the one for lines reports the end of a text is all that is
  relied on.
-/
set_option autoImplicit false

namespace Pelorus.Layout.Inline

open Lib

/-- CSS `overflow-wrap`. -/
inductive OverflowWrap where
  | normal
  | breakWord
  | anywhere
  deriving DecidableEq

/-- CSS `word-break`. -/
inductive WordBreak where
  | normal
  | breakAll
  | keepAll
  | breakWord
  deriving DecidableEq

/-- CSS `hyphens`. -/
inductive Hyphens where
  | none
  | manual
  deriving DecidableEq

/-- What `opportunities` reads of the options. -/
structure Options where
  wordBreak : WordBreak
  overflowWrap : OverflowWrap
  whiteSpace : WhiteSpace
  hyphens : Hyphens

/-- What kind of break an offset is. -/
inductive Kind where
  | emergency
  | soft
  | hard
  deriving DecidableEq, Repr

/-- One break opportunity: the line ends before the offset. -/
structure Opportunity where
  offset : Nat
  kind : Kind
  hyphen : Bool
  deriving DecidableEq, Repr

/-- `SOFT_HYPHEN`. -/
def softHyphen : Char := '\u00ad'

/-- Whether lines wrap at all. -/
def wraps (ws : WhiteSpace) : Bool := ws ≠ .nowrap ∧ ws ≠ .pre

/-- The text the segmenters see: CR and LF are spaces where they are not preserved. -/
def seen (ws : WhiteSpace) (text : Text) : Text :=
  if ws = .normal ∨ ws = .nowrap then text.map fun c => if isNewline c then ' ' else c else text

section Segmenters
variable (segment graphemes : Text → List Nat) (options : Options)

/-- What a break of the line segmenter is put as. -/
def ofSegment (seen : Text) (offset : Nat) : Option Opportunity :=
  let before := seen[offset - 1]?
  let hard : Bool := offset = seen.length ∨
    before.any fun c => isForcedBreak c ∧ ¬ (c = '\r' ∧ seen[offset]? = some '\n')
  let hyphen : Bool := before = some softHyphen
  if offset ∉ segment seen then none
  else if hard then some ⟨offset, .hard, hyphen ∧ offset ≠ seen.length⟩
  else if wraps options.whiteSpace ∧ ¬ (hyphen ∧ options.hyphens = .none) then
    some ⟨offset, .soft, hyphen⟩
  else none

/-- Under `break-spaces` a line may end after each space or tab. -/
def ofBlank (seen : Text) (offset : Nat) : Option Opportunity :=
  if options.whiteSpace = .breakSpaces ∧ offset < seen.length ∧ seen[offset - 1]?.any isBlank then
    some ⟨offset, .soft, false⟩
  else none

/-- Where words may be broken, a line may end at a grapheme boundary if nothing else fits. -/
def ofGrapheme (seen : Text) (offset : Nat) : Option Opportunity :=
  if (wraps options.whiteSpace ∧ (options.overflowWrap ≠ .normal ∨ options.wordBreak = .breakWord)) ∧
      offset ∈ graphemes seen ∧ offset < seen.length then
    some ⟨offset, .emergency, false⟩
  else none

/-- `opportunities`, at one offset.  Of what is put there the first stays: what comes later is never
stronger. -/
def opportunityAt (text : Text) (offset : Nat) : Option Opportunity :=
  let seen := seen options.whiteSpace text
  (ofSegment segment options seen offset).or
    ((ofBlank options seen offset).or (ofGrapheme graphemes options seen offset))

/-- The wrap opportunities on both sides of the atomics at these offsets. -/
def ofAtomic (atomics : List Nat) (text : Text) (offset : Nat) : Option Opportunity :=
  if wraps options.whiteSpace ∧ offset ∈ atomics.flatMap (fun a => [a, a + 1]) ∧
      offset < text.length then
    some ⟨offset, .soft, false⟩
  else none

/-- The opportunities of `paragraph`, in order.  The sort is stable and the first entry of an offset
stays, so beside an atomic that is one of `opportunities`. -/
def paragraphOpps (text : Text) (atomics : List Nat) : List Opportunity :=
  (List.range' 1 text.length).filterMap fun offset =>
    (opportunityAt segment graphemes options text offset).or (ofAtomic options atomics text offset)

end Segmenters

/-! ## What is known of the opportunities -/

/-- The opportunities of a text: in order and inside of it, hard only at its end or after a character
that forces a break, and the last one hard. -/
structure Breaks (text : Text) (opps : List Opportunity) : Prop where
  sorted : opps.Pairwise fun a b => a.offset < b.offset
  inside : ∀ o ∈ opps, 0 < o.offset ∧ o.offset ≤ text.length
  hard : ∀ o ∈ opps, o.kind = .hard → o.offset = text.length ∨ text[o.offset - 1]?.any isForcedBreak
  last : text ≠ [] → ∃ o ∈ opps, o.kind = .hard ∧ o.offset = text.length

theorem length_seen (ws : WhiteSpace) (text : Text) : (seen ws text).length = text.length := by
  unfold seen
  split
  · exact List.length_map _
  · rfl

theorem forced_of_seen {ws : WhiteSpace} {text : Text} {i : Nat}
    (h : (seen ws text)[i]?.any isForcedBreak) : text[i]?.any isForcedBreak := by
  unfold seen at h
  split at h
  · rw [List.getElem?_map, Option.any_map] at h
    obtain ⟨c, hc, hforced⟩ := (Option.any_eq_true _ _).mp h
    refine (Option.any_eq_true _ _).mpr ⟨c, hc, ?_⟩
    split at hforced
    · exact absurd hforced (by decide)
    · exact hforced
  · exact h

variable {segment graphemes : Text → List Nat}

/-- An entry is for its offset, and hard only at the end or after what forces a break. -/
theorem entry_spec {options : Options} {atomics : List Nat} {text : Text} {offset : Nat} {o : Opportunity}
    (h : (opportunityAt segment graphemes options text offset).or (ofAtomic options atomics text offset) = some o) :
    o.offset = offset ∧ (o.kind = .hard → offset = text.length ∨ text[offset - 1]?.any isForcedBreak) := by
  have hlen := length_seen options.whiteSpace text
  have hweak : ∀ {kind : Kind} {hyphen : Bool}, kind ≠ .hard → some ⟨offset, kind, hyphen⟩ = some o →
      o.offset = offset ∧ (o.kind = .hard → offset = text.length ∨ text[offset - 1]?.any isForcedBreak) := by
    intro kind hyphen hkind heq
    obtain rfl := Option.some.inj heq
    exact ⟨rfl, fun h => absurd h hkind⟩
  simp only [opportunityAt, Option.or_eq_some_iff] at h
  rcases h with (h | ⟨-, h | ⟨-, h⟩⟩) | ⟨-, h⟩
  · simp only [ofSegment, Option.ite_none_left_eq_some] at h
    obtain ⟨-, h⟩ := h
    split at h
    · rename_i hhard
      obtain rfl := Option.some.inj h
      refine ⟨rfl, fun _ => ?_⟩
      rcases of_decide_eq_true hhard with hend | hbefore
      · exact Or.inl (hend.trans hlen)
      · obtain ⟨c, hc, hforced⟩ := (Option.any_eq_true _ _).mp hbefore
        exact Or.inr (forced_of_seen ((Option.any_eq_true _ _).mpr ⟨c, hc, (of_decide_eq_true hforced).1⟩))
    · exact hweak Kind.noConfusion (Option.ite_none_right_eq_some.mp h).2
  · exact hweak Kind.noConfusion (Option.ite_none_right_eq_some.mp h).2
  · exact hweak Kind.noConfusion (Option.ite_none_right_eq_some.mp h).2
  · exact hweak Kind.noConfusion (Option.ite_none_right_eq_some.mp h).2

theorem breaks_paragraphOpps (hsegment : ∀ s : Text, s ≠ [] → s.length ∈ segment s) (options : Options)
    (text : Text) (atomics : List Nat) : Breaks text (paragraphOpps segment graphemes options text atomics) := by
  have hmem : ∀ o ∈ paragraphOpps segment graphemes options text atomics,
      (0 < o.offset ∧ o.offset ≤ text.length) ∧
        (o.kind = .hard → o.offset = text.length ∨ text[o.offset - 1]?.any isForcedBreak) := by
    intro o ho
    obtain ⟨offset, hin, hentry⟩ := List.mem_filterMap.mp ho
    obtain ⟨rfl, hhard⟩ := entry_spec hentry
    have hrange := List.mem_range'_1.mp hin
    exact ⟨by omega, hhard⟩
  refine ⟨?_, fun o ho => (hmem o ho).1, fun o ho => (hmem o ho).2, fun htext => ?_⟩
  · refine List.pairwise_filterMap.mpr ((List.pairwise_lt_range' 1).imp fun {a b} hlt o ho o' ho' => ?_)
    rwa [(entry_spec ho).1, (entry_spec ho').1]
  · have hlen := length_seen options.whiteSpace text
    have hpos := List.length_pos_of_ne_nil htext
    have hend : text.length ∈ segment (seen options.whiteSpace text) := by
      rw [← hlen]
      exact hsegment _ (List.ne_nil_of_length_pos (hlen ▸ hpos))
    refine ⟨⟨text.length, .hard, false⟩, List.mem_filterMap.mpr ⟨text.length, ?_, ?_⟩, rfl, rfl⟩
    · exact List.mem_range'_1.mpr (by omega)
    · simp [opportunityAt, ofSegment, hlen, hend]

end Pelorus.Layout.Inline
