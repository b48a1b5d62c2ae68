import Pelorus.Layout.Inline.WhiteSpace

/-
  Layout/Inline/Run.lean --- a run of inline content (`px-layout/src/inline.rs`).

  A run is built by pushing texts and characters and by opening and closing boxes; then the spaces
  at its end are taken off (`finish`).  Offsets are in bytes of the text.

  WHAT HOLDS OF EVERY RUN.  The style ranges tile the text, and all offsets are boundaries of
  characters (`Sound`).  `extents` remembers what each push laid down; the ranges are these, joined.

  WHAT DOES NOT.  A range joins the text of two pieces without asking for their styles; and a box
  that opened in the spaces that `finish` takes off is left where it was.
-/
set_option autoImplicit false

namespace Pelorus.Layout.Inline

open Lib

/-- What a piece of text is laid out with. -/
structure Look (Style Node Deco : Type) where
  style : Style
  node : Option Node
  raise : Int
  deco : Deco

/-- A range of the text in one style. -/
structure StyleRange (Style Node Deco : Type) extends Look Style Node Deco where
  start : Nat
  end_ : Nat

structure InlineBox where
  start : Nat
  end_ : Nat
  deriving DecidableEq

structure BoxEvent where
  offset : Nat
  opens : Bool
  owner : Nat
  deriving DecidableEq

/-- The object replacement character, which stands for an inline-block. -/
def OBJECT : Char := '\ufffc'

structure AtomicSpec (Style Node : Type) where
  node : Node
  offset : Nat
  parent : Style
  parentRaise : Int

structure InlineRunData (Style Node Deco : Type) where
  text : Text := []
  ranges : List (StyleRange Style Node Deco) := []
  boxes : List InlineBox := []
  events : List BoxEvent := []
  atomics : List (AtomicSpec Style Node) := []

/-- `last_mut`: the last element changed, if there is one. -/
def updateLast {α : Type} (f : α → α) (xs : List α) : List α :=
  match xs.getLast? with
  | some last => xs.dropLast ++ [f last]
  | none => xs

theorem updateLast_concat {α : Type} (f : α → α) (xs : List α) (x : α) :
    updateLast f (xs ++ [x]) = xs ++ [f x] := by
  rw [updateLast, List.getLast?_concat, List.dropLast_concat]

variable {Style Node Deco : Type}

section Joining
variable [DecidableEq Node] [DecidableEq Deco]

/-- Whether a range goes on with what is laid out so. -/
def Look.joins (a b : Look Style Node Deco) : Bool := a.node = b.node ∧ a.raise = b.raise ∧ a.deco = b.deco

/-- The ranges with one more piece, which the last of them takes in if it can. -/
def join (ranges : List (StyleRange Style Node Deco)) (piece : StyleRange Style Node Deco) :
    List (StyleRange Style Node Deco) :=
  match ranges.getLast? with
  | some last =>
      if last.joins piece.toLook ∧ last.end_ = piece.start then
        updateLast (fun last => { last with end_ := piece.end_ }) ranges
      else ranges ++ [piece]
  | none => ranges ++ [piece]

namespace InlineRunData

def extendRange (run : InlineRunData Style Node Deco) (start : Nat) (look : Look Style Node Deco) :
    InlineRunData Style Node Deco :=
  if run.text.len ≤ start then run
  else { run with ranges := join run.ranges { look with start := start, end_ := run.text.len } }

/-- The text of a node after `text-transform`, which sees the character before it. -/
def transformed (transform : Style → Option (Text → Option Char → Text))
    (run : InlineRunData Style Node Deco) (raw : Text) (style : Style) : Text :=
  match transform style with
  | none => raw
  | some apply => apply raw run.text.getLast?

def pushText (transform : Style → Option (Text → Option Char → Text)) (run : InlineRunData Style Node Deco)
    (raw : Text) (ws : WhiteSpace) (look : Look Style Node Deco) : InlineRunData Style Node Deco :=
  let raw := run.transformed transform raw look.style
  extendRange { run with text := appendText ws run.text raw } run.text.len look

def pushChar (run : InlineRunData Style Node Deco) (ch : Char) (look : Look Style Node Deco) :
    InlineRunData Style Node Deco :=
  extendRange { run with text := run.text ++ [ch] } run.text.len look

/-- `open`. -/
def openBox (run : InlineRunData Style Node Deco) : InlineRunData Style Node Deco :=
  { run with
    boxes := run.boxes ++ [⟨run.text.len, run.text.len⟩]
    events := run.events ++ [⟨run.text.len, true, run.boxes.length⟩] }

/-- `close`. -/
def closeBox (run : InlineRunData Style Node Deco) (owner : Nat) : InlineRunData Style Node Deco :=
  { run with
    boxes := run.boxes.modify owner fun b => { b with end_ := run.text.len }
    events := run.events ++ [⟨run.text.len, false, owner⟩] }

def pushAtomic (run : InlineRunData Style Node Deco) (node : Node) (look : Look Style Node Deco) :
    InlineRunData Style Node Deco :=
  let pushed := run.pushChar OBJECT look
  { pushed with atomics := pushed.atomics ++ [⟨node, run.text.len, look.style, look.raise⟩] }

/-- The text that `finish` leaves. -/
def finishedText (run : InlineRunData Style Node Deco) (ws : WhiteSpace) : Text :=
  match ws with
  | .normal | .nowrap => run.text.rdropWhile (· = ' ')
  | _ => run.text

def finish (run : InlineRunData Style Node Deco) (ws : WhiteSpace) : InlineRunData Style Node Deco :=
  let len := (run.finishedText ws).len
  let ranges := run.ranges.rdropWhile fun r => len ≤ r.start
  let dead := run.boxes.map fun b => decide (len ≤ b.start)
  { run with
    text := run.finishedText ws
    ranges := updateLast (fun last => { last with end_ := min last.end_ len }) ranges
    events := (run.events.filter fun e => !dead[e.owner]?.getD true).map fun e =>
      { e with offset := min e.offset len }
    boxes := run.boxes.map fun b => { b with end_ := min b.end_ len } }

end InlineRunData

end Joining

/-- One call on a run. -/
inductive Op (Style Node Deco : Type) where
  | pushText (raw : Text) (ws : WhiteSpace) (look : Look Style Node Deco)
  | pushChar (ch : Char) (look : Look Style Node Deco)
  | openBox
  | closeBox (owner : Nat)
  | pushAtomic (node : Node) (look : Look Style Node Deco)

section Run
variable [DecidableEq Node] [DecidableEq Deco] (transform : Style → Option (Text → Option Char → Text))

def InlineRunData.step (run : InlineRunData Style Node Deco) :
    Op Style Node Deco → InlineRunData Style Node Deco
  | .pushText raw ws look => run.pushText transform raw ws look
  | .pushChar ch look => run.pushChar ch look
  | .openBox => run.openBox
  | .closeBox owner => run.closeBox owner
  | .pushAtomic node look => run.pushAtomic node look

/-- The run after these calls. -/
def InlineRunData.after (run : InlineRunData Style Node Deco) (ops : List (Op Style Node Deco)) :
    InlineRunData Style Node Deco :=
  ops.foldl (InlineRunData.step transform) run

/-- What a call lays its text out with, if it has any. -/
def Op.look : Op Style Node Deco → Option (Look Style Node Deco)
  | .pushText _ _ look | .pushChar _ look | .pushAtomic _ look => some look
  | .openBox | .closeBox _ => none

/-- The text that a call lays down. -/
def Op.extent (run : InlineRunData Style Node Deco) (op : Op Style Node Deco) :
    Option (StyleRange Style Node Deco) :=
  op.look.bind fun look =>
    if (run.step transform op).text.len ≤ run.text.len then none
    else some { look with start := run.text.len, end_ := (run.step transform op).text.len }

/-- What the calls lay down, one after another. -/
def extents (run : InlineRunData Style Node Deco) :
    List (Op Style Node Deco) → List (StyleRange Style Node Deco)
  | [] => []
  | op :: ops => (op.extent transform run).toList ++ extents (run.step transform op) ops

end Run

/-! ## Ranges that tile -/

/-- The ranges go from `lo` to `hi`, without gaps, and none is empty. -/
def Tiles : Nat → List (StyleRange Style Node Deco) → Nat → Prop
  | lo, [], hi => lo = hi
  | lo, r :: rs, hi => r.start = lo ∧ lo < r.end_ ∧ Tiles r.end_ rs hi

section Tiling
variable {lo mid hi : Nat} {rs : List (StyleRange Style Node Deco)} {r piece : StyleRange Style Node Deco}

theorem tiles_append {rs' : List (StyleRange Style Node Deco)} :
    Tiles lo (rs ++ rs') hi ↔ ∃ mid, Tiles lo rs mid ∧ Tiles mid rs' hi := by
  induction rs generalizing lo with
  | nil => exact ⟨fun h => ⟨lo, rfl, h⟩, fun ⟨_, hlo, h⟩ => hlo ▸ h⟩
  | cons r rs ih =>
      rw [List.cons_append, Tiles, ih]
      constructor
      · rintro ⟨hstart, hlt, mid, hrs, h⟩
        exact ⟨mid, ⟨hstart, hlt, hrs⟩, h⟩
      · rintro ⟨mid, ⟨hstart, hlt, hrs⟩, h⟩
        exact ⟨hstart, hlt, mid, hrs, h⟩

theorem tiles_concat : Tiles lo (rs ++ [r]) hi ↔ Tiles lo rs r.start ∧ r.start < r.end_ ∧ r.end_ = hi := by
  rw [tiles_append]
  constructor
  · rintro ⟨mid, hrs, rfl, hlt, hend⟩
    exact ⟨hrs, hlt, hend⟩
  · rintro ⟨hrs, hlt, hend⟩
    exact ⟨r.start, hrs, rfl, hlt, hend⟩

theorem Tiles.le (h : Tiles lo rs hi) : lo ≤ hi := by
  induction rs generalizing lo with
  | nil => exact h.le
  | cons r rs ih =>
      obtain ⟨hstart, hlt, h⟩ := h
      exact hlt.le.trans (ih h)

theorem Tiles.end_le (h : Tiles lo rs hi) : ∀ r ∈ rs, r.end_ ≤ hi := by
  induction rs generalizing lo with
  | nil => exact fun r hr => absurd hr List.not_mem_nil
  | cons r rs ih =>
      obtain ⟨hstart, hlt, h⟩ := h
      intro r' hr'
      rcases List.mem_cons.mp hr' with rfl | hr'
      · exact h.le
      · exact ih h r' hr'

theorem Tiles.start_lt_end (h : Tiles lo rs hi) : ∀ r ∈ rs, r.start < r.end_ := by
  induction rs generalizing lo with
  | nil => exact fun r hr => absurd hr List.not_mem_nil
  | cons r rs ih =>
      obtain ⟨rfl, hlt, h⟩ := h
      intro r' hr'
      rcases List.mem_cons.mp hr' with rfl | hr'
      · exact hlt
      · exact ih h r' hr'

section Joining
variable [DecidableEq Node] [DecidableEq Deco]

theorem join_concat (init : List (StyleRange Style Node Deco)) :
    join (init ++ [r]) piece =
      if r.joins piece.toLook ∧ r.end_ = piece.start then init ++ [{ r with end_ := piece.end_ }]
      else init ++ [r] ++ [piece] := by
  rw [join, List.getLast?_concat]
  simp only [updateLast_concat]

/-- One more piece after the ranges: they tile up to its end. -/
theorem Tiles.join (h : Tiles lo rs piece.start) (hlt : piece.start < piece.end_) :
    Tiles lo (join rs piece) piece.end_ := by
  rcases List.eq_nil_or_concat rs with rfl | ⟨init, r, rfl⟩
  · exact ⟨h.symm, h.symm ▸ hlt, rfl⟩
  · rw [List.concat_eq_append] at h ⊢
    rw [join_concat]
    obtain ⟨hinit, hr, hend⟩ := tiles_concat.mp h
    split
    · exact tiles_concat.mpr ⟨hinit, hr.trans (hend ▸ hlt), rfl⟩
    · exact tiles_concat.mpr ⟨h, hlt, rfl⟩

end Joining

/-- The ranges up to a length that they reach. -/
theorem Tiles.clip (h : Tiles 0 rs hi) {len : Nat} (hlen : len ≤ hi) :
    Tiles 0 (updateLast (fun last => { last with end_ := min last.end_ len })
      (rs.rdropWhile fun r => len ≤ r.start)) len := by
  induction rs using List.reverseRecOn generalizing hi with
  | nil => exact (Nat.le_zero.mp (hlen.trans h.ge)).symm
  | append_singleton rs r ih =>
      obtain ⟨hrs, hlt, hend⟩ := tiles_concat.mp h
      rw [List.rdropWhile_concat]
      by_cases hdrop : len ≤ r.start
      · rw [if_pos (decide_eq_true hdrop)]
        exact ih hrs hdrop
      · rw [if_neg (by simpa using hdrop), updateLast_concat]
        refine tiles_concat.mpr ⟨hrs, ?_, ?_⟩
        · simp only
          omega
        · simp only
          omega

end Tiling

/-! ## What a character is laid out with -/

/-- What the range of a byte says. -/
def lookAt (rs : List (StyleRange Style Node Deco)) (i : Nat) : Option (Look Style Node Deco) :=
  (rs.find? fun r => r.start ≤ i ∧ i < r.end_).map StyleRange.toLook

section Looking
variable {lo hi i : Nat} {rs : List (StyleRange Style Node Deco)} {r piece : StyleRange Style Node Deco}

theorem lookAt_concat_of_end_le (h : ∀ r ∈ rs, r.end_ ≤ i) :
    lookAt (rs ++ [r]) i = if r.start ≤ i ∧ i < r.end_ then some r.toLook else none := by
  have hnone : rs.find? (fun r => r.start ≤ i ∧ i < r.end_) = none := by
    rw [List.find?_eq_none]
    intro r hr hin
    exact absurd (of_decide_eq_true hin).2 (h r hr).not_gt
  rw [lookAt, List.find?_append, hnone, Option.none_or, List.find?_singleton]
  by_cases hin : r.start ≤ i ∧ i < r.end_
  · rw [if_pos hin, if_pos (decide_eq_true hin), Option.map_some]
  · rw [if_neg hin, if_neg (by simpa using hin), Option.map_none]

theorem lookAt_concat_congr {r' : StyleRange Style Node Deco} (hlook : r.toLook = r'.toLook)
    (hin : (r.start ≤ i ∧ i < r.end_) ↔ (r'.start ≤ i ∧ i < r'.end_)) :
    lookAt (rs ++ [r]) i = lookAt (rs ++ [r']) i := by
  rw [lookAt, lookAt, List.find?_append, List.find?_append]
  cases rs.find? (fun r => r.start ≤ i ∧ i < r.end_) with
  | some found => rfl
  | none =>
      rw [Option.none_or, Option.none_or, List.find?_singleton, List.find?_singleton]
      by_cases h : r.start ≤ i ∧ i < r.end_
      · rw [if_pos (decide_eq_true h), if_pos (decide_eq_true (hin.mp h)), Option.map_some, Option.map_some,
          hlook]
      · rw [if_neg (by simpa using h), if_neg (by simpa using mt hin.mpr h)]

/-- After the last range there is none. -/
theorem lookAt_concat_of_lt (h : i < r.start) : lookAt (rs ++ [r]) i = lookAt rs i := by
  rw [lookAt, lookAt, List.find?_append, List.find?_singleton, if_neg (by simp; omega), Option.or_none]

variable [DecidableEq Node] [DecidableEq Deco]

/-- A piece more changes nothing before it. -/
theorem lookAt_join_of_lt (h : Tiles lo rs piece.start) (hi : i < piece.start)
    (hlt : piece.start < piece.end_) : lookAt (join rs piece) i = lookAt rs i := by
  rcases List.eq_nil_or_concat rs with rfl | ⟨init, r, rfl⟩
  · exact @lookAt_concat_of_lt _ _ _ _ [] _ hi
  · rw [List.concat_eq_append] at h ⊢
    rw [join_concat]
    obtain ⟨-, -, hend⟩ := tiles_concat.mp h
    split
    · refine lookAt_concat_congr rfl ?_
      simp only
      omega
    · exact lookAt_concat_of_lt hi

/-- The look that a piece gets when it comes after these ranges. -/
def given (rs : List (StyleRange Style Node Deco)) (piece : StyleRange Style Node Deco) :
    Look Style Node Deco :=
  match rs.getLast? with
  | some last => if last.joins piece.toLook ∧ last.end_ = piece.start then last.toLook else piece.toLook
  | none => piece.toLook

theorem given_concat (init : List (StyleRange Style Node Deco)) :
    given (init ++ [r]) piece =
      if r.joins piece.toLook ∧ r.end_ = piece.start then r.toLook else piece.toLook := by
  rw [given, List.getLast?_concat]

theorem lookAt_join_self (h : Tiles lo rs piece.start) (hlo : piece.start ≤ i) (hi : i < piece.end_) :
    lookAt (join rs piece) i = some (given rs piece) := by
  rcases List.eq_nil_or_concat rs with rfl | ⟨init, r, rfl⟩
  · have hsingle : lookAt ([] ++ [piece]) i = some piece.toLook := by
      rw [lookAt_concat_of_end_le fun _ h => absurd h List.not_mem_nil, if_pos ⟨hlo, hi⟩]
    exact hsingle
  · rw [List.concat_eq_append] at h ⊢
    have hbefore := fun r hr => (h.end_le r hr).trans hlo
    obtain ⟨hinit, hlt, hend⟩ := tiles_concat.mp h
    rw [join_concat, given_concat]
    split
    · have hinit_le := fun r' hr' => (hinit.end_le r' hr').trans (hlt.le.trans (hend.le.trans hlo))
      rw [lookAt_concat_of_end_le hinit_le]
      exact if_pos ⟨hlt.le.trans (hend.le.trans hlo), hi⟩
    · rw [lookAt_concat_of_end_le hbefore, if_pos ⟨hlo, hi⟩]

/-- Pieces that join are of one style. -/
def SameStyle (a b : StyleRange Style Node Deco) : Prop := a.joins b.toLook → a.style = b.style

/-- Every byte of every piece is laid out with the look of its piece. -/
def Kept (pieces rs : List (StyleRange Style Node Deco)) : Prop :=
  ∀ piece ∈ pieces, ∀ i, piece.start ≤ i → i < piece.end_ → lookAt rs i = some piece.toLook

theorem foldl_join_concat (pieces : List (StyleRange Style Node Deco)) :
    (pieces ++ [piece]).foldl join [] = join (pieces.foldl join []) piece := by
  rw [List.foldl_append, List.foldl_cons, List.foldl_nil]

theorem tiles_foldl_join {pieces : List (StyleRange Style Node Deco)} (h : Tiles lo pieces hi) :
    Tiles lo (pieces.foldl join []) hi := by
  induction pieces using List.reverseRecOn generalizing hi with
  | nil => exact h
  | append_singleton pieces piece ih =>
      obtain ⟨hpieces, hlt, rfl⟩ := tiles_concat.mp h
      rw [foldl_join_concat]
      exact (ih hpieces).join hlt

theorem getLast_foldl_join (pieces : List (StyleRange Style Node Deco)) :
    ∃ init r, (pieces ++ [piece]).foldl join [] = init ++ [r] ∧
      r.toLook = given (pieces.foldl join []) piece ∧ r.end_ = piece.end_ := by
  rw [foldl_join_concat]
  rcases List.eq_nil_or_concat (pieces.foldl join []) with hnil | ⟨init, r, hconcat⟩
  · rw [hnil]
    exact ⟨[], piece, rfl, rfl, rfl⟩
  · rw [hconcat, List.concat_eq_append, join_concat, given_concat]
    split
    · exact ⟨init, _, rfl, rfl, rfl⟩
    · exact ⟨init ++ [r], piece, rfl, rfl, rfl⟩

theorem Look.joins_iff {a b : Look Style Node Deco} :
    a.joins b ↔ a.node = b.node ∧ a.raise = b.raise ∧ a.deco = b.deco := by
  rw [Look.joins, decide_eq_true_iff]

theorem Look.eq_iff_of_joins {a b : Look Style Node Deco} (h : a.joins b) : a = b ↔ a.style = b.style := by
  obtain ⟨hnode, hraise, hdeco⟩ := Look.joins_iff.mp h
  refine ⟨congrArg Look.style, fun hstyle => ?_⟩
  cases a
  cases b
  cases hstyle
  cases hnode
  cases hraise
  cases hdeco
  rfl

/-- The looks of the pieces are all kept exactly if the neighbours that join are of one style. -/
theorem kept_iff {pieces : List (StyleRange Style Node Deco)} (h : Tiles lo pieces hi) :
    Kept pieces (pieces.foldl join []) ↔ pieces.IsChain SameStyle := by
  induction pieces using List.reverseRecOn generalizing hi with
  | nil => exact iff_of_true (fun _ h => absurd h List.not_mem_nil) List.IsChain.nil
  | append_singleton pieces piece ih =>
      obtain ⟨hpieces, hlt, rfl⟩ := tiles_concat.mp h
      have htiles := tiles_foldl_join hpieces
      have hold : Kept (pieces ++ [piece]) ((pieces ++ [piece]).foldl join []) ↔
          Kept pieces (pieces.foldl join []) ∧ given (pieces.foldl join []) piece = piece.toLook := by
        rw [foldl_join_concat]
        constructor
        · intro hkept
          refine ⟨fun p hp i hlo hi => ?_, ?_⟩
          · have hin := hkept p (List.mem_append_left _ hp) i hlo hi
            rwa [lookAt_join_of_lt htiles (hi.trans_le (hpieces.end_le p hp)) hlt] at hin
          · have hin := hkept piece (List.mem_append_right _ List.mem_cons_self) piece.start le_rfl hlt
            rw [lookAt_join_self htiles le_rfl hlt] at hin
            exact Option.some.inj hin
        · rintro ⟨hkept, hgiven⟩ p hp i hlo hi
          rcases List.mem_append.mp hp with hp | hp
          · rw [lookAt_join_of_lt htiles (hi.trans_le (hpieces.end_le p hp)) hlt]
            exact hkept p hp i hlo hi
          · obtain rfl := List.mem_singleton.mp hp
            rw [lookAt_join_self htiles hlo hi, hgiven]
      rw [hold, ih hpieces, List.isChain_append]
      refine and_congr_right fun hchain => ?_
      rcases List.eq_nil_or_concat pieces with rfl | ⟨before, last, rfl⟩
      · exact iff_of_true rfl ⟨List.isChain_singleton _, fun x hx => absurd hx (by simp)⟩
      rw [List.concat_eq_append] at *
      obtain ⟨init, r, hranges, hlook, hend⟩ := @getLast_foldl_join _ _ _ last _ _ before
      obtain ⟨hbefore, hlast, hlast_end⟩ := tiles_concat.mp hpieces
      -- the last piece kept its look, so the last range has it
      have hkept := (ih hpieces).mpr hchain last (List.mem_append_right _ List.mem_cons_self) last.start le_rfl
        hlast
      rw [foldl_join_concat, lookAt_join_self (tiles_foldl_join hbefore) le_rfl hlast] at hkept
      rw [hranges, given_concat, hlook, Option.some.inj hkept, hend]
      have hsame : (List.IsChain SameStyle [piece] ∧
          ∀ x ∈ (before ++ [last]).getLast?, ∀ y ∈ [piece].head?, SameStyle x y) ↔ SameStyle last piece := by
        simp
      rw [hsame, SameStyle]
      by_cases hjoins : last.joins piece.toLook
      · rw [if_pos ⟨hjoins, hlast_end⟩, Look.eq_iff_of_joins hjoins]
        exact (imp_iff_right hjoins).symm
      · rw [if_neg fun h => hjoins h.1]
        exact iff_of_true rfl fun h => absurd h hjoins

end Looking

end Pelorus.Layout.Inline
