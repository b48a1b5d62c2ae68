import Pelorus.Layout.Inline.Run

/-
  Layout/Inline/Cuts.lean --- a text pushed in pieces (`px-layout/src/inline.rs`).

  `Sound` is kept by every call on a run, so it holds of every run (`sound_after`); `finish` keeps
  it too, but for the starts of boxes.  `cut_iff` puts the three together: the text is that of the
  whole, every character is laid out as its piece, and every offset is a boundary, exactly if the
  cuts are not noticed, pieces that join are of one style, and no box starts past the end.
-/
set_option autoImplicit false

namespace Pelorus.Layout.Inline

open Lib

/-- `is_char_boundary`: an offset that some characters from the start add up to. -/
def Boundary (text : Text) (offset : Nat) : Prop := ∃ before : Text, before <+: text ∧ before.len = offset

theorem boundary_len (text : Text) : Boundary text text.len := ⟨text, List.prefix_rfl, rfl⟩

variable {text : Text} {offset : Nat}

theorem Boundary.append (h : Boundary text offset) (more : Text) : Boundary (text ++ more) offset := by
  obtain ⟨before, hbefore, hlen⟩ := h
  exact ⟨before, hbefore.trans (List.prefix_append text more), hlen⟩

theorem len_mono {s t : Text} (h : s <+: t) : s.len ≤ t.len := by
  obtain ⟨more, rfl⟩ := h
  rw [Text.len_append]
  exact Nat.le_add_right _ _

theorem Boundary.le (h : Boundary text offset) : offset ≤ text.len := by
  obtain ⟨before, hbefore, rfl⟩ := h
  exact len_mono hbefore

/-- Of two starts of a text the longer in bytes goes on with the other. -/
theorem prefix_of_len_le {s t : Text} (hs : s <+: text) (ht : t <+: text) (h : s.len ≤ t.len) :
    s <+: t := by
  rcases List.prefix_or_prefix_of_prefix hs ht with hst | hts
  · exact hst
  · obtain ⟨more, rfl⟩ := hts
    have hmore : more = [] := by
      rw [Text.len_append] at h
      have hzero : Text.len more = 0 := by omega
      rw [Text.len, List.length_eq_zero_iff, Text.utf8_eq_nil] at hzero
      exact hzero
    rw [hmore, List.append_nil]

theorem Boundary.within {text' : Text} (h : Boundary text offset)
    (hpre : text' <+: text) (hle : offset ≤ text'.len) : Boundary text' offset := by
  obtain ⟨before, hbefore, rfl⟩ := h
  exact ⟨before, prefix_of_len_le hbefore hpre hle, rfl⟩

theorem Boundary.min {text text' : Text} {offset : Nat} (h : Boundary text offset) (hpre : text' <+: text) :
    Boundary text' (min offset text'.len) := by
  rcases Nat.le_total offset text'.len with hle | hle
  · rw [Nat.min_eq_left hle]
    exact h.within hpre hle
  · rw [Nat.min_eq_right hle]
    exact boundary_len text'

variable {Style Node Deco : Type}

/-- What every run keeps. -/
structure Sound (run : InlineRunData Style Node Deco) : Prop where
  tiles : Tiles 0 run.ranges run.text.len
  ranges : ∀ r ∈ run.ranges, Boundary run.text r.start ∧ Boundary run.text r.end_
  boxes : ∀ b ∈ run.boxes, Boundary run.text b.start ∧ Boundary run.text b.end_
  events : ∀ e ∈ run.events, Boundary run.text e.offset

/-! ## The end of a run -/

theorem finishedText_prefix (run : InlineRunData Style Node Deco) (ws : WhiteSpace) :
    run.finishedText ws <+: run.text := by
  cases ws with
  | normal => exact List.rdropWhile_prefix _ _
  | nowrap => exact List.rdropWhile_prefix _ _
  | pre => exact List.prefix_rfl
  | preWrap => exact List.prefix_rfl
  | preLine => exact List.prefix_rfl
  | breakSpaces => exact List.prefix_rfl

theorem mem_updateLast {α : Type} {f : α → α} {xs : List α} {x : α} (h : x ∈ updateLast f xs) :
    x ∈ xs ∨ ∃ y ∈ xs, x = f y := by
  rcases List.eq_nil_or_concat xs with rfl | ⟨init, last, rfl⟩
  · exact absurd h List.not_mem_nil
  · rw [List.concat_eq_append] at h ⊢
    rw [updateLast_concat] at h
    rcases List.mem_append.mp h with h | h
    · exact Or.inl (List.mem_append_left _ h)
    · exact Or.inr ⟨last, List.mem_append_right _ List.mem_cons_self, List.mem_singleton.mp h⟩

/-- A finished run is sound exactly if no box starts past the text that is left. -/
theorem sound_finish_iff {run : InlineRunData Style Node Deco} (h : Sound run) (ws : WhiteSpace) :
    Sound (run.finish ws) ↔ ∀ b ∈ run.boxes, b.start ≤ (run.finishedText ws).len := by
  have hpre := finishedText_prefix run ws
  constructor
  · intro hsound b hb
    exact (hsound.boxes _ (List.mem_map_of_mem hb)).1.le
  · intro hstart
    have htiles : Tiles 0 (run.finish ws).ranges (run.finishedText ws).len :=
      h.tiles.clip (len_mono hpre)
    refine ⟨htiles, fun r hr => ?_, fun b hb => ?_, fun e he => ?_⟩
    · have hend := htiles.end_le r hr
      have hlt := htiles.start_lt_end r hr
      rcases mem_updateLast hr with hold | ⟨old, hold, rfl⟩
      · have hb := h.ranges r ((List.rdropWhile_prefix _ _).subset hold)
        exact ⟨hb.1.within hpre (hlt.le.trans hend), hb.2.within hpre hend⟩
      · have hb := h.ranges old ((List.rdropWhile_prefix _ _).subset hold)
        exact ⟨hb.1.within hpre (hlt.le.trans hend), hb.2.min hpre⟩
    · obtain ⟨old, hold, rfl⟩ := List.mem_map.mp hb
      exact ⟨(h.boxes old hold).1.within hpre (hstart old hold), (h.boxes old hold).2.min hpre⟩
    · obtain ⟨old, hold, rfl⟩ := List.mem_map.mp he
      exact (h.events old (List.mem_of_mem_filter hold)).min hpre

section Runs
variable [DecidableEq Node] [DecidableEq Deco]

theorem mem_join {ranges : List (StyleRange Style Node Deco)} {piece r : StyleRange Style Node Deco}
    (h : r ∈ join ranges piece) :
    r = piece ∨ ∃ old ∈ ranges, r.start = old.start ∧ (r.end_ = old.end_ ∨ r.end_ = piece.end_) := by
  rcases List.eq_nil_or_concat ranges with rfl | ⟨init, last, rfl⟩
  · exact Or.inl (List.mem_singleton.mp h)
  · rw [List.concat_eq_append] at h ⊢
    rw [join_concat] at h
    split at h
    · rcases List.mem_append.mp h with h | h
      · exact Or.inr ⟨r, List.mem_append_left _ h, rfl, Or.inl rfl⟩
      · obtain rfl := List.mem_singleton.mp h
        exact Or.inr ⟨last, List.mem_append_right _ List.mem_cons_self, rfl, Or.inr rfl⟩
    · rcases List.mem_append.mp h with h | h
      · exact Or.inr ⟨r, h, rfl, Or.inl rfl⟩
      · exact Or.inl (List.mem_singleton.mp h)

/-- Text that is laid down after what was there. -/
theorem Sound.lay {run : InlineRunData Style Node Deco} (h : Sound run) (more : Text)
    (look : Look Style Node Deco) :
    Sound (InlineRunData.extendRange { run with text := run.text ++ more } run.text.len look) := by
  have hboxes : ∀ b ∈ run.boxes, Boundary (run.text ++ more) b.start ∧ Boundary (run.text ++ more) b.end_ :=
    fun b hb => ⟨(h.boxes b hb).1.append more, (h.boxes b hb).2.append more⟩
  have hevents : ∀ e ∈ run.events, Boundary (run.text ++ more) e.offset :=
    fun e he => (h.events e he).append more
  have hranges : ∀ r ∈ run.ranges,
      Boundary (run.text ++ more) r.start ∧ Boundary (run.text ++ more) r.end_ :=
    fun r hr => ⟨(h.ranges r hr).1.append more, (h.ranges r hr).2.append more⟩
  rw [InlineRunData.extendRange]
  split
  · refine ⟨?_, hranges, hboxes, hevents⟩
    have hlen : (run.text ++ more).len = run.text.len :=
      Nat.le_antisymm ‹_› (len_mono (List.prefix_append _ _))
    simp only [hlen]
    exact h.tiles
  · refine ⟨h.tiles.join (Nat.lt_of_not_le ‹_›), fun r hr => ?_, hboxes, hevents⟩
    rcases mem_join hr with rfl | ⟨old, hold, hstart, hend | hend⟩
    · exact ⟨(boundary_len run.text).append more, boundary_len _⟩
    · rw [hstart, hend]
      exact hranges old hold
    · rw [hstart, hend]
      exact ⟨(hranges old hold).1, boundary_len _⟩

/-! ## Calls -/

theorem appendText_eq (ws : WhiteSpace) (text raw : Text) :
    ∃ more, appendText ws text raw = text ++ more := by
  cases ws with
  | normal => exact ⟨_, rfl⟩
  | nowrap => exact ⟨_, rfl⟩
  | pre => exact ⟨_, rfl⟩
  | preWrap => exact ⟨_, rfl⟩
  | preLine => exact ⟨_, rfl⟩
  | breakSpaces => exact ⟨_, rfl⟩

theorem mem_modify {α : Type} {f : α → α} {i : Nat} {xs : List α} {x : α} (h : x ∈ xs.modify i f) :
    x ∈ xs ∨ ∃ y ∈ xs, x = f y := by
  obtain ⟨k, hk⟩ := List.mem_iff_getElem?.mp h
  rw [List.getElem?_modify] at hk
  split at hk
  · obtain ⟨y, hy, rfl⟩ := Option.map_eq_some_iff.mp hk
    exact Or.inr ⟨y, List.mem_of_getElem? hy, rfl⟩
  · obtain ⟨y, hy, rfl⟩ := Option.map_eq_some_iff.mp hk
    exact Or.inl (List.mem_of_getElem? hy)

@[simp] theorem extendRange_text (run : InlineRunData Style Node Deco) (start : Nat)
    (look : Look Style Node Deco) :
    (run.extendRange start look).text = run.text := by
  rw [InlineRunData.extendRange]
  split
  · rfl
  · rfl

variable (transform : Style → Option (Text → Option Char → Text))

theorem Sound.step {run : InlineRunData Style Node Deco} (h : Sound run) (op : Op Style Node Deco) :
    Sound (run.step transform op) := by
  cases op with
  | pushText raw ws look =>
      simp only [InlineRunData.step, InlineRunData.pushText]
      obtain ⟨more, hmore⟩ := appendText_eq ws run.text (run.transformed transform raw look.style)
      rw [hmore]
      exact h.lay more look
  | pushChar ch look => exact h.lay [ch] look
  | openBox =>
      refine ⟨h.tiles, h.ranges, fun b hb => ?_, fun e he => ?_⟩
      · rcases List.mem_append.mp hb with hb | hb
        · exact h.boxes b hb
        · obtain rfl := List.mem_singleton.mp hb
          exact ⟨boundary_len _, boundary_len _⟩
      · rcases List.mem_append.mp he with he | he
        · exact h.events e he
        · obtain rfl := List.mem_singleton.mp he
          exact boundary_len _
  | closeBox owner =>
      refine ⟨h.tiles, h.ranges, fun b hb => ?_, fun e he => ?_⟩
      · rcases mem_modify hb with hb | ⟨old, hold, rfl⟩
        · exact h.boxes b hb
        · exact ⟨(h.boxes old hold).1, boundary_len _⟩
      · rcases List.mem_append.mp he with he | he
        · exact h.events e he
        · obtain rfl := List.mem_singleton.mp he
          exact boundary_len _
  | pushAtomic node look =>
      have hpushed := h.lay [OBJECT] look
      exact ⟨hpushed.tiles, hpushed.ranges, hpushed.boxes, hpushed.events⟩

theorem sound_after (ops : List (Op Style Node Deco)) :
    Sound (({} : InlineRunData Style Node Deco).after transform ops) := by
  have hfold : ∀ (ops : List (Op Style Node Deco)) (run : InlineRunData Style Node Deco), Sound run →
      Sound (run.after transform ops) := by
    intro ops
    induction ops with
    | nil => exact fun _ h => h
    | cons op ops ih => exact fun run h => ih _ (h.step transform op)
  refine hfold ops {} ⟨rfl, ?_, ?_, ?_⟩
  · exact fun r hr => absurd hr List.not_mem_nil
  · exact fun b hb => absurd hb List.not_mem_nil
  · exact fun e he => absurd he List.not_mem_nil

/-- The ranges after a call are those before it with what it laid down. -/
theorem ranges_step (run : InlineRunData Style Node Deco) (op : Op Style Node Deco) :
    (run.step transform op).ranges = (op.extent transform run).toList.foldl join run.ranges := by
  have hextend : ∀ (grown : InlineRunData Style Node Deco) (look : Look Style Node Deco),
      grown.ranges = run.ranges →
      (grown.extendRange run.text.len look).ranges = ((if grown.text.len ≤ run.text.len then none
        else some { look with start := run.text.len, end_ := grown.text.len }) :
          Option (StyleRange Style Node Deco)).toList.foldl join run.ranges := by
    intro grown look hranges
    rw [InlineRunData.extendRange]
    split
    · exact hranges
    · simp only [hranges]
      rfl
  cases op with
  | pushText raw ws look =>
      simp only [InlineRunData.step, InlineRunData.pushText, Op.extent, Op.look, Option.bind_some,
        extendRange_text]
      exact hextend _ look rfl
  | pushChar ch look =>
      simp only [InlineRunData.step, InlineRunData.pushChar, Op.extent, Op.look, Option.bind_some,
        extendRange_text]
      exact hextend _ look rfl
  | openBox => rfl
  | closeBox owner => rfl
  | pushAtomic node look =>
      simp only [InlineRunData.step, InlineRunData.pushAtomic, InlineRunData.pushChar, Op.extent, Op.look,
        Option.bind_some, extendRange_text]
      exact hextend _ look rfl

/-- Every call goes on with the text. -/
theorem prefix_step (run : InlineRunData Style Node Deco) (op : Op Style Node Deco) :
    run.text <+: (run.step transform op).text := by
  cases op with
  | pushText raw ws look =>
      simp only [InlineRunData.step, InlineRunData.pushText, extendRange_text]
      obtain ⟨more, hmore⟩ := appendText_eq ws run.text (run.transformed transform raw look.style)
      exact ⟨more, hmore.symm⟩
  | pushChar ch look =>
      simp only [InlineRunData.step, InlineRunData.pushChar, extendRange_text]
      exact List.prefix_append _ _
  | openBox => exact List.prefix_rfl
  | closeBox owner => exact List.prefix_rfl
  | pushAtomic node look =>
      simp only [InlineRunData.step, InlineRunData.pushAtomic, InlineRunData.pushChar, extendRange_text]
      exact List.prefix_append _ _

theorem step_text_of_look_eq_none (run : InlineRunData Style Node Deco) {op : Op Style Node Deco}
    (h : op.look = none) : (run.step transform op).text = run.text := by
  cases op with
  | pushText raw ws look => cases h
  | pushChar ch look => cases h
  | openBox => rfl
  | closeBox owner => rfl
  | pushAtomic node look => cases h

/-- What the calls lay down tiles what they append. -/
theorem tiles_extents (ops : List (Op Style Node Deco)) : ∀ run : InlineRunData Style Node Deco,
    Tiles run.text.len (extents transform run ops) (run.after transform ops).text.len := by
  induction ops with
  | nil => exact fun _ => rfl
  | cons op ops ih =>
      intro run
      have hle := len_mono (prefix_step transform run op)
      refine tiles_append.mpr ⟨(run.step transform op).text.len, ?_, ih _⟩
      rw [Op.extent]
      cases hlook : op.look with
      | none =>
          rw [step_text_of_look_eq_none transform run hlook]
          rfl
      | some look =>
          rw [Option.bind_some]
          split
          · exact Nat.le_antisymm hle ‹_›
          · exact ⟨rfl, Nat.lt_of_not_le ‹_›, rfl⟩

theorem ranges_after (ops : List (Op Style Node Deco)) : ∀ run : InlineRunData Style Node Deco,
    (run.after transform ops).ranges = (extents transform run ops).foldl join run.ranges := by
  induction ops with
  | nil => exact fun _ => rfl
  | cons op ops ih =>
      intro run
      rw [extents, List.foldl_append, ← ranges_step, ← ih]
      rfl

end Runs

/-! ## A text in pieces -/

/-- A piece of a text: it has no forced break but CR and LF, and its style does not transform it. -/
structure Piece (Node Deco : Type) (transform : Style → Option (Text → Option Char → Text)) where
  raw : Text
  look : Look Style Node Deco
  free : Free raw
  plain : transform look.style = none

/-- What stands from the first piece of a text to the last: pieces, and the starts and ends of boxes. -/
inductive Mark (Node Deco : Type) (transform : Style → Option (Text → Option Char → Text)) where
  | piece (p : Piece Node Deco transform)
  | openBox
  | closeBox (owner : Nat)

section Marks
variable {transform : Style → Option (Text → Option Char → Text)}

def Mark.op (ws : WhiteSpace) : Mark Node Deco transform → Op Style Node Deco
  | .piece p => .pushText p.raw ws p.look
  | .openBox => .openBox
  | .closeBox owner => .closeBox owner

/-- The text of a mark, if it has one. -/
def Mark.raws : Mark Node Deco transform → List Text
  | .piece p => [p.raw]
  | .openBox | .closeBox _ => []

variable [DecidableEq Node] [DecidableEq Deco]

theorem pushText_text {run : InlineRunData Style Node Deco} {raw : Text} {ws : WhiteSpace}
    {look : Look Style Node Deco} (hplain : transform look.style = none) :
    (run.pushText transform raw ws look).text = appendText ws run.text raw := by
  rw [InlineRunData.pushText, extendRange_text, InlineRunData.transformed, hplain]

theorem text_after_marks (ws : WhiteSpace) (marks : List (Mark Node Deco transform)) :
    ∀ run : InlineRunData Style Node Deco, (run.after transform (marks.map (Mark.op ws))).text =
      (marks.flatMap Mark.raws).foldl (appendText ws) run.text := by
  induction marks with
  | nil => exact fun _ => rfl
  | cons mark marks ih =>
      intro run
      rw [List.flatMap_cons, List.foldl_append]
      cases mark with
      | piece p =>
          have hpush : (run.pushText transform p.raw ws p.look).text = appendText ws run.text p.raw :=
            pushText_text p.plain
          exact (ih _).trans (congrArg ((marks.flatMap Mark.raws).foldl (appendText ws)) hpush)
      | openBox => exact ih _
      | closeBox owner => exact ih _

/-- A text pushed in pieces is the text, each character looks as its piece does, and the offsets of the
    finished run are boundaries, exactly if no cut is noticed, pieces that join are of one style and no box
    starts past the end. -/
theorem cut_iff (ws : WhiteSpace) (before : List (Op Style Node Deco))
    (marks : List (Mark Node Deco transform)) (whole : {look : Look Style Node Deco // transform look.style = none}) :
    let run := ({} : InlineRunData Style Node Deco).after transform before
    let cut := run.after transform (marks.map (Mark.op ws))
    let pieces := extents transform {} (before ++ marks.map (Mark.op ws))
    (cut.text = (run.pushText transform (marks.flatMap Mark.raws).flatten ws whole.1).text ∧
        Tiles 0 cut.ranges cut.text.len ∧ Kept pieces cut.ranges ∧ Sound (cut.finish ws)) ↔
      EachCut (Fits ws) (marks.flatMap Mark.raws) ∧ pieces.IsChain SameStyle ∧
        ∀ b ∈ cut.boxes, b.start ≤ (cut.finishedText ws).len := by
  intro run cut pieces
  have hcut : cut = ({} : InlineRunData Style Node Deco).after transform (before ++ marks.map (Mark.op ws)) :=
    (List.foldl_append ..).symm
  have hsound : Sound cut := hcut ▸ sound_after transform _
  have hpieces : Tiles 0 pieces cut.text.len := hcut ▸ tiles_extents transform _ {}
  have hranges : cut.ranges = pieces.foldl join [] := hcut ▸ ranges_after transform _ {}
  have hfree : ∀ raw ∈ marks.flatMap Mark.raws, Free raw := by
    intro raw hraw
    obtain ⟨mark, -, hraw⟩ := List.mem_flatMap.mp hraw
    cases mark with
    | piece p =>
        obtain rfl := List.mem_singleton.mp hraw
        exact p.free
    | openBox => exact absurd hraw List.not_mem_nil
    | closeBox owner => exact absurd hraw List.not_mem_nil
  have htext : cut.text = (run.pushText transform (marks.flatMap Mark.raws).flatten ws whole.1).text ↔
      EachCut (Fits ws) (marks.flatMap Mark.raws) := by
    rw [text_after_marks, pushText_text whole.2, appendText_pieces_iff ws _ hfree]
  have hkept : Kept pieces cut.ranges ↔ pieces.IsChain SameStyle := by
    rw [hranges, kept_iff hpieces]
  rw [htext, hkept, sound_finish_iff hsound, and_iff_right hsound.tiles]

/-- In `pre-line` the space between two words is lost when an element starts after it. -/
theorem pre_line_loses_space :
    (({} : InlineRunData Unit Nat Unit).after (fun _ => none)
        [.pushText "a ".toList .preLine ⟨(), some 1, 0, ()⟩,
          .pushText "b".toList .preLine ⟨(), some 2, 0, ()⟩]).text = "ab".toList ∧
      (({} : InlineRunData Unit Nat Unit).pushText (fun _ => none) "a b".toList .preLine
        ⟨(), some 1, 0, ()⟩).text = "a b".toList := by
  decide

end Marks

end Pelorus.Layout.Inline
