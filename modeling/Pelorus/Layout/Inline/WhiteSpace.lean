import Pelorus.Lib.Text

/-
  Layout/Inline/WhiteSpace.lean --- white space of a text, and of its pieces
  (`px-layout/src/inline.rs`, `px-text/src/linebreak.rs`).

  Where white space collapses on the line the pieces of a text are processed against what is
  already there (`squeeze`), and it does not matter where the text was cut.  The other modes
  process each piece alone (`collapseFor`).  Then it does: a cut between CR and LF makes one line
  break more, and in `pre-line` a cut at a space between two words loses the space.
  `appendText_pieces_iff` says that these two are all.
-/
set_option autoImplicit false

namespace Pelorus.Layout.Inline

open Lib

/-- CSS `white-space`. -/
inductive WhiteSpace where
  | normal
  | nowrap
  | pre
  | preWrap
  | preLine
  | breakSpaces
  deriving DecidableEq, Repr

def isForcedBreak (c : Char) : Bool :=
  c ∈ ['\n', '\r', '\u000b', '\u000c', '\u0085', '\u2028', '\u2029']

/-- A space or a tab. -/
def isBlank (c : Char) : Bool := c = ' ' ∨ c = '\t'

/-- CR or LF. -/
def isNewline (c : Char) : Bool := c = '\n' ∨ c = '\r'

/-- What `push_text` makes one space of. -/
def isCollapsible (c : Char) : Bool := c ∈ [' ', '\t', '\n', '\r', '\u000c']

/-- Whether a space would come after another, or at the start of a line. -/
def lastSpace (text : Text) : Bool := text.getLast?.all fun c => c = ' ' ∨ isForcedBreak c

/-- The loop of `push_text` where white space collapses: what it appends. -/
def squeeze (last : Bool) : Text → Text
  | [] => []
  | c :: rest =>
      if isCollapsible c then
        if last then squeeze true rest else ' ' :: squeeze true rest
      else c :: squeeze false rest

def collapseWhitespace (out : Text) (inSpace : Bool) : Text → Text
  | [] => out
  | c :: rest =>
      if Text.isWhitespace c then collapseWhitespace out true rest
      else collapseWhitespace ((if inSpace ∧ out ≠ [] then out ++ [' '] else out) ++ [c]) false rest

/-- The loop of `collapse_for` for `pre-line`. -/
def preLine (out : Text) (pending : Bool) : Text → Text
  | [] => out
  | c :: rest =>
      if c = '\r' ∧ rest.head? = some '\n' then preLine out pending rest
      else if isNewline c then preLine (out.rdropWhile (· = ' ') ++ ['\n']) false rest
      else if isBlank c then preLine out true rest
      else
        preLine ((if pending ∧ out ≠ [] ∧ out.getLast? ≠ some '\n' then out ++ [' '] else out) ++ [c])
          false rest

/-- The loop of `collapse_for` where everything is kept. -/
def preserve : Text → Text
  | [] => []
  | c :: rest =>
      if c = '\t' then List.replicate 8 ' ' ++ preserve rest
      else if c = '\r' then
        if rest.head? ≠ some '\n' then '\n' :: preserve rest else preserve rest
      else c :: preserve rest

def collapseFor (ws : WhiteSpace) (text : Text) : Text :=
  match ws with
  | .normal | .nowrap => collapseWhitespace [] false text
  | .preLine => preLine [] false text
  | .pre | .preWrap | .breakSpaces => preserve text

/-- The text after `push_text`. -/
def appendText (ws : WhiteSpace) (text raw : Text) : Text :=
  match ws with
  | .normal | .nowrap => text ++ squeeze (lastSpace text) raw
  | ws => text ++ collapseFor ws raw

/-! ## Where white space collapses on the line -/

theorem lastSpace_append_singleton (text : Text) (c : Char) :
    lastSpace (text ++ [c]) = decide (c = ' ' ∨ isForcedBreak c) := by
  rw [lastSpace, List.getLast?_append]
  rfl

/-- A text with no forced break but CR and LF. -/
def Free (raw : Text) : Prop := ∀ c ∈ raw, isForcedBreak c → isNewline c

/-- What was appended tells whether the next space is dropped. -/
theorem squeeze_append (a b : Text) (ha : Free a) : ∀ text : Text,
    text ++ squeeze (lastSpace text) (a ++ b) =
      (text ++ squeeze (lastSpace text) a) ++ squeeze (lastSpace (text ++ squeeze (lastSpace text) a)) b := by
  induction a with
  | nil =>
      intro text
      simp only [List.nil_append, squeeze, List.append_nil]
  | cons c a ih =>
      intro text
      have ih := ih fun d hd => ha d (List.mem_cons_of_mem _ hd)
      rw [List.cons_append, squeeze, squeeze]
      by_cases hc : isCollapsible c
      · rw [if_pos hc, if_pos hc]
        cases hlast : lastSpace text with
        | true =>
            have h := ih text
            rw [hlast] at h
            exact h
        | false =>
            have h := ih (text ++ [' '])
            have hspace : lastSpace (text ++ [' ']) = true := lastSpace_append_singleton text ' '
            rw [hspace] at h
            simpa only [Bool.false_eq_true, if_false, List.append_assoc, List.singleton_append] using h
      · rw [if_neg hc, if_neg hc]
        have hword : lastSpace (text ++ [c]) = false := by
          rw [lastSpace_append_singleton]
          refine decide_eq_false (not_or.mpr ⟨?_, fun hforced => ?_⟩)
          · rintro rfl
            exact hc rfl
          · have hnewline := ha c List.mem_cons_self hforced
            rw [isNewline, decide_eq_true_eq] at hnewline
            rcases hnewline with rfl | rfl
            · exact hc rfl
            · exact hc rfl
        have h := ih (text ++ [c])
        rw [hword] at h
        simpa only [List.append_assoc, List.singleton_append] using h

/-! ## Line breaks -/

/-- The line breaks of a text, where CR LF is one. -/
def breaks : Text → Nat
  | [] => 0
  | c :: rest => (if c = '\n' ∨ (c = '\r' ∧ rest.head? ≠ some '\n') then 1 else 0) + breaks rest

/-- A cut between CR and LF. -/
def Split (a b : Text) : Prop := a.getLast? = some '\r' ∧ b.head? = some '\n'

instance (a b : Text) : Decidable (Split a b) := inferInstanceAs (Decidable (_ ∧ _))

theorem split_cons {c d : Char} {a b : Text} : Split (c :: d :: a) b ↔ Split (d :: a) b := Iff.rfl

theorem breaks_append (a b : Text) :
    breaks (a ++ b) + (if Split a b then 1 else 0) = breaks a + breaks b := by
  induction a with
  | nil =>
      have hnot : ¬Split [] b := fun h => nomatch h.1
      rw [if_neg hnot, List.nil_append, breaks, Nat.zero_add, Nat.add_zero]
  | cons c a ih =>
      cases a with
      | nil =>
          rw [List.cons_append, List.nil_append, breaks, breaks, breaks]
          by_cases hc : c = '\r'
          · subst hc
            by_cases hb : b.head? = some '\n'
            · have hsplit : Split ['\r'] b := ⟨rfl, hb⟩
              simp [hsplit, hb, Nat.add_comm]
            · have hnot : ¬Split ['\r'] b := fun h => hb h.2
              simp [hnot, hb]
          · have hnot : ¬Split [c] b := fun h => hc (Option.some.inj h.1)
            simp [hc, hnot]
      | cons d a =>
          rw [if_congr split_cons rfl rfl, List.cons_append, breaks, breaks]
          have hhead : (d :: a ++ b).head? = (d :: a).head? := rfl
          rw [hhead]
          omega

theorem count_preserve (s : Text) : (preserve s).count '\n' = breaks s := by
  induction s with
  | nil => rfl
  | cons c s ih =>
      rw [preserve, breaks, ← ih]
      by_cases htab : c = '\t'
      · subst htab
        simp
      · rw [if_neg htab]
        by_cases hcr : c = '\r'
        · subst hcr
          by_cases hhead : s.head? = some '\n'
          · simp [hhead]
          · simp [hhead, Nat.add_comm]
        · by_cases hlf : c = '\n'
          · simp [hlf, Nat.add_comm]
          · simp [hcr, hlf]

theorem preserve_append {a b : Text} (h : ¬Split a b) : preserve (a ++ b) = preserve a ++ preserve b := by
  induction a with
  | nil => rfl
  | cons c a ih =>
      have hhead : c = '\r' → ((a ++ b).head? ≠ some '\n' ↔ a.head? ≠ some '\n') := by
        rintro rfl
        cases a with
        | nil => exact iff_of_true (fun hb => h ⟨rfl, hb⟩) (by simp)
        | cons d a => exact Iff.rfl
      have ih := ih (by
        cases a with
        | nil => exact fun h => nomatch h.1
        | cons d a => exact mt split_cons.mpr h)
      rw [List.cons_append, preserve, preserve, ih]
      by_cases htab : c = '\t'
      · rw [if_pos htab, if_pos htab, List.append_assoc]
      · rw [if_neg htab, if_neg htab]
        by_cases hcr : c = '\r'
        · rw [if_pos hcr, if_pos hcr, if_congr (hhead hcr) rfl rfl]
          split
          · rfl
          · rfl
        · rw [if_neg hcr, if_neg hcr]
          rfl

/-! ## Spaces around line breaks -/

/-- What `pre-line` appends: where the text so far is empty or ends in a line break, and where a space
    waits for a word to stand before. -/
def lineText (fresh pending : Bool) : Text → Text
  | [] => []
  | c :: rest =>
      if c = '\r' ∧ rest.head? = some '\n' then lineText fresh pending rest
      else if isNewline c then '\n' :: lineText true false rest
      else if isBlank c then lineText fresh true rest
      else (if pending ∧ ¬fresh then [' ', c] else [c]) ++ lineText false false rest

/-- No text of `pre-line` ends in a space, so none is taken off again. -/
theorem preLine_eq (s : Text) : ∀ (out : Text) (pending : Bool), out.getLast? ≠ some ' ' →
    preLine out pending s = out ++ lineText (out.getLast?.all (· = '\n')) pending s := by
  induction s with
  | nil =>
      intro out pending _
      rw [preLine, lineText, List.append_nil]
  | cons c s ih =>
      intro out pending hout
      rw [preLine, lineText]
      by_cases hskip : c = '\r' ∧ s.head? = some '\n'
      · rw [if_pos hskip, if_pos hskip]
        exact ih out pending hout
      rw [if_neg hskip, if_neg hskip]
      by_cases hnewline : isNewline c
      · have hkeep : out.rdropWhile (· = ' ') = out := by
          rw [List.rdropWhile_eq_self_iff]
          intro hne hlast
          exact hout (by rw [List.getLast?_eq_getLast_of_ne_nil hne, of_decide_eq_true hlast])
        rw [if_pos hnewline, if_pos hnewline, hkeep, ih _ _ (by simp), List.append_assoc]
        simp
      rw [if_neg hnewline, if_neg hnewline]
      by_cases hblank : isBlank c
      · rw [if_pos hblank, if_pos hblank]
        exact ih out true hout
      rw [if_neg hblank, if_neg hblank, ih _ _ (by
        rw [List.getLast?_append]
        rintro h
        cases h
        exact hblank rfl)]
      have hfresh : (out ≠ [] ∧ out.getLast? ≠ some '\n') ↔ ¬(out.getLast?.all (· = '\n')) := by
        cases hlast : out.getLast? with
        | none => simpa using hlast
        | some d =>
            have hne : out ≠ [] := by
              rintro rfl
              cases hlast
            simp [hne]
      have hword : (c = '\n') = False := by
        rw [isNewline, decide_eq_true_eq] at hnewline
        exact eq_false fun h => hnewline (Or.inl h)
      simp only [hfresh, List.getLast?_append, List.getLast?_singleton, Option.some_or, Option.all_some,
        hword, decide_false]
      split
      · rw [List.append_assoc, List.append_assoc]
        rfl
      · rw [List.append_assoc]

theorem collapseFor_preLine (s : Text) : collapseFor .preLine s = lineText true false s :=
  preLine_eq s [] false nofun

theorem count_lineText (s : Text) : ∀ fresh pending : Bool,
    (lineText fresh pending s).count '\n' = breaks s := by
  induction s with
  | nil => exact fun _ _ => rfl
  | cons c s ih =>
      intro fresh pending
      rw [lineText, breaks]
      by_cases hskip : c = '\r' ∧ s.head? = some '\n'
      · rw [if_pos hskip, if_neg, Nat.zero_add]
        · exact ih fresh pending
        · rintro (rfl | h)
          · exact absurd hskip.1 (by decide)
          · exact h.2 hskip.2
      rw [if_neg hskip]
      by_cases hnewline : isNewline c
      · have hbreak : c = '\n' ∨ (c = '\r' ∧ s.head? ≠ some '\n') := by
          rw [isNewline, decide_eq_true_eq] at hnewline
          exact hnewline.imp_right fun hc => ⟨hc, fun hhead => hskip ⟨hc, hhead⟩⟩
        rw [if_pos hnewline, if_pos hbreak, List.count_cons_self, ih, Nat.add_comm]
      have hnot : ¬(c = '\n' ∨ (c = '\r' ∧ s.head? ≠ some '\n')) := by
        rw [isNewline, decide_eq_true_eq] at hnewline
        exact fun h => hnewline (h.imp_right And.left)
      have hne : c ≠ '\n' := fun h => hnot (Or.inl h)
      rw [if_neg hnewline, if_neg hnot, Nat.zero_add]
      by_cases hblank : isBlank c
      · rw [if_pos hblank]
        exact ih fresh true
      · rw [if_neg hblank, List.count_append, ih]
        split
        · simp [hne]
        · simp [hne]

theorem not_blank_of_newline {c : Char} (h : isNewline c) : isBlank c = false := by
  rw [isNewline, decide_eq_true_eq] at h
  rcases h with rfl | rfl <;> rfl

/-- How one character changes where the text of `pre-line` is. -/
def lineStep (state : Bool × Bool) (c : Char) : Bool × Bool :=
  if isNewline c then (true, false) else if isBlank c then (state.1, true) else (false, false)

theorem lineText_append {a b : Text} (h : ¬Split a b) : ∀ state : Bool × Bool,
    lineText state.1 state.2 (a ++ b) =
      lineText state.1 state.2 a ++ lineText (a.foldl lineStep state).1 (a.foldl lineStep state).2 b := by
  induction a with
  | nil => exact fun _ => rfl
  | cons c a ih =>
      intro state
      have ih := ih (by
        cases a with
        | nil => exact fun h => nomatch h.1
        | cons d a => exact mt split_cons.mpr h)
      have hhead : c = '\r' ∧ (a ++ b).head? = some '\n' ↔ c = '\r' ∧ a.head? = some '\n' := by
        cases a with
        | nil => exact iff_of_false (fun hb => h ⟨congrArg some hb.1, hb.2⟩) (fun hb => nomatch hb.2)
        | cons d a => exact Iff.rfl
      rw [List.cons_append, lineText, lineText, List.foldl_cons]
      by_cases hskip : c = '\r' ∧ a.head? = some '\n'
      · rw [if_pos hskip, if_pos (hhead.mpr hskip), ih state]
        -- the line feed that follows starts a line, whatever was before
        obtain ⟨hc, d⟩ := hskip
        cases a with
        | nil => cases d
        | cons d a =>
            cases d
            rfl
      rw [if_neg hskip, if_neg (mt hhead.mp hskip)]
      by_cases hnewline : isNewline c
      · rw [if_pos hnewline, if_pos hnewline, lineStep, if_pos hnewline, ih (true, false)]
        rfl
      rw [if_neg hnewline, if_neg hnewline, lineStep, if_neg hnewline]
      by_cases hblank : isBlank c
      · rw [if_pos hblank, if_pos hblank, if_pos hblank, ih (state.1, true)]
      · rw [if_neg hblank, if_neg hblank, if_neg hblank, ih (false, false), List.append_assoc]

/-- A character of a word: neither a line break nor a space. -/
def isWord (c : Char) : Bool := !isNewline c && !isBlank c

/-- What was before matters up to the first word. -/
theorem lineText_fresh (b : Text) : ∀ fresh pending : Bool,
    lineText fresh pending b =
      (if fresh = false ∧ (pending ∨ b.head?.any isBlank) ∧ (b.dropWhile isBlank).head?.any isWord then [' ']
        else []) ++ lineText true false b := by
  induction b with
  | nil =>
      intro fresh pending
      simp [lineText]
  | cons c b ih =>
      intro fresh pending
      rw [lineText, lineText]
      by_cases hskip : c = '\r' ∧ b.head? = some '\n'
      · have hblank : isBlank c = false := by
          rw [hskip.1]
          rfl
        have hword : isWord c = false := by
          rw [hskip.1]
          rfl
        have hnext : (b.dropWhile isBlank).head?.any isWord = false := by
          cases b with
          | nil => rfl
          | cons d b =>
              cases hskip.2
              rfl
        rw [if_pos hskip, if_pos hskip, ih fresh pending, hnext]
        simp [hblank, hword]
      rw [if_neg hskip, if_neg hskip]
      by_cases hnewline : isNewline c
      · have hblank := not_blank_of_newline hnewline
        simp [hnewline, hblank, isWord]
      rw [if_neg hnewline, if_neg hnewline]
      by_cases hblank : isBlank c
      · rw [if_pos hblank, if_pos hblank, ih fresh true, ih true true]
        simp [hblank]
      · have hword : isWord c = true := by simp [isWord, hnewline, hblank]
        rw [if_neg hblank, if_neg hblank]
        cases fresh with
        | true => simp
        | false =>
            cases pending with
            | true => simp [hblank, hword]
            | false => simp [hblank]

/-- A cut at a space between two words of a line. -/
def Joins (a b : Text) : Prop :=
  (a.getLast?.any isBlank ∨ b.head?.any isBlank) ∧ (a.rdropWhile isBlank).getLast?.any isWord ∧
    (b.dropWhile isBlank).head?.any isWord

instance (a b : Text) : Decidable (Joins a b) := inferInstanceAs (Decidable (_ ∧ _ ∧ _))

/-- The state after a text, from its end. -/
theorem foldl_lineStep (a : Text) :
    a.foldl lineStep (true, false) =
      (!(a.rdropWhile isBlank).getLast?.any isWord, a.getLast?.any isBlank) := by
  induction a using List.reverseRecOn with
  | nil => rfl
  | append_singleton a c ih =>
      rw [List.foldl_append, ih, List.foldl_cons, List.foldl_nil, lineStep, List.rdropWhile_concat]
      by_cases hnewline : isNewline c
      · have hblank := not_blank_of_newline hnewline
        simp [hnewline, hblank, isWord]
      · by_cases hblank : isBlank c
        · simp [hnewline, hblank]
        · simp [hnewline, hblank, isWord]

/-- Two texts processed apart, and as one. -/
theorem preLine_append {a b : Text} (h : ¬Split a b) :
    collapseFor .preLine (a ++ b) =
      collapseFor .preLine a ++ ((if Joins a b then [' '] else []) ++ collapseFor .preLine b) := by
  rw [collapseFor_preLine, collapseFor_preLine, collapseFor_preLine, lineText_append h (true, false),
    foldl_lineStep, lineText_fresh b]
  congr 3
  simp only [Joins, eq_iff_iff, Bool.not_eq_false']
  tauto

/-! ## Pieces -/

/-- Of every cut between the pieces, what is before and all that is after are so related. -/
def EachCut (R : Text → Text → Prop) : List Text → Prop
  | [] => True
  | piece :: pieces => R piece pieces.flatten ∧ EachCut R pieces

instance decidableEachCut {R : Text → Text → Prop} [∀ a b, Decidable (R a b)] :
    ∀ pieces : List Text, Decidable (EachCut R pieces)
  | [] => isTrue trivial
  | _ :: pieces => @instDecidableAnd _ _ inferInstance (decidableEachCut pieces)

section Apart

/-! A function of texts that adds up over a cut, but for a line break more or a space less. -/

variable {f : Text → Text} {J : Text → Text → Prop} [∀ a b, Decidable (J a b)]

/-- The pieces have no fewer line breaks than the whole. -/
theorem count_flatMap_ge (hcount : ∀ s, (f s).count '\n' = breaks s) (pieces : List Text) :
    breaks pieces.flatten ≤ (pieces.flatMap f).count '\n' := by
  induction pieces with
  | nil => exact Nat.zero_le _
  | cons piece pieces ih =>
      have hsum := breaks_append piece pieces.flatten
      rw [List.flatMap_cons, List.count_append, List.flatten_cons, hcount]
      omega

/-- With no more line breaks than the whole, no cut is between CR and LF. -/
theorem not_split_of_count (hcount : ∀ s, (f s).count '\n' = breaks s) {piece : Text} {pieces : List Text}
    (h : ((piece :: pieces).flatMap f).count '\n' = breaks (piece :: pieces).flatten) :
    ¬Split piece pieces.flatten ∧ (pieces.flatMap f).count '\n' = breaks pieces.flatten := by
  have hsum := breaks_append piece pieces.flatten
  have hge := count_flatMap_ge hcount pieces
  rw [List.flatMap_cons, List.count_append, List.flatten_cons, hcount] at h
  split at hsum
  · omega
  · exact ⟨‹_›, by omega⟩

/-- Nor are they then longer. -/
theorem length_flatMap_le (hcount : ∀ s, (f s).count '\n' = breaks s)
    (happend : ∀ a b, ¬Split a b → f (a ++ b) = f a ++ ((if J a b then [' '] else []) ++ f b))
    (pieces : List Text) (h : (pieces.flatMap f).count '\n' = breaks pieces.flatten) :
    (pieces.flatMap f).length ≤ (f pieces.flatten).length := by
  induction pieces with
  | nil => exact Nat.zero_le _
  | cons piece pieces ih =>
      obtain ⟨hsplit, hrest⟩ := not_split_of_count hcount h
      rw [List.flatten_cons, happend _ _ hsplit, List.flatMap_cons, List.length_append, List.length_append,
        List.length_append]
      have := ih hrest
      omega

/-- The pieces make the whole exactly if no cut is noticed. -/
theorem flatMap_eq_iff (hnil : f [] = []) (hcount : ∀ s, (f s).count '\n' = breaks s)
    (happend : ∀ a b, ¬Split a b → f (a ++ b) = f a ++ ((if J a b then [' '] else []) ++ f b))
    (pieces : List Text) :
    pieces.flatMap f = f pieces.flatten ↔ EachCut (fun a b => ¬Split a b ∧ ¬J a b) pieces := by
  induction pieces with
  | nil => exact iff_of_true hnil.symm trivial
  | cons piece pieces ih =>
      rw [EachCut, ← ih]
      constructor
      · intro h
        have hbreaks : ((piece :: pieces).flatMap f).count '\n' = breaks (piece :: pieces).flatten := by
          rw [h, hcount]
        obtain ⟨hsplit, hrest⟩ := not_split_of_count hcount hbreaks
        have hle := length_flatMap_le hcount happend pieces hrest
        rw [List.flatMap_cons, List.flatten_cons, happend _ _ hsplit] at h
        have htail := List.append_cancel_left h
        by_cases hJ : J piece pieces.flatten
        · rw [if_pos hJ] at htail
          rw [htail, List.length_append, List.length_singleton] at hle
          omega
        · rw [if_neg hJ, List.nil_append] at htail
          exact ⟨⟨hsplit, hJ⟩, htail⟩
      · rintro ⟨⟨hsplit, hJ⟩, htail⟩
        rw [List.flatMap_cons, List.flatten_cons, happend _ _ hsplit, if_neg hJ, htail]
        rfl

end Apart

/-- Whether white space collapses on the line. -/
def WhiteSpace.collapses : WhiteSpace → Bool
  | .normal | .nowrap => true
  | _ => false

/-- A cut that the mode does not notice. -/
def Fits (ws : WhiteSpace) (a b : Text) : Prop :=
  ws.collapses ∨ (¬Split a b ∧ ¬(ws = .preLine ∧ Joins a b))

instance (ws : WhiteSpace) (a b : Text) : Decidable (Fits ws a b) := inferInstanceAs (Decidable (_ ∨ _))

theorem eachCut_of_forall {R : Text → Text → Prop} (h : ∀ a b, R a b) (pieces : List Text) :
    EachCut R pieces := by
  induction pieces with
  | nil => trivial
  | cons piece pieces ih => exact ⟨h _ _, ih⟩

/-- Where each piece is processed alone. -/
theorem collapseFor_pieces_iff {ws : WhiteSpace} (hws : ws.collapses = false) (pieces : List Text) :
    pieces.flatMap (collapseFor ws) = collapseFor ws pieces.flatten ↔ EachCut (Fits ws) pieces := by
  have hfits : Fits ws = fun a b => ¬Split a b ∧ ¬(ws = .preLine ∧ Joins a b) := by
    funext a b
    simp [Fits, hws]
  rw [hfits]
  cases ws with
  | normal => cases hws
  | nowrap => cases hws
  | preLine =>
      refine flatMap_eq_iff rfl (fun s => ?_) (fun a b h => ?_) pieces
      · rw [collapseFor_preLine, count_lineText]
      · simpa using preLine_append h
  | pre => exact flatMap_eq_iff rfl count_preserve (fun a b h => by simpa using preserve_append h) pieces
  | preWrap => exact flatMap_eq_iff rfl count_preserve (fun a b h => by simpa using preserve_append h) pieces
  | breakSpaces =>
      exact flatMap_eq_iff rfl count_preserve (fun a b h => by simpa using preserve_append h) pieces

/-- Pushing the pieces of a text gives what pushing the text gives exactly if no cut is noticed. -/
theorem appendText_pieces_iff (ws : WhiteSpace) (pieces : List Text)
    (hfree : ∀ piece ∈ pieces, Free piece) (text : Text) :
    pieces.foldl (appendText ws) text = appendText ws text pieces.flatten ↔ EachCut (Fits ws) pieces := by
  cases hws : ws.collapses with
  | true =>
      refine iff_of_true ?_ (eachCut_of_forall (fun _ _ => Or.inl hws) pieces)
      have happend : ∀ text raw, appendText ws text raw = text ++ squeeze (lastSpace text) raw := by
        intro text raw
        cases ws with
        | normal => rfl
        | nowrap => rfl
        | pre => cases hws
        | preWrap => cases hws
        | preLine => cases hws
        | breakSpaces => cases hws
      induction pieces generalizing text with
      | nil =>
          rw [List.foldl_nil, happend]
          exact (List.append_nil _).symm
      | cons piece pieces ih =>
          rw [List.foldl_cons, ih (fun p hp => hfree p (List.mem_cons_of_mem _ hp)), List.flatten_cons, happend,
            happend, happend, squeeze_append _ _ (hfree piece List.mem_cons_self)]
  | false =>
      have happend : ∀ text raw, appendText ws text raw = text ++ collapseFor ws raw := by
        intro text raw
        cases ws with
        | normal => cases hws
        | nowrap => cases hws
        | pre => rfl
        | preWrap => rfl
        | preLine => rfl
        | breakSpaces => rfl
      have hfold : ∀ text, pieces.foldl (appendText ws) text = text ++ pieces.flatMap (collapseFor ws) := by
        induction pieces with
        | nil => exact fun text => (List.append_nil text).symm
        | cons piece pieces ih =>
            intro text
            rw [List.foldl_cons, ih (fun p hp => hfree p (List.mem_cons_of_mem _ hp)), happend,
              List.append_assoc]
            rfl
      rw [hfold, happend, List.append_cancel_left_eq]
      exact collapseFor_pieces_iff hws pieces

end Pelorus.Layout.Inline
