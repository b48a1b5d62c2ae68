import Mathlib.Data.List.Dedup
import Mathlib.Data.List.Lex
import Mathlib.Data.List.Sort
import Pelorus.Lib.Text

/-
  Block/Glob.lean --- Adblock-style URL patterns and their matcher (`px-block/src/glob.rs`).

  A PATTERN is literal bytes, separators and wildcards between two anchors.  It is matched
  segment by segment, each segment being what is between two wildcards; no segment that has
  been placed is placed again.

  TOKENS are the runs of letters, digits and percent signs that a rule can be filed under.
-/
set_option autoImplicit false

namespace Pelorus.Block

open Lib

def MAX_PATTERN_BYTES : Nat := 512

def MIN_TOKEN_BYTES : Nat := 2

def MAX_TOKEN_BYTES : Nat := 64

/-- One element of a compiled pattern. -/
inductive Elem where
  | lit (b : UInt8)
  | sep
  | star
  deriving DecidableEq

inductive StartAnchor where
  | anywhere
  | start
  | host
  deriving DecidableEq

inductive PatternError where
  | tooLong
  | invalidCharacter
  deriving DecidableEq

structure Pattern where
  elems : List Elem
  start : StartAnchor
  end_ : Bool
  deriving DecidableEq

/-! ## Bytes -/

/-- `to_ascii_lowercase` of a byte. -/
def lowerByte (b : UInt8) : UInt8 := if 0x41 ≤ b && b ≤ 0x5a then b + 0x20 else b

def isSeparator (b : UInt8) : Bool :=
  b ≤ 0x24 || (0x26 ≤ b && b ≤ 0x2c) || b = 0x2f || (0x3a ≤ b && b ≤ 0x40) || (0x5b ≤ b && b ≤ 0x5e) ||
    b = 0x60 || (0x7b ≤ b && b ≤ 0x7f)

def isTokenByte (b : UInt8) : Bool :=
  (0x30 ≤ b && b ≤ 0x39) || (0x41 ≤ b && b ≤ 0x5a) || (0x61 ≤ b && b ≤ 0x7a) || b = 0x25

def isStar (e : Elem) : Bool := e = .star

/-! ## Compiling -/

/-- Runs of wildcards, each collapsed to one. -/
def collapseStars : List Elem → List Elem
  | .star :: .star :: rest => collapseStars (.star :: rest)
  | e :: rest => e :: collapseStars rest
  | [] => []

def Pattern.new (elems : List Elem) (anchor : StartAnchor) (end_ : Bool) : Pattern :=
  let out := collapseStars elems
  let (out, anchor) :=
    if out.head?.any isStar && anchor ≠ .host then (out.drop 1, StartAnchor.anywhere) else (out, anchor)
  let (out, end_) := if out.getLast?.any isStar then (out.dropLast, false) else (out, end_)
  { elems := out, start := anchor, end_ }

/-- The element of a byte of a pattern text. -/
def elemOf (matchCase : Bool) (b : UInt8) : Elem :=
  if b = 0x2a then .star else if b = 0x5e then .sep else if matchCase then .lit b else .lit (lowerByte b)

def Pattern.fromText (text : Text) (matchCase : Bool) : Except PatternError Pattern :=
  let (anchor, body) :=
    match Text.stripPrefix text "||".toList with
    | some rest => (StartAnchor.host, rest)
    | none =>
        match Text.stripPrefix text ['|'] with
        | some rest => (.start, rest)
        | none => (.anywhere, text)
  let (end_, body) :=
    match Text.stripSuffix body ['|'] with
    | some rest => if rest.isEmpty then (false, body) else (true, rest)
    | none => (false, body)
  if MAX_PATTERN_BYTES < body.len then .error .tooLong
  else if body.utf8.any fun b => b ≤ 0x20 || b = 0x7f then .error .invalidCharacter
  else .ok (.new (body.utf8.map (elemOf matchCase)) anchor end_)

/-! ## Matching -/

/-- `match_at`: where a segment that starts there ends. -/
def matchAt : List Elem → Bytes → Nat → Option Nat
  | [], _, p => some p
  | .lit b :: seg, text, p => if text[p]? = some b then matchAt seg text (p + 1) else none
  | .sep :: seg, text, p =>
      match text[p]? with
      | some c => if isSeparator c then matchAt seg text (p + 1) else none
      -- the end of the address
      | none => matchAt seg text p
  | .star :: _, _, _ => none

/-- Just after the first dot from `p` on, in the host that ends at `he`. -/
def nextBoundary (text : Bytes) (p he : Nat) : Option Nat :=
  if p ≤ he ∧ he ≤ text.length then
    ((text.extract p he).findIdx? fun b => b = 0x2e).map fun rel => p + rel + 1
  else none

theorem nextBoundary_eq_some {text : Bytes} {p he q : Nat} (h : nextBoundary text p he = some q) :
    p < q ∧ q ≤ he ∧ he ≤ text.length ∧ text[q - 1]? = some 0x2e := by
  unfold nextBoundary at h
  split at h
  · rename_i hle
    obtain ⟨rel, hrel, rfl⟩ := Option.map_eq_some_iff.mp h
    obtain ⟨hlt, hdot, _⟩ := List.findIdx?_eq_some_iff_getElem.mp hrel
    have hlen : rel < he - p ∧ rel < text.length - p := by simpa using hlt
    refine ⟨by omega, by omega, hle.2, ?_⟩
    have hget : text[p + rel]? = some 0x2e := by
      rw [List.getElem?_eq_getElem (by omega)]
      simpa using hdot
    rw [show p + rel + 1 - 1 = p + rel by omega]
    exact hget
  · cases h

/-- `match_at_host`, from `p` on. -/
def matchAtHost (seg : List Elem) (text : Bytes) (he : Nat) (needEnd : Option Nat) (p : Nat) : Option Nat :=
  match (matchAt seg text p).filter fun e => needEnd.all fun n => e = n with
  | some e => some e
  | none =>
      match _h : nextBoundary text p he with
      | some q => matchAtHost seg text he needEnd q
      | none => none
termination_by he - p
decreasing_by
  have hle := nextBoundary_eq_some _h
  omega

/-- The loop of `matches` over the segments, from `cur` on. -/
def matchSegs (pattern : Pattern) (text : Bytes) (host : Option (Nat × Nat)) :
    Bool → Nat → List (List Elem) → Bool
  | _, _, [] => true
  | first, cur, seg :: segs =>
      let len := text.length
      let last := segs.isEmpty
      if first && pattern.start ≠ .anywhere then
        let needEnd := if last && pattern.end_ then some len else none
        let found :=
          match pattern.start with
          | .start => (matchAt seg text 0).filter fun e => needEnd.all fun n => e = n
          | .host => host.bind fun (hs, he) => matchAtHost seg text he needEnd hs
          | .anywhere => none
        match found with
        | some e => matchSegs pattern text host false e segs
        | none => false
      else if last && pattern.end_ then
        let lo := max cur (len - seg.length)
        if !seg.isEmpty && !(List.range' lo (len + 1 - lo)).any fun p => matchAt seg text p = some len then false
        else matchSegs pattern text host false len segs
      else
        match (List.range' cur (len + 1 - cur)).findSome? (matchAt seg text) with
        | some e => matchSegs pattern text host false e segs
        | none => false

def Pattern.matches (pattern : Pattern) (text : Bytes) (host : Option (Nat × Nat)) : Bool :=
  matchSegs pattern text host true 0 (pattern.elems.splitOnP isStar)

/-! ## Tokens -/

/-- A literal byte of a token. -/
def isTok : Elem → Bool
  | .lit b => isTokenByte b
  | .sep | .star => false

/-- The byte of a literal, in lower case. -/
def tokByte : Elem → Option UInt8
  | .lit b => some (lowerByte b)
  | .sep | .star => none

/-- An edge of a run is where a token must end, by the element that is next to it. -/
def isEdge (anchored : Bool) : Option Elem → Bool
  | none => anchored
  | some (.lit _) | some .sep => true
  | some .star => false

/-- The length of a token. -/
def isTokenLength (n : Nat) : Bool := MIN_TOKEN_BYTES ≤ n && n ≤ MAX_TOKEN_BYTES

/-- The loop of `index_tokens`, after the element `prev`. -/
def indexRuns (pattern : Pattern) : Option Elem → List Elem → List Bytes
  | _, [] => []
  | prev, e :: rest =>
      if !isTok e then indexRuns pattern (some e) rest
      else
        let run := e :: rest.takeWhile isTok
        let after := rest.dropWhile isTok
        let ok := isEdge (pattern.start ≠ .anywhere) prev && isEdge pattern.end_ after.head?
        (if ok && isTokenLength run.length then [run.filterMap tokByte] else []) ++
          indexRuns pattern run.getLast? after
termination_by _ elems => elems.length
decreasing_by
  · simp
  · have hle := (List.dropWhile_suffix (p := isTok) (l := rest)).length_le
    simp only [List.length_cons]
    omega

def Pattern.indexTokens (pattern : Pattern) : List Bytes :=
  (indexRuns pattern none pattern.elems).foldl (fun out t => if out.contains t then out else out ++ [t]) []

/-- The loop of `url_tokens`. -/
def urlRuns : Bytes → List Bytes
  | [] => []
  | b :: rest =>
      if !isTokenByte b then urlRuns rest
      else
        let run := b :: rest.takeWhile isTokenByte
        (if isTokenLength run.length then [run] else []) ++ urlRuns (rest.dropWhile isTokenByte)
termination_by text => text.length
decreasing_by
  · simp
  · have hle := (List.dropWhile_suffix (p := isTokenByte) (l := rest)).length_le
    simp only [List.length_cons]
    omega

def urlTokens (lower : Bytes) : List Bytes := ((urlRuns lower).insertionSort fun a b => a ≤ b).dedup

end Pelorus.Block
