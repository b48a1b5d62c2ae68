import Pelorus.Lib.Numerals

/-
  Lib/HttpMessage.lean --- an HTTP/1.1 request as its reader sees it.

  THE READER takes the bytes apart with no knowledge of how they were written: lines up to
  the first empty one, each ended by a CRLF; the request line in three parts; a field before
  and after its first colon, without the whitespace around its value; and a body of the length
  that the one `Content-Length` gives.  Where a field says that the body is coded, or two say
  how long it is, it reads nothing.

  A WRITER is right when lines without a CR come back (`readLines_written`).
-/
set_option autoImplicit false

namespace Pelorus.Lib.HttpMessage

open Lib.Text

def CRLF : Bytes := [13, 10]

/-! ## Lines -/

/-- The bytes up to the first CRLF, and what is after it. -/
def cutLine : Bytes → Option (Bytes × Bytes)
  | [] => none
  | b :: rest =>
      if b = 13 ∧ rest.head? = some 10 then some ([], rest.tail)
      else (cutLine rest).map fun cut => (b :: cut.1, cut.2)

theorem length_of_cutLine : ∀ {bytes : Bytes} {cut : Bytes × Bytes}, cutLine bytes = some cut →
    cut.2.length < bytes.length
  | [], _, h => by cases h
  | b :: rest, cut, h => by
      rw [cutLine] at h
      split at h
      · cases h
        show rest.tail.length < rest.length + 1
        rw [List.length_tail]
        omega
      · obtain ⟨inner, hinner, rfl⟩ := Option.map_eq_some_iff.mp h
        have hlt := length_of_cutLine hinner
        show inner.2.length < rest.length + 1
        omega

/-- A line without a CR ends at the CRLF after it. -/
theorem cutLine_append {line : Bytes} (h : 13 ∉ line) (rest : Bytes) :
    cutLine (line ++ CRLF ++ rest) = some (line, rest) := by
  induction line with
  | nil => rfl
  | cons b line ih =>
      rw [List.cons_append, List.cons_append, cutLine, if_neg fun hcr => List.ne_of_not_mem_cons h hcr.1.symm,
        ih (List.not_mem_of_not_mem_cons h)]
      rfl

/-- The lines up to the first empty one, and what is after that. -/
def readLines (bytes : Bytes) : Option (List Bytes × Bytes) :=
  match h : cutLine bytes with
  | none => none
  | some (line, rest) =>
      if line = [] then some ([], rest) else (readLines rest).map fun read => (line :: read.1, read.2)
termination_by bytes.length
decreasing_by exact length_of_cutLine h

/-- Lines, as they are written. -/
def written (lines : List Bytes) : Bytes := lines.flatMap fun line => line ++ CRLF

theorem readLines_written {lines : List Bytes} (h : ∀ line ∈ lines, line ≠ [] ∧ 13 ∉ line) (rest : Bytes) :
    readLines (written lines ++ CRLF ++ rest) = some (lines, rest) := by
  induction lines with
  | nil =>
      have hcut : cutLine (written [] ++ CRLF ++ rest) = some ([], rest) := cutLine_append List.not_mem_nil rest
      rw [readLines]
      split
      · rename_i hnone
        cases hnone.symm.trans hcut
      · rename_i hsome
        cases hsome.symm.trans hcut
        rw [if_pos rfl]
  | cons line lines ih =>
      obtain ⟨hne, hcr⟩ := h line List.mem_cons_self
      have hcut : cutLine (written (line :: lines) ++ CRLF ++ rest) = some (line, written lines ++ CRLF ++ rest) := by
        rw [written, List.flatMap_cons, List.append_assoc, List.append_assoc, cutLine_append hcr, written,
          List.append_assoc]
      rw [readLines]
      split
      · rename_i hnone
        cases hnone.symm.trans hcut
      · rename_i hsome
        cases hsome.symm.trans hcut
        rw [if_neg hne, ih fun l hl => h l (List.mem_cons_of_mem _ hl)]
        rfl

/-! ## Fields -/

/-- A field: its name and its value. -/
structure Field where
  name : Bytes
  value : Bytes
  deriving DecidableEq

/-- Optional whitespace: a space or a tab. -/
def isOws (b : UInt8) : Bool := b = 32 || b = 9

def trimOws (bytes : Bytes) : Bytes := (bytes.dropWhile isOws).rdropWhile isOws

/-- A field line: what is before its first colon, and what is after it. -/
def readField (line : Bytes) : Option Field :=
  if 58 ∈ line then some ⟨line.takeWhile (· ≠ 58), trimOws ((line.dropWhile (· ≠ 58)).drop 1)⟩ else none

theorem readField_append {name : Bytes} (h : 58 ∉ name) (value : Bytes) :
    readField (name ++ 58 :: value) = some ⟨name, trimOws value⟩ := by
  have hall : ∀ b ∈ name, decide (b ≠ 58) = true := fun b hb => decide_eq_true fun heq => h (heq ▸ hb)
  rw [readField, if_pos (List.mem_append_right _ List.mem_cons_self), List.takeWhile_append_of_pos hall,
    List.dropWhile_append_of_pos hall, List.takeWhile_cons_of_neg (by decide),
    List.dropWhile_cons_of_neg (by decide), List.append_nil]
  rfl

theorem trimOws_cons {b : UInt8} (h : isOws b = true) (bytes : Bytes) : trimOws (b :: bytes) = trimOws bytes := by
  rw [trimOws, List.dropWhile_cons_of_pos h, trimOws]

variable {bytes : Bytes}

theorem trimOws_of_none (h : ∀ b ∈ bytes, isOws b = false) : trimOws bytes = bytes := by
  have hstart : bytes.dropWhile isOws = bytes := by
    rw [List.dropWhile_eq_self_iff]
    intro hpos
    simpa using h _ (List.getElem_mem hpos)
  rw [trimOws, hstart, List.rdropWhile_eq_self_iff]
  intro hne
  simpa using h _ (List.getLast_mem hne)

/-- Names ignore case. -/
def Field.isNamed (field : Field) (name : Text) : Bool := field.name.map lowerByte = name.utf8

/-- In ASCII the bytes of a text are made small as its characters are. -/
theorem utf8_toAsciiLowercase {s : Text} (h : s.isAscii) : utf8 (toAsciiLowercase s) = s.utf8.map lowerByte := by
  have hval : ∀ c ∈ s, c.toNat ≤ 127 := by
    intro c hc
    exact of_decide_eq_true (List.all_eq_true.mp h c hc)
  have hlower : isAscii (toAsciiLowercase s) := by
    refine List.all_eq_true.mpr fun d hd => ?_
    obtain ⟨c, hc, rfl⟩ := List.mem_map.mp hd
    refine decide_eq_true ?_
    show c.toLower.toNat ≤ 127
    have hle := hval c hc
    rcases toLower_cases c with ⟨hsame, -⟩ | ⟨hmoved, -, hhigh⟩
    · rw [hsame]
      exact hle
    · omega
  rw [utf8_of_isAscii hlower, utf8_of_isAscii h, toAsciiLowercase, List.map_map, List.map_map]
  refine List.map_congr_left fun c hc => ?_
  have hle := hval c hc
  have hbyte : (UInt8.ofNat c.toNat).toNat = c.toNat := UInt8.toNat_ofNat_of_lt' (Nat.lt_of_le_of_lt hle (by decide))
  show UInt8.ofNat c.toLower.toNat = lowerByte (UInt8.ofNat c.toNat)
  have hiff : (0x41 ≤ UInt8.ofNat c.toNat ∧ UInt8.ofNat c.toNat ≤ 0x5a) ↔ 65 ≤ c.toNat ∧ c.toNat ≤ 90 := by
    rw [UInt8.le_iff_toNat_le, UInt8.le_iff_toNat_le, hbyte]
    exact Iff.rfl
  rw [lowerByte]
  rcases toLower_cases c with ⟨hsame, hno⟩ | ⟨hmoved, hletter⟩
  · rw [hsame, if_neg (hiff.not.mpr hno)]
  · rw [hmoved, if_pos (hiff.mpr hletter)]
    exact UInt8.ofNat_add _ _

/-- A decimal numeral. -/
def readNumeral (bytes : Bytes) : Option Nat :=
  (fromUtf8 bytes).bind fun s => if s = [] then none else Numerals.digits 10 0 s

theorem readNumeral_toDigits (n : Nat) : readNumeral (utf8 (Nat.toDigits 10 n)) = some n := by
  rw [readNumeral, fromUtf8_utf8, Option.bind_some, if_neg Nat.toDigits_ne_nil]
  exact Numerals.digits_toDigits (by decide) (by decide) n

/-- How long the body is; none where the fields do not say it in one way. -/
def bodyLength (fields : List Field) : Option Nat :=
  if fields.any fun f => f.isNamed "transfer-encoding".toList then none
  else
    match fields.filter fun f => f.isNamed "content-length".toList with
    | [] => some 0
    | [field] => readNumeral field.value
    | _ => none

/-! ## Requests -/

structure Request where
  method : Bytes
  target : Bytes
  version : Bytes
  fields : List Field
  body : Bytes
  deriving DecidableEq

/-- A request, and what is after it. -/
def readRequest (bytes : Bytes) : Option (Request × Bytes) := do
  let head ← readLines bytes
  match head.1 with
  | [] => none
  | requestLine :: fieldLines =>
      match requestLine.splitOn 32 with
      | [method, target, version] => do
          let fields ← fieldLines.mapM readField
          let length ← bodyLength fields
          if head.2.length < length then none
          else some (⟨method, target, version, fields, head.2.take length⟩, head.2.drop length)
      | _ => none

theorem readRequest_written {method target version body : Bytes} {fieldLines : List Bytes} {fields : List Field}
    (hparts : ∀ part ∈ [method, target, version], 32 ∉ part ∧ 13 ∉ part)
    (hlines : ∀ line ∈ fieldLines, line ≠ [] ∧ 13 ∉ line) (hfields : fieldLines.mapM readField = some fields)
    (hlength : bodyLength fields = some body.length) :
    readRequest (written ((method ++ 32 :: target ++ 32 :: version) :: fieldLines) ++ CRLF ++ body) =
      some (⟨method, target, version, fields, body⟩, []) := by
  have hsplit : (method ++ 32 :: target ++ 32 :: version).splitOn 32 = [method, target, version] := by
    have hinter : [32].intercalate [method, target, version] = method ++ 32 :: target ++ 32 :: version := by
      simp [List.intercalate]
    rw [← hinter]
    exact List.splitOn_intercalate 32 (fun part hpart => (hparts part hpart).1) (List.cons_ne_nil _ _)
  have hall : ∀ line ∈ (method ++ 32 :: target ++ 32 :: version) :: fieldLines, line ≠ [] ∧ 13 ∉ line := by
    intro line hline
    rcases List.mem_cons.mp hline with rfl | hline
    · refine ⟨by simp, ?_⟩
      have h₁ := (hparts method (by simp)).2
      have h₂ := (hparts target (by simp)).2
      have h₃ := (hparts version (by simp)).2
      simp [h₁, h₂, h₃]
    · exact hlines line hline
  rw [readRequest, readLines_written hall]
  simp only [Option.bind_eq_bind, Option.bind_some, hsplit, hfields, hlength, Nat.lt_irrefl, if_false, List.take_length,
    List.drop_length]

/-! ## The target of a request -/

def isDigit (b : UInt8) : Bool := 0x30 ≤ b && b ≤ 0x39

def isHexDigit (b : UInt8) : Bool := isDigit b || (0x41 ≤ b && b ≤ 0x46) || (0x61 ≤ b && b ≤ 0x66)

/-- A byte that stands for itself in a registered name: unreserved, or a sub-delimiter. -/
def isNameByte (b : UInt8) : Bool :=
  isDigit b || (0x41 ≤ b && b ≤ 0x5a) || (0x61 ≤ b && b ≤ 0x7a) ||
    [0x2d, 0x2e, 0x5f, 0x7e, 0x21, 0x24, 0x26, 0x27, 0x28, 0x29, 0x2a, 0x2b, 0x2c, 0x3b, 0x3d].contains b

/-- A registered name, or what is left of one: bytes that stand for themselves, and percent-encoded
ones. -/
def isRegName : Bytes → Bool
  | [] => true
  | 37 :: a :: b :: rest => isHexDigit a && isHexDigit b && isRegName rest
  | b :: rest => isNameByte b && isRegName rest

/-- An address in brackets. -/
def isLiteral (bytes : Bytes) : Bool :=
  match bytes with
  | 91 :: rest =>
      rest.getLast? = some 93 && rest.dropLast ≠ [] && rest.dropLast.all fun b => isHexDigit b || b = 58 || b = 46
  | _ => false

/-- The host of a URI that has to have one. -/
def isUriHost (bytes : Bytes) : Bool := bytes ≠ [] && (isRegName bytes || isLiteral bytes)

/-- An authority: a host, and a port if one is written. -/
structure Authority where
  host : Bytes
  port : Option Nat
  deriving DecidableEq

/-- Where the host of an authority ends: after its brackets, or before the first colon. -/
def cutHost (bytes : Bytes) : Bytes × Bytes :=
  if bytes.head? = some 91 then
    (bytes.takeWhile (· ≠ 93) ++ (bytes.dropWhile (· ≠ 93)).take 1, (bytes.dropWhile (· ≠ 93)).drop 1)
  else (bytes.takeWhile (· ≠ 58), bytes.dropWhile (· ≠ 58))

theorem cutHost_append (bytes : Bytes) : (cutHost bytes).1 ++ (cutHost bytes).2 = bytes := by
  unfold cutHost
  split
  · rw [List.append_assoc, List.take_append_drop, List.takeWhile_append_dropWhile]
  · exact List.takeWhile_append_dropWhile

def readAuthority (bytes : Bytes) : Option Authority :=
  if isUriHost (cutHost bytes).1 then
    match (cutHost bytes).2 with
    | [] => some ⟨(cutHost bytes).1, none⟩
    | 58 :: [] => some ⟨(cutHost bytes).1, none⟩
    | 58 :: digits => (readNumeral digits).map fun port => ⟨(cutHost bytes).1, some port⟩
    | _ => none
  else none

/-- The URI that a request is for. -/
structure TargetUri where
  scheme : Text
  host : Bytes
  port : Nat
  target : Bytes
  deriving DecidableEq

def defaultPort (scheme : Text) : Nat := if scheme = "https".toList then 443 else 80

/-- The target URI of a request that came over a connection of this scheme: its one host field,
and a target that begins with a slash. -/
def reconstruct (scheme : Text) (bytes : Bytes) : Option TargetUri := do
  let read ← readRequest bytes
  match read.1.fields.filter fun f => f.isNamed "host".toList with
  | [field] => do
      let authority ← readAuthority field.value
      if read.1.target.head? = some 47 then
        some ⟨scheme, authority.host, authority.port.getD (defaultPort scheme), read.1.target⟩
      else none
  | _ => none

theorem isRegName_bytes (h : isRegName bytes = true) :
    ∀ b ∈ bytes, b = 37 ∨ isHexDigit b = true ∨ isNameByte b = true := by
  fun_induction isRegName bytes with
  | case1 => exact fun b hb => absurd hb List.not_mem_nil
  | case2 a c rest ih =>
      simp only [Bool.and_eq_true] at h
      obtain ⟨⟨ha, hc⟩, hrest⟩ := h
      simp only [List.mem_cons, forall_eq_or_imp]
      exact ⟨Or.inl trivial, Or.inr (Or.inl ha), Or.inr (Or.inl hc), ih hrest⟩
  | case3 b rest _ ih =>
      simp only [Bool.and_eq_true] at h
      simp only [List.mem_cons, forall_eq_or_imp]
      exact ⟨Or.inr (Or.inr h.1), ih h.2⟩

theorem isRegName_not_mem (h : isRegName bytes = true) : 58 ∉ bytes ∧ 91 ∉ bytes := by
  constructor
  · intro hmem
    exact absurd (isRegName_bytes h 58 hmem) (by decide)
  · intro hmem
    exact absurd (isRegName_bytes h 91 hmem) (by decide)

theorem takeWhile_of_not_mem {b : UInt8} (h : b ∉ bytes) :
    bytes.takeWhile (· ≠ b) = bytes ∧ bytes.dropWhile (· ≠ b) = [] := by
  have hall : ∀ x ∈ bytes, decide (x ≠ b) = true := fun x hx => decide_eq_true fun heq => h (heq ▸ hx)
  exact ⟨List.takeWhile_eq_self_iff.mpr hall, List.dropWhile_eq_nil_iff.mpr hall⟩

theorem cutHost_of_isRegName (h : isRegName bytes = true) : cutHost bytes = (bytes, []) := by
  obtain ⟨hcolon, hbracket⟩ := isRegName_not_mem h
  obtain ⟨htake, hdrop⟩ := takeWhile_of_not_mem hcolon
  have hhead : ¬ bytes.head? = some 91 := fun hhead => hbracket (List.mem_of_mem_head? (Option.mem_def.mpr hhead))
  rw [cutHost, if_neg hhead, htake, hdrop]

theorem cutHost_of_isLiteral (h : isLiteral bytes = true) : cutHost bytes = (bytes, []) := by
  unfold isLiteral at h
  split at h
  · rename_i rest
    simp only [Bool.and_eq_true, decide_eq_true_eq, List.all_eq_true] at h
    obtain ⟨⟨hlast, -⟩, hinner⟩ := h
    obtain ⟨inner, rfl⟩ := List.getLast?_eq_some_iff.mp hlast
    rw [List.dropLast_concat] at hinner
    have hclose : 93 ∉ 91 :: inner := by
      intro hmem
      rcases List.mem_cons.mp hmem with heq | hmem
      · exact absurd heq (by decide)
      · exact absurd (hinner 93 hmem) (by decide)
    obtain ⟨htake, hdrop⟩ := takeWhile_of_not_mem hclose
    have hall : ∀ b ∈ 91 :: inner, decide (b ≠ 93) = true := fun b hb => decide_eq_true fun heq => hclose (heq ▸ hb)
    have hhead : (91 :: (inner ++ [93])).head? = some 91 := rfl
    rw [cutHost, if_pos hhead, ← List.cons_append, List.takeWhile_append_of_pos hall, List.dropWhile_append_of_pos hall,
      List.takeWhile_cons_of_neg (by decide), List.dropWhile_cons_of_neg (by decide)]
    rw [List.append_nil]
    rfl
  · cases h

theorem readAuthority_host_iff {port : Option Nat} :
    readAuthority bytes = some ⟨bytes, port⟩ ↔ isUriHost bytes = true ∧ port = none := by
  constructor
  · intro h
    unfold readAuthority at h
    split at h
    · rename_i hhost
      have hrest : (cutHost bytes).1 = bytes → (cutHost bytes).2 = [] := by
        intro heq
        have happend := cutHost_append bytes
        rw [heq] at happend
        exact List.append_right_eq_self.mp happend
      split at h
      · rename_i hnil
        injection h with h
        injection h with hsame hport
        exact ⟨hsame ▸ hhost, hport.symm⟩
      · rename_i hcolon
        injection h with h
        injection h with hsame hport
        rw [hrest hsame] at hcolon
        cases hcolon
      · rename_i digits _ hcolon
        obtain ⟨n, -, heq⟩ := Option.map_eq_some_iff.mp h
        injection heq with hsame hport
        rw [hrest hsame] at hcolon
        cases hcolon
      · cases h
    · cases h
  · rintro ⟨hhost, rfl⟩
    have hcut : cutHost bytes = (bytes, []) := by
      have hkinds := hhost
      rw [isUriHost, Bool.and_eq_true, Bool.or_eq_true] at hkinds
      rcases hkinds.2 with hname | hliteral
      · exact cutHost_of_isRegName hname
      · exact cutHost_of_isLiteral hliteral
    rw [readAuthority, hcut, if_pos hhost]

end Pelorus.Lib.HttpMessage
