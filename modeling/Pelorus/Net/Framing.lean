import Pelorus.Net.Http1

/-
  Net/Framing.lean --- which framings are accepted.

  THE RULE is that a head whose framing two readers could take differently is refused.  What
  that asks for (`Unambiguous`) is stated on the fields alone, in terms of the list of all
  transfer codings.

  WHERE THE CODE FALLS SHORT.  It looks at the last coding of the last field and at no other,
  and trims it of more than the spaces and tabs that may surround a coding; `unambiguous_iff`
  says that nothing else is wrong.
-/
set_option autoImplicit false

namespace Pelorus.Net.Http1

open Lib Lib.Text

/-! ## What a framing may rest on -/

/-- The optional whitespace around the members of a list. -/
def isOws (c : Char) : Bool := c = ' ' || c = '\t'

/-- A member of a list of codings, without the whitespace around it; names ignore case. -/
def coding (piece : Text) : Text := toAsciiLowercase (trimEndMatches isOws (trimStartMatches isOws piece))

def lengthFields (headers : List HttpHeader) : List HttpHeader :=
  headers.filter fun h => h.name = "content-length".toList

def encodingFields (headers : List HttpHeader) : List HttpHeader :=
  headers.filter fun h => h.name = "transfer-encoding".toList

/-- All transfer codings, field after field. -/
def codings (headers : List HttpHeader) : List Text :=
  (encodingFields headers).flatMap fun h => (h.value.splitOn ',').map coding

/-- `s` is a decimal numeral of `n`. -/
def IsNumeral (s : Text) (n : Nat) : Prop := s ≠ [] ∧ Numerals.digits 10 0 s = some n

/-- Two readers of this head agree on where the body ends, and on its fields. -/
structure Unambiguous (head : ResponseHead) : Prop where
  length : ∀ n, head.framing = .length n →
    encodingFields head.headers = [] ∧ ∃ field, lengthFields head.headers = [field] ∧ IsNumeral field.value n
  chunked : head.framing = .chunked →
    lengthFields head.headers = [] ∧
      ∃ before, codings head.headers = before ++ ["chunked".toList] ∧ "chunked".toList ∉ before
  untilClose : head.framing = .untilClose →
    lengthFields head.headers = [] ∧ encodingFields head.headers = []
  clean : ∀ field ∈ head.headers, ∀ c ∈ field.name ++ field.value, c ≠ '\r' ∧ c ≠ '\n' ∧ c ≠ Char.ofNat 0

/-- What the last transfer coding is in the text of its field. -/
def lastPiece (value : Text) : Text := (value.splitOn ',').getLast?.getD []

/-- No transfer coding but the last is `chunked`, and around the last there are only spaces and
tabs. -/
structure PlainCodings (headers : List HttpHeader) : Prop where
  once : "chunked".toList ∉ (codings headers).dropLast
  plain : ∀ field ∈ (encodingFields headers).getLast?,
    trim (lastPiece field.value) = trimEndMatches isOws (trimStartMatches isOws (lastPiece field.value))

/-! ## Fields -/

theorem toNat_lowerByte {b : UInt8} (h : isTokenByte b = true) : 0x21 ≤ (lowerByte b).toNat := by
  have hrange := toNat_of_isTokenByte h
  unfold lowerByte
  split
  · rename_i hupper
    have hle := UInt8.le_iff_toNat_le.mp hupper.2
    rw [UInt8.toNat_add]
    show 0x21 ≤ (b.toNat + 0x20) % 256
    have hle' : b.toNat ≤ 0x5a := hle
    omega
  · exact hrange.1

theorem of_mem_rdropWhile {α : Type} {p : α → Bool} {a : α} {l : List α} (h : a ∈ l.rdropWhile p) : a ∈ l :=
  (List.rdropWhile_prefix p l).subset h

theorem mem_of_mem_trimBytes {b : UInt8} {bytes : Bytes} (h : b ∈ trimBytes bytes) : b ∈ bytes :=
  (List.dropWhile_suffix _).subset (of_mem_rdropWhile h)

variable {field : HttpHeader} {c : Char}

theorem parseHeader_eq_ok {line : Bytes} (h : parseHeader line = .ok field) :
    ∃ name value : Bytes, name.all isTokenByte = true ∧ value.any isControlByte = false ∧
      field.name.utf8 = name.map lowerByte ∧ field.value.utf8 = trimBytes value := by
  simp only [parseHeader] at h
  split at h
  · cases h
  split at h
  · cases h
  rename_i colon _
  split at h
  · cases h
  rename_i hname
  split at h
  · cases h
  rename_i hvalue
  split at h
  · rename_i name value hn hv
    cases h
    exact ⟨line.take colon, line.drop (colon + 1), by simpa using (not_or.mp hname).2, by simpa using hvalue,
      utf8_of_fromUtf8 hn, utf8_of_fromUtf8 hv⟩
  · cases h

theorem parseHeader_clean {line : Bytes} (h : parseHeader line = .ok field)
    (hc : c ∈ field.name ++ field.value) : c ≠ '\r' ∧ c ≠ '\n' ∧ c ≠ Char.ofNat 0 := by
  obtain ⟨name, value, hname, hvalue, hn, hv⟩ := parseHeader_eq_ok h
  have hno : ∀ d : Char, d.val ≤ 127 → d.toNat < 0x20 → d.toNat ≠ 9 → c ≠ d := by
    rintro d hd hlow htab rfl
    have hbyte : (UInt8.ofNat c.toNat).toNat = c.toNat := UInt8.toNat_ofNat_of_lt' (Nat.lt_trans hlow (by decide))
    rcases List.mem_append.mp hc with hmem | hmem
    · have hin := mem_utf8_of_lt hmem hd
      rw [hn] at hin
      obtain ⟨b, hb, heq⟩ := List.mem_map.mp hin
      have hrange := toNat_lowerByte (List.all_eq_true.mp hname b hb)
      rw [heq, hbyte] at hrange
      omega
    · have hin := mem_utf8_of_lt hmem hd
      rw [hv] at hin
      have hcontrol := List.any_eq_false.mp hvalue _ (mem_of_mem_trimBytes hin)
      refine hcontrol ?_
      rw [isControlByte, Bool.or_eq_true, Bool.and_eq_true, decide_eq_true_eq, decide_eq_true_eq,
        UInt8.lt_iff_toNat_lt, hbyte]
      refine Or.inl ⟨hlow, fun h9 => htab ?_⟩
      rw [← hbyte, h9]
      rfl
  exact ⟨hno _ (by decide) (by decide) (by decide), hno _ (by decide) (by decide) (by decide),
    hno _ (by decide) (by decide) (by decide)⟩

theorem readFields_mem {bytes : Bytes} {fields : Fields} {field : HttpHeader} : ∀ {room : Nat}
    {headers : List HttpHeader} {offset : Nat}, readFields bytes room headers offset = .ok fields →
    field ∈ fields.headers → field ∈ headers ∨ ∃ line, parseHeader line = .ok field
  | room, headers, offset, h, hfield => by
      rw [readFields] at h
      obtain ⟨line, -, h⟩ := bind_eq_ok.mp h
      split at h
      · cases h
        exact Or.inl hfield
      · cases room with
        | zero => cases h
        | succ room =>
            obtain ⟨header, hheader, h⟩ := bind_eq_ok.mp h
            rcases readFields_mem h hfield with hmem | hline
            · rcases List.mem_append.mp hmem with hmem | hmem
              · exact Or.inl hmem
              · rw [List.mem_singleton.mp hmem]
                exact Or.inr ⟨line.text, hheader⟩
            · exact Or.inr hline

theorem line_of_mem_headers {bytes : Bytes} {parsed : ParsedHead}
    (h : parseResponseHead bytes = .ok parsed) (hfield : field ∈ parsed.head.headers) :
    ∃ line, parseHeader line = .ok field := by
  obtain ⟨line, -, h⟩ := bind_eq_ok.mp h
  obtain ⟨status, -, h⟩ := bind_eq_ok.mp h
  obtain ⟨fields, hfields, h⟩ := bind_eq_ok.mp h
  obtain ⟨framing, -, h⟩ := bind_eq_ok.mp h
  cases h
  exact (readFields_mem hfields hfield).resolve_left List.not_mem_nil

/-! ## The last coding -/

theorem isWhitespace_of_isOws (h : isOws c = true) : isWhitespace c = true := by
  simp only [isOws, Bool.or_eq_true, decide_eq_true_eq] at h
  rcases h with rfl | rfl <;> decide

theorem not_isWhitespace_of_toLower (h : 97 ≤ c.toLower.toNat ∧ c.toLower.toNat ≤ 122) :
    isWhitespace c = false := by
  refine isWhitespace_of_isGraphic ?_
  rw [isGraphic, Bool.and_eq_true, decide_eq_true_eq, decide_eq_true_eq]
  rcases toLower_cases c with ⟨hsame, -⟩ | hletter
  · rw [hsame] at h
    omega
  · omega

theorem trim_of_lower_eq {s : Text} (h : toAsciiLowercase s = "chunked".toList) : trim s = s := by
  refine trim_of_no_whitespace fun c hc => not_isWhitespace_of_toLower ?_
  have hmem : c.toLower ∈ "chunked".toList := by
    rw [← h]
    exact List.mem_map_of_mem hc
  revert hmem
  generalize c.toLower = d
  intro hmem
  have hall : "chunked".toList.all (fun d => decide (97 ≤ d.toNat ∧ d.toNat ≤ 122)) = true := by decide
  exact of_decide_eq_true (List.all_eq_true.mp hall d hmem)

variable {headers : List HttpHeader}

theorem codings_eq {last : HttpHeader} (h : (encodingFields headers).getLast? = some last) :
    codings headers = (codings headers).dropLast ++ [coding (lastPiece last.value)] := by
  obtain ⟨init, hinit⟩ := List.getLast?_eq_some_iff.mp h
  have hpieces : ∃ pieces, last.value.splitOn ',' = pieces ++ [lastPiece last.value] := by
    rw [lastPiece]
    cases hlast : (last.value.splitOn ',').getLast? with
    | none => exact absurd (List.getLast?_eq_none_iff.mp hlast) (List.splitOn_ne_nil _ _)
    | some piece => exact List.getLast?_eq_some_iff.mp hlast
  obtain ⟨pieces, hpieces⟩ := hpieces
  have hcodings : codings headers =
      (init.flatMap fun h => (h.value.splitOn ',').map coding) ++ pieces.map coding ++
        [coding (lastPiece last.value)] := by
    rw [codings, hinit, List.flatMap_append, List.flatMap_singleton, hpieces, List.map_append, List.append_assoc]
    rfl
  rw [hcodings, List.dropLast_concat]

/-! ## What is accepted -/

/-- What `determine_framing` accepts outside the statuses without a body. -/
inductive Accepted (headers : List HttpHeader) : Framing → Prop where
  | length {field : HttpHeader} {n : Nat} (hencodings : encodingFields headers = [])
      (hlengths : lengthFields headers = [field]) (hnumeral : IsNumeral field.value n) : Accepted headers (.length n)
  | chunked {last : HttpHeader} (hlengths : lengthFields headers = [])
      (hlast : (encodingFields headers).getLast? = some last)
      (hfinal : finalCoding last.value = "chunked".toList) : Accepted headers .chunked
  | untilClose (hencodings : encodingFields headers = []) (hlengths : lengthFields headers = []) :
      Accepted headers .untilClose

theorem accepted_of_determineFraming {status : UInt16} {framing : Framing}
    (hstatus : ¬ (status = 204 ∨ status = 304 ∨ (100 ≤ status ∧ status < 200)))
    (h : determineFraming status headers = .ok framing) : Accepted headers framing := by
  rw [determineFraming, if_neg hstatus] at h
  change (if lengthFields headers ≠ [] ∧ encodingFields headers ≠ [] then _ else _) = _ at h
  split at h
  · cases h
  rename_i hnotboth
  split at h
  · rename_i last hlast
    have hlengths : lengthFields headers = [] := by
      by_contra hne
      refine hnotboth ⟨hne, fun hnil => ?_⟩
      rw [show headers.filter (fun h => h.name = "transfer-encoding".toList) = [] from hnil] at hlast
      cases hlast
    split at h
    · cases h
    · rename_i hfinal
      cases h
      exact .chunked hlengths hlast (not_not.mp hfinal)
  · rename_i hlast
    have hencodings : encodingFields headers = [] := List.getLast?_eq_none_iff.mp hlast
    split at h
    · rename_i hlengths
      cases h
      exact .untilClose hencodings hlengths
    · rename_i field hlengths
      split at h
      · cases h
      rename_i hdigits
      split at h
      · cases h
      rename_i n hn
      split at h
      · cases h
      cases h
      refine .length hencodings hlengths ⟨fun hnil => hdigits (Or.inl hnil), ?_⟩
      have hplus : '+' ∉ field.value := by
        intro hmem
        have hall : field.value.all Char.isDigit = true := by
          by_contra hne
          exact hdigits (Or.inr hne)
        exact absurd (List.all_eq_true.mp hall '+' hmem) (by decide)
      rw [Numerals.parseUnsigned_eq_magnitude hplus] at hn
      exact Numerals.digits_of_magnitude hn
    · cases h

theorem plainCodings_of_none (h : encodingFields headers = []) : PlainCodings headers := by
  constructor
  · rw [codings, h, List.flatMap_nil]
    exact List.not_mem_nil
  · intro field hfield
    rw [h] at hfield
    cases hfield

/-- WHICH AMBIGUITIES PASS.  Outside the statuses without a body, an accepted head is unambiguous if and
only if none of its transfer codings but the last is `chunked` and the last has nothing but
spaces and tabs around it. -/
theorem unambiguous_iff {bytes : Bytes} {parsed : ParsedHead} (h : parseResponseHead bytes = .ok parsed)
    (hstatus : ¬ (parsed.head.status = 204 ∨ parsed.head.status = 304 ∨
      (100 ≤ parsed.head.status ∧ parsed.head.status < 200))) :
    Unambiguous parsed.head ↔ PlainCodings parsed.head.headers := by
  have haccepted := accepted_of_determineFraming hstatus (determineFraming_of_parse h)
  have hclean : ∀ field ∈ parsed.head.headers, ∀ c ∈ field.name ++ field.value,
      c ≠ '\r' ∧ c ≠ '\n' ∧ c ≠ Char.ofNat 0 := by
    intro field hfield c hc
    obtain ⟨line, hline⟩ := line_of_mem_headers h hfield
    exact parseHeader_clean hline hc
  generalize hframing : parsed.head.framing = framing at haccepted
  cases haccepted with
  | length hencodings hlengths hnumeral =>
      refine iff_of_true ?_ (plainCodings_of_none hencodings)
      refine ⟨?_, ?_, ?_, hclean⟩
      · intro n hn
        cases hframing.symm.trans hn
        exact ⟨hencodings, _, hlengths, hnumeral⟩
      · intro hn
        cases hframing.symm.trans hn
      · intro hn
        cases hframing.symm.trans hn
  | untilClose hencodings hlengths =>
      refine iff_of_true ?_ (plainCodings_of_none hencodings)
      refine ⟨?_, ?_, fun _ => ⟨hlengths, hencodings⟩, hclean⟩
      · intro n hn
        cases hframing.symm.trans hn
      · intro hn
        cases hframing.symm.trans hn
  | @chunked last hlengths hlast hfinal =>
      have hcodings := codings_eq hlast
      constructor
      · intro hun
        obtain ⟨-, before, hbefore, honce⟩ := hun.chunked hframing
        have hparts := hcodings.symm.trans hbefore
        obtain ⟨hdrop, hend⟩ := List.append_inj' hparts rfl
        constructor
        · rw [hdrop]
          exact honce
        · intro field hfield
          rw [hlast] at hfield
          cases hfield
          rw [← trim_of_trimmed (fun c hc => isWhitespace_of_isOws hc)]
          exact trim_of_lower_eq (List.singleton_inj.mp hend)
      · intro hplain
        have hend : coding (lastPiece last.value) = "chunked".toList := by
          rw [coding, ← hplain.plain last hlast]
          exact hfinal
        refine ⟨?_, ?_, ?_, hclean⟩
        · intro n hn
          cases hframing.symm.trans hn
        · intro _
          exact ⟨hlengths, _, by rw [← hend]; exact hcodings, hplain.once⟩
        · intro hn
          cases hframing.symm.trans hn

/-- A head with one field, `Transfer-Encoding`. -/
def encodedHead (value : String) : Bytes :=
  utf8 ("HTTP/1.1 200 OK\r\nTransfer-Encoding: ".toList ++ value.toList ++ "\r\n\r\n".toList)

/-- What such a head is parsed to. -/
def encodedParsed (value : String) : ParsedHead :=
  ⟨⟨200, [⟨"transfer-encoding".toList, value.toList⟩], .chunked⟩, (encodedHead value).length⟩

theorem unambiguous_iff_gzip_chunked :
    Unambiguous (encodedParsed "gzip, chunked").head ↔ PlainCodings (encodedParsed "gzip, chunked").head.headers :=
  unambiguous_iff (show parseResponseHead (encodedHead "gzip, chunked") = .ok (encodedParsed "gzip, chunked") by decide +kernel)
    (by decide)

/-- A body that was chunked twice is accepted as chunked. -/
theorem chunked_twice_accepted :
    parseResponseHead (encodedHead "chunked, chunked") = .ok (encodedParsed "chunked, chunked") ∧
      ¬ Unambiguous (encodedParsed "chunked, chunked").head := by
  refine ⟨by decide +kernel, fun h => ?_⟩
  obtain ⟨-, before, hbefore, honce⟩ := h.chunked rfl
  have hcodings : codings (encodedParsed "chunked, chunked").head.headers =
      ["chunked".toList] ++ ["chunked".toList] := by decide +kernel
  have hfirst := (List.append_inj' (hcodings.symm.trans hbefore) rfl).1
  rw [← hfirst] at honce
  exact honce List.mem_cons_self

end Pelorus.Net.Http1
