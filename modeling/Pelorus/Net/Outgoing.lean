import Pelorus.Lib.HttpMessage
import Pelorus.Net.Exchange
import Pelorus.Net.Redirect

/-
  Net/Outgoing.lean --- the bytes of a request (`is_token`, `build_request` and `fetch_request`
  of `px-net/src/fetch.rs`).

  METHOD, PATH, HOST, FIELDS AND BODY all come from a page.  Whatever they are, what is built
  from them reads as one request with exactly these parts (`request_reads_back`): no part has
  a byte that ends what it stands in, and the fields that say where the body ends are written
  here alone.

  WHOM IT NAMES.  The host field is the host of the key and never its port
  (`request_names_origin_iff`).
-/
set_option autoImplicit false

namespace Pelorus.Net

open Lib Lib.Text
open Lib.HttpMessage (CRLF written trimOws readField readRequest bodyLength isOws)
open Net.Http1 (isTokenByte isControlByte toNat_of_isTokenByte)

def isToken (text : Text) : Bool := text ≠ [] && text.utf8.all isTokenByte

/-- The bytes that neither a path nor a host may have. -/
def isControlOrSpace (b : UInt8) : Bool := b < 0x21 || b = 0x7f

/-- The fields that only the transport writes. -/
def TRANSPORT_FIELDS : List Text :=
  ["host", "connection", "content-length", "transfer-encoding"].map String.toList

/-- One field of the request, checked and then written. -/
def fieldLine (field : Text × Text) : Except FetchError Bytes :=
  if ¬ isToken field.1 then .error (.badRequest "a header name is not a token".toList)
  else if toAsciiLowercase field.1 ∈ TRANSPORT_FIELDS then
    .error (.badRequest "that header is written by the transport".toList)
  else if field.2.utf8.any isControlByte then
    .error (.badRequest "a header value contains a control character".toList)
  else .ok (field.1.utf8 ++ utf8 ": ".toList ++ field.2.utf8 ++ CRLF)

/-- The fields of the request, in order. -/
def fieldLines : List (Text × Text) → Except FetchError Bytes
  | [] => .ok []
  | field :: fields => do
      let line ← fieldLine field
      let lines ← fieldLines fields
      .ok (line ++ lines)

/-- Whether the length of the body is written. -/
def writesLength (spec : RequestSpec) : Bool :=
  spec.body ≠ [] || spec.method = "POST".toList || spec.method = "PUT".toList

def buildRequest (host : Text) (spec : RequestSpec) : Except FetchError Bytes :=
  if spec.path = [] ∨ spec.path.head? ≠ some '/' then
    .error (.badRequest "the path must be origin-relative".toList)
  else if spec.path.utf8.any isControlOrSpace then
    .error (.badRequest "the path contains a control character or a space".toList)
  else if host.utf8.any isControlOrSpace then
    .error (.badRequest "the host contains a control character".toList)
  else if ¬ isToken spec.method then .error (.badRequest "the method is not a token".toList)
  else do
    let lines ← fieldLines spec.headers
    let length := if writesLength spec then
        utf8 "Content-Length: ".toList ++ utf8 (Nat.toDigits 10 spec.body.length) ++ CRLF
      else []
    .ok (spec.method.utf8 ++ 32 :: spec.path.utf8 ++ utf8 " HTTP/1.1\r\nHost: ".toList ++ host.utf8 ++
      utf8 "\r\nConnection: close\r\n".toList ++ lines ++ length ++ CRLF ++ spec.body)

/-! ## What the parts may hold -/

theorem isToken_spec {text : Text} (h : isToken text = true) :
    text ≠ [] ∧ text.isAscii ∧ ∀ b ∈ text.utf8, 0x21 ≤ b.toNat ∧ b.toNat ≤ 0x7e ∧ b ≠ 58 := by
  simp only [isToken, Bool.and_eq_true, decide_eq_true_eq, List.all_eq_true] at h
  refine ⟨h.1, isAscii_of_utf8_lt fun b hb => ?_, fun b hb => ?_⟩
  · have hrange := toNat_of_isTokenByte (h.2 b hb)
    rw [UInt8.lt_iff_toNat_lt]
    exact Nat.lt_of_le_of_lt hrange.2 (by decide)
  · refine ⟨(toNat_of_isTokenByte (h.2 b hb)).1, (toNat_of_isTokenByte (h.2 b hb)).2, ?_⟩
    rintro rfl
    exact absurd (h.2 58 hb) (by decide)

/-- Bytes from a bound on are none below it. -/
theorem not_mem_of_le (low : UInt8) {bytes : Bytes} {b : UInt8} (h : ∀ x ∈ bytes, low.toNat ≤ x.toNat) (hb : b.toNat < low.toNat) :
    b ∉ bytes :=
  fun hmem => absurd (h b hmem) (Nat.not_le.mpr hb)

variable {bytes : Bytes}

theorem le_of_not_isControlOrSpace (h : ¬ bytes.any isControlOrSpace = true) :
    ∀ b ∈ bytes, 0x21 ≤ b.toNat := by
  intro b hb
  by_contra hlt
  refine h (List.any_eq_true.mpr ⟨b, hb, ?_⟩)
  rw [isControlOrSpace, Bool.or_eq_true, decide_eq_true_eq, UInt8.lt_iff_toNat_lt]
  exact Or.inl (Nat.not_le.mp hlt)

/-- A field's line, without its end. -/
def rawLine (field : Text × Text) : Bytes := field.1.utf8 ++ 58 :: 32 :: field.2.utf8

/-- What a field that was written is. -/
structure FieldWritten (field : Text × Text) : Prop where
  token : isToken field.1 = true
  own : toAsciiLowercase field.1 ∉ TRANSPORT_FIELDS
  clean : ¬ field.2.utf8.any isControlByte = true

variable {field : Text × Text}

theorem fieldLine_eq_ok {line : Bytes} (h : fieldLine field = .ok line) :
    FieldWritten field ∧ line = rawLine field ++ CRLF := by
  unfold fieldLine at h
  split at h
  · cases h
  rename_i htoken
  split at h
  · cases h
  rename_i hown
  split at h
  · cases h
  rename_i hclean
  cases h
  refine ⟨⟨not_not.mp htoken, hown, hclean⟩, ?_⟩
  have hcolon : utf8 ": ".toList = [58, 32] := by decide
  rw [rawLine, hcolon]
  simp only [List.append_assoc, List.cons_append, List.nil_append]

theorem fieldLines_eq_ok : ∀ {fields : List (Text × Text)} {lines : Bytes}, fieldLines fields = .ok lines →
    (∀ field ∈ fields, FieldWritten field) ∧ lines = written (fields.map rawLine)
  | [], lines, h => by
      cases h
      exact ⟨fun field hfield => absurd hfield List.not_mem_nil, rfl⟩
  | field :: fields, lines, h => by
      obtain ⟨line, hline, h⟩ := bind_eq_ok.mp h
      obtain ⟨rest, hrest, h⟩ := bind_eq_ok.mp h
      cases h
      obtain ⟨hfield, rfl⟩ := fieldLine_eq_ok hline
      obtain ⟨hfields, rfl⟩ := fieldLines_eq_ok hrest
      exact ⟨List.forall_mem_cons.mpr ⟨hfield, hfields⟩, rfl⟩

/-! ## What is read -/

/-- The field with the length of the body, if it is written. -/
def lengthHeaders (spec : RequestSpec) : List (Text × Text) :=
  if writesLength spec then [("Content-Length".toList, Nat.toDigits 10 spec.body.length)] else []

/-- Every field of a request, in order. -/
def allHeaders (host : Text) (spec : RequestSpec) : List (Text × Text) :=
  ("Host".toList, host) :: ("Connection".toList, "close".toList) :: (spec.headers ++ lengthHeaders spec)

/-- A field as its reader has it. -/
def readsAs (field : Text × Text) : HttpMessage.Field := ⟨field.1.utf8, trimOws field.2.utf8⟩

/-- The request line. -/
def requestLine (spec : RequestSpec) : Bytes := spec.method.utf8 ++ 32 :: spec.path.utf8 ++ 32 :: utf8 "HTTP/1.1".toList

/-- What `build_request` checks of a request that it builds. -/
structure Buildable (host : Text) (spec : RequestSpec) : Prop where
  slash : spec.path.head? = some '/'
  path : ¬ spec.path.utf8.any isControlOrSpace = true
  host : ¬ host.utf8.any isControlOrSpace = true
  method : isToken spec.method = true
  headers : ∀ field ∈ spec.headers, FieldWritten field

variable {spec : RequestSpec} {host : Text}

/-- THE BYTES.  The lines of the head, an empty line, the body. -/
theorem buildRequest_eq_ok (h : buildRequest host spec = .ok bytes) :
    Buildable host spec ∧
      bytes = written (requestLine spec :: (allHeaders host spec).map rawLine) ++ CRLF ++ spec.body := by
  unfold buildRequest at h
  split at h
  · cases h
  rename_i hslash
  split at h
  · cases h
  rename_i hpath
  split at h
  · cases h
  rename_i hhost
  split at h
  · cases h
  rename_i hmethod
  obtain ⟨lines, hlines, h⟩ := bind_eq_ok.mp h
  obtain ⟨hheaders, rfl⟩ := fieldLines_eq_ok hlines
  cases h
  refine ⟨⟨not_not.mp (not_or.mp hslash).2, hpath, hhost, not_not.mp hmethod, hheaders⟩, ?_⟩
  have hversion : utf8 " HTTP/1.1\r\nHost: ".toList =
      32 :: utf8 "HTTP/1.1".toList ++ CRLF ++ (utf8 "Host".toList ++ [58, 32]) := by decide
  have hclose : utf8 "\r\nConnection: close\r\n".toList =
      CRLF ++ rawLine ("Connection".toList, "close".toList) ++ CRLF := by decide
  have hlength : (if writesLength spec then
        utf8 "Content-Length: ".toList ++ utf8 (Nat.toDigits 10 spec.body.length) ++ CRLF else []) =
      written ((lengthHeaders spec).map rawLine) := by
    have hname : utf8 "Content-Length: ".toList = utf8 "Content-Length".toList ++ [58, 32] := by decide
    unfold lengthHeaders
    split
    · rw [hname, List.map_singleton, written, List.flatMap_singleton, rawLine]
      simp only [List.append_assoc, List.cons_append, List.nil_append]
    · rfl
  have hhost : utf8 "Host".toList ++ [58, 32] ++ host.utf8 = rawLine ("Host".toList, host) := by
    rw [rawLine, List.append_assoc]
    rfl
  have hall : written (requestLine spec :: (allHeaders host spec).map rawLine) =
      requestLine spec ++ CRLF ++ (rawLine ("Host".toList, host) ++ CRLF ++
        (rawLine ("Connection".toList, "close".toList) ++ CRLF ++
          (written (spec.headers.map rawLine) ++ written ((lengthHeaders spec).map rawLine)))) := by
    simp only [written, allHeaders, List.map_cons, List.map_append, List.flatMap_cons, List.flatMap_append]
  rw [hversion, hclose, hlength, hall, ← hhost, requestLine]
  simp only [List.append_assoc, List.cons_append]

/-- A line of the request has no CR and no LF. -/
def IsLine (line : Bytes) : Prop := line ≠ [] ∧ 13 ∉ line ∧ 10 ∉ line

theorem isLine_rawLine {name value : Text} (hname : isToken name = true)
    (hvalue : ¬ value.utf8.any isControlByte = true) : IsLine (rawLine (name, value)) := by
  have hno : ∀ b : UInt8, isControlByte b = true → b.toNat < 0x21 → b ≠ 58 → b ≠ 32 → b ∉ rawLine (name, value) := by
    intro b hcontrol hlow hcolon hspace hmem
    rcases List.mem_append.mp hmem with hmem | hmem
    · exact absurd ((isToken_spec hname).2.2 b hmem).1 (Nat.not_le.mpr hlow)
    · rcases List.mem_cons.mp hmem with heq | hmem
      · exact hcolon heq
      · rcases List.mem_cons.mp hmem with heq | hmem
        · exact hspace heq
        · exact hvalue (List.any_eq_true.mpr ⟨b, hmem, hcontrol⟩)
  refine ⟨by simp [rawLine], hno 13 ?_ ?_ ?_ ?_, hno 10 ?_ ?_ ?_ ?_⟩ <;> decide

theorem isControlOrSpace_of_isControlByte {b : UInt8} (h : isControlByte b = true) : isControlOrSpace b = true := by
  simp only [isControlByte, isControlOrSpace, Bool.or_eq_true, Bool.and_eq_true, decide_eq_true_eq,
    UInt8.lt_iff_toNat_lt] at h ⊢
  rcases h with ⟨hlow, -⟩ | h
  · exact Or.inl (Nat.lt_of_lt_of_le hlow (by decide))
  · exact Or.inr h

/-- A numeral has digits only. -/
theorem utf8_toDigits_range {n : Nat} : ∀ b ∈ utf8 (Nat.toDigits 10 n), 0x30 ≤ b.toNat ∧ b.toNat ≤ 0x39 := by
  have hdigit : ∀ d < 10, (d.digitChar).val ≤ 127 ∧ 0x30 ≤ (UInt8.ofNat (d.digitChar).toNat).toNat ∧
      (UInt8.ofNat (d.digitChar).toNat).toNat ≤ 0x39 := by decide
  have hascii : isAscii (Nat.toDigits 10 n) := by
    refine List.all_eq_true.mpr fun c hc => ?_
    obtain ⟨d, hd, rfl⟩ := Numerals.mem_toDigits (by decide) n hc
    exact decide_eq_true (hdigit d hd).1
  intro b hb
  rw [utf8_of_isAscii hascii] at hb
  obtain ⟨c, hc, rfl⟩ := List.mem_map.mp hb
  obtain ⟨d, hd, rfl⟩ := Numerals.mem_toDigits (by decide) n hc
  exact (hdigit d hd).2

theorem isToken_transport : isToken "Host".toList = true ∧ isToken "Content-Length".toList = true := by decide

/-- The fields that the transport writes are like the others. -/
theorem fields_of_mem (h : Buildable host spec) (hfield : field ∈ allHeaders host spec) :
    isToken field.1 = true ∧ ¬ field.2.utf8.any isControlByte = true := by
  rcases List.mem_cons.mp hfield with rfl | hfield
  · refine ⟨isToken_transport.1, fun hany => h.host ?_⟩
    obtain ⟨b, hb, hcontrol⟩ := List.any_eq_true.mp hany
    exact List.any_eq_true.mpr ⟨b, hb, isControlOrSpace_of_isControlByte hcontrol⟩
  · rcases List.mem_cons.mp hfield with rfl | hfield
    · exact ⟨by decide, by decide⟩
    · rcases List.mem_append.mp hfield with hfield | hfield
      · exact ⟨(h.headers field hfield).token, (h.headers field hfield).clean⟩
      · unfold lengthHeaders at hfield
        split at hfield
        · obtain rfl := List.mem_singleton.mp hfield
          refine ⟨isToken_transport.2, fun hany => ?_⟩
          obtain ⟨b, hb, hcontrol⟩ := List.any_eq_true.mp hany
          have hrange := utf8_toDigits_range b hb
          rw [isControlByte, Bool.or_eq_true, Bool.and_eq_true, decide_eq_true_eq, decide_eq_true_eq,
            decide_eq_true_eq, UInt8.lt_iff_toNat_lt] at hcontrol
          rcases hcontrol with ⟨hlow, -⟩ | rfl
          · exact absurd hrange.1 (Nat.not_le.mpr (Nat.lt_trans hlow (by decide)))
          · exact absurd hrange.2 (by decide)
        · cases hfield

theorem isLine_requestLine (h : Buildable host spec) :
    (∀ part ∈ [spec.method.utf8, spec.path.utf8, utf8 "HTTP/1.1".toList], ∀ b ∈ part, 0x21 ≤ b.toNat) ∧
      IsLine (requestLine spec) := by
  have hparts : ∀ part ∈ [spec.method.utf8, spec.path.utf8, utf8 "HTTP/1.1".toList], ∀ b ∈ part, 0x21 ≤ b.toNat := by
    intro part hpart
    rcases List.mem_cons.mp hpart with rfl | hpart
    · exact fun b hb => ((isToken_spec h.method).2.2 b hb).1
    · rcases List.mem_cons.mp hpart with rfl | hpart
      · exact le_of_not_isControlOrSpace h.path
      · rw [List.mem_singleton.mp hpart]
        have hall : (utf8 "HTTP/1.1".toList).all (fun b => decide (0x21 ≤ b.toNat)) = true := by decide
        exact fun b hb => of_decide_eq_true (List.all_eq_true.mp hall b hb)
  have hno : ∀ b : UInt8, b.toNat < 0x21 → b ≠ 32 → b ∉ requestLine spec := by
    intro b hlow hspace hmem
    simp only [requestLine, List.mem_append, List.mem_cons] at hmem
    rcases hmem with (hmem | heq | hmem) | heq | hmem
    · exact absurd (hparts _ (by simp) b hmem) (Nat.not_le.mpr hlow)
    · exact hspace heq
    · exact absurd (hparts _ (by simp) b hmem) (Nat.not_le.mpr hlow)
    · exact hspace heq
    · exact absurd (hparts _ (by simp) b hmem) (Nat.not_le.mpr hlow)
  exact ⟨hparts, by simp [requestLine], hno 13 (by decide) (by decide), hno 10 (by decide) (by decide)⟩

theorem isLine_of_mem (h : Buildable host spec) :
    ∀ line ∈ requestLine spec :: (allHeaders host spec).map rawLine, IsLine line := by
  intro line hline
  rcases List.mem_cons.mp hline with rfl | hline
  · exact (isLine_requestLine h).2
  · obtain ⟨field, hfield, rfl⟩ := List.mem_map.mp hline
    exact isLine_rawLine (fields_of_mem h hfield).1 (fields_of_mem h hfield).2

theorem readField_rawLine (h : isToken field.1 = true) :
    readField (rawLine field) = some (readsAs field) := by
  have hcolon : 58 ∉ field.1.utf8 := fun hmem => ((isToken_spec h).2.2 58 hmem).2.2 rfl
  rw [rawLine, HttpMessage.readField_append hcolon, HttpMessage.trimOws_cons (by decide)]
  rfl

theorem mapM_readField {fields : List (Text × Text)} (h : ∀ field ∈ fields, isToken field.1 = true) :
    (fields.map rawLine).mapM readField = some (fields.map readsAs) := by
  induction fields with
  | nil => rfl
  | cons field fields ih =>
      have hhead := readField_rawLine (h field List.mem_cons_self)
      have htail := ih fun f hf => h f (List.mem_cons_of_mem _ hf)
      rw [List.map_cons, List.mapM_cons, hhead, htail]
      rfl

/-! ## Where the body ends -/

theorem isNamed_readsAs {written : Text} (h : isToken written = true) (value name : Text) :
    (readsAs (written, value)).isNamed name = decide (toAsciiLowercase written = name) := by
  have hbytes : written.utf8.map lowerByte = (toAsciiLowercase written).utf8 :=
    (HttpMessage.utf8_toAsciiLowercase (isToken_spec h).2.1).symm
  show decide (written.utf8.map lowerByte = name.utf8) = _
  rw [hbytes, decide_eq_decide]
  exact ⟨fun heq => utf8_injective heq, fun heq => by rw [heq]⟩

theorem filter_headers (h : Buildable host spec) {name : Text}
    (hname : name ∈ TRANSPORT_FIELDS) : (spec.headers.map readsAs).filter (fun f => f.isNamed name) = [] := by
  rw [List.filter_eq_nil_iff]
  intro f hf
  obtain ⟨⟨written, value⟩, hfield, rfl⟩ := List.mem_map.mp hf
  have hwritten := h.headers _ hfield
  rw [isNamed_readsAs hwritten.token, decide_eq_true_eq]
  intro heq
  exact hwritten.own (heq ▸ hname)

theorem lower_names : toAsciiLowercase "Host".toList = "host".toList ∧
    toAsciiLowercase "Connection".toList = "connection".toList ∧
    toAsciiLowercase "Content-Length".toList = "content-length".toList := by decide

theorem map_readsAs_eq : (allHeaders host spec).map readsAs =
    readsAs ("Host".toList, host) :: readsAs ("Connection".toList, "close".toList) ::
      (spec.headers.map readsAs ++ (lengthHeaders spec).map readsAs) := by
  rw [allHeaders, List.map_cons, List.map_cons, List.map_append]

/-- The fields of a name that is neither `Host` nor `Connection`. -/
theorem filter_allHeaders (h : Buildable host spec) (name : Text)
    (hname : name ∈ TRANSPORT_FIELDS) (hhost : "host".toList ≠ name) (hconnection : "connection".toList ≠ name) :
    ((allHeaders host spec).map readsAs).filter (fun f => f.isNamed name) =
      ((lengthHeaders spec).map readsAs).filter fun f => f.isNamed name := by
  have hfirst : ¬ (readsAs ("Host".toList, host)).isNamed name = true := by
    rw [isNamed_readsAs isToken_transport.1, decide_eq_true_eq, lower_names.1]
    exact hhost
  have hsecond : ¬ (readsAs ("Connection".toList, "close".toList)).isNamed name = true := by
    rw [isNamed_readsAs (by decide), decide_eq_true_eq, lower_names.2.1]
    exact hconnection
  rw [map_readsAs_eq, List.filter_cons, if_neg hfirst, List.filter_cons, if_neg hsecond, List.filter_append,
    filter_headers h hname, List.nil_append]

/-- A value from the exclamation mark on has nothing to trim. -/
theorem trimOws_of_le (h : ∀ b ∈ bytes, 0x21 ≤ b.toNat) : trimOws bytes = bytes := by
  refine HttpMessage.trimOws_of_none fun b hb => ?_
  rw [isOws, Bool.or_eq_false_iff, decide_eq_false_iff_not, decide_eq_false_iff_not]
  constructor
  · rintro rfl
    exact absurd (h 32 hb) (by decide)
  · rintro rfl
    exact absurd (h 9 hb) (by decide)

theorem trimOws_toDigits (n : Nat) : trimOws (utf8 (Nat.toDigits 10 n)) = utf8 (Nat.toDigits 10 n) :=
  trimOws_of_le fun b hb => Nat.le_trans (by decide) (utf8_toDigits_range b hb).1

theorem bodyLength_eq (h : Buildable host spec) :
    bodyLength ((allHeaders host spec).map readsAs) = some spec.body.length := by
  have hcoded := filter_allHeaders h "transfer-encoding".toList (by decide) (by decide) (by decide)
  have hlength := filter_allHeaders h "content-length".toList (by decide) (by decide) (by decide)
  have hnamed := isNamed_readsAs isToken_transport.2 (Nat.toDigits 10 spec.body.length)
  rw [lower_names.2.2] at hnamed
  by_cases hwrites : writesLength spec = true
  · rw [lengthHeaders, if_pos hwrites, List.map_singleton] at hcoded hlength
    have hnone : (((allHeaders host spec).map readsAs).any fun f => f.isNamed "transfer-encoding".toList) = false := by
      rw [List.any_eq_false, ← List.filter_eq_nil_iff, hcoded, List.filter_cons, hnamed, if_neg (by decide),
        List.filter_nil]
    rw [bodyLength, hnone, if_neg Bool.false_ne_true, hlength, List.filter_cons, hnamed, if_pos (by decide),
      List.filter_nil]
    show HttpMessage.readNumeral (trimOws _) = _
    rw [trimOws_toDigits, HttpMessage.readNumeral_toDigits]
  · rw [lengthHeaders, if_neg hwrites, List.map_nil, List.filter_nil] at hcoded hlength
    have hnone : (((allHeaders host spec).map readsAs).any fun f => f.isNamed "transfer-encoding".toList) = false := by
      rw [List.any_eq_false, ← List.filter_eq_nil_iff, hcoded]
    have hbody : spec.body = [] := by
      by_contra hne
      exact hwrites (by simp [writesLength, hne])
    rw [bodyLength, hnone, if_neg Bool.false_ne_true, hlength, hbody]
    rfl

/-- The fields as the reader has them. -/
theorem map_readsAs_allHeaders (h : Buildable host spec) :
    (allHeaders host spec).map readsAs =
      ⟨utf8 "Host".toList, host.utf8⟩ :: ⟨utf8 "Connection".toList, utf8 "close".toList⟩ ::
        (spec.headers.map readsAs ++
          if writesLength spec then [⟨utf8 "Content-Length".toList, utf8 (Nat.toDigits 10 spec.body.length)⟩] else []) := by
  have hhost : readsAs ("Host".toList, host) = ⟨utf8 "Host".toList, host.utf8⟩ := by
    rw [readsAs, trimOws_of_le (le_of_not_isControlOrSpace h.host)]
  have hclose : readsAs ("Connection".toList, "close".toList) = ⟨utf8 "Connection".toList, utf8 "close".toList⟩ := by
    decide
  have hlength : (lengthHeaders spec).map readsAs =
      if writesLength spec then [⟨utf8 "Content-Length".toList, utf8 (Nat.toDigits 10 spec.body.length)⟩] else [] := by
    unfold lengthHeaders
    split
    · rw [List.map_singleton, readsAs, trimOws_toDigits]
    · rfl
  rw [map_readsAs_eq, hhost, hclose, hlength]

theorem readRequest_built (h : buildRequest host spec = .ok bytes) :
    readRequest bytes = some (⟨spec.method.utf8, spec.path.utf8, utf8 "HTTP/1.1".toList,
      (allHeaders host spec).map readsAs, spec.body⟩, []) := by
  obtain ⟨hbuild, hbytes⟩ := buildRequest_eq_ok h
  have hlines := isLine_of_mem hbuild
  obtain ⟨hparts, -⟩ := isLine_requestLine hbuild
  rw [hbytes]
  exact HttpMessage.readRequest_written
    (fun part hpart => ⟨not_mem_of_le 33 (hparts part hpart) (by decide),
      not_mem_of_le 33 (hparts part hpart) (by decide)⟩)
    (fun line hline => ⟨(hlines line (List.mem_cons_of_mem _ hline)).1,
      (hlines line (List.mem_cons_of_mem _ hline)).2.1⟩)
    (mapM_readField fun field hfield => (fields_of_mem hbuild hfield).1) (bodyLength_eq hbuild)

/-- A REQUEST CANNOT BE SPLIT.  Read with no knowledge of how they were built, the bytes of a request
are its method, its path, its fields in order between those of the transport, and its body,
with nothing left over; and its head has a CR or an LF only where a line ends. -/
theorem request_reads_back {host : Text} {spec : RequestSpec} {bytes : Bytes}
    (h : buildRequest host spec = .ok bytes) :
    readRequest bytes = some (⟨spec.method.utf8, spec.path.utf8, utf8 "HTTP/1.1".toList,
        ⟨utf8 "Host".toList, host.utf8⟩ :: ⟨utf8 "Connection".toList, utf8 "close".toList⟩ ::
          (spec.headers.map readsAs ++
            if writesLength spec then
              [⟨utf8 "Content-Length".toList, utf8 (Nat.toDigits 10 spec.body.length)⟩]
            else []),
        spec.body⟩, []) ∧
      ∃ lines : List Bytes, bytes = written lines ++ CRLF ++ spec.body ∧ ∀ line ∈ lines, 13 ∉ line ∧ 10 ∉ line := by
  obtain ⟨hbuild, hbytes⟩ := buildRequest_eq_ok h
  have hlines := isLine_of_mem hbuild
  refine ⟨?_, _, hbytes, fun line hline => (hlines line hline).2⟩
  rw [readRequest_built h, map_readsAs_allHeaders hbuild]

/-- A `POST` with a field and a body. -/
def samplePost : RequestSpec where
  method := "POST".toList
  path := "/a".toList
  headers := [("X-A".toList, " b".toList)]
  body := utf8 "hi".toList

def samplePostBytes : Bytes :=
  utf8 "POST /a HTTP/1.1\r\nHost: example.com\r\nConnection: close\r\nX-A:  b\r\nContent-Length: 2\r\n\r\nhi".toList

theorem buildRequest_samplePost : buildRequest "example.com".toList samplePost = .ok samplePostBytes := by
  decide +kernel

theorem request_reads_back_post :
    readRequest samplePostBytes = some (⟨utf8 "POST".toList, utf8 "/a".toList, utf8 "HTTP/1.1".toList,
        ⟨utf8 "Host".toList, utf8 "example.com".toList⟩ :: ⟨utf8 "Connection".toList, utf8 "close".toList⟩ ::
          ([("X-A".toList, " b".toList)].map readsAs ++
            [⟨utf8 "Content-Length".toList, utf8 (Nat.toDigits 10 2)⟩]),
        utf8 "hi".toList⟩, []) :=
  (request_reads_back buildRequest_samplePost).1

/-! ## Sending it -/

/-- What is outside: the sockets, and TLS over them. -/
structure Network where
  connect : Text → Except Text Unit
  setReadTimeout : Except Text Unit
  setWriteTimeout : Except Text Unit
  clientConfig : Except FetchError Unit
  connectWith : Text → Except FetchError Unit
  stream : Wire
  session : Wire

/-- A request that is written: over TLS or not, to which address, which bytes. -/
structure Sent where
  secure : Bool
  address : Text
  bytes : Bytes
  deriving DecidableEq

/-- `fetch_request` up to the exchange: the request that it writes. -/
def prepare (network : Network) (key : PartitionKey) (spec : RequestSpec) (preload : Option PreloadList) :
    Except FetchError Sent :=
  -- a plaintext request to a preloaded host does not leave the machine
  if preload.any fun list => !key.origin.isSecure && list.requiresHttps key.origin.host then
    .error .plaintextToPreloadedHost
  else do
    let request ← buildRequest key.origin.host spec
    let address := key.origin.host ++ ':' :: Nat.toDigits 10 key.origin.port.toNat
    let _ ← (network.connect address).mapError FetchError.connect
    let _ ← network.setReadTimeout.mapError FetchError.io
    let _ ← network.setWriteTimeout.mapError FetchError.io
    if key.origin.isSecure then do
      let _ ← network.clientConfig
      let _ ← network.connectWith key.origin.host
      .ok ⟨true, address, request⟩
    else .ok ⟨false, address, request⟩

/-! ## The origin it names -/

/-- The scheme of the connection that a request was written to. -/
def Sent.scheme (sent : Sent) : Text := if sent.secure then "https".toList else "http".toList

theorem prepare_eq_ok {network : Network} {key : PartitionKey} {preload : Option PreloadList} {sent : Sent} (h : prepare network key spec preload = .ok sent) :
    buildRequest key.origin.host spec = .ok sent.bytes ∧ sent.scheme = key.origin.scheme := by
  unfold prepare at h
  split at h
  · cases h
  obtain ⟨request, hrequest, h⟩ := bind_eq_ok.mp h
  obtain ⟨_, -, h⟩ := bind_eq_ok.mp h
  obtain ⟨_, -, h⟩ := bind_eq_ok.mp h
  obtain ⟨_, -, h⟩ := bind_eq_ok.mp h
  split at h
  · rename_i hsecure
    obtain ⟨_, -, h⟩ := bind_eq_ok.mp h
    obtain ⟨_, -, h⟩ := bind_eq_ok.mp h
    cases h
    exact ⟨hrequest, (of_decide_eq_true hsecure).symm⟩
  · rename_i hplain
    cases h
    refine ⟨hrequest, ?_⟩
    rcases key.origin.valid.scheme_ok with hhttps | hhttp
    · exact absurd (decide_eq_true hhttps) hplain
    · exact hhttp.symm

theorem filter_host (h : Buildable host spec) :
    ((allHeaders host spec).map readsAs).filter (fun f => f.isNamed "host".toList) =
      [⟨utf8 "Host".toList, host.utf8⟩] := by
  have hlength : ((lengthHeaders spec).map readsAs).filter (fun f => f.isNamed "host".toList) = [] := by
    unfold lengthHeaders
    split
    · rw [List.map_singleton, List.filter_cons, isNamed_readsAs isToken_transport.2, lower_names.2.2,
        if_neg (by decide), List.filter_nil]
    · rfl
  have hfirst : (readsAs ("Host".toList, host)).isNamed "host".toList = true := by
    rw [isNamed_readsAs isToken_transport.1, lower_names.1]
    decide
  have hsecond : ¬ (readsAs ("Connection".toList, "close".toList)).isNamed "host".toList = true := by decide
  have hhost : readsAs ("Host".toList, host) = ⟨utf8 "Host".toList, host.utf8⟩ := by
    rw [readsAs, trimOws_of_le (le_of_not_isControlOrSpace h.host)]
  rw [map_readsAs_eq, List.filter_cons, if_pos hfirst, List.filter_cons, if_neg hsecond, List.filter_append,
    filter_headers h (by decide), hlength, List.append_nil, hhost]

/-- The path of a request that was built begins with the byte of a slash. -/
theorem head?_path (h : Buildable host spec) : spec.path.utf8.head? = some 47 := by
  have hslash := h.slash
  cases hpath : spec.path with
  | nil =>
      rw [hpath] at hslash
      cases hslash
  | cons c path =>
      rw [hpath, List.head?_cons, Option.some.injEq] at hslash
      rw [hslash]
      rfl

/-- What a server makes of a request that is sent: all it is told of the port is in the host. -/
theorem reconstruct_sent {network : Network} {key : PartitionKey} {preload : Option PreloadList} {sent : Sent} (h : prepare network key spec preload = .ok sent) :
    HttpMessage.reconstruct sent.scheme sent.bytes =
      (HttpMessage.readAuthority key.origin.host.utf8).bind fun authority =>
        some ⟨key.origin.scheme, authority.host,
          authority.port.getD (HttpMessage.defaultPort key.origin.scheme), spec.path.utf8⟩ := by
  obtain ⟨hrequest, hscheme⟩ := prepare_eq_ok h
  obtain ⟨hbuild, -⟩ := buildRequest_eq_ok hrequest
  rw [HttpMessage.reconstruct, readRequest_built hrequest]
  simp only [Option.bind_eq_bind, Option.bind_some, filter_host hbuild, head?_path hbuild, if_true, hscheme]

/-- WHOM A REQUEST NAMES.  The URI that a server makes of a request that is sent is the one it is for if
and only if the port is the default one and the host is a host as URIs have them: the port is
never written. -/
theorem request_names_origin_iff {network : Network} {key : PartitionKey} {spec : RequestSpec}
    {preload : Option PreloadList} {sent : Sent} (h : prepare network key spec preload = .ok sent) :
    HttpMessage.reconstruct sent.scheme sent.bytes =
        some ⟨key.origin.scheme, key.origin.host.utf8, key.origin.port.toNat, spec.path.utf8⟩ ↔
      key.origin.port.toNat = HttpMessage.defaultPort key.origin.scheme ∧
        HttpMessage.isUriHost key.origin.host.utf8 = true := by
  rw [reconstruct_sent h, Option.bind_eq_some_iff]
  constructor
  · rintro ⟨authority, hauthority, heq⟩
    injection heq with heq
    injection heq with _ hhost hport _
    rw [show authority = ⟨key.origin.host.utf8, authority.port⟩ by rw [← hhost]] at hauthority
    obtain ⟨hvalid, hnone⟩ := HttpMessage.readAuthority_host_iff.mp hauthority
    rw [hnone, Option.getD_none] at hport
    exact ⟨hport.symm, hvalid⟩
  · rintro ⟨hport, hvalid⟩
    refine ⟨⟨key.origin.host.utf8, none⟩, HttpMessage.readAuthority_host_iff.mpr ⟨hvalid, rfl⟩, ?_⟩
    rw [Option.getD_none, hport]

/-- A network on which everything succeeds. -/
def openNetwork : Network where
  connect _ := .ok ()
  setReadTimeout := .ok ()
  setWriteTimeout := .ok ()
  clientConfig := .ok ()
  connectWith _ := .ok ()
  stream := .delivering []
  session := .delivering []

/-- The key of `https://example.com` at a port, under its own site. -/
def exampleKey (port : UInt16) : PartitionKey where
  topLevelSite := "example.com".toList
  origin :=
    { scheme := "https".toList
      host := "example.com".toList
      port
      valid := ⟨Or.inl rfl, by decide, by decide, by decide⟩ }
  site_ne_nil := by decide

def RequestSpec.get (path : Text) : RequestSpec := ⟨"GET".toList, path, [], []⟩

/-- What is written for the root of that origin. -/
def exampleSent (address : String) : Sent where
  secure := true
  address := address.toList
  bytes := utf8 "GET / HTTP/1.1\r\nHost: example.com\r\nConnection: close\r\n\r\n".toList

theorem request_names_default_port :
    HttpMessage.reconstruct "https".toList (exampleSent "example.com:443").bytes =
        some ⟨"https".toList, utf8 "example.com".toList, 443, utf8 "/".toList⟩ ↔
      (443 : UInt16).toNat = HttpMessage.defaultPort "https".toList ∧
        HttpMessage.isUriHost (utf8 "example.com".toList) = true :=
  request_names_origin_iff (show prepare openNetwork (exampleKey 443) (.get "/".toList) none =
    .ok (exampleSent "example.com:443") by decide +kernel)

/-- The request for port 8443 names port 443. -/
theorem other_port_not_named :
    prepare openNetwork (exampleKey 8443) (.get "/".toList) none = .ok (exampleSent "example.com:8443") ∧
      HttpMessage.reconstruct "https".toList (exampleSent "example.com:8443").bytes ≠
        some ⟨(exampleKey 8443).origin.scheme, (exampleKey 8443).origin.host.utf8,
          (exampleKey 8443).origin.port.toNat, utf8 "/".toList⟩ := by
  have hsent : prepare openNetwork (exampleKey 8443) (.get "/".toList) none = .ok (exampleSent "example.com:8443") := by
    decide +kernel
  refine ⟨hsent, ?_⟩
  rw [show "https".toList = (exampleSent "example.com:8443").scheme from rfl, reconstruct_sent hsent]
  decide

end Pelorus.Net
