import Pelorus.Lib.EarlyExit
import Pelorus.Lib.Incremental
import Pelorus.Lib.Numerals
import Pelorus.Net.Partition

/-
  Net/Http1.lean --- response heads and chunked bodies (`px-net/src/http1.rs`).

  POSITIONS are numbers: a slice has fewer than 2^63 bytes and every position is at most
  a chunk past its end, so the source's checked additions never fail.

  ONE TURN of a loop is a definition of its own.  The incremental decoder's turn is the
  one-shot decoder's turn with the wish for more bytes made a result (`pushTurn_eq`), and
  every reader here settles.
-/
set_option autoImplicit false

namespace Pelorus.Net.Http1

open Lib Lib.Text

def MAX_STATUS_LINE : Nat := 8 * 1024

def MAX_HEADER_LINE : Nat := 16 * 1024

def MAX_HEADERS : Nat := 128

def MAX_BODY_BYTES : Nat := 32 * 1024 * 1024

def MAX_CHUNK_BYTES : Nat := 8 * 1024 * 1024

/-! ## Lines -/

/-- A line without its terminator, and how many bytes it took with it. -/
structure Line where
  text : Bytes
  used : Nat
  deriving DecidableEq

/-- A carriage return before the line feed belongs to the terminator; one anywhere else
does not end a line. -/
def withoutCr (line : Bytes) : Bytes :=
  if line.getLast? = some 13 then line.dropLast else line

def readLine (bytes : Bytes) (limit : Nat) (what : Text) : Except Http1Error Line :=
  match bytes.findIdx? (· = 10) with
  | none => .error .truncated
  | some stop =>
      if limit < stop then .error (.tooLarge what)
      else .ok ⟨withoutCr (bytes.take stop), stop + 1⟩

/-- `u8::is_ascii_whitespace`. -/
def isAsciiWhitespace (b : UInt8) : Bool := b = 0x09 || b = 0x0a || b = 0x0c || b = 0x0d || b = 0x20

/-- `trim`: from the first byte that is not whitespace to the last. -/
def trimBytes (bytes : Bytes) : Bytes := (bytes.dropWhile isAsciiWhitespace).rdropWhile isAsciiWhitespace

/-- `checked_mul` by the radix, then `checked_add` of a digit. -/
def pushDigit (radix bound value digit : Nat) : Option Nat :=
  if value * radix + digit < bound then some (value * radix + digit) else none

def isAsciiDigit (b : UInt8) : Bool := 0x30 ≤ b && b ≤ 0x39

def isAsciiAlphanumeric (b : UInt8) : Bool :=
  isAsciiDigit b || (0x41 ≤ b && b ≤ 0x5a) || (0x61 ≤ b && b ≤ 0x7a)

def isTokenByte (b : UInt8) : Bool :=
  isAsciiAlphanumeric b ||
    [0x21, 0x23, 0x24, 0x25, 0x26, 0x27, 0x2a, 0x2b, 0x2d, 0x2e, 0x5e, 0x5f, 0x60, 0x7c, 0x7e].contains b

/-- A byte no field value may have. -/
def isControlByte (b : UInt8) : Bool := (b < 0x20 && b ≠ 0x09) || b = 0x7f

theorem toNat_of_isTokenByte {b : UInt8} (h : isTokenByte b = true) : 0x21 ≤ b.toNat ∧ b.toNat ≤ 0x7e := by
  simp only [isTokenByte, isAsciiAlphanumeric, isAsciiDigit, Bool.or_eq_true, Bool.and_eq_true, decide_eq_true_eq,
    UInt8.le_iff_toNat_le, List.contains_iff_mem, List.mem_cons, List.not_mem_nil, or_false] at h
  rcases h with ((⟨h₁, h₂⟩ | ⟨h₁, h₂⟩) | ⟨h₁, h₂⟩) | h
  · exact ⟨Nat.le_trans (by decide) h₁, Nat.le_trans h₂ (by decide)⟩
  · exact ⟨Nat.le_trans (by decide) h₁, Nat.le_trans h₂ (by decide)⟩
  · exact ⟨Nat.le_trans (by decide) h₁, Nat.le_trans h₂ (by decide)⟩
  · rcases h with rfl | rfl | rfl | rfl | rfl | rfl | rfl | rfl | rfl | rfl | rfl | rfl | rfl | rfl | rfl <;>
      decide

/-! ## The head of a response -/

/-- The three digits of a status, over `u16`. -/
def statusFrom : Nat → Bytes → Option Nat
  | status, [] => some status
  | status, digit :: code => (pushDigit 10 (2 ^ 16) status (digit.toNat - 48)).bind fun status => statusFrom status code

def parseStatusLine (line : Bytes) : Except Http1Error UInt16 :=
  let version := line.takeWhile (· ≠ 32)
  match line.dropWhile (· ≠ 32) with
  | [] => .error .badStatusLine
  | _ :: rest =>
      let code := rest.takeWhile (· ≠ 32)
      if version ≠ utf8 "HTTP/1.1".toList ∧ version ≠ utf8 "HTTP/1.0".toList then .error .badStatusLine
      else if code.length ≠ 3 ∨ ¬ code.all isAsciiDigit then .error .badStatusLine
      else
        match statusFrom 0 code with
        | none => .error .badStatusLine
        | some status => .ok (UInt16.ofNat status)

def parseHeader (line : Bytes) : Except Http1Error HttpHeader :=
  -- a folded line continues the field before it, and is refused
  if line.head? = some 32 ∨ line.head? = some 9 then .error .badHeader
  else
    match line.findIdx? (· = 58) with
    | none => .error .badHeader
    | some colon =>
        let name := line.take colon
        let value := line.drop (colon + 1)
        if name = [] ∨ ¬ name.all isTokenByte then .error .badHeader
        else if value.any isControlByte then .error .badHeader
        else
          match fromUtf8 (name.map lowerByte), fromUtf8 (trimBytes value) with
          | some name, some value => .ok ⟨name, value⟩
          | _, _ => .error .badHeader

/-- The last of the codings a `Transfer-Encoding` value lists. -/
def finalCoding (value : Text) : Text :=
  toAsciiLowercase (trim ((value.splitOn ',').getLast?.getD []))

def determineFraming (status : UInt16) (headers : List HttpHeader) : Except Http1Error Framing :=
  if status = 204 ∨ status = 304 ∨ (100 ≤ status ∧ status < 200) then .ok .empty
  else
    let lengths := headers.filter fun h => h.name = "content-length".toList
    let encodings := headers.filter fun h => h.name = "transfer-encoding".toList
    if lengths ≠ [] ∧ encodings ≠ [] then .error (.ambiguousFraming .lengthAndTransferEncoding)
    else
      match encodings.getLast? with
      | some last =>
          if finalCoding last.value ≠ "chunked".toList then
            .error (.ambiguousFraming .transferEncodingNotChunked)
          else .ok .chunked
      | none =>
          match lengths with
          | [] => .ok .untilClose
          | [length] =>
              if length.value = [] ∨ ¬ length.value.all Char.isDigit then
                .error (.ambiguousFraming .malformedContentLength)
              else
                match Numerals.parseUnsigned 10 (2 ^ 64) length.value with
                | none => .error (.tooLarge "content-length".toList)
                | some n => if MAX_BODY_BYTES < n then .error (.tooLarge "content-length".toList) else .ok (.length n)
          | _ => .error (.ambiguousFraming .repeatedContentLength)

/-- The fields of a head, and where it ends. -/
structure Fields where
  headers : List HttpHeader
  stop : Nat
  deriving DecidableEq

/-- The loop over the header lines, with room for so many more fields. -/
def readFields (bytes : Bytes) : Nat → List HttpHeader → Nat → Except Http1Error Fields
  | room, headers, offset => do
      let line ← readLine (bytes.drop offset) MAX_HEADER_LINE "header line".toList
      if line.text = [] then .ok ⟨headers, offset + line.used⟩
      else
        match room with
        | 0 => .error (.tooLarge "header count".toList)
        | room + 1 => do
            let header ← parseHeader line.text
            readFields bytes room (headers ++ [header]) (offset + line.used)

/-- A response head, and how many bytes it took. -/
structure ParsedHead where
  head : ResponseHead
  stop : Nat
  deriving DecidableEq

def parseResponseHead (bytes : Bytes) : Except Http1Error ParsedHead := do
  let line ← readLine bytes MAX_STATUS_LINE "status line".toList
  let status ← parseStatusLine line.text
  let fields ← readFields bytes MAX_HEADERS [] line.used
  let framing ← determineFraming status fields.headers
  .ok ⟨⟨status, fields.headers, framing⟩, fields.stop⟩

variable {bytes : Bytes}

theorem readLine_ok {limit : Nat} {what : Text} {line : Line}
    (h : readLine bytes limit what = .ok line) :
    0 < line.used ∧ line.used ≤ bytes.length := by
  unfold readLine at h
  split at h
  · cases h
  · rename_i stop hstop
    split at h
    · cases h
    · cases h
      exact ⟨Nat.succ_pos stop, (List.findIdx?_eq_some_iff_getElem.mp hstop).1⟩

theorem readFields_stop {bytes : Bytes} {fields : Fields} : ∀ {room : Nat} {headers : List HttpHeader}
    {offset : Nat}, readFields bytes room headers offset = .ok fields →
    offset < fields.stop ∧ fields.stop ≤ bytes.length
  | room, headers, offset, h => by
      rw [readFields] at h
      obtain ⟨line, hline, h⟩ := bind_eq_ok.mp h
      have hused := readLine_ok hline
      rw [List.length_drop] at hused
      split at h
      · cases h
        constructor
        · show offset < offset + line.used
          omega
        · show offset + line.used ≤ bytes.length
          omega
      · cases room with
        | zero => cases h
        | succ room =>
            obtain ⟨header, -, h⟩ := bind_eq_ok.mp h
            have hstop := readFields_stop h
            omega

theorem parseResponseHead_stop {parsed : ParsedHead} (h : parseResponseHead bytes = .ok parsed) :
    0 < parsed.stop ∧ parsed.stop ≤ bytes.length := by
  obtain ⟨line, -, h⟩ := bind_eq_ok.mp h
  obtain ⟨status, -, h⟩ := bind_eq_ok.mp h
  obtain ⟨fields, hfields, h⟩ := bind_eq_ok.mp h
  obtain ⟨framing, -, h⟩ := bind_eq_ok.mp h
  cases h
  have hstop := readFields_stop hfields
  exact ⟨Nat.zero_lt_of_lt hstop.1, hstop.2⟩

theorem determineFraming_of_parse {parsed : ParsedHead} (h : parseResponseHead bytes = .ok parsed) :
    determineFraming parsed.head.status parsed.head.headers = .ok parsed.head.framing := by
  obtain ⟨line, -, h⟩ := bind_eq_ok.mp h
  obtain ⟨status, -, h⟩ := bind_eq_ok.mp h
  obtain ⟨fields, -, h⟩ := bind_eq_ok.mp h
  obtain ⟨framing, hframing, h⟩ := bind_eq_ok.mp h
  cases h
  exact hframing

/-! ## Chunked bodies -/

/-- The value of a hexadecimal digit. -/
def hexDigit (b : UInt8) : Option Nat :=
  if 0x30 ≤ b ∧ b ≤ 0x39 then some (b.toNat - 0x30)
  else if 0x61 ≤ b ∧ b ≤ 0x66 then some (b.toNat - 0x61 + 10)
  else if 0x41 ≤ b ∧ b ≤ 0x46 then some (b.toNat - 0x41 + 10)
  else none

/-- The digits of a chunk size, over `usize`. -/
def chunkSizeFrom : Nat → Bytes → Except Http1Error Nat
  | size, [] => .ok size
  | size, byte :: field =>
      match hexDigit byte with
      | none => .error (.ambiguousFraming .malformedChunkSize)
      | some digit =>
          match pushDigit 16 (2 ^ 64) size digit with
          | none => .error (.tooLarge "chunk size".toList)
          | some size => chunkSizeFrom size field

def parseChunkSize (field : Bytes) : Except Http1Error Nat :=
  let field := trimBytes field
  if field = [] ∨ 16 < field.length then .error (.ambiguousFraming .malformedChunkSize)
  else chunkSizeFrom 0 field

/-- What is before the extensions of a chunk size line. -/
def sizeField (line : Bytes) : Bytes := line.takeWhile (· ≠ 59)

/-- `bytes[start..stop]`, where that much has arrived. -/
def slice (bytes : Bytes) (start stop : Nat) : Except Http1Error Bytes :=
  if stop ≤ bytes.length then .ok ((bytes.take stop).drop start) else .error .truncated

/-- The trailers up to the blank line, read and discarded: where they end. -/
def readTrailers (bytes : Bytes) (offset : Nat) : Except Http1Error Nat :=
  match h : readLine (bytes.drop offset) MAX_HEADER_LINE "trailer".toList with
  | .error e => .error e
  | .ok trailer =>
      if trailer.text = [] then .ok (offset + trailer.used) else readTrailers bytes (offset + trailer.used)
termination_by bytes.length - offset
decreasing_by
  have hused := readLine_ok h
  rw [List.length_drop] at hused
  omega

/-- How one turn of a decoder ends: after the last chunk, or after another one. -/
inductive Turn where
  | finished (stop : Nat)
  | chunk (data : Bytes) (stop : Nat)
  deriving DecidableEq

/-- One turn of `decode_chunked`, from a position, with so many bytes decoded. -/
def decodeTurn (bytes : Bytes) (decoded offset : Nat) : Except Http1Error Turn := do
  let line ← readLine (bytes.drop offset) MAX_HEADER_LINE "chunk size line".toList
  let size ← parseChunkSize (sizeField line.text)
  if size = 0 then
    let stop ← readTrailers bytes (offset + line.used)
    .ok (.finished stop)
  else if MAX_CHUNK_BYTES < size then .error (.tooLarge "chunk".toList)
  else if MAX_BODY_BYTES < decoded + size then .error (.tooLarge "body".toList)
  else
    let data ← slice bytes (offset + line.used) (offset + line.used + size)
    -- a line that is not empty here says the declared size was wrong
    let terminator ← readLine (bytes.drop (offset + line.used + size)) 2 "chunk terminator".toList
    if terminator.text ≠ [] then .error (.ambiguousFraming .malformedChunkSize)
    else .ok (.chunk data (offset + line.used + size + terminator.used))

theorem readTrailers_lt {offset stop : Nat} (h : readTrailers bytes offset = .ok stop) :
    offset < stop ∧ stop ≤ bytes.length := by
  fun_induction readTrailers bytes offset with
  | case1 => cases h
  | case2 offset trailer hline =>
      cases h
      have hused := readLine_ok hline
      rw [List.length_drop] at hused
      omega
  | case3 offset trailer hline _ ih =>
      have hused := readLine_ok hline
      have hstop := ih h
      omega

/-- Where a turn stopped. -/
def Turn.stop : Turn → Nat
  | .finished stop => stop
  | .chunk _ stop => stop

theorem decodeTurn_lt {decoded offset : Nat} {turn : Turn}
    (h : decodeTurn bytes decoded offset = .ok turn) : offset < turn.stop ∧ turn.stop ≤ bytes.length := by
  unfold decodeTurn at h
  obtain ⟨line, hline, h⟩ := bind_eq_ok.mp h
  obtain ⟨size, hsize, h⟩ := bind_eq_ok.mp h
  have hused := readLine_ok hline
  rw [List.length_drop] at hused
  split at h
  · obtain ⟨stop, hstop, h⟩ := bind_eq_ok.mp h
    cases h
    have htrailers := readTrailers_lt hstop
    exact ⟨by show offset < stop; omega, htrailers.2⟩
  split at h
  · cases h
  split at h
  · cases h
  obtain ⟨data, hdata, h⟩ := bind_eq_ok.mp h
  obtain ⟨terminator, hterminator, h⟩ := bind_eq_ok.mp h
  have hend := readLine_ok hterminator
  rw [List.length_drop] at hend
  split at h
  · cases h
  · cases h
    constructor
    · show offset < offset + line.used + size + terminator.used
      omega
    · show offset + line.used + size + terminator.used ≤ bytes.length
      omega

/-- A body and where it ends in the input. -/
structure Decoded where
  body : Bytes
  stop : Nat
  deriving DecidableEq

/-- The loop of `decode_chunked`. -/
def decodeFrom (bytes body : Bytes) (offset : Nat) : Except Http1Error Decoded :=
  match h : decodeTurn bytes body.length offset with
  | .error e => .error e
  | .ok (.finished stop) => .ok ⟨body, stop⟩
  | .ok (.chunk data stop) => decodeFrom bytes (body ++ data) stop
termination_by bytes.length - offset
decreasing_by
  have hlt := decodeTurn_lt h
  simp only [Turn.stop] at hlt
  omega

def decodeChunked (bytes : Bytes) : Except Http1Error Decoded := decodeFrom bytes [] 0

/-! ## The incremental decoder -/

/-- Going on with what has arrived: to be told to read on is a result here, not an error. -/
def whenArrived {α β : Type} (x : Except Http1Error α) (f : α → Except Http1Error (Option β)) :
    Except Http1Error (Option β) :=
  match x with
  | .ok a => f a
  | .error .truncated => .ok none
  | .error e => .error e

structure ChunkedDecoder where
  body : Bytes
  consumed : Nat
  complete : Bool
  deriving DecidableEq

namespace ChunkedDecoder

def new : ChunkedDecoder := ⟨[], 0, false⟩

/-- One turn of the loop of `push`; none when it has to wait for more. -/
def pushTurn (d : ChunkedDecoder) (input : Bytes) : Except Http1Error (Option Turn) :=
  if input.drop d.consumed = [] then .ok none
  else
    whenArrived (readLine (input.drop d.consumed) MAX_HEADER_LINE "chunk size line".toList) fun line => do
      let size ← parseChunkSize (sizeField line.text)
      if size = 0 then
        whenArrived (readTrailers input (d.consumed + line.used)) fun stop => .ok (some (.finished stop))
      else if MAX_CHUNK_BYTES < size then .error (.tooLarge "chunk".toList)
      else if MAX_BODY_BYTES < d.body.length + size then .error (.tooLarge "body".toList)
      else
        -- nothing is consumed before the chunk and its terminator are there
        whenArrived (slice input (d.consumed + line.used) (d.consumed + line.used + size)) fun data =>
          whenArrived (readLine (input.drop (d.consumed + line.used + size)) 2 "chunk terminator".toList)
            fun terminator =>
              if terminator.text ≠ [] then .error (.ambiguousFraming .malformedChunkSize)
              else .ok (some (.chunk data (d.consumed + line.used + size + terminator.used)))

theorem chunkSizeFrom_ne_truncated : ∀ (field : Bytes) (size : Nat), chunkSizeFrom size field ≠ .error .truncated
  | [], size => by
      intro h
      cases h
  | byte :: field, size => by
      intro h
      rw [chunkSizeFrom] at h
      split at h
      · cases h
      · split at h
        · cases h
        · exact chunkSizeFrom_ne_truncated field _ h

theorem parseChunkSize_ne_truncated (field : Bytes) : parseChunkSize field ≠ .error .truncated := by
  unfold parseChunkSize
  by_cases hfield : trimBytes field = [] ∨ 16 < (trimBytes field).length
  · simp only [if_pos hfield]
    intro h
    cases h
  · simp only [if_neg hfield]
    exact chunkSizeFrom_ne_truncated _ _

theorem readLine_nil (limit : Nat) (what : Text) : readLine [] limit what = .error .truncated := rfl

/-- What of a computation has arrived. -/
abbrev arrived {α : Type} (x : Except Http1Error α) : Except Http1Error (Option α) :=
  whenArrived x fun a => .ok (some a)

variable {α : Type}

theorem arrived_bind {β : Type} (x : Except Http1Error α) (f : α → Except Http1Error β) :
    arrived (x >>= f) = whenArrived x fun a => arrived (f a) := by
  cases x with
  | error e => cases e <;> rfl
  | ok a => rfl

theorem arrived_bind_of_ne {β : Type} {x : Except Http1Error α} (h : x ≠ .error .truncated)
    (f : α → Except Http1Error β) : arrived (x >>= f) = x >>= fun a => arrived (f a) := by
  cases x with
  | error e =>
      cases e with
      | truncated => exact absurd rfl h
      | _ => rfl
  | ok a => rfl

theorem arrived_eq_some {x : Except Http1Error α} {a : α} (h : arrived x = .ok (some a)) : x = .ok a := by
  cases x with
  | error e => cases e <;> cases h
  | ok b =>
      cases h
      rfl

/-- ONE TURN IS ONE TURN.  Apart from waiting, `push` and `decode_chunked` do the same from the same
place. -/
theorem pushTurn_eq (d : ChunkedDecoder) (input : Bytes) :
    d.pushTurn input = arrived (decodeTurn input d.body.length d.consumed) := by
  unfold pushTurn decodeTurn
  by_cases hnil : input.drop d.consumed = []
  · rw [if_pos hnil, hnil, readLine_nil]
    rfl
  rw [if_neg hnil, arrived_bind]
  congr 1
  funext line
  rw [arrived_bind_of_ne (parseChunkSize_ne_truncated _)]
  congr 1
  funext size
  by_cases hzero : size = 0
  · rw [if_pos hzero, if_pos hzero, arrived_bind]
    rfl
  rw [if_neg hzero, if_neg hzero]
  by_cases hchunk : MAX_CHUNK_BYTES < size
  · rw [if_pos hchunk, if_pos hchunk]
    rfl
  rw [if_neg hchunk, if_neg hchunk]
  by_cases hbody : MAX_BODY_BYTES < d.body.length + size
  · rw [if_pos hbody, if_pos hbody]
    rfl
  rw [if_neg hbody, if_neg hbody, arrived_bind]
  congr 1
  funext data
  rw [arrived_bind]
  congr 1
  funext terminator
  by_cases htext : terminator.text ≠ []
  · rw [if_pos htext, if_pos htext]
    rfl
  · rw [if_neg htext, if_neg htext]
    rfl

/-- The loop of `push`. -/
def pushFrom (d : ChunkedDecoder) (input : Bytes) : Except Http1Error Bool × ChunkedDecoder :=
  match h : d.pushTurn input with
  | .error e => (.error e, d)
  | .ok none => (.ok false, d)
  | .ok (some (.finished stop)) => (.ok true, { d with consumed := stop, complete := true })
  | .ok (some (.chunk data stop)) => pushFrom { d with body := d.body ++ data, consumed := stop } input
termination_by input.length - d.consumed
decreasing_by
  rw [pushTurn_eq] at h
  have hlt := decodeTurn_lt (arrived_eq_some h)
  simp only [Turn.stop] at hlt
  show input.length - stop < input.length - d.consumed
  omega

def push (d : ChunkedDecoder) (input : Bytes) : Except Http1Error Bool × ChunkedDecoder :=
  if d.complete then (.ok true, d) else pushFrom d input

end ChunkedDecoder

/-! ## Every reader settles -/

theorem settles_readLine (limit : Nat) (what : Text) :
    Settles .truncated fun bytes => readLine bytes limit what := by
  intro a b hmore
  change readLine a limit what ≠ .error .truncated at hmore
  show readLine (a ++ b) limit what = readLine a limit what
  unfold readLine at hmore ⊢
  cases hfind : a.findIdx? (· = 10) with
  | none =>
      rw [hfind] at hmore
      exact absurd rfl hmore
  | some stop =>
      have hlt : stop < a.length := (List.findIdx?_eq_some_iff_getElem.mp hfind).1
      rw [List.findIdx?_append, hfind, Option.some_or]
      simp only [List.take_append_of_le_length hlt.le]

theorem settles_slice (start stop : Nat) : Settles .truncated fun bytes => slice bytes start stop := by
  intro a b hmore
  change slice a start stop ≠ .error .truncated at hmore
  show slice (a ++ b) start stop = slice a start stop
  unfold slice at hmore ⊢
  by_cases hstop : stop ≤ a.length
  · rw [if_pos hstop, if_pos (by rw [List.length_append]; omega), List.take_append_of_le_length hstop]
  · rw [if_neg hstop] at hmore
    exact absurd rfl hmore

theorem settles_readFields : ∀ (room : Nat) (headers : List HttpHeader) (offset : Nat),
    Settles .truncated fun bytes => readFields bytes room headers offset
  | 0, headers, offset =>
      ((settles_readLine MAX_HEADER_LINE "header line".toList).drop offset).bind fun _ => Settles.const _
  | room + 1, headers, offset => by
      refine ((settles_readLine MAX_HEADER_LINE "header line".toList).drop offset).bind
        (q := fun line bytes =>
          if line.text = [] then .ok ⟨headers, offset + line.used⟩
          else parseHeader line.text >>= fun header =>
            readFields bytes room (headers ++ [header]) (offset + line.used)) fun line => ?_
      by_cases htext : line.text = []
      · simp only [if_pos htext]
        exact Settles.const _
      · simp only [if_neg htext]
        exact (Settles.const _).bind fun header => settles_readFields room _ _

/-- A head that is there, or is wrong, is so whatever follows. -/
theorem settles_parseResponseHead : Settles .truncated parseResponseHead := by
  refine (settles_readLine _ _).bind fun line => ?_
  refine (Settles.const _).bind fun status => ?_
  exact (settles_readFields _ _ _).bind fun fields => Settles.const _

theorem settles_readTrailers : ∀ offset : Nat, Settles .truncated fun bytes => readTrailers bytes offset := by
  refine Settles.loop
    (fun offset bytes => (readLine (bytes.drop offset) MAX_HEADER_LINE "trailer".toList).map fun trailer =>
      if trailer.text = [] then .inl (offset + trailer.used) else .inr (offset + trailer.used))
    ?_ (fun bytes offset => bytes.length - offset) ?_ ?_
  · intro offset bytes
    rw [readTrailers]
    split
    · rename_i h
      rw [h]
      rfl
    · rename_i trailer h
      rw [h]
      show _ = Sum.elim _ _ (if trailer.text = [] then _ else _)
      split <;> rfl
  · intro offset next bytes h
    obtain ⟨trailer, hline, hnext⟩ := map_eq_ok.mp h
    have hused := readLine_ok hline
    rw [List.length_drop] at hused
    split at hnext
    · cases hnext
    · cases hnext
      omega
  · intro offset
    exact ((settles_readLine _ _).drop offset).map _

theorem settles_decodeTurn (decoded offset : Nat) :
    Settles .truncated fun bytes => decodeTurn bytes decoded offset := by
  refine ((settles_readLine MAX_HEADER_LINE "chunk size line".toList).drop offset).bind
    (q := fun line bytes => parseChunkSize (sizeField line.text) >>= fun size =>
      if size = 0 then readTrailers bytes (offset + line.used) >>= fun stop => .ok (Turn.finished stop)
      else if MAX_CHUNK_BYTES < size then .error (.tooLarge "chunk".toList)
      else if MAX_BODY_BYTES < decoded + size then .error (.tooLarge "body".toList)
      else
        slice bytes (offset + line.used) (offset + line.used + size) >>= fun data =>
          readLine (bytes.drop (offset + line.used + size)) 2 "chunk terminator".toList >>= fun terminator =>
            if terminator.text ≠ [] then .error (.ambiguousFraming .malformedChunkSize)
            else .ok (Turn.chunk data (offset + line.used + size + terminator.used))) fun line => ?_
  refine (Settles.const _).bind fun size => ?_
  by_cases hzero : size = 0
  · simp only [if_pos hzero]
    exact (settles_readTrailers _).bind fun stop => Settles.const _
  simp only [if_neg hzero]
  by_cases hchunk : MAX_CHUNK_BYTES < size
  · simp only [if_pos hchunk]
    exact Settles.const _
  simp only [if_neg hchunk]
  by_cases hbody : MAX_BODY_BYTES < decoded + size
  · simp only [if_pos hbody]
    exact Settles.const _
  simp only [if_neg hbody]
  refine (settles_slice _ _).bind fun data => ?_
  exact ((settles_readLine _ _).drop _).bind fun terminator => Settles.const _

/-- Where a turn leaves the loop: at its end, or at the next place. -/
def Turn.next (body : Bytes) : Turn → Decoded ⊕ Decoded
  | .finished stop => .inl ⟨body, stop⟩
  | .chunk data stop => .inr ⟨body ++ data, stop⟩

theorem decodeFrom_eq (d : Decoded) (bytes : Bytes) :
    decodeFrom bytes d.body d.stop =
      (decodeTurn bytes d.body.length d.stop).map (Turn.next d.body) >>=
        Sum.elim .ok fun d => decodeFrom bytes d.body d.stop := by
  rw [decodeFrom]
  split
  · rename_i h
    rw [h]
    rfl
  · rename_i h
    rw [h]
    rfl
  · rename_i h
    rw [h]
    rfl

theorem settles_decodeFrom : ∀ d : Decoded, Settles .truncated fun bytes => decodeFrom bytes d.body d.stop := by
  refine Settles.loop
    (fun d bytes => (decodeTurn bytes d.body.length d.stop).map (Turn.next d.body))
    decodeFrom_eq (fun bytes d => bytes.length - d.stop) ?_ ?_
  · intro d next bytes h
    obtain ⟨turn, hturn, hnext⟩ := map_eq_ok.mp h
    have hlt := decodeTurn_lt hturn
    cases turn with
    | finished stop => cases hnext
    | chunk data stop =>
        cases hnext
        simp only [Turn.stop] at hlt ⊢
        omega
  · intro d
    exact (settles_decodeTurn _ _).map _

/-- A chunked body that is there, or is wrong, is so whatever follows. -/
theorem settles_decodeChunked : Settles .truncated decodeChunked := settles_decodeFrom ⟨[], 0⟩

/-! ## The incremental decoder and the one-shot decoder -/

namespace ChunkedDecoder

/-- Where the decoder stands, as a place in the input. -/
def place (d : ChunkedDecoder) : Decoded := ⟨d.body, d.consumed⟩

/-- What `push` answers where the decoding of the input comes out as `x`. -/
def answer (x : Except Http1Error Decoded) : Except Http1Error Bool := (arrived x).map Option.isSome

theorem arrived_eq_error {α : Type} {x : Except Http1Error α} {e : Http1Error} (h : arrived x = .error e) :
    x = .error e ∧ e ≠ .truncated := by
  cases x with
  | error e' =>
      cases e' with
      | truncated => cases h
      | _ =>
          cases h
          exact ⟨rfl, fun h => by cases h⟩
  | ok a => cases h

theorem arrived_eq_none {α : Type} {x : Except Http1Error α} (h : arrived x = .ok none) :
    x = .error .truncated := by
  cases x with
  | error e => cases e <;> first | rfl | cases h
  | ok a => cases h

/-- It is complete when, and only when, it has said so. -/
theorem pushFrom_complete (d : ChunkedDecoder) (input : Bytes) (hopen : d.complete = false) :
    (d.pushFrom input).2.complete = true ↔ (d.pushFrom input).1 = .ok true := by
  have hne : ∀ x : Except Http1Error Bool, x ≠ .ok true → (d.complete = true ↔ x = .ok true) := by
    intro x hx
    exact ⟨fun h => absurd (h.symm.trans hopen) Bool.noConfusion, fun h => absurd h hx⟩
  fun_induction pushFrom d input with
  | case1 d e hturn => exact hne _ fun h => by cases h
  | case2 d hturn => exact hne _ fun h => by cases h
  | case3 d stop hturn => exact ⟨fun _ => rfl, fun _ => rfl⟩
  | case4 d data stop hturn ih => exact ih hopen hne

/-- From where the decoder stands, `push` answers as the one-shot decoder would, ends where that
ends, and otherwise has only moved on to a place from which everything that may still come
decodes as from the old one. -/
theorem pushFrom_spec (d : ChunkedDecoder) (input : Bytes) (hopen : d.complete = false) :
    (d.pushFrom input).1 = answer (decodeFrom input d.body d.consumed) ∧
    if (d.pushFrom input).2.complete then
      decodeFrom input d.body d.consumed = .ok (d.pushFrom input).2.place
    else ∀ m, input <+: m →
      decodeFrom m (d.pushFrom input).2.body (d.pushFrom input).2.consumed = decodeFrom m d.body d.consumed := by
  fun_induction pushFrom d input with
  | case1 d e hturn =>
      rw [pushTurn_eq] at hturn
      obtain ⟨hdecode, hne⟩ := arrived_eq_error hturn
      have hfrom : decodeFrom input d.body d.consumed = .error e := by
        refine (decodeFrom_eq ⟨d.body, d.consumed⟩ input).trans ?_
        rw [hdecode]
        rfl
      refine ⟨?_, ?_⟩
      · rw [hfrom]
        cases e <;> first | rfl | exact absurd rfl hne
      · rw [if_neg (by rw [hopen]; exact Bool.false_ne_true)]
        intro m _
        rfl
  | case2 d hturn =>
      rw [pushTurn_eq] at hturn
      have hfrom : decodeFrom input d.body d.consumed = .error .truncated := by
        refine (decodeFrom_eq ⟨d.body, d.consumed⟩ input).trans ?_
        rw [arrived_eq_none hturn]
        rfl
      refine ⟨?_, ?_⟩
      · rw [hfrom]
        rfl
      · rw [if_neg (by rw [hopen]; exact Bool.false_ne_true)]
        intro m _
        rfl
  | case3 d stop hturn =>
      rw [pushTurn_eq] at hturn
      have hfrom : decodeFrom input d.body d.consumed = .ok ⟨d.body, stop⟩ := by
        refine (decodeFrom_eq ⟨d.body, d.consumed⟩ input).trans ?_
        rw [arrived_eq_some hturn]
        rfl
      refine ⟨?_, ?_⟩
      · rw [hfrom]
        rfl
      · rw [if_pos rfl]
        exact hfrom
  | case4 d data stop hturn ih =>
      rw [pushTurn_eq] at hturn
      have hdecode := arrived_eq_some hturn
      -- the turn was the same on everything that begins with this input
      have hmoved : ∀ m, input <+: m →
          decodeFrom m (d.body ++ data) stop = decodeFrom m d.body d.consumed := by
        intro m hm
        have hsame : decodeTurn m d.body.length d.consumed = .ok (.chunk data stop) := by
          rw [← hdecode]
          refine (settles_decodeTurn _ _).of_longer hm ?_
          rw [hdecode]
          intro h
          cases h
        refine Eq.symm ((decodeFrom_eq ⟨d.body, d.consumed⟩ m).trans ?_)
        rw [hsame]
        rfl
      obtain ⟨hanswer, hplace⟩ := ih hopen
      rw [hmoved input (List.prefix_refl input)] at hanswer hplace
      refine ⟨hanswer, ?_⟩
      split
      · rename_i hcomplete
        rwa [if_pos hcomplete] at hplace
      · rename_i hcomplete
        rw [if_neg hcomplete] at hplace
        intro m hm
        rw [hplace m hm, hmoved m hm]

/-- The decoder stands where decoding its input would have come to. -/
def Tracks (d : ChunkedDecoder) (input : Bytes) : Prop :=
  if d.complete then decodeChunked input = .ok d.place
  else ∀ m, input <+: m → decodeFrom m d.body d.consumed = decodeChunked m

theorem tracks_new : Tracks new [] := by
  intro m _
  rfl

/-- What the decoder holds when it has said that the body is complete. -/
theorem Tracks.complete {d : ChunkedDecoder} {input : Bytes} (h : d.Tracks input) (hdone : d.complete = true) :
    decodeChunked input = .ok d.place := by
  rwa [Tracks, if_pos hdone] at h

/-- ONE PUSH.  On a longer input the decoder answers as the one-shot decoder would, and still
stands where that would have come to. -/
theorem push_spec {d : ChunkedDecoder} {seen input : Bytes} (h : d.Tracks seen) (hgrown : seen <+: input) :
    (d.push input).1 = answer (decodeChunked input) ∧ (d.push input).2.Tracks input ∧
      ((d.push input).2.complete = true ↔ (d.push input).1 = .ok true) := by
  unfold push Tracks at *
  by_cases hcomplete : d.complete = true
  · rw [if_pos hcomplete] at h ⊢
    have hsame : decodeChunked input = .ok d.place := by
      rw [← h]
      refine settles_decodeChunked.of_longer hgrown ?_
      rw [h]
      intro hne
      cases hne
    rw [if_pos hcomplete, hsame]
    exact ⟨rfl, rfl, iff_of_true hcomplete rfl⟩
  · rw [if_neg hcomplete] at h ⊢
    have hopen : d.complete = false := by simpa using hcomplete
    obtain ⟨hanswer, hplace⟩ := pushFrom_spec d input hopen
    rw [h input hgrown] at hanswer hplace
    refine ⟨hanswer, ?_, pushFrom_complete d input hopen⟩
    split
    · rename_i hdone
      rwa [if_pos hdone] at hplace
    · rename_i hdone
      rw [if_neg hdone] at hplace
      intro m hm
      rw [hplace m hm, h m (hgrown.trans hm)]

end ChunkedDecoder

end Pelorus.Net.Http1
