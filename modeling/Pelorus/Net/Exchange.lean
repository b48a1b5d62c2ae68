import Pelorus.Net.Http1

/-
  Net/Exchange.lean --- reading a response off a connection (`exchange` and `read_body` of
  `px-net/src/fetch.rs`).

  THE CONNECTION is what its operations answer: whether it takes the request, and what its
  reads give, one after the other.  Where the reads end, or one of them gives nothing, the
  stream has ended.

  WHAT A RESPONSE IS does not need a connection: `wholeResponse` reads it from all its bytes at
  once.  Reading it off a connection comes to the same, wherever the reads were cut
  (`exchange_eq`).
-/
set_option autoImplicit false

namespace Pelorus.Net

open Lib Lib.Text Net.Http1

/-- The length of the read buffer. -/
def READ_BYTES : Nat := 16 * 1024

/-- What one read gives: bytes, none of them at the end of the stream, or an error. -/
abbrev Read : Type := Except Text Bytes

/-- A stream that reads and writes. -/
structure Wire where
  writeAll : Bytes → Except Text Unit
  flush : Except Text Unit
  reads : List Read

/-- The bytes of a connection that takes the request and then gives these reads. -/
def Wire.delivering (cut : List Bytes) : Wire where
  writeAll _ := .ok ()
  flush := .ok ()
  reads := cut.map .ok

/-- What a read left in the buffer. -/
def received (read : Bytes) : Bytes := if read.length ≤ READ_BYTES then read else []

/-- `fill` of `read_body`: what has arrived after one more read, or none at the end. -/
def fill (raw : Bytes) : Read → Except FetchError (Option Bytes)
  | .error e => .error (.io e)
  | .ok read =>
      if read = [] then .ok none
      else if MAX_BODY_BYTES < raw.length + read.length then .error (.protocol (.tooLarge "body".toList))
      else .ok (some (raw ++ received read))

/-- A head, what had arrived when it was complete, and the reads still to come. -/
structure HeadRead where
  parsed : ParsedHead
  raw : Bytes
  reads : List Read

/-- The first loop of `exchange`. -/
def readHead : Bytes → List Read → Except FetchError HeadRead
  | raw, reads =>
      match parseResponseHead raw with
      | .ok parsed => .ok ⟨parsed, raw, reads⟩
      | .error .truncated =>
          if MAX_BODY_BYTES < raw.length then .error (.protocol (.tooLarge "response head".toList))
          else
            match reads with
            | [] => .error (.protocol .truncated)
            | .error e :: _ => .error (.io e)
            | .ok read :: reads =>
                if read = [] then .error (.protocol .truncated) else readHead (raw ++ received read) reads
      | .error e => .error (.protocol e)

/-- `read_body` of a body with a length. -/
def readLength (headLen length : Nat) : Bytes → List Read → Except FetchError Bytes
  | raw, reads =>
      if raw.length - headLen < length then
        match reads with
        | [] => .error (.protocol .truncated)
        | read :: reads =>
            match fill raw read with
            | .error e => .error e
            | .ok none => .error (.protocol .truncated)
            | .ok (some raw) => readLength headLen length raw reads
      else .ok ((slice raw headLen (headLen + length)).toOption.getD [])

/-- `read_body` of a chunked body. -/
def readChunked (headLen : Nat) : ChunkedDecoder → Bytes → List Read → Except FetchError Bytes
  | decoder, raw, reads =>
      match (decoder.push (raw.drop headLen)).1 with
      | .ok true => .ok (decoder.push (raw.drop headLen)).2.body
      | .ok false =>
          match reads with
          | [] => .error (.protocol .truncated)
          | read :: reads =>
              match fill raw read with
              | .error e => .error e
              | .ok none => .error (.protocol .truncated)
              | .ok (some raw') => readChunked headLen (decoder.push (raw.drop headLen)).2 raw' reads
      | .error e => .error (.protocol e)

/-- `read_body` of a body that runs until the connection closes. -/
def readUntilClose (headLen : Nat) : Bytes → List Read → Except FetchError Bytes
  | raw, [] => .ok (raw.drop headLen)
  | raw, read :: reads =>
      match fill raw read with
      | .error e => .error e
      | .ok none => .ok (raw.drop headLen)
      | .ok (some raw) => readUntilClose headLen raw reads

def readBody (headLen : Nat) (raw : Bytes) (reads : List Read) : Framing → Except FetchError Bytes
  | .empty => .ok []
  | .length length => readLength headLen length raw reads
  | .chunked => readChunked headLen .new raw reads
  | .untilClose => readUntilClose headLen raw reads

def exchange (stream : Wire) (request : Bytes) : Except FetchError Response := do
  let _ ← (stream.writeAll request).mapError FetchError.io
  let _ ← stream.flush.mapError FetchError.io
  let head ← readHead [] stream.reads
  let body ← readBody head.parsed.stop head.raw head.reads head.parsed.head.framing
  .ok ⟨head.parsed.head, body⟩

/-! ## A response as a whole -/

/-- The body that bytes hold under a framing. -/
def bodyOf (bytes : Bytes) : Framing → Except Http1Error Bytes
  | .empty => .ok []
  | .length n => if bytes.length < n then .error .truncated else .ok (bytes.take n)
  | .chunked => (decodeChunked bytes).map Decoded.body
  | .untilClose => .ok bytes

/-- The response that bytes hold. -/
def wholeResponse (bytes : Bytes) : Except Http1Error Response := do
  let parsed ← parseResponseHead bytes
  let body ← bodyOf (bytes.drop parsed.stop) parsed.head.framing
  .ok ⟨parsed.head, body⟩

/-- Reads that a stream of bytes can be cut into. -/
def IsCut (cut : List Bytes) : Prop := ∀ read ∈ cut, 1 ≤ read.length ∧ read.length ≤ READ_BYTES

section
variable {cut : List Bytes} {raw : Bytes}
variable {read : Bytes}

theorem IsCut.received_eq (h : IsCut (read :: cut)) : read ≠ [] ∧ received read = read := by
  obtain ⟨hpos, hle⟩ := h read List.mem_cons_self
  exact ⟨List.ne_nil_of_length_pos hpos, if_pos hle⟩

theorem IsCut.fill_eq (h : IsCut (read :: cut))
    (hsize : (raw ++ (read :: cut).flatten).length ≤ MAX_BODY_BYTES) :
    fill raw (.ok read) = .ok (some (raw ++ read)) := by
  obtain ⟨hne, hreceived⟩ := h.received_eq
  rw [List.flatten_cons, List.length_append, List.length_append] at hsize
  show (if read = [] then _ else _) = _
  rw [if_neg hne, if_neg (by omega), hreceived]

theorem IsCut.tail (h : IsCut (read :: cut)) : IsCut cut :=
  fun r hr => h r (List.mem_cons_of_mem read hr)

theorem append_flatten_cons (raw read : Bytes) (cut : List Bytes) :
    raw ++ (read :: cut).flatten = raw ++ read ++ cut.flatten := by
  rw [List.flatten_cons, List.append_assoc]

theorem parse_prefix {whole : Bytes} (h : raw <+: whole) :
    parseResponseHead raw = .error .truncated ∨ parseResponseHead raw = parseResponseHead whole := by
  by_cases hmore : parseResponseHead raw = .error .truncated
  · exact Or.inl hmore
  · exact Or.inr (settles_parseResponseHead.of_longer h hmore).symm

theorem readHead_ok_now {parsed : ParsedHead} (h : parseResponseHead raw = .ok parsed) (reads : List Read) :
    readHead raw reads = .ok ⟨parsed, raw, reads⟩ := by
  unfold readHead
  rw [h]

theorem readHead_error_now {e : Http1Error} (h : parseResponseHead raw = .error e) (hne : e ≠ .truncated)
    (reads : List Read) : readHead raw reads = .error (.protocol e) := by
  unfold readHead
  rw [h]
  cases e <;> first | rfl | exact absurd rfl hne

theorem readHead_end (h : parseResponseHead raw = .error .truncated) (hsize : raw.length ≤ MAX_BODY_BYTES) :
    readHead raw [] = .error (.protocol .truncated) := by
  unfold readHead
  rw [h]
  exact if_neg (Nat.not_lt.mpr hsize)

theorem readHead_more (h : parseResponseHead raw = .error .truncated)
    (hsize : raw.length ≤ MAX_BODY_BYTES) (hread : read ≠ []) (reads : List Read) :
    readHead raw (.ok read :: reads) = readHead (raw ++ received read) reads := by
  rw [readHead, h]
  simp only [if_neg (Nat.not_lt.mpr hsize), if_neg hread]

/-- THE HEAD.  A stream whose head is wrong, or never complete, ends the first loop with that error. -/
theorem readHead_error {e : Http1Error} : ∀ {cut : List Bytes} {raw : Bytes}, IsCut cut →
    (raw ++ cut.flatten).length ≤ MAX_BODY_BYTES → parseResponseHead (raw ++ cut.flatten) = .error e →
    readHead raw (cut.map .ok) = .error (.protocol e)
  | [], raw, _, hsize, h => by
      rw [List.flatten_nil, List.append_nil] at hsize h
      by_cases htrunc : e = .truncated
      · rw [htrunc] at h ⊢
        exact readHead_end h hsize
      · exact readHead_error_now h htrunc _
  | read :: cut, raw, hcut, hsize, h => by
      have hraw : raw.length ≤ MAX_BODY_BYTES := (List.prefix_append raw _).length_le.trans hsize
      rcases parse_prefix (List.prefix_append raw (read :: cut).flatten) with hmore | hsame
      · obtain ⟨hne, hreceived⟩ := hcut.received_eq
        rw [append_flatten_cons] at hsize h
        rw [List.map_cons, readHead_more hmore hraw hne, hreceived]
        exact readHead_error hcut.tail hsize h
      · by_cases htrunc : e = .truncated
        · obtain ⟨hne, hreceived⟩ := hcut.received_eq
          rw [htrunc] at h ⊢
          rw [List.map_cons, readHead_more (hsame.trans h) hraw hne, hreceived]
          rw [append_flatten_cons] at hsize h
          exact readHead_error hcut.tail hsize h
        · exact readHead_error_now (hsame.trans h) htrunc _

/-- A head that is complete somewhere in the stream is what the first loop ends with. -/
theorem readHead_ok {parsed : ParsedHead} : ∀ {cut : List Bytes} {raw : Bytes}, IsCut cut →
    (raw ++ cut.flatten).length ≤ MAX_BODY_BYTES → parseResponseHead (raw ++ cut.flatten) = .ok parsed →
    ∃ before after, cut = before ++ after ∧ parseResponseHead (raw ++ before.flatten) = .ok parsed ∧
      readHead raw (cut.map .ok) = .ok ⟨parsed, raw ++ before.flatten, after.map .ok⟩
  | [], raw, _, _, h => by
      refine ⟨[], [], rfl, h, ?_⟩
      rw [List.flatten_nil, List.append_nil] at h ⊢
      exact readHead_ok_now h _
  | read :: cut, raw, hcut, hsize, h => by
      have hraw : raw.length ≤ MAX_BODY_BYTES := (List.prefix_append raw _).length_le.trans hsize
      rcases parse_prefix (List.prefix_append raw (read :: cut).flatten) with hmore | hsame
      · obtain ⟨hne, hreceived⟩ := hcut.received_eq
        rw [append_flatten_cons] at hsize h
        obtain ⟨before, after, hparts, hparse, hread⟩ := readHead_ok hcut.tail hsize h
        refine ⟨read :: before, after, by rw [hparts, List.cons_append], ?_, ?_⟩
        · rwa [append_flatten_cons]
        · rw [List.map_cons, readHead_more hmore hraw hne, hreceived, hread, append_flatten_cons]
      · have hnow := hsame.trans h
        refine ⟨[], read :: cut, rfl, ?_, ?_⟩
        · rwa [List.flatten_nil, List.append_nil]
        · rw [List.flatten_nil, List.append_nil]
          exact readHead_ok_now hnow _

/-! ## Bodies -/

variable {headLen : Nat}

/-- What has arrived of the body. -/
theorem drop_append_flatten (hlen : headLen ≤ raw.length) (cut : List Bytes) :
    (raw ++ cut.flatten).drop headLen = raw.drop headLen ++ cut.flatten :=
  List.drop_append_of_le_length hlen

theorem readLength_eq {n : Nat} : ∀ {cut : List Bytes} {raw : Bytes}, IsCut cut → headLen ≤ raw.length →
    (raw ++ cut.flatten).length ≤ MAX_BODY_BYTES →
    readLength headLen n raw (cut.map .ok) =
      (bodyOf ((raw ++ cut.flatten).drop headLen) (.length n)).mapError .protocol
  | cut, raw, hcut, hlen, hsize => by
      by_cases hmore : raw.length - headLen < n
      · cases cut with
        | nil =>
            rw [List.map_nil, readLength, if_pos hmore, List.flatten_nil, List.append_nil]
            show _ = Except.mapError _ (if _ then _ else _)
            rw [if_pos (by rwa [List.length_drop])]
            rfl
        | cons read cut =>
            rw [List.map_cons, readLength, if_pos hmore, hcut.fill_eq hsize]
            rw [append_flatten_cons] at hsize ⊢
            exact readLength_eq hcut.tail (by rw [List.length_append]; omega) hsize
      · have hready : readLength headLen n raw (cut.map .ok) =
            .ok ((slice raw headLen (headLen + n)).toOption.getD []) := by
          unfold readLength
          exact if_neg hmore
        rw [hready, slice, if_pos (by omega), drop_append_flatten hlen]
        show _ = Except.mapError _ (if _ then _ else _)
        rw [if_neg (by rw [List.length_append, List.length_drop]; omega),
          List.take_append_of_le_length (by rw [List.length_drop]; omega), List.take_drop]
        rfl

theorem readChunked_eq : ∀ {cut : List Bytes} {raw seen : Bytes} {decoder : ChunkedDecoder}, IsCut cut →
    headLen ≤ raw.length → (raw ++ cut.flatten).length ≤ MAX_BODY_BYTES → decoder.Tracks seen →
    seen <+: raw.drop headLen →
    readChunked headLen decoder raw (cut.map .ok) =
      (bodyOf ((raw ++ cut.flatten).drop headLen) .chunked).mapError .protocol
  | cut, raw, seen, decoder, hcut, hlen, hsize, htracks, hseen => by
      obtain ⟨hanswer, htracks', hcomplete⟩ := ChunkedDecoder.push_spec htracks hseen
      rw [drop_append_flatten hlen]
      cases hdecode : decodeChunked (raw.drop headLen) with
      | ok out =>
          rw [hdecode] at hanswer
          have hplace := htracks'.complete (hcomplete.mpr hanswer)
          have hwhole := settles_decodeChunked.of_longer (List.prefix_append (raw.drop headLen) cut.flatten)
            (by rw [hdecode]; intro h; cases h)
          have hready : readChunked headLen decoder raw (cut.map .ok) =
              .ok (decoder.push (raw.drop headLen)).2.body := by
            unfold readChunked
            rw [hanswer]
            rfl
          rw [hready, bodyOf, hwhole, hplace]
          rfl
      | error e =>
          rw [hdecode] at hanswer
          by_cases htrunc : e = .truncated
          · rw [htrunc] at hanswer hdecode
            cases cut with
            | nil =>
                rw [List.map_nil, List.flatten_nil, List.append_nil, bodyOf, hdecode]
                unfold readChunked
                rw [hanswer]
                rfl
            | cons read cut =>
                rw [← drop_append_flatten hlen, List.map_cons, readChunked, hanswer, hcut.fill_eq hsize]
                rw [append_flatten_cons] at hsize ⊢
                refine readChunked_eq hcut.tail (by rw [List.length_append]; omega) hsize htracks' ?_
                rw [List.drop_append_of_le_length hlen]
                exact List.prefix_append _ _
          · have hwhole := settles_decodeChunked.of_longer (List.prefix_append (raw.drop headLen) cut.flatten)
              (by rw [hdecode]; exact fun h => htrunc (Except.error.inj h))
            rw [bodyOf, hwhole, hdecode]
            unfold readChunked
            rw [hanswer]
            cases e <;> first | rfl | exact absurd rfl htrunc

theorem readUntilClose_eq : ∀ {cut : List Bytes} {raw : Bytes}, IsCut cut →
    (raw ++ cut.flatten).length ≤ MAX_BODY_BYTES →
    readUntilClose headLen raw (cut.map .ok) = .ok ((raw ++ cut.flatten).drop headLen)
  | [], raw, _, _ => by rw [List.map_nil, readUntilClose, List.flatten_nil, List.append_nil]
  | read :: cut, raw, hcut, hsize => by
      rw [List.map_cons, readUntilClose, hcut.fill_eq hsize]
      rw [append_flatten_cons] at hsize ⊢
      exact readUntilClose_eq hcut.tail hsize

theorem readBody_eq (hcut : IsCut cut) (hlen : headLen ≤ raw.length)
    (hsize : (raw ++ cut.flatten).length ≤ MAX_BODY_BYTES) (framing : Framing) :
    readBody headLen raw (cut.map .ok) framing =
      (bodyOf ((raw ++ cut.flatten).drop headLen) framing).mapError .protocol := by
  cases framing with
  | length n => exact readLength_eq hcut hlen hsize
  | chunked => exact readChunked_eq hcut hlen hsize ChunkedDecoder.tracks_new List.nil_prefix
  | untilClose => exact readUntilClose_eq hcut hsize
  | empty => rfl

end

/-- ANY CUT.  What a connection delivers is read as the whole of its bytes would be. -/
theorem exchange_eq {cut : List Bytes} (hcut : IsCut cut) (hsize : cut.flatten.length ≤ MAX_BODY_BYTES)
    (request : Bytes) :
    exchange (Wire.delivering cut) request = (wholeResponse cut.flatten).mapError .protocol := by
  have hrun : exchange (Wire.delivering cut) request = readHead [] (cut.map .ok) >>= fun head =>
      readBody head.parsed.stop head.raw head.reads head.parsed.head.framing >>= fun body =>
        .ok (Response.mk head.parsed.head body) := rfl
  have hstart : ([] ++ cut.flatten).length ≤ MAX_BODY_BYTES := hsize
  rw [hrun, wholeResponse]
  cases hparse : parseResponseHead cut.flatten with
  | error e =>
      have hparse' : parseResponseHead ([] ++ cut.flatten) = .error e := hparse
      rw [readHead_error hcut hstart hparse']
      rfl
  | ok parsed =>
      have hparse' : parseResponseHead ([] ++ cut.flatten) = .ok parsed := hparse
      obtain ⟨before, after, hparts, hnow, hread⟩ := readHead_ok hcut hstart hparse'
      rw [List.nil_append] at hnow hread
      have hflat : before.flatten ++ after.flatten = cut.flatten := by rw [hparts, List.flatten_append]
      have hafter : IsCut after := fun read hr => hcut read (by rw [hparts]; exact List.mem_append_right _ hr)
      have hbody := readBody_eq hafter (parseResponseHead_stop hnow).2 (by rw [hflat]; exact hsize)
        parsed.head.framing
      rw [hflat] at hbody
      rw [hread]
      show (readBody parsed.stop before.flatten (after.map .ok) parsed.head.framing >>= fun body =>
        .ok (Response.mk parsed.head body)) = _
      rw [hbody]
      show _ = Except.mapError FetchError.protocol
        (bodyOf (cut.flatten.drop parsed.stop) parsed.head.framing >>= fun body =>
          .ok (Response.mk parsed.head body))
      cases bodyOf (cut.flatten.drop parsed.stop) parsed.head.framing <;> rfl

/-! ## Growing inputs -/

/-- A decoder that is given one input after the other: what it answered last, and what it is then. -/
def feed (inputs : List Bytes) : Except Http1Error Bool × ChunkedDecoder :=
  inputs.foldl (fun s input => s.2.push input) (.ok false, .new)

theorem feed_concat (inputs : List Bytes) (input : Bytes) :
    feed (inputs ++ [input]) = (feed inputs).2.push input := by
  rw [feed, List.foldl_append]
  rfl

/-- A run of pushes, on inputs each of which begins with the one before. -/
theorem feed_spec : ∀ {inputs : List Bytes} {input : Bytes}, (inputs ++ [input]).Pairwise (· <+: ·) →
    (feed (inputs ++ [input])).1 = ChunkedDecoder.answer (decodeChunked input) ∧
      (feed (inputs ++ [input])).2.Tracks input ∧
      ((feed (inputs ++ [input])).2.complete = true ↔ (feed (inputs ++ [input])).1 = .ok true) := by
  intro inputs
  induction inputs using List.reverseRecOn with
  | nil =>
      intro input _
      exact ChunkedDecoder.push_spec ChunkedDecoder.tracks_new List.nil_prefix
  | append_singleton earlier seen ih =>
      intro input hgrow
      have hbefore := List.pairwise_append.mp hgrow
      rw [feed_concat]
      exact ChunkedDecoder.push_spec (ih hbefore.1).2.1
        (hbefore.2.2 seen (List.mem_append_right _ List.mem_cons_self) input List.mem_cons_self)

/-- READING DOES NOT DEPEND ON HOW BYTES ARRIVE.  Two cuts of one stream are read alike; a head on a
prefix is incomplete or what it is on the whole; and a decoder fed growing prefixes of `m` has
come to the body and the end that `decode_chunked` finds in `m`, or stopped with its error, or
waits because so far the body is truncated. -/
theorem reading_independent_of_arrival :
    (∀ (cut cut' : List Bytes) (request : Bytes), IsCut cut → IsCut cut' → cut.flatten = cut'.flatten →
      cut.flatten.length ≤ MAX_BODY_BYTES →
      exchange (Wire.delivering cut) request = exchange (Wire.delivering cut') request) ∧
    (∀ bytes more : Bytes, parseResponseHead bytes = .error .truncated ∨
      parseResponseHead bytes = parseResponseHead (bytes ++ more)) ∧
    ∀ (m input : Bytes) (earlier : List Bytes), (earlier ++ [input]).Pairwise (· <+: ·) → input <+: m →
      ((feed (earlier ++ [input])).1 = .ok true ∧
        decodeChunked m = .ok ⟨(feed (earlier ++ [input])).2.body, (feed (earlier ++ [input])).2.consumed⟩) ∨
      (∃ e, e ≠ .truncated ∧ (feed (earlier ++ [input])).1 = .error e ∧ decodeChunked m = .error e) ∨
      ((feed (earlier ++ [input])).1 = .ok false ∧ decodeChunked input = .error .truncated) := by
  refine ⟨?_, ?_, ?_⟩
  · intro cut cut' request hcut hcut' hsame hsize
    rw [exchange_eq hcut hsize, exchange_eq hcut' (hsame ▸ hsize), hsame]
  · intro bytes more
    exact parse_prefix (List.prefix_append bytes more)
  · intro m input earlier hgrow hm
    obtain ⟨hanswer, htracks, hcomplete⟩ := feed_spec hgrow
    cases hdecode : decodeChunked input with
    | ok out =>
        rw [hdecode] at hanswer
        refine Or.inl ⟨hanswer, ?_⟩
        have hplace := htracks.complete (hcomplete.mpr hanswer)
        rw [settles_decodeChunked.of_longer hm (by rw [hdecode]; intro h; cases h), hplace]
        rfl
    | error e =>
        rw [hdecode] at hanswer
        by_cases htrunc : e = .truncated
        · rw [htrunc] at hanswer ⊢
          exact Or.inr (Or.inr ⟨hanswer, rfl⟩)
        · refine Or.inr (Or.inl ⟨e, htrunc, ?_, ?_⟩)
          · rw [hanswer]
            cases e <;> first | rfl | exact absurd rfl htrunc
          · rw [settles_decodeChunked.of_longer hm (by rw [hdecode]; exact fun h => htrunc (Except.error.inj h)), hdecode]

/-- `HTTP/1.1 204 No Content` and nothing else, in one read. -/
def noContent : Bytes := utf8 "HTTP/1.1 204 No Content\r\n\r\n".toList

/-- The same in one read and in two, the first of which ends inside the line end. -/
theorem reading_independent_of_arrival_no_content :
    exchange (Wire.delivering [noContent]) [] =
      exchange (Wire.delivering [noContent.take 24, noContent.drop 24]) [] := by
  refine reading_independent_of_arrival.1 _ _ _ ?_ ?_ (by decide) (by decide)
  · intro read hread
    rw [List.mem_singleton.mp hread]
    decide
  · intro read hread
    rcases List.mem_cons.mp hread with rfl | hread
    · decide
    · rw [List.mem_singleton.mp hread]
      decide

/-! ## Interim responses -/

/-- The bytes of an interim response: a head, with a status below 200, and no more. -/
def IsInterim (bytes : Bytes) : Prop :=
  ∃ head, parseResponseHead bytes = .ok ⟨head, bytes.length⟩ ∧ 100 ≤ head.status ∧ head.status < 200

/-- `bytes` are a body, all of it, under a framing. -/
def IsBody (bytes body : Bytes) : Framing → Prop
  | .empty => bytes = [] ∧ body = []
  | .length n => bytes.length = n ∧ body = bytes
  | .chunked => decodeChunked bytes = .ok ⟨body, bytes.length⟩
  | .untilClose => body = bytes

/-- A stream with a final response: interim responses, then a head whose status is at least 200 and
all of its body. -/
structure FinalResponse (cut interims : List Bytes) (response : Response) : Prop where
  isCut : IsCut cut
  size : cut.flatten.length ≤ MAX_BODY_BYTES
  interim : ∀ bytes ∈ interims, IsInterim bytes
  status : 200 ≤ response.head.status
  parts : ∃ head body, cut.flatten = interims.flatten ++ (head ++ body) ∧
    parseResponseHead head = .ok ⟨response.head, head.length⟩ ∧ IsBody body response.body response.head.framing

theorem bodyOf_isBody {bytes body : Bytes} {framing : Framing} (h : IsBody bytes body framing) :
    bodyOf bytes framing = .ok body := by
  cases framing with
  | empty =>
      obtain ⟨-, rfl⟩ := h
      rfl
  | length n =>
      obtain ⟨rfl, rfl⟩ := h
      rw [bodyOf, if_neg (Nat.lt_irrefl _), List.take_length]
  | chunked =>
      rw [bodyOf, h]
      rfl
  | untilClose =>
      obtain rfl := h
      rfl

theorem wholeResponse_head {head rest : Bytes} {parsed : ParsedHead} (h : parseResponseHead head = .ok parsed) :
    wholeResponse (head ++ rest) =
      bodyOf ((head ++ rest).drop parsed.stop) parsed.head.framing >>= fun body =>
        .ok (Response.mk parsed.head body) := by
  have hwhole := settles_parseResponseHead.of_longer (List.prefix_append head rest)
    (by rw [h]; intro hne; cases hne)
  rw [wholeResponse, hwhole, h]
  rfl

theorem framing_of_interim {bytes : Bytes} {parsed : ParsedHead} (h : parseResponseHead bytes = .ok parsed)
    (hstatus : 100 ≤ parsed.head.status ∧ parsed.head.status < 200) : parsed.head.framing = .empty := by
  have hframing := determineFraming_of_parse h
  rw [determineFraming, if_pos (Or.inr (Or.inr hstatus))] at hframing
  exact (Except.ok.inj hframing).symm

/-- THE FIRST RESPONSE IS RETURNED, WHATEVER IT IS.  `exchange` returns the final response of a stream
exactly when no interim response comes before it. -/
theorem exchange_final_iff {cut interims : List Bytes} {response : Response}
    (h : FinalResponse cut interims response) (request : Bytes) :
    exchange (Wire.delivering cut) request = .ok response ↔ interims = [] := by
  obtain ⟨head, body, hflat, hparse, hbody⟩ := h.parts
  rw [exchange_eq h.isCut h.size, hflat]
  constructor
  · intro hresponse
    cases interims with
    | nil => rfl
    | cons first rest =>
        exfalso
        obtain ⟨interim, hinterim, hstatus⟩ := h.interim first List.mem_cons_self
        rw [List.flatten_cons, List.append_assoc, wholeResponse_head hinterim] at hresponse
        rw [framing_of_interim hinterim hstatus] at hresponse
        have hsame : interim = response.head := by
          injection hresponse with hresponse
          exact congrArg Response.head hresponse
        have hfinal := h.status
        rw [← hsame] at hfinal
        exact absurd (UInt16.lt_of_lt_of_le hstatus.2 hfinal) (UInt16.lt_irrefl _)
  · rintro rfl
    rw [List.flatten_nil, List.nil_append, wholeResponse_head hparse]
    show Except.mapError _ (bodyOf ((head ++ body).drop head.length) _ >>= _) = _
    rw [List.drop_left, bodyOf_isBody hbody]
    rfl

theorem parse_noContent : parseResponseHead noContent = .ok ⟨⟨204, [], .empty⟩, noContent.length⟩ := by rfl

/-- With no interim response before it, the `204` is returned. -/
theorem exchange_final_no_content :
    exchange (Wire.delivering [noContent]) [] = .ok ⟨⟨204, [], .empty⟩, []⟩ ↔ ([] : List Bytes) = [] := by
  refine exchange_final_iff ?_ []
  exact
    { isCut := by
        intro read hread
        rw [List.mem_singleton.mp hread]
        decide
      size := by decide
      interim := fun bytes hbytes => absurd hbytes List.not_mem_nil
      status := by decide
      parts := ⟨noContent, [], by rfl, parse_noContent, rfl, rfl⟩ }

/-- `HTTP/1.1 103 Early Hints`. -/
def earlyHints : Bytes := utf8 "HTTP/1.1 103 Early Hints\r\n\r\n".toList

/-- After early hints, the final response is not what is returned: the hints are. -/
theorem early_hints_returned :
    FinalResponse [earlyHints ++ noContent] [earlyHints] ⟨⟨204, [], .empty⟩, []⟩ ∧
      exchange (Wire.delivering [earlyHints ++ noContent]) [] = .ok ⟨⟨103, [], .empty⟩, []⟩ ∧
      exchange (Wire.delivering [earlyHints ++ noContent]) [] ≠ .ok ⟨⟨204, [], .empty⟩, []⟩ := by
  have hhints : exchange (Wire.delivering [earlyHints ++ noContent]) [] = .ok ⟨⟨103, [], .empty⟩, []⟩ := by rfl
  refine ⟨?_, hhints, ?_⟩
  rotate_left
  · rw [hhints]
    intro h
    cases h
  exact
    { isCut := by
        intro read hread
        rw [List.mem_singleton.mp hread]
        decide
      size := by decide
      interim := by
        intro bytes hbytes
        rw [List.mem_singleton.mp hbytes]
        exact ⟨⟨103, [], .empty⟩, by rfl, by decide, by decide⟩
      status := by decide
      parts := ⟨noContent, [], by rfl, parse_noContent, rfl, rfl⟩ }

end Pelorus.Net
