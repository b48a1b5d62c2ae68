import Pelorus.Ipc.Vocabulary
import Pelorus.Lib.Runs

/-
  Ipc/Framing.lean --- a typed channel over a byte transport (`px-ipc/src/lib.rs`).

  THE TRANSPORT.  What a reader will deliver is a list of deliveries: some bytes, an
  interruption, or a failure; after the last one the stream has ended.  A single
  `read` may return any part of the stream, so every way of cutting a stream into
  reads is such a list.  What a writer will do is a list of outcomes; a failed write
  may have written part of its bytes.

  THE CHANNEL.  `recv` and `send` are programs that fail with an `IpcError` and keep
  the state they reached.  The scratch buffer is emptied before each use, and only
  its capacity outlives a call; it is not part of the state here.
-/
set_option autoImplicit false

namespace Pelorus.Ipc

open Lib Lib.Bytes

/-- Hard ceiling on one encoded message, in bytes. -/
def MAX_MESSAGE_BYTES : Nat := 2 ^ 20

/-- Bytes of length prefix preceding every frame. -/
def LENGTH_PREFIX_BYTES : Nat := 4

/-- How much of a declared payload is read at a time. -/
def READ_CHUNK_BYTES : Nat := 8 * 1024

/-- The kinds of I/O error the code tells apart. -/
inductive IoKind where
  | unexpectedEof
  | other
  deriving DecidableEq

/-- What can go wrong on the wire. -/
inductive IpcError where
  | peerClosed
  | messageTooLarge (claimed : Nat)
  | malformed
  | poisoned
  | io
  deriving DecidableEq

/-- `IpcError::from`. -/
def IpcError.ofKind : IoKind → IpcError
  | .unexpectedEof => .peerClosed
  | .other => .io

/-! ## The transport -/

/-- What one `read` finds. -/
inductive Delivery where
  /-- At least one byte. -/
  | data (first : UInt8) (rest : Bytes)
  | interrupted
  | failed
  deriving DecidableEq

/-- A stream still to be delivered. -/
abbrev Reader : Type := List Delivery

namespace Reader

/-- The bytes as one delivery. -/
def ofBytes : Bytes → Reader
  | [] => []
  | b :: rest => [.data b rest]

/-- `read_exact`: reads until the buffer is full, and again after an interruption. -/
def readExact : Nat → Reader → Except IoKind Bytes × Reader
  | 0, reader => (.ok [], reader)
  | _ + 1, [] => (.error .unexpectedEof, [])
  | n + 1, .interrupted :: reader => readExact (n + 1) reader
  | _ + 1, .failed :: reader => (.error .other, reader)
  | n + 1, .data b rest :: reader =>
      let (more, left) := rest.splitAt n
      match left with
      | [] =>
          let (result, reader) := readExact (n - rest.length) reader
          (result.map fun bytes => b :: more ++ bytes, reader)
      | c :: left => (.ok (b :: more), .data c left :: reader)

/-- What is read before the stream ends or fails. -/
def content : Reader → Bytes
  | [] => []
  | .data b rest :: reader => b :: rest ++ content reader
  | .interrupted :: reader => content reader
  | .failed :: _ => []

/-- Does the stream end without a failure? -/
def ends : Reader → Bool
  | [] => true
  | .data _ _ :: reader => ends reader
  | .interrupted :: reader => ends reader
  | .failed :: _ => false

end Reader

/-- What becomes of a write or a flush. -/
inductive Outcome where
  | done
  /-- Fails after that many bytes. -/
  | failed (after : Nat) (kind : IoKind)
  deriving DecidableEq

/-- A writer: what was written, and what becomes of the next calls; after that, all succeed. -/
structure Writer where
  written : Bytes
  outcomes : List Outcome

namespace Writer

def writeAll (w : Writer) (bytes : Bytes) : Option IoKind × Writer :=
  match w.outcomes with
  | [] => (none, { w with written := w.written ++ bytes })
  | .done :: outcomes => (none, { written := w.written ++ bytes, outcomes })
  | .failed after kind :: outcomes =>
      (some kind, { written := w.written ++ bytes.take after, outcomes })

end Writer

/-! ## The channel -/

/-- A typed request/response channel. -/
structure Channel where
  reader : Reader
  writer : Writer
  /-- Set once the stream may be misaligned. -/
  poisoned : Bool

/-- A program on a channel. -/
abbrev ChannelM : Type → Type := EStateM IpcError Channel

namespace Channel

def new (reader : Reader) (writer : Writer) : Channel := ⟨reader, writer, false⟩

def writeAllPoisoning (bytes : Bytes) : ChannelM PUnit := fun ch =>
  match ch.writer.writeAll bytes with
  | (none, writer) => .ok ⟨⟩ { ch with writer }
  | (some kind, writer) => .error (.ofKind kind) { ch with writer, poisoned := true }

def send (v : Vocabulary) (message : v.Msg) : ChannelM PUnit := fun ch =>
  if ch.poisoned then .error .poisoned ch
  else
    -- no value of these types fails to serialize: a sequence or text over its bound cannot be built
    let payload := v.codec.write message
    let framed := payload.length + 1
    if MAX_MESSAGE_BYTES < framed then .error (.messageTooLarge framed) ch
    else
      (do
        writeAllPoisoning (leBytes LENGTH_PREFIX_BYTES framed)
        writeAllPoisoning [v.tag]
        writeAllPoisoning payload
        -- a flush writes no bytes, and may fail as a write may
        writeAllPoisoning []) ch

/-- The loop of `read_payload`: `remaining` more bytes after those in the scratch. -/
def readChunks (remaining : Nat) (scratch : Bytes) (reader : Reader) :
    Except IoKind Bytes × Reader :=
  if _h : 0 < remaining then
    let want := min remaining READ_CHUNK_BYTES
    match reader.readExact want with
    | (.ok bytes, reader) => readChunks (remaining - want) (scratch ++ bytes) reader
    | (.error kind, reader) => (.error kind, reader)
  else (.ok scratch, reader)
termination_by remaining
decreasing_by
  have hchunk : 0 < READ_CHUNK_BYTES := by decide
  omega

/-- What `read_payload` makes of the payload. -/
def decodePayload (v : Vocabulary) : Bytes → Except IpcError v.Msg
  | [] => .error .malformed
  | tag :: body =>
      if tag ≠ v.tag then .error .malformed
      else
        match v.codec.read body with
        | none => .error .malformed
        | some (message, rest) =>
            if ¬ rest.isEmpty then .error .malformed
            else if v.codec.write message ≠ body then .error .malformed
            else .ok message

def readPayload (v : Vocabulary) (length : Nat) (reader : Reader) : Except IpcError v.Msg × Reader :=
  match readChunks length [] reader with
  | (.ok scratch, reader) => (decodePayload v scratch, reader)
  | (.error kind, reader) => (.error (.ofKind kind), reader)

def recv (v : Vocabulary) : ChannelM v.Msg := fun ch =>
  if ch.poisoned then .error .poisoned ch
  else
    match ch.reader.readExact LENGTH_PREFIX_BYTES with
    | (.error .unexpectedEof, reader) => .error .peerClosed { ch with reader }
    | (.error .other, reader) => .error .io { ch with reader, poisoned := true }
    | (.ok bytes, reader) =>
        let claimed := leNat bytes
        if MAX_MESSAGE_BYTES < claimed then
          .error (.messageTooLarge claimed) { ch with reader, poisoned := true }
        else
          match readPayload v claimed reader with
          | (.ok message, reader) => .ok message { ch with reader }
          | (.error e, reader) => .error e { ch with reader, poisoned := true }

end Channel

def decodeFrame (v : Vocabulary) (bytes : Bytes) : Except IpcError v.Msg :=
  match Channel.recv v (Channel.new (Reader.ofBytes bytes) ⟨[], []⟩) with
  | .ok message ch => if ch.reader.content.isEmpty then .ok message else .error .malformed
  | .error e _ => .error e

def encodeFrame (v : Vocabulary) (message : v.Msg) : Except IpcError Bytes :=
  match Channel.send v message (Channel.new [] ⟨[], []⟩) with
  | .ok _ ch => .ok ch.writer.written
  | .error e _ => .error e

end Pelorus.Ipc

/-! # Frames and messages: one frame for each message that can be sent, and no frame for two vocabularies

A frame is the length, the tag and the payload (`frame`).  `recv` returns a message
exactly when the stream starts with its frame (`recv_frame`, `recv_other`): the
length prefix says how much is the payload, the tag whose it is, and the comparison
with what the writer writes excludes every other payload that would read as the
same message (`decodePayload_eq_ok`). -/

namespace Pelorus.Ipc

open Lib Lib.Bytes

/-! ## Reading exactly -/

namespace Reader

@[simp] theorem content_ofBytes (bytes : Bytes) : (ofBytes bytes).content = bytes := by
  cases bytes <;> simp [ofBytes, content]

/-- Enough bytes are there: they are read, and the rest is left. -/
theorem readExact_ok : ∀ {reader : Reader} {n : Nat}, n ≤ reader.content.length →
    ∃ reader', readExact n reader = (.ok (reader.content.take n), reader') ∧
      reader'.content = reader.content.drop n ∧ reader'.ends = reader.ends
  | reader, 0, _ => ⟨reader, by simp [readExact], by simp, rfl⟩
  | [], n + 1, h => absurd h (by simp [content])
  | .interrupted :: reader, n + 1, h => by
      obtain ⟨reader', hread, hcontent, hends⟩ := @readExact_ok reader (n + 1) h
      exact ⟨reader', by rw [readExact, hread]; rfl, hcontent, hends⟩
  | .failed :: reader, n + 1, h => absurd h (by simp [content])
  | .data b rest :: reader, n + 1, h => by
      simp only [content, List.cons_append, List.length_cons, List.length_append] at h
      rw [readExact, List.splitAt_eq]
      simp only
      cases hleft : rest.drop n with
      | nil =>
          have hle : rest.length ≤ n := List.drop_eq_nil_iff.mp hleft
          obtain ⟨reader', hread, hcontent, hends⟩ :=
            @readExact_ok reader (n - rest.length) (by omega)
          refine ⟨reader', ?_, ?_, hends⟩
          · simp only [hread, Except.map, content, List.cons_append, List.take_succ_cons,
              List.take_append]
          · rw [hcontent, content, List.cons_append, List.drop_succ_cons, List.drop_append, hleft,
              List.nil_append]
      | cons c left =>
          have hlt : n < rest.length := by
            by_contra hle
            rw [List.drop_eq_nil_iff.mpr (Nat.le_of_not_lt hle)] at hleft
            cases hleft
          refine ⟨.data c left :: reader, ?_, ?_, rfl⟩
          · rw [content, List.cons_append, List.take_succ_cons,
              List.take_append_of_le_length (Nat.le_of_lt hlt)]
          · simp only [content, List.cons_append, List.drop_succ_cons]
            rw [List.drop_append_of_le_length (Nat.le_of_lt hlt), hleft, List.cons_append]

/-- Too few bytes are there: the end is reported, or the failure before it. -/
theorem readExact_short : ∀ {reader : Reader} {n : Nat}, reader.content.length < n →
    ∃ reader', readExact n reader =
        (.error (if reader.ends then .unexpectedEof else .other), reader') ∧
      (reader.ends = true → reader' = [])
  | reader, 0, h => absurd h (Nat.not_lt_zero _)
  | [], n + 1, _ => ⟨[], rfl, fun _ => rfl⟩
  | .interrupted :: reader, n + 1, h => by
      obtain ⟨reader', hread, hnil⟩ := @readExact_short reader (n + 1) h
      exact ⟨reader', by rw [readExact, hread]; rfl, hnil⟩
  | .failed :: reader, n + 1, _ => ⟨reader, rfl, fun hends => by cases hends⟩
  | .data b rest :: reader, n + 1, h => by
      simp only [content, List.cons_append, List.length_cons, List.length_append] at h
      have hleft : rest.drop n = [] := List.drop_eq_nil_iff.mpr (by omega)
      obtain ⟨reader', hread, hnil⟩ := @readExact_short reader (n - rest.length) (by omega)
      refine ⟨reader', ?_, hnil⟩
      rw [readExact, List.splitAt_eq]
      simp only [hleft, hread, Except.map]
      rfl

end Reader

/-! ## Reading in chunks -/

namespace Channel

/-- The chunks together are the payload. -/
theorem readChunks_ok {remaining : Nat} : ∀ {scratch : Bytes} {reader : Reader},
    remaining ≤ reader.content.length →
    ∃ reader', readChunks remaining scratch reader =
        (.ok (scratch ++ reader.content.take remaining), reader') ∧
      reader'.content = reader.content.drop remaining ∧ reader'.ends = reader.ends := by
  induction remaining using Nat.strongRecOn with
  | ind remaining ih =>
      intro scratch reader h
      rw [readChunks]
      split
      · rename_i hpos
        have hchunk : 0 < READ_CHUNK_BYTES := by decide
        obtain ⟨reader', hread, hcontent, hends⟩ :=
          @Reader.readExact_ok reader (min remaining READ_CHUNK_BYTES) (by omega)
        obtain ⟨reader'', hmore, hcontent', hends'⟩ :=
          @ih (remaining - min remaining READ_CHUNK_BYTES) (by omega)
            (scratch ++ reader.content.take (min remaining READ_CHUNK_BYTES)) reader'
            (by rw [hcontent, List.length_drop]; omega)
        refine ⟨reader'', ?_, ?_, hends'.trans hends⟩
        · simp only [hread, hmore, hcontent, List.append_assoc, ← List.take_add]
          rw [Nat.add_sub_cancel' (Nat.min_le_left _ _)]
        · rw [hcontent', hcontent, List.drop_drop, Nat.add_sub_cancel' (Nat.min_le_left _ _)]
      · rename_i hzero
        have hzero' : remaining = 0 := Nat.eq_zero_of_not_pos hzero
        subst hzero'
        exact ⟨reader, by simp, by simp, rfl⟩

theorem readChunks_short {remaining : Nat} : ∀ {scratch : Bytes} {reader : Reader},
    reader.content.length < remaining →
    ∃ kind reader', readChunks remaining scratch reader = (.error kind, reader') := by
  induction remaining using Nat.strongRecOn with
  | ind remaining ih =>
      intro scratch reader h
      rw [readChunks, dif_pos (by omega)]
      have hchunk : 0 < READ_CHUNK_BYTES := by decide
      by_cases hle : min remaining READ_CHUNK_BYTES ≤ reader.content.length
      · obtain ⟨reader', hread, hcontent, -⟩ := Reader.readExact_ok hle
        obtain ⟨kind, reader'', hmore⟩ :=
          @ih (remaining - min remaining READ_CHUNK_BYTES) (by omega)
            (scratch ++ reader.content.take (min remaining READ_CHUNK_BYTES)) reader'
            (by rw [hcontent, List.length_drop]; omega)
        exact ⟨kind, reader'', by simp only [hread, hmore]⟩
      · obtain ⟨reader', hread, -⟩ := Reader.readExact_short (Nat.lt_of_not_le hle)
        exact ⟨if reader.ends then .unexpectedEof else .other, reader', by simp only [hread]⟩

/-! ## The payload -/

theorem decodePayload_eq_ok {v : Vocabulary} {payload : Bytes} {message : v.Msg} :
    decodePayload v payload = .ok message ↔ payload = v.tag :: v.codec.write message := by
  constructor
  · intro h
    unfold decodePayload at h
    split at h
    · cases h
    · rename_i tag body
      split at h
      · cases h
      · rename_i htag
        split at h
        · cases h
        · rename_i message' rest hread
          split at h
          · cases h
          · split at h
            · cases h
            · rename_i hcanonical
              cases h
              rw [Classical.not_not.mp htag, Classical.not_not.mp hcanonical]
  · rintro rfl
    have hread : v.codec.read (v.codec.write message) = some (message, []) := by
      have := v.codec.read_write message []
      rwa [List.append_nil] at this
    simp [decodePayload, hread]

end Channel

/-! ## Frames -/

/-- The frame of a message. -/
def frame (v : Vocabulary) (message : v.Msg) : Bytes :=
  leBytes LENGTH_PREFIX_BYTES ((v.codec.write message).length + 1) ++
    v.tag :: v.codec.write message

/-- The message is not too large to be sent. -/
def Sendable (v : Vocabulary) (message : v.Msg) : Prop :=
  (v.codec.write message).length + 1 ≤ MAX_MESSAGE_BYTES

namespace Channel

/-- The stream starts with the frame of a message that can be sent: it is received, and the
rest of the stream is left. -/
theorem recv_frame {v : Vocabulary} {message : v.Msg} (hsend : Sendable v message) {ch : Channel}
    (hclean : ch.poisoned = false) {rest : Bytes} (hstream : ch.reader.content = frame v message ++ rest) :
    ∃ reader, recv v ch = .ok message { ch with reader } ∧ reader.content = rest ∧
      reader.ends = ch.reader.ends := by
  have hlen : (leBytes LENGTH_PREFIX_BYTES ((v.codec.write message).length + 1)).length =
      LENGTH_PREFIX_BYTES := length_leBytes _ _
  have hclaimed : leNat (leBytes LENGTH_PREFIX_BYTES ((v.codec.write message).length + 1)) =
      (v.codec.write message).length + 1 :=
    leNat_leBytes (Nat.lt_of_le_of_lt hsend (by decide))
  rw [frame, List.append_assoc] at hstream
  obtain ⟨reader, hread, hcontent, hends⟩ := @Reader.readExact_ok ch.reader LENGTH_PREFIX_BYTES
    (by rw [hstream, List.length_append, hlen]; omega)
  rw [hstream, List.take_left' hlen] at hread
  rw [hstream, List.drop_left' hlen] at hcontent
  have hbody : (v.tag :: v.codec.write message).length = (v.codec.write message).length + 1 := rfl
  obtain ⟨reader', hchunks, hcontent', hends'⟩ :=
    @readChunks_ok ((v.codec.write message).length + 1) [] reader
      (by rw [hcontent, List.length_append, hbody]; omega)
  rw [hcontent, List.take_left' hbody, List.nil_append] at hchunks
  rw [hcontent, List.drop_left' hbody] at hcontent'
  refine ⟨reader', ?_, hcontent', hends'.trans hends⟩
  simp only [recv, hclean, Bool.false_eq_true, if_false, hread, hclaimed]
  rw [if_neg (Nat.not_lt.mpr hsend)]
  simp only [readPayload, hchunks, decodePayload_eq_ok.mpr rfl]

/-- The stream does not start with such a frame: no message is received, and the channel is
poisoned, unless the stream ended within the length of the next frame. -/
theorem recv_other {v : Vocabulary} {ch : Channel} (hclean : ch.poisoned = false)
    (hstream : ∀ message rest, Sendable v message → ch.reader.content ≠ frame v message ++ rest) :
    ∃ e reader poisoned, recv v ch = .error e { ch with reader, poisoned } ∧
      (poisoned = true ∨ poisoned = false ∧ e = .peerClosed ∧ ch.reader.ends = true ∧
        ch.reader.content.length < LENGTH_PREFIX_BYTES ∧ reader = []) := by
  unfold recv
  simp only [hclean, Bool.false_eq_true, if_false]
  by_cases hprefix : LENGTH_PREFIX_BYTES ≤ ch.reader.content.length
  · obtain ⟨reader, hread, hcontent, -⟩ := Reader.readExact_ok hprefix
    simp only [hread]
    split
    · exact ⟨_, reader, true, rfl, Or.inl rfl⟩
    · rename_i hclaimed
      split
      · -- a message was decoded: then its frame was there
        rename_i message reader' hpayload
        exfalso
        have hwidth : (ch.reader.content.take LENGTH_PREFIX_BYTES).length = LENGTH_PREFIX_BYTES :=
          List.length_take_of_le hprefix
        unfold readPayload at hpayload
        by_cases hle : leNat (ch.reader.content.take LENGTH_PREFIX_BYTES) ≤ reader.content.length
        · obtain ⟨reader'', hchunks, -, -⟩ := @readChunks_ok _ [] reader hle
          simp only [hchunks, List.nil_append, Prod.mk.injEq] at hpayload
          have hdecoded := decodePayload_eq_ok.mp hpayload.1
          have hlen : leNat (ch.reader.content.take LENGTH_PREFIX_BYTES) =
              (v.codec.write message).length + 1 := by
            rw [← List.length_take_of_le hle, hdecoded, List.length_cons]
          refine hstream message
            (reader.content.drop (leNat (ch.reader.content.take LENGTH_PREFIX_BYTES))) ?_ ?_
          · rw [Sendable, ← hlen]
            exact Nat.le_of_not_lt hclaimed
          · have hbytes := leBytes_leNat (ch.reader.content.take LENGTH_PREFIX_BYTES)
            rw [hwidth, hlen] at hbytes
            rw [frame, hbytes, ← hdecoded, List.append_assoc, List.take_append_drop, hcontent,
              List.take_append_drop]
        · obtain ⟨kind, reader'', hchunks⟩ := @readChunks_short _ [] reader (Nat.lt_of_not_le hle)
          simp only [hchunks, Prod.mk.injEq] at hpayload
          cases hpayload.1
      · rename_i e reader' hpayload
        exact ⟨e, reader', true, rfl, Or.inl rfl⟩
  · have hshort := Nat.lt_of_not_le hprefix
    obtain ⟨reader, hread, hnil⟩ := Reader.readExact_short hshort
    cases hends : ch.reader.ends with
    | true =>
        simp only [hread, hends, if_true]
        exact ⟨.peerClosed, reader, false, rfl, Or.inr ⟨rfl, rfl, trivial, hshort, hnil hends⟩⟩
    | false =>
        simp only [hread, hends, Bool.false_eq_true, if_false]
        exact ⟨.io, reader, true, rfl, Or.inl rfl⟩

end Channel

/-! ## One frame, one message -/

theorem encodeFrame_eq_ok {v : Vocabulary} {message : v.Msg} {bytes : Bytes} :
    encodeFrame v message = .ok bytes ↔ Sendable v message ∧ bytes = frame v message := by
  have hsend : Channel.send v message (Channel.new [] ⟨[], []⟩) =
      if MAX_MESSAGE_BYTES < (v.codec.write message).length + 1 then
        .error (.messageTooLarge ((v.codec.write message).length + 1)) (Channel.new [] ⟨[], []⟩)
      else .ok ⟨⟩ (Channel.new [] ⟨frame v message, []⟩) := by
    unfold Channel.send
    simp only [Channel.new, Bool.false_eq_true, if_false]
    split
    · rfl
    · simp [Channel.writeAllPoisoning, Writer.writeAll, StateRun.run_bind, frame]
  unfold encodeFrame
  rw [hsend]
  split
  · rename_i ch hok
    split at hok
    · cases hok
    · rename_i hle
      cases hok
      simp only [Channel.new, Except.ok.injEq]
      exact ⟨fun h => ⟨Nat.le_of_not_lt hle, h.symm⟩, fun h => h.2.symm⟩
  · rename_i e ch herror
    split at herror
    · rename_i hlarge
      simp only [reduceCtorEq, false_iff]
      exact fun h => absurd h.1 (Nat.not_le_of_lt hlarge)
    · cases herror

theorem decodeFrame_eq_ok {v : Vocabulary} {message : v.Msg} {bytes : Bytes} :
    decodeFrame v bytes = .ok message ↔ Sendable v message ∧ bytes = frame v message := by
  unfold decodeFrame
  by_cases hstart : ∃ m rest, Sendable v m ∧ bytes = frame v m ++ rest
  · obtain ⟨m, rest, hsend, hbytes⟩ := hstart
    obtain ⟨reader, hrecv, hcontent, -⟩ := @Channel.recv_frame v m hsend
      (Channel.new (Reader.ofBytes bytes) ⟨[], []⟩) rfl rest (by simpa [Channel.new] using hbytes)
    simp only [hrecv, hcontent]
    constructor
    · intro h
      split at h
      · rename_i hnil
        cases h
        rw [List.isEmpty_iff.mp hnil, List.append_nil] at hbytes
        exact ⟨hsend, hbytes⟩
      · cases h
    · rintro ⟨hsend', hbytes'⟩
      -- the same bytes received as the other message
      obtain ⟨reader', hrecv', hcontent', -⟩ := @Channel.recv_frame v message hsend'
        (Channel.new (Reader.ofBytes bytes) ⟨[], []⟩) rfl [] (by simpa [Channel.new] using hbytes')
      rw [hrecv] at hrecv'
      cases hrecv'
      rw [← hcontent, hcontent']
      rfl
  · have hother : ∀ m rest, Sendable v m →
        (Channel.new (Reader.ofBytes bytes) ⟨[], []⟩).reader.content ≠ frame v m ++ rest := by
      intro m rest hsend heq
      exact hstart ⟨m, rest, hsend, by simpa [Channel.new] using heq⟩
    obtain ⟨e, reader, poisoned, hrecv, -⟩ := @Channel.recv_other v _ rfl hother
    simp only [hrecv, reduceCtorEq, false_iff]
    rintro ⟨hsend, rfl⟩
    exact hstart ⟨message, [], hsend, by simp⟩

/-- The tag stands right after the length. -/
theorem frame_tag {v w : Vocabulary} {m : v.Msg} {n : w.Msg} (h : frame v m = frame w n) : v = w := by
  have hwidth : ∀ k, (leBytes LENGTH_PREFIX_BYTES k).length = LENGTH_PREFIX_BYTES :=
    fun k => length_leBytes _ _
  have hrest := (List.append_inj h (by rw [hwidth, hwidth])).2
  exact Vocabulary.tag_injective (List.cons.inj hrest).1

/-- Encoding and decoding are inverse to each other on what either accepts, and no bytes decode
under two vocabularies. -/
theorem framing_bijective (v : Vocabulary) :
    (∀ message bytes, encodeFrame v message = .ok bytes → decodeFrame v bytes = .ok message) ∧
    (∀ bytes message, decodeFrame v bytes = .ok message → encodeFrame v message = .ok bytes) ∧
    ∀ w, w ≠ v → ∀ bytes message other, decodeFrame v bytes = .ok message →
      decodeFrame w bytes ≠ .ok other := by
  refine ⟨fun message bytes h => ?_, fun bytes message h => ?_,
    fun w hne bytes message other h h' => ?_⟩
  · exact decodeFrame_eq_ok.mpr (encodeFrame_eq_ok.mp h)
  · exact encodeFrame_eq_ok.mpr (decodeFrame_eq_ok.mp h)
  · obtain ⟨-, hbytes⟩ := decodeFrame_eq_ok.mp h
    obtain ⟨-, hbytes'⟩ := decodeFrame_eq_ok.mp h'
    exact hne (frame_tag (hbytes'.symm.trans hbytes))

end Pelorus.Ipc
