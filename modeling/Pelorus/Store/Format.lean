import Pelorus.Lib.Bytes

/-
  Store/Format.lean --- the two checksums of the store (`px-store/src/checksum.rs`).

  Nothing in this development depends on which function a checksum is: the proofs
  only use that a reader computes the same one as the writer.
-/
set_option autoImplicit false

namespace Pelorus.Store

open Lib

/-- One bit of CRC-32/ISO-HDLC, reflected. -/
def crc32Bit (c : UInt32) : UInt32 :=
  if c &&& 1 ≠ 0 then (c >>> 1) ^^^ 0xEDB88320 else c >>> 1

/-- One byte: eight bits. -/
def crc32Byte (c : UInt32) (byte : UInt8) : UInt32 :=
  (List.range 8).foldl (fun c _ => crc32Bit c) (c ^^^ byte.toUInt32)

/-- `crc32_update`: continue a CRC-32 over more data. -/
def crc32Update (previous : UInt32) (data : Bytes) : UInt32 :=
  ~~~ (data.foldl crc32Byte (~~~ previous))

def crc32 (data : Bytes) : UInt32 := crc32Update 0 data

def FNV_OFFSET : UInt64 := 0xcbf29ce484222325

def fnv1a64Update (hash : UInt64) (data : Bytes) : UInt64 :=
  data.foldl (fun hash byte => (hash ^^^ byte.toUInt64) * 0x100000001b3) hash

def fnv1a64 (data : Bytes) : UInt64 := fnv1a64Update FNV_OFFSET data

/-- The check value of the algorithm, from the source's own test. -/
example : crc32 "123456789".toUTF8.toList = 0xCBF43926 := by decide +kernel

/-- Continuing a checksum is checksumming the whole. -/
theorem crc32Update_append (c : UInt32) (a b : Bytes) :
    crc32Update (crc32Update c a) b = crc32Update c (a ++ b) := by
  simp [crc32Update, List.foldl_append]

end Pelorus.Store

/-! # The on-disk log format (`px-store/src/format.rs`)

A log is a 16-byte header and records, each framed by its length and a
checksum.  The codec is proved in the prefix form that composes:

    decodeRecord_append   a written record followed by anything decodes to
                          itself and its size
    decodeRecord_take     a record cut anywhere does not decode
    decodeRecord_sound    what decodes was written by `encodeRecord` -/

namespace Pelorus.Store

open Lib Lib.Bytes

/-- Why a store file could not be opened. -/
inductive FormatError where
  | notAStore
  | unsupportedVersion (version flags : Nat)
  | badHeader
  | recordTooLarge
  deriving DecidableEq, Repr

/-! ## Limits -/

def MAGIC : Bytes := [0x50, 0x58, 0x53, 0x4c]

def VERSION : Nat := 1

def HEADER_LEN : Nat := 16

/-- Per-record framing: length and checksum. -/
def FRAME_LEN : Nat := 8

def MAX_KEY_BYTES : Nat := 1024

def MAX_VALUE_BYTES : Nat := 2 ^ 20

def MAX_PARTITION_ID_BYTES : Nat := 1024

/-- Op, namespace, two length fields, and the three payloads. -/
def MAX_BODY_BYTES : Nat :=
  2 + 2 + MAX_PARTITION_ID_BYTES + 2 + MAX_KEY_BYTES + MAX_VALUE_BYTES

def OP_PUT : UInt8 := 1

def OP_DELETE : UInt8 := 2

/-! ## The header -/

/-- The part of the header its checksum covers. -/
def headerFields : Bytes := MAGIC ++ leBytes 4 VERSION ++ leBytes 4 0

/-- `header_bytes`: the canonical header. -/
def headerBytes : Bytes := headerFields ++ leBytes 4 (crc32 headerFields).toNat

/-- What a file's first bytes say. -/
inductive Header where
  /-- empty, or a torn creation -/
  | fresh
  /-- a valid header -/
  | valid
  deriving DecidableEq, Repr

/-- `check_header`: classify the start of a file. -/
def checkHeader (bytes : Bytes) : Except FormatError Header :=
  if bytes = [] then .ok .fresh
  else if bytes.length < HEADER_LEN then
    if bytes.isPrefixOf headerBytes then .ok .fresh else .error .notAStore
  else
    match take? 4 bytes with
    | none => .error .notAStore
    | some (magic, r) =>
        if magic ≠ MAGIC then .error .notAStore
        else
          match number? 4 r with
          | none => .error .badHeader
          | some (version, r) =>
              match number? 4 r with
              | none => .error .badHeader
              | some (flags, r) =>
                  if version ≠ VERSION ∨ flags ≠ 0 then
                    .error (.unsupportedVersion version flags)
                  else
                    match number? 4 r with
                    | none => .error .badHeader
                    | some (crc, _) =>
                        if crc ≠ (crc32 (bytes.take 12)).toNat then .error .badHeader
                        else .ok .valid

theorem length_headerFields : headerFields.length = 12 := by
  simp [headerFields, MAGIC]

@[simp] theorem length_headerBytes : headerBytes.length = HEADER_LEN := by
  simp [headerBytes, length_headerFields, HEADER_LEN]

/-- The canonical header is recognised, whatever follows it. -/
theorem checkHeader_append (rest : Bytes) : checkHeader (headerBytes ++ rest) = .ok .valid := by
  have hne : headerBytes ++ rest ≠ [] := by
    intro h
    have := congrArg List.length h
    simp [HEADER_LEN] at this
  have hlen : ¬ (headerBytes ++ rest).length < HEADER_LEN := by
    simp
  have hbytes : headerBytes ++ rest =
      MAGIC ++ (leBytes 4 VERSION ++ (leBytes 4 0 ++ (leBytes 4 (crc32 headerFields).toNat ++ rest))) := by
    simp [headerBytes, headerFields]
  have hcovered : (headerBytes ++ rest).take 12 = headerFields := by
    rw [headerBytes, List.append_assoc, ← length_headerFields, List.take_left']
    rfl
  have hmagic := take?_append MAGIC
    (leBytes 4 VERSION ++ (leBytes 4 0 ++ (leBytes 4 (crc32 headerFields).toNat ++ rest)))
  rw [← hbytes] at hmagic
  have hversion : VERSION < 256 ^ 4 := by decide
  have hflags : (0 : Nat) < 256 ^ 4 := by decide
  have hcrc : (crc32 headerFields).toNat < 256 ^ 4 := (crc32 headerFields).toNat_lt
  simp only [checkHeader, hne, hlen, if_false]
  rw [show (4 : Nat) = MAGIC.length from rfl, hmagic]
  simp only [ne_eq, not_true_eq_false, if_false]
  rw [show MAGIC.length = 4 from rfl, number?_append hversion]
  simp only
  rw [number?_append hflags]
  simp only [not_true_eq_false, or_self, if_false]
  rw [number?_append hcrc, hcovered]
  simp

/-! ## Records -/

/-- One logged operation. -/
inductive Op where
  | put (ns : UInt8) (pid key value : Bytes)
  | delete (ns : UInt8) (pid key : Bytes)
  deriving DecidableEq, Repr

namespace Op

def code : Op → UInt8
  | put .. => OP_PUT
  | delete .. => OP_DELETE

def ns : Op → UInt8
  | put ns .. => ns
  | delete ns .. => ns

def pid : Op → Bytes
  | put _ pid _ _ => pid
  | delete _ pid _ => pid

def key : Op → Bytes
  | put _ _ key _ => key
  | delete _ _ key => key

/-- The value of a put; a delete has none. -/
def value : Op → Bytes
  | put _ _ _ value => value
  | delete .. => []

/-- The body of a record. -/
def body (op : Op) : Bytes :=
  op.code :: op.ns :: (leBytes 2 op.pid.length ++ op.pid ++ leBytes 2 op.key.length ++ op.key ++
    op.value)

/-- The three payloads are within their bounds. -/
def Fits (op : Op) : Prop :=
  op.pid.length ≤ MAX_PARTITION_ID_BYTES ∧ op.key.length ≤ MAX_KEY_BYTES ∧
    op.value.length ≤ MAX_VALUE_BYTES

/-- How many bytes a record takes on disk. -/
def size (op : Op) : Nat := FRAME_LEN + 6 + op.pid.length + op.key.length + op.value.length

theorem length_body (op : Op) : op.body.length = 6 + op.pid.length + op.key.length + op.value.length := by
  simp [body]
  omega

end Op

/-- Length, checksum of the length and the body, body. -/
def frame (body : Bytes) : Bytes :=
  leBytes 4 body.length ++
    (leBytes 4 (crc32Update (crc32 (leBytes 4 body.length)) body).toNat ++ body)

/-- `encode_record`: encode one record, framing included. -/
def encodeRecord (op : Op) : Except FormatError Bytes :=
  if op.pid.length > MAX_PARTITION_ID_BYTES ∨ op.key.length > MAX_KEY_BYTES ∨
      op.value.length > MAX_VALUE_BYTES then .error .recordTooLarge
  else if op.pid.length ≥ 2 ^ 16 ∨ op.key.length ≥ 2 ^ 16 then .error .recordTooLarge
  else if op.body.length ≥ 2 ^ 32 then .error .recordTooLarge
  else .ok (frame op.body)

def parseBody (body : Bytes) : Option Op :=
  match body with
  | [] => none
  | [_] => none
  | code :: ns :: r => do
      let (pidLen, r) ← number? 2 r
      let (pid, r) ← take? pidLen r
      let (keyLen, r) ← number? 2 r
      let (key, value) ← take? keyLen r
      if pid.length > MAX_PARTITION_ID_BYTES ∨ key.length > MAX_KEY_BYTES then none
      else if code = OP_PUT ∧ value.length ≤ MAX_VALUE_BYTES then some (.put ns pid key value)
      else if code = OP_DELETE ∧ value = [] then some (.delete ns pid key)
      else none

/-- The result of decoding at one position. -/
inductive Next where
  /-- the buffer ended on a record boundary -/
  | done
  /-- a whole record, and how many bytes it took -/
  | record (op : Op) (used : Nat)
  /-- incomplete, over-long, corrupt or malformed -/
  | torn
  deriving DecidableEq, Repr

/-- `decode_record`: decode the record at the start of `buf`. -/
def decodeRecord (buf : Bytes) : Next :=
  if buf = [] then .done
  else
    match number? 4 buf with
    | none => .torn
    | some (len, r) =>
        match number? 4 r with
        | none => .torn
        | some (crc, r) =>
            if len > MAX_BODY_BYTES then .torn
            else
              match take? len r with
              | none => .torn
              | some (body, _) =>
                  if crc ≠ (crc32Update (crc32 (leBytes 4 len)) body).toNat then .torn
                  else
                    match parseBody body with
                    | some op => .record op (FRAME_LEN + len)
                    | none => .torn

/-! ## The codec -/

theorem length_frame (body : Bytes) : (frame body).length = FRAME_LEN + body.length := by
  simp [frame, FRAME_LEN]
  omega

theorem length_frame_body (op : Op) : (frame op.body).length = op.size := by
  rw [length_frame, op.length_body, Op.size]
  omega

variable {op : Op}

theorem length_body_le (h : op.Fits) : op.body.length ≤ MAX_BODY_BYTES := by
  obtain ⟨hpid, hkey, hvalue⟩ := h
  rw [op.length_body, MAX_BODY_BYTES]
  omega

theorem encodeRecord_eq_ok (h : op.Fits) : encodeRecord op = .ok (frame op.body) := by
  have hbody := length_body_le h
  obtain ⟨hpid, hkey, hvalue⟩ := h
  have h₁ : ¬ (op.pid.length > MAX_PARTITION_ID_BYTES ∨ op.key.length > MAX_KEY_BYTES ∨
      op.value.length > MAX_VALUE_BYTES) := by omega
  have h₂ : ¬ (op.pid.length ≥ 2 ^ 16 ∨ op.key.length ≥ 2 ^ 16) := by
    simp only [MAX_PARTITION_ID_BYTES, MAX_KEY_BYTES] at hpid hkey
    omega
  have h₃ : ¬ op.body.length ≥ 2 ^ 32 := by
    simp only [MAX_BODY_BYTES, MAX_PARTITION_ID_BYTES, MAX_KEY_BYTES, MAX_VALUE_BYTES] at hbody
    omega
  rw [encodeRecord, if_neg h₁, if_neg h₂, if_neg h₃]

theorem parseBody_body (h : op.Fits) : parseBody op.body = some op := by
  obtain ⟨hpid, hkey, hvalue⟩ := h
  have hpid' : op.pid.length < 256 ^ 2 := by
    simp only [MAX_PARTITION_ID_BYTES] at hpid
    omega
  have hkey' : op.key.length < 256 ^ 2 := by
    simp only [MAX_KEY_BYTES] at hkey
    omega
  have hbounds : ¬ (op.pid.length > MAX_PARTITION_ID_BYTES ∨ op.key.length > MAX_KEY_BYTES) := by
    omega
  simp only [Op.body, parseBody, List.append_assoc, number?_append hpid', take?_append,
    number?_append hkey', Option.bind_eq_bind, Option.bind_some, if_neg hbounds]
  cases op with
  | put ns pid key value =>
      have hv : value.length ≤ MAX_VALUE_BYTES := hvalue
      simp [Op.code, Op.value, Op.ns, Op.pid, Op.key, hv]
  | delete ns pid key => simp [Op.code, Op.value, Op.ns, Op.pid, Op.key, OP_PUT, OP_DELETE]

/-- A written record followed by anything decodes to itself. -/
theorem decodeRecord_append (h : op.Fits) (rest : Bytes) :
    decodeRecord (frame op.body ++ rest) = .record op op.size := by
  have hbody := length_body_le h
  have hlen : op.body.length < 256 ^ 4 := by
    simp only [MAX_BODY_BYTES, MAX_PARTITION_ID_BYTES, MAX_KEY_BYTES, MAX_VALUE_BYTES] at hbody
    omega
  have hcrc : (crc32Update (crc32 (leBytes 4 op.body.length)) op.body).toNat < 256 ^ 4 :=
    UInt32.toNat_lt _
  have hne : frame op.body ++ rest ≠ [] := by
    intro hnil
    have := congrArg List.length hnil
    simp [length_frame, FRAME_LEN] at this
  have hle : ¬ op.body.length > MAX_BODY_BYTES := Nat.not_lt.mpr hbody
  have hbytes : frame op.body ++ rest = leBytes 4 op.body.length ++
      (leBytes 4 (crc32Update (crc32 (leBytes 4 op.body.length)) op.body).toNat ++
        (op.body ++ rest)) := by
    simp [frame]
  have hsize : FRAME_LEN + op.body.length = op.size := by
    rw [← length_frame, length_frame_body]
  rw [decodeRecord, if_neg hne, hbytes]
  simp only [number?_append hlen, number?_append hcrc, if_neg hle, take?_append, ne_eq,
    not_true_eq_false, if_false, parseBody_body h, hsize]

/-- A record cut short does not decode. -/
theorem decodeRecord_take (h : op.Fits) {k : Nat} (hk : k < op.size) :
    decodeRecord ((frame op.body).take k) = .done ∨
      decodeRecord ((frame op.body).take k) = .torn := by
  have hbody := length_body_le h
  have hlen : op.body.length < 256 ^ 4 := by
    simp only [MAX_BODY_BYTES, MAX_PARTITION_ID_BYTES, MAX_KEY_BYTES, MAX_VALUE_BYTES] at hbody
    omega
  rw [← length_frame_body] at hk
  have hcut : ((frame op.body).take k).length = k := List.length_take_of_le (Nat.le_of_lt hk)
  generalize hpiece : (frame op.body).take k = piece at hcut ⊢
  -- what is left of the record, once the length field has been read
  have hrest : piece ++ (frame op.body).drop k = frame op.body := by
    rw [← hpiece, List.take_append_drop]
  unfold decodeRecord
  by_cases hnil : piece = []
  · simp [hnil]
  · right
    rw [if_neg hnil]
    cases hnum : number? 4 piece with
    | none => rfl
    | some p =>
        obtain ⟨len, r⟩ := p
        obtain ⟨hp, -⟩ := number?_eq_some.mp hnum
        cases hnum' : number? 4 r with
        | none => simp only [hnum']
        | some p' =>
            obtain ⟨crc, r'⟩ := p'
            obtain ⟨hp', -⟩ := number?_eq_some.mp hnum'
            -- the length field is the whole record's
            have hfield : leBytes 4 len = leBytes 4 op.body.length := by
              rw [hp, frame, List.append_assoc] at hrest
              exact (List.append_inj hrest (by simp)).1
            have hleneq : len = op.body.length := by
              have hltlen : len < 256 ^ 4 := (number?_eq_some.mp hnum).2
              rw [← leNat_leBytes hltlen, hfield, leNat_leBytes hlen]
            subst hleneq
            have hshort : r'.length < op.body.length := by
              have h₁ := congrArg List.length hp
              have h₂ := congrArg List.length hp'
              simp only [List.length_append, length_leBytes] at h₁ h₂
              rw [length_frame, FRAME_LEN] at hk
              omega
            simp [hnum', take?_eq_none.mpr hshort]

/-- What parses was written from an operation within bounds. -/
theorem parseBody_sound {body : Bytes} (h : parseBody body = some op) : body = op.body ∧ op.Fits := by
  match body, h with
  | [], h => simp [parseBody] at h
  | [_], h => simp [parseBody] at h
  | code :: ns :: r, h =>
      simp only [parseBody, Option.bind_eq_bind, Option.bind_eq_some_iff] at h
      obtain ⟨⟨pidLen, r₁⟩, h₁, ⟨pid, r₂⟩, h₂, ⟨keyLen, r₃⟩, h₃, ⟨key, value⟩, h₄, h⟩ := h
      obtain ⟨rfl, -⟩ := number?_eq_some.mp h₁
      obtain ⟨rfl, rfl⟩ := take?_eq_some.mp h₂
      obtain ⟨rfl, -⟩ := number?_eq_some.mp h₃
      obtain ⟨rfl, rfl⟩ := take?_eq_some.mp h₄
      simp only at h
      split at h
      · cases h
      · rename_i hbounds
        simp only [not_or, Nat.not_lt] at hbounds
        split at h
        · rename_i hput
          cases h
          obtain ⟨rfl, hv⟩ := hput
          exact ⟨by simp [Op.body, Op.code, Op.ns, Op.pid, Op.key, Op.value],
            hbounds.1, hbounds.2, hv⟩
        · split at h
          · rename_i hdel
            cases h
            obtain ⟨rfl, rfl⟩ := hdel
            exact ⟨by simp [Op.body, Op.code, Op.ns, Op.pid, Op.key, Op.value],
              hbounds.1, hbounds.2, Nat.zero_le _⟩
          · cases h

/-- What decodes was written by `encode_record`. -/
theorem decodeRecord_sound {buf : Bytes} {used : Nat} (h : decodeRecord buf = .record op used) :
    op.Fits ∧ used = op.size ∧ ∃ rest, buf = frame op.body ++ rest := by
  unfold decodeRecord at h
  split at h
  · cases h
  · cases hnum : number? 4 buf with
    | none => simp [hnum] at h
    | some p =>
        obtain ⟨len, r⟩ := p
        obtain ⟨rfl, hlen⟩ := number?_eq_some.mp hnum
        simp only [hnum] at h
        cases hnum' : number? 4 r with
        | none => simp [hnum'] at h
        | some p' =>
            obtain ⟨crc, r'⟩ := p'
            obtain ⟨rfl, -⟩ := number?_eq_some.mp hnum'
            simp only [hnum'] at h
            split at h
            · cases h
            · cases htake : take? len r' with
              | none => simp [htake] at h
              | some p'' =>
                  obtain ⟨body, rest⟩ := p''
                  obtain ⟨rfl, rfl⟩ := take?_eq_some.mp htake
                  simp only [htake] at h
                  split at h
                  · cases h
                  · rename_i hcrc
                    simp only [ne_eq, Decidable.not_not] at hcrc
                    cases hparse : parseBody body with
                    | none => simp [hparse] at h
                    | some op' =>
                        simp only [hparse, Next.record.injEq] at h
                        obtain ⟨rfl, rfl⟩ := h
                        obtain ⟨rfl, hfits⟩ := parseBody_sound hparse
                        refine ⟨hfits, ?_, rest, ?_⟩
                        · rw [← length_frame, length_frame_body]
                        · simp [frame, hcrc]

/-! ## The codec as a whole -/

theorem encodeRecord_eq_ok_iff {bytes : Bytes} :
    encodeRecord op = .ok bytes ↔ op.Fits ∧ bytes = frame op.body := by
  constructor
  · intro h
    have hfits : op.Fits := by
      unfold encodeRecord at h
      split at h
      · cases h
      · rename_i hbounds
        simp only [not_or, Nat.not_lt] at hbounds
        exact hbounds
    rw [encodeRecord_eq_ok hfits] at h
    exact ⟨hfits, (Except.ok.inj h).symm⟩
  · rintro ⟨hfits, rfl⟩
    exact encodeRecord_eq_ok hfits

/-- Only the empty buffer ends on a record boundary. -/
theorem decodeRecord_eq_done {buf : Bytes} (h : decodeRecord buf = .done) : buf = [] := by
  unfold decodeRecord at h
  split at h
  · assumption
  · cases hlen : number? 4 buf with
    | none => simp [hlen] at h
    | some p =>
        obtain ⟨len, r⟩ := p
        simp only [hlen] at h
        cases hcrc : number? 4 r with
        | none => simp [hcrc] at h
        | some p' =>
            obtain ⟨crc, r'⟩ := p'
            simp only [hcrc] at h
            split at h
            · cases h
            · cases hbody : take? len r' with
              | none => simp [hbody] at h
              | some p'' =>
                  obtain ⟨body, rest⟩ := p''
                  simp only [hbody] at h
                  split at h
                  · cases h
                  · cases hop : parseBody body <;> simp [hop] at h

/-- What the log relies on of the encoder, the decoder and the checksum. -/
structure RecordCodec : Prop where
  /-- an operation within the caps is encoded, and decodes to itself before any tail -/
  round_trip : ∀ op : Op, op.Fits → ∃ bytes, encodeRecord op = .ok bytes ∧
    ∀ tail, decodeRecord (bytes ++ tail) = .record op bytes.length
  /-- a strict prefix of an encoding, unless empty, is torn -/
  torn : ∀ op bytes, encodeRecord op = .ok bytes →
    ∀ piece, piece <+: bytes → piece ≠ bytes → piece ≠ [] → decodeRecord piece = .torn
  /-- what decodes is an encoding, byte for byte -/
  canonical : ∀ buf op n, decodeRecord buf = .record op n →
    encodeRecord op = .ok (buf.take n) ∧ n ≤ buf.length
  /-- a checksum can be continued -/
  incremental : ∀ a b, crc32Update (crc32 a) b = crc32 (a ++ b)

theorem record_codec : RecordCodec where
  round_trip := fun op hfits => by
    refine ⟨frame op.body, encodeRecord_eq_ok hfits, fun tail => ?_⟩
    rw [length_frame_body]
    exact decodeRecord_append hfits tail
  torn := fun op bytes henc piece hpre hne hnil => by
    obtain ⟨hfits, rfl⟩ := encodeRecord_eq_ok_iff.mp henc
    have hlt : piece.length < op.size := by
      rw [← length_frame_body]
      refine Nat.lt_of_le_of_ne hpre.length_le fun heq => hne (hpre.eq_of_length heq)
    rw [List.prefix_iff_eq_take.mp hpre]
    refine (decodeRecord_take hfits hlt).resolve_left fun h => hnil ?_
    rw [List.prefix_iff_eq_take.mp hpre]
    exact decodeRecord_eq_done h
  canonical := fun buf op n hdec => by
    obtain ⟨hfits, rfl, rest, rfl⟩ := decodeRecord_sound hdec
    have hlen : (frame op.body).length = op.size := length_frame_body op
    refine ⟨?_, by rw [List.length_append, hlen]; exact Nat.le_add_right _ _⟩
    rw [← hlen, List.take_left]
    exact encodeRecord_eq_ok hfits
  incremental := fun a b => crc32Update_append 0 a b

end Pelorus.Store
