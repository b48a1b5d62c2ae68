import Pelorus.Lib.Bits
import Pelorus.Lib.EarlyExit

/-
  Image/Inflate.lean --- zlib and DEFLATE decoding, within a limit on the output.

  The reader is the list of the bits it has yet to read, each byte's least significant bit
  first, and every step returns the bits it left.  A loop runs on the number of bits that
  remain: each of its turns reads one at least, so where that number is spent the source's
  own next read finds the end of the data.
-/
set_option autoImplicit false

namespace Pelorus.Image

open Lib Lib.Bits

/-- Why an image was refused. -/
inductive DecodeError where
  | unknownFormat
  | truncated
  | malformed (what : String)
  | unsupported (what : String)
  | badDimensions
  | limitExceeded (what : String)
deriving DecidableEq, Repr

/-- The byte at a place of a row or a slice, zero beyond its end. -/
def at' (data : Bytes) (i : Nat) : UInt8 := data.getD i 0

/-- The big-endian number of two bytes at a place, zero where they are not all there. -/
def be16 (data : Bytes) (i : Nat) : Nat :=
  match data.drop i with
  | a :: b :: _ => a.toNat * 256 + b.toNat
  | _ => 0

/-- The big-endian number of four bytes at a place, zero where they are not all there. -/
def be32 (data : Bytes) (i : Nat) : Nat :=
  match data.drop i with
  | a :: b :: c :: e :: _ => ((a.toNat * 256 + b.toNat) * 256 + c.toNat) * 256 + e.toNat
  | _ => 0

namespace Inflate

/-- Adler-32 of data.  The sums are reduced after every byte here and once in 5552 bytes in
the source, whose sums of 32 bits hold that many. -/
def adler32 (data : Bytes) : Nat :=
  let (a, b) := data.foldl (fun (a, b) x => ((a + x.toNat) % 65521, (b + (a + x.toNat)) % 65521)) (1, 0)
  b * 65536 + a

def lbase : List Nat :=
  [3, 4, 5, 6, 7, 8, 9, 10, 11, 13, 15, 17, 19, 23, 27, 31, 35, 43, 51, 59, 67, 83, 99, 115, 131,
    163, 195, 227, 258]

def lext : List Nat :=
  [0, 0, 0, 0, 0, 0, 0, 0, 1, 1, 1, 1, 2, 2, 2, 2, 3, 3, 3, 3, 4, 4, 4, 4, 5, 5, 5, 5, 0]

def dbase : List Nat :=
  [1, 2, 3, 4, 5, 7, 9, 13, 17, 25, 33, 49, 65, 97, 129, 193, 257, 385, 513, 769, 1025, 1537,
    2049, 3073, 4097, 6145, 8193, 12289, 16385, 24577]

def dext : List Nat :=
  [0, 0, 0, 0, 1, 1, 2, 2, 3, 3, 4, 4, 5, 5, 6, 6, 7, 7, 8, 8, 9, 9, 10, 10, 11, 11, 12, 12, 13, 13]

/-- The next bits as a number, the least significant first. -/
def bits (n : Nat) (rest : List Bool) : Except DecodeError (Nat × List Bool) :=
  match read n rest with
  | some v => .ok v
  | none => .error .truncated

/-- What is left of the reader once the partial byte is dropped. -/
def byteAlign (rest : List Bool) : List Bool := rest.drop (rest.length % 8)

/-! ## Huffman codes -/

structure Huffman where
  count : List Nat
  symbol : List Nat
deriving DecidableEq, Repr

/-- What remains of the code space behind the lengths from a count on, unless it runs out. -/
def left : List Nat → Nat → Except DecodeError Nat
  | [], space => .ok space
  | c :: counts, space =>
      if 2 * space < c then .error (.malformed "over-subscribed Huffman code")
      else left counts (2 * space - c)

/-- The place of each length's first symbol: the running sums of the counts. -/
def offsets : List Nat → Nat → List Nat
  | [], _ => []
  | c :: counts, start => start :: offsets counts (start + c)

/-- Put one symbol in the next place of its length. -/
def place (state : List Nat × List Nat) (entry : Nat × Nat) : List Nat × List Nat :=
  let (offs, symbol) := state
  let (l, s) := entry
  if l ≠ 0 then
    let o := offs.getD (l % 16) 0
    (offs.set (l % 16) (o + 1), symbol.set o s)
  else state

def Huffman.new (lengths : List Nat) : Except DecodeError Huffman := do
  let count := (List.range 16).map fun l => lengths.countP fun k => k % 16 == l
  let _ ← left (count.drop 1) 1
  let offs := 0 :: offsets (count.drop 1) 0
  let (_, symbol) := lengths.zipIdx.foldl place (offs, List.replicate lengths.length 0)
  return { count, symbol }

/-- The turns of `decode` from a length on; each takes one bit. -/
def Huffman.decodeFrom (table : Huffman) : Nat → Nat → Nat → Nat → Nat → List Bool → Except DecodeError (Nat × List Bool)
  | 0, _, _, _, _, _ => .error (.malformed "invalid Huffman code")
  | turns + 1, len, code, first, index, rest => do
      let (b, rest) ← bits 1 rest
      let code := code + b
      let count := table.count.getD len 0
      if code < first + count then
        match table.symbol[index + (code - first)]? with
        | some s => return (s, rest)
        | none => .error (.malformed "bad Huffman symbol")
      else
        table.decodeFrom turns (len + 1) (2 * code) (2 * (first + count)) (index + count) rest

def Huffman.decode (table : Huffman) (rest : List Bool) : Except DecodeError (Nat × List Bool) :=
  table.decodeFrom 15 1 0 0 0 rest

/-- The lengths of the literal code that needs no description. -/
def fixedLengths : List Nat :=
  (List.range 288).map fun i => if i ≤ 143 then 8 else if i ≤ 255 then 9 else if i ≤ 279 then 7 else 8

def fixedTables : Except DecodeError (Huffman × Huffman) := do
  return (← Huffman.new fixedLengths, ← Huffman.new (List.replicate 30 5))

/-! ## Blocks -/

/-- `Out::room`: that so many more bytes stay within the limit. -/
def room (limit : Nat) (out : Bytes) (extra : Nat) : Except DecodeError Unit :=
  if limit - out.length < extra then .error (.malformed "inflated data exceeds expected size") else .ok ()

/-- Copy bytes of the output behind it, one by one, from a place that the copies may reach. -/
def copy : Nat → Nat → Bytes → Bytes
  | 0, _, out => out
  | len + 1, start, out => copy len (start + 1) (out ++ [out.getD start 0])

/-- The bytes that a length symbol and a distance symbol stand for, put behind the output. -/
def reference (limit sym : Nat) (dist : Huffman) (rest : List Bool) (out : Bytes) : Except DecodeError (List Bool × Bytes) := do
  match lbase[sym - 257]?, lext[sym - 257]? with
  | some lb, some le =>
      let (extra, rest) ← bits le rest
      let len := lb + extra
      let (di, rest) ← dist.decode rest
      match dbase[di]?, dext[di]? with
      | some db, some de =>
          let (extra, rest) ← bits de rest
          let d := db + extra
          if out.length < d then .error (.malformed "distance too far back")
          else
            room limit out len
            return (rest, copy len (out.length - d) out)
      | _, _ => .error (.malformed "bad distance symbol")
  | _, _ => .error (.malformed "bad length symbol")

def inflateCodes (limit : Nat) (lit dist : Huffman) : Nat → List Bool → Bytes → Except DecodeError (List Bool × Bytes)
  | 0, _, _ => .error .truncated
  | turns + 1, rest, out => do
      let (sym, rest) ← lit.decode rest
      if sym < 256 then
        room limit out 1
        inflateCodes limit lit dist turns rest (out ++ [UInt8.ofNat sym])
      else if sym = 256 then
        return (rest, out)
      else
        let (rest, out) ← reference limit sym dist rest out
        inflateCodes limit lit dist turns rest out

def order : List Nat := [16, 17, 18, 0, 8, 7, 9, 6, 10, 5, 11, 4, 12, 3, 13, 2, 14, 1, 15]

/-- The lengths of the code that the code lengths are written in. -/
def readCl : List Nat → List Nat → List Bool → Except DecodeError (List Nat × List Bool)
  | [], cl, rest => .ok (cl, rest)
  | o :: places, cl, rest => do
      let (v, rest) ← bits 3 rest
      readCl places (cl.set o v) rest

/-- The length a repeat code stands for and how often. -/
def repeats (sym : Nat) (lengths : List Nat) (rest : List Bool) : Except DecodeError (Nat × Nat × List Bool) := do
  if sym = 16 then
    match lengths.getLast? with
    | none => .error (.malformed "repeat with no previous length")
    | some prev =>
        let (n, rest) ← bits 2 rest
        return (prev, 3 + n, rest)
  else if sym = 17 then
    let (n, rest) ← bits 3 rest
    return (0, 3 + n, rest)
  else
    let (n, rest) ← bits 7 rest
    return (0, 11 + n, rest)

/-- The code lengths read so far, grown to `total`. -/
def readLengths (clh : Huffman) (total : Nat) : Nat → List Nat → List Bool → Except DecodeError (List Nat × List Bool)
  | 0, lengths, rest => if lengths.length < total then .error .truncated else .ok (lengths, rest)
  | turns + 1, lengths, rest => do
      if lengths.length < total then
        let (sym, rest) ← clh.decode rest
        if sym < 16 then
          readLengths clh total turns (lengths ++ [sym]) rest
        else
          let (val, rep, rest) ← repeats sym lengths rest
          if total < lengths.length + rep then .error (.malformed "code length repeat overruns")
          else readLengths clh total turns (lengths ++ List.replicate rep val) rest
      else return (lengths, rest)

def readDynamic (rest : List Bool) : Except DecodeError ((Huffman × Huffman) × List Bool) := do
  let (nlen, rest) ← bits 5 rest
  let (ndist, rest) ← bits 5 rest
  let (ncode, rest) ← bits 4 rest
  let nlen := nlen + 257
  let ndist := ndist + 1
  if 286 < nlen ∨ 30 < ndist then .error (.malformed "too many Huffman codes")
  else
    let (cl, rest) ← readCl (order.take (ncode + 4)) (List.replicate 19 0) rest
    let clh ← Huffman.new cl
    let (lengths, rest) ← readLengths clh (nlen + ndist) rest.length [] rest
    if lengths.getD 256 0 = 0 then .error (.malformed "no end-of-block code")
    else return ((← Huffman.new (lengths.take nlen), ← Huffman.new (lengths.drop nlen)), rest)

/-- A stored block: the bytes of the data from the reader's place on. -/
def stored (limit : Nat) (data : Bytes) (rest : List Bool) (out : Bytes) : Except DecodeError (List Bool × Bytes) := do
  let rest := byteAlign rest
  let tail := data.drop (data.length - rest.length / 8)
  if tail.length < 4 then .error .truncated
  else
    let len := (at' tail 0).toNat + 256 * (at' tail 1).toNat
    let nlen := (at' tail 2).toNat + 256 * (at' tail 3).toNat
    if len ≠ 65535 - nlen then .error (.malformed "stored block length check")
    else
      let body := tail.drop 4
      if body.length < len then .error .truncated
      else
        room limit out len
        return (rest.drop (8 * (4 + len)), out ++ body.take len)

/-- One block of the type that its two bits say. -/
def block (limit : Nat) (data : Bytes) (kind : Nat) (rest : List Bool) (out : Bytes) : Except DecodeError (List Bool × Bytes) := do
  match kind with
  | 0 => stored limit data rest out
  | 1 =>
      let (l, d) ← fixedTables
      inflateCodes limit l d rest.length rest out
  | 2 =>
      let ((l, d), rest) ← readDynamic rest
      inflateCodes limit l d rest.length rest out
  | _ => .error (.malformed "reserved block type")

def blocks (limit : Nat) (data : Bytes) : Nat → List Bool → Bytes → Except DecodeError Bytes
  | 0, _, _ => .error .truncated
  | turns + 1, rest, out => do
      let (last, rest) ← bits 1 rest
      let (kind, rest) ← bits 2 rest
      let (rest, out) ← block limit data kind rest out
      if last = 1 then return out
      else blocks limit data turns rest out

/-- Inflate a raw DEFLATE stream, refusing to produce more than `limit` bytes. -/
def inflate (data : Bytes) (limit : Nat) : Except DecodeError Bytes :=
  blocks limit data (ofBytes data).length (ofBytes data) []

/-- Decompress a zlib stream into at most `limit` bytes and check its Adler-32. -/
def zlibDecompress (z : Bytes) (limit : Nat) : Except DecodeError Bytes := do
  if z.length < 6 then .error .truncated
  else
    let (cmf, flg) := ((at' z 0).toNat, (at' z 1).toNat)
    if cmf % 16 ≠ 8 ∨ 7 < cmf / 16 ∨ (cmf * 256 + flg) % 31 ≠ 0 then .error (.malformed "bad zlib header")
    else if flg / 32 % 2 ≠ 0 then .error (.unsupported "zlib preset dictionary")
    else
      let out ← inflate ((z.take (z.length - 4)).drop 2) limit
      if adler32 out ≠ be32 z (z.length - 4) then .error (.malformed "zlib Adler-32 mismatch")
      else return out

/-! ## Other limits

The output only grows, so what is decoded within a limit is decoded the same within every
limit that its length keeps, and a stream stands for one output at most. -/

/-- A step from an output of `start` bytes never shrinks it, and what it returns within one
limit it returns within every limit that is not below the bytes it returns. -/
def Fits {α : Type} (size : α → Nat) (start : Nat) (step : Nat → Except DecodeError α) : Prop :=
  ∀ limit a, step limit = .ok a → start ≤ size a ∧ ∀ limit', size a ≤ limit' → step limit' = .ok a

namespace Fits

variable {α β : Type} {size : α → Nat} {size' : β → Nat} {start : Nat}

theorem error (e : DecodeError) : Fits size start fun _ => .error e := fun _ _ h => by cases h

theorem pure {a : α} (h : start ≤ size a) : Fits size start fun _ => .ok a := by
  intro _ _ ha
  cases ha
  exact ⟨h, fun _ _ => rfl⟩

/-- What does not depend on the limit. -/
theorem read {x : Except DecodeError β} {f : β → Nat → Except DecodeError α} (h : ∀ b, Fits size start (f b)) :
    Fits size start fun limit => x >>= fun b => f b limit := by
  intro _ _ ha
  obtain ⟨b, hb, ha⟩ := bind_eq_ok.mp ha
  obtain ⟨hle, hfit⟩ := h b _ _ ha
  exact ⟨hle, fun limit' hlimit => bind_eq_ok.mpr ⟨b, hb, hfit limit' hlimit⟩⟩

theorem seq {step : Nat → Except DecodeError β} {f : β → Nat → Except DecodeError α} (hstep : Fits size' start step)
    (h : ∀ b, Fits size (size' b) (f b)) : Fits size start fun limit => step limit >>= fun b => f b limit := by
  intro _ _ ha
  obtain ⟨b, hb, ha⟩ := bind_eq_ok.mp ha
  obtain ⟨hle, hfit⟩ := hstep _ _ hb
  obtain ⟨hle', hfit'⟩ := h b _ _ ha
  exact ⟨hle.trans hle', fun limit' hlimit =>
    bind_eq_ok.mpr ⟨b, hfit limit' (hle'.trans hlimit), hfit' limit' hlimit⟩⟩

theorem room {out : Bytes} {extra : Nat} {f : Nat → Except DecodeError α} (h : Fits size (out.length + extra) f) :
    Fits size out.length fun limit => room limit out extra >>= fun _ => f limit := by
  intro _ _ ha
  obtain ⟨_, _, ha⟩ := bind_eq_ok.mp ha
  obtain ⟨hle, hfit⟩ := h _ _ ha
  refine ⟨by omega, fun limit' hlimit => bind_eq_ok.mpr ⟨(), if_neg (by omega), hfit limit' hlimit⟩⟩

theorem ite {p : Prop} [Decidable p] {f g : Nat → Except DecodeError α} (hf : Fits size start f) (hg : Fits size start g) :
    Fits size start fun limit => if p then f limit else g limit := by
  split
  · exact hf
  · exact hg

end Fits

theorem length_copy (len start : Nat) (out : Bytes) : (copy len start out).length = out.length + len := by
  induction len generalizing start out with
  | zero => rfl
  | succ len ih =>
      rw [copy, ih, List.length_append, List.length_singleton]
      omega

/-- The bytes of the output behind a step. -/
def grown (p : List Bool × Bytes) : Nat := p.2.length

theorem reference_fits (sym : Nat) (dist : Huffman) (rest : List Bool) (out : Bytes) :
    Fits grown out.length fun limit => reference limit sym dist rest out := by
  unfold reference
  split
  · refine Fits.read fun (extra, rest) => Fits.read fun (di, rest) => ?_
    dsimp only
    split
    · refine Fits.read fun (back, rest) => Fits.ite (Fits.error _) (Fits.room (Fits.pure ?_))
      exact Nat.le_of_eq (length_copy _ _ _).symm
    · exact Fits.error _
  · exact Fits.error _

theorem inflateCodes_fits (lit dist : Huffman) (turns : Nat) (rest : List Bool) (out : Bytes) :
    Fits grown out.length fun limit => inflateCodes limit lit dist turns rest out := by
  induction turns generalizing rest out with
  | zero => exact Fits.error _
  | succ turns ih =>
      refine Fits.read fun (sym, rest) => Fits.ite (Fits.room ?_) (Fits.ite (Fits.pure (Nat.le_refl _)) ?_)
      · have hlen : (out ++ [UInt8.ofNat sym]).length = out.length + 1 := List.length_append
        exact hlen ▸ ih rest (out ++ [UInt8.ofNat sym])
      · exact Fits.seq (reference_fits sym dist rest out) fun (rest, out) => ih rest out

theorem stored_fits (data : Bytes) (rest : List Bool) (out : Bytes) :
    Fits grown out.length fun limit => stored limit data rest out := by
  unfold stored
  dsimp only
  generalize data.drop (data.length - (byteAlign rest).length / 8) = tail
  generalize (at' tail 0).toNat + 256 * (at' tail 1).toNat = len
  refine Fits.ite (Fits.error _) (Fits.ite (Fits.error _) ?_)
  by_cases hbody : (tail.drop 4).length < len
  · simp only [if_pos hbody]
    exact Fits.error _
  · simp only [if_neg hbody]
    refine Fits.room (Fits.pure ?_)
    rw [grown, List.length_append, List.length_take_of_le (Nat.le_of_not_lt hbody)]

theorem block_fits (data : Bytes) (kind : Nat) (rest : List Bool) (out : Bytes) :
    Fits grown out.length fun limit => block limit data kind rest out := by
  unfold block
  split
  · exact stored_fits data rest out
  · exact Fits.read fun (l, d) => inflateCodes_fits l d rest.length rest out
  · exact Fits.read fun ((l, d), rest) => inflateCodes_fits l d rest.length rest out
  · exact Fits.error _

theorem blocks_fits (data : Bytes) (turns : Nat) (rest : List Bool) (out : Bytes) :
    Fits List.length out.length fun limit => blocks limit data turns rest out := by
  induction turns generalizing rest out with
  | zero => exact Fits.error _
  | succ turns ih =>
      refine Fits.read fun (last, rest) => Fits.read fun (kind, rest) => Fits.seq (block_fits data kind rest out) fun (rest, out) => ?_
      exact Fits.ite (Fits.pure (Nat.le_refl _)) (ih rest out)

theorem zlibDecompress_fits (z : Bytes) : Fits List.length 0 (zlibDecompress z) := by
  unfold zlibDecompress
  refine Fits.ite (Fits.error _) (Fits.ite (Fits.error _) (Fits.ite (Fits.error _) ?_))
  exact Fits.seq (blocks_fits _ _ _ _) fun out => Fits.ite (Fits.error _) (Fits.pure (Nat.le_refl _))

/-- The stream decompresses to the data, where nothing limits it. -/
def IsZlib (z data : Bytes) : Prop := ∃ limit, zlibDecompress z limit = .ok data

theorem IsZlib.decompress {z data : Bytes} (h : IsZlib z data) {limit : Nat} (hle : data.length ≤ limit) :
    zlibDecompress z limit = .ok data :=
  have ⟨_, hz⟩ := h
  (zlibDecompress_fits z _ _ hz).2 limit hle

theorem IsZlib.unique {z data data' : Bytes} (h : IsZlib z data) (h' : IsZlib z data') : data = data' := by
  have hdata := h.decompress (Nat.le_max_left data.length data'.length)
  have hdata' := h'.decompress (Nat.le_max_right data.length data'.length)
  exact Except.ok.inj (hdata.symm.trans hdata')

end Inflate

end Pelorus.Image
