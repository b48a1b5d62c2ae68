import Pelorus.Image.Inflate

/-
  Image/Png.lean --- the pixels of a PNG image or of a frame of an animated one.

  The inflated data is the passes of the interlace method one behind the other, each the
  filtered rows of a smaller image.  The code undoes the filter of a row in place, reads the
  samples from the row, expands each pixel to four bytes and writes them where the pass puts
  the pixel.
-/
set_option autoImplicit false

namespace Pelorus.Image

open Lib Lib.Bits

/-! ## Limits -/

structure Limits where
  maxPixels : UInt64
  maxTotalBytes : UInt64
deriving DecidableEq, Repr

structure Budget where
  limits : Limits
  used : Nat
deriving DecidableEq, Repr

/-- `a * b` in a word, or a limit error. -/
def mul (a b : Nat) : Except DecodeError Nat :=
  if a * b < UInt64.size then .ok (a * b) else .error (.limitExceeded "size")

namespace Budget

/-- Validate dimensions and return the pixel count. -/
def checkDims (budget : Budget) (w h : Nat) : Except DecodeError Nat :=
  if w = 0 ∨ h = 0 then .error .badDimensions
  else if UInt64.size ≤ w * h then .error .badDimensions
  else if budget.limits.maxPixels.toNat < w * h then .error (.limitExceeded "pixels")
  else .ok (w * h)

/-- Reserve bytes of the budget. -/
def charge (budget : Budget) (n : Nat) : Except DecodeError Budget :=
  if UInt64.size ≤ budget.used + n ∨ budget.limits.maxTotalBytes.toNat < budget.used + n then .error (.limitExceeded "bytes")
  else .ok { budget with used := budget.used + n }

/-- Return bytes of the budget. -/
def release (budget : Budget) (n : Nat) : Budget := { budget with used := budget.used - n }

/-- A zero-filled buffer of so many bytes, charged to the budget. -/
def zeroed (budget : Budget) (n : Nat) : Except DecodeError (Bytes × Budget) := do
  let budget ← budget.charge n
  return (List.replicate n 0, budget)

end Budget

namespace Png

structure Header where
  depth : Nat
  colour : Nat
  interlace : Bool
deriving DecidableEq, Repr

def Header.channels (hdr : Header) : Nat :=
  match hdr.colour with
  | 0 | 3 => 1
  | 4 => 2
  | 2 => 3
  | _ => 4

def Header.bitsPerPixel (hdr : Header) : Nat := hdr.channels * hdr.depth

/-- The bit depths that the header of a colour type may say. -/
def legalDepth (colour depth : Nat) : Bool :=
  match colour with
  | 0 => depth = 1 || depth = 2 || depth = 4 || depth = 8 || depth = 16
  | 3 => depth = 1 || depth = 2 || depth = 4 || depth = 8
  | 2 | 4 | 6 => depth = 8 || depth = 16
  | _ => false

structure Ctx where
  hdr : Header
  palette : List (UInt8 × UInt8 × UInt8)
  trns : Bytes
deriving DecidableEq, Repr

/-- Where the pixels of a pass stand: every `dx`-th column from `x0` on and every `dy`-th row
from `y0` on. -/
structure Pass where
  x0 : Nat
  y0 : Nat
  dx : Nat
  dy : Nat
deriving DecidableEq, Repr

def adam7 : List Pass :=
  [⟨0, 0, 8, 8⟩, ⟨4, 0, 8, 8⟩, ⟨0, 4, 4, 8⟩, ⟨2, 0, 4, 4⟩, ⟨0, 2, 2, 4⟩, ⟨1, 0, 2, 2⟩, ⟨0, 1, 1, 2⟩]

def single : List Pass := [⟨0, 0, 1, 1⟩]

def passes (interlace : Bool) : List Pass := if interlace then adam7 else single

/-- How many of the places below `total` a start and a step reach. -/
def passDim (total start step : Nat) : Nat := if total ≤ start then 0 else (total - start + (step - 1)) / step

/-! ## Rows -/

def paeth (a b c : UInt8) : UInt8 :=
  let (ia, ib, ic) := ((a.toNat : Int), (b.toNat : Int), (c.toNat : Int))
  let p := ia + ib - ic
  let (pa, pb, pc) := ((p - ia).natAbs, (p - ib).natAbs, (p - ic).natAbs)
  if pa ≤ pb ∧ pa ≤ pc then a else if pb ≤ pc then b else c

/-- What a filter type adds to a byte with these three before it. -/
def added (ft : Nat) (a b c : UInt8) : UInt8 :=
  match ft with
  | 0 => 0
  | 1 => a
  | 2 => b
  | 3 => UInt8.ofNat ((a.toNat + b.toNat) / 2)
  | _ => paeth a b c

/-- The turns of `unfilter`: `done` is the part of the row behind which the next byte stands. -/
def unfilterFrom (ft bpp : Nat) (prev : Bytes) : Bytes → Bytes → Bytes
  | done, [] => done
  | done, v :: rest =>
      let i := done.length
      let a := if bpp ≤ i then at' done (i - bpp) else 0
      let b := at' prev i
      let c := if bpp ≤ i then at' prev (i - bpp) else 0
      unfilterFrom ft bpp prev (done ++ [v + added ft a b c]) rest

def unfilter (ft : UInt8) (bpp : Nat) (cur prev : Bytes) : Except DecodeError Bytes :=
  if 4 < ft.toNat then .error (.malformed "bad filter type")
  else .ok (unfilterFrom ft.toNat bpp prev [] cur)

/-- Sample `idx` (counted in samples across the row) of the given depth. -/
def sample (row : Bytes) (depth idx : Nat) : Nat :=
  match depth with
  | 8 => (at' row idx).toNat
  | 16 => (at' row (idx * 2)).toNat * 256 + (at' row (idx * 2 + 1)).toNat
  | d =>
      let bit := idx * d
      let byte := (at' row (bit / 8)).toNat
      let shift := 8 - d - bit % 8
      byte / 2 ^ shift % 2 ^ d

/-- Scale a sample of `depth` bits to 8 bits (high byte for 16). -/
def to8 (v depth : Nat) : UInt8 :=
  match depth with
  | 16 => UInt8.ofNat (v / 256)
  | 8 => UInt8.ofNat v
  | d => UInt8.ofNat (v * 255 / (2 ^ d - 1))

def pixel (ctx : Ctx) (row : Bytes) (x : Nat) : Except DecodeError Bytes :=
  let d := ctx.hdr.depth
  let key := fun i => be16 ctx.trns (i * 2)
  match ctx.hdr.colour with
  | 0 =>
      let v := sample row d x
      let g := to8 v d
      let a := if 2 ≤ ctx.trns.length ∧ key 0 = v then 0 else 255
      .ok [g, g, g, a]
  | 2 =>
      let r := sample row d (x * 3)
      let g := sample row d (x * 3 + 1)
      let b := sample row d (x * 3 + 2)
      let a := if 6 ≤ ctx.trns.length ∧ key 0 = r ∧ key 1 = g ∧ key 2 = b then 0 else 255
      .ok [to8 r d, to8 g d, to8 b d, a]
  | 3 =>
      let i := sample row d x
      match ctx.palette[i]? with
      | none => .error (.malformed "palette index out of range")
      | some (r, g, b) => .ok [r, g, b, ctx.trns.getD i 255]
  | 4 =>
      let g := to8 (sample row d (x * 2)) d
      .ok [g, g, g, to8 (sample row d (x * 2 + 1)) d]
  | _ =>
      .ok [to8 (sample row d (x * 4)) d, to8 (sample row d (x * 4 + 1)) d, to8 (sample row d (x * 4 + 2)) d,
        to8 (sample row d (x * 4 + 3)) d]

/-! ## Images -/

/-- The bytes the passes inflate to. -/
def expected (wu hu bits : Nat) : List Pass → Nat → Except DecodeError Nat
  | [], expect => .ok expect
  | pass :: rest, expect => do
      let pw := passDim wu pass.x0 pass.dx
      let ph := passDim hu pass.y0 pass.dy
      if pw = 0 ∨ ph = 0 then expected wu hu bits rest expect
      else
        let rb := ((← mul pw bits) + 7) / 8
        let size ← mul (rb + 1) ph
        if expect + size < UInt64.size then expected wu hu bits rest (expect + size)
        else .error (.limitExceeded "size")

/-- Write four bytes at a place, if they are all within the buffer. -/
def putPixel (out : Bytes) (base : Nat) (px : Bytes) : Bytes :=
  if base + 4 ≤ out.length then out.take base ++ px ++ out.drop (base + 4) else out

/-- The rows of a buffer, without the part of one at its end. -/
def chunksExact (size : Nat) : Nat → Bytes → List Bytes
  | 0, _ => []
  | count + 1, buf => buf.take size :: chunksExact size count (buf.drop size)

/-- The pixels of the row that stands at `y`. -/
def decodeRow (ctx : Ctx) (wu : Nat) (pass : Pass) (pw y : Nat) (data out : Bytes) : Except DecodeError Bytes :=
  (List.range pw).foldlM (fun out rx => do
    let x := pass.x0 + rx * pass.dx
    let px ← pixel ctx data rx
    return putPixel out ((y * wu + x) * 4) px) out

/-- The rows of a pass from row `ry` of it on. -/
def decodeRows (ctx : Ctx) (bpp wu : Nat) (pass : Pass) (pw : Nat) : List Bytes → Nat → Bytes → Bytes → Except DecodeError Bytes
  | [], _, _, out => .ok out
  | [] :: rows, ry, prev, out => decodeRows ctx bpp wu pass pw rows (ry + 1) prev out
  | (ft :: data) :: rows, ry, prev, out => do
      let data ← unfilter ft bpp data prev
      let out ← decodeRow ctx wu pass pw (pass.y0 + ry * pass.dy) data out
      decodeRows ctx bpp wu pass pw rows (ry + 1) data out

/-- The passes, from the inflated data that is left. -/
def decodePasses (ctx : Ctx) (bpp wu hu : Nat) : List Pass → Bytes → Bytes → Except DecodeError Bytes
  | [], _, out => .ok out
  | pass :: rest, raw, out => do
      let pw := passDim wu pass.x0 pass.dx
      let ph := passDim hu pass.y0 pass.dy
      if pw = 0 ∨ ph = 0 then decodePasses ctx bpp wu hu rest raw out
      else
        let bits := pw * ctx.hdr.bitsPerPixel
        let rb := bits / 8 + (if bits % 8 = 0 then 0 else 1)
        let size := (rb + 1) * ph
        if raw.length < size then .error (.malformed "image data length mismatch")
        else
          let rows := chunksExact (rb + 1) (size / (rb + 1)) (raw.take size)
          let out ← decodeRows ctx bpp wu pass pw rows 0 (List.replicate rb 0) out
          decodePasses ctx bpp wu hu rest (raw.drop size) out

/-- Inflate, unfilter, de-interlace and expand one image or frame of `w` x `h` to RGBA8. -/
def decodePixels (ctx : Ctx) (w h : UInt32) (chunks : List Bytes) (budget : Budget) : Except DecodeError (Bytes × Budget) := do
  let px ← budget.checkDims w.toNat h.toNat
  let (wu, hu) := (w.toNat, h.toNat)
  let bits := ctx.hdr.bitsPerPixel
  let passes := passes ctx.hdr.interlace
  let expect ← expected wu hu bits passes 0
  let outBytes ← mul px 4
  let budget ← budget.charge expect
  let raw ← Inflate.zlibDecompress chunks.flatten expect
  if raw.length ≠ expect then .error (.malformed "image data length mismatch")
  else
    let (out, budget) ← budget.zeroed outBytes
    let bpp := max (bits / 8) 1
    let out ← decodePasses ctx bpp wu hu passes raw out
    return (out, budget.release expect)

end Png

end Pelorus.Image

/-
  What the PNG format says the inflated data of an image is.

  THE FORMAT.  The samples of an image are a number for each column, row and channel.  A row
  of a pass is its samples one behind the other, each with its most significant bit first, in
  whole bytes whose last bits are free.  Every row is filtered by a type of its own against
  the row before it, and a pass that has no column or no row is left out.

  Nothing here mentions the decoder; the second half says that reading a packed row and
  undoing a filter give back what was packed and filtered.
-/

namespace Pelorus.Image.Png

open Lib Lib.Bits

/-- A number for each column, row and channel. -/
abbrev Samples : Type := Nat → Nat → Nat → Nat

/-- The places below `total` that are a multiple of `step` behind `start`. -/
def places (total start step : Nat) : List Nat := (List.range total).filter fun x => start ≤ x && (x - start) % step = 0

/-- The samples of a row at these columns, in the order they are packed. -/
def line (s : Samples) (channels : Nat) (xs : List Nat) (y : Nat) : List Nat :=
  xs.flatMap fun x => (List.range channels).map fun c => s x y c

/-- The bytes of a row of so many bits. -/
def rowBytes (bits : Nat) : Nat := (bits + 7) / 8

structure Packed (depth : Nat) (samples : List Nat) (row : Bytes) : Prop where
  length : row.length = rowBytes (samples.length * depth)
  bits : (samples.flatMap (highFirst depth)).IsPrefix (ofBytesHigh row)

/-! ## Filters -/

/-- The byte of the pixel before, zero at the left edge. -/
def before (row : Bytes) (bpp i : Nat) : UInt8 := if i < bpp then 0 else row.getD (i - bpp) 0

/-- The first of these three that is nearest to `left + above - upperLeft`. -/
def nearest (left above upperLeft : UInt8) : UInt8 :=
  let estimate : Int := left.toNat + above.toNat - upperLeft.toNat
  let far := fun v : UInt8 => (estimate - v.toNat).natAbs
  if far left ≤ far above ∧ far left ≤ far upperLeft then left else if far above ≤ far upperLeft then above else upperLeft

/-- What a filter type predicts: nothing, the byte to the left, the byte above, the mean of
the two, or the nearest of the three neighbours. -/
def predictor (ft : Nat) (left above upperLeft : UInt8) : UInt8 :=
  if ft = 0 then 0
  else if ft = 1 then left
  else if ft = 2 then above
  else if ft = 3 then UInt8.ofNat ((left.toNat + above.toNat) / 2)
  else nearest left above upperLeft

/-- The differences of a row from its predictions, which are made from the row itself. -/
def filterRow (ft bpp : Nat) (prev row : Bytes) : Bytes :=
  (List.range row.length).map fun i => row.getD i 0 - predictor ft (before row bpp i) (prev.getD i 0) (before prev bpp i)

/-- Rows below `prev`, each filtered by any of the five types. -/
inductive Filtered (bpp : Nat) : Bytes → List Bytes → Bytes → Prop where
  | nil (prev : Bytes) : Filtered bpp prev [] []
  | cons {prev row raw : Bytes} {rows : List Bytes} {ft : Nat} (hft : ft ≤ 4) (h : Filtered bpp row rows raw) :
      Filtered bpp prev (row :: rows) (UInt8.ofNat ft :: filterRow ft bpp prev row ++ raw)

/-! ## Passes -/

/-- The bytes from a byte of a pixel to the same byte of the pixel before, at least one. -/
def byteDistance (hdr : Header) : Nat := (hdr.channels * hdr.depth + 7) / 8

/-- The data of one pass. -/
def IsPass (hdr : Header) (w h : Nat) (s : Samples) (pass : Pass) (raw : Bytes) : Prop :=
  let xs := places w pass.x0 pass.dx
  let ys := places h pass.y0 pass.dy
  if xs = [] ∨ ys = [] then raw = []
  else ∃ rows : List Bytes,
    List.Forall₂ (fun y row => Packed hdr.depth (line s hdr.channels xs y) row) ys rows ∧
      Filtered (byteDistance hdr) (List.replicate (rowBytes (xs.length * hdr.channels * hdr.depth)) 0) rows raw

/-- The inflated data of an image: that of its passes one behind the other. -/
def IsRaw (hdr : Header) (w h : Nat) (s : Samples) (raw : Bytes) : Prop :=
  ∃ parts : List Bytes, List.Forall₂ (IsPass hdr w h s) (passes hdr.interlace) parts ∧ raw = parts.flatten

/-- How long the data of passes is. -/
def rawLength (hdr : Header) (w h : Nat) : List Pass → Nat
  | [] => 0
  | pass :: rest =>
      let xs := places w pass.x0 pass.dx
      let ys := places h pass.y0 pass.dy
      (if xs = [] ∨ ys = [] then 0 else (rowBytes (xs.length * hdr.channels * hdr.depth) + 1) * ys.length) + rawLength hdr w h rest

/-! ## Places -/

variable {start step k depth idx v ft : Nat} {samples : List Nat} {row : Bytes}

theorem mem_places {total x : Nat} : x ∈ places total start step ↔ x < total ∧ start ≤ x ∧ (x - start) % step = 0 := by
  simp [places]

theorem ceil_div (hstep : 0 < step) :
    (k + (step - 1)) / step = k / step + if k % step = 0 then 0 else 1 := by
  have hdiv := Nat.div_add_mod k step
  have hlt := Nat.mod_lt k hstep
  apply Nat.div_eq_of_lt_le
  · rw [Nat.add_mul, Nat.mul_comm (k / step)]
    split <;> omega
  · rw [Nat.add_mul, Nat.add_mul, Nat.mul_comm (k / step)]
    split <;> omega

/-- The next place is one of the places when it is a whole number of steps behind the start. -/
theorem passDim_succ {n : Nat} (hstep : 0 < step) :
    passDim (n + 1) start step = passDim n start step + if start ≤ n ∧ (n - start) % step = 0 then 1 else 0 := by
  rcases Nat.lt_or_ge n start with hlt | hge
  · rw [passDim, passDim, if_pos (by omega), if_pos (by omega), if_neg (by omega)]
  · have hnext : passDim (n + 1) start step = (n - start) / step + 1 := by
      rw [passDim, if_neg (by omega), show n + 1 - start + (step - 1) = n - start + step by omega, Nat.add_div_right _ hstep]
    have hdim : passDim n start step = (n - start) / step + if (n - start) % step = 0 then 0 else 1 := by
      rw [passDim]
      split
      · rw [show n - start = 0 by omega, Nat.zero_div, Nat.zero_mod, if_pos rfl]
      · exact ceil_div hstep
    rw [hnext, hdim]
    simp only [hge, true_and]
    split <;> rfl

/-- A place that is one of the places is behind those before it. -/
theorem start_add_passDim {n : Nat} (hstep : 0 < step) (hle : start ≤ n) (hmod : (n - start) % step = 0) :
    start + passDim n start step * step = n := by
  have hdiv := Nat.div_add_mod (n - start) step
  have hdim : passDim n start step = (n - start) / step := by
    rw [passDim]
    split
    · rw [show n - start = 0 by omega, Nat.zero_div]
    · rw [ceil_div hstep, if_pos hmod, Nat.add_zero]
  rw [hdim, Nat.mul_comm]
  omega

theorem places_eq (hstep : 0 < step) (total start : Nat) :
    places total start step = (List.range (passDim total start step)).map fun i => start + i * step := by
  induction total with
  | zero => simp [places, passDim]
  | succ n ih =>
      rw [places] at ih ⊢
      rw [List.range_succ, List.filter_append, ih, passDim_succ hstep]
      by_cases hmem : start ≤ n ∧ (n - start) % step = 0
      · have hlast := start_add_passDim hstep hmem.1 hmem.2
        rw [if_pos hmem, List.range_succ, List.map_append, List.map_singleton, hlast]
        simp [hmem]
      · rw [if_neg hmem, Nat.add_zero]
        simpa using hmem

theorem length_places (hstep : 0 < step) (total start : Nat) :
    (places total start step).length = passDim total start step := by
  rw [places_eq hstep, List.length_map, List.length_range]

/-! ## Samples -/

theorem take_drop_of_isPrefix {α : Type} {l l' : List α} (h : l.IsPrefix l') {start len : Nat} (hle : start + len ≤ l.length) :
    (l'.drop start).take len = (l.drop start).take len := by
  obtain ⟨rest, rfl⟩ := h
  rw [List.drop_append_of_le_length (by omega), List.take_append_of_le_length (by rw [List.length_drop]; omega)]

/-- A sample's bits stand in the row where the samples before it end. -/
theorem Packed.slice (h : Packed depth samples row)
    (hv : samples[idx]? = some v) : ((ofBytesHigh row).drop (idx * depth)).take depth = highFirst depth v := by
  have hidx : idx < samples.length := (List.getElem?_eq_some_iff.mp hv).1
  have hmul : (idx + 1) * depth ≤ samples.length * depth := Nat.mul_le_mul_right depth hidx
  rw [take_drop_of_isPrefix h.bits, slice_flatMap (fun n _ => length_highFirst depth n) hv]
  rw [length_flatMap fun n _ => length_highFirst depth n]
  rw [Nat.succ_mul] at hmul
  exact hmul

theorem getElem?_at' (hk : k < row.length) : row[k]? = some (at' row k) := by
  rw [at', List.getD_eq_getElem?_getD, List.getElem?_eq_getElem hk, Option.getD_some]

theorem slice_byte {len : Nat} (hk : k < row.length) (h : start + len ≤ 8) :
    ((ofBytesHigh row).drop (k * 8 + start)).take len = ((highFirst 8 (at' row k).toNat).drop start).take len := by
  rw [← slice_flatMap (fun (b : UInt8) _ => length_highFirst 8 b.toNat) (getElem?_at' hk), ofBytesHigh, List.drop_take, List.drop_drop,
    List.take_take, Nat.min_eq_left (by omega)]

/-- The bits of a row from a place within a byte on, as a number. -/
theorem value_byte {row : Bytes} {k start len : Nat} (hk : k < row.length) (h : start + len ≤ 8) :
    value (((ofBytesHigh row).drop (k * 8 + start)).take len).reverse =
      (at' row k).toNat / 2 ^ (8 - start - len) % 2 ^ len := by
  rw [slice_byte hk h, value_slice_high h]

theorem value_highFirst {width : Nat} (h : v < 2 ^ width) : value (highFirst width v).reverse = v := by
  rw [highFirst, List.reverse_reverse, value_lowFirst, Nat.mod_eq_of_lt h]

theorem Packed.lt_length (h : Packed depth samples row)
    (hv : samples[idx]? = some v) : idx * depth + depth ≤ 8 * row.length := by
  have hidx : idx < samples.length := (List.getElem?_eq_some_iff.mp hv).1
  have hmul : (idx + 1) * depth ≤ samples.length * depth := Nat.mul_le_mul_right depth hidx
  rw [Nat.succ_mul] at hmul
  rw [h.length, rowBytes]
  omega

theorem sample_in_byte (h : Packed depth samples row)
    (hv : samples[idx]? = some v) (hlt : v < 2 ^ depth) (hpos : 0 < depth) (hbyte : idx * depth % 8 + depth ≤ 8) :
    (at' row (idx * depth / 8)).toNat / 2 ^ (8 - idx * depth % 8 - depth) % 2 ^ depth = v := by
  have hle := h.lt_length hv
  have hplace : idx * depth / 8 * 8 + idx * depth % 8 = idx * depth := by omega
  rw [← value_byte (by omega) hbyte, hplace, h.slice hv, value_highFirst hlt]

theorem sample_packed (h : Packed depth samples row)
    (hv : samples[idx]? = some v) (hlt : v < 2 ^ depth)
    (hdepth : depth = 1 ∨ depth = 2 ∨ depth = 4 ∨ depth = 8 ∨ depth = 16) : sample row depth idx = v := by
  have hsmall : depth = 1 ∨ depth = 2 ∨ depth = 4 → sample row depth idx = v := by
    intro hd
    have hfits : idx * depth % 8 + depth ≤ 8 := by
      rcases hd with rfl | rfl | rfl <;> omega
    have hbyte := sample_in_byte h hv hlt (by omega) hfits
    rw [sample, Nat.sub_right_comm]
    · exact hbyte
    · omega
    · omega
  rcases hdepth with h1 | h2 | h4 | rfl | rfl
  · exact hsmall (Or.inl h1)
  · exact hsmall (Or.inr (Or.inl h2))
  · exact hsmall (Or.inr (Or.inr h4))
  · have hbyte := sample_in_byte h hv hlt (by omega) (by omega)
    have hb : (at' row idx).toNat < 2 ^ 8 := UInt8.toNat_lt _
    rw [Nat.mul_mod_left, Nat.mul_div_cancel _ (by decide), Nat.pow_zero, Nat.div_one, Nat.mod_eq_of_lt hb] at hbyte
    exact hbyte
  · have hle := h.lt_length hv
    have hhalf : ∀ start, start + 8 ≤ 16 → ∀ k, k * 8 = idx * 16 + start → (at' row k).toNat = v / 2 ^ (16 - start - 8) % 2 ^ 8 := by
      intro start hstart k hk
      have hb : (at' row k).toNat < 2 ^ 8 := UInt8.toNat_lt _
      have hslice : ((ofBytesHigh row).drop (k * 8)).take 8 = ((highFirst 16 v).drop start).take 8 := by
        rw [← h.slice hv, List.drop_take, List.drop_drop, List.take_take, Nat.min_eq_left (by omega), hk]
      have hbyte := @value_byte row k 0 8 (by omega) (by omega)
      rw [Nat.add_zero, hslice, value_slice_high hstart, Nat.pow_zero, Nat.div_one, Nat.mod_eq_of_lt hb] at hbyte
      exact hbyte.symm
    have hhigh := hhalf 0 (by omega) (idx * 2) (by omega)
    have hlow := hhalf 8 (by omega) (idx * 2 + 1) (by omega)
    rw [sample, hhigh, hlow]
    omega

/-! ## Filters undone -/

theorem added_eq (h : ft ≤ 4) (a b c : UInt8) : added ft a b c = predictor ft a b c := by
  have hcases : ft = 0 ∨ ft = 1 ∨ ft = 2 ∨ ft = 3 ∨ ft = 4 := by omega
  rcases hcases with rfl | rfl | rfl | rfl | rfl
  all_goals rfl

theorem length_filterRow (ft bpp : Nat) (prev row : Bytes) : (filterRow ft bpp prev row).length = row.length := by
  rw [filterRow, List.length_map, List.length_range]

/-- With the part of the row before a place undone, the rest is undone from it. -/
theorem unfilterFrom_filterRow {bpp : Nat} (hft : ft ≤ 4) (hbpp : 0 < bpp) (prev row : Bytes) :
    ∀ n i, i + n = row.length → unfilterFrom ft bpp prev (row.take i) ((filterRow ft bpp prev row).drop i) = row := by
  intro n
  induction n with
  | zero =>
      intro i hi
      rw [List.drop_of_length_le (by rw [length_filterRow]; omega), unfilterFrom, List.take_of_length_le (by omega)]
  | succ n ih =>
      intro i hi
      have hlt : i < row.length := by omega
      have hdone : (row.take i).length = i := List.length_take_of_le (by omega)
      have hleft : ∀ j, j < i → at' (row.take i) j = row.getD j 0 := by
        intro j hj
        rw [at', List.getD_eq_getElem?_getD, List.getD_eq_getElem?_getD, List.getElem?_take_of_lt hj]
      have hcur : (filterRow ft bpp prev row).drop i =
          (row.getD i 0 - predictor ft (before row bpp i) (prev.getD i 0) (before prev bpp i)) :: (filterRow ft bpp prev row).drop (i + 1) := by
        rw [List.drop_eq_getElem_cons (by rw [length_filterRow]; exact hlt)]
        simp [filterRow]
      have ha : (if bpp ≤ i then at' (row.take i) (i - bpp) else 0) = before row bpp i := by
        rw [before]
        rcases Nat.lt_or_ge i bpp with h | h
        · rw [if_neg (by omega), if_pos h]
        · rw [if_pos h, if_neg (by omega), hleft _ (by omega)]
      have hc : (if bpp ≤ i then at' prev (i - bpp) else 0) = before prev bpp i := by
        rw [before]
        rcases Nat.lt_or_ge i bpp with h | h
        · rw [if_neg (by omega), if_pos h]
        · rw [if_pos h, if_neg (by omega), at']
      rw [hcur, unfilterFrom]
      simp only [hdone, ha, hc, added_eq hft]
      have htake : row.take i ++ [row.getD i 0] = row.take (i + 1) := by
        rw [List.take_succ_eq_append_getElem hlt, List.getD_eq_getElem?_getD, List.getElem?_eq_getElem hlt, Option.getD_some]
      rw [show at' prev i = prev.getD i 0 from rfl, UInt8.sub_add_cancel, htake]
      exact ih (i + 1) (by omega)

theorem unfilter_filterRow {bpp : Nat} (hft : ft ≤ 4) (hbpp : 0 < bpp) (prev row : Bytes) :
    unfilter (UInt8.ofNat ft) bpp (filterRow ft bpp prev row) prev = .ok row := by
  have hnat : (UInt8.ofNat ft).toNat = ft := by
    rw [UInt8.toNat_ofNat', Nat.mod_eq_of_lt (by omega)]
  rw [unfilter, hnat, if_neg (by omega)]
  exact congrArg Except.ok (unfilterFrom_filterRow hft hbpp prev row row.length 0 (Nat.zero_add _))

end Pelorus.Image.Png
