import Pelorus.Image.Png

/-
  Image/Pixels.lean --- the image that the data of a PNG stands for, and that the decoder
  returns it.

  The decoder's run is the list of its writes: each pass writes its pixels row by row, each
  pixel its expansion.  Every place of the image is written once, whatever the passes are, so
  the buffer behind the run depends on the samples only.
-/
set_option autoImplicit false

namespace Pelorus.Image.Png

open Lib Lib.Bits

/-! ## What samples expand to -/

/-- A sample in eight bits: the high byte of sixteen, or the depth's range spread over 0..255. -/
def widen (depth v : Nat) : UInt8 := if depth = 16 then UInt8.ofNat (v / 256) else UInt8.ofNat (v * (255 / (2 ^ depth - 1)))

/-- The transparency chunk holds a number of two bytes for each channel, and they are these samples. -/
def transparent (trns : Bytes) (channels : Nat) (v : Nat → Nat) : Bool :=
  2 * channels ≤ trns.length &&
    (List.range channels).all fun c => (trns.getD (2 * c) 0).toNat * 256 + (trns.getD (2 * c + 1) 0).toNat = v c

/-- The four bytes of a pixel. -/
def expand (ctx : Ctx) (v : Nat → Nat) : Bytes :=
  let eight := fun c => widen ctx.hdr.depth (v c)
  let alpha := if transparent ctx.trns ctx.hdr.channels v then 0 else 255
  match ctx.hdr.colour with
  | 0 => [eight 0, eight 0, eight 0, alpha]
  | 2 => [eight 0, eight 1, eight 2, alpha]
  | 3 =>
      let entry := ctx.palette.getD (v 0) (0, 0, 0)
      [entry.1, entry.2.1, entry.2.2, ctx.trns.getD (v 0) 255]
  | 4 => [eight 0, eight 0, eight 0, eight 1]
  | _ => [eight 0, eight 1, eight 2, eight 3]

/-- The bytes of an image of this width, pixel by pixel and row by row. -/
def image (w h : Nat) (f : Nat → Nat → Bytes) : Bytes := (List.range (h * w)).flatMap fun i => f (i % w) (i / w)

/-- Samples that a PNG of this header and palette can hold. -/
structure Legal (ctx : Ctx) (w h : Nat) (s : Samples) : Prop where
  depth : legalDepth ctx.hdr.colour ctx.hdr.depth = true
  below : ∀ x y c, x < w → y < h → c < ctx.hdr.channels → s x y c < 2 ^ ctx.hdr.depth
  indexed : ctx.hdr.colour = 3 → ∀ x y, x < w → y < h → s x y 0 < ctx.palette.length

/-! ## Pixels -/

theorem depth_cases {colour depth : Nat} (h : legalDepth colour depth = true) :
    (colour = 0 ∨ colour = 2 ∨ colour = 3 ∨ colour = 4 ∨ colour = 6) ∧
      (depth = 1 ∨ depth = 2 ∨ depth = 4 ∨ depth = 8 ∨ depth = 16) ∧
      (colour = 2 ∨ colour = 4 ∨ colour = 6 → depth = 8 ∨ depth = 16) := by
  unfold legalDepth at h
  split at h
  all_goals simp only [Bool.or_eq_true, decide_eq_true_eq, Bool.false_eq_true] at h
  all_goals omega

theorem to8_eq {depth v : Nat} (h : depth = 1 ∨ depth = 2 ∨ depth = 4 ∨ depth = 8 ∨ depth = 16) : to8 v depth = widen depth v := by
  rcases h with rfl | rfl | rfl | rfl | rfl
  · rw [to8, widen, if_neg (by decide), show v * 255 / (2 ^ 1 - 1) = v * (255 / (2 ^ 1 - 1)) by omega]
    · decide
    · decide
  · rw [to8, widen, if_neg (by decide), show v * 255 / (2 ^ 2 - 1) = v * (255 / (2 ^ 2 - 1)) by omega]
    · decide
    · decide
  · rw [to8, widen, if_neg (by decide), show v * 255 / (2 ^ 4 - 1) = v * (255 / (2 ^ 4 - 1)) by omega]
    · decide
    · decide
  · rw [to8, widen, if_neg (by decide), show v * (255 / (2 ^ 8 - 1)) = v by omega]
  · rw [to8, widen, if_pos rfl]

variable {i x : Nat} {budget : Budget} {chunks : List Bytes}

theorem be16_eq {data : Bytes} (h : i + 2 ≤ data.length) :
    be16 data i = (data.getD i 0).toNat * 256 + (data.getD (i + 1) 0).toNat := by
  have hdrop : data.drop i = data.getD i 0 :: data.getD (i + 1) 0 :: data.drop (i + 2) := by
    rw [List.drop_eq_getElem_cons (by omega), List.drop_eq_getElem_cons (by omega)]
    simp [List.getD_eq_getElem?_getD, List.getElem?_eq_getElem (show i < data.length by omega),
      List.getElem?_eq_getElem (show i + 1 < data.length by omega)]
  rw [be16, hdrop]

/-- The key of the code is the numbers of the chunk, one for each channel. -/
theorem key_iff {trns : Bytes} {v : Nat → Nat} :
    (2 ≤ trns.length ∧ be16 trns (0 * 2) = v 0 ↔ transparent trns 1 v = true) ∧
      (6 ≤ trns.length ∧ be16 trns (0 * 2) = v 0 ∧ be16 trns (1 * 2) = v 1 ∧ be16 trns (2 * 2) = v 2 ↔
        transparent trns 3 v = true) := by
  constructor
  · simp only [transparent, Bool.and_eq_true, decide_eq_true_eq, List.all_eq_true, List.mem_range]
    constructor
    · intro h
      refine ⟨by omega, fun c hc => ?_⟩
      obtain rfl : c = 0 := by omega
      rw [← h.2, be16_eq (by omega)]
    · intro h
      refine ⟨by omega, ?_⟩
      rw [be16_eq (by omega), ← h.2 0 (by omega)]
  · simp only [transparent, Bool.and_eq_true, decide_eq_true_eq, List.all_eq_true, List.mem_range]
    constructor
    · intro h
      refine ⟨by omega, fun c hc => ?_⟩
      have hcases : c = 0 ∨ c = 1 ∨ c = 2 := by omega
      rcases hcases with rfl | rfl | rfl
      · rw [← h.2.1, be16_eq (by omega)]
      · rw [← h.2.2.1, be16_eq (by omega)]
      · rw [← h.2.2.2, be16_eq (by omega)]
    · intro h
      refine ⟨by omega, ?_, ?_, ?_⟩
      · rw [be16_eq (by omega), ← h.2 0 (by omega)]
      · rw [be16_eq (by omega), ← h.2 1 (by omega)]
      · rw [be16_eq (by omega), ← h.2 2 (by omega)]

theorem pixel_eq {ctx : Ctx} {row : Bytes} {v : Nat → Nat}
    (hdepth : legalDepth ctx.hdr.colour ctx.hdr.depth = true)
    (hv : ∀ c, c < ctx.hdr.channels → sample row ctx.hdr.depth (x * ctx.hdr.channels + c) = v c)
    (hpal : ctx.hdr.colour = 3 → v 0 < ctx.palette.length) : pixel ctx row x = .ok (expand ctx v) := by
  obtain ⟨hcolour, hd, -⟩ := depth_cases hdepth
  have h8 : ∀ n, to8 n ctx.hdr.depth = widen ctx.hdr.depth n := fun n => to8_eq hd
  rcases hcolour with h | h | h | h | h
  · have hn : ctx.hdr.channels = 1 := by simp only [Header.channels, h]
    rw [hn] at hv
    have h0 := hv 0 (by omega)
    rw [Nat.mul_one, Nat.add_zero] at h0
    simp only [pixel, expand, h, hn, h0, h8, key_iff.1]
  · have hn : ctx.hdr.channels = 3 := by simp only [Header.channels, h]
    rw [hn] at hv
    have h0 := hv 0 (by omega)
    have h1 := hv 1 (by omega)
    have h2 := hv 2 (by omega)
    rw [Nat.add_zero] at h0
    simp only [pixel, expand, h, hn, h0, h1, h2, h8, key_iff.2]
  · have hn : ctx.hdr.channels = 1 := by simp only [Header.channels, h]
    rw [hn] at hv
    have h0 := hv 0 (by omega)
    rw [Nat.mul_one, Nat.add_zero] at h0
    have hlt := hpal h
    have hentry : ctx.palette.getD (v 0) (0, 0, 0) = ctx.palette[v 0] := by
      rw [List.getD_eq_getElem?_getD, List.getElem?_eq_getElem hlt, Option.getD_some]
    simp only [pixel, expand, h, h0, List.getElem?_eq_getElem hlt, hentry]
  · have hn : ctx.hdr.channels = 2 := by simp only [Header.channels, h]
    rw [hn] at hv
    have h0 := hv 0 (by omega)
    have h1 := hv 1 (by omega)
    rw [Nat.add_zero] at h0
    simp only [pixel, expand, h, h0, h1, h8]
  · have hn : ctx.hdr.channels = 4 := by simp only [Header.channels, h]
    rw [hn] at hv
    have h0 := hv 0 (by omega)
    have h1 := hv 1 (by omega)
    have h2 := hv 2 (by omega)
    have h3 := hv 3 (by omega)
    rw [Nat.add_zero] at h0
    simp only [pixel, expand, h, h0, h1, h2, h3, h8]

/-! ## Writes

A write puts the bytes of a place's pixel at the place. -/

/-- Write the pixel of a place of an image of width `w`. -/
def write (w : Nat) (f : Nat → Nat → Bytes) (out : Bytes) (p : Nat × Nat) : Bytes :=
  putPixel out ((p.2 * w + p.1) * 4) (f p.1 p.2)

/-- The places that passes write, in the order they are written. -/
def writes (w h : Nat) (passes : List Pass) : List (Nat × Nat) :=
  passes.flatMap fun pass => (places h pass.y0 pass.dy).flatMap fun y => (places w pass.x0 pass.dx).map fun x => (x, y)

variable {out : Bytes} {y : Nat}

theorem length_putPixel {px : Bytes} {base : Nat} (hpx : px.length = 4) :
    (putPixel out base px).length = out.length := by
  rw [putPixel]
  split
  · rw [List.length_append, List.length_append, List.length_take, List.length_drop]
    omega
  · rfl

/-- The pixel that stands at a place after a write to a place. -/
theorem slice_putPixel {px : Bytes} {j : Nat} (hpx : px.length = 4) (hi : (i + 1) * 4 ≤ out.length) :
    ((putPixel out (i * 4) px).drop (j * 4)).take 4 = if i = j then px else (out.drop (j * 4)).take 4 := by
  rw [putPixel, if_pos (by omega)]
  have htake : (out.take (i * 4)).length = i * 4 := List.length_take_of_le (by omega)
  rcases Nat.lt_trichotomy i j with h | rfl | h
  · rw [if_neg (by omega), List.drop_append, List.drop_of_length_le (by rw [List.length_append]; omega), List.nil_append,
      List.length_append, htake, hpx, List.drop_drop]
    congr 2
    omega
  · rw [if_pos rfl, List.append_assoc, List.drop_left' htake, List.take_left' hpx]
  · rw [if_neg (by omega), List.append_assoc, List.drop_append_of_le_length (by omega),
      List.take_append_of_le_length (by rw [List.length_drop]; omega), List.drop_take, List.take_take,
      Nat.min_eq_left (by omega)]

theorem index_lt {w h : Nat} (hx : x < w) (hy : y < h) : y * w + x < h * w := by
  have hmul : (y + 1) * w ≤ h * w := Nat.mul_le_mul_right w hy
  rw [Nat.succ_mul] at hmul
  omega

variable {w h : Nat} {f : Nat → Nat → Bytes}

theorem length_foldl_write (hf : ∀ x y, (f x y).length = 4) (l : List (Nat × Nat)) (out : Bytes) :
    (l.foldl (write w f) out).length = out.length := by
  induction l generalizing out with
  | nil => rfl
  | cons p l ih => rw [List.foldl_cons, ih, write, length_putPixel (hf _ _)]

/-- Behind writes within the image each place that was written holds its pixel. -/
theorem slice_foldl_write (hf : ∀ x y, (f x y).length = 4) {l : List (Nat × Nat)}
    (hl : ∀ p, p ∈ l → p.1 < w ∧ p.2 < h) (hout : out.length = h * w * 4) (hx : x < w) (hy : y < h) :
    ((l.foldl (write w f) out).drop ((y * w + x) * 4)).take 4 =
      if (x, y) ∈ l then f x y else (out.drop ((y * w + x) * 4)).take 4 := by
  induction l generalizing out with
  | nil => rfl
  | cons p l ih =>
      obtain ⟨x', y'⟩ := p
      obtain ⟨hx', hy'⟩ := hl _ List.mem_cons_self
      have hidx := index_lt hx' hy'
      have hlen : (write w f out (x', y')).length = h * w * 4 := by
        rw [write, length_putPixel (hf _ _), hout]
      rw [List.foldl_cons, ih (fun q hq => hl q (List.mem_cons_of_mem _ hq)) hlen]
      rw [write, slice_putPixel (hf _ _) (by omega)]
      by_cases hmem : (x, y) ∈ l
      · rw [if_pos hmem, if_pos (List.mem_cons_of_mem _ hmem)]
      · rw [if_neg hmem]
        by_cases heq : y' * w + x' = y * w + x
        · have hrow : y' = y := by
            have hdiv := congrArg (· / w) heq
            simpa [Nat.mul_add_div (show 0 < w by omega), Nat.mul_comm _ w, Nat.div_eq_of_lt hx, Nat.div_eq_of_lt hx'] using hdiv
          subst hrow
          have hcol : x' = x := by omega
          subst hcol
          rw [if_pos rfl, if_pos List.mem_cons_self]
        · rw [if_neg heq, if_neg]
          intro hmem'
          rcases List.mem_cons.mp hmem' with heq' | hmem'
          · cases heq'
            exact heq rfl
          · exact hmem hmem'

/-- Writes that reach every place of an image leave the image, whatever was there. -/
theorem foldl_write_eq_image (hf : ∀ x y, (f x y).length = 4) {l : List (Nat × Nat)}
    (hl : ∀ x y, (x, y) ∈ l ↔ x < w ∧ y < h) (hout : out.length = h * w * 4) :
    l.foldl (write w f) out = image w h f := by
  refine eq_flatMap_of_slices (by rw [length_foldl_write hf, hout]) fun i hi => ?_
  have hw : 0 < w := Nat.pos_of_ne_zero fun h0 => by rw [h0, Nat.mul_zero] at hi; cases hi
  have hcol : i % w < w := Nat.mod_lt i hw
  have hrow : i / w < h := Nat.div_lt_of_lt_mul (by rwa [Nat.mul_comm])
  have hidx : i / w * w + i % w = i := by rw [Nat.mul_comm, Nat.div_add_mod]
  have hslice := slice_foldl_write hf (fun p hp => (hl p.1 p.2).mp hp) hout hcol hrow
  rwa [hidx, if_pos ((hl _ _).mpr ⟨hcol, hrow⟩)] at hslice

/-! ## Every place once -/

theorem mem_writes {passes : List Pass} {x y : Nat} :
    (x, y) ∈ writes w h passes ↔
      ∃ pass, pass ∈ passes ∧ x ∈ places w pass.x0 pass.dx ∧ y ∈ places h pass.y0 pass.dy := by
  simp only [writes, List.mem_flatMap, List.mem_map, Prod.mk.injEq]
  constructor
  · intro hmem
    obtain ⟨pass, hpass, y', hy, x', hx, rfl, rfl⟩ := hmem
    exact ⟨pass, hpass, hx, hy⟩
  · intro hmem
    obtain ⟨pass, hpass, hx, hy⟩ := hmem
    exact ⟨pass, hpass, y, hy, x, hx, rfl, rfl⟩

/-- The place of a square of eight columns and rows is one of the pass. -/
def Pass.holds (pass : Pass) (x y : Nat) : Bool := x % pass.dx = pass.x0 && y % pass.dy = pass.y0

/-- The passes of an interlace method share out the places of a square of eight by eight. -/
structure Tiling (passes : List Pass) : Prop where
  start : ∀ pass, pass ∈ passes → pass.x0 < pass.dx ∧ pass.y0 < pass.dy ∧ pass.dx ∣ 8 ∧ pass.dy ∣ 8
  covers : ∀ x, x < 8 → ∀ y, y < 8 → ∃ pass, pass ∈ passes ∧ pass.holds x y = true
  apart : passes.Pairwise fun pass pass' => ∀ x, x < 8 → ∀ y, y < 8 → ¬(pass.holds x y = true ∧ pass'.holds x y = true)

theorem tiling_adam7 : Tiling adam7 := ⟨by decide, by decide, by decide⟩

theorem tiling_single : Tiling single := ⟨by decide, by decide, by decide⟩

theorem tiling (interlace : Bool) : Tiling (passes interlace) := by
  cases interlace with
  | false => exact tiling_single
  | true => exact tiling_adam7

theorem mem_places_iff_mod {total start step : Nat} (h : start < step) :
    x ∈ places total start step ↔ x < total ∧ x % step = start := by
  rw [mem_places]
  refine and_congr_right fun _ => ?_
  constructor
  · intro hmem
    obtain ⟨q, hq⟩ := Nat.dvd_of_mod_eq_zero hmem.2
    rw [show x = start + step * q by omega, Nat.add_mul_mod_self_left, Nat.mod_eq_of_lt h]
  · intro hmod
    have hdiv := Nat.div_add_mod x step
    rw [hmod] at hdiv
    exact ⟨by omega, by rw [show x - start = step * (x / step) by omega, Nat.mul_mod_right]⟩

namespace Tiling

variable {passes : List Pass}

theorem mem_pass (ht : Tiling passes) {pass : Pass} (hpass : pass ∈ passes) {y : Nat} :
    x ∈ places w pass.x0 pass.dx ∧ y ∈ places h pass.y0 pass.dy ↔ x < w ∧ y < h ∧ pass.holds (x % 8) (y % 8) = true := by
  obtain ⟨hx0, hy0, hdx, hdy⟩ := ht.start pass hpass
  rw [mem_places_iff_mod hx0, mem_places_iff_mod hy0, Pass.holds, Nat.mod_mod_of_dvd _ hdx, Nat.mod_mod_of_dvd _ hdy,
    Bool.and_eq_true, decide_eq_true_eq, decide_eq_true_eq]
  constructor
  · intro hmem
    exact ⟨hmem.1.1, hmem.2.1, hmem.1.2, hmem.2.2⟩
  · intro hmem
    exact ⟨⟨hmem.1, hmem.2.2.1⟩, hmem.2.1, hmem.2.2.2⟩

theorem mem_writes_iff (ht : Tiling passes) {x y : Nat} : (x, y) ∈ writes w h passes ↔ x < w ∧ y < h := by
  rw [mem_writes]
  constructor
  · intro hmem
    obtain ⟨pass, hpass, hmem⟩ := hmem
    obtain ⟨hx, hy, -⟩ := (ht.mem_pass hpass).mp hmem
    exact ⟨hx, hy⟩
  · intro hin
    obtain ⟨pass, hpass, hholds⟩ := ht.covers (x % 8) (Nat.mod_lt x (by omega)) (y % 8) (Nat.mod_lt y (by omega))
    exact ⟨pass, hpass, (ht.mem_pass hpass).mpr ⟨hin.1, hin.2, hholds⟩⟩

theorem nodup_places (total start step : Nat) : (places total start step).Nodup := List.nodup_range.filter _

theorem nodup_writes (ht : Tiling passes) (w h : Nat) : (writes w h passes).Nodup := by
  rw [writes, List.nodup_flatMap]
  constructor
  · intro pass hpass
    rw [List.nodup_flatMap]
    constructor
    · intro y hy
      exact (nodup_places _ _ _).map fun x x' heq => (Prod.mk.inj heq).1
    · refine (nodup_places _ _ _).imp fun {y y'} hne => ?_
      intro p hp hp'
      obtain ⟨x, hx, rfl⟩ := List.mem_map.mp hp
      obtain ⟨x', hx', heq⟩ := List.mem_map.mp hp'
      exact hne (Prod.mk.inj heq).2.symm
  · refine (List.Pairwise.and_mem.mp ht.apart).imp fun {pass pass'} happ => ?_
    intro p hp hp'
    obtain ⟨hpass, hpass', hapart⟩ := happ
    obtain ⟨x, y⟩ := p
    have hone := mem_writes.mp (show (x, y) ∈ writes w h [pass] by rwa [writes, List.flatMap_singleton])
    have hother := mem_writes.mp (show (x, y) ∈ writes w h [pass'] by rwa [writes, List.flatMap_singleton])
    simp only [List.mem_singleton, exists_eq_left] at hone hother
    obtain ⟨-, -, hholds⟩ := (ht.mem_pass hpass).mp hone
    obtain ⟨-, -, hholds'⟩ := (ht.mem_pass hpass').mp hother
    exact hapart _ (Nat.mod_lt x (by omega)) _ (Nat.mod_lt y (by omega)) ⟨hholds, hholds'⟩

end Tiling

/-! ## Runs -/

theorem length_expand (ctx : Ctx) (v : Nat → Nat) : (expand ctx v).length = 4 := by
  unfold expand
  dsimp only
  split <;> rfl

/-- What the decoder writes at a place. -/
def expandAt (ctx : Ctx) (s : Samples) (x y : Nat) : Bytes := expand ctx (s x y)

theorem foldlM_eq_ok {α β : Type} {f : β → α → Except DecodeError β} {g : β → α → β} {l : List α}
    (h : ∀ a, a ∈ l → ∀ b, f b a = .ok (g b a)) (b : β) : l.foldlM f b = .ok (l.foldl g b) := by
  induction l generalizing b with
  | nil => rfl
  | cons a l ih =>
      rw [List.foldlM_cons, h a List.mem_cons_self, List.foldl_cons]
      exact ih (fun c hc => h c (List.mem_cons_of_mem _ hc)) _

theorem getElem?_line {s : Samples} {channels c : Nat} {xs : List Nat} (hx : xs[i]? = some x)
    (hc : c < channels) :
    (line s channels xs y)[i * channels + c]? = some (s x y c) := by
  rw [line, getElem?_flatMap (fun a _ => by rw [List.length_map, List.length_range]) hx hc, List.getElem?_map,
    List.getElem?_range hc, Option.map_some]

section

variable {ctx : Ctx} {s : Samples}
variable {pass : Pass}

/-- The row step: the pixels of a row that holds the samples of a row of the pass. -/
theorem decodeRow_eq (hlegal : Legal ctx w h s) (hdx : 0 < pass.dx) {y : Nat} (hy : y < h)
    {data : Bytes}
    (hdata : Packed ctx.hdr.depth (line s ctx.hdr.channels (places w pass.x0 pass.dx) y) data)
    (out : Bytes) :
    decodeRow ctx w pass (passDim w pass.x0 pass.dx) y data out =
      .ok (((places w pass.x0 pass.dx).map fun x => (x, y)).foldl (write w (expandAt ctx s)) out) := by
  have hpixel : ∀ rx, rx ∈ List.range (passDim w pass.x0 pass.dx) →
      pixel ctx data rx = .ok (expandAt ctx s (pass.x0 + rx * pass.dx) y) := by
    intro rx hrx
    have hx : (places w pass.x0 pass.dx)[rx]? = some (pass.x0 + rx * pass.dx) := by
      rw [places_eq hdx, List.getElem?_map, List.getElem?_range (List.mem_range.mp hrx), Option.map_some]
    have hw := (mem_places.mp (List.mem_of_getElem? hx)).1
    refine pixel_eq hlegal.depth (fun c hc => ?_) fun h3 => hlegal.indexed h3 _ _ hw hy
    exact sample_packed hdata (getElem?_line hx hc) (hlegal.below _ _ _ hw hy hc) (depth_cases hlegal.depth).2.1
  rw [decodeRow, places_eq hdx, List.map_map, List.foldl_map]
  refine foldlM_eq_ok (fun rx hrx out => ?_) out
  rw [hpixel rx hrx]
  rfl

theorem Filtered.length {bpp rb : Nat} {prev raw : Bytes} {rows : List Bytes} (h : Filtered bpp prev rows raw)
    (hrows : ∀ row, row ∈ rows → row.length = rb) : raw.length = rows.length * (rb + 1) := by
  induction h with
  | nil => exact (Nat.zero_mul _).symm
  | cons hft h ih =>
      rw [List.length_append, List.length_cons, length_filterRow, hrows _ List.mem_cons_self,
        ih fun row hrow => hrows row (List.mem_cons_of_mem _ hrow), List.length_cons, Nat.succ_mul, Nat.add_comm]

/-- The run over the rows of a pass, from row `ry` of it on. -/
theorem decodeRows_eq (hlegal : Legal ctx w h s) (hdx : 0 < pass.dx) {bpp rb : Nat} (hbpp : 0 < bpp)
    {prev raw : Bytes} {rows : List Bytes} (hfiltered : Filtered bpp prev rows raw) :
    ∀ {ys : List Nat} {ry : Nat} {out : Bytes},
      List.Forall₂ (fun y row => y < h ∧ row.length = rb ∧
        Packed ctx.hdr.depth (line s ctx.hdr.channels (places w pass.x0 pass.dx) y) row) ys rows →
      (∀ i y, ys[i]? = some y → y = pass.y0 + (ry + i) * pass.dy) →
      decodeRows ctx bpp w pass (passDim w pass.x0 pass.dx) (chunksExact (rb + 1) rows.length raw) ry prev out =
        .ok ((ys.flatMap fun y => (places w pass.x0 pass.dx).map fun x => (x, y)).foldl (write w (expandAt ctx s)) out) := by
  induction hfiltered with
  | nil prev =>
      intro ys ry out hpacked _
      cases hpacked
      rfl
  | @cons prev row raw rows ft hft hfiltered ih =>
      intro ys ry out hpacked hys
      cases hpacked with
      | @cons y _ ys _ hrow hpacked =>
          obtain ⟨hy, hlen, hrow⟩ := hrow
          have hfirst : (UInt8.ofNat ft :: filterRow ft bpp prev row).length = rb + 1 := by
            rw [List.length_cons, length_filterRow, hlen]
          have hy0 : y = pass.y0 + ry * pass.dy := hys 0 y rfl
          rw [List.length_cons, chunksExact, List.take_left' hfirst, List.drop_left' hfirst, decodeRows,
            unfilter_filterRow hft hbpp, ← hy0]
          refine bind_eq_ok.mpr ⟨row, rfl, bind_eq_ok.mpr ⟨_, decodeRow_eq hlegal hdx hy hrow out, ?_⟩⟩
          rw [List.flatMap_cons, List.foldl_append]
          refine ih hpacked fun i y' hi => ?_
          rw [hys (i + 1) y' hi]
          congr 2
          omega

theorem rowBytes_eq (bits : Nat) : bits / 8 + (if bits % 8 = 0 then 0 else 1) = rowBytes bits := by
  rw [rowBytes]
  split <;> omega

theorem length_line (s : Samples) (channels y : Nat) (xs : List Nat) : (line s channels xs y).length = xs.length * channels :=
  length_flatMap fun a _ => by rw [List.length_map, List.length_range]

variable {hdr : Header}

theorem byteDistance_eq (h : legalDepth hdr.colour hdr.depth = true) :
    max (hdr.bitsPerPixel / 8) 1 = byteDistance hdr := by
  obtain ⟨hcolour, hdepth, hwide⟩ := depth_cases h
  have hchannels : hdr.channels = 1 ∨ (hdr.channels = 2 ∨ hdr.channels = 3 ∨ hdr.channels = 4) ∧ (hdr.depth = 8 ∨ hdr.depth = 16) := by
    unfold Header.channels
    rcases hcolour with hc | hc | hc | hc | hc
    all_goals simp [hc] at hwide ⊢
    all_goals exact hwide
  rw [Header.bitsPerPixel, byteDistance]
  rcases hchannels with hone | ⟨hmany, hdepth⟩
  · rw [hone, Nat.one_mul]
    omega
  · rcases hmany with hn | hn | hn <;> rcases hdepth with hd | hd <;> rw [hn, hd] <;> rfl

theorem byteDistance_pos (h : legalDepth hdr.colour hdr.depth = true) : 0 < byteDistance hdr := by
  rw [← byteDistance_eq h]
  omega

theorem places_eq_nil {total start step : Nat} (hstep : 0 < step) : places total start step = [] ↔ passDim total start step = 0 := by
  rw [← length_places hstep, List.length_eq_zero_iff]

theorem passDim_le {total start step : Nat} (hstep : 0 < step) : passDim total start step ≤ total := by
  rw [← length_places hstep]
  exact (List.length_filter_le _ _).trans (Nat.le_of_eq List.length_range)

/-- The data of a pass is nothing where the pass has no place, and its filtered rows elsewhere. -/
theorem IsPass.cases {part : Bytes} (hdx : 0 < pass.dx) (hdy : 0 < pass.dy)
    (hpart : IsPass hdr w h s pass part) :
    let pw := passDim w pass.x0 pass.dx
    let ph := passDim h pass.y0 pass.dy
    let rb := rowBytes (pw * hdr.bitsPerPixel)
    (pw = 0 ∨ ph = 0) ∧ part = [] ∨
      ¬(pw = 0 ∨ ph = 0) ∧ part.length = (rb + 1) * ph ∧ ∃ rows : List Bytes,
        List.Forall₂ (fun y row => y < h ∧ row.length = rb ∧
          Packed hdr.depth (line s hdr.channels (places w pass.x0 pass.dx) y) row) (places h pass.y0 pass.dy) rows ∧
        Filtered (byteDistance hdr) (List.replicate rb 0) rows part := by
  dsimp only [IsPass] at hpart ⊢
  rw [← places_eq_nil hdx, ← places_eq_nil hdy]
  split at hpart
  · rename_i hempty
    exact Or.inl ⟨hempty, hpart⟩
  · rename_i hplaces
    obtain ⟨rows, hpacked, hfiltered⟩ := hpart
    have hbits : (places w pass.x0 pass.dx).length * hdr.channels * hdr.depth = passDim w pass.x0 pass.dx * hdr.bitsPerPixel := by
      rw [length_places hdx, Header.bitsPerPixel, Nat.mul_assoc]
    rw [hbits] at hfiltered
    have hrows : List.Forall₂ (fun y row => y < h ∧ row.length = rowBytes (passDim w pass.x0 pass.dx * hdr.bitsPerPixel) ∧
        Packed hdr.depth (line s hdr.channels (places w pass.x0 pass.dx) y) row) (places h pass.y0 pass.dy) rows := by
      refine List.forall₂_iff_get.mpr ⟨hpacked.length_eq, fun i hy hrow => ?_⟩
      have hp := (List.forall₂_iff_get.mp hpacked).2 i hy hrow
      exact ⟨(mem_places.mp (List.get_mem _ _)).1, by rw [hp.length, length_line, hbits], hp⟩
    refine Or.inr ⟨hplaces, ?_, rows, hrows, hfiltered⟩
    have hlen := @Filtered.length _ (rowBytes (passDim w pass.x0 pass.dx * hdr.bitsPerPixel)) _ _ _ hfiltered fun row hrow => by
      obtain ⟨i, hi⟩ := List.get_of_mem hrow
      have hy : i.val < (places h pass.y0 pass.dy).length := by
        rw [hpacked.length_eq]
        exact i.isLt
      rw [← hi]
      exact ((List.forall₂_iff_get.mp hrows).2 i hy i.isLt).2.1
    rw [hlen, ← hpacked.length_eq, length_places hdy, Nat.mul_comm]

theorem rawLength_cons (hdx : 0 < pass.dx) (hdy : 0 < pass.dy) (rest : List Pass) :
    rawLength hdr w h (pass :: rest) =
      (if passDim w pass.x0 pass.dx = 0 ∨ passDim h pass.y0 pass.dy = 0 then 0
        else (rowBytes (passDim w pass.x0 pass.dx * hdr.bitsPerPixel) + 1) * passDim h pass.y0 pass.dy) +
      rawLength hdr w h rest := by
  simp only [rawLength, places_eq_nil hdx, places_eq_nil hdy, length_places hdx, length_places hdy, Nat.mul_assoc,
    Header.bitsPerPixel]

theorem length_parts {ps : List Pass} {parts : List Bytes}
    (hps : ∀ pass, pass ∈ ps → 0 < pass.dx ∧ 0 < pass.dy) (hparts : List.Forall₂ (IsPass hdr w h s) ps parts) :
    parts.flatten.length = rawLength hdr w h ps := by
  induction hparts with
  | nil => rfl
  | @cons pass part ps parts hpart hparts ih =>
      obtain ⟨hdx, hdy⟩ := hps pass List.mem_cons_self
      rw [List.flatten_cons, List.length_append, rawLength_cons hdx hdy,
        ih fun pass' hpass' => hps pass' (List.mem_cons_of_mem _ hpass')]
      rcases hpart.cases hdx hdy with ⟨hempty, rfl⟩ | ⟨hplaces, hlen, -⟩
      · rw [if_pos hempty, List.length_nil]
      · rw [if_neg hplaces, hlen]

/-- The size computed from the header is the length of the format's data. -/
theorem expected_eq {hdr : Header} (hw : w * hdr.bitsPerPixel < UInt64.size) {ps : List Pass}
    (hps : ∀ pass, pass ∈ ps → 0 < pass.dx ∧ 0 < pass.dy) {expect : Nat}
    (hfit : expect + rawLength hdr w h ps < UInt64.size) :
    expected w h hdr.bitsPerPixel ps expect = .ok (expect + rawLength hdr w h ps) := by
  induction ps generalizing expect with
  | nil => rfl
  | cons pass ps ih =>
      obtain ⟨hdx, hdy⟩ := hps pass List.mem_cons_self
      have ih := @ih fun pass' hpass' => hps pass' (List.mem_cons_of_mem _ hpass')
      rw [rawLength_cons hdx hdy] at hfit ⊢
      rw [expected]
      dsimp only
      split at hfit
      · rename_i hempty
        rw [if_pos hempty, if_pos hempty, Nat.zero_add] at *
        exact ih hfit
      · rename_i hplaces
        have hbits : passDim w pass.x0 pass.dx * hdr.bitsPerPixel < UInt64.size :=
          Nat.lt_of_le_of_lt (Nat.mul_le_mul_right _ (passDim_le hdx)) hw
        rw [if_neg hplaces, if_neg hplaces, mul, if_pos hbits]
        have hsize : (rowBytes (passDim w pass.x0 pass.dx * hdr.bitsPerPixel) + 1) * passDim h pass.y0 pass.dy < UInt64.size := by
          omega
        refine bind_eq_ok.mpr ⟨_, rfl, bind_eq_ok.mpr ⟨_, if_pos hsize, ?_⟩⟩
        rw [← rowBytes, if_pos (by omega), ih (by omega), Nat.add_assoc]

/-- The run over the passes. -/
theorem decodePasses_eq (hlegal : Legal ctx w h s) {ps : List Pass} {parts : List Bytes}
    (hps : ∀ pass, pass ∈ ps → 0 < pass.dx ∧ 0 < pass.dy) (hparts : List.Forall₂ (IsPass ctx.hdr w h s) ps parts) :
    ∀ out, decodePasses ctx (byteDistance ctx.hdr) w h ps parts.flatten out =
      .ok ((writes w h ps).foldl (write w (expandAt ctx s)) out) := by
  induction hparts with
  | nil => exact fun _ => rfl
  | @cons pass part ps parts hpart hparts ih =>
      intro out
      obtain ⟨hdx, hdy⟩ := hps pass List.mem_cons_self
      have ih := ih fun pass' hpass' => hps pass' (List.mem_cons_of_mem _ hpass')
      rw [decodePasses, writes, List.flatMap_cons, ← writes, List.foldl_append, List.flatten_cons]
      dsimp only
      rcases hpart.cases hdx hdy with ⟨hempty, rfl⟩ | ⟨hplaces, hlen, rows, hrows, hfiltered⟩
      · have hnone : ((places h pass.y0 pass.dy).flatMap fun y => (places w pass.x0 pass.dx).map fun x => (x, y)) = [] := by
          rw [← length_places hdx, ← length_places hdy, List.length_eq_zero_iff, List.length_eq_zero_iff] at hempty
          rcases hempty with hx | hy
          · rw [hx]
            exact List.flatMap_eq_nil_iff.mpr fun _ _ => rfl
          · rw [hy, List.flatMap_nil]
        rw [if_pos hempty, List.nil_append, hnone]
        exact ih out
      · have hcount := hrows.length_eq
        rw [length_places hdy] at hcount
        rw [if_neg hplaces, rowBytes_eq, if_neg (by rw [List.length_append]; omega), List.take_left' hlen,
          List.drop_left' hlen, Nat.mul_div_cancel_left _ (Nat.succ_pos _), hcount]
        refine bind_eq_ok.mpr ⟨_, decodeRows_eq hlegal hdx (byteDistance_pos hlegal.depth) hfiltered hrows ?_, ih _⟩
        intro i y hi
        rw [places_eq hdy, List.getElem?_map] at hi
        obtain ⟨j, hj, rfl⟩ := Option.map_eq_some_iff.mp hi
        obtain ⟨hlt, rfl⟩ := List.getElem?_eq_some_iff.mp hj
        rw [List.getElem_range, Nat.zero_add]

end

/-! ## The whole image -/

/-- An image of this size and data keeps the limits of a budget. -/
structure Within (budget : Budget) (w h total : Nat) : Prop where
  width : 0 < w
  height : 0 < h
  pixels : w * h ≤ budget.limits.maxPixels.toNat
  bytes : budget.used + total + 4 * (w * h) ≤ budget.limits.maxTotalBytes.toNat

theorem steps_pos (interlace : Bool) : ∀ pass, pass ∈ passes interlace → 0 < pass.dx ∧ 0 < pass.dy := by
  intro pass hpass
  obtain ⟨hx, hy, -, -⟩ := (tiling interlace).start pass hpass
  omega

theorem charge_eq {budget : Budget} {n : Nat} (h : budget.used + n ≤ budget.limits.maxTotalBytes.toNat) :
    budget.charge n = .ok { budget with used := budget.used + n } := by
  have hlt := budget.limits.maxTotalBytes.toNat_lt
  exact if_neg (by rw [UInt64.size]; omega)

theorem bitsPerPixel_le {hdr : Header} (h : legalDepth hdr.colour hdr.depth = true) : hdr.bitsPerPixel ≤ 64 := by
  obtain ⟨-, hdepth, -⟩ := depth_cases h
  have hchannels : hdr.channels ≤ 4 := by
    unfold Header.channels
    split <;> omega
  have hmul := Nat.mul_le_mul hchannels (show hdr.depth ≤ 16 by omega)
  exact hmul

/-- Within the limits the decoder goes on to the data, and refuses it at another length. -/
theorem decodePixels_eq {ctx : Ctx} {w h : UInt32}
    (hdepth : legalDepth ctx.hdr.colour ctx.hdr.depth = true)
    (hfits : Within budget w.toNat h.toNat (rawLength ctx.hdr w.toNat h.toNat (passes ctx.hdr.interlace))) :
    decodePixels ctx w h chunks budget =
      Inflate.zlibDecompress chunks.flatten (rawLength ctx.hdr w.toNat h.toNat (passes ctx.hdr.interlace)) >>= fun raw =>
      if raw.length ≠ rawLength ctx.hdr w.toNat h.toNat (passes ctx.hdr.interlace) then .error (.malformed "image data length mismatch")
      else (decodePasses ctx (byteDistance ctx.hdr) w.toNat h.toNat (passes ctx.hdr.interlace) raw
        (List.replicate (h.toNat * w.toNat * 4) 0)).map fun out => (out, { budget with used := budget.used + 4 * (w.toNat * h.toNat) }) := by
  have hmax := budget.limits.maxTotalBytes.toNat_lt
  have hpixels := budget.limits.maxPixels.toNat_lt
  obtain ⟨hw, hh, hpx, hbytes⟩ := hfits
  have hbits : w.toNat * ctx.hdr.bitsPerPixel < UInt64.size := by
    have hmul := Nat.mul_le_mul (Nat.le_of_lt w.toNat_lt) (bitsPerPixel_le hdepth)
    exact Nat.lt_of_le_of_lt hmul (by decide)
  have hdims : budget.checkDims w.toNat h.toNat = .ok (w.toNat * h.toNat) := by
    rw [Budget.checkDims, if_neg (by omega), if_neg (by rw [UInt64.size]; omega), if_neg (by omega)]
  have hexpect := @expected_eq w.toNat h.toNat ctx.hdr hbits _ (steps_pos ctx.hdr.interlace) 0 (by rw [UInt64.size]; omega)
  have hmul4 : mul (w.toNat * h.toNat) 4 = .ok (w.toNat * h.toNat * 4) := if_pos (by rw [UInt64.size]; omega)
  rw [Nat.zero_add] at hexpect
  have hcharge := @charge_eq budget (rawLength ctx.hdr w.toNat h.toNat (passes ctx.hdr.interlace)) (by omega)
  simp only [decodePixels, hdims, hexpect, hmul4, hcharge, bind, Except.bind]
  refine bind_congr_ok fun raw _ => ?_
  split
  · rfl
  · have hzeroed := @charge_eq { budget with used := budget.used + rawLength ctx.hdr w.toNat h.toNat (passes ctx.hdr.interlace) }
      (w.toNat * h.toNat * 4) (by dsimp only; omega)
    simp only [Budget.zeroed, hzeroed, bind, Except.bind, pure, Except.pure, byteDistance_eq hdepth, Nat.mul_comm h.toNat]
    cases decodePasses ctx (byteDistance ctx.hdr) w.toNat h.toNat (passes ctx.hdr.interlace) raw
        (List.replicate (w.toNat * h.toNat * 4) 0) with
    | error e => rfl
    | ok out =>
        simp only [Except.map, Budget.release]
        congr 3
        omega

/-- The decoder's writes are those of the format's passes, each with its pixel. -/
theorem decodePixels_writes {ctx : Ctx} {w h : UInt32} {s : Samples} {raw : Bytes}
    (hlegal : Legal ctx w.toNat h.toNat s) (hraw : IsRaw ctx.hdr w.toNat h.toNat s raw)
    (hfits : Within budget w.toNat h.toNat raw.length) (hz : Inflate.IsZlib chunks.flatten raw) :
    decodePixels ctx w h chunks budget =
      .ok ((writes w.toNat h.toNat (passes ctx.hdr.interlace)).foldl (write w.toNat (expandAt ctx s))
        (List.replicate (h.toNat * w.toNat * 4) 0), { budget with used := budget.used + 4 * (w.toNat * h.toNat) }) := by
  obtain ⟨parts, hparts, rfl⟩ := hraw
  have hlen := length_parts (steps_pos ctx.hdr.interlace) hparts
  rw [hlen] at hfits
  rw [decodePixels_eq hlegal.depth hfits]
  refine bind_eq_ok.mpr ⟨_, hz.decompress (Nat.le_of_eq hlen), ?_⟩
  rw [if_neg (not_not.mpr hlen), decodePasses_eq hlegal (steps_pos ctx.hdr.interlace) hparts]
  rfl

/-- The writes reach every place, so they leave the image. -/
theorem foldl_writes_eq_image (ctx : Ctx) (s : Samples) (interlace : Bool) (w h : Nat) :
    (writes w h (passes interlace)).foldl (write w (expandAt ctx s)) (List.replicate (h * w * 4) 0) = image w h (expandAt ctx s) :=
  foldl_write_eq_image (fun _ _ => length_expand _ _) (fun _ _ => (tiling interlace).mem_writes_iff) List.length_replicate

/-- Data of another length than the format's is refused. -/
theorem decodePixels_refuses {ctx : Ctx} {w h : UInt32} {raw : Bytes}
    (hdepth : legalDepth ctx.hdr.colour ctx.hdr.depth = true)
    (hfits : Within budget w.toNat h.toNat (rawLength ctx.hdr w.toNat h.toNat (passes ctx.hdr.interlace)))
    (hz : Inflate.IsZlib chunks.flatten raw) (hlen : raw.length ≠ rawLength ctx.hdr w.toNat h.toNat (passes ctx.hdr.interlace)) :
    ∃ e, decodePixels ctx w h chunks budget = .error e := by
  rw [decodePixels_eq hdepth hfits]
  cases hrun : Inflate.zlibDecompress chunks.flatten (rawLength ctx.hdr w.toNat h.toNat (passes ctx.hdr.interlace)) with
  | error e => exact ⟨e, rfl⟩
  | ok raw' =>
      have heq := Inflate.IsZlib.unique ⟨_, hrun⟩ hz
      subst heq
      exact ⟨_, if_pos hlen⟩

/-- Two pixels of a palette of three colours, in an interlaced image of depth two. -/
def sampleCtx : Ctx := ⟨⟨2, 3, true⟩, [(9, 9, 9), (1, 2, 3), (4, 5, 6)], [255, 128]⟩

def sampleStream : List Bytes := [[120, 1, 1, 4, 0, 251, 255], [1, 64, 4, 128, 1, 80, 0, 198]]

def sampleBudget : Budget := ⟨⟨100, 100⟩, 0⟩

theorem isPass_nil {hdr : Header} {s : Samples} {pass : Pass}
    (hempty : places w pass.x0 pass.dx = [] ∨ places h pass.y0 pass.dy = []) : IsPass hdr w h s pass [] := by
  dsimp only [IsPass]
  rw [if_pos hempty]

theorem isRaw_sample : IsRaw sampleCtx.hdr 2 1 (fun x _ _ => x + 1) [1, 64, 4, 128] := by
  refine ⟨[[1, 64], [], [], [], [], [4, 128], []], .cons ?_ (.cons (isPass_nil (by decide)) (.cons (isPass_nil (by decide))
    (.cons (isPass_nil (by decide)) (.cons (isPass_nil (by decide)) (.cons ?_ (.cons (isPass_nil (by decide)) .nil)))))), rfl⟩
  · exact ⟨[[64]], .cons ⟨by decide, by decide⟩ .nil, @Filtered.cons 1 [0] [64] [] [] 1 (by decide) (.nil _)⟩
  · exact ⟨[[128]], .cons ⟨by decide, by decide⟩ .nil, @Filtered.cons 1 [0] [128] [] [] 4 (by decide) (.nil _)⟩

end Pelorus.Image.Png
