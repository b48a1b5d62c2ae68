import Pelorus.Gpu.Wire
import Pelorus.Lib.EarlyExit

/-
  Gpu/Strips.lean --- a frame cut into strips, and put together again (`px-gpu/src/wire.rs`).

  The two sides work out the same bands from the size.  So a canvas comes back as it was sent,
  and the assembler takes no other sequence for it.
-/
set_option autoImplicit false

namespace Pelorus.Gpu

open Lib Ipc Paint

/-! ## Cutting -/

/-- The rows of a band. -/
def strip (canvas : Canvas) (band : Nat × Nat) : Nat × Nat × Bytes :=
  (band.1, band.2, (canvas.pixels.drop (band.1 * (canvas.width.toNat * 4))).take (band.2 * (canvas.width.toNat * 4)))

variable {canvas : Canvas}

theorem stripsFrom_eq : ∀ {bands : List (Nat × Nat)},
    (∀ b ∈ bands, b.1 * (canvas.width.toNat * 4) + b.2 * (canvas.width.toNat * 4) ≤ canvas.pixels.length) →
    stripsFrom canvas bands = some (bands.map (strip canvas))
  | [], _ => rfl
  | (first, rows) :: bands, h => by
      obtain ⟨hfits, hrest⟩ := List.forall_mem_cons.mp h
      have hbands := stripsFrom_eq hrest
      rw [stripsFrom] at hbands ⊢
      dsimp only at hfits hbands ⊢
      rw [List.mapM_cons, if_pos hfits, hbands]
      rfl

/-- A canvas that has its pixels is cut where the receiver expects it. -/
theorem stripsOf_eq {per : Nat} (hper : rowsPerStrip canvas.width = some per)
    (hsize : canvas.pixels.length = canvas.height.toNat * (canvas.width.toNat * 4)) :
    stripsOf canvas = (bands per canvas.height.toNat 0).map (strip canvas) := by
  rw [stripsOf, hper]
  dsimp only
  rw [stripsFrom_eq fun b hb => by
    rw [← Nat.add_mul, hsize]
    exact Nat.mul_le_mul_right _ (le_of_mem_bands hb), Option.getD_some]

variable {width height : UInt32}

theorem exists_rowsPerStrip (hview : viewportOk width height = true) : ∃ per, rowsPerStrip width = some per := by
  simp only [viewportOk, decide_eq_true_eq] at hview
  obtain ⟨hpos, -, hwide, -⟩ := hview
  have hrows : MAX_STRIP_BYTES / (width.toNat * 4) ≠ 0 :=
    (Nat.div_pos (le_trans (Nat.mul_le_mul_right 4 hwide) (by decide)) (Nat.mul_pos hpos (by decide))).ne'
  exact ⟨_, (if_neg (not_or.mpr ⟨(UInt32.ne_of_lt hpos).symm, Nat.not_lt.mpr hwide⟩)).trans (if_neg hrows)⟩

theorem rowsPerStrip_pos {per : Nat} (h : rowsPerStrip width = some per) : 0 < per := by
  unfold rowsPerStrip at h
  split at h
  · cases h
  · dsimp only at h
    split at h
    · cases h
    · rename_i hne
      rw [← Option.some.inj h]
      exact Nat.pos_of_ne_zero hne

namespace FrameAssembler

variable {a : FrameAssembler}

theorem new_eq_ok (h : new width height = .ok a) :
    viewportOk width height = true ∧ ∃ per, rowsPerStrip width = some per ∧ a = ⟨width, height, per, 0, []⟩ := by
  unfold new at h
  split at h
  · cases h
  · rename_i hview
    split at h
    · cases h
    · rename_i per hper
      cases h
      exact ⟨by simpa using hview, per, hper, rfl⟩

theorem expected_isNone : a.expected.isNone = true ↔ a.height.toNat ≤ a.nextRow := by
  unfold expected
  split <;> simp [*]

theorem push_eq_ok_iff {a' : FrameAssembler} {firstRow rows : UInt32} {bytes : Bytes} :
    a.push firstRow rows bytes = .ok a' ↔
      a.nextRow < a.height.toNat ∧
      (firstRow.toNat, rows.toNat) = (a.nextRow, min a.perStrip (a.height.toNat - a.nextRow)) ∧
      bytes.length = rows.toNat * a.width.toNat * 4 ∧
      a' = { a with pixels := a.pixels ++ bytes, nextRow := a.nextRow + rows.toNat } := by
  unfold push expected
  by_cases hdone : a.height.toNat ≤ a.nextRow
  · simp only [if_pos hdone, reduceCtorEq, false_iff, not_and]
    exact fun hlt => absurd hlt (Nat.not_lt.mpr hdone)
  · simp only [if_neg hdone, Prod.mk.injEq]
    split
    · simp [*]
    · split
      · simp [*]
      · split
        · simp [*]
        · simp_all [eq_comm]

/-! ## Putting together -/

/-- One strip after the other, then the canvas. -/
def assemble : FrameAssembler → List (UInt32 × UInt32 × Bytes) → Except StripError Canvas
  | a, [] => a.finish
  | a, (firstRow, rows, bytes) :: strips => a.push firstRow rows bytes >>= fun next => next.assemble strips

/-- A strip with its rows as numbers. -/
def asNumbers (s : UInt32 × UInt32 × Bytes) : Nat × Nat × Bytes := (s.1.toNat, s.2.1.toNat, s.2.2)

/-- An assembler that has the first rows of a canvas takes the rest of its strips, and nothing else, for it. -/
theorem assemble_eq_ok_iff : ∀ {strips : List (UInt32 × UInt32 × Bytes)} {a : FrameAssembler}, 0 < a.perStrip →
    a.nextRow ≤ a.height.toNat → a.pixels.length = a.nextRow * (a.width.toNat * 4) →
    (a.assemble strips = .ok canvas ↔ canvas.width = a.width ∧ canvas.height = a.height ∧
      canvas.pixels.length = a.height.toNat * (a.width.toNat * 4) ∧ canvas.pixels.take a.pixels.length = a.pixels ∧
      strips.map asNumbers = (bands a.perStrip a.height.toNat a.nextRow).map (strip canvas))
  | [], a, hper, hle, hlen => by
      rw [assemble, finish]
      by_cases hdone : a.nextRow = a.height.toNat
      · rw [if_neg (not_not.mpr hdone), bands_of_le hdone.ge, hlen, hdone]
        constructor
        · rintro h
          cases h
          exact ⟨rfl, rfl, by rw [hlen, hdone], List.take_of_length_le (by rw [hlen, hdone]), rfl⟩
        · rintro ⟨hwidth, hheight, hsize, hpixels, -⟩
          rw [List.take_of_length_le hsize.le] at hpixels
          rw [← hwidth, ← hheight, ← hpixels]
      · rw [if_pos hdone, bands_of_lt hper (Nat.lt_of_le_of_ne hle hdone)]
        exact ⟨nofun, fun h => nomatch h.2.2.2.2⟩
  | (firstRow, rows, bytes) :: strips, a, hper, hle, hlen => by
      rw [assemble, bind_eq_ok]
      by_cases hdone : a.nextRow = a.height.toNat
      · rw [bands_of_le hdone.ge]
        exact ⟨fun ⟨_, hpush, _⟩ => absurd (push_eq_ok_iff.mp hpush).1 hdone.not_lt, fun h => nomatch h.2.2.2.2⟩
      have hlt := Nat.lt_of_le_of_ne hle hdone
      have hroom := Nat.mul_le_mul_right (a.width.toNat * 4)
        (show a.nextRow + min a.perStrip (a.height.toNat - a.nextRow) ≤ a.height.toNat by omega)
      rw [Nat.add_mul] at hroom
      -- after a strip of this length, the next state has to take what is left
      have hnext : rows.toNat = min a.perStrip (a.height.toNat - a.nextRow) →
          bytes.length = rows.toNat * (a.width.toNat * 4) → _ := fun hrows hbytes =>
        @assemble_eq_ok_iff strips { a with pixels := a.pixels ++ bytes, nextRow := a.nextRow + rows.toNat }
          hper (by dsimp only; omega) (by rw [List.length_append, hlen, hbytes, ← Nat.add_mul])
      rw [bands_of_lt hper hlt, List.map_cons, List.map_cons, List.cons.injEq]
      constructor
      · rintro ⟨next, hpush, h⟩
        obtain ⟨-, hband, hbytes, rfl⟩ := push_eq_ok_iff.mp hpush
        obtain ⟨hfirst, hrows⟩ := Prod.mk.inj hband
        rw [Nat.mul_assoc] at hbytes
        obtain ⟨hwidth, hheight, hsize, hpixels, hrest⟩ := (hnext hrows hbytes).mp h
        rw [List.length_append, List.take_add] at hpixels
        obtain ⟨hbefore, hslice⟩ := List.append_inj hpixels (List.length_take_of_le (by dsimp only at hsize; omega))
        refine ⟨hwidth, hheight, hsize, hbefore, ?_, hrows ▸ hrest⟩
        rw [asNumbers, strip, hwidth, hfirst, ← hlen, ← hrows, ← hbytes, hslice]
      · rintro ⟨hwidth, hheight, hsize, hpixels, hstrip, hrest⟩
        obtain ⟨hfirst, hrows, hslice⟩ : firstRow.toNat = a.nextRow ∧ rows.toNat = _ ∧ bytes = _ := by
          simpa only [asNumbers, strip, Prod.mk.injEq] using hstrip
        rw [hwidth, ← hlen, ← hrows] at hslice
        have hbytes : bytes.length = rows.toNat * (a.width.toNat * 4) := by
          rw [hslice, List.length_take_of_le]
          rw [List.length_drop, hsize, hrows]
          omega
        refine ⟨_, push_eq_ok_iff.mpr ⟨hlt, by rw [hfirst, hrows], by rw [hbytes, Nat.mul_assoc], rfl⟩,
          (hnext hrows hbytes).mpr ⟨hwidth, hheight, hsize, ?_, hrows ▸ hrest⟩⟩
        rw [List.length_append, List.take_add, hpixels, hbytes, ← hslice]

end FrameAssembler

/-- A FRAME COMES BACK AS IT WAS SENT: the strips of a canvas of the announced size give that canvas, and no other
sequence of strips is taken for it. -/
theorem strips_exact {strips : List (UInt32 × UInt32 × Bytes)} :
    (FrameAssembler.new width height >>= fun a => a.assemble strips) = .ok canvas ↔
      viewportOk width height = true ∧ canvas.width = width ∧ canvas.height = height ∧
        canvas.pixels.length = height.toNat * (width.toNat * 4) ∧
        strips.map FrameAssembler.asNumbers = stripsOf canvas := by
  cases hview : viewportOk width height with
  | false => simp [FrameAssembler.new, hview, bind, Except.bind]
  | true =>
      obtain ⟨per, hper⟩ := exists_rowsPerStrip hview
      have hnew : FrameAssembler.new width height = .ok ⟨width, height, per, 0, []⟩ := by
        simp [FrameAssembler.new, hview, hper]
      rw [hnew]
      refine (FrameAssembler.assemble_eq_ok_iff (rowsPerStrip_pos hper) (Nat.zero_le _) (by simp)).trans ?_
      simp only [List.length_nil, List.take_zero, true_and]
      refine and_congr_right fun hw => and_congr_right fun hh => and_congr_right fun hsize => ?_
      subst hw hh
      rw [stripsOf_eq hper hsize]

end Pelorus.Gpu
