import Pelorus.Update.Ed25519.Field
import Pelorus.Update.Ed25519.Scalar

/-
  Update/Ed25519/Edwards.lean --- points of the curve in extended coordinates, and how
  32 bytes are read as one (`px-update/src/ed25519/edwards.rs`).

  WHAT A POINT STANDS FOR.  `Point.Is p Q` says that the four coordinates of `p` stand for
  the point `Q` of the complete curve over the field; each operation has one lemma.

  READING A POINT.  `Encodes enc Q` is the encoding of the standard: y below the prime and
  the parity of x in the top bit.  A string encodes one point at most, and `decompress`
  finds it: the candidate for the root is one or one times a root of -1, if there is any.
-/
set_option autoImplicit false

namespace Pelorus.Update.Ed25519

open Lib Lib.Bytes

/-! ## The operations -/

/-- `-121665 / 121666`. -/
def Consts.d : Fe := (Fe.small 121665).neg.mul (Fe.small 121666).invert

def Consts.d2 : Fe := Consts.d.add Consts.d

/-- Extended coordinates (X : Y : Z : T). -/
structure Point where
  x : Fe
  y : Fe
  z : Fe
  t : Fe
  deriving DecidableEq, Repr

/-- The encoding of the base point: 0x58, then 31 bytes of 0x66. -/
def BASEPOINT : Fixed 32 := ⟨0x58 :: List.replicate 31 0x66, rfl⟩

/-- The top bit of the last byte. -/
def signBit (enc : Fixed 32) : Bool := enc.1.getLast?.any fun b : UInt8 => b >>> 7 = 1

/-- The bytes with that bit cleared. -/
def clearSign (enc : Fixed 32) : Fixed 32 := ⟨enc.1.modify 31 fun b => b &&& 0x7f, by simp [enc.2]⟩

namespace Point

def IDENTITY : Point := ⟨Fe.ZERO, Fe.ONE, Fe.ONE, Fe.ZERO⟩

/-- The part of `decompress` after the root has been found. -/
def withSign (x y : Fe) (sign : Bool) : Option Point :=
  if x.isZero ∧ sign then none
  else
    let x := if x.isNegative ≠ sign then x.neg else x
    some ⟨x, y, Fe.ONE, x.mul y⟩

def decompress (enc : Fixed 32) : Option Point :=
  let sign := signBit enc
  let yb := clearSign enc
  let y := Fe.fromBytes yb
  if y.toBytes ≠ yb then none
  else
    let y2 := y.square
    let u := y2.sub Fe.ONE
    let v := (Consts.d.mul y2).add Fe.ONE
    let v3 := v.square.mul v
    let v7 := v3.square.mul v
    let x := (u.mul v3).mul (u.mul v7).powP58
    let vxx := v.mul x.square
    if vxx.eq u then withSign x y sign
    else if vxx.eq u.neg then withSign (x.mul Fe.sqrtM1) y sign
    else none

def basepoint : Option Point := decompress BASEPOINT

/-- `Point::add`, for every pair of points. -/
def add (p o : Point) : Point :=
  let a := (p.y.sub p.x).mul (o.y.sub o.x)
  let b := (p.y.add p.x).mul (o.y.add o.x)
  let cc := (p.t.mul Consts.d2).mul o.t
  let zz := p.z.mul o.z
  let dd := zz.add zz
  let e := b.sub a
  let f := dd.sub cc
  let g := dd.add cc
  let h := b.add a
  ⟨e.mul f, g.mul h, f.mul g, e.mul h⟩

def double (p : Point) : Point := p.add p

/-- `Point::mul_scalar`: the bits of the scalar in turn, from the highest. -/
def mulScalar (p : Point) (k : Fixed 32) : Point :=
  Binary.ladder (fun acc bit => if bit then acc.double.add p else acc.double) IDENTITY k.1

def isIdentity (p : Point) : Bool := p.x.isZero && p.y.eq p.z

def equals (p o : Point) : Bool := (p.x.mul o.z).eq (o.x.mul p.z) && (p.y.mul o.z).eq (o.y.mul p.z)

/-- `Point::is_small_order`: the order divides 8. -/
def isSmallOrder (p : Point) : Bool := p.double.double.double.isIdentity

/-- `Point::is_torsion_free`: the order divides that of the base point. -/
def isTorsionFree (p : Point) : Bool := (p.mulScalar Limbs.L.toBytes).isIdentity

/-! ## Addition and multiples -/

/-- The coordinates stand for the point. -/
def Is (p : Point) (Q : CurvePoint) : Prop :=
  ∃ X Y Z T : Field25519, p.x.Is X ∧ p.y.Is Y ∧ p.z.Is Z ∧ p.t.Is T ∧ Edwards.Extended X Y Z T Q

theorem is_d : Consts.d.Is d := by
  have h := (@Fe.is_small 121665 (by decide)).neg.mul (@Fe.is_small 121666 (by decide)).invert
  exact h

theorem is_d2 : Consts.d2.Is (d + d) := is_d.add is_d

theorem is_identity : IDENTITY.Is 0 := ⟨0, 1, 1, 0, Fe.is_zero, Fe.is_one, Fe.is_one, Fe.is_zero, Edwards.extended_zero⟩

section
variable {p o : Point} {Q R : CurvePoint}

theorem Is.add (hp : p.Is Q) (ho : o.Is R) : (p.add o).Is (Q + R) := by
  obtain ⟨X₁, Y₁, Z₁, T₁, hx₁, hy₁, hz₁, ht₁, hQ⟩ := hp
  obtain ⟨X₂, Y₂, Z₂, T₂, hx₂, hy₂, hz₂, ht₂, hR⟩ := ho
  have ha := (hy₁.sub hx₁).mul (hy₂.sub hx₂)
  have hb := (hy₁.add hx₁).mul (hy₂.add hx₂)
  have hcc := (ht₁.mul is_d2).mul ht₂
  have hzz := hz₁.mul hz₂
  have hdd := hzz.add hzz
  have he := hb.sub ha
  have hf := hdd.sub hcc
  have hg := hdd.add hcc
  have hh := hb.add ha
  exact ⟨_, _, _, _, he.mul hf, hg.mul hh, hf.mul hg, he.mul hh, hQ.add hR rfl rfl rfl rfl⟩

theorem Is.double (hp : p.Is Q) : p.double.Is (2 • Q) := by
  rw [two_nsmul]
  exact hp.add hp

/-- Double-and-add computes the multiple, for every scalar of 256 bits. -/
theorem Is.mulScalar (hp : p.Is Q) (k : Fixed 32) : (p.mulScalar k).Is (leNat k.1 • Q) := by
  refine @Binary.ladder_spec Point _ (fun acc n => acc.Is (n • Q)) IDENTITY ?_ ?_ k.1
  · rw [zero_nsmul]
    exact is_identity
  · intro acc n b hacc
    have hdouble : acc.double.Is ((2 * n) • Q) := by
      rw [mul_nsmul']
      exact hacc.double
    cases b with
    | false => exact hdouble
    | true =>
        rw [Binary.push, Bool.toNat_true, add_nsmul, one_nsmul]
        exact hdouble.add hp

theorem Is.isIdentity_iff (hp : p.Is Q) : p.isIdentity = true ↔ Q = 0 := by
  obtain ⟨X, Y, Z, T, hx, hy, hz, -, hQ⟩ := hp
  rw [isIdentity, Bool.and_eq_true, hx.isZero_iff, hy.eq_iff hz, hQ.eq_zero_iff]

theorem Is.equals_iff (hp : p.Is Q) (ho : o.Is R) : p.equals o = true ↔ Q = R := by
  obtain ⟨X₁, Y₁, Z₁, T₁, hx₁, hy₁, hz₁, -, hQ⟩ := hp
  obtain ⟨X₂, Y₂, Z₂, T₂, hx₂, hy₂, hz₂, -, hR⟩ := ho
  rw [equals, Bool.and_eq_true, (hx₁.mul hz₂).eq_iff (hx₂.mul hz₁), (hy₁.mul hz₂).eq_iff (hy₂.mul hz₁),
    hQ.eq_iff hR]

theorem Is.isSmallOrder_iff (hp : p.Is Q) : p.isSmallOrder = true ↔ 8 • Q = 0 := by
  have h := hp.double.double.double
  rw [← mul_nsmul, ← mul_nsmul] at h
  exact h.isIdentity_iff

theorem Is.isTorsionFree_iff (hp : p.Is Q) : p.isTorsionFree = true ↔ ORDER • Q = 0 := by
  have h := hp.mulScalar Limbs.L.toBytes
  rw [Limbs.leNat_toBytes, Limbs.value_L] at h
  exact h.isIdentity_iff

end

end Point

/-! ## Encodings -/

/-- The bytes are those of the point: y, and the parity of x above it. -/
def Encodes (enc : Bytes) (Q : CurvePoint) : Prop := leNat enc = Q.y.val + 2 ^ 255 * (Q.x.val % 2)

theorem val_lt (x : Field25519) : x.val < 2 ^ 255 - 19 := ZMod.val_lt x

theorem Encodes.y_val {enc : Bytes} {Q : CurvePoint} (h : Encodes enc Q) : Q.y.val = leNat enc % 2 ^ 255 := by
  have := val_lt Q.y
  unfold Encodes at h
  omega

theorem Encodes.x_parity {enc : Bytes} {Q : CurvePoint} (h : Encodes enc Q) :
    Q.x.val % 2 = leNat enc / 2 ^ 255 := by
  have := val_lt Q.y
  unfold Encodes at h
  omega

/-- The negative of a number that is not zero has the other parity. -/
theorem val_neg_parity {x : Field25519} (hx : x ≠ 0) : (-x).val % 2 ≠ x.val % 2 := by
  have hval : (-x).val = P - x.val := by
    rw [ZMod.neg_val, if_neg hx]
  have hlt := ZMod.val_lt x
  have hodd : P % 2 = 1 := by norm_num [P]
  omega

theorem onCurve_iff {x y : Field25519} : Edwards.OnCurve d x y ↔ (d * (y * y) + 1) * x ^ 2 = y * y - 1 := by
  unfold Edwards.OnCurve
  constructor
  · intro h
    linear_combination -h
  · intro h
    linear_combination -h

theorem mul_x_sq (Q : CurvePoint) : (d * (Q.y * Q.y) + 1) * Q.x ^ 2 = Q.y * Q.y - 1 := by
  have h := Q.onCurve
  unfold Edwards.OnCurve at h
  rw [curve_d] at h
  exact onCurve_iff.mp h

theorem denominator_ne_zero (y : Field25519) : d * (y * y) + 1 ≠ 0 := by
  rw [← curve_d]
  exact curve.x_denominator_ne_zero y

theorem Encodes.unique {enc : Bytes} {Q R : CurvePoint} (hQ : Encodes enc Q) (hR : Encodes enc R) : Q = R := by
  have hy : Q.y = R.y := ZMod.val_injective P (hQ.y_val.trans hR.y_val.symm)
  have hparity := hQ.x_parity.trans hR.x_parity.symm
  have hsquare : Q.x * Q.x = R.x * R.x := by
    have hxQ := mul_x_sq Q
    have hxR := mul_x_sq R
    rw [hy] at hxQ
    apply mul_left_cancel₀ (denominator_ne_zero R.y)
    linear_combination hxQ - hxR
  rcases mul_self_eq_mul_self_iff.mp hsquare with hx | hx
  · exact Edwards.Point.ext hx hy
  · -- the other root has the other parity, unless both are zero
    by_cases hzero : R.x = 0
    · rw [hzero, neg_zero] at hx
      exact Edwards.Point.ext (hx.trans hzero.symm) hy
    · rw [hx] at hparity
      exact absurd hparity (val_neg_parity hzero)

/-! ## Reading a point -/

theorem split_last (enc : Fixed 32) : ∃ (low : Bytes) (b : UInt8), enc.1 = low ++ [b] ∧ low.length = 31 := by
  have hne : enc.1 ≠ [] := by
    intro hnil
    have := enc.2
    rw [hnil] at this
    cases this
  refine ⟨enc.1.dropLast, enc.1.getLast hne, (List.dropLast_append_getLast hne).symm, ?_⟩
  rw [List.length_dropLast, enc.2]

theorem signBit_iff (enc : Fixed 32) : signBit enc = true ↔ leNat enc.1 / 2 ^ 255 = 1 := by
  obtain ⟨low, b, henc, hlength⟩ := split_last enc
  have hlow := leNat_lt low
  rw [hlength, show 256 ^ 31 = 2 ^ 248 from rfl] at hlow
  have hb := b.toNat_lt
  have hshift : b >>> 7 = 1 ↔ b.toNat / 2 ^ 7 = 1 := by
    rw [← UInt8.toNat_inj, UInt8.toNat_shiftRight, show (7 : UInt8).toNat % 8 = 7 from rfl,
      Nat.shiftRight_eq_div_pow]
    rfl
  rw [signBit, henc, List.getLast?_concat, Option.any_some, decide_eq_true_eq, hshift, Binary.leNat_append, hlength,
    show 256 ^ 31 = 2 ^ 248 from rfl]
  simp only [leNat]
  omega

theorem leNat_clearSign (enc : Fixed 32) : leNat (clearSign enc).1 = leNat enc.1 % 2 ^ 255 := by
  obtain ⟨low, b, henc, hlength⟩ := split_last enc
  have hlow := leNat_lt low
  rw [hlength, show 256 ^ 31 = 2 ^ 248 from rfl] at hlow
  have hb := b.toNat_lt
  have hmask : (b &&& 0x7f).toNat = b.toNat % 2 ^ 7 := by
    rw [UInt8.toNat_and]
    exact Nat.and_two_pow_sub_one_eq_mod b.toNat 7
  have hmodify : enc.1.modify 31 (fun b => b &&& 0x7f) = low ++ [b &&& 0x7f] := by
    rw [henc, ← hlength]
    simp [List.modify_eq_take_cons_drop]
  have hcleared : (clearSign enc).1 = low ++ [b &&& 0x7f] := hmodify
  rw [hcleared, henc, Binary.leNat_append, Binary.leNat_append, hlength, show 256 ^ 31 = 2 ^ 248 from rfl]
  simp only [leNat, hmask]
  omega

/-- What comes of reading is the point that was encoded, if one was. -/
structure Reads (enc : Fixed 32) (result : Option Point) : Prop where
  found : ∀ p, result = some p → ∃ Q, p.Is Q ∧ Encodes enc.1 Q
  missing : result = none → ∀ Q, ¬ Encodes enc.1 Q

theorem leNat_div_le_one (enc : Fixed 32) : leNat enc.1 / 2 ^ 255 ≤ 1 := by
  have hlt := leNat_lt enc.1
  rw [enc.2, show 256 ^ 32 = 2 ^ 256 from rfl] at hlt
  omega

/-- A root and a y give the affine point with T the product. -/
theorem Point.is_affine {x y : Fe} {X Y : Field25519} (hx : x.Is X) (hy : y.Is Y)
    (hcurve : Edwards.OnCurve curve.d X Y) : Point.Is ⟨x, y, Fe.ONE, x.mul y⟩ ⟨X, Y, hcurve⟩ := by
  refine ⟨X, Y, 1, X * Y, hx, hy, Fe.is_one, hx.mul hy, one_ne_zero, ?_, ?_, ?_⟩
  · rw [mul_one]
  · rw [mul_one]
  · rw [mul_one]

/-- Once a root is found, the sign selects it or its negative. -/
theorem Point.withSign_spec {enc : Fixed 32} {x y : Fe} {X Y : Field25519} (hx : x.Is X) (hy : y.Is Y)
    (hroot : (d * (Y * Y) + 1) * X ^ 2 = Y * Y - 1) (hY : Y.val = leNat enc.1 % 2 ^ 255) :
    Reads enc (withSign x y (signBit enc)) := by
  have hsign := signBit_iff enc
  have htop := leNat_div_le_one enc
  unfold withSign
  split
  · -- the negative zero
    rename_i hnegative
    have hX : X = 0 := hx.isZero_iff.mp hnegative.1
    refine ⟨fun p hp => (by cases hp), ?_⟩
    intro _ Q hQ
    have hQy : Q.y = Y := ZMod.val_injective P (hQ.y_val.trans hY.symm)
    have hQx := mul_x_sq Q
    rw [hQy, ← hroot, hX] at hQx
    have hQx : Q.x = 0 := by
      have hzero := mul_left_cancel₀ (denominator_ne_zero Y) hQx
      rw [zero_pow two_ne_zero] at hzero
      exact pow_eq_zero_iff two_ne_zero |>.mp hzero
    have hparity := hQ.x_parity
    rw [hQx, ZMod.val_zero, hsign.mp hnegative.2] at hparity
    cases hparity
  · rename_i hnegative
    -- the root whose parity is the sign
    obtain ⟨X', hX', hroot', hparity⟩ : ∃ X', (if x.isNegative ≠ signBit enc then x.neg else x).Is X' ∧
        (d * (Y * Y) + 1) * X' ^ 2 = Y * Y - 1 ∧ X'.val % 2 = leNat enc.1 / 2 ^ 255 := by
      have hnegative' := hx.isNegative_iff
      split
      · rename_i hdiffer
        refine ⟨-X, hx.neg, by rw [neg_sq]; exact hroot, ?_⟩
        have hX : X ≠ 0 := by
          rintro rfl
          apply hnegative
          refine ⟨hx.isZero_iff.mpr rfl, ?_⟩
          by_contra hpositive
          have hpositive : signBit enc = false := by simpa using hpositive
          rw [hpositive, ne_eq, Bool.not_eq_false, hnegative', ZMod.val_zero] at hdiffer
          cases hdiffer
        have hother := val_neg_parity hX
        cases hs : signBit enc with
        | true =>
            rw [hs, ne_eq, hnegative'] at hdiffer
            have := hsign.mp hs
            omega
        | false =>
            rw [hs, ne_eq, Bool.not_eq_false, hnegative'] at hdiffer
            rw [hs] at hsign
            have : leNat enc.1 / 2 ^ 255 ≠ 1 := fun h => by cases hsign.mpr h
            omega
      · rename_i hsame
        rw [ne_eq, not_not] at hsame
        refine ⟨X, hx, hroot, ?_⟩
        rw [← hsame] at hsign
        have hboth := hnegative'.symm.trans hsign
        omega
    refine ⟨?_, fun hnone => (by cases hnone)⟩
    intro p hp
    cases hp
    have hcurve : Edwards.OnCurve curve.d X' Y := by
      rw [curve_d]
      exact onCurve_iff.mpr hroot'
    refine ⟨⟨X', Y, hcurve⟩, is_affine hX' hy hcurve, ?_⟩
    unfold Encodes
    simp only
    omega

theorem mul_root_sq {u v c i : Field25519} (hi : i * i = -1) (h : v * (c * c) = -u) : v * (c * i) ^ 2 = u := by
  linear_combination (i * i) * h - u * hi

/-- `decompress` finds the one point the bytes encode, or there is none. -/
theorem Point.decompress_spec (enc : Fixed 32) : Reads enc (decompress enc) := by
  have hy := Fe.is_fromBytes (clearSign enc)
  have hlow : leNat enc.1 % 2 ^ 255 < 2 ^ 255 := Nat.mod_lt _ (by decide)
  rw [leNat_clearSign, Nat.mod_eq_of_lt hlow] at hy
  have hbytes := hy.leNat_toBytes
  unfold decompress
  simp only
  split
  · -- y is not below the prime
    rename_i hdiffer
    refine ⟨fun p hp => (by cases hp), ?_⟩
    intro _ Q hQ
    apply hdiffer
    apply Fe.toBytes_inj
    rw [hbytes, leNat_clearSign, ← hQ.y_val, ZMod.natCast_zmod_val]
  · rename_i hsame
    rw [ne_eq, not_not] at hsame
    have hY : ((leNat enc.1 % 2 ^ 255 : Nat) : Field25519).val = leNat enc.1 % 2 ^ 255 := by
      rw [← hbytes, hsame, leNat_clearSign]
    generalize ((leNat enc.1 % 2 ^ 255 : Nat) : Field25519) = Y at hy hY
    generalize Fe.fromBytes (clearSign enc) = y at hy
    have hu := hy.square.sub Fe.is_one
    have hv := (is_d.mul hy.square).add Fe.is_one
    have hx := (hu.mul (hv.square.mul hv)).mul (hu.mul ((hv.square.mul hv).square.mul hv)).powP58
    have hxx := hv.mul hx.square
    have hroot := hx.mul Fe.is_sqrtM1
    rw [candidate_eq] at hx hxx hroot
    split
    · rename_i heq
      have heq := (hxx.eq_iff hu).mp heq
      exact withSign_spec hx hy (by rw [pow_two, heq]) hY
    · rename_i hne
      split
      · rename_i heq
        have heq := (hxx.eq_iff hu.neg).mp heq
        exact withSign_spec hroot hy (mul_root_sq sqrtM1_mul_self heq) hY
      · -- neither the candidate nor its multiple is a root, so there is none
        rename_i hneg
        refine ⟨fun p hp => (by cases hp), ?_⟩
        intro _ Q hQ
        have hQy : Q.y = Y := ZMod.val_injective P (hQ.y_val.trans hY.symm)
        have hQx := mul_x_sq Q
        rw [hQy] at hQx
        rcases mul_candidate_sq_of_root (denominator_ne_zero Y) hQx with h | h
        · rw [pow_two (candidate _ _)] at h
          exact hne ((hxx.eq_iff hu).mpr h)
        · rw [pow_two (candidate _ _)] at h
          exact hneg ((hxx.eq_iff hu.neg).mpr h)

end Pelorus.Update.Ed25519
