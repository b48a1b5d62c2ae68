import Pelorus.Lib.EarlyExit
import Pelorus.Update.Ed25519.Edwards
import Pelorus.Update.Sha2
import Pelorus.Update.Trust

/-
  Update/Ed25519/Verify.lean --- verification of a signature
  (`px-update/src/ed25519/mod.rs`), and that it decides the strict equation.

  `Strict` states the rules in terms of points of the curve: nothing in it mentions
  limbs, extended coordinates or the order of the checks.  The hash is a parameter of it;
  the code's own is that of the standard (`Update/Sha2.lean`).
-/
set_option autoImplicit false

namespace Pelorus.Update.Ed25519

open Lib Lib.Bytes

/-- Why a signature was refused. -/
inductive VerifyError where
  | badLength
  | nonCanonicalS
  | badPublicKey
  | smallOrderPublicKey
  | badR
  | smallOrderR
  | mismatch
  deriving DecidableEq, Repr

/-- `try_into` an array. -/
def toArray (n : Nat) (bytes : Bytes) : Except VerifyError (Fixed n) :=
  if h : bytes.length = n then .ok ⟨bytes, h⟩ else .error .badLength

def okOr {α : Type} (o : Option α) (e : VerifyError) : Except VerifyError α :=
  match o with
  | some a => .ok a
  | none => .error e

/-- A public key that is a point of the order of the base point. -/
def readKey (bytes : Fixed 32) : Except VerifyError Point := do
  let a ← okOr (Point.decompress bytes) .badPublicKey
  if a.isSmallOrder then .error .smallOrderPublicKey
  else if ¬ a.isTorsionFree then .error .badPublicKey
  else .ok a

def checkPublicKey (publicKey : Bytes) : Except VerifyError Unit := do
  let bytes ← toArray 32 publicKey
  let _ ← readKey bytes
  .ok ()

def verify (publicKey message signature : Bytes) : Except VerifyError Unit := do
  let aBytes ← toArray 32 publicKey
  let sig ← toArray 64 signature
  let rBytes ← toArray 32 (sig.1.take 32)
  let sBytes ← toArray 32 (sig.1.drop 32)
  if ¬ Limbs.isCanonical sBytes then .error .nonCanonicalS
  else do
    let a ← readKey aBytes
    let r ← okOr (Point.decompress rBytes) .badR
    if r.isSmallOrder then .error .smallOrderR
    else do
      let k := Limbs.reduce (Sha2.sha512 (rBytes.1 ++ aBytes.1 ++ message)).1
      let base ← okOr Point.basepoint .mismatch
      let lhs := base.mulScalar sBytes
      let rhs := r.add (a.mulScalar k)
      if lhs.equals rhs then .ok () else .error .mismatch

/-! ## The base point -/

/-- x of the base point. -/
def baseX : Nat := 15112221349535400772501151409588531511454012693041857206046113283949847762202

/-- y of the base point. -/
def baseY : Nat := 46316835694926478169428394003475163141307993866256225615783033603165251855960

theorem base_onCurve : Edwards.OnCurve curve.d (baseX : Field25519) (baseY : Field25519) := by
  rw [curve_d, onCurve_iff, d_eq]
  have hmod : ((dNat * (baseY * baseY) + 1) * baseX ^ 2 + 1) % P = (baseY * baseY) % P := by norm_num [P, dNat, baseX, baseY]
  have hcast := (ZMod.natCast_eq_natCast_iff' _ _ P).mpr hmod
  push_cast at hcast
  exact eq_sub_of_add_eq hcast

/-- The base point. -/
noncomputable def basePoint : CurvePoint := ⟨baseX, baseY, base_onCurve⟩

theorem encodes_basePoint : Encodes BASEPOINT.1 basePoint := by
  have hx : basePoint.x.val = baseX % P := ZMod.val_natCast P baseX
  have hy : basePoint.y.val = baseY % P := ZMod.val_natCast P baseY
  rw [Encodes, hx, hy]
  decide +kernel

/-! ## The strict rules -/

/-- The key is the encoding of a point of the order of the base point. -/
structure IsKey (publicKey : Bytes) (A : CurvePoint) : Prop where
  length : publicKey.length = 32
  encodes : Encodes publicKey A
  largeOrder : 8 • A ≠ 0
  torsionFree : ORDER • A = 0

/-- A signature is the encoding of R, then S. -/
def signatureR (signature : Bytes) : Bytes := signature.take 32

def signatureS (signature : Bytes) : Nat := leNat (signature.drop 32)

/-- The number a message is bound to the key and to R by. -/
def challenge (hash : Bytes → Bytes) (publicKey message signature : Bytes) : Nat :=
  leNat (hash (signatureR signature ++ publicKey ++ message)) % ORDER

/-- The signature is one of the message by the holder of the key. -/
def Strict (hash : Bytes → Bytes) (publicKey message signature : Bytes) : Prop :=
  signature.length = 64 ∧ signatureS signature < ORDER ∧ ∃ A R : CurvePoint,
    IsKey publicKey A ∧ Encodes (signatureR signature) R ∧ 8 • R ≠ 0 ∧
    signatureS signature • basePoint = R + challenge hash publicKey message signature • A

/-! ## The checks decide them -/

section
variable {α β : Type} {e : VerifyError} {b : β}

theorem okOr_eq_ok {o : Option α} {a : α} : okOr o e = .ok a ↔ o = some a := by
  cases o with
  | none =>
      constructor
      · intro h
        cases h
      · intro h
        cases h
  | some a' => rw [okOr, Except.ok.injEq, Option.some.injEq]

theorem toArray_eq_ok {n : Nat} {bytes : Bytes} {a : Fixed n} : toArray n bytes = .ok a ↔ bytes = a.1 := by
  unfold toArray
  split
  · rw [Except.ok.injEq, Subtype.ext_iff]
  · rename_i hlength
    constructor
    · intro h
      cases h
    · rintro rfl
      exact absurd a.2 hlength

theorem ite_error_eq_ok {c : Prop} [Decidable c] {x : Except VerifyError β} :
    (if c then .error e else x) = .ok b ↔ ¬ c ∧ x = .ok b := by
  by_cases hc : c
  · rw [if_pos hc]
    constructor
    · intro h
      cases h
    · rintro ⟨h, -⟩
      exact absurd hc h
  · rw [if_neg hc]
    exact ⟨fun h => ⟨hc, h⟩, fun h => h.2⟩

theorem ite_ok_eq_ok {c : Prop} [Decidable c] :
    (if c then .ok b else .error e : Except VerifyError β) = .ok b ↔ c := by
  by_cases hc : c
  · rw [if_pos hc]
    exact ⟨fun _ => hc, fun _ => rfl⟩
  · rw [if_neg hc]
    constructor
    · intro h
      cases h
    · intro h
      exact absurd h hc

end

theorem readKey_eq_ok {bytes : Fixed 32} {a : Point} :
    readKey bytes = .ok a ↔ Point.decompress bytes = some a ∧ a.isSmallOrder = false ∧ a.isTorsionFree = true := by
  rw [readKey, bind_eq_ok]
  constructor
  · rintro ⟨p, hread, h⟩
    rw [ite_error_eq_ok, ite_error_eq_ok, not_not, Bool.not_eq_true] at h
    obtain ⟨hsmall, htorsion, hp⟩ := h
    cases hp
    exact ⟨okOr_eq_ok.mp hread, hsmall, htorsion⟩
  · rintro ⟨hread, hsmall, htorsion⟩
    refine ⟨a, okOr_eq_ok.mpr hread, ?_⟩
    rw [ite_error_eq_ok, ite_error_eq_ok, not_not, Bool.not_eq_true]
    exact ⟨hsmall, htorsion, rfl⟩

theorem exists_decompress {bytes : Fixed 32} {Q : CurvePoint} (hQ : Encodes bytes.1 Q) :
    ∃ p, Point.decompress bytes = some p ∧ p.Is Q := by
  cases hread : Point.decompress bytes with
  | none => exact absurd hQ ((Point.decompress_spec bytes).missing hread Q)
  | some p =>
      obtain ⟨Q', hp, hQ'⟩ := (Point.decompress_spec bytes).found p hread
      rw [hQ.unique hQ']
      exact ⟨p, rfl, hp⟩

/-- The constant of the code is read as the base point. -/
theorem basepoint_is : ∃ p, Point.basepoint = some p ∧ p.Is basePoint := exists_decompress encodes_basePoint

theorem isKey_of_readKey {bytes : Fixed 32} {a : Point} (h : readKey bytes = .ok a) :
    ∃ A, a.Is A ∧ IsKey bytes.1 A := by
  obtain ⟨hread, hsmall, htorsion⟩ := readKey_eq_ok.mp h
  obtain ⟨A, ha, hA⟩ := (Point.decompress_spec bytes).found a hread
  refine ⟨A, ha, bytes.2, hA, ?_, ha.isTorsionFree_iff.mp htorsion⟩
  intro hzero
  rw [ha.isSmallOrder_iff.mpr hzero] at hsmall
  cases hsmall

theorem readKey_of_isKey {bytes : Fixed 32} {A : CurvePoint} (h : IsKey bytes.1 A) :
    ∃ a, readKey bytes = .ok a ∧ a.Is A := by
  obtain ⟨a, hread, ha⟩ := exists_decompress h.encodes
  refine ⟨a, readKey_eq_ok.mpr ⟨hread, ?_, ha.isTorsionFree_iff.mpr h.torsionFree⟩, ha⟩
  rw [Bool.eq_false_iff, ne_eq, ha.isSmallOrder_iff]
  exact h.largeOrder

/-- A key is accepted for a key set exactly when signatures can be verified under it. -/
theorem checkPublicKey_eq_ok_iff (publicKey : Bytes) :
    checkPublicKey publicKey = .ok () ↔ ∃ A, IsKey publicKey A := by
  rw [checkPublicKey, bind_eq_ok]
  constructor
  · rintro ⟨bytes, hbytes, h⟩
    obtain ⟨a, hkey, -⟩ := bind_eq_ok.mp h
    obtain ⟨A, -, hA⟩ := isKey_of_readKey hkey
    rw [toArray_eq_ok.mp hbytes]
    exact ⟨A, hA⟩
  · rintro ⟨A, hA⟩
    obtain ⟨a, ha, -⟩ := @readKey_of_isKey ⟨publicKey, hA.length⟩ A hA
    exact ⟨⟨publicKey, hA.length⟩, toArray_eq_ok.mpr rfl, bind_eq_ok.mpr ⟨a, ha, rfl⟩⟩

/-- The last of the checks, on a key and a point that were read. -/
theorem equation_iff {a r base : Point} {A R : CurvePoint} (ha : a.Is A) (hr : r.Is R) (hbase : base.Is basePoint)
    (s : Fixed 32) {hashed : Bytes} (hhashed : hashed.length ≤ 64) :
    (base.mulScalar s).equals (r.add (a.mulScalar (Limbs.reduce hashed))) = true ↔
      leNat s.1 • basePoint = R + (leNat hashed % ORDER) • A := by
  rw [(hbase.mulScalar s).equals_iff (hr.add (ha.mulScalar _)), Limbs.leNat_reduce hhashed]

/-- `verify` accepts exactly what the strict rules allow. -/
theorem verify_eq_ok_iff (publicKey message signature : Bytes) :
    verify publicKey message signature = .ok () ↔ Strict (fun data => (Sha2.sha512 data).1) publicKey message signature := by
  obtain ⟨base, hbase, hbasePoint⟩ := basepoint_is
  rw [verify, bind_eq_ok]
  constructor
  · rintro ⟨aBytes, haBytes, h⟩
    obtain ⟨sig, hsig, h⟩ := bind_eq_ok.mp h
    obtain ⟨rBytes, hrBytes, h⟩ := bind_eq_ok.mp h
    obtain ⟨sBytes, hsBytes, h⟩ := bind_eq_ok.mp h
    rw [ite_error_eq_ok, not_not, Limbs.isCanonical_iff] at h
    obtain ⟨hcanonical, h⟩ := h
    obtain ⟨a, hkey, h⟩ := bind_eq_ok.mp h
    obtain ⟨r, hr, h⟩ := bind_eq_ok.mp h
    rw [ite_error_eq_ok] at h
    obtain ⟨hsmall, h⟩ := h
    obtain ⟨base', hbase', h⟩ := bind_eq_ok.mp h
    cases hbase.symm.trans (okOr_eq_ok.mp hbase')
    have hread := okOr_eq_ok.mp hr
    obtain ⟨A, ha, hA⟩ := isKey_of_readKey hkey
    obtain ⟨R, hrR, hR⟩ := (Point.decompress_spec rBytes).found r hread
    have hequation := (equation_iff ha hrR hbasePoint sBytes (Sha2.sha512 _).2.le).mp (ite_ok_eq_ok.mp h)
    rw [toArray_eq_ok.mp haBytes, toArray_eq_ok.mp hsig]
    have hr32 : signatureR sig.1 = rBytes.1 := toArray_eq_ok.mp hrBytes
    have hs32 : signatureS sig.1 = leNat sBytes.1 := congrArg leNat (toArray_eq_ok.mp hsBytes)
    rw [Strict, challenge, hr32, hs32]
    refine ⟨sig.2, hcanonical, A, R, hA, hR, ?_, hequation⟩
    intro hzero
    exact hsmall (hrR.isSmallOrder_iff.mpr hzero)
  · rintro ⟨hlength, hcanonical, A, R, hA, hR, hlarge, hequation⟩
    have hr32 : (signature.take 32).length = 32 := by
      rw [List.length_take, hlength]
      rfl
    have hs32 : (signature.drop 32).length = 32 := by
      rw [List.length_drop, hlength]
    obtain ⟨a, hkey, ha⟩ := @readKey_of_isKey ⟨publicKey, hA.length⟩ A hA
    obtain ⟨r, hr, hrR⟩ := @exists_decompress ⟨signature.take 32, hr32⟩ R hR
    refine ⟨⟨publicKey, hA.length⟩, toArray_eq_ok.mpr rfl, bind_eq_ok.mpr ⟨⟨signature, hlength⟩, toArray_eq_ok.mpr rfl, ?_⟩⟩
    refine bind_eq_ok.mpr ⟨⟨signature.take 32, hr32⟩, toArray_eq_ok.mpr rfl, ?_⟩
    refine bind_eq_ok.mpr ⟨⟨signature.drop 32, hs32⟩, toArray_eq_ok.mpr rfl, ?_⟩
    rw [ite_error_eq_ok, not_not, Limbs.isCanonical_iff]
    refine ⟨hcanonical, bind_eq_ok.mpr ⟨a, hkey, bind_eq_ok.mpr ⟨r, okOr_eq_ok.mpr hr, ?_⟩⟩⟩
    rw [ite_error_eq_ok, hrR.isSmallOrder_iff]
    refine ⟨hlarge, bind_eq_ok.mpr ⟨base, okOr_eq_ok.mpr hbase, ite_ok_eq_ok.mpr ?_⟩⟩
    exact (equation_iff ha hrR hbasePoint _ (Sha2.sha512 _).2.le).mpr hequation

/-- The string is read as its point, or there is none: no point has the y and the sign. -/
theorem decompress_reads (enc : Fixed 32) :
    (∀ p, Point.decompress enc = some p → ∃! Q, Encodes enc.1 Q ∧ p.Is Q) ∧
    (Point.decompress enc = none ↔ ∀ Q, ¬ Encodes enc.1 Q) := by
  refine ⟨?_, (Point.decompress_spec enc).missing, ?_⟩
  · intro p hread
    obtain ⟨Q, hp, hQ⟩ := (Point.decompress_spec enc).found p hread
    exact ⟨Q, ⟨hQ, hp⟩, fun Q' h => h.1.unique hQ⟩
  · intro hnone
    cases hread : Point.decompress enc with
    | none => rfl
    | some p =>
        obtain ⟨Q, -, hQ⟩ := (Point.decompress_spec enc).found p hread
        exact absurd hQ (hnone Q)

/-- Verification decides the strict equation with the hash of the standard; a point is read
as the one encoded; sums and multiples are those of the curve. -/
theorem verify_decides_strict_equation :
    (∀ publicKey message signature,
      verify publicKey message signature = .ok () ↔ Strict (fun data => (Sha2.sha512 data).1) publicKey message signature) ∧
    (∀ data : Bytes, data.length < 2 ^ 64 → (Sha2.sha512 data).1 = Sha512.digest Sha2.constants data) ∧
    (∀ enc : Fixed 32, (∀ p, Point.decompress enc = some p → ∃! Q, Encodes enc.1 Q ∧ p.Is Q) ∧
      (Point.decompress enc = none ↔ ∀ Q, ¬ Encodes enc.1 Q)) ∧
    (∀ (p o : Point) (Q R : CurvePoint), p.Is Q → o.Is R →
      (p.add o).Is (Q + R) ∧ Edwards.IsSum curve.d Q.x Q.y R.x R.y (Q + R).x (Q + R).y) ∧
    (∀ (p : Point) (Q : CurvePoint) (k : Fixed 32), p.Is Q → (p.mulScalar k).Is (leNat k.1 • Q)) := by
  refine ⟨verify_eq_ok_iff, fun _ => Sha2.sha512_eq, decompress_reads, ?_, ?_⟩
  · intro p o Q R hp ho
    exact ⟨hp.add ho, Edwards.Point.isSum_add Q R⟩
  · intro p Q k hp
    exact hp.mulScalar k

end Pelorus.Update.Ed25519
