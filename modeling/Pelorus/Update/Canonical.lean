import Pelorus.Lib.Collections
import Pelorus.Update.Rules

/-
  Update/Canonical.lean --- a manifest has exactly one text.

  THE RECORD READER.  `Lines.*_ok` say when each step of the parser succeeds, and
  `parseRelease_ok` and `parseRotation_ok` what a whole body was read from; both
  directions of the main theorem use these and never unfold the parser again.

  THE CAPS.  A field that keeps its rule is written in a line of at most 512 bytes,
  and no manifest has more than 27 of them, so neither the line cap, nor the cap on
  lines, nor the cap on the document is ever reached.
-/
set_option autoImplicit false

namespace Pelorus.Update

open Lib Lib.Text

/-! ## Steps of the reader -/

namespace Lines

variable {α : Type}

theorem bind_ok {β : Type} {x : Lines α} {f : α → Lines β} {recs : List Record} {out : β × List Record} : (x >>= f) recs = .ok out ↔
      ∃ a rest, x recs = .ok (a, rest) ∧ f a rest = .ok out := by
  simp only [bind, StateT.bind, Except.bind]
  cases x recs with
  | error e => simp
  | ok p =>
      obtain ⟨a, rest⟩ := p
      simp [Prod.ext_iff, and_assoc, exists_eq_left']

theorem lift_ok {e : Except ParseError α} {recs rest : List Record} {a : α} :
    (liftM e : Lines α) recs = .ok (a, rest) ↔ e = .ok a ∧ rest = recs := by
  cases e with
  | error e => simp [liftM, monadLift, MonadLift.monadLift, StateT.lift, bind, Except.bind]
  | ok b =>
      simp [liftM, monadLift, MonadLift.monadLift, StateT.lift, bind, Except.bind, pure, Except.pure,
        eq_comm]

theorem expect_ok {key : String} {recs rest : List Record} {v : Text} :
    expect key recs = .ok (v, rest) ↔ recs = (key.toList, v) :: rest := by
  cases recs with
  | nil => simp [expect, err]
  | cons p recs =>
      obtain ⟨k, w⟩ := p
      simp only [expect, err]
      split
      · rename_i hk
        simp [hk]
      · rename_i hk
        simp [hk]

theorem refuse_ok {c : Prop} [Decidable c] {why : String} {x : Lines α}
    {recs : List Record} {out : α × List Record} :
    (if c then liftM (err why : Except ParseError α) else x) recs = .ok out ↔
      ¬ c ∧ x recs = .ok out := by
  split
  · rename_i hc
    obtain ⟨a, rest⟩ := out
    simp [lift_ok, err, hc]
  · rename_i hc
    simp [hc]

theorem map_ok {β : Type} {f : α → β} {x : Lines α} {recs rest : List Record} {b : β} :
    (f <$> x) recs = .ok (b, rest) ↔ ∃ a, x recs = .ok (a, rest) ∧ f a = b := by
  simp only [Functor.map, StateT.map, bind, Except.bind, pure, Except.pure]
  cases x recs with
  | error e => simp
  | ok p =>
      obtain ⟨a, rest'⟩ := p
      simp [and_comm]

theorem pure_ok {recs rest : List Record} {a b : α} :
    (pure a : Lines α) recs = .ok (b, rest) ↔ a = b ∧ recs = rest := by
  show (Except.ok (a, recs) : Except ParseError (α × List Record)) = .ok (b, rest) ↔ _
  simp

end Lines

/-! ## Bodies -/

/-- What a release was read from. -/
structure ReleaseRead (recs : List Record) (r : Release) (rest : List Record) : Prop where
  channel : isToken r.channel 16 = true
  keyEpoch : r.keyEpoch ≠ 0
  sequence : r.sequence ≠ 0
  window : Window r.issued r.expires
  fields : ∃ (keyEpoch sequence issued expires version : Text) (files after : List Record),
    recs = ("channel".toList, r.channel) :: ("key-epoch".toList, keyEpoch) ::
      ("sequence".toList, sequence) :: ("issued".toList, issued) :: ("expires".toList, expires) ::
      ("version".toList, version) :: files ∧
    decU32 keyEpoch = .ok r.keyEpoch ∧ decU64 sequence = .ok r.sequence ∧
    decU64 issued = .ok r.issued ∧ decU64 expires = .ok r.expires ∧
    Version.parse version = some r.version ∧
    repeated "artifact" parseArtifact [] files = .ok (r.artifacts, after) ∧
    repeated "data" parseData [] after = .ok (r.data, rest)

variable {recs rest : List Record}
variable {r : Release} {a : Artifact} {d : DataEntry} {v s : Text}

theorem parseRelease_ok : parseRelease recs = .ok (r, rest) ↔ ReleaseRead recs r rest := by
  unfold parseRelease
  simp only [Lines.bind_ok, Lines.expect_ok, Lines.refuse_ok, Lines.lift_ok]
  constructor
  · rintro ⟨channel, _, rfl, hchannel, keyEpoch, _, rfl, epoch, _, ⟨hepoch, rfl⟩, sequence, _, rfl,
      seq, _, ⟨hseq, rfl⟩, issued, _, rfl, iss, _, ⟨hiss, rfl⟩, expires, _, rfl, exp, _,
      ⟨hexp, rfl⟩, version, files, rfl, h⟩
    cases hv : Version.parse version with
    | none => simp [hv, Lines.lift_ok, err] at h
    | some v =>
        simp only [hv, Lines.bind_ok, Lines.refuse_ok, Lines.lift_ok, Lines.pure_ok] at h
        obtain ⟨hpos, _, _, ⟨hvalid, rfl⟩, artifacts, after, hartifacts, data, _, hdata, rfl, rfl⟩ := h
        obtain ⟨hepochPos, hseqPos⟩ := not_or.mp hpos
        exact ⟨not_not.mp hchannel, hepochPos, hseqPos, validity_iff.mp hvalid, keyEpoch, sequence,
          issued, expires, version, _, after, rfl, hepoch, hseq, hiss, hexp, hv, hartifacts, hdata⟩
  · rintro ⟨hchannel, hepochPos, hseqPos, hwindow, keyEpoch, sequence, issued, expires, version, files,
      after, rfl, hepoch, hseq, hiss, hexp, hv, hartifacts, hdata⟩
    refine ⟨_, _, rfl, not_not_intro hchannel, _, _, rfl, _, _, ⟨hepoch, rfl⟩, _, _, rfl, _, _,
      ⟨hseq, rfl⟩, _, _, rfl, _, _, ⟨hiss, rfl⟩, _, _, rfl, _, _, ⟨hexp, rfl⟩, _, _, rfl, ?_⟩
    simp only [hv, Lines.bind_ok, Lines.refuse_ok, Lines.lift_ok, Lines.pure_ok]
    exact ⟨not_or.mpr ⟨hepochPos, hseqPos⟩, (), _, ⟨validity_iff.mpr hwindow, rfl⟩, _, _, hartifacts,
      _, _, hdata, rfl, rfl⟩

/-- What a rotation was read from. -/
structure RotationRead (recs : List Record) (r : Rotation) (rest : List Record) : Prop where
  keyEpoch : ¬ r.keyEpoch < 2
  window : Window r.issued r.expires
  threshold : ¬ (r.keys.isEmpty = true ∨ r.threshold = 0 ∨ r.keys.length < r.threshold.toNat)
  fields : ∃ (keyEpoch issued expires threshold : Text) (wide : UInt32) (keys : List Record),
    recs = ("key-epoch".toList, keyEpoch) :: ("issued".toList, issued) ::
      ("expires".toList, expires) :: ("threshold".toList, threshold) :: keys ∧
    decU32 keyEpoch = .ok r.keyEpoch ∧ decU64 issued = .ok r.issued ∧
    decU64 expires = .ok r.expires ∧ decU32 threshold = .ok wide ∧ wide.toNat < 2 ^ 8 ∧
    wide.toUInt8 = r.threshold ∧ repeated "key" parseKey [] keys = .ok (r.keys, rest)

theorem parseRotation_ok {r : Rotation} :
    parseRotation recs = .ok (r, rest) ↔ RotationRead recs r rest := by
  unfold parseRotation
  simp only [Lines.bind_ok, Lines.expect_ok, Lines.refuse_ok, Lines.lift_ok, Lines.pure_ok]
  constructor
  · rintro ⟨keyEpoch, _, rfl, epoch, _, ⟨hepoch, rfl⟩, issued, _, rfl, iss, _, ⟨hiss, rfl⟩, expires, _,
      rfl, exp, _, ⟨hexp, rfl⟩, threshold, _, rfl, wide, _, ⟨hwide, rfl⟩, hnew, _, _, ⟨hvalid, rfl⟩,
      keys, _, hkeys, hsmall, hthreshold, rfl, rfl⟩
    exact ⟨hnew, validity_iff.mp hvalid, hthreshold, keyEpoch, issued, expires, threshold, wide, _, rfl,
      hepoch, hiss, hexp, hwide, not_not.mp hsmall, rfl, hkeys⟩
  · rintro ⟨hnew, hwindow, hthreshold, keyEpoch, issued, expires, threshold, wide, keys, rfl, hepoch,
      hiss, hexp, hwide, hsmall, hsame, hkeys⟩
    obtain ⟨rEpoch, rIssued, rExpires, rThreshold, rKeys⟩ := r
    subst hsame
    exact ⟨_, _, rfl, _, _, ⟨hepoch, rfl⟩, _, _, rfl, _, _, ⟨hiss, rfl⟩, _, _, rfl, _, _, ⟨hexp, rfl⟩,
      _, _, rfl, _, _, ⟨hwide, rfl⟩, hnew, (), _, ⟨validity_iff.mpr hwindow, rfl⟩, _, _, hkeys,
      not_not_intro hsmall, hthreshold, rfl, rfl⟩

/-- What a manifest was read from, after the format line. -/
def BodyRead (recs : List Record) (m : Manifest) (rest : List Record) : Prop :=
  match m with
  | .release r => ∃ body, recs = ("type".toList, "release".toList) :: body ∧ ReleaseRead body r rest
  | .rotation r => ∃ body, recs = ("type".toList, "rotation".toList) :: body ∧ RotationRead body r rest

variable {m : Manifest}

theorem parseBody_ok :
    Manifest.parseBody recs = .ok (m, rest) ↔ ∃ body,
      recs = ("manifest-format".toList, decimal FORMAT_VERSION) :: body ∧ BodyRead body m rest := by
  unfold Manifest.parseBody
  simp only [Lines.bind_ok, Lines.expect_ok, Lines.refuse_ok]
  constructor
  · rintro ⟨format, body, rfl, hformat, type, after, rfl, h⟩
    refine ⟨_, by rw [not_not.mp hformat], ?_⟩
    split at h
    · rename_i htype
      obtain ⟨r, hr, rfl⟩ := Lines.map_ok.mp h
      exact ⟨after, by rw [htype], parseRelease_ok.mp hr⟩
    · split at h
      · rename_i htype
        obtain ⟨r, hr, rfl⟩ := Lines.map_ok.mp h
        exact ⟨after, by rw [htype], parseRotation_ok.mp hr⟩
      · cases (Lines.lift_ok.mp h).1
  · rintro ⟨body, rfl, hbody⟩
    cases m with
    | release r =>
        obtain ⟨after, rfl, hr⟩ := hbody
        refine ⟨_, _, rfl, not_not_intro rfl, _, _, rfl, ?_⟩
        rw [if_pos rfl]
        exact Lines.map_ok.mpr ⟨r, parseRelease_ok.mpr hr, rfl⟩
    | rotation r =>
        obtain ⟨after, rfl, hr⟩ := hbody
        refine ⟨_, _, rfl, not_not_intro rfl, _, _, rfl, ?_⟩
        rw [if_neg (by decide), if_pos rfl]
        exact Lines.map_ok.mpr ⟨r, parseRotation_ok.mpr hr, rfl⟩

/-! ## Repeated records -/

/-- Items that read back are read back one after another, up to another key. -/
theorem repeated_written {α : Type} {key : String} {item : List α → Text → Except ParseError α}
    {value : α → Text} {rest : List Record} (hrest : ∀ p ∈ rest.head?, p.1 ≠ key.toList) :
    ∀ {items acc : List α},
      (∀ before a after, acc ++ items = before ++ a :: after → item before (value a) = .ok a) →
      repeated key item acc (items.map (fun a => (key.toList, value a)) ++ rest) =
        .ok (acc ++ items, rest)
  | [], acc, _ => by
      cases rest with
      | nil => simp [repeated]
      | cons p rest =>
          obtain ⟨k, v⟩ := p
          have hne : k ≠ key.toList := hrest (k, v) rfl
          simp [repeated, hne]
  | a :: items, acc, hitem => by
      have hfirst := hitem acc a items rfl
      have ih := @repeated_written α key item value rest hrest items (acc ++ [a]) (by
        simpa using hitem)
      simp only [List.map_cons, List.cons_append, repeated, if_true, hfirst]
      simpa using ih

theorem repeated_keeps {α : Type} {key : String} {item : List α → Text → Except ParseError α}
    {P : List α → Prop} (hstep : ∀ acc v a, P acc → item acc v = .ok a → P (acc ++ [a])) :
    ∀ {recs : List Record} {acc out : List α} {rest : List Record},
      repeated key item acc recs = .ok (out, rest) → P acc → P out
  | [], acc, out, rest, h, hacc => by
      cases h
      exact hacc
  | (k, v) :: recs, acc, out, rest, h, hacc => by
      unfold repeated at h
      split at h
      · cases hitem : item acc v with
        | error e =>
            rw [hitem] at h
            cases h
        | ok a =>
            rw [hitem] at h
            exact repeated_keeps hstep h (hstep acc v a hacc hitem)
      · cases h
        exact hacc

/-! ## Items -/

def artifactValue (a : Artifact) : Text := a.platform ++ ' ' :: fileFields a.file

def dataValue (d : DataEntry) : Text :=
  d.kind.name ++ ' ' :: (decimal d.version.toNat ++ ' ' :: fileFields d.file)

theorem any_eq_false {α : Type} {o : Option α} {p : α → Bool} : o.any p = false ↔ ∀ a ∈ o, p a = false := by
  cases o with
  | none => simp
  | some a => simp

theorem splitOn_artifactValue (h : a.Valid) : (artifactValue a).splitOn ' ' =
    [a.platform, decimal a.file.size.toNat, Hex.encode a.file.sha256.1, Hex.encode a.file.sha512.1,
      a.file.path] := by
  have hled := @splitOn_led _ _ ' ' a.platform
    [decimal a.file.size.toNat, Hex.encode a.file.sha256.1, Hex.encode a.file.sha512.1, a.file.path]
    (graphic_of_isToken h.platform).no_space (by
      simp [(graphic_decimal _).no_space, (graphic_encode _).no_space,
        (graphic_of_validPath h.file.path).no_space])
  simpa [artifactValue, fileFields] using hled

theorem splitOn_dataValue (h : d.Valid) : (dataValue d).splitOn ' ' =
    [d.kind.name, decimal d.version.toNat, decimal d.file.size.toNat, Hex.encode d.file.sha256.1,
      Hex.encode d.file.sha512.1, d.file.path] := by
  have hled := @splitOn_led _ _ ' ' d.kind.name
    [decimal d.version.toNat, decimal d.file.size.toNat, Hex.encode d.file.sha256.1,
      Hex.encode d.file.sha512.1, d.file.path]
    (graphic_name _).no_space (by
      simp [(graphic_decimal _).no_space, (graphic_encode _).no_space,
        (graphic_of_validPath h.file.path).no_space])
  simpa [dataValue, fileFields] using hled

theorem parseArtifact_written {acc : List Artifact} (h : a.Valid)
    (hcount : acc.length < MAX_ARTIFACTS) (hlast : ∀ p ∈ acc.getLast?, p.platform < a.platform) :
    parseArtifact acc (artifactValue a) = .ok a := by
  have hany : (acc.getLast?.any fun p => ¬ p.platform < a.platform) = false :=
    any_eq_false.mpr fun p hp => by simpa using hlast p hp
  rw [parseArtifact, if_neg (Nat.not_le.mpr hcount), splitOn_artifactValue h]
  simp only [h.platform, not_true, if_false, hany, Bool.false_eq_true, fileRef_written h.file, bind,
    Except.bind]

theorem parseArtifact_ok {acc : List Artifact} (h : parseArtifact acc v = .ok a) :
    a.Valid ∧ acc.length < MAX_ARTIFACTS ∧ ∀ p ∈ acc.getLast?, p.platform < a.platform := by
  unfold parseArtifact at h
  split at h
  · cases h
  · rename_i hcount
    split at h
    · split at h
      · cases h
      · rename_i hplatform
        split at h
        · cases h
        · rename_i hany
          cases hfile : fileRef _ _ _ _ MAX_ARTIFACT_SIZE with
          | error e =>
              rw [hfile] at h
              cases h
          | ok file =>
              rw [hfile] at h
              cases h
              refine ⟨⟨not_not.mp hplatform, valid_of_fileRef hfile⟩, Nat.not_le.mp hcount, ?_⟩
              intro p hp
              simpa using any_eq_false.mp (Bool.eq_false_iff.mpr hany) p hp
    · cases h

theorem parseData_written {acc : List DataEntry} (h : d.Valid)
    (hlast : ∀ p ∈ acc.getLast?, p.kind.rank < d.kind.rank) :
    parseData acc (dataValue d) = .ok d := by
  have hany : (acc.getLast?.any fun p => d.kind.rank ≤ p.kind.rank) = false :=
    any_eq_false.mpr fun p hp => by simpa using hlast p hp
  rw [parseData, splitOn_dataValue h]
  simp only [DataKind.parse_name, hany, Bool.false_eq_true, if_false, decU32_decimal, h.version,
    fileRef_written h.file, bind, Except.bind]

theorem parseData_ok {acc : List DataEntry} (h : parseData acc v = .ok d) :
    d.Valid ∧ ∀ p ∈ acc.getLast?, p.kind.rank < d.kind.rank := by
  unfold parseData at h
  split at h
  · split at h
    · cases h
    · split at h
      · cases h
      · rename_i hany
        cases hversion : decU32 _ with
        | error e =>
            rw [hversion] at h
            cases h
        | ok version =>
            rw [hversion] at h
            simp only [bind, Except.bind] at h
            split at h
            · cases h
            · rename_i hdate
              cases hfile : fileRef _ _ _ _ MAX_DATA_SIZE with
              | error e =>
                  rw [hfile] at h
                  cases h
              | ok file =>
                  rw [hfile] at h
                  cases h
                  refine ⟨⟨hdate, valid_of_fileRef hfile⟩, ?_⟩
                  intro p hp
                  simpa using any_eq_false.mp (Bool.eq_false_iff.mpr hany) p hp
  · cases h

theorem parseKey_written {acc : List (Fixed 32)} {k : Fixed 32} (hcount : acc.length < MAX_KEYS)
    (hlast : ∀ p ∈ acc.getLast?, p.1 < k.1) : parseKey acc (Hex.encode k.1) = .ok k := by
  have hany : (acc.getLast?.any fun p => ¬ p.1 < k.1) = false :=
    any_eq_false.mpr fun p hp => by simpa using hlast p hp
  rw [parseKey, if_neg (Nat.not_le.mpr hcount), Hex.decodeFixed_encode]
  simp only [hany, Bool.false_eq_true, if_false]

theorem parseKey_ok {acc : List (Fixed 32)} {k : Fixed 32} (h : parseKey acc v = .ok k) :
    acc.length < MAX_KEYS ∧ ∀ p ∈ acc.getLast?, p.1 < k.1 := by
  unfold parseKey at h
  split at h
  · cases h
  · rename_i hcount
    split at h
    · cases h
    · split at h
      · cases h
      · rename_i hany
        cases h
        refine ⟨Nat.not_le.mp hcount, ?_⟩
        intro p hp
        simpa using any_eq_false.mp (Bool.eq_false_iff.mpr hany) p hp

/-! ## Bodies that keep the rules -/

theorem valid_of_releaseRead (h : ReleaseRead recs r rest) : r.Valid := by
  obtain ⟨-, -, -, -, version, files, after, -, -, -, -, -, hversion, hartifacts, hdata⟩ := h.fields
  have ha := repeated_keeps (P := fun l => l.length ≤ MAX_ARTIFACTS ∧ (∀ a ∈ l, a.Valid) ∧
      l.Pairwise fun a b : Artifact => a.platform < b.platform) (by
    rintro acc v a ⟨-, hvalid, hsorted⟩ hitem
    obtain ⟨ha, hcount, hlast⟩ := parseArtifact_ok hitem
    refine ⟨by rw [List.length_append]; exact hcount, ?_,
      pairwise_concat hsorted (fun _ _ _ => List.lt_trans) hlast⟩
    simpa [or_imp, forall_and] using ⟨hvalid, ha⟩) hartifacts
    ⟨Nat.zero_le _, fun a ha => absurd ha List.not_mem_nil, List.Pairwise.nil⟩
  have hd := repeated_keeps (P := fun l => (∀ d ∈ l, d.Valid) ∧
      l.Pairwise fun d e : DataEntry => d.kind.rank < e.kind.rank) (by
    rintro acc v d ⟨hvalid, hsorted⟩ hitem
    obtain ⟨hd, hlast⟩ := parseData_ok hitem
    refine ⟨?_, pairwise_concat hsorted (fun _ _ _ => Nat.lt_trans) hlast⟩
    simpa [or_imp, forall_and] using ⟨hvalid, hd⟩) hdata
    ⟨fun d hd => absurd hd List.not_mem_nil, List.Pairwise.nil⟩
  exact {
    channel := h.channel
    keyEpoch := UInt32.pos_iff_ne_zero.mpr h.keyEpoch
    sequence := UInt64.pos_iff_ne_zero.mpr h.sequence
    window := h.window
    version := Version.valid_of_parse hversion
    count := ha.1
    artifacts := ha.2.1
    platforms := ha.2.2
    data := hd.1
    kinds := hd.2 }

theorem valid_of_rotationRead {r : Rotation} (h : RotationRead recs r rest) : r.Valid := by
  obtain ⟨-, -, -, -, wide, keys, -, -, -, -, -, -, -, hkeys⟩ := h.fields
  have hk := repeated_keeps (P := fun l => l.length ≤ MAX_KEYS ∧
      l.Pairwise fun k l : Fixed 32 => k.1 < l.1) (by
    rintro acc v k ⟨-, hsorted⟩ hitem
    obtain ⟨hcount, hlast⟩ := parseKey_ok hitem
    exact ⟨by rw [List.length_append]; exact hcount,
      pairwise_concat hsorted (fun _ _ _ => List.lt_trans) hlast⟩) hkeys
    ⟨Nat.zero_le _, List.Pairwise.nil⟩
  obtain ⟨-, hzero, hle⟩ := not_or.mp h.threshold |>.imp_right not_or.mp
  exact {
    keyEpoch := UInt32.not_lt.mp h.keyEpoch
    window := h.window
    count := hk.1
    keys := hk.2
    threshold_pos := UInt8.pos_iff_ne_zero.mpr hzero
    threshold_le := Nat.not_lt.mp hle }

theorem valid_of_bodyRead (h : BodyRead recs m rest) : m.Valid := by
  cases m with
  | release r =>
      obtain ⟨body, -, hr⟩ := h
      exact valid_of_releaseRead hr
  | rotation r =>
      obtain ⟨body, -, hr⟩ := h
      exact valid_of_rotationRead hr

/-! ## What is written reads back -/

/-- The fields of a manifest: the key and the value of every line after the first. -/
def Manifest.fields : Manifest → List (String × Text)
  | .release r =>
      [("type", "release".toList), ("channel", r.channel), ("key-epoch", decimal r.keyEpoch.toNat),
        ("sequence", decimal r.sequence.toNat), ("issued", decimal r.issued.toNat),
        ("expires", decimal r.expires.toNat), ("version", r.version.text)] ++
      r.artifacts.map (fun a => ("artifact", artifactValue a)) ++
      r.data.map fun d => ("data", dataValue d)
  | .rotation r =>
      [("type", "rotation".toList), ("key-epoch", decimal r.keyEpoch.toNat),
        ("issued", decimal r.issued.toNat), ("expires", decimal r.expires.toNat),
        ("threshold", decimal r.threshold.toNat)] ++
      r.keys.map fun k => ("key", Hex.encode k.1)

theorem body_eq (m : Manifest) : m.body = m.fields.map fun f => line f.1 f.2 := by
  cases m with
  | release r => simp [Manifest.body, Manifest.fields, artifactValue, dataValue, Function.comp_def]
  | rotation r => simp [Manifest.body, Manifest.fields, Function.comp_def]

/-- The record of a field. -/
def record (f : String × Text) : Record := (f.1.toList, f.2)

theorem repeated_artifacts (h : r.Valid) :
    repeated "artifact" parseArtifact [] (r.artifacts.map (fun a => ("artifact".toList, artifactValue a)) ++
      r.data.map fun d => ("data".toList, dataValue d)) =
      .ok (r.artifacts, r.data.map fun d => ("data".toList, dataValue d)) := by
  refine @repeated_written _ "artifact" parseArtifact artifactValue _ ?_ r.artifacts [] ?_
  · intro p hp
    cases hdata : r.data with
    | nil => simp [hdata] at hp
    | cons d data =>
        simp only [hdata, List.map_cons, List.head?_cons, Option.mem_some_iff] at hp
        rw [← hp]
        exact show "data".toList ≠ "artifact".toList by decide
  · intro before a after heq
    rw [List.nil_append] at heq
    refine parseArtifact_written (h.artifacts a (by simp [heq])) ?_ ?_
    · have hcount := h.count
      rw [heq, List.length_append, List.length_cons] at hcount
      omega
    · exact rel_getLast_of_pairwise (heq ▸ h.platforms)

theorem repeated_data (h : r.Valid) :
    repeated "data" parseData [] (r.data.map fun d => ("data".toList, dataValue d)) =
      .ok (r.data, []) := by
  have hread := @repeated_written _ "data" parseData dataValue [] (by simp) r.data [] (by
    intro before d after heq
    rw [List.nil_append] at heq
    exact parseData_written (h.data d (by simp [heq])) (rel_getLast_of_pairwise (heq ▸ h.kinds)))
  simpa using hread

theorem repeated_keys {r : Rotation} (h : r.Valid) :
    repeated "key" parseKey [] (r.keys.map fun k => ("key".toList, Hex.encode k.1)) =
      .ok (r.keys, []) := by
  have hread := @repeated_written _ "key" parseKey (fun k => Hex.encode k.1) [] (by simp) r.keys [] (by
    intro before k after heq
    rw [List.nil_append] at heq
    refine parseKey_written ?_ (rel_getLast_of_pairwise (heq ▸ h.keys))
    have hcount := h.count
    rw [heq, List.length_append, List.length_cons] at hcount
    omega)
  simpa using hread

theorem bodyRead_written (h : m.Valid) : BodyRead (m.fields.map record) m [] := by
  cases m with
  | release r =>
      have hr : r.Valid := h
      refine ⟨_, rfl, hr.channel, UInt32.pos_iff_ne_zero.mp hr.keyEpoch,
        UInt64.pos_iff_ne_zero.mp hr.sequence, hr.window, ?_⟩
      refine ⟨_, _, _, _, _, _, r.data.map fun d => ("data".toList, dataValue d), rfl,
        decU32_decimal _, decU64_decimal _, decU64_decimal _, decU64_decimal _,
        Version.parse_text hr.version, ?_, repeated_data hr⟩
      simpa [Function.comp_def, record] using repeated_artifacts hr
  | rotation r =>
      have hr : r.Valid := h
      have hempty : r.keys.isEmpty = false := by
        have hpos := UInt8.le_iff_toNat_le.mp hr.threshold_pos
        have hle := hr.threshold_le
        cases hkeys : r.keys with
        | nil =>
            rw [hkeys, List.length_nil] at hle
            have hone : (1 : UInt8).toNat = 1 := rfl
            omega
        | cons => rfl
      have hwide : decU32 (decimal r.threshold.toNat) = .ok r.threshold.toUInt32 := by
        rw [← decU32_decimal r.threshold.toUInt32, UInt8.toNat_toUInt32]
      refine ⟨_, rfl, UInt32.not_lt.mpr hr.keyEpoch, hr.window, ?_, ?_⟩
      · rintro (h | h | h)
        · rw [hempty] at h
          cases h
        · exact UInt8.pos_iff_ne_zero.mp hr.threshold_pos h
        · exact absurd hr.threshold_le (Nat.not_le.mpr h)
      · refine ⟨_, _, _, _, r.threshold.toUInt32, _, rfl, decU32_decimal _, decU64_decimal _,
          decU64_decimal _, hwide, ?_, ?_, ?_⟩
        · rw [UInt8.toNat_toUInt32]
          exact r.threshold.toNat_lt
        · simp
        · simpa [Function.comp_def, record] using repeated_keys hr

/-! ## Lines -/

/-- Every character is graphic or a space. -/
def Printable (s : Text) : Prop := ∀ c ∈ s, isPrintable c = true

instance (s : Text) : Decidable (Printable s) :=
  decidable_of_iff (s.all isPrintable = true) List.all_eq_true

theorem Graphic.printable (h : Graphic s) : Printable s := fun c hc => by
  simp [isPrintable, h c hc]

theorem Printable.spaced {t : Text} (hs : Printable s) (ht : Printable t) : Printable (s ++ ' ' :: t) := by
  intro c hc
  rcases List.mem_append.mp hc with hc | hc
  · exact hs c hc
  · rcases List.mem_cons.mp hc with rfl | hc
    · rfl
    · exact ht c hc

/-- A field whose line the parser takes apart. -/
structure Writable (f : String × Text) : Prop where
  key_ne : f.1.toList ≠ []
  key : Graphic f.1.toList
  value_ne : f.2 ≠ []
  value : Printable f.2
  length : f.1.toList.length + 1 + f.2.length ≤ MAX_LINE_BYTES

theorem Writable.printable {f : String × Text} (h : Writable f) : Printable (line f.1 f.2) :=
  h.key.printable.spaced h.value

theorem length_line (f : String × Text) : (line f.1 f.2).length = f.1.toList.length + 1 + f.2.length := by
  simp only [line, List.length_append, List.length_cons]
  omega

theorem isAscii_of_printable (h : ∀ c ∈ s, isPrintable c = true ∨ c = '\n') : s.isAscii = true := by
  refine List.all_eq_true.mpr fun c hc => ?_
  rcases h c hc with hprint | rfl
  · exact decide_eq_true (show c.val.toNat ≤ 127 from
      Nat.le_trans (isPrintable_iff.mp hprint).2 (by decide))
  · rfl

theorem records_written : ∀ {fs : List (String × Text)} {n : Nat}, (∀ f ∈ fs, Writable f) →
    n + fs.length ≤ MAX_LINES →
    records n (fs.map fun f => line f.1 f.2) = .ok (fs.map record)
  | [], _, _, _ => rfl
  | f :: fs, n, hfs, hcount => by
      have hf : Writable f := hfs f (by simp)
      rw [List.length_cons] at hcount
      have ih := @records_written fs (n + 1) (fun g hg => hfs g (by simp [hg])) (by omega)
      have hlen : (line f.1 f.2).len ≤ MAX_LINE_BYTES := by
        rw [len_of_isAscii (isAscii_of_printable fun c hc => Or.inl (hf.printable c hc)), length_line]
        exact hf.length
      have hsplit : splitOnce ' ' (line f.1 f.2) = some (f.1.toList, f.2) :=
        splitOnce_append hf.key.no_space f.2
      have hparts : ¬ (f.1.toList.isEmpty = true ∨ f.2.isEmpty = true) := by
        simpa using ⟨by simpa using hf.key_ne, hf.value_ne⟩
      rw [List.map_cons, records, if_neg (by omega), if_neg (Nat.not_lt.mpr hlen), hsplit]
      simp only [hparts, if_false, ih, bind, Except.bind]
      rfl

/-- A short key of graphic characters. -/
def shortKey (key : String) : Bool :=
  !key.toList.isEmpty && key.toList.all isGraphic && key.toList.length ≤ 15

theorem writable_of_length {key : String} (hkey : shortKey key = true) (hne : v ≠ [])
    (hv : Printable v) (hlen : v.length ≤ 496) : Writable (key, v) := by
  simp only [shortKey, Bool.and_eq_true, Bool.not_eq_true', List.isEmpty_eq_false_iff,
    decide_eq_true_eq] at hkey
  refine ⟨hkey.1.1, List.all_eq_true.mp hkey.1.2, hne, hv, ?_⟩
  have hmax : MAX_LINE_BYTES = 512 := rfl
  have hkeyLen := hkey.2
  simp only [hmax]
  omega

theorem writable_decimal {key : String} (hkey : shortKey key = true) {n : Nat} (hn : n < 2 ^ 64) :
    Writable (key, decimal n) := by
  have hlen := @length_decimal_le n 20 (by decide) (Nat.lt_of_lt_of_le hn (by decide))
  exact writable_of_length hkey Nat.toDigits_ne_nil (graphic_decimal n).printable (by omega)

theorem length_versionText_le {v : Version} (h : v.Valid) : v.text.length ≤ 29 := by
  have hmajor := length_decimal_le (by decide) h.major
  have hminor := length_decimal_le (by decide) h.minor
  have hpatch := length_decimal_le (by decide) h.patch
  simp only [decimal] at hmajor hminor hpatch
  simp only [Version.text, List.length_append, List.length_cons]
  omega

theorem printable_fileFields {cap : UInt64} {f : FileRef} (h : f.Valid cap) : Printable (fileFields f) :=
  (graphic_decimal _).printable.spaced ((graphic_encode _).printable.spaced
    ((graphic_encode _).printable.spaced (graphic_of_validPath h.path).printable))

theorem writable_artifact (h : a.Valid) : Writable ("artifact", artifactValue a) := by
  have hplatform := length_of_isToken h.platform
  have hfile := length_fileFields_le h.file
  refine writable_of_length (by decide) ?_ ?_ ?_
  · simp [artifactValue]
  · exact (graphic_of_isToken h.platform).printable.spaced (printable_fileFields h.file)
  · simp only [artifactValue, List.length_append, List.length_cons]
    omega

theorem writable_data (h : d.Valid) : Writable ("data", dataValue d) := by
  have hversion := @length_decimal_le d.version.toNat 10 (by decide)
    (Nat.lt_of_lt_of_le d.version.toNat_lt (by decide))
  have hfile := length_fileFields_le h.file
  have hname : d.kind.name.length ≤ 5 := by cases d.kind <;> decide
  refine writable_of_length (by decide) ?_ ?_ ?_
  · simp [dataValue]
  · exact (graphic_name _).printable.spaced ((graphic_decimal _).printable.spaced
      (printable_fileFields h.file))
  · simp only [dataValue, List.length_append, List.length_cons]
    omega

theorem writable_key (k : Fixed 32) : Writable ("key", Hex.encode k.1) := by
  have hlen : (Hex.encode k.1).length = 64 := by rw [Hex.length_encode, k.2]
  refine writable_of_length (by decide) ?_ (graphic_encode _).printable (by omega)
  intro hnil
  rw [hnil] at hlen
  cases hlen

theorem u32_lt (n : UInt32) : n.toNat < 2 ^ 64 := Nat.lt_of_lt_of_le n.toNat_lt (by decide)

theorem writable_fields (h : m.Valid) : ∀ f ∈ m.fields, Writable f := by
  cases m with
  | release r =>
      have hr : r.Valid := h
      have hchannel := length_of_isToken hr.channel
      have hversion := length_versionText_le hr.version
      simp only [Manifest.fields, List.mem_append, List.mem_cons, List.mem_map, List.not_mem_nil,
        or_false]
      rintro f ((hf | ⟨a, ha, rfl⟩) | ⟨d, hd, rfl⟩)
      · rcases hf with rfl | rfl | rfl | rfl | rfl | rfl | rfl
        · exact ⟨by decide, by decide, by decide, by decide, by decide⟩
        · exact writable_of_length (by decide) hchannel.1 (graphic_of_isToken hr.channel).printable
            (by omega)
        · exact writable_decimal (by decide) (u32_lt _)
        · exact writable_decimal (by decide) r.sequence.toNat_lt
        · exact writable_decimal (by decide) r.issued.toNat_lt
        · exact writable_decimal (by decide) r.expires.toNat_lt
        · exact writable_of_length (by decide) (by simp [Version.text]) (graphic_version _).printable
            (by omega)
      · exact writable_artifact (hr.artifacts a ha)
      · exact writable_data (hr.data d hd)
  | rotation r =>
      simp only [Manifest.fields, List.mem_append, List.mem_cons, List.mem_map, List.not_mem_nil,
        or_false]
      rintro f (hf | ⟨k, hk, rfl⟩)
      · rcases hf with rfl | rfl | rfl | rfl | rfl
        · exact ⟨by decide, by decide, by decide, by decide, by decide⟩
        · exact writable_decimal (by decide) (u32_lt _)
        · exact writable_decimal (by decide) r.issued.toNat_lt
        · exact writable_decimal (by decide) r.expires.toNat_lt
        · exact writable_decimal (by decide) (Nat.lt_of_lt_of_le r.threshold.toNat_lt (by decide))
      · exact writable_key k

/-- There are three kinds of data. -/
theorem length_data_le (h : r.Valid) : r.data.length ≤ 3 := by
  have hnodup : (r.data.map fun d => d.kind.rank).Nodup :=
    List.pairwise_map.mpr (h.kinds.imp fun hlt => Nat.ne_of_lt hlt)
  have hsub : (r.data.map fun d => d.kind.rank) ⊆ List.range 3 := by
    intro n hn
    obtain ⟨d, -, rfl⟩ := List.mem_map.mp hn
    cases d.kind <;> decide
  simpa using (List.subperm_of_subset hnodup hsub).length_le

theorem length_fields_le (h : m.Valid) : m.fields.length ≤ 26 := by
  cases m with
  | release r =>
      have hr : r.Valid := h
      have hdata := length_data_le hr
      have hcount : r.artifacts.length ≤ 16 := hr.count
      simp only [Manifest.fields, List.length_append, List.length_cons, List.length_nil,
        List.length_map]
      omega
  | rotation r =>
      have hr : r.Valid := h
      have hcount : r.keys.length ≤ 8 := hr.count
      simp only [Manifest.fields, List.length_append, List.length_cons, List.length_nil,
        List.length_map]
      omega

/-! ## The document -/

/-- All fields, the format line included. -/
def Manifest.allFields (m : Manifest) : List (String × Text) :=
  ("manifest-format", decimal FORMAT_VERSION) :: m.fields

theorem encode_eq (m : Manifest) :
    m.encode = (m.allFields.map fun f => line f.1 f.2).flatMap fun l => l ++ ['\n'] := by
  rw [Manifest.encode, body_eq]
  rfl

theorem writable_allFields (h : m.Valid) : ∀ f ∈ m.allFields, Writable f := by
  intro f hf
  rcases List.mem_cons.mp hf with rfl | hf
  · exact writable_decimal (by decide) (by decide)
  · exact writable_fields h f hf

theorem length_allFields_le (h : m.Valid) : m.allFields.length ≤ 27 := by
  have hfields := length_fields_le h
  rw [Manifest.allFields, List.length_cons]
  omega

theorem mem_encode_cases {m : Manifest} (h : m.Valid) {c : Char} (hc : c ∈ m.encode) :
    isPrintable c = true ∨ c = '\n' := by
  rw [encode_eq] at hc
  obtain ⟨l, hl, hc⟩ := List.mem_flatMap.mp hc
  obtain ⟨f, hf, rfl⟩ := List.mem_map.mp hl
  rcases List.mem_append.mp hc with hc | hc
  · exact Or.inl ((writable_allFields h f hf).printable c hc)
  · exact Or.inr (List.mem_singleton.mp hc)

theorem length_encode_le {fs : List (String × Text)} (h : ∀ f ∈ fs, Writable f) :
    ((fs.map fun f => line f.1 f.2).flatMap fun l => l ++ ['\n']).length ≤ 513 * fs.length := by
  induction fs with
  | nil => exact Nat.zero_le _
  | cons f fs ih =>
      have hrest := ih fun g hg => h g (by simp [hg])
      have hfirst : f.1.toList.length + 1 + f.2.length ≤ 512 := (h f (by simp)).length
      simp only [List.map_cons, List.flatMap_cons, List.length_append, length_line, List.length_cons,
        List.length_nil]
      omega

/-- No cap refuses the encoding of a manifest that keeps the rules. -/
theorem length_utf8_encode_le (h : m.Valid) : m.encode.utf8.length ≤ MAX_MANIFEST_BYTES := by
  have hascii := isAscii_of_printable fun c hc => @mem_encode_cases m h c hc
  have hlen : m.encode.utf8.length = m.encode.length := len_of_isAscii hascii
  have hbytes := length_encode_le (writable_allFields h)
  have hcount := length_allFields_le h
  have hmax : MAX_MANIFEST_BYTES = 16384 := rfl
  rw [hlen, encode_eq, hmax]
  omega

theorem bytes_encode (h : m.Valid) :
    (m.encode.utf8.all fun b => b = 0x0a || (0x20 ≤ b && b ≤ 0x7e)) = true := by
  have hascii := isAscii_of_printable fun c hc => @mem_encode_cases m h c hc
  rw [utf8_of_isAscii hascii]
  refine List.all_eq_true.mpr fun b hb => ?_
  obtain ⟨c, hc, rfl⟩ := List.mem_map.mp hb
  rcases mem_encode_cases h hc with hprint | rfl
  · obtain ⟨hlow, hhigh⟩ := isPrintable_iff.mp hprint
    have hnat : (UInt8.ofNat c.toNat).toNat = c.toNat := by
      rw [UInt8.toNat_ofNat']
      omega
    have hlow' : (0x20 : UInt8) ≤ UInt8.ofNat c.toNat := by
      rw [UInt8.le_iff_toNat_le, hnat]
      exact hlow
    have hhigh' : UInt8.ofNat c.toNat ≤ 0x7e := by
      rw [UInt8.le_iff_toNat_le, hnat]
      exact hhigh
    simp [hlow', hhigh']
  · rfl

theorem splitOn_body (h : m.Valid) : ∃ body,
    stripSuffix m.encode ['\n'] = some body ∧
      body.splitOn '\n' = m.allFields.map fun f => line f.1 f.2 := by
  have hno : ∀ l ∈ m.allFields.map fun f => line f.1 f.2, '\n' ∉ l := by
    intro l hl hmem
    obtain ⟨f, hf, rfl⟩ := List.mem_map.mp hl
    exact absurd ((writable_allFields h f hf).printable _ hmem) (by decide)
  rw [encode_eq, Manifest.allFields, List.map_cons] at *
  rw [flatMap_ended, stripSuffix_append]
  refine ⟨_, rfl, splitOn_led '\n' (hno _ (by simp)) fun p hp => hno p ?_⟩
  exact List.mem_cons_of_mem _ hp

/-- The encoding of a manifest that keeps the rules is accepted, as that manifest. -/
theorem parse_encode (h : m.Valid) : Manifest.parse m.encode.utf8 = .ok m := by
  obtain ⟨body, hstrip, hsplit⟩ := splitOn_body h
  have hcount := length_allFields_le h
  have hmax : MAX_LINES = 64 := rfl
  have hrecords := records_written (writable_allFields h) (show 0 + m.allFields.length ≤ MAX_LINES by
    omega)
  have hbody : Manifest.parseBody (m.allFields.map record) = .ok (m, []) :=
    parseBody_ok.mpr ⟨_, rfl, bodyRead_written h⟩
  have hne : ¬ m.encode.utf8.isEmpty = true := by
    rw [List.isEmpty_iff, utf8_eq_nil, encode_eq]
    simp [Manifest.allFields]
  rw [Manifest.parse, if_neg hne, if_neg (Nat.not_lt.mpr (length_utf8_encode_le h)),
    if_neg (not_not_intro (bytes_encode h)), fromUtf8_utf8]
  simp only [hstrip, hsplit, hrecords, StateT.run, hbody, bind, Except.bind, List.isEmpty_nil,
    not_true, if_false, ne_eq]

/-- What is accepted is the encoding of what was read, which keeps the rules. -/
theorem encode_of_parse {bytes : Bytes} (h : Manifest.parse bytes = .ok m) :
    m.encode.utf8 = bytes ∧ m.Valid := by
  unfold Manifest.parse at h
  split at h
  · cases h
  · split at h
    · cases h
    · split at h
      · cases h
      · split at h
        · cases h
        · split at h
          · cases h
          · cases hrecords : records 0 _ with
            | error e =>
                rw [hrecords] at h
                cases h
            | ok recs =>
                rw [hrecords] at h
                simp only [bind, Except.bind] at h
                cases hbody : Manifest.parseBody recs with
                | error e =>
                    rw [StateT.run, hbody] at h
                    cases h
                | ok p =>
                    obtain ⟨m', rest⟩ := p
                    rw [StateT.run, hbody] at h
                    simp only at h
                    split at h
                    · cases h
                    · split at h
                      · cases h
                      · rename_i hencode
                        cases h
                        obtain ⟨body, -, hread⟩ := parseBody_ok.mp hbody
                        exact ⟨not_not.mp hencode, valid_of_bodyRead hread⟩

/-- THE TEXT IS CANONICAL.  A manifest that keeps the field rules is written as a document
that parses as this manifest, whatever its size; a document that parses is the encoding
of a manifest that keeps the rules; so one manifest has one document. -/
theorem manifest_canonical :
    (∀ m : Manifest, m.Valid → Manifest.parse m.encode.utf8 = .ok m) ∧
    (∀ (bytes : Bytes) (m : Manifest), Manifest.parse bytes = .ok m →
      m.encode.utf8 = bytes ∧ m.Valid) ∧
    ∀ (bytes bytes' : Bytes) (m m' : Manifest), Manifest.parse bytes = .ok m →
      Manifest.parse bytes' = .ok m' → bytes ≠ bytes' → m ≠ m' := by
  refine ⟨fun m h => parse_encode h, fun bytes m h => encode_of_parse h, ?_⟩
  intro bytes bytes' m m' h h' hne heq
  apply hne
  rw [← (encode_of_parse h).1, ← (encode_of_parse h').1, heq]

/-- A rotation to one key, at the epoch after the first. -/
def sampleRotation : Manifest :=
  .rotation { keyEpoch := 2, issued := 1, expires := 2, threshold := 1, keys := [⟨List.replicate 32 7, rfl⟩] }

theorem manifest_canonical_rotation : Manifest.parse sampleRotation.encode.utf8 = .ok sampleRotation := by
  refine manifest_canonical.1 sampleRotation ?_
  exact ⟨by decide, ⟨by decide, by decide, by decide⟩, by decide, by decide, by decide, by decide⟩

end Pelorus.Update
