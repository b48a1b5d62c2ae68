import Mathlib.Data.List.Forall2
import Pelorus.Websec.Csp.Policy

/-
  Websec/Csp/Serialize.lean --- policies written back as text
  (`px-websec/src/csp/policy.rs`, `serialize` and `serialize_policy_list`).

  WHAT THE PARSER RETURNS is WELL FORMED: names in lowercase that differ, values of
  characters that no token ends at, and no more unknown names than are kept.  A well formed
  policy is READ BACK from its text, whatever whitespace stands before the text.  A list is
  then read back piece by piece, since no piece of its text holds a comma.
-/
set_option autoImplicit false

namespace Pelorus.Websec.Csp

open Lib Lib.Text

/-- A directive in the loop of `serialize`. -/
def Directive.serialize (d : Directive) : Text := d.name ++ d.values.flatMap fun v => ' ' :: v

def Policy.serialize (p : Policy) : Text := "; ".toList.intercalate (p.directives.map Directive.serialize)

def serializePolicyList (policies : List Policy) : Option Text :=
  let parts := policies.map Policy.serialize
  if parts.any fun s => s.contains ',' then none else some (", ".toList.intercalate parts)

/-! ## Characters and bytes -/

/-- A byte that no token of a directive ends at. -/
def isValueByte (b : UInt8) : Bool := b < 128 && !isAsciiWs b && b ≠ 0x3b

/-- A character of a value. -/
def isValueChar (c : Char) : Bool := c.toNat < 128 && isValueByte (UInt8.ofNat c.toNat)

variable {b : UInt8} {n : Text} {disposition : Disposition} {p : Policy} {content : Bytes}

theorem isValueByte_iff : isValueByte b = true ↔ b < 128 ∧ isAsciiWs b = false ∧ b ≠ 0x3b := by
  simp only [isValueByte, Bool.and_eq_true, Bool.not_eq_true', decide_eq_true_eq, and_assoc]

theorem isValueChar_ofNat (h : isValueByte b = true) : isValueChar (Char.ofNat b.toNat) = true := by
  have hlt := (isValueByte_iff.mp h).1
  rw [isValueChar, toNat_ofByte hlt, UInt8.ofNat_toNat, h, Bool.and_true]
  exact decide_eq_true hlt

theorem isAscii_of_isValueChar {v : Text} (h : ∀ c ∈ v, isValueChar c = true) : v.isAscii = true := by
  refine List.all_eq_true.mpr fun c hc => decide_eq_true ?_
  have hlt := of_decide_eq_true (Bool.and_eq_true_iff.mp (h c hc)).1
  exact Nat.le_of_lt_succ hlt

theorem isValueByte_of_mem_utf8 {v : Text} (h : ∀ c ∈ v, isValueChar c = true) : ∀ b ∈ v.utf8, isValueByte b = true := by
  rw [utf8_of_isAscii (isAscii_of_isValueChar h)]
  intro b hb
  obtain ⟨c, hc, rfl⟩ := List.mem_map.mp hb
  exact (Bool.and_eq_true_iff.mp (h c hc)).2

/-! ## What the parser returns -/

/-- What a parsed directive is like. -/
structure Directive.WellFormed (d : Directive) : Prop where
  valid : validDirectiveName d.name = true
  lower : toAsciiLowercase d.name = d.name
  values : ∀ v ∈ d.values, v ≠ [] ∧ ∀ c ∈ v, isValueChar c = true

/-- A directive that counts against the limit on unknown names. -/
def Directive.isUnknown (d : Directive) : Bool := !KNOWN_DIRECTIVES.contains d.name

/-- What a parsed policy is like. -/
structure Policy.WellFormed (p : Policy) : Prop where
  directives : ∀ d ∈ p.directives, d.WellFormed
  distinct : (p.directives.map Directive.name).Nodup
  unknown : p.directives.countP Directive.isUnknown ≤ MAX_UNKNOWN_DIRECTIVES

theorem validDirectiveName_iff :
    validDirectiveName n = true ↔ n ≠ [] ∧ ∀ c ∈ n, c.isAlphanum = true ∨ c = '-' := by
  simp only [validDirectiveName, Bool.and_eq_true, Bool.not_eq_true', List.isEmpty_eq_false_iff, List.all_eq_true,
    Bool.or_eq_true, decide_eq_true_eq]

theorem isAlphanum_toLower {c : Char} (h : c.isAlphanum = true) : c.toLower.isAlphanum = true := by
  rcases toLower_cases c with ⟨heq, -⟩ | ⟨hnat, hlow, hhigh⟩
  · rw [heq]
    exact h
  · have hlower : c.toLower.isLower = true := by
      delta Char.isLower
      simp only [Bool.and_eq_true, decide_eq_true_eq, UInt32.le_iff_toNat_le, ge_iff_le]
      exact ⟨by show 97 ≤ c.toLower.toNat; omega, by show c.toLower.toNat ≤ 122; omega⟩
    delta Char.isAlphanum Char.isAlpha
    rw [hlower, Bool.or_true, Bool.true_or]

theorem validDirectiveName_toAsciiLowercase (h : validDirectiveName n = true) :
    validDirectiveName (toAsciiLowercase n) = true := by
  obtain ⟨hne, hchars⟩ := validDirectiveName_iff.mp h
  refine validDirectiveName_iff.mpr ⟨fun hnil => hne (List.map_eq_nil_iff.mp hnil), fun c hc => ?_⟩
  obtain ⟨d, hd, rfl⟩ := List.mem_map.mp hc
  rcases hchars d hd with halnum | rfl
  · exact Or.inl (isAlphanum_toLower halnum)
  · exact Or.inr rfl

theorem isValueChar_of_validDirectiveName (h : validDirectiveName n = true) :
    ∀ c ∈ n, isValueChar c = true := by
  intro c hc
  rcases (validDirectiveName_iff.mp h).2 c hc with halnum | rfl
  · have hgraphic := isGraphic_alphanum halnum
    simp only [isGraphic, Bool.and_eq_true, decide_eq_true_eq] at hgraphic
    have hlt : c.toNat < 128 := by omega
    have hnat : (UInt8.ofNat c.toNat).toNat = c.toNat := UInt8.toNat_ofNat_of_lt' (Nat.lt_trans hlt (by decide))
    have hne : ∀ b : UInt8, c.toNat ≠ b.toNat → UInt8.ofNat c.toNat ≠ b := fun b hb heq => hb (by rw [← hnat, heq])
    have hsemi : c.toNat ≠ 0x3b := by
      intro hsemi
      have heq : c = ';' := Char.ext (UInt32.toNat_inj.mp hsemi)
      subst heq
      exact Bool.noConfusion halnum
    have hws : isAsciiWs (UInt8.ofNat c.toNat) = false := by
      have hlow : ∀ b : UInt8, b.toNat < 0x21 → UInt8.ofNat c.toNat ≠ b := fun b hb => hne b (by omega)
      simp only [isAsciiWs, Bool.or_eq_false_iff, decide_eq_false_iff_not]
      exact ⟨⟨⟨⟨hlow _ (by decide), hlow _ (by decide)⟩, hlow _ (by decide)⟩, hlow _ (by decide)⟩, hlow _ (by decide)⟩
    have hbyte : isValueByte (UInt8.ofNat c.toNat) = true :=
      isValueByte_iff.mpr ⟨UInt8.lt_iff_toNat_lt.mpr (by rw [hnat]; exact hlt), hws, hne 0x3b hsemi⟩
    rw [isValueChar, hbyte, Bool.and_true]
    exact decide_eq_true hlt
  · rfl

theorem trimWs_sublist (s : Bytes) : List.Sublist (trimWs s) s :=
  (List.rdropWhile_prefix isAsciiWs _).sublist.trans (List.dropWhile_suffix isAsciiWs).sublist

theorem parseToken_wellFormed {token : Bytes} {d : Directive} (htoken : 0x3b ∉ token)
    (h : Policy.parseToken token = some d) : d.WellFormed := by
  simp only [Policy.parseToken, List.span_eq_takeWhile_dropWhile] at h
  split at h
  · cases h
  · rename_i hascii
    split at h
    · cases h
    · rename_i hname
      cases h
      simp only [Bool.or_eq_true, Bool.not_eq_true', not_or, Bool.not_eq_true, Bool.not_eq_false, List.all_eq_true,
        decide_eq_true_eq] at hascii hname
      have hpart : ∀ {bytes : Bytes}, List.Sublist bytes (trimWs token) → (∀ b ∈ bytes, isAsciiWs b = false) →
          ∀ b ∈ bytes, isValueByte b = true := fun hsub hws b hb =>
        isValueByte_iff.mpr ⟨hascii.2 b (hsub.subset hb), hws b hb,
          fun heq => htoken ((hsub.trans (trimWs_sublist token)).subset (heq ▸ hb))⟩
      refine ⟨validDirectiveName_toAsciiLowercase hname, toAsciiLowercase_idem _, fun v hv => ?_⟩
      obtain ⟨piece, hpiece, rfl⟩ := List.mem_map.mp hv
      obtain ⟨hpiece, hne⟩ := List.mem_filter.mp hpiece
      obtain ⟨hws, hsub⟩ := of_mem_splitOnP hpiece
      have hbytes := hpart (hsub.trans (List.dropWhile_suffix _).sublist) hws
      refine ⟨fun hnil => ?_, fun c hc => ?_⟩
      · rw [List.map_eq_nil_iff.mp hnil] at hne
        cases hne
      · obtain ⟨b, hb, rfl⟩ := List.mem_map.mp hc
        exact isValueChar_ofNat (hbytes b hb)

/-- What is kept: what was there and what came, with names that differ and few unknown ones. -/
theorem keepDirectives_spec : ∀ (ds : List Directive) {kept : List Directive} {unknown : Nat},
    (kept.map Directive.name).Nodup → unknown = kept.countP Directive.isUnknown → unknown ≤ MAX_UNKNOWN_DIRECTIVES →
    ((Policy.keepDirectives kept unknown ds).map Directive.name).Nodup ∧
      (Policy.keepDirectives kept unknown ds).countP Directive.isUnknown ≤ MAX_UNKNOWN_DIRECTIVES ∧
      ∀ d ∈ Policy.keepDirectives kept unknown ds, d ∈ kept ∨ d ∈ ds
  | [], kept, unknown, hdistinct, hunknown, hle => ⟨hdistinct, hunknown ▸ hle, fun _ hd => Or.inl hd⟩
  | d :: ds, kept, unknown, hdistinct, hunknown, hle => by
      have hskip := keepDirectives_spec ds hdistinct hunknown hle
      have hskipped : ∀ e, e ∈ kept ∨ e ∈ ds → e ∈ kept ∨ e ∈ d :: ds := fun e he => he.imp_right (List.mem_cons_of_mem d)
      have hadded : ∀ e, e ∈ kept ++ [d] ∨ e ∈ ds → e ∈ kept ∨ e ∈ d :: ds := fun e he => by
        simpa only [List.mem_append, List.mem_singleton, List.mem_cons, List.not_mem_nil, or_false, or_assoc] using he
      unfold Policy.keepDirectives
      split
      · exact ⟨hskip.1, hskip.2.1, fun e he => hskipped e (hskip.2.2 e he)⟩
      · rename_i hfirst
        have hfresh : ((kept ++ [d]).map Directive.name).Nodup := by
          rw [List.map_append, List.map_singleton]
          refine List.nodup_append.mpr ⟨hdistinct, List.pairwise_singleton _ _, fun a ha b hb heq => ?_⟩
          obtain ⟨k, hk, rfl⟩ := List.mem_map.mp ha
          rw [List.mem_singleton.mp hb] at heq
          exact hfirst (List.any_eq_true.mpr ⟨k, hk, decide_eq_true heq⟩)
        split
        · rename_i hknown
          have hcount : unknown = (kept ++ [d]).countP Directive.isUnknown := by
            rw [List.countP_append, List.countP_singleton, Directive.isUnknown, hknown, hunknown]
            rfl
          have hrest := keepDirectives_spec ds hfresh hcount hle
          exact ⟨hrest.1, hrest.2.1, fun e he => hadded e (hrest.2.2 e he)⟩
        · rename_i hknown
          split
          · exact ⟨hskip.1, hskip.2.1, fun e he => hskipped e (hskip.2.2 e he)⟩
          · rename_i hroom
            have hcount : unknown + 1 = (kept ++ [d]).countP Directive.isUnknown := by
              rw [List.countP_append, List.countP_singleton, Directive.isUnknown, Bool.eq_false_iff.mpr hknown, hunknown]
              rfl
            have hrest := keepDirectives_spec ds hfresh hcount (by omega)
            exact ⟨hrest.1, hrest.2.1, fun e he => hadded e (hrest.2.2 e he)⟩

theorem Policy.wellFormed_of_parse {input : Bytes} {source : PolicySource}
    (h : Policy.parse input disposition source = .ok p) : p.WellFormed := by
  unfold Policy.parse at h
  split at h
  · cases h
  · cases h
    obtain ⟨hdistinct, hunknown, hfrom⟩ :=
      @keepDirectives_spec ((input.splitOn 0x3b).filterMap parseToken) [] 0 List.nodup_nil rfl (Nat.zero_le _)
    refine ⟨fun d hd => ?_, hdistinct, hunknown⟩
    obtain ⟨token, htoken, hparse⟩ := List.mem_filterMap.mp ((hfrom d hd).resolve_left List.not_mem_nil)
    exact parseToken_wellFormed (of_mem_splitOn htoken).1 hparse

theorem Policy.WellFormed.filter (h : p.WellFormed) (keep : Directive → Bool) :
    Policy.WellFormed { p with directives := p.directives.filter keep } where
  directives d hd := h.directives d (List.mem_of_mem_filter hd)
  distinct := h.distinct.sublist (List.filter_sublist.map Directive.name)
  unknown := Nat.le_trans List.filter_sublist.countP_le h.unknown

theorem Policy.wellFormed_of_parseMeta (h : Policy.parseMeta content = .ok p) : p.WellFormed := by
  unfold Policy.parseMeta at h
  split at h
  · cases h
  · rename_i whole hparse
    cases h
    exact (wellFormed_of_parse hparse).filter _

/-! ## Reading a directive back -/

theorem trimWs_of_edges {lead body : Bytes} (hlead : ∀ b ∈ lead, isAsciiWs b = true)
    (hfirst : ∀ b ∈ body.head?, isAsciiWs b = false) (hlast : ∀ b ∈ body.getLast?, isAsciiWs b = false) :
    trimWs (lead ++ body) = body := by
  have hstart : body.dropWhile isAsciiWs = body := by
    cases body with
    | nil => rfl
    | cons b body => exact List.dropWhile_cons_of_neg (Bool.not_eq_true _ ▸ hfirst b rfl)
  rw [trimWs, List.dropWhile_append_of_pos hlead, hstart, List.rdropWhile_eq_self_iff]
  intro hne hws
  rw [hlast _ (List.getLast?_eq_some_getLast hne)] at hws
  cases hws

/-- The bytes of a directive's text. -/
theorem Directive.utf8_serialize (d : Directive) :
    d.serialize.utf8 = d.name.utf8 ++ (d.values.map utf8).flatMap fun v => 0x20 :: v := by
  have hvalues : ∀ values : List Text, utf8 (values.flatMap fun v => ' ' :: v) =
      (values.map utf8).flatMap fun v => 0x20 :: v := by
    intro values
    induction values with
    | nil => rfl
    | cons v values ih =>
        rw [List.flatMap_cons, utf8_append, ih, List.map_cons, List.flatMap_cons]
        rfl
  rw [Directive.serialize, utf8_append, hvalues]

/-- What led pieces end with, if none is empty. -/
theorem getLast?_led {good : UInt8 → Prop} {sep : UInt8} : ∀ {pieces : List Bytes} {first : Bytes},
    (∀ b ∈ first.getLast?, good b) → (∀ l ∈ pieces, l ≠ [] ∧ ∀ b ∈ l, good b) →
    ∀ b ∈ (first ++ pieces.flatMap fun l => sep :: l).getLast?, good b
  | [], first, hfirst, _ => by
      rw [List.flatMap_nil, List.append_nil]
      exact hfirst
  | l :: pieces, first, _, h => by
      obtain ⟨⟨hne, hl⟩, hrest⟩ := List.forall_mem_cons.mp h
      have hassoc : first ++ (l :: pieces).flatMap (fun l => sep :: l) =
          (first ++ sep :: l) ++ pieces.flatMap fun l => sep :: l := by
        rw [List.flatMap_cons, List.append_assoc]
      rw [hassoc]
      refine getLast?_led (fun b hb => hl b ?_) hrest
      rw [List.getLast?_append_of_ne_nil _ (List.cons_ne_nil sep l), List.getLast?_cons_of_ne_nil hne] at hb
      exact List.mem_of_getLast? hb

theorem isValueByte_ws (h : isValueByte b = true) : isAsciiWs b = false := (isValueByte_iff.mp h).2.1

namespace Directive.WellFormed

variable {d : Directive} (h : d.WellFormed)
include h

theorem name_bytes : d.name.utf8 ≠ [] ∧ ∀ b ∈ d.name.utf8, isValueByte b = true :=
  ⟨fun hnil => (validDirectiveName_iff.mp h.valid).1 (utf8_eq_nil.mp hnil),
    isValueByte_of_mem_utf8 (isValueChar_of_validDirectiveName h.valid)⟩

theorem value_bytes : ∀ l ∈ d.values.map utf8, l ≠ [] ∧ ∀ b ∈ l, isValueByte b = true := by
  intro l hl
  obtain ⟨v, hv, rfl⟩ := List.mem_map.mp hl
  exact ⟨fun hnil => (h.values v hv).1 (utf8_eq_nil.mp hnil), isValueByte_of_mem_utf8 (h.values v hv).2⟩

/-- The text holds spaces besides, and nothing else. -/
theorem mem_serialize : ∀ b ∈ d.serialize.utf8, b = 0x20 ∨ isValueByte b = true := by
  intro b hb
  rw [d.utf8_serialize, List.mem_append] at hb
  rcases hb with hb | hb
  · exact Or.inr (h.name_bytes.2 b hb)
  · obtain ⟨l, hl, hb⟩ := List.mem_flatMap.mp hb
    exact (List.mem_cons.mp hb).imp id ((h.value_bytes l hl).2 b)

theorem serialize_lt : ∀ b ∈ d.serialize.utf8, b < 128 := by
  intro b hb
  rcases h.mem_serialize b hb with rfl | hvalue
  · decide
  · exact (isValueByte_iff.mp hvalue).1

theorem trimWs_serialize {lead : Bytes} (hlead : ∀ b ∈ lead, isAsciiWs b = true) :
    trimWs (lead ++ d.serialize.utf8) = d.serialize.utf8 := by
  refine trimWs_of_edges hlead (fun b hb => ?_) (fun b hb => ?_)
  · obtain ⟨first, rest, hname⟩ := List.exists_cons_of_ne_nil h.name_bytes.1
    rw [d.utf8_serialize, hname] at hb
    cases hb
    exact isValueByte_ws (h.name_bytes.2 _ (hname ▸ List.mem_cons_self))
  · rw [d.utf8_serialize] at hb
    have hname : ∀ b ∈ d.name.utf8.getLast?, isValueByte b = true := fun b hb =>
      h.name_bytes.2 b (List.mem_of_getLast? hb)
    exact isValueByte_ws (getLast?_led hname h.value_bytes b hb)

/-- A directive is read back from its text. -/
theorem parseToken_serialize {lead : Bytes} (hlead : ∀ b ∈ lead, isAsciiWs b = true) :
    Policy.parseToken (lead ++ d.serialize.utf8) = some d := by
  have hempty : d.serialize.utf8.isEmpty = false := by
    rw [List.isEmpty_eq_false_iff, d.utf8_serialize]
    exact fun hnil => h.name_bytes.1 (List.append_eq_nil_iff.mp hnil).1
  have hall : d.serialize.utf8.all (fun b => b < 128) = true :=
    List.all_eq_true.mpr fun b hb => decide_eq_true (h.serialize_lt b hb)
  have hname : ∀ b ∈ d.name.utf8, (!isAsciiWs b) = true := fun b hb => by
    rw [isValueByte_ws (h.name_bytes.2 b hb)]
    rfl
  have hspan : d.serialize.utf8.span (fun b => !isAsciiWs b) =
      (d.name.utf8, (d.values.map utf8).flatMap fun v => 0x20 :: v) := by
    rw [List.span_eq_takeWhile_dropWhile, d.utf8_serialize, List.takeWhile_append_of_pos hname,
      List.dropWhile_append_of_pos hname]
    cases d.values with
    | nil => rw [List.map_nil, List.flatMap_nil, List.takeWhile_nil, List.append_nil, List.dropWhile_nil]
    | cons v values =>
        rw [List.map_cons, List.flatMap_cons, List.cons_append, List.takeWhile_cons_of_neg (by decide),
          List.dropWhile_cons_of_neg (by decide), List.append_nil]
  have hvalues : ((((d.values.map utf8).flatMap fun v => 0x20 :: v).splitOnP isAsciiWs).filter
      fun v => !v.isEmpty).map asciiText = d.values := by
    have hsplit := @splitOnP_led _ isAsciiWs 0x20 rfl [] (d.values.map utf8) (fun _ hx => absurd hx List.not_mem_nil)
      fun l hl b hb => isValueByte_ws ((h.value_bytes l hl).2 b hb)
    have hkept : (d.values.map utf8).filter (fun v => !v.isEmpty) = d.values.map utf8 :=
      List.filter_eq_self.mpr fun l hl => by
        rw [List.isEmpty_eq_false_iff.mpr (h.value_bytes l hl).1]
        rfl
    rw [List.nil_append] at hsplit
    rw [hsplit, List.filter_cons_of_neg (by decide), hkept, List.map_map]
    refine (List.map_congr_left fun v hv => ?_).trans (List.map_id _)
    exact ofBytes_utf8 (isAscii_of_isValueChar (h.values v hv).2)
  have htext : asciiText d.name.utf8 = d.name :=
    ofBytes_utf8 (isAscii_of_isValueChar (isValueChar_of_validDirectiveName h.valid))
  simp only [Policy.parseToken, h.trimWs_serialize hlead, hempty, hall, hspan, htext, h.valid, h.lower, hvalues,
    Bool.not_true, Bool.or_false, Bool.false_eq_true, if_false]

end Directive.WellFormed

/-! ## Reading a policy back -/

theorem keepDirectives_eq : ∀ {ds kept : List Directive} {unknown : Nat},
    ((kept ++ ds).map Directive.name).Nodup → unknown + ds.countP Directive.isUnknown ≤ MAX_UNKNOWN_DIRECTIVES →
    Policy.keepDirectives kept unknown ds = kept ++ ds
  | [], kept, _, _, _ => (List.append_nil kept).symm
  | d :: ds, kept, unknown, hdistinct, hunknown => by
      have hassoc : kept ++ d :: ds = (kept ++ [d]) ++ ds := (List.append_cons kept d ds)
      have hfirst : ¬ (kept.any fun k => k.name = d.name) = true := by
        intro hany
        obtain ⟨k, hk, hname⟩ := List.any_eq_true.mp hany
        rw [List.map_append] at hdistinct
        exact (List.nodup_append.mp hdistinct).2.2 k.name (List.mem_map_of_mem hk) d.name
          (List.mem_map_of_mem List.mem_cons_self) (of_decide_eq_true hname)
      rw [hassoc] at hdistinct ⊢
      unfold Policy.keepDirectives
      rw [if_neg hfirst]
      split
      · rename_i hknown
        rw [List.countP_cons_of_neg (by rw [Directive.isUnknown, hknown]; decide)] at hunknown
        exact keepDirectives_eq hdistinct hunknown
      · rename_i hknown
        rw [List.countP_cons_of_pos (by rw [Directive.isUnknown, Bool.eq_false_iff.mpr hknown]; rfl)] at hunknown
        rw [if_neg (by omega)]
        exact keepDirectives_eq hdistinct (by omega)

/-- Joined texts: every one but the first is led by the separator and a space. -/
theorem utf8_intercalate {c : Char} {b : UInt8} (hc : utf8 [c] = [b]) : ∀ (first : Text) (rest : List Text),
    utf8 ([c, ' '].intercalate (first :: rest)) =
      utf8 first ++ (rest.map fun s => 0x20 :: utf8 s).flatMap fun l => b :: l
  | first, [] => by rw [List.intercalate_singleton, List.map_nil, List.flatMap_nil, List.append_nil]
  | first, next :: rest => by
      have hsep : utf8 [c, ' '] = [b, 0x20] := by
        have happend : utf8 ([c] ++ [' ']) = utf8 [c] ++ utf8 [' '] := utf8_append _ _
        rw [hc] at happend
        exact happend
      rw [List.intercalate_cons_cons, utf8_append, utf8_append, hsep, utf8_intercalate hc next rest, List.map_cons,
        List.flatMap_cons]
      simp only [List.append_assoc, List.cons_append, List.nil_append]

theorem Directive.WellFormed.not_mem_serialize {d : Directive} (h : d.WellFormed) : 0x3b ∉ d.serialize.utf8 := by
  intro hmem
  rcases h.mem_serialize _ hmem with heq | hvalue
  · cases heq
  · exact (isValueByte_iff.mp hvalue).2.2 rfl

theorem space_ws : ∀ b ∈ ([0x20] : Bytes), isAsciiWs b = true := by
  intro b hb
  rw [List.mem_singleton.mp hb]
  rfl

theorem filterMap_tokens {lead : Bytes} (hlead : ∀ b ∈ lead, isAsciiWs b = true) {ds : List Directive}
    (h : ∀ d ∈ ds, d.WellFormed) :
    ((lead ++ utf8 ("; ".toList.intercalate (ds.map Directive.serialize))).splitOn 0x3b).filterMap Policy.parseToken = ds := by
  have hsemi : 0x3b ∉ lead := fun hmem => Bool.noConfusion (hlead 0x3b hmem)
  cases ds with
  | nil =>
      have hnone : Policy.parseToken lead = none := by
        have hblank : trimWs lead = [] := by
          have hedges := @trimWs_of_edges lead [] hlead (fun _ hb => by cases hb) (fun _ hb => by cases hb)
          rwa [List.append_nil] at hedges
        rw [Policy.parseToken, hblank]
        rfl
      rw [List.map_nil, List.intercalate_nil, utf8_nil, List.append_nil, List.splitOn_eq_singleton hsemi,
        List.filterMap_cons_none hnone, List.filterMap_nil]
  | cons d ds =>
      obtain ⟨hd, hds⟩ := List.forall_mem_cons.mp h
      have hfirst : 0x3b ∉ lead ++ d.serialize.utf8 := by
        rw [List.mem_append]
        exact fun hmem => hmem.elim hsemi hd.not_mem_serialize
      have hrest : ∀ l ∈ ds.map fun e => 0x20 :: e.serialize.utf8, 0x3b ∉ l := by
        intro l hl
        obtain ⟨e, he, rfl⟩ := List.mem_map.mp hl
        exact List.not_mem_cons_of_ne_of_not_mem (by decide) (hds e he).not_mem_serialize
      have hback : (ds.map fun e => 0x20 :: e.serialize.utf8).filterMap Policy.parseToken = ds := by
        rw [List.filterMap_map]
        refine (List.filterMap_congr fun e he => ?_).trans List.filterMap_some
        exact (hds e he).parseToken_serialize space_ws
      have htext := utf8_intercalate (c := ';') (b := 0x3b) (by decide) d.serialize (ds.map Directive.serialize)
      rw [List.map_cons]
      show List.filterMap _ (List.splitOn 0x3b (lead ++ utf8 ([';', ' '].intercalate _))) = _
      rw [htext, List.map_map, ← List.append_assoc]
      show List.filterMap _ (List.splitOn 0x3b (_ ++ (ds.map fun e => 0x20 :: e.serialize.utf8).flatMap _)) = _
      rw [splitOn_led 0x3b hfirst hrest, List.filterMap_cons_some (hd.parseToken_serialize hlead), hback]

theorem Policy.WellFormed.parse_serialize {p : Policy} (h : p.WellFormed) {lead : Bytes}
    (hlead : ∀ b ∈ lead, isAsciiWs b = true) (hlen : lead.length + p.serialize.len ≤ MAX_POLICY_BYTES) :
    Policy.parse (lead ++ p.serialize.utf8) p.disposition p.source = .ok p := by
  have hsize : ¬ MAX_POLICY_BYTES < (lead ++ p.serialize.utf8).length := by
    rw [List.length_append]
    exact Nat.not_lt.mpr hlen
  have hkeep : Policy.keepDirectives [] 0 p.directives = p.directives :=
    keepDirectives_eq h.distinct (by rw [Nat.zero_add]; exact h.unknown)
  rw [Policy.parse, if_neg hsize, Policy.serialize, filterMap_tokens hlead h.directives, hkeep]

theorem Policy.parse_of_wellFormed (h : p.WellFormed) (hlen : p.serialize.len ≤ MAX_POLICY_BYTES) :
    Policy.parse p.serialize.utf8 p.disposition p.source = .ok p :=
  @Policy.WellFormed.parse_serialize p h [] (fun _ hb => absurd hb List.not_mem_nil) (by rw [List.length_nil, Nat.zero_add]; exact hlen)

theorem Policy.parse_kind {input : Bytes} {source : PolicySource}
    (h : Policy.parse input disposition source = .ok p) : p.disposition = disposition ∧ p.source = source := by
  unfold Policy.parse at h
  split at h
  · cases h
  · cases h
    exact ⟨rfl, rfl⟩

theorem Policy.parseMeta_kind (h : Policy.parseMeta content = .ok p) :
    p.disposition = .enforce ∧ p.source = .meta_ ∧ ∀ d ∈ p.directives,
      (!(d.name = "report-uri".toList || d.name = "frame-ancestors".toList || d.name = "sandbox".toList)) = true := by
  unfold Policy.parseMeta at h
  split at h
  · cases h
  · rename_i whole hparse
    cases h
    obtain ⟨hdisposition, hsource⟩ := parse_kind hparse
    exact ⟨hdisposition, hsource, fun d hd => (List.mem_filter.mp hd).2⟩

/-- What `parse_meta` takes out is not there a second time. -/
theorem Policy.parseMeta_serialize (h : Policy.parseMeta content = .ok p)
    (hlen : p.serialize.len ≤ MAX_POLICY_BYTES) :
    Policy.parse p.serialize.utf8 .enforce .meta_ = .ok p ∧ Policy.parseMeta p.serialize.utf8 = .ok p := by
  obtain ⟨hdisposition, hsource, hkept⟩ := parseMeta_kind h
  have hagain := parse_of_wellFormed (wellFormed_of_parseMeta h) hlen
  rw [hdisposition, hsource] at hagain
  refine ⟨hagain, ?_⟩
  rw [Policy.parseMeta, hagain]
  dsimp only
  rw [List.filter_eq_self.mpr hkept]

/-! ## Reading a list back -/

theorem collectPolicies_eq {disposition : Disposition} : ∀ {policies out : List Policy} {pieces : List Bytes},
    List.Forall₂ (fun piece p => Policy.parse piece disposition .header = .ok p ∧ p.directives ≠ []) pieces policies →
    (out ++ policies).length ≤ MAX_POLICIES →
    collectPolicies disposition out pieces = .ok (out ++ policies)
  | [], out, [], .nil, _ => by rw [List.append_nil]; rfl
  | p :: policies, out, piece :: pieces, .cons hpiece hrest, hroom => by
      have hassoc : out ++ p :: policies = (out ++ [p]) ++ policies := List.append_cons out p policies
      have hfull : ¬ MAX_POLICIES ≤ out.length := by
        rw [List.length_append, List.length_cons] at hroom
        omega
      rw [hassoc] at hroom ⊢
      rw [collectPolicies, hpiece.1]
      dsimp only
      rw [List.isEmpty_eq_false_iff.mpr hpiece.2, if_neg Bool.false_ne_true, if_neg hfull]
      exact collectPolicies_eq hrest hroom

theorem Policy.WellFormed.serialize_isAscii (h : p.WellFormed) : p.serialize.isAscii = true := by
  refine isAscii_of_utf8_lt fun b hb => ?_
  have hds := h.directives
  unfold Policy.serialize at hb
  cases hp : p.directives with
  | nil =>
      rw [hp] at hb
      cases hb
  | cons d ds =>
      rw [hp] at hb hds
      obtain ⟨hd, hds⟩ := List.forall_mem_cons.mp hds
      have htext := utf8_intercalate (c := ';') (b := 0x3b) (by decide) d.serialize (ds.map Directive.serialize)
      rw [List.map_cons] at hb
      rcases List.mem_append.mp (htext ▸ hb) with hb | hb
      · exact hd.serialize_lt b hb
      · obtain ⟨l, hl, hb⟩ := List.mem_flatMap.mp hb
        obtain ⟨s, hs, rfl⟩ := List.mem_map.mp hl
        obtain ⟨e, he, rfl⟩ := List.mem_map.mp hs
        rcases List.mem_cons.mp hb with rfl | hb
        · decide
        · rcases List.mem_cons.mp hb with rfl | hb
          · decide
          · exact (hds e he).serialize_lt b hb

theorem Policy.WellFormed.not_mem_comma (h : p.WellFormed) (hcomma : ',' ∉ p.serialize) :
    0x2c ∉ p.serialize.utf8 := by
  intro hmem
  rw [← ofBytes_utf8 h.serialize_isAscii] at hcomma
  exact hcomma (List.mem_map.mpr ⟨0x2c, hmem, rfl⟩)

/-- A list of policies that were parsed, and hold a directive each, is read back from its text. -/
theorem parsePolicyList_serializePolicyList {policies : List Policy} {text : Text}
    (hparsed : ∀ p ∈ policies, p.directives ≠ [] ∧ ∃ input, Policy.parse input disposition .header = .ok p)
    (hmany : policies.length ≤ MAX_POLICIES) (htext : serializePolicyList policies = some text)
    (hlen : text.len ≤ MAX_POLICY_BYTES) : parsePolicyList text.utf8 disposition = .ok policies := by
  simp only [serializePolicyList, List.any_map] at htext
  split at htext
  · cases htext
  · rename_i hcomma
    cases htext
    have hnone : ∀ p ∈ policies, 0x2c ∉ p.serialize.utf8 := by
      intro p hp
      obtain ⟨_, input, hparse⟩ := hparsed p hp
      refine (Policy.wellFormed_of_parse hparse).not_mem_comma fun hmem => hcomma (List.any_eq_true.mpr ⟨p, hp, ?_⟩)
      exact List.contains_iff_mem.mpr hmem
    have hback : ∀ p ∈ policies, ∀ lead : Bytes, (∀ b ∈ lead, isAsciiWs b = true) →
        (lead ++ p.serialize.utf8).length ≤ MAX_POLICY_BYTES →
        Policy.parse (lead ++ p.serialize.utf8) disposition .header = .ok p ∧ p.directives ≠ [] := by
      intro p hp lead hlead hsize
      obtain ⟨hne, input, hparse⟩ := hparsed p hp
      obtain ⟨rfl, hsource⟩ := Policy.parse_kind hparse
      rw [List.length_append] at hsize
      exact ⟨hsource ▸ (Policy.wellFormed_of_parse hparse).parse_serialize hlead hsize, hne⟩
    have hsize : ¬ MAX_POLICY_BYTES < (utf8 (", ".toList.intercalate (policies.map Policy.serialize))).length :=
      Nat.not_lt.mpr hlen
    rw [parsePolicyList, if_neg hsize]
    cases policies with
    | nil => rfl
    | cons p policies =>
        obtain ⟨hp, hrest⟩ := List.forall_mem_cons.mp hnone
        have htext := utf8_intercalate (c := ',') (b := 0x2c) (by decide) p.serialize (policies.map Policy.serialize)
        have hpieces : ∀ l ∈ policies.map fun q => 0x20 :: q.serialize.utf8, 0x2c ∉ l := by
          intro l hl
          obtain ⟨q, hq, rfl⟩ := List.mem_map.mp hl
          exact List.not_mem_cons_of_ne_of_not_mem (by decide) (hrest q hq)
        have hsplit : (utf8 (", ".toList.intercalate ((p :: policies).map Policy.serialize))).splitOn 0x2c =
            p.serialize.utf8 :: policies.map fun q => 0x20 :: q.serialize.utf8 := by
          rw [List.map_map] at htext
          rw [List.map_cons]
          exact (congrArg (List.splitOn 0x2c) htext).trans (splitOn_led 0x2c hp hpieces)
        have hpiece : ∀ piece ∈ p.serialize.utf8 :: policies.map fun q => 0x20 :: q.serialize.utf8,
            piece.length ≤ MAX_POLICY_BYTES := fun piece hmem =>
          Nat.le_trans (of_mem_splitOn (hsplit ▸ hmem)).2.length_le (Nat.not_lt.mp hsize)
        rw [hsplit]
        refine @collectPolicies_eq disposition (p :: policies) [] _ (List.Forall₂.cons ?_ ?_) hmany
        · exact hback p List.mem_cons_self [] (fun _ hb => absurd hb List.not_mem_nil) (hpiece _ List.mem_cons_self)
        · refine List.forall₂_map_left_iff.mpr (List.forall₂_same.mpr fun q hq => ?_)
          exact hback q (List.mem_cons_of_mem p hq) [0x20] space_ws
            (hpiece _ (List.mem_cons_of_mem _ (List.mem_map_of_mem hq)))

/-! ## The round trip -/

/-- A policy that was parsed is read back from its text, and a list of policies from its. -/
theorem policies_read_back :
    (∀ (input : Bytes) (disposition : Disposition) (source : PolicySource) (p : Policy),
      Policy.parse input disposition source = .ok p → p.serialize.len ≤ MAX_POLICY_BYTES →
      Policy.parse p.serialize.utf8 disposition source = .ok p) ∧
    (∀ (content : Bytes) (p : Policy), Policy.parseMeta content = .ok p → p.serialize.len ≤ MAX_POLICY_BYTES →
      Policy.parse p.serialize.utf8 .enforce .meta_ = .ok p ∧ Policy.parseMeta p.serialize.utf8 = .ok p) ∧
    (∀ (disposition : Disposition) (policies : List Policy) (text : Text),
      (∀ p ∈ policies, p.directives ≠ [] ∧ ∃ input, Policy.parse input disposition .header = .ok p) →
      policies.length ≤ MAX_POLICIES → serializePolicyList policies = some text → text.len ≤ MAX_POLICY_BYTES →
      parsePolicyList text.utf8 disposition = .ok policies) := by
  refine ⟨fun input disposition source p h hlen => ?_, fun _ _ h hlen => Policy.parseMeta_serialize h hlen,
    fun _ _ _ hparsed hmany htext hlen => parsePolicyList_serializePolicyList hparsed hmany htext hlen⟩
  obtain ⟨rfl, rfl⟩ := Policy.parse_kind h
  exact Policy.parse_of_wellFormed (Policy.wellFormed_of_parse h) hlen

def sampleDirectives : List Directive :=
  [⟨"script-src".toList, ["'self'".toList, "A:*".toList]⟩, ⟨"x".toList, []⟩]

theorem policies_read_back_sample :
    Policy.parse (utf8 "script-src 'self' A:*; x".toList) .enforce .header = .ok ⟨sampleDirectives, .enforce, .header⟩ ∧
    Policy.parseMeta (utf8 "script-src 'self' A:*; x".toList) = .ok ⟨sampleDirectives, .enforce, .meta_⟩ ∧
    parsePolicyList (utf8 "script-src 'self' A:*; x".toList) .enforce = .ok [⟨sampleDirectives, .enforce, .header⟩] := by
  have hparse : Policy.parse (utf8 "é;Script-SRC  'self'\tA:* ;; X; x y".toList) .enforce .header =
      .ok ⟨sampleDirectives, .enforce, .header⟩ := by rfl
  have hmeta : Policy.parseMeta (utf8 "sandbox;Script-SRC  'self'\tA:* ;; X; x y".toList) =
      .ok ⟨sampleDirectives, .enforce, .meta_⟩ := by rfl
  refine ⟨policies_read_back.1 _ _ _ _ hparse (by decide), (policies_read_back.2.1 _ _ hmeta (by decide)).2, ?_⟩
  exact policies_read_back.2.2 .enforce [⟨sampleDirectives, .enforce, .header⟩] _
    (fun p hp => by rw [List.mem_singleton.mp hp]; exact ⟨by decide, _, hparse⟩) (by decide) (by rfl) (by decide)

end Pelorus.Websec.Csp
