import Mathlib.Data.Nat.Bitwise
import Pelorus.Lib.Lossy
import Pelorus.Secure.Credentials

/-
  Secure/Sandbox.lean --- what the sandbox of a navigated document leaves
  (`px-net/src/secure.rs`: `navigation`).

  A CAPABILITY is a bit of the flags, and no two share one.  Flags read from tokens allow
  what a token names, and flags that were combined allow what all of them allow.

  THE ATTRIBUTE is cut to a number of bytes before it is split, so that the last token read
  may be the beginning of a longer one, and the beginning of one name may be another.
-/
set_option autoImplicit false

namespace Pelorus.Websec.Csp

open Lib Lib.Text

/-! ## Capabilities and bits -/

/-- The place of a capability's bit. -/
def SandboxAllow.index : SandboxAllow → Nat
  | .downloads => 0
  | .forms => 1
  | .modals => 2
  | .orientationLock => 3
  | .pointerLock => 4
  | .popups => 5
  | .popupsToEscapeSandbox => 6
  | .presentation => 7
  | .sameOrigin => 8
  | .scripts => 9
  | .storageAccessByUserActivation => 10
  | .topNavigation => 11
  | .topNavigationByUserActivation => 12
  | .topNavigationToCustomProtocols => 13

theorem SandboxAllow.bit_eq (a : SandboxAllow) : a.bit.toNat = 2 ^ a.index := by cases a <;> rfl

theorem SandboxAllow.index_injective {a b : SandboxAllow} (h : a.index = b.index) : a = b := by
  cases a <;> cases b <;> first | rfl | cases h

namespace SandboxFlags

theorem allows_eq (f : SandboxFlags) (a : SandboxAllow) : f.allows a = f.bits.toNat.testBit a.index := by
  have hzero : f.bits &&& a.bit = 0 ↔ (f.bits.toNat.testBit a.index).toNat * 2 ^ a.index = 0 := by
    rw [← UInt16.toNat_inj, UInt16.toNat_and, a.bit_eq, Nat.and_two_pow]
    rfl
  have hpos : 2 ^ a.index ≠ 0 := Nat.ne_of_gt (Nat.two_pow_pos _)
  rw [Bool.eq_iff_iff, allows, decide_eq_true_eq, Ne, hzero, Nat.mul_eq_zero, or_iff_left hpos, Bool.toNat_eq_zero,
    Bool.not_eq_false]

theorem allows_intersect (f g : SandboxFlags) (a : SandboxAllow) :
    (f.intersect g).allows a = (f.allows a && g.allows a) := by
  rw [allows_eq, allows_eq, allows_eq, intersect, UInt16.toNat_and, Nat.testBit_and]

/-- A token names a capability, whatever its case. -/
def Names (t : Text) (a : SandboxAllow) : Prop := ∃ n, (n, a) ∈ SandboxAllow.TABLE ∧ eqIgnoreAsciiCase t n = true

theorem table_names_distinct : (SandboxAllow.TABLE.map fun e => toAsciiLowercase e.1).Nodup := by decide

theorem allow?_eq_some {t : Text} {a : SandboxAllow} : allow? t = some a ↔ Names t a := by
  constructor
  · intro h
    obtain ⟨e, hfind, rfl⟩ := Option.map_eq_some_iff.mp h
    have hname := List.find?_some hfind
    exact ⟨e.1, List.mem_of_find?_eq_some hfind, hname⟩
  · intro h
    obtain ⟨n, hmem, hname⟩ := h
    have hsome : (SandboxAllow.TABLE.find? fun e => eqIgnoreAsciiCase t e.1).isSome = true :=
      List.find?_isSome.mpr ⟨(n, a), hmem, hname⟩
    obtain ⟨e, hfind⟩ := Option.isSome_iff_exists.mp hsome
    have hother := List.find?_some hfind
    have hsame : e = (n, a) := by
      refine List.inj_on_of_nodup_map table_names_distinct (List.mem_of_find?_eq_some hfind) hmem ?_
      exact (eqIgnoreAsciiCase_iff.mp hother).symm.trans (eqIgnoreAsciiCase_iff.mp hname)
    rw [allow?, hfind, hsame]
    rfl

/-- Setting a capability's bit allows that capability, and no other. -/
theorem allows_or (bits : UInt16) (a b : SandboxAllow) :
    allows ⟨bits ||| b.bit⟩ a = true ↔ allows ⟨bits⟩ a = true ∨ b = a := by
  rw [allows_eq, allows_eq, UInt16.toNat_or, Nat.testBit_or, b.bit_eq, Nat.testBit_two_pow, Bool.or_eq_true,
    decide_eq_true_eq]
  exact or_congr_right ⟨SandboxAllow.index_injective, congrArg _⟩

theorem allows_foldl (a : SandboxAllow) : ∀ (named : List SandboxAllow) (bits : UInt16),
    allows ⟨named.foldl (fun bits b => bits ||| b.bit) bits⟩ a = true ↔ allows ⟨bits⟩ a = true ∨ a ∈ named
  | [], bits => (or_iff_left List.not_mem_nil).symm
  | b :: named, bits => by
      rw [List.foldl_cons, allows_foldl a named, allows_or, List.mem_cons, or_assoc, @eq_comm _ a b]

theorem allows_fromTokens (tokens : List Text) (a : SandboxAllow) :
    (fromTokens tokens).allows a = true ↔ ∃ t ∈ tokens, Names t a := by
  have hnone : ¬ allows ⟨0⟩ a = true := by
    rw [allows_eq]
    exact fun h => absurd (h.symm.trans (Nat.zero_testBit _)) Bool.noConfusion
  rw [fromTokens, allows_foldl, or_iff_right hnone, List.mem_filterMap]
  exact exists_congr fun t => and_congr_right fun _ => allow?_eq_some

/-- Flags that were combined with what was there allow what all of them allow. -/
theorem allows_combined (a : SandboxAllow) : ∀ (fs : List SandboxFlags) (acc : Option SandboxFlags),
    (∀ f ∈ fs.foldl (fun acc f => some ((acc.map fun g => g.intersect f).getD f)) acc, f.allows a = true) ↔
      (∀ f ∈ acc, f.allows a = true) ∧ ∀ f ∈ fs, f.allows a = true
  | [], acc => (and_iff_left fun _ hf => absurd hf List.not_mem_nil).symm
  | g :: fs, acc => by
      rw [List.foldl_cons, allows_combined a fs, List.forall_mem_cons, ← and_assoc]
      refine and_congr_left fun _ => ?_
      cases acc with
      | none => simp
      | some f => simp [allows_intersect]

end SandboxFlags

/-- An enforced policy of a header has this `sandbox` directive. -/
def Policy.Sandboxes (p : Policy) (d : Directive) : Prop :=
  p.disposition = .enforce ∧ p.source = .header ∧ p.directive "sandbox".toList = some d

theorem Policy.sandboxFlags_eq_some {p : Policy} {f : SandboxFlags} :
    p.sandboxFlags = some f ↔ ∃ d, p.Sandboxes d ∧ SandboxFlags.fromTokens d.values = f := by
  unfold Policy.sandboxFlags Policy.Sandboxes
  cases hdisposition : p.disposition with
  | report => simp
  | enforce =>
      cases hsource : p.source with
      | meta_ => simp
      | header => simp [Option.map_eq_some_iff]

/-- Every `sandbox` directive that is enforced names a capability. -/
def PolicySet.AllName (set : PolicySet) (a : SandboxAllow) : Prop :=
  ∀ p ∈ set.policies, ∀ d, p.Sandboxes d → ∃ t ∈ d.values, SandboxFlags.Names t a

/-- The flags of a set allow what all its `sandbox` directives name. -/
theorem PolicySet.allows_sandboxFlags (set : PolicySet) (a : SandboxAllow) :
    (∀ f ∈ set.sandboxFlags, f.allows a = true) ↔ set.AllName a := by
  have hnone : ∀ f ∈ (none : Option SandboxFlags), f.allows a = true := fun _ hf => by cases hf
  rw [sandboxFlags, SandboxFlags.allows_combined, and_iff_right hnone]
  constructor
  · intro h p hp d hd
    exact (SandboxFlags.allows_fromTokens _ _).mp
      (h _ (List.mem_filterMap.mpr ⟨p, hp, Policy.sandboxFlags_eq_some.mpr ⟨d, hd, rfl⟩⟩))
  · intro h f hf
    obtain ⟨p, hp, hflags⟩ := List.mem_filterMap.mp hf
    obtain ⟨d, hd, rfl⟩ := Policy.sandboxFlags_eq_some.mp hflags
    exact (SandboxFlags.allows_fromTokens _ _).mpr (h p hp d hd)

end Pelorus.Websec.Csp

namespace Pelorus.Websec.Frame

open Lib Lib.Text
open Websec.Csp (SandboxAllow SandboxFlags)

/-! ## The attribute, cut short -/

/-- A character that ends a token of the attribute. -/
def isSpace (c : Char) : Bool := c = ' ' || c = '\t' || c = '\n' || c = '\r' || c = Char.ofNat 0x0c

/-- A whole token of the attribute names a capability. -/
def WholeNames (v : Text) (a : SandboxAllow) : Prop := ∃ t ∈ v.splitOnP isSpace, SandboxFlags.Names t a

/-- What is left of a token that the limit cuts through names a capability. -/
def CutNames (v : Text) (a : SandboxAllow) : Prop :=
  ∃ (kept : Text) (c : Char) (rest : Text), v = kept ++ c :: rest ∧ kept.len = MAX_HEADER_BYTES * 4 ∧ isSpace c = false ∧
    SandboxFlags.Names (kept.rtakeWhile fun c => !isSpace c) a

/-- The bytes up to the limit: the whole text, a beginning of it, or nothing. -/
theorem firstBytes_cases (n : Nat) (v : Text) : firstBytes n v = [] ∨ firstBytes n v = v ∨
    ∃ (kept : Text) (c : Char) (rest : Text), firstBytes n v = kept ∧ v = kept ++ c :: rest ∧ kept.len = n := by
  unfold firstBytes
  cases hdecode : fromUtf8 ((utf8 v).take n) with
  | none => exact Or.inl rfl
  | some kept =>
      have hkept := utf8_of_fromUtf8 hdecode
      have hbytes : v.utf8 = kept.utf8 ++ v.utf8.drop n := by rw [hkept, List.take_append_drop]
      obtain ⟨rest, rfl⟩ := prefix_of_utf8 hbytes
      cases rest with
      | nil => exact Or.inr (Or.inl (List.append_nil kept).symm)
      | cons c rest =>
          refine Or.inr (Or.inr ⟨kept, c, rest, rfl, rfl, ?_⟩)
          have hlen := congrArg List.length hkept
          have hpos : 0 < (utf8 (c :: rest)).length :=
            List.length_pos_iff.mpr fun hnil => absurd (utf8_eq_nil.mp hnil) (List.cons_ne_nil c rest)
          rw [List.length_take, utf8_append, List.length_append] at hlen
          rw [len]
          omega

theorem firstBytes_append (kept rest : Text) : firstBytes kept.len (kept ++ rest) = kept := by
  rw [firstBytes, utf8_append, len, List.take_left, fromUtf8_utf8, Option.getD_some]

theorem not_names_nil (a : SandboxAllow) : ¬ SandboxFlags.Names [] a := by
  intro h
  obtain ⟨n, hmem, hname⟩ := h
  have hwritten : (SandboxAllow.TABLE.all fun e => !e.1.isEmpty) = true := by decide
  have hnil : n = [] := List.map_eq_nil_iff.mp (eqIgnoreAsciiCase_iff.mp hname).symm
  have hsome := List.all_eq_true.mp hwritten _ hmem
  rw [hnil] at hsome
  exact Bool.noConfusion hsome

theorem allows_parseSandboxAttribute (v : Text) (a : SandboxAllow) :
    (∀ f ∈ parseSandboxAttribute (some v), f.allows a = true) ↔
      ∃ t ∈ (firstBytes (MAX_HEADER_BYTES * 4) v).splitOnP isSpace, SandboxFlags.Names t a := by
  have hflags : parseSandboxAttribute (some v) = some (SandboxFlags.fromTokens
      (((firstBytes (MAX_HEADER_BYTES * 4) v).splitOnP isSpace).filter fun t => !t.isEmpty)) := rfl
  rw [hflags]
  simp only [Option.mem_def, Option.some.injEq, forall_eq', SandboxFlags.allows_fromTokens]
  constructor
  · intro h
    obtain ⟨t, ht, hname⟩ := h
    exact ⟨t, List.mem_of_mem_filter ht, hname⟩
  · intro h
    obtain ⟨t, ht, hname⟩ := h
    refine ⟨t, List.mem_filter.mpr ⟨ht, ?_⟩, hname⟩
    cases t with
    | nil => exact absurd hname (not_names_nil a)
    | cons c t => rfl

/-- What the flags of the attribute allow, a whole token names, or what is left of the one that is cut. -/
theorem whole_or_cut {v : Text} {a : SandboxAllow} (h : ∀ f ∈ parseSandboxAttribute (some v), f.allows a = true) :
    WholeNames v a ∨ CutNames v a := by
  obtain ⟨t, ht, hname⟩ := (allows_parseSandboxAttribute v a).mp h
  rcases firstBytes_cases (MAX_HEADER_BYTES * 4) v with hnil | hall | ⟨kept, c, rest, hkept, rfl, hlen⟩
  · rw [hnil, List.splitOnP_nil, List.mem_singleton] at ht
    exact absurd (ht ▸ hname) (not_names_nil a)
  · exact Or.inl ⟨t, hall ▸ ht, hname⟩
  · obtain ⟨pieces, hcut⟩ := splitOnP_append isSpace kept
    have hself := hcut []
    rw [List.append_nil, List.splitOnP_nil, List.modifyHead_cons, List.append_nil] at hself
    rw [hkept, hself, List.mem_append, List.mem_singleton] at ht
    rcases ht with ht | rfl
    · exact Or.inl ⟨t, by rw [hcut]; exact List.mem_append_left _ ht, hname⟩
    · cases hc : isSpace c with
      | false => exact Or.inr ⟨kept, c, rest, rfl, hlen, hc, hname⟩
      | true =>
          refine Or.inl ⟨_, ?_, hname⟩
          rw [hcut, List.splitOnP_cons_eq_if_modifyHead, if_pos hc, List.modifyHead_cons, List.append_nil]
          exact List.mem_append_right _ List.mem_cons_self

theorem allows_of_cutNames {v : Text} {a : SandboxAllow} (h : CutNames v a) :
    ∀ f ∈ parseSandboxAttribute (some v), f.allows a = true := by
  obtain ⟨kept, c, rest, rfl, hlen, -, hname⟩ := h
  refine (allows_parseSandboxAttribute _ a).mpr ⟨_, ?_, hname⟩
  obtain ⟨pieces, hcut⟩ := splitOnP_append isSpace kept
  have hself := hcut []
  rw [List.append_nil, List.splitOnP_nil, List.modifyHead_cons, List.append_nil] at hself
  rw [← hlen, firstBytes_append, hself]
  exact List.mem_append_right _ (List.mem_singleton_self _)

end Pelorus.Websec.Frame

namespace Pelorus.Secure

open Lib Lib.Text Websec
open Websec.Csp (SandboxAllow SandboxFlags)

/-! ## What a document is left with -/

/-- The flags allow only what the attribute and every enforced directive name, and the origin is the document's own only
if they allow that. -/
def OnlyTakesAway (attr : Option Text) (policies : Csp.PolicySet) (flags : Option SandboxFlags) (origin : Origin) :
    Prop :=
  ∀ f, flags = some f →
    (∀ a, f.allows a = true → (∀ v, attr = some v → Frame.WholeNames v a) ∧ policies.AllName a) ∧
      (f.allows .sameOrigin = false → origin.isOpaque = true)

/-- What is left of a token that was cut names nothing that the sandbox would not allow without it. -/
def CutIsHarmless (attr : Option Text) (policies : Csp.PolicySet) : Prop :=
  ∀ v, attr = some v → ∀ a, Frame.CutNames v a → Frame.WholeNames v a ∨ ¬ policies.AllName a

/-- The combined flags allow what the attribute's and the policies' flags allow. -/
theorem allows_sandboxOf (ctx : FetchContext) (policies : Csp.PolicySet) (a : SandboxAllow) :
    (∀ f ∈ sandboxOf ctx policies, f.allows a = true) ↔
      (∀ f ∈ Frame.parseSandboxAttribute ctx.iframeSandbox, f.allows a = true) ∧ policies.AllName a := by
  rw [← policies.allows_sandboxFlags, sandboxOf]
  cases Frame.parseSandboxAttribute ctx.iframeSandbox with
  | none => simp
  | some f =>
      cases policies.sandboxFlags with
      | none => simp
      | some g => simp [SandboxFlags.allows_intersect]

theorem sandboxedOrigin_isOpaque {fresh : UInt64} {f : SandboxFlags} {base : Origin} (h : f.allows .sameOrigin = false) :
    (Frame.sandboxedOrigin fresh (some f) base).isOpaque = true := by
  rw [Frame.sandboxedOrigin, SandboxFlags.forcesOpaqueOrigin, h]
  rfl

theorem onlyTakesAway_iff (ctx : FetchContext) (policies : Csp.PolicySet) (fresh : UInt64) (base : Origin) :
    OnlyTakesAway ctx.iframeSandbox policies (sandboxOf ctx policies)
        (Frame.sandboxedOrigin fresh (sandboxOf ctx policies) base) ↔
      CutIsHarmless ctx.iframeSandbox policies := by
  constructor
  · intro h v hv a hcut
    by_contra hharm
    obtain ⟨hwhole, hnames⟩ := not_or.mp hharm
    have hattr := Frame.allows_of_cutNames hcut
    rw [← hv] at hattr
    have hallows := (allows_sandboxOf ctx policies a).mpr ⟨hattr, not_not.mp hnames⟩
    have hsome : (sandboxOf ctx policies).isSome = true := by
      rw [sandboxOf, hv]
      cases policies.sandboxFlags <;> rfl
    obtain ⟨f, hf⟩ := Option.isSome_iff_exists.mp hsome
    exact hwhole (((h f hf).1 a (hallows f hf)).1 v hv)
  · intro h f hf
    refine ⟨fun a ha => ?_, fun hopaque => hf ▸ sandboxedOrigin_isOpaque hopaque⟩
    have hall : ∀ g ∈ sandboxOf ctx policies, g.allows a = true := fun g hg => by
      rw [hf] at hg
      exact Option.some.inj hg ▸ ha
    obtain ⟨hattr, hnames⟩ := (allows_sandboxOf ctx policies a).mp hall
    refine ⟨fun v hv => ?_, hnames⟩
    rw [hv] at hattr
    rcases Frame.whole_or_cut hattr with hwhole | hcut
    · exact hwhole
    · exact (h v hv a hcut).resolve_right (not_not.mpr hnames)

theorem navigation_sandbox {W : Type} {ctx : FetchContext} {url : Url} {headers : List Cors.Header} {r r' : Run W}
    (h : navigation ctx url headers r = .ok r') : ∃ facts base, r'.out.document = some facts ∧
      facts.sandbox = sandboxOf ctx facts.csp ∧
      facts.origin = Frame.sandboxedOrigin r.nextOpaque facts.sandbox base := by
  simp only [navigation] at h
  split at h
  · cases h
  · split at h
    · cases h
    · cases h
      exact ⟨_, _, rfl, rfl, rfl⟩

/-- A sandbox only takes away exactly when the limit on the attribute's length leaves of no token a name that it should
not allow: so it is for every set of policies, and for the document of every navigation. -/
theorem sandbox_only_takes_away_iff {W : Type} (ctx : FetchContext) (url : Url) (headers : List Cors.Header) (r : Run W) :
    (∀ (policies : Csp.PolicySet) (fresh : UInt64) (base : Origin),
      OnlyTakesAway ctx.iframeSandbox policies (sandboxOf ctx policies)
          (Frame.sandboxedOrigin fresh (sandboxOf ctx policies) base) ↔
        CutIsHarmless ctx.iframeSandbox policies) ∧
    (∀ r', navigation ctx url headers r = .ok r' → ∃ facts, r'.out.document = some facts ∧
      (OnlyTakesAway ctx.iframeSandbox facts.csp facts.sandbox facts.origin ↔
        CutIsHarmless ctx.iframeSandbox facts.csp)) := by
  refine ⟨onlyTakesAway_iff ctx, fun r' h => ?_⟩
  obtain ⟨facts, base, hdocument, hsandbox, horigin⟩ := navigation_sandbox h
  refine ⟨facts, hdocument, ?_⟩
  rw [horigin, hsandbox]
  exact onlyTakesAway_iff ctx facts.csp r.nextOpaque base

/-! ## An attribute that is cut -/

/-- A navigation with an attribute for the sandbox. -/
def framed (attr : Text) : FetchContext :=
  { sampleContext "app.example" .navigate "GET" with destination := .navigation, iframeSandbox := some attr }

def sampleRun : Run Unit :=
  { toSession := sampleSession
    state := ⟨sampleUrl "doc.example" "/", "GET".toList, [], [], none, 0, none⟩
    chain := .new
    out := .new
    exchanges := [] }

/-- A sandbox that is not cut and allows forms. -/
theorem sandbox_only_takes_away_sample :
    ∃ r' facts, navigation (framed "allow-forms".toList) (sampleUrl "doc.example" "/") [] sampleRun = .ok r' ∧
      r'.out.document = some facts ∧
      (OnlyTakesAway (some "allow-forms".toList) facts.csp facts.sandbox facts.origin ↔
        CutIsHarmless (some "allow-forms".toList) facts.csp) := by
  have hrun : ∃ r', navigation (framed "allow-forms".toList) (sampleUrl "doc.example" "/") [] sampleRun = .ok r' := ⟨_, rfl⟩
  obtain ⟨r', hrun⟩ := hrun
  obtain ⟨facts, hdocument, hiff⟩ := (sandbox_only_takes_away_iff _ _ _ _).2 r' hrun
  exact ⟨r', facts, hrun, hdocument, hiff⟩

/-- Spaces up to the limit, but for the name of a capability. -/
def cutBlanks : Text := List.replicate (Frame.MAX_HEADER_BYTES * 4 - 12) ' '

/-- An attribute of one token that the limit cuts to another. -/
def cutAttribute : Text := cutBlanks ++ "allow-popups-to-escape-sandbox".toList

theorem splitOnP_blanks {t : Text} (ht : ∀ c ∈ t, Frame.isSpace c = false) : ∀ (n : Nat), ∀ piece ∈
    (List.replicate n ' ' ++ t).splitOnP Frame.isSpace, piece = [] ∨ piece = t
  | 0, piece, h => by
      rw [List.replicate_zero, List.nil_append, List.splitOnP_eq_singleton ht, List.mem_singleton] at h
      exact Or.inr h
  | n + 1, piece, h => by
      rw [List.replicate_succ, List.cons_append, List.splitOnP_cons_eq_if_modifyHead,
        if_pos (show Frame.isSpace ' ' = true from rfl)] at h
      rcases List.mem_cons.mp h with hnil | h
      · exact Or.inl hnil
      · exact splitOnP_blanks ht n piece h

theorem rtakeWhile_blanks {t : Text} (ht : ∀ c ∈ t, Frame.isSpace c = false) (n : Nat) :
    (List.replicate n ' ' ++ t).rtakeWhile (fun c => !Frame.isSpace c) = t := by
  have hall : ∀ c ∈ t.reverse, (!Frame.isSpace c) = true := fun c hc => by
    rw [ht c (List.mem_reverse.mp hc)]
    rfl
  rw [List.rtakeWhile, List.reverse_append, List.takeWhile_append_of_pos hall, List.reverse_replicate]
  cases n with
  | zero => rw [List.replicate_zero, List.takeWhile_nil, List.append_nil, List.reverse_reverse]
  | succ n =>
      rw [List.replicate_succ, List.takeWhile_cons_of_neg (by decide), List.append_nil, List.reverse_reverse]

/-- The document may open popups, which no token of its attribute allows. -/
theorem cut_token_allows_popups :
    ¬ OnlyTakesAway (framed cutAttribute).iframeSandbox ⟨[]⟩ (sandboxOf (framed cutAttribute) ⟨[]⟩)
      (Frame.sandboxedOrigin 0 (sandboxOf (framed cutAttribute) ⟨[]⟩) (sampleOrigin "doc.example")) := by
  rw [onlyTakesAway_iff]
  intro h
  have hplain : ∀ t : Text, (t.all fun c => !Frame.isSpace c) = true → ∀ c ∈ t, Frame.isSpace c = false :=
    fun t hall c hc => Bool.not_eq_true' _ ▸ List.all_eq_true.mp hall c hc
  have hcut : Frame.CutNames cutAttribute .popups := by
    refine ⟨cutBlanks ++ "allow-popups".toList, '-', "to-escape-sandbox".toList, ?_, ?_, rfl, ?_⟩
    · rw [cutAttribute, List.append_assoc]
      rfl
    · have hascii : isAscii cutBlanks = true := List.all_eq_true.mpr fun c hc => by
        rw [List.eq_of_mem_replicate hc]
        rfl
      rw [len_append, len_of_isAscii hascii, cutBlanks, List.length_replicate]
      rfl
    · rw [cutBlanks, rtakeWhile_blanks (hplain _ (by decide))]
      exact ⟨"allow-popups".toList, by simp [SandboxAllow.TABLE], rfl⟩
  have hall : Csp.PolicySet.AllName ⟨[]⟩ .popups := fun p hp => absurd hp List.not_mem_nil
  rcases h cutAttribute rfl .popups hcut with hwhole | hnot
  · obtain ⟨t, ht, hname⟩ := hwhole
    rcases splitOnP_blanks (hplain _ (by decide)) _ t ht with rfl | rfl
    · exact Frame.not_names_nil _ hname
    · cases SandboxFlags.allow?_eq_some.mpr hname
  · exact hnot hall

end Pelorus.Secure
