import Pelorus.Websec.Csp.Check

/-
  Websec/Csp/Accumulate.lean --- restrictions only accumulate.

  A SET has every policy that its headers and its `<meta>` elements wrote, or it has the policy
  that denies everything.  What one policy blocks, either of them blocks.
-/
set_option autoImplicit false

namespace Pelorus.Websec.Csp

open Lib Lib.Text

/-! ## Operations -/

/-- What a document may want to do, with the arguments of the check that it meets. -/
inductive Operation where
  | request (kind : RequestKind) (url : CspUrl) (origin : Origin) (opts : RequestOptions)
  | inline_ (ty : InlineType) (nonce : Option Text) (source : Text)
  | eval (kind : EvalKind)
  | formAction (url : CspUrl) (origin : Origin) (redirects : UInt32)
  | baseUri (url : CspUrl) (origin : Origin)
  | framing (responseUrl : CspUrl) (ancestors : List CspUrl)
  | mixedContent (url : CspUrl) (documentIsSecure : Bool)

namespace Operation

/-- The check of one policy. -/
def check (digest : HashAlg → Bytes → Bytes) : Operation → Policy → Decision
  | .request kind url origin opts, p => checkRequest p kind url origin opts
  | .inline_ ty nonce source, p => checkInline digest p ty nonce source
  | .eval kind, p => checkEval p kind
  | .formAction url origin redirects, p => checkFormAction p url origin redirects
  | .baseUri url origin, p => checkBaseUri p url origin
  | .framing responseUrl ancestors, p => checkFrameAncestors p responseUrl ancestors
  | .mixedContent url secure, p => blocksMixedContent p url secure

/-- The check of a set. -/
def verdict (digest : HashAlg → Bytes → Bytes) : Operation → PolicySet → Verdict
  | .request kind url origin opts, set => set.checkRequest kind url origin opts
  | .inline_ ty nonce source, set => set.checkInline digest ty nonce source
  | .eval kind, set => set.checkEval kind
  | .formAction url origin redirects, set => set.checkFormAction url origin redirects
  | .baseUri url origin, set => set.checkBaseUri url origin
  | .framing responseUrl ancestors, set => set.checkFrameAncestors responseUrl ancestors
  | .mixedContent url secure, set => set.checkMixedContent url secure

/-- What some policy can block: framing has an ancestor, and mixed content is mixed. -/
def Stoppable : Operation → Prop
  | .framing _ ancestors => ancestors ≠ []
  | .mixedContent url secure => secure = true ∧ isPotentiallyTrustworthy url = false
  | _ => True

variable {digest : HashAlg → Bytes → Bytes}
variable {op : Operation} {p : Policy}

theorem verdict_isBlocked {set : PolicySet} :
    (op.verdict digest set).isBlocked = true ↔
      ∃ p ∈ set.policies, p.disposition = .enforce ∧ op.check digest p ≠ .allowed := by
  have heq : op.verdict digest set = set.evaluate (op.check digest) := by
    cases op <;> rfl
  rw [heq, Verdict.isBlocked, Option.isSome_iff_ne_none, ne_eq, PolicySet.evaluate_blocked]
  simp only [not_forall, exists_prop, ne_eq]

/-! ## What a policy without directives, and one that denies all, say -/

theorem sourceList_of_isEmpty
    (h : p.directives.isEmpty = true) (name : Text) : p.sourceList name = none := by
  rw [Policy.sourceList, Policy.directive, List.isEmpty_iff.mp h]
  rfl

theorem governing_of_isEmpty (h : p.directives.isEmpty = true) (effective : Text) :
    governing p effective = none := by
  refine List.findSome?_eq_none_iff.mpr fun name _ => ?_
  rw [sourceList_of_isEmpty h]
  rfl

/-- A policy without directives blocks nothing. -/
theorem check_of_isEmpty (h : p.directives.isEmpty = true) : op.check digest p = .allowed := by
  have hsimple : ∀ directive url origin redirects, simpleDirectiveCheck p directive url origin redirects = .allowed := by
    intro directive url origin redirects
    rw [simpleDirectiveCheck, sourceList_of_isEmpty h]
  cases op with
  | request kind url origin opts =>
      simp only [check, checkRequest, governing_of_isEmpty h]
  | inline_ ty nonce source =>
      simp only [check, checkInline, governing_of_isEmpty h]
  | eval kind =>
      simp only [check, checkEval, governing_of_isEmpty h]
  | formAction url origin redirects => exact hsimple _ _ _ _
  | baseUri url origin => exact hsimple _ _ _ _
  | framing responseUrl ancestors =>
      simp only [check, checkFrameAncestors, sourceList_of_isEmpty h, ite_self]
  | mixedContent url secure =>
      have hhas : p.has "block-all-mixed-content".toList = false := by
        rw [Policy.has, Policy.directive, List.isEmpty_iff.mp h]
        rfl
      rw [check, blocksMixedContent, hhas]
      rfl

/-- What some policy blocks can be stopped. -/
theorem stoppable_of_check (h : op.check digest p ≠ .allowed) : op.Stoppable := by
  cases op with
  | framing responseUrl ancestors =>
      rintro rfl
      refine h ?_
      rw [check, checkFrameAncestors]
      cases p.sourceList "frame-ancestors".toList with
      | none => exact ite_self _
      | some list => exact ite_self _
  | mixedContent url secure =>
      rw [check, blocksMixedContent, ne_eq, ite_eq_right_iff, Classical.not_imp] at h
      have hmixed := h.1
      simp only [Bool.and_eq_true, Bool.not_eq_true'] at hmixed
      exact ⟨hmixed.1.2, hmixed.2⟩
  | request | inline_ | eval | formAction | baseUri => exact trivial

/-- The source list of the policy that denies all. -/
def noSource : SourceList := ⟨[.keyword .none_]⟩

theorem simpleDirectiveCheck_denyAll {directive : Text} (h : Policy.denyAll.sourceList directive = some noSource)
    (url : CspUrl) (origin : Origin) (redirects : UInt32) :
    simpleDirectiveCheck .denyAll directive url origin redirects ≠ .allowed := by
  rw [simpleDirectiveCheck, h]
  exact Decision.noConfusion

/-- The policy that denies all blocks what can be stopped. -/
theorem check_denyAll (h : op.Stoppable) : op.check digest .denyAll ≠ .allowed := by
  cases op with
  | request kind url origin opts =>
      have hgov : governing .denyAll kind.effectiveDirective = some ("default-src".toList, noSource) := by
        cases kind <;> rfl
      have hstyle : (kind = .style && ("default-src".toList = "style-src".toList || "default-src".toList = "style-src-elem".toList) &&
          opts.nonce.any noSource.nonceMatches) = false := by
        rw [Bool.and_assoc]
        exact Bool.and_false _
      simp only [check, checkRequest, hgov]
      rw [hstyle]
      exact Decision.noConfusion
  | inline_ ty nonce source =>
      have hgov : governing .denyAll (inlineDirective ty) = some ("default-src".toList, noSource) := by
        cases ty <;> rfl
      have hnonce : nonce.any noSource.nonceMatches = false := by
        cases nonce with
        | none => rfl
        | some n => exact Bool.and_false _
      have hinline : noSource.allowsAllInline ty = false := rfl
      have hhash : noSource.hashMatchesText digest source = false := rfl
      simp only [check, checkInline, hgov, hnonce, hinline, hhash, Bool.and_false, Bool.false_eq_true, if_false]
      exact Decision.noConfusion
  | eval kind =>
      have hgov : governing .denyAll "script-src".toList = some ("default-src".toList, noSource) := rfl
      have hwasm : noSource.hasKeyword .wasmUnsafeEval = false := rfl
      have heval : noSource.hasKeyword .unsafeEval = false := rfl
      simp only [check, checkEval, hgov, hwasm, heval, Bool.and_false, Bool.or_false, Bool.false_eq_true, if_false]
      exact Decision.noConfusion
  | formAction url origin redirects =>
      have hlist : Policy.denyAll.sourceList "form-action".toList = some noSource := rfl
      exact simpleDirectiveCheck_denyAll hlist url origin redirects
  | baseUri url origin =>
      have hlist : Policy.denyAll.sourceList "base-uri".toList = some noSource := rfl
      exact simpleDirectiveCheck_denyAll hlist url origin 0
  | framing responseUrl ancestors =>
      have hlist : Policy.denyAll.sourceList "frame-ancestors".toList = some noSource := rfl
      have hsource : Policy.denyAll.source ≠ .meta_ := PolicySource.noConfusion
      obtain ⟨a, rest, rfl⟩ := List.exists_cons_of_ne_nil h
      rw [check, checkFrameAncestors, if_neg hsource, hlist]
      exact Decision.noConfusion
  | mixedContent url secure =>
      have hhas : Policy.denyAll.has "block-all-mixed-content".toList = true := rfl
      rw [check, blocksMixedContent, hhas, h.1, h.2]
      exact Decision.noConfusion

end Operation

/-! ## What a set has -/

/-- What a header piece or a `<meta>` element says, parsed alone: to deny all, if it is too large. -/
def alone (parsed : Except ParseError Policy) : Policy :=
  match parsed with
  | .ok p => p
  | .error _ => .denyAll

/-- A policy, if it was written and holds a directive. -/
def written (parsed : Except ParseError Policy) : Option Policy := parsed.toOption.filter fun p => !p.directives.isEmpty

/-- The policies of some pieces of a header, each parsed alone. -/
def piecePolicies (disposition : Disposition) (pieces : List Bytes) : List Policy :=
  pieces.filterMap fun piece => written (Policy.parse piece disposition .header)

/-- The policies of header values: those of their comma-separated pieces. -/
def headerPolicies (disposition : Disposition) (values : List Bytes) : List Policy :=
  values.flatMap fun v => piecePolicies disposition (v.splitOn 0x2c)

/-- The policies of `<meta>` elements. -/
def metaPolicies (contents : List Bytes) : List Policy := contents.filterMap fun c => written (Policy.parseMeta c)

/-- No input is too large. -/
def Small (inputs : List Bytes) : Prop := ∀ v ∈ inputs, v.length ≤ MAX_POLICY_BYTES

/-- What is read within some limits is this, and beyond them nothing. -/
structure Reads {α : Type} (result : Except ParseError α) (limits : Prop) (value : α) : Prop where
  within : limits → result = .ok value
  beyond : ¬limits → ∃ e, result = .error e

theorem Reads.congr {α : Type} {result : Except ParseError α} {limits limits' : Prop} {value value' : α}
    (h : Reads result limits value) (hlimits : limits' ↔ limits) (hvalue : value' = value) :
    Reads result limits' value' :=
  ⟨fun hw => hvalue ▸ h.within (hlimits.mp hw), fun hb => h.beyond fun hw => hb (hlimits.mpr hw)⟩

theorem parse_reads (input : Bytes) (disposition : Disposition) (source : PolicySource) : ∃ p,
    Reads (Policy.parse input disposition source) (input.length ≤ MAX_POLICY_BYTES) p :=
  ⟨_, fun hw => if_neg (Nat.not_lt.mpr hw), fun hb => ⟨_, if_pos (Nat.not_le.mp hb)⟩⟩

theorem written_ok (p : Policy) : written (.ok p) = if p.directives.isEmpty then none else some p := by
  cases hp : p.directives.isEmpty with
  | true => exact Option.filter_some_neg (by rw [hp]; decide)
  | false => exact Option.filter_some_pos (by rw [hp]; rfl)

theorem collectPolicies_reads {disposition : Disposition} : ∀ {pieces : List Bytes} {out : List Policy},
    Small pieces → out.length ≤ MAX_POLICIES →
    Reads (collectPolicies disposition out pieces) ((out ++ piecePolicies disposition pieces).length ≤ MAX_POLICIES)
      (out ++ piecePolicies disposition pieces)
  | [], out, _, hout => by
      have hnone : out ++ piecePolicies disposition [] = out := List.append_nil out
      rw [hnone]
      exact ⟨fun _ => rfl, fun hmany => absurd hout hmany⟩
  | piece :: pieces, out, hsmall, hout => by
      obtain ⟨hpiece, hrest⟩ := List.forall_mem_cons.mp hsmall
      obtain ⟨p, hp⟩ := parse_reads piece disposition .header
      have hparse := hp.within hpiece
      have hcons : piecePolicies disposition (piece :: pieces) =
          (written (.ok p)).toList ++ piecePolicies disposition pieces := by
        rw [piecePolicies, List.filterMap_cons, hparse]
        cases written (.ok p) <;> rfl
      rw [collectPolicies, hparse, hcons, written_ok]
      dsimp only
      cases hempty : p.directives.isEmpty with
      | true => exact collectPolicies_reads hrest hout
      | false =>
          simp only [Bool.false_eq_true, if_false]
          by_cases hfull : MAX_POLICIES ≤ out.length
          · rw [if_pos hfull]
            refine ⟨fun hfew => ?_, fun _ => ⟨_, rfl⟩⟩
            simp only [List.length_append, Option.toList_some, List.length_singleton] at hfew
            omega
          · have hroom : (out ++ [p]).length ≤ MAX_POLICIES := by
              rw [List.length_append, List.length_singleton]
              omega
            have hsplit : out ++ ((some p).toList ++ piecePolicies disposition pieces) =
                out ++ [p] ++ piecePolicies disposition pieces := (List.append_assoc _ _ _).symm
            rw [if_neg hfull, hsplit]
            exact collectPolicies_reads hrest hroom

/-- A header value is read, or it is too large, or it has too many policies. -/
theorem parsePolicyList_reads (disposition : Disposition) (v : Bytes) :
    Reads (parsePolicyList v disposition)
      (v.length ≤ MAX_POLICY_BYTES ∧ (headerPolicies disposition [v]).length ≤ MAX_POLICIES)
      (headerPolicies disposition [v]) := by
  have hone : headerPolicies disposition [v] = piecePolicies disposition (v.splitOn 0x2c) := List.append_nil _
  rw [hone, parsePolicyList]
  by_cases hlarge : MAX_POLICY_BYTES < v.length
  · rw [if_pos hlarge]
    exact ⟨fun hw => absurd hlarge (Nat.not_lt.mpr hw.1), fun _ => ⟨_, rfl⟩⟩
  · have hv := Nat.not_lt.mp hlarge
    have hsmall : Small (v.splitOn 0x2c) := fun piece hpiece =>
      Nat.le_trans (of_mem_splitOn hpiece).2.length_le hv
    rw [if_neg hlarge]
    exact (collectPolicies_reads hsmall (Nat.zero_le _)).congr (and_iff_right hv) rfl

namespace PolicySet

/-- The values of a header are read, or one is too large, or they have too many policies. -/
theorem addHeaders_reads {disposition : Disposition} : ∀ {values : List Bytes} {policies : List Policy},
    policies.length ≤ MAX_POLICIES →
    Reads (addHeaders disposition policies values)
      (Small values ∧ (policies ++ headerPolicies disposition values).length ≤ MAX_POLICIES)
      (policies ++ headerPolicies disposition values)
  | [], policies, hlen => by
      have hnone : policies ++ headerPolicies disposition [] = policies := List.append_nil policies
      rw [hnone]
      exact ⟨fun _ => rfl, fun hb => absurd ⟨List.forall_mem_nil _, hlen⟩ hb⟩
  | v :: values, policies, hlen => by
      have hcons : policies ++ headerPolicies disposition (v :: values) =
          policies ++ headerPolicies disposition [v] ++ headerPolicies disposition values := by
        rw [headerPolicies, headerPolicies, headerPolicies, List.flatMap_cons, List.flatMap_singleton, List.append_assoc]
      have hsmall : Small (v :: values) ↔ v.length ≤ MAX_POLICY_BYTES ∧ Small values := List.forall_mem_cons
      have hread := parsePolicyList_reads disposition v
      rw [addHeaders, hcons, hsmall]
      by_cases hv : v.length ≤ MAX_POLICY_BYTES ∧ (headerPolicies disposition [v]).length ≤ MAX_POLICIES
      · rw [hread.within hv]
        dsimp only
        by_cases hmany : MAX_POLICIES < (policies ++ headerPolicies disposition [v]).length
        · rw [if_pos hmany]
          refine ⟨fun hw => ?_, fun _ => ⟨_, rfl⟩⟩
          have hfew := hw.2
          rw [List.length_append] at hfew
          omega
        · rw [if_neg hmany]
          refine (addHeaders_reads (Nat.not_lt.mp hmany)).congr ?_ rfl
          rw [and_assoc, and_iff_right hv.1]
      · obtain ⟨e, he⟩ := hread.beyond hv
        rw [he]
        refine ⟨fun hw => absurd ⟨hw.1.1, ?_⟩ hv, fun _ => ⟨_, rfl⟩⟩
        have hfew := hw.2
        simp only [List.length_append] at hfew
        omega

/-- The headers are read, or one value is too large, or they have too many policies. -/
theorem fromHeaders_reads (enforce reportOnly : List Bytes) :
    Reads (fromHeaders enforce reportOnly)
      (Small (enforce ++ reportOnly) ∧
        (headerPolicies .enforce enforce ++ headerPolicies .report reportOnly).length ≤ MAX_POLICIES)
      ⟨headerPolicies .enforce enforce ++ headerPolicies .report reportOnly⟩ := by
  have hread := @addHeaders_reads .enforce enforce [] (Nat.zero_le _)
  have hsmall : Small (enforce ++ reportOnly) ↔ Small enforce ∧ Small reportOnly := List.forall_mem_append
  rw [List.nil_append] at hread
  rw [fromHeaders, hsmall]
  by_cases hfirst : Small enforce ∧ (headerPolicies .enforce enforce).length ≤ MAX_POLICIES
  · have hrest := @addHeaders_reads .report reportOnly _ hfirst.2
    rw [hread.within hfirst]
    dsimp only
    by_cases hboth : Small reportOnly ∧
        (headerPolicies .enforce enforce ++ headerPolicies .report reportOnly).length ≤ MAX_POLICIES
    · rw [hrest.within hboth]
      exact ⟨fun _ => rfl, fun hb => absurd ⟨⟨hfirst.1, hboth.1⟩, hboth.2⟩ hb⟩
    · obtain ⟨e, he⟩ := hrest.beyond hboth
      rw [he]
      exact ⟨fun hw => absurd ⟨hw.1.2, hw.2⟩ hboth, fun _ => ⟨_, rfl⟩⟩
  · obtain ⟨e, he⟩ := hread.beyond hfirst
    rw [he]
    refine ⟨fun hw => absurd ⟨hw.1.1, ?_⟩ hfirst, fun _ => ⟨_, rfl⟩⟩
    have hfew := hw.2
    rw [List.length_append] at hfew
    omega

/-- Within some limits a set has these policies, and beyond them the one that denies all. -/
structure Has (set : PolicySet) (limits : Prop) (policies : List Policy) : Prop where
  within : limits → set.policies = policies
  beyond : ¬limits → Policy.denyAll ∈ set.policies
  few : limits → policies.length ≤ MAX_POLICIES

variable {set : PolicySet}

theorem Has.congr {limits limits' : Prop} {policies policies' : List Policy} (h : Has set limits policies)
    (hlimits : limits' ↔ limits) (hpolicies : policies' = policies) : Has set limits' policies' := by
  rw [hpolicies, propext hlimits]
  exact h

theorem fromHeadersFailClosed_has (enforce reportOnly : List Bytes) :
    Has (fromHeadersFailClosed enforce reportOnly)
      (Small (enforce ++ reportOnly) ∧
        (headerPolicies .enforce enforce ++ headerPolicies .report reportOnly).length ≤ MAX_POLICIES)
      (headerPolicies .enforce enforce ++ headerPolicies .report reportOnly) := by
  have hread := fromHeaders_reads enforce reportOnly
  refine ⟨fun hw => ?_, fun hb => ?_, And.right⟩
  · rw [fromHeadersFailClosed, hread.within hw]
  · obtain ⟨e, he⟩ := hread.beyond hb
    rw [fromHeadersFailClosed, he]
    exact List.mem_singleton_self _

theorem mem_addMeta {p : Policy} (h : p ∈ set.policies) (content : Bytes) :
    p ∈ (set.addMeta content).policies := by
  have hadd : set.addMeta content =
      if !(alone (Policy.parseMeta content)).directives.isEmpty && set.policies.length < MAX_POLICIES then
        ⟨set.policies ++ [alone (Policy.parseMeta content)]⟩
      else if !(alone (Policy.parseMeta content)).directives.isEmpty then ⟨set.policies ++ [Policy.denyAll]⟩
      else set := rfl
  rw [hadd]
  split
  · exact List.mem_append_left _ h
  · split
    · exact List.mem_append_left _ h
    · exact h

/-- What is too large is taken for the policy that denies all. -/
theorem denyAll_mem_addMeta {content : Bytes} {e : ParseError} (h : Policy.parseMeta content = .error e) :
    Policy.denyAll ∈ (set.addMeta content).policies := by
  have hwritten : (!Policy.denyAll.directives.isEmpty) = true := rfl
  simp only [addMeta, h, hwritten, Bool.true_and, if_true]
  split
  · exact List.mem_append_right _ (List.mem_singleton_self _)
  · exact List.mem_append_right _ (List.mem_singleton_self _)

theorem parseMeta_reads (content : Bytes) : ∃ p, Reads (Policy.parseMeta content) (content.length ≤ MAX_POLICY_BYTES) p := by
  obtain ⟨p, hp⟩ := parse_reads content .enforce .meta_
  by_cases hsmall : content.length ≤ MAX_POLICY_BYTES
  · rw [Policy.parseMeta, hp.within hsmall]
    exact ⟨_, fun _ => rfl, fun hb => absurd hsmall hb⟩
  · obtain ⟨e, he⟩ := hp.beyond hsmall
    rw [Policy.parseMeta, he]
    exact ⟨p, fun hw => absurd hw hsmall, fun _ => ⟨e, rfl⟩⟩

/-- One more `<meta>` element adds its policy, or the one that denies all. -/
theorem Has.addMeta {limits : Prop} {policies : List Policy}
    (h : Has set limits policies) (content : Bytes) :
    Has (set.addMeta content)
      (limits ∧ content.length ≤ MAX_POLICY_BYTES ∧ (policies ++ metaPolicies [content]).length ≤ MAX_POLICIES)
      (policies ++ metaPolicies [content]) := by
  obtain ⟨p, hp⟩ := parseMeta_reads content
  by_cases hlimits : limits
  · by_cases hsmall : content.length ≤ MAX_POLICY_BYTES
    · have hparse := hp.within hsmall
      have hmeta : metaPolicies [content] = (written (.ok p)).toList := by
        rw [metaPolicies, List.filterMap_cons, hparse]
        cases written (.ok p) <;> rfl
      rw [PolicySet.addMeta, hparse, hmeta, written_ok, h.within hlimits]
      dsimp only
      cases hempty : p.directives.isEmpty with
      | true =>
          have hall : policies ++ (none : Option Policy).toList = policies := List.append_nil policies
          simp only [Bool.not_true, Bool.false_and, Bool.false_eq_true, if_false, if_true, hall]
          exact ⟨fun _ => h.within hlimits, fun hb => absurd ⟨hlimits, hsmall, h.few hlimits⟩ hb, fun hw => hw.2.2⟩
      | false =>
          simp only [Bool.not_false, Bool.true_and, Bool.false_eq_true, if_false, if_true]
          by_cases hroom : policies.length < MAX_POLICIES
          · rw [if_pos (decide_eq_true hroom)]
            refine ⟨fun _ => rfl, fun hb => absurd ⟨hlimits, hsmall, ?_⟩ hb, fun hw => hw.2.2⟩
            rw [List.length_append]
            exact hroom
          · rw [if_neg (by simpa using hroom)]
            refine ⟨fun hw => ?_, fun _ => List.mem_append_right _ (List.mem_singleton_self _), fun hw => hw.2.2⟩
            have hfew := hw.2.2
            rw [List.length_append, Option.toList_some, List.length_singleton] at hfew
            omega
    · obtain ⟨e, he⟩ := hp.beyond hsmall
      exact ⟨fun hw => absurd hw.2.1 hsmall, fun _ => denyAll_mem_addMeta he, fun hw => hw.2.2⟩
  · exact ⟨fun hw => absurd hw.1 hlimits, fun _ => mem_addMeta (h.beyond hlimits) content, fun hw => hw.2.2⟩

/-- Every `<meta>` element adds its policy, or the set has the one that denies all. -/
theorem Has.addMetas : ∀ {contents : List Bytes} {set : PolicySet} {limits : Prop} {policies : List Policy},
    Has set limits policies →
    Has (contents.foldl PolicySet.addMeta set)
      (limits ∧ Small contents ∧ (policies ++ metaPolicies contents).length ≤ MAX_POLICIES)
      (policies ++ metaPolicies contents)
  | [], set, limits, policies, h => by
      have hnone : policies ++ metaPolicies [] = policies := List.append_nil policies
      rw [hnone]
      exact h.congr ⟨And.left, fun hl => ⟨hl, List.forall_mem_nil _, h.few hl⟩⟩ rfl
  | content :: contents, set, limits, policies, h => by
      have hsplit : policies ++ metaPolicies (content :: contents) =
          policies ++ metaPolicies [content] ++ metaPolicies contents := by
        rw [List.append_assoc, metaPolicies, metaPolicies, metaPolicies, ← List.filterMap_append]
        rfl
      have hsmall : Small (content :: contents) ↔ content.length ≤ MAX_POLICY_BYTES ∧ Small contents :=
        List.forall_mem_cons
      rw [List.foldl_cons, hsplit, hsmall]
      refine (h.addMeta content).addMetas.congr ⟨fun hw => ?_, fun hw => ?_⟩ rfl
      · refine ⟨⟨hw.1, hw.2.1.1, ?_⟩, hw.2.1.2, hw.2.2⟩
        have hfew := hw.2.2
        rw [List.length_append] at hfew
        omega
      · exact ⟨hw.1.1, ⟨hw.1.2.1, hw.2.1⟩, hw.2.2⟩

end PolicySet

/-! ## Documents -/

/-- No header value or `<meta>` element is too large, and there are not too many policies. -/
structure WithinLimits (enforce reportOnly metas : List Bytes) : Prop where
  small : Small (enforce ++ reportOnly ++ metas)
  few : (headerPolicies .enforce enforce ++ headerPolicies .report reportOnly ++ metaPolicies metas).length ≤ MAX_POLICIES

/-- The set that a document has. -/
def documentPolicies (enforce reportOnly metas : List Bytes) : PolicySet :=
  metas.foldl PolicySet.addMeta (PolicySet.fromHeadersFailClosed enforce reportOnly)

theorem documentPolicies_has (enforce reportOnly metas : List Bytes) :
    (documentPolicies enforce reportOnly metas).Has (WithinLimits enforce reportOnly metas)
      (headerPolicies .enforce enforce ++ headerPolicies .report reportOnly ++ metaPolicies metas) := by
  refine (PolicySet.fromHeadersFailClosed_has enforce reportOnly).addMetas.congr ⟨fun hw => ?_, fun hw => ?_⟩ rfl
  · obtain ⟨hheaders, hmetas⟩ := List.forall_mem_append.mp hw.small
    refine ⟨⟨hheaders, ?_⟩, hmetas, hw.few⟩
    have hfew := hw.few
    rw [List.length_append] at hfew
    omega
  · exact ⟨List.forall_mem_append.mpr ⟨hw.1.1, hw.2.1⟩, hw.2.2⟩

/-- What some piece of an enforced header, or some `<meta>` element, blocks. -/
def SomeBlocks (digest : HashAlg → Bytes → Bytes) (op : Operation) (enforce metas : List Bytes) : Prop :=
  (∃ v ∈ enforce, ∃ piece ∈ v.splitOn 0x2c, op.check digest (alone (Policy.parse piece .enforce .header)) ≠ .allowed) ∨
    ∃ content ∈ metas, op.check digest (alone (Policy.parseMeta content)) ≠ .allowed

theorem written_eq_some {parsed : Except ParseError Policy} {p : Policy} (h : written parsed = some p) : parsed = .ok p := by
  obtain ⟨hp, _⟩ := Option.filter_eq_some_iff.mp h
  cases parsed with
  | ok q => exact congrArg _ (Option.some.inj hp)
  | error e => cases hp

/-- A policy that blocks something holds a directive. -/
theorem written_of_check {digest : HashAlg → Bytes → Bytes} {op : Operation} {p : Policy} (h : op.check digest p ≠ .allowed) :
    written (.ok p) = some p := by
  rw [written_ok]
  exact if_neg fun hempty => h (Operation.check_of_isEmpty hempty)

theorem mem_headerPolicies {disposition : Disposition} {values : List Bytes} {p : Policy} :
    p ∈ headerPolicies disposition values ↔
      ∃ v ∈ values, ∃ piece ∈ v.splitOn 0x2c, written (Policy.parse piece disposition .header) = some p := by
  simp only [headerPolicies, piecePolicies, List.mem_flatMap, List.mem_filterMap]

theorem disposition_parse {input : Bytes} {disposition : Disposition} {source : PolicySource} {p : Policy}
    (h : Policy.parse input disposition source = .ok p) : p.disposition = disposition := by
  unfold Policy.parse at h
  split at h
  · cases h
  · rw [← Except.ok.inj h]

theorem disposition_parseMeta {content : Bytes} {p : Policy} (h : Policy.parseMeta content = .ok p) :
    p.disposition = .enforce := by
  unfold Policy.parseMeta at h
  split at h
  · cases h
  · rename_i q hq
    rw [← Except.ok.inj h]
    exact (disposition_parse hq : q.disposition = .enforce)

/-- Nothing is left between flags that are none and any others. -/
theorem intersect_none {fs : List SandboxFlags} : ∀ {acc : Option SandboxFlags}, acc = some ⟨0⟩ ∨ ⟨0⟩ ∈ fs →
    fs.foldl (fun acc f => some ((acc.map fun a => a.intersect f).getD f)) acc = some ⟨0⟩ := by
  induction fs with
  | nil =>
      intro acc h
      exact h.elim id fun hmem => (List.not_mem_nil hmem).elim
  | cons f fs ih =>
      intro acc h
      rw [List.foldl_cons]
      refine ih ?_
      rcases h with rfl | hmem
      · exact Or.inl (congrArg some (congrArg SandboxFlags.mk (UInt16.zero_and)))
      · rcases List.mem_cons.mp hmem with rfl | hmem
        · refine Or.inl (congrArg some ?_)
          cases acc with
          | none => rfl
          | some a => exact congrArg SandboxFlags.mk (UInt16.and_zero)
        · exact Or.inr hmem

/-- A set that denies all has no capability left. -/
theorem sandboxFlags_of_denyAll {set : PolicySet} (h : Policy.denyAll ∈ set.policies) :
    ∃ f, set.sandboxFlags = some f ∧ ∀ a, f.allows a = false := by
  have hflags : Policy.denyAll.sandboxFlags = some ⟨0⟩ := rfl
  refine ⟨⟨0⟩, intersect_none (Or.inr (List.mem_filterMap.mpr ⟨_, h, hflags⟩)), fun a => ?_⟩
  cases a <;> rfl

/-- What one piece of an enforced header or one `<meta>` element blocks, the document's set blocks. Within the limits
it blocks nothing else, so that no report-only value makes it; beyond them it blocks everything that can be blocked, and
leaves no capability of the sandbox. -/
theorem restrictions_accumulate (digest : HashAlg → Bytes → Bytes) (enforce reportOnly metas : List Bytes) :
    (∀ op : Operation, SomeBlocks digest op enforce metas →
        (op.verdict digest (documentPolicies enforce reportOnly metas)).isBlocked = true) ∧
      (WithinLimits enforce reportOnly metas → ∀ op : Operation,
        (op.verdict digest (documentPolicies enforce reportOnly metas)).isBlocked = true → SomeBlocks digest op enforce metas) ∧
      (¬WithinLimits enforce reportOnly metas →
        (∀ op : Operation, op.Stoppable →
          (op.verdict digest (documentPolicies enforce reportOnly metas)).isBlocked = true) ∧
        ∃ f, (documentPolicies enforce reportOnly metas).sandboxFlags = some f ∧ ∀ a, f.allows a = false) := by
  have hhas := documentPolicies_has enforce reportOnly metas
  have hbeyond : ¬WithinLimits enforce reportOnly metas → ∀ op : Operation, op.Stoppable →
      (op.verdict digest (documentPolicies enforce reportOnly metas)).isBlocked = true := by
    intro hb op hop
    exact Operation.verdict_isBlocked.mpr ⟨_, hhas.beyond hb, rfl, Operation.check_denyAll hop⟩
  refine ⟨fun op hblocks => ?_, fun hw op hblocked => ?_, fun hb => ⟨hbeyond hb, sandboxFlags_of_denyAll (hhas.beyond hb)⟩⟩
  · by_cases hw : WithinLimits enforce reportOnly metas
    · obtain ⟨hheaders, hmetas⟩ := List.forall_mem_append.mp hw.small
      rw [Operation.verdict_isBlocked, hhas.within hw]
      rcases hblocks with ⟨v, hv, piece, hpiece, h⟩ | ⟨content, hcontent, h⟩
      · have hsmall : piece.length ≤ MAX_POLICY_BYTES :=
          Nat.le_trans (of_mem_splitOn hpiece).2.length_le (hheaders v (List.mem_append_left _ hv))
        obtain ⟨p, hp⟩ := parse_reads piece .enforce .header
        have hparse := hp.within hsmall
        rw [hparse] at h
        refine ⟨p, List.mem_append_left _ (List.mem_append_left _ (mem_headerPolicies.mpr ⟨v, hv, piece, hpiece, ?_⟩)),
          disposition_parse hparse, h⟩
        rw [hparse]
        exact written_of_check h
      · obtain ⟨p, hp⟩ := PolicySet.parseMeta_reads content
        have hparse := hp.within (hmetas content hcontent)
        rw [hparse] at h
        refine ⟨p, List.mem_append_right _ (List.mem_filterMap.mpr ⟨content, hcontent, ?_⟩), disposition_parseMeta hparse, h⟩
        rw [hparse]
        exact written_of_check h
    · refine hbeyond hw op ?_
      rcases hblocks with ⟨_, _, _, _, h⟩ | ⟨_, _, h⟩
      · exact Operation.stoppable_of_check h
      · exact Operation.stoppable_of_check h
  · rw [Operation.verdict_isBlocked, hhas.within hw] at hblocked
    obtain ⟨p, hp, henforced, h⟩ := hblocked
    rcases List.mem_append.mp hp with hp | hp
    · rcases List.mem_append.mp hp with hp | hp
      · obtain ⟨v, hv, piece, hpiece, hwritten⟩ := mem_headerPolicies.mp hp
        refine Or.inl ⟨v, hv, piece, hpiece, ?_⟩
        rw [written_eq_some hwritten]
        exact h
      · -- a policy of a report-only header is not enforced
        obtain ⟨_, _, _, _, hwritten⟩ := mem_headerPolicies.mp hp
        rw [disposition_parse (written_eq_some hwritten)] at henforced
        cases henforced
    · obtain ⟨content, hcontent, hwritten⟩ := List.mem_filterMap.mp hp
      refine Or.inr ⟨content, hcontent, ?_⟩
      rw [written_eq_some hwritten]
      exact h

end Pelorus.Websec.Csp
