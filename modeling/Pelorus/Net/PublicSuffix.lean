import Pelorus.Net.Partition

/-
  Net/PublicSuffix.lean --- the published algorithm for public suffixes, and the
  lists and hosts on which the walk of `px-net/src/psl.rs` gives its answer.

  THE ALGORITHM.  Every rule of the list is matched against the trailing labels
  of the host; of the rules that match, an exception prevails, else the rule with
  the most labels, else `*`.  It never asks for a candidate text.

  THE WALK.  The code asks, from the whole host down, for a rule whose body is
  the candidate, and takes the first.  What that says of the rules is
  `suffixLabels_of_longest`; the two differ in two ways, and no third.  A rule
  longer than a matching exception is taken before the exception is seen; and a
  wildcard is taken for a host that is its body, which has no label for the `*`.
-/
set_option autoImplicit false

namespace Pelorus.Net.PublicSuffixList

open Lib Lib.Text

/-! ## The algorithm -/

/-- The labels of a host, which are compared in lower case. -/
def hostLabels (host : Text) : List Text := (toAsciiLowercase host).splitOn '.'

/-- The labels a rule is written with; for a wildcard, those after its `*`. -/
def ruleLabels (rule : Text × RuleKind) : List Text := rule.1.splitOn '.'

/-- The rule matches the trailing labels; a `*` matches one more, which has to be there. -/
def matchesLabels (labels : List Text) (rule : Text × RuleKind) : Bool :=
  (ruleLabels rule).isSuffixOf labels &&
    match rule.2 with
    | .wildcard => (ruleLabels rule).length < labels.length
    | .normal | .exception => true

/-- How many labels the rule has, its `*` among them. -/
def labelCount (rule : Text × RuleKind) : Nat :=
  match rule.2 with
  | .wildcard => (ruleLabels rule).length + 1
  | .normal | .exception => (ruleLabels rule).length

/-- The number of labels of the rule with the most labels. -/
def mostLabels (rules : List (Text × RuleKind)) : Nat :=
  rules.foldr (fun rule most => max (labelCount rule) most) 0

/-- The number of labels of the public suffix: an exception prevails and loses its leftmost
label, else the rule with the most labels prevails, else `*`. -/
def publicSuffix (psl : PublicSuffixList) (labels : List Text) : Nat :=
  let matching := psl.rules.filter (matchesLabels labels)
  let exceptions := matching.filter fun rule => rule.2 = .exception
  if exceptions ≠ [] then mostLabels exceptions - 1
  else if matching ≠ [] then mostLabels matching
  else 1

/-- The suffix and one label more, if there is one. -/
def oneMore (labels : List Text) (suffix : Nat) : Option Text :=
  if labels.length ≤ suffix then none
  else some (join (labels.drop (labels.length - (suffix + 1))))

/-- The public suffix of the host and one label more. -/
def eTldPlusOne (psl : PublicSuffixList) (host : Text) : Option Text :=
  oneMore (hostLabels host) (psl.publicSuffix (hostLabels host))

/-- No body stands in two rules of different kinds. -/
def OneRulePerBody (psl : PublicSuffixList) : Prop :=
  ∀ (body : Text) (kind kind' : RuleKind),
    (body, kind) ∈ psl.rules → (body, kind') ∈ psl.rules → kind = kind'

/-- The host is written as an address, plainly or in brackets. -/
def IsIpLiteral (host : Text) : Prop :=
  IpText.isIpAddr (toAsciiLowercase host) ∨ (toAsciiLowercase host).head? = some '['

/-! ## Labels and their texts -/

/-- Labels a host can have: there is one, none is empty, and none holds a dot. -/
structure Labels (labels : List Text) : Prop where
  ne_nil : labels ≠ []
  nonempty : ∀ l ∈ labels, l ≠ []
  noDot : ∀ l ∈ labels, '.' ∉ l

theorem Labels.suffix {labels e : List Text} (h : Labels labels) (he : e <:+ labels) (hne : e ≠ []) :
    Labels e :=
  ⟨hne, fun l hl => h.nonempty l (he.subset hl), fun l hl => h.noDot l (he.subset hl)⟩

theorem Labels.splitOn_join {labels : List Text} (h : Labels labels) : (join labels).splitOn '.' = labels :=
  List.splitOn_intercalate '.' h.noDot h.ne_nil

theorem join_splitOn (body : Text) : join (body.splitOn '.') = body :=
  List.intercalate_splitOn '.'

theorem Labels.join_inj {labels labels' : List Text} (h : Labels labels) (h' : Labels labels')
    (heq : join labels = join labels') : labels = labels' := by
  rw [← h.splitOn_join, heq, h'.splitOn_join]

theorem labels_hostLabels {host : Text} (h : ∀ l ∈ hostLabels host, l ≠ []) : Labels (hostLabels host) :=
  ⟨List.splitOn_ne_nil _ _, h, fun _ hl => (of_mem_splitOn hl).1⟩

/-- Nothing the code does to a host before it splits it changes a host that has labels. -/
theorem registrableDomain_eq {psl : PublicSuffixList} {host : Text} (hlabels : Labels (hostLabels host))
    (hip : ¬ IsIpLiteral host) :
    psl.registrableDomain host =
      oneMore (hostLabels host) ((psl.suffixLabels (hostLabels host)).getD 1) := by
  -- an empty piece of the host is where it has a dot too many
  have hpieces : ∀ a b : Text, toAsciiLowercase host = a ++ '.' :: b →
      [] ∉ a.splitOn '.' ∧ [] ∉ b.splitOn '.' := by
    intro a b heq
    have hsplit : hostLabels host = a.splitOn '.' ++ b.splitOn '.' := by
      rw [hostLabels, heq, List.splitOn_append_cons_self]
    constructor
    · intro hmem
      exact hlabels.nonempty [] (by rw [hsplit]; exact List.mem_append_left _ hmem) rfl
    · intro hmem
      exact hlabels.nonempty [] (by rw [hsplit]; exact List.mem_append_right _ hmem) rfl
  have htrim : trimEndMatches (· = '.') host = host := by
    rw [trimEndMatches, List.rdropWhile_eq_self_iff]
    intro hne hlast
    have hlast : host.getLast hne = '.' := by simpa using hlast
    have hhost : host = host.dropLast ++ ['.'] := by
      rw [← hlast, List.dropLast_append_getLast hne]
    have := (hpieces (toAsciiLowercase host.dropLast) [] (by
      conv_lhs => rw [hhost]
      rw [toAsciiLowercase, List.map_append]
      rfl)).2
    simp at this
  have hnil : toAsciiLowercase host ≠ [] := by
    intro h
    exact hlabels.nonempty [] (by simp [hostLabels, h]) rfl
  have hhead : (toAsciiLowercase host).head? ≠ some '.' := by
    intro h
    obtain ⟨rest, hrest⟩ := List.head?_eq_some_iff.mp h
    have := (hpieces [] rest hrest).1
    simp at this
  have hdots : ¬ ['.', '.'] <:+: toAsciiLowercase host := by
    rintro ⟨a, b, heq⟩
    have := (hpieces a ('.' :: b) (by simpa using heq.symm)).2
    rw [List.splitOn_cons_eq_if_modifyHead] at this
    simp at this
  have hbracket : (toAsciiLowercase host).head? ≠ some '[' := fun h => hip (Or.inr h)
  have hany : ((toAsciiLowercase host).splitOn '.').any (fun label => label.isEmpty) = false := by
    rw [List.any_eq_false]
    intro l hl
    simpa using hlabels.nonempty l hl
  have haddress : ¬ (IpText.isIpAddr (toAsciiLowercase host) = true) := fun h => hip (Or.inl h)
  simp only [registrableDomain, htrim, hnil, hhead, hdots, or_self, if_false, haddress, hbracket, hany,
    hostLabels, Bool.false_eq_true]
  rfl

/-- Two suffixes give one answer if they are the same, or leave no label both. -/
theorem oneMore_eq_iff {labels : List Text} (hlabels : Labels labels) {s t : Nat} :
    oneMore labels s = oneMore labels t ↔ s = t ∨ labels.length ≤ s ∧ labels.length ≤ t := by
  have hdrop : ∀ {s : Nat}, ¬ labels.length ≤ s → Labels (labels.drop (labels.length - (s + 1))) := by
    intro s hs
    apply hlabels.suffix (List.drop_suffix _ _)
    intro hnil
    have := List.drop_eq_nil_iff.mp hnil
    omega
  unfold oneMore
  split
  · split <;> simp <;> omega
  · split
    · simp
      omega
    · rename_i hs ht
      rw [Option.some.injEq]
      constructor
      · intro heq
        have := congrArg List.length ((hdrop hs).join_inj (hdrop ht) heq)
        rw [List.length_drop, List.length_drop] at this
        omega
      · rintro (rfl | ⟨h, -⟩)
        · rfl
        · exact absurd h hs

/-! ## The rules as candidates -/

/-- A text the walk asks for: some of the last labels. -/
def Candidate (labels e : List Text) : Prop := e <:+ labels ∧ e ≠ []

theorem rule?_eq_some_iff {psl : PublicSuffixList} (hone : psl.OneRulePerBody) {body : Text} {kind : RuleKind} :
    psl.rule? body = some kind ↔ (body, kind) ∈ psl.rules := by
  have hmem : ∀ kind, psl.rule? body = some kind → (body, kind) ∈ psl.rules := by
    intro kind h
    obtain ⟨before, after, hrules, -⟩ := List.lookup_eq_some_iff.mp h
    simp [hrules]
  constructor
  · exact hmem kind
  · intro h
    cases hfound : psl.rule? body with
    | none =>
        have := List.lookup_eq_none_iff.mp hfound (body, kind) h
        simp at this
    | some kind' => rw [hone body kind' kind (hmem kind' hfound) h]

theorem candidate_of_matching {psl : PublicSuffixList} {labels : List Text} {rule : Text × RuleKind}
    (h : rule ∈ psl.rules.filter (matchesLabels labels)) :
    ∃ e, Candidate labels e ∧ rule = (join e, rule.2) := by
  obtain ⟨-, hmatches⟩ := List.mem_filter.mp h
  rw [matchesLabels, Bool.and_eq_true, List.isSuffixOf_iff_suffix] at hmatches
  refine ⟨ruleLabels rule, ⟨hmatches.1, List.splitOn_ne_nil _ _⟩, ?_⟩
  rw [ruleLabels, join_splitOn]

/-- A candidate names a rule that matches, unless the rule is a wildcard and the candidate the
whole host. -/
theorem mem_matching_iff {psl : PublicSuffixList} (hone : psl.OneRulePerBody) {labels e : List Text}
    (hlabels : Labels labels) (he : Candidate labels e) {kind : RuleKind} :
    (join e, kind) ∈ psl.rules.filter (matchesLabels labels) ↔
      psl.rule? (join e) = some kind ∧ (kind = .wildcard → e.length < labels.length) := by
  have hsplit : ruleLabels (join e, kind) = e := (hlabels.suffix he.1 he.2).splitOn_join
  rw [List.mem_filter, ← rule?_eq_some_iff hone, matchesLabels, hsplit, Bool.and_eq_true,
    List.isSuffixOf_iff_suffix]
  cases kind <;> simp [he.1]

theorem labelCount_join {labels e : List Text} (hlabels : Labels labels) (he : Candidate labels e)
    (kind : RuleKind) :
    labelCount (join e, kind) = if kind = .wildcard then e.length + 1 else e.length := by
  have hsplit : ruleLabels (join e, kind) = e := (hlabels.suffix he.1 he.2).splitOn_join
  cases kind <;> simp [labelCount, hsplit]

theorem mostLabels_le {rules : List (Text × RuleKind)} {most : Nat}
    (h : ∀ rule ∈ rules, labelCount rule ≤ most) : mostLabels rules ≤ most := by
  induction rules with
  | nil => exact Nat.zero_le _
  | cons first rules ih =>
      exact Nat.max_le.mpr ⟨h first (by simp), ih fun rule hrule => h rule (by simp [hrule])⟩

theorem le_mostLabels {rules : List (Text × RuleKind)} {rule : Text × RuleKind} (h : rule ∈ rules) :
    labelCount rule ≤ mostLabels rules := by
  induction rules with
  | nil => cases h
  | cons first rules ih =>
      rcases List.mem_cons.mp h with rfl | h
      · exact Nat.le_max_left _ _
      · exact (ih h).trans (Nat.le_max_right _ _)

/-! ## The walk -/

/-- The longest candidate that is the body of a rule, and the kind of that rule. -/
structure Longest (psl : PublicSuffixList) (labels e : List Text) (kind : RuleKind) : Prop where
  candidate : Candidate labels e
  found : psl.rule? (join e) = some kind
  longest : ∀ e', Candidate labels e' → psl.rule? (join e') ≠ none → e'.length ≤ e.length

/-- What the walk makes of the rule it takes. -/
def walkCount (e : List Text) : RuleKind → Nat
  | .exception => e.length - 1
  | .wildcard => e.length + 1
  | .normal => e.length

theorem suffixLabels_of_longest (psl : PublicSuffixList) : ∀ labels : List Text,
    (psl.suffixLabels labels = none ∧ ∀ e, Candidate labels e → psl.rule? (join e) = none) ∨
      ∃ e kind, Longest psl labels e kind ∧ psl.suffixLabels labels = some (walkCount e kind)
  | [] => by
      left
      refine ⟨rfl, ?_⟩
      rintro e ⟨he, hne⟩
      exact absurd (List.suffix_nil.mp he) hne
  | label :: labels => by
      cases hfound : psl.rule? (join (label :: labels)) with
      | some kind =>
          right
          refine ⟨label :: labels, kind, ⟨⟨List.suffix_refl _, by simp⟩, hfound, ?_⟩, ?_⟩
          · intro e' he' _
            exact he'.1.length_le
          · rw [suffixLabels, hfound]
            cases kind <;> simp [walkCount]
      | none =>
          rw [suffixLabels, hfound]
          -- a candidate is the whole host, which has no rule, or one of the rest
          have hrest : ∀ e, Candidate (label :: labels) e → psl.rule? (join e) ≠ none →
              Candidate labels e := by
            rintro e ⟨he, hne⟩ hsome
            rcases List.suffix_cons_iff.mp he with rfl | he
            · exact absurd hfound hsome
            · exact ⟨he, hne⟩
          rcases suffixLabels_of_longest psl labels with ⟨hnone, hall⟩ | ⟨e, kind, hlongest, hcount⟩
          · left
            refine ⟨hnone, ?_⟩
            intro e he
            by_contra hsome
            exact hsome (hall e (hrest e he hsome))
          · right
            refine ⟨e, kind, ⟨⟨hlongest.candidate.1.trans (List.suffix_cons _ _), hlongest.candidate.2⟩,
              hlongest.found, ?_⟩, hcount⟩
            intro e' he' hsome
            exact hlongest.longest e' (hrest e' he' hsome) hsome

/-! ## The algorithm, by the longest candidate -/

section
variable {psl : PublicSuffixList} {labels : List Text}

/-- No candidate is the body of an exception. -/
def NoException (psl : PublicSuffixList) (labels : List Text) : Prop :=
  ∀ e, Candidate labels e → psl.rule? (join e) ≠ some .exception

/-- With no exception among the candidates the rule with the most labels decides. -/
theorem publicSuffix_of_noException (hone : psl.OneRulePerBody) (hlabels : Labels labels)
    (hno : NoException psl labels) :
    psl.publicSuffix labels =
      if psl.rules.filter (matchesLabels labels) = [] then 1
      else mostLabels (psl.rules.filter (matchesLabels labels)) := by
  have hexceptions :
      (psl.rules.filter (matchesLabels labels)).filter (fun rule => rule.2 = .exception) = [] := by
    rw [List.filter_eq_nil_iff]
    intro rule hrule hkind
    obtain ⟨e, he, heq⟩ := candidate_of_matching hrule
    rw [heq] at hrule
    refine hno e he ?_
    rw [((mem_matching_iff hone hlabels he).mp hrule).1]
    simpa using hkind
  simp only [publicSuffix, hexceptions, ne_eq, not_true_eq_false, if_false, ite_not]

/-- An exception among the candidates leaves a suffix shorter than the longest of them. -/
theorem publicSuffix_of_exception (hone : psl.OneRulePerBody) (hlabels : Labels labels) {e : List Text}
    (he : Candidate labels e) (hfound : psl.rule? (join e) = some .exception) {most : Nat}
    (hle : ∀ e', Candidate labels e' → psl.rule? (join e') = some .exception → e'.length ≤ most) :
    e.length - 1 ≤ psl.publicSuffix labels ∧ psl.publicSuffix labels ≤ most - 1 := by
  have hmem : (join e, .exception) ∈
      (psl.rules.filter (matchesLabels labels)).filter (fun rule => rule.2 = .exception) := by
    rw [List.mem_filter]
    exact ⟨(mem_matching_iff hone hlabels he).mpr ⟨hfound, by simp⟩, by simp⟩
  have hcount : ∀ rule ∈ (psl.rules.filter (matchesLabels labels)).filter (fun rule => rule.2 = .exception),
      labelCount rule ≤ most := by
    intro rule hrule
    obtain ⟨hrule, hkind⟩ := List.mem_filter.mp hrule
    obtain ⟨e', he', heq⟩ := candidate_of_matching hrule
    have hkind : rule.2 = .exception := by simpa using hkind
    rw [heq, hkind] at hrule
    rw [heq, hkind, labelCount_join hlabels he']
    simpa using hle e' he' ((mem_matching_iff hone hlabels he').mp hrule).1
  have hlow := le_mostLabels hmem
  rw [labelCount_join hlabels he] at hlow
  have hhigh := mostLabels_le hcount
  simp only [publicSuffix, ne_eq, List.ne_nil_of_mem hmem, not_false_eq_true, if_true]
  simp only [reduceCtorEq, if_false] at hlow
  omega

theorem Candidate.eq_of_length {e e' : List Text} (he : Candidate labels e) (he' : Candidate labels e')
    (hlength : e.length = e'.length) : e = e' :=
  (List.suffix_of_suffix_length_le he.1 he'.1 hlength.le).eq_of_length hlength

/-- Without an exception, and with a label for the `*`, the longest rule decides. -/
theorem publicSuffix_of_longest (hone : psl.OneRulePerBody) (hlabels : Labels labels)
    (hno : NoException psl labels) {e : List Text} {kind : RuleKind} (hlongest : Longest psl labels e kind)
    (hthere : kind = .wildcard → e.length < labels.length) : psl.publicSuffix labels = walkCount e kind := by
  have hmem := (mem_matching_iff hone hlabels hlongest.candidate).mpr ⟨hlongest.found, hthere⟩
  have hwalk : labelCount (join e, kind) = walkCount e kind := by
    rw [labelCount_join hlabels hlongest.candidate]
    cases kind with
    | normal => rfl
    | wildcard => rfl
    | exception => exact absurd hlongest.found (hno e hlongest.candidate)
  have hle : ∀ rule ∈ psl.rules.filter (matchesLabels labels), labelCount rule ≤ walkCount e kind := by
    intro rule hrule
    obtain ⟨e', he', heq⟩ := candidate_of_matching hrule
    rw [heq] at hrule ⊢
    have hfound := ((mem_matching_iff hone hlabels he').mp hrule).1
    have hlength := hlongest.longest e' he' (by simp [hfound])
    rcases Nat.lt_or_ge e'.length e.length with hlt | hge
    · rw [← hwalk, labelCount_join hlabels he', labelCount_join hlabels hlongest.candidate]
      split <;> split <;> omega
    · obtain rfl := he'.eq_of_length hlongest.candidate (by omega)
      have hkind : rule.2 = kind := Option.some.inj (hfound.symm.trans hlongest.found)
      rw [hkind, hwalk]
  rw [publicSuffix_of_noException hone hlabels hno, if_neg (List.ne_nil_of_mem hmem)]
  exact le_antisymm (mostLabels_le hle) (hwalk ▸ le_mostLabels hmem)

theorem labelCount_le_publicSuffix (hone : psl.OneRulePerBody) (hlabels : Labels labels)
    (hno : NoException psl labels) {rule : Text × RuleKind}
    (h : rule ∈ psl.rules.filter (matchesLabels labels)) : labelCount rule ≤ psl.publicSuffix labels := by
  rw [publicSuffix_of_noException hone hlabels hno, if_neg (List.ne_nil_of_mem h)]
  exact le_mostLabels h

theorem publicSuffix_pos (hone : psl.OneRulePerBody) (hlabels : Labels labels)
    (hno : NoException psl labels) : 0 < psl.publicSuffix labels := by
  by_cases hne : psl.rules.filter (matchesLabels labels) = []
  · rw [publicSuffix_of_noException hone hlabels hno, if_pos hne]
    exact Nat.one_pos
  · obtain ⟨rule, hrule⟩ := List.exists_mem_of_ne_nil _ hne
    obtain ⟨e, he, heq⟩ := candidate_of_matching hrule
    have hcount := labelCount_le_publicSuffix hone hlabels hno hrule
    have := List.length_pos_of_ne_nil he.2
    rw [heq, labelCount_join hlabels he] at hcount
    split at hcount <;> omega

/-- For a host that is a wildcard's body and no exception, the suffix is the whole host if the
implicit rule makes it so, or the wildcard of the parent. -/
theorem publicSuffix_of_body (hone : psl.OneRulePerBody) (hlabels : Labels labels)
    (hno : NoException psl labels) (hbody : psl.rule? (join labels) = some .wildcard) :
    labels.length ≤ psl.publicSuffix labels ↔
      labels.length = 1 ∨ psl.rule? (join labels.tail) = some .wildcard := by
  have hpos : 0 < labels.length := List.length_pos_of_ne_nil hlabels.ne_nil
  have hwhole : Candidate labels labels := ⟨List.suffix_refl _, hlabels.ne_nil⟩
  -- a rule as long as the host is the wildcard of its parent
  have hlong : ∀ rule ∈ psl.rules.filter (matchesLabels labels), labels.length ≤ labelCount rule →
      psl.rule? (join labels.tail) = some .wildcard := by
    intro rule hrule hcount
    obtain ⟨e, he, heq⟩ := candidate_of_matching hrule
    rw [heq] at hrule hcount
    obtain ⟨hfound, hthere⟩ := (mem_matching_iff hone hlabels he).mp hrule
    rw [labelCount_join hlabels he] at hcount
    split at hcount
    · rename_i hkind
      have htail : e = labels.tail :=
        (List.suffix_of_suffix_length_le he.1 (List.tail_suffix _) (by
          have := hthere hkind
          rw [List.length_tail]
          omega)).eq_of_length (by
            have := hthere hkind
            rw [List.length_tail]
            omega)
      rw [← htail, hfound, hkind]
    · rename_i hkind
      obtain rfl := he.eq_of_length hwhole (by have := he.1.length_le; omega)
      exact absurd (Option.some.inj (hfound.symm.trans hbody)) hkind
  constructor
  · intro hle
    rw [publicSuffix_of_noException hone hlabels hno] at hle
    split at hle
    · left
      omega
    · by_contra hneither
      push Not at hneither
      have hmost : mostLabels (psl.rules.filter (matchesLabels labels)) ≤ labels.length - 1 := by
        apply mostLabels_le
        intro rule hrule
        by_contra hgt
        exact hneither.2 (hlong rule hrule (by omega))
      omega
  · intro hcases
    have := publicSuffix_pos hone hlabels hno
    by_cases hsingle : labels.length = 1
    · omega
    · have hparent := hcases.resolve_left hsingle
      have htail : Candidate labels labels.tail := by
        refine ⟨List.tail_suffix _, ?_⟩
        intro hnil
        have := congrArg List.length hnil
        rw [List.length_tail, List.length_nil] at this
        omega
      have hmem := (mem_matching_iff hone hlabels htail).mpr ⟨hparent, fun _ => by
        rw [List.length_tail]
        omega⟩
      have hcount := labelCount_le_publicSuffix hone hlabels hno hmem
      rw [labelCount_join hlabels htail, if_pos rfl, List.length_tail] at hcount
      omega

end

/-! ## Where the walk gives the algorithm's answer -/

/-- If a candidate is an exception's body, the longest candidate with a rule is one. -/
def ExceptionLongest (psl : PublicSuffixList) (labels : List Text) : Prop :=
  ∀ e, Candidate labels e → psl.rule? (join e) = some .exception →
    ∃ e', Candidate labels e' ∧ psl.rule? (join e') = some .exception ∧
      ∀ l, Candidate labels l → psl.rule? (join l) ≠ none → l.length ≤ e'.length

/-- If the whole host is a wildcard's body, it is a single label or its parent is one too. -/
def BodyIsSuffix (psl : PublicSuffixList) (labels : List Text) : Prop :=
  psl.rule? (join labels) = some .wildcard →
    labels.length = 1 ∨ psl.rule? (join labels.tail) = some .wildcard

/-- A longer rule that is no exception makes the walk's suffix longer than the algorithm's. -/
theorem Longest.publicSuffix_lt {psl : PublicSuffixList} {labels e e' : List Text} {kind : RuleKind}
    (hone : psl.OneRulePerBody) (hlabels : Labels labels) (hlongest : Longest psl labels e kind)
    (hkind : kind ≠ .exception) (he' : Candidate labels e') (hfound' : psl.rule? (join e') = some .exception) :
    psl.publicSuffix labels < e.length := by
  have hshorter : ∀ l, Candidate labels l → psl.rule? (join l) = some .exception → l.length ≤ e.length - 1 := by
    intro l hl hfound
    have hlength := hlongest.longest l hl (by simp [hfound])
    have hne : l.length ≠ e.length := by
      intro heq
      rw [hl.eq_of_length hlongest.candidate heq, hlongest.found] at hfound
      exact hkind (Option.some.inj hfound)
    omega
  have := (publicSuffix_of_exception hone hlabels he' hfound' hshorter).2
  have := List.length_pos_of_ne_nil hlongest.candidate.2
  omega

/-- `PublicSuffixList::registrable_domain` gives the suffix of the published algorithm and one
label more, if and only if no longer rule stands before a matching exception and the host is
not itself the body of a wildcard. -/
theorem registrableDomain_eq_eTldPlusOne_iff {psl : PublicSuffixList} (hone : psl.OneRulePerBody)
    {host : Text} (hnonempty : ∀ l ∈ hostLabels host, l ≠ []) (hip : ¬ IsIpLiteral host) :
    psl.registrableDomain host = psl.eTldPlusOne host ↔
      ExceptionLongest psl (hostLabels host) ∧ BodyIsSuffix psl (hostLabels host) := by
  have hlabels := labels_hostLabels hnonempty
  rw [registrableDomain_eq hlabels hip, eTldPlusOne, oneMore_eq_iff hlabels]
  generalize hostLabels host = labels at hlabels
  have hwhole : Candidate labels labels := ⟨List.suffix_refl _, hlabels.ne_nil⟩
  have hpos : 0 < labels.length := List.length_pos_of_ne_nil hlabels.ne_nil
  rcases psl.suffixLabels_of_longest labels with ⟨hnone, hall⟩ | ⟨e, kind, hlongest, hcount⟩
  · -- no rule at all: the implicit one, on both sides
    have hno : NoException psl labels := fun e he => by simp [hall e he]
    have hmatching : psl.rules.filter (matchesLabels labels) = [] := by
      by_contra hne
      obtain ⟨rule, hrule⟩ := List.exists_mem_of_ne_nil _ hne
      obtain ⟨e, he, heq⟩ := candidate_of_matching hrule
      rw [heq] at hrule
      have := ((mem_matching_iff hone hlabels he).mp hrule).1
      simp [hall e he] at this
    rw [hnone, publicSuffix_of_noException hone hlabels hno, if_pos hmatching]
    refine iff_of_true (Or.inl rfl) ⟨?_, ?_⟩
    · intro e he hfound
      exact absurd hfound (hno e he)
    · intro hbody
      simp [hall labels hwhole] at hbody
  · rw [hcount, Option.getD_some]
    by_cases hno : NoException psl labels
    · have hfirst : ExceptionLongest psl labels := fun e he hfound => absurd hfound (hno e he)
      rw [and_iff_right hfirst]
      by_cases hbody : kind = .wildcard ∧ e = labels
      · -- the walk has taken the wildcard whose body the host is
        obtain ⟨rfl, rfl⟩ := hbody
        have hiff := publicSuffix_of_body hone hlabels hno hlongest.found
        rw [BodyIsSuffix, walkCount]
        constructor
        · rintro (heq | ⟨-, hle⟩) _
          · exact hiff.mp (by omega)
          · exact hiff.mp hle
        · intro h
          exact Or.inr ⟨by omega, hiff.mpr (h hlongest.found)⟩
      · have hthere : kind = .wildcard → e.length < labels.length := by
          intro hkind
          have hlength := hlongest.candidate.1.length_le
          have hne : e.length ≠ labels.length := fun heq =>
            hbody ⟨hkind, hlongest.candidate.eq_of_length hwhole heq⟩
          omega
        rw [publicSuffix_of_longest hone hlabels hno hlongest hthere]
        refine iff_of_true (Or.inl rfl) ?_
        intro hfound
        -- the whole host has a rule, so it is the longest candidate, and no wildcard
        have hlength := hlongest.longest labels hwhole (by simp [hfound])
        obtain rfl := hlongest.candidate.eq_of_length hwhole
          (le_antisymm hlongest.candidate.1.length_le hlength)
        have hkind : kind = .wildcard := Option.some.inj (hlongest.found.symm.trans hfound)
        exact absurd ⟨hkind, rfl⟩ hbody
    · obtain ⟨e', he', hfound'⟩ : ∃ e', Candidate labels e' ∧ psl.rule? (join e') = some .exception := by
        simpa [NoException] using hno
      by_cases hkind : kind = .exception
      · subst hkind
        have hsuffix := publicSuffix_of_exception hone hlabels hlongest.candidate hlongest.found
          fun l hl hfound => hlongest.longest l hl (by simp [hfound])
        refine iff_of_true (Or.inl ?_) ⟨?_, ?_⟩
        · rw [walkCount]
          omega
        · intro _ _ _
          exact ⟨e, hlongest.candidate, hlongest.found, hlongest.longest⟩
        · intro hfound
          have hlength := hlongest.longest labels hwhole (by simp [hfound])
          obtain rfl := hlongest.candidate.eq_of_length hwhole
            (le_antisymm hlongest.candidate.1.length_le hlength)
          rw [hlongest.found] at hfound
          cases hfound
      · -- a rule longer than every exception: the walk never comes to the exception
        have hlt := hlongest.publicSuffix_lt hone hlabels hkind he' hfound'
        have hlength := hlongest.candidate.1.length_le
        have hwalk : e.length ≤ walkCount e kind := by
          cases kind with
          | normal => exact Nat.le_refl _
          | wildcard => exact Nat.le_succ _
          | exception => exact absurd rfl hkind
        refine iff_of_false (by omega) ?_
        rintro ⟨hfirst, -⟩
        obtain ⟨l, hl, hfound, hmost⟩ := hfirst e' he' hfound'
        have hback := hmost e hlongest.candidate (by simp [hlongest.found])
        have hforth := hlongest.longest l hl (by simp [hfound])
        rw [hl.eq_of_length hlongest.candidate (by omega), hlongest.found] at hfound
        exact hkind (Option.some.inj hfound)

/-- Two lines as the list has them: a country and a wildcard below one of its cities. -/
def cityRules : PublicSuffixList :=
  ⟨[("kawasaki.jp".toList, .wildcard), ("jp".toList, .normal)]⟩

theorem cityRules_oneRulePerBody : cityRules.OneRulePerBody := by
  intro body kind kind' h h'
  simp only [cityRules, List.mem_cons, Prod.mk.injEq, List.not_mem_nil, or_false] at h h'
  rcases h with ⟨rfl, rfl⟩ | ⟨rfl, rfl⟩ <;> rcases h' with ⟨hbody, rfl⟩ | ⟨hbody, rfl⟩
  all_goals first | rfl | exact absurd hbody (by decide)

/-- The walk and the algorithm agree on a host below the city. -/
theorem registrableDomain_eq_eTldPlusOne_iff_city :
    cityRules.registrableDomain "www.shop.kawasaki.jp".toList =
        cityRules.eTldPlusOne "www.shop.kawasaki.jp".toList ↔
      ExceptionLongest cityRules (hostLabels "www.shop.kawasaki.jp".toList) ∧
        BodyIsSuffix cityRules (hostLabels "www.shop.kawasaki.jp".toList) :=
  registrableDomain_eq_eTldPlusOne_iff cityRules_oneRulePerBody (by decide) (by
    rw [IsIpLiteral]
    decide)

/-- The city itself is registrable by the rule of its country; the walk takes it for a suffix. -/
theorem city_has_no_registrable_domain :
    PublicSuffixList.parse "jp\n*.kawasaki.jp\n".toList = .ok cityRules ∧ cityRules.OneRulePerBody ∧
      (∀ l ∈ hostLabels "kawasaki.jp".toList, l ≠ []) ∧ ¬ IsIpLiteral "kawasaki.jp".toList ∧
      cityRules.registrableDomain "kawasaki.jp".toList = none ∧
      cityRules.eTldPlusOne "kawasaki.jp".toList = some "kawasaki.jp".toList := by
  refine ⟨by decide, cityRules_oneRulePerBody, by decide, ?_, by decide, by decide⟩
  rw [IsIpLiteral]
  decide

end Pelorus.Net.PublicSuffixList
