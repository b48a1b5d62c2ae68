import Pelorus.Block.Matcher
import Pelorus.Block.Tokens

/-
  Block/Index.lean --- the index of rules loses no rule.

  A REQUEST is decided as if every rule were looked at, in the order of their ids: whatever token a
  rule is filed under, it is one of the tokens of every URL that the rule's pattern matches.
-/
set_option autoImplicit false

namespace Pelorus.Block

open Lib Websec

/-! ## What every rule would say -/

/-- The decision by all rules, in the order of their ids. -/
def scanTarget (rules : List Rule) (target : Target) (sourceHost : Option Text) (ty : ResourceType) (thirdParty : Bool) :
    Verdict :=
  let applies (rule : Rule) := rule.applies target sourceHost ty thirdParty
  match rules.findIdx? fun r => applies r && !r.exception && r.important with
  | some id => .block id
  | none =>
      match rules.findIdx? fun r => applies r && r.exception with
      | some id => .allowedByException id
      | none =>
          match rules.findIdx? fun r => applies r && !r.exception with
          | some id => .block id
          | none => .allow

/-- The decision of a request. -/
def scanRequest (rules : List Rule) (req : Request) : Verdict :=
  if req.resourceType = .document then .allow
  else
    match Target.fromUrl req.url with
    | none => .allow
    | some target => scanTarget rules target (sourceHost req.sourceOrigin) req.resourceType req.isThirdParty

/-- The lists that a builder takes, in order. -/
def builderOf (lists : List (Text × ParsedList)) : MatcherBuilder :=
  lists.foldl (fun builder list => builder.addList list.1 list.2) .new

/-- The rules that have an id: those of the lists that are taken, up to as many as are held. -/
def heldRules (lists : List (Text × ParsedList)) : List Rule :=
  ((lists.take 0xFFFF).flatMap fun list => list.2.rules).take MAX_TOTAL_RULES

/-- Few enough lists with few enough rules are held whole. -/
theorem heldRules_eq {lists : List (Text × ParsedList)} (hlists : lists.length ≤ 0xFFFF)
    (hrules : (lists.flatMap fun list => list.2.rules).length ≤ MAX_TOTAL_RULES) :
    heldRules lists = lists.flatMap fun list => list.2.rules := by
  rw [heldRules, List.take_of_length_le hlists, List.take_of_length_le hrules]

/-! ## Bytes in lower case -/

theorem lowerByte_lowerByte (b : UInt8) : lowerByte (lowerByte b) = lowerByte b := by
  have hall : ∀ n < 256, lowerByte (lowerByte (UInt8.ofNat n)) = lowerByte (UInt8.ofNat n) := by decide +kernel
  have hb := hall b.toNat b.toNat_lt
  rwa [UInt8.ofNat_toNat] at hb

theorem map_lowerByte_utf8EncodeChar (c : Char) :
    (String.utf8EncodeChar c).map lowerByte = String.utf8EncodeChar c.toLower := by
  have hkeep : ∀ n < 256, n < 65 ∨ 90 < n → lowerByte (UInt8.ofNat n) = UInt8.ofNat n := by decide +kernel
  have hval : c.val.toNat = c.toNat := rfl
  rcases Text.toLower_cases c with ⟨heq, hno⟩ | ⟨heq, hlow, hhigh⟩
  · rw [heq]
    fun_cases String.utf8EncodeChar c with
    | case1 => rw [List.map_singleton, hkeep _ (by omega) (by omega)]
    | case2 => rw [List.map_cons, List.map_singleton, hkeep _ (by omega) (by omega), hkeep _ (by omega) (by omega)]
    | case3 =>
        rw [List.map_cons, List.map_cons, List.map_singleton, hkeep _ (by omega) (by omega),
          hkeep _ (by omega) (by omega), hkeep _ (by omega) (by omega)]
    | case4 =>
        rw [List.map_cons, List.map_cons, List.map_cons, List.map_singleton, hkeep _ (by omega) (by omega),
          hkeep _ (by omega) (by omega), hkeep _ (by omega) (by omega), hkeep _ (by omega) (by omega)]
  · have hupper : ∀ n < 256, 65 ≤ n → n ≤ 90 → lowerByte (UInt8.ofNat n) = UInt8.ofNat (n + 32) := by decide +kernel
    have hone : ∀ d : Char, d.toNat < 128 → String.utf8EncodeChar d = [UInt8.ofNat d.toNat] := by
      intro d hd
      have hle : d.val.toNat ≤ 0x7f := Nat.le_of_lt_succ hd
      simp only [String.utf8EncodeChar, hle, if_true]
      rfl
    rw [hone c (by omega), hone c.toLower (by omega), List.map_singleton, hupper _ (by omega) hlow hhigh, heq]

theorem utf8_toAsciiLowercase (s : Text) : (Text.toAsciiLowercase s).utf8 = s.utf8.map lowerByte := by
  induction s with
  | nil => rfl
  | cons c s ih =>
      have hcons : ∀ (d : Char) (t : Text), Text.utf8 (d :: t) = String.utf8EncodeChar d ++ Text.utf8 t := fun _ _ =>
        List.flatMap_cons ..
      rw [hcons, List.map_append, map_lowerByte_utf8EncodeChar, ← ih, ← hcons]
      rfl

/-! ## The text of a target -/

/-- A target has its host after a slash, and its text in lower case. -/
structure Target.Built (target : Target) : Prop where
  lower : target.lower = Text.toAsciiLowercase target.full
  host : target.full.utf8[target.host.1 - 1]? = some 0x2f

theorem Target.built {url : Url} {target : Target} (h : Target.fromUrl url = some target) : target.Built := by
  obtain ⟨host, _, h⟩ := Option.bind_eq_some_iff.mp h
  unfold Target.build at h
  split at h
  · cases h
  · cases h
    refine ⟨rfl, ?_⟩
    have hfront : Text.utf8 (url.scheme ++ "://".toList) = Text.utf8 url.scheme ++ [0x3a, 0x2f] ++ [0x2f] := by
      rw [Text.utf8_append, List.append_assoc]
      rfl
    have hlast : ∀ rest : Text, (Text.utf8 (url.scheme ++ "://".toList ++ rest))[Text.len (url.scheme ++ "://".toList) - 1]? =
        some 0x2f := by
      intro rest
      rw [Text.utf8_append, Text.len, hfront, List.length_append, List.length_singleton, Nat.add_sub_cancel,
        List.append_assoc _ [0x2f], List.getElem?_append_right (Nat.le_refl _), Nat.sub_self]
      rfl
    dsimp only
    rw [List.append_assoc (url.scheme ++ "://".toList ++ host.serialize), List.append_assoc (_ ++ host.serialize),
      List.append_assoc _ host.serialize]
    exact hlast _

/-- The text that a rule is matched against is the target's, but for case. -/
theorem Target.Built.textOf {target : Target} (h : target.Built) (rule : Rule) :
    (rule.textOf target).map lowerByte = target.lower.utf8 ∧
      (rule.textOf target)[target.host.1 - 1]?.any isTokenByte = false := by
  have hlower : target.lower.utf8 = target.full.utf8.map lowerByte := by
    rw [h.lower, utf8_toAsciiLowercase]
  unfold Rule.textOf
  split
  · refine ⟨hlower.symm, ?_⟩
    rw [h.host]
    rfl
  · rw [hlower, List.map_map]
    refine ⟨List.map_congr_left fun b _ => lowerByte_lowerByte b, ?_⟩
    rw [List.getElem?_map, h.host]
    rfl

theorem Target.Built.token {target : Target} (h : target.Built) {rule : Rule}
    (hmatch : rule.pattern.matches (rule.textOf target) (some target.host) = true) {token : Bytes}
    (htoken : token ∈ rule.pattern.indexTokens) : token ∈ urlTokens target.lower.utf8 := by
  obtain ⟨hlower, hslash⟩ := h.textOf rule
  rw [← hlower]
  refine token_of_matches ?_ hmatch htoken
  intro hs he heq
  have hfirst : target.host.1 = hs := congrArg Prod.fst (Option.some.inj heq)
  rw [← hfirst]
  exact Or.inr hslash

/-! ## The rules that are held -/

namespace MatcherBuilder

theorem lists_builderOf (lists : List (Text × ParsedList)) : (builderOf lists).lists = lists.take 0xFFFF := by
  have hfold : ∀ (lists : List (Text × ParsedList)) (builder : MatcherBuilder), builder.lists.length ≤ 0xFFFF →
      (lists.foldl (fun builder list => builder.addList list.1 list.2) builder).lists =
        (builder.lists ++ lists).take 0xFFFF := by
    intro lists
    induction lists with
    | nil =>
        intro builder hlen
        rw [List.foldl_nil, List.append_nil, List.take_of_length_le hlen]
    | cons list lists ih =>
        intro builder hlen
        rw [List.foldl_cons]
        by_cases hlt : builder.lists.length < 0xFFFF
        · have hadd : builder.addList list.1 list.2 = ⟨builder.lists ++ [list]⟩ := if_pos hlt
          rw [hadd, ih _ (by rw [List.length_append]; exact hlt), List.append_assoc]
          rfl
        · have hadd : builder.addList list.1 list.2 = builder := if_neg hlt
          rw [hadd, ih _ hlen, List.take_append_of_le_length (by omega), List.take_append_of_le_length (by omega)]
  exact (hfold lists .new (Nat.zero_le _)).trans (congrArg _ (List.nil_append _))

/-- What is held after some rules of a list: as many of them as there is room for. -/
def Holds (rules : List Rule) (held : List Entry × Nat) : Prop :=
  held.1.map Entry.rule = rules.take MAX_TOTAL_RULES

theorem Holds.rules {rules : List Rule} {held : List Entry × Nat} (h : Holds rules held) (li : UInt16) :
    ∀ more : List Rule, Holds (rules ++ more)
      (more.foldl
        (fun held rule =>
          if MAX_TOTAL_RULES ≤ held.1.length then (held.1, held.2 + 1) else (held.1 ++ [⟨rule, li⟩], held.2))
        held) := by
  intro more
  induction more generalizing rules held with
  | nil => rwa [List.append_nil, List.foldl_nil]
  | cons rule more ih =>
      rw [List.foldl_cons, List.append_cons]
      refine ih ?_
      have hlen : held.1.length = min MAX_TOTAL_RULES rules.length := by
        rw [← List.length_take, ← h, List.length_map]
      unfold Holds at h ⊢
      split
      · rw [h, List.take_append_of_le_length (by omega)]
      · have hfew : rules.length < MAX_TOTAL_RULES := by omega
        rw [List.map_append, h, List.take_of_length_le (Nat.le_of_lt hfew), List.take_of_length_le]
        · rfl
        · rw [List.length_append]
          exact hfew

theorem Holds.collect {rules : List Rule} {held : List Entry × Nat} (h : Holds rules held) :
    ∀ lists : List (Nat × ParsedList), Holds (rules ++ lists.flatMap fun list => list.2.rules)
      (MatcherBuilder.collect lists held) := by
  intro lists
  induction lists generalizing rules held with
  | nil => rwa [List.flatMap_nil, List.append_nil]
  | cons list lists ih =>
      rw [List.flatMap_cons, ← List.append_assoc]
      exact ih (h.rules _ list.2.rules)

/-- The rules that a matcher has are those that are held, in order. -/
theorem rules_build (lists : List (Text × ParsedList)) :
    (builderOf lists).build.entries.map Entry.rule = heldRules lists := by
  have hnone : Holds [] (([] : List Entry), 0) := rfl
  refine (hnone.collect _).trans ?_
  have hidx : ∀ l : List ParsedList, (l.mapIdx fun i list => (i, list)).map Prod.snd = l := by
    intro l
    refine List.ext_getElem? fun i => ?_
    rw [List.getElem?_map, List.getElem?_mapIdx, Option.map_map]
    exact Option.map_id'
  rw [List.nil_append, ← @List.flatMap_map _ _ _ Prod.snd (fun list : ParsedList => list.rules), hidx, lists_builderOf,
    List.flatMap_map]
  rfl

/-! ## Where a rule is filed -/

/-- A rule is filed: under one of its tokens, or with those that have none. -/
def Filed (filed : SortedMap IndexKey (List Nat) × List Nat) (id : Nat) (pattern : Pattern) : Prop :=
  (∃ t ∈ pattern.indexTokens, id ∈ (filed.1.get? ⟨t⟩).getD []) ∨ id ∈ filed.2

theorem minBy_mem {α : Type} {less : α → α → Bool} {l : List α} {a : α} (h : minBy less l = some a) : a ∈ l := by
  cases l with
  | nil => cases h
  | cons x rest =>
      cases h
      have hfold : ∀ (rest : List α) (best : α),
          rest.foldl (fun best x => if less x best then x else best) best ∈ best :: rest := by
        intro rest
        induction rest with
        | nil => exact fun best => List.mem_singleton_self best
        | cons y rest ih =>
            intro best
            rw [List.foldl_cons]
            split
            · exact List.mem_cons_of_mem _ (ih y)
            · rcases List.mem_cons.mp (ih best) with heq | hmem
              · rw [heq]
                exact List.mem_cons_self
              · exact List.mem_cons_of_mem _ (List.mem_cons_of_mem _ hmem)
      exact hfold rest x

/-- A rule is filed, and those that were stay so. -/
theorem filed_fileUnder (freq : SortedMap IndexKey Nat) (filed : SortedMap IndexKey (List Nat) × List Nat) (e : Entry × Nat) :
    Filed (fileUnder freq filed e) (saturated32 e.2) e.1.rule.pattern ∧
      ∀ id pattern, Filed filed id pattern → Filed (fileUnder freq filed e) id pattern := by
  unfold fileUnder
  cases hbest : minBy (betterKey freq) e.1.rule.pattern.indexTokens with
  | some t =>
      refine ⟨Or.inl ⟨t, minBy_mem hbest, ?_⟩, ?_⟩
      · dsimp only
        rw [SortedMap.get?_insert_self]
        exact List.mem_append_right _ (List.mem_singleton_self _)
      · rintro id pattern (⟨t', ht', hid⟩ | hid)
        · refine Or.inl ⟨t', ht', ?_⟩
          dsimp only
          rw [SortedMap.get?_insert]
          split
          · rename_i heq
            rw [heq] at hid
            exact List.mem_append_left _ hid
          · exact hid
        · exact Or.inr hid
  | none =>
      refine ⟨Or.inr (List.mem_append_right _ (List.mem_singleton_self _)), ?_⟩
      rintro id pattern (hid | hid)
      · exact Or.inl hid
      · exact Or.inr (List.mem_append_left _ hid)

theorem filed_foldl (freq : SortedMap IndexKey Nat) :
    ∀ (es : List (Entry × Nat)) (filed : SortedMap IndexKey (List Nat) × List Nat),
      (∀ id pattern, Filed filed id pattern → Filed (es.foldl (fileUnder freq) filed) id pattern) ∧
        ∀ e ∈ es, Filed (es.foldl (fileUnder freq) filed) (saturated32 e.2) e.1.rule.pattern
  | [], _ => ⟨fun _ _ h => h, fun _ h => (List.not_mem_nil h).elim⟩
  | e :: es, filed => by
      obtain ⟨hnew, hold⟩ := filed_fileUnder freq filed e
      obtain ⟨hkept, hrest⟩ := filed_foldl freq es (fileUnder freq filed e)
      refine ⟨fun id pattern h => hkept id pattern (hold id pattern h), ?_⟩
      intro e' he'
      rcases List.mem_cons.mp he' with rfl | he'
      · exact hkept _ _ hnew
      · exact hrest e' he'

theorem length_entries (lists : List (Text × ParsedList)) : (builderOf lists).build.entries.length ≤ MAX_TOTAL_RULES := by
  rw [← @List.length_map _ _ _ Entry.rule, rules_build]
  exact List.length_take_le _ _

theorem filed_build (lists : List (Text × ParsedList)) {id : Nat} {rule : Rule} (h : (heldRules lists)[id]? = some rule) :
    Filed ((builderOf lists).build.index, (builderOf lists).build.untokenized) id rule.pattern := by
  have hlen := length_entries lists
  rw [← rules_build, List.getElem?_map, Option.map_eq_some_iff] at h
  obtain ⟨e, he, hrule⟩ := h
  have hid : saturated32 id = id := by
    obtain ⟨hlt, _⟩ := List.getElem?_eq_some_iff.mp he
    exact if_pos (Nat.lt_of_lt_of_le hlt (Nat.le_trans hlen (by decide)))
  have hmem : (e, id) ∈ (builderOf lists).build.entries.zipIdx := List.mk_mem_zipIdx_iff_getElem?.mpr he
  have hfiled := (filed_foldl (frequencies (builderOf lists).build.entries) _ (.empty, [])).2 _ hmem
  rw [hid, hrule] at hfiled
  exact hfiled

end MatcherBuilder

/-! ## The loop over the candidates -/

/-- The first of an increasing list that holds is the least number that does, if every such number is listed. -/
theorem find_eq_findIdx {α : Type} {l : List Nat} {xs : List α} {p : Nat → Bool} {q : α → Bool} (hsorted : l.Pairwise (· < ·))
    (hp : ∀ i, p i = (xs[i]?).any q) (hall : ∀ i, p i = true → i ∈ l) : l.find? p = xs.findIdx? q := by
  have hnone : (∀ i ∈ l, p i = false) → xs.findIdx? q = none := by
    intro h
    refine List.findIdx?_eq_none_iff.mpr fun x hx => Bool.eq_false_iff.mpr fun hq => ?_
    obtain ⟨i, hi⟩ := List.mem_iff_getElem?.mp hx
    have hpi : p i = true := by
      rw [hp, hi]
      exact hq
    rw [h i (hall i hpi)] at hpi
    cases hpi
  cases hfind : l.find? p with
  | none => exact (hnone fun i hi => Bool.eq_false_iff.mpr (List.find?_eq_none.mp hfind i hi)).symm
  | some i =>
      obtain ⟨hpi, front, back, rfl, hfront⟩ := List.find?_eq_some_iff_append.mp hfind
      have hi := hpi
      rw [hp, Option.any_eq_true] at hi
      obtain ⟨x, hx, hq⟩ := hi
      obtain ⟨hlt, hget⟩ := List.getElem?_eq_some_iff.mp hx
      refine (List.findIdx?_eq_some_iff_getElem.mpr ⟨hlt, hget ▸ hq, fun j hj hqj => ?_⟩).symm
      -- a smaller number that holds is listed, and so before this one
      have hpj : p j = true := by
        rw [hp, List.getElem?_eq_getElem (Nat.lt_trans hj hlt)]
        exact hqj
      rcases List.mem_append.mp (hall j hpj) with hmem | hmem
      · have hno := hfront j hmem
        rw [hpj] at hno
        cases hno
      · have hback := (List.pairwise_cons.mp (List.pairwise_append.mp hsorted).2.1).1
        rcases List.mem_cons.mp hmem with rfl | hmem
        · exact Nat.lt_irrefl _ hj
        · exact Nat.lt_asymm hj (hback j hmem)

theorem find?_skip {α : Type} {p : α → Bool} {a : α} {l : List α} (h : p a = false) : (a :: l).find? p = l.find? p :=
  List.find?_cons_of_neg (by rw [h]; exact Bool.false_ne_true)

namespace Matcher

section

variable (m : Matcher) (target : Target) (sourceHost : Option Text) (ty : ResourceType) (thirdParty : Bool)

/-- The rule with this id applies, and is as asked. -/
def holdsAt (ask : Rule → Bool) (id : Nat) : Bool :=
  (m.entries[id]?).any fun e => e.rule.applies target sourceHost ty thirdParty && ask e.rule

variable {m target sourceHost ty thirdParty} in
theorem holdsAt_of_applies {id : Nat} {e : Entry} (hget : m.entries[id]? = some e)
    (happlies : ¬(!e.rule.applies target sourceHost ty thirdParty) = true) (ask : Rule → Bool) :
    m.holdsAt target sourceHost ty thirdParty ask id = ask e.rule := by
  have ha : e.rule.applies target sourceHost ty thirdParty = true := by simpa using happlies
  rw [holdsAt, hget, Option.any_some, ha, Bool.true_and]

/-- The loop answers by the first important block, the first exception and the first block that it meets. -/
theorem decideFrom_eq (exception block : Option Nat) (cands : List Nat) :
    m.decideFrom target sourceHost ty thirdParty exception block cands =
      match cands.find? (m.holdsAt target sourceHost ty thirdParty fun r => !r.exception && r.important) with
      | some id => .block id
      | none =>
          match exception.or (cands.find? (m.holdsAt target sourceHost ty thirdParty fun r => r.exception)) with
          | some id => .allowedByException id
          | none =>
              match block.or (cands.find? (m.holdsAt target sourceHost ty thirdParty fun r => !r.exception)) with
              | some id => .block id
              | none => .allow := by
  fun_induction decideFrom m target sourceHost ty thirdParty exception block cands with
  | case1 => rfl
  | case2 => rfl
  | case3 => rfl
  | case4 exception block id cands hget ih =>
      have hat : ∀ ask, m.holdsAt target sourceHost ty thirdParty ask id = false := fun ask => by rw [holdsAt, hget]; rfl
      rw [ih, find?_skip (hat _), find?_skip (hat _), find?_skip (hat _)]
  | case5 exception block id cands e hget happlies ih =>
      have hat : ∀ ask, m.holdsAt target sourceHost ty thirdParty ask id = false := by
        intro ask
        rw [holdsAt, hget, Option.any_some, Bool.eq_false_of_not_eq_true' happlies, Bool.false_and]
      rw [ih, find?_skip (hat _), find?_skip (hat _), find?_skip (hat _)]
  | case6 exception block id cands e hget happlies hexc ih =>
      have hat := m.holdsAt_of_applies hget happlies
      rw [ih, find?_skip (p := m.holdsAt target sourceHost ty thirdParty fun r => !r.exception && r.important) (by rw [hat, hexc]; rfl),
        find?_skip (p := m.holdsAt target sourceHost ty thirdParty fun r => !r.exception) (by rw [hat, hexc]; rfl),
        List.find?_cons_of_pos (p := m.holdsAt target sourceHost ty thirdParty fun r => r.exception) (by rw [hat, hexc]), Option.or_assoc, Option.some_or]
  | case7 exception block id cands e hget happlies hexc himp =>
      have hat := m.holdsAt_of_applies hget happlies
      rw [List.find?_cons_of_pos (p := m.holdsAt target sourceHost ty thirdParty fun r => !r.exception && r.important)
        (by rw [hat, himp, Bool.eq_false_iff.mpr hexc]; rfl)]
  | case8 exception block id cands e hget happlies hexc himp ih =>
      have hat := m.holdsAt_of_applies hget happlies
      have hnexc := Bool.eq_false_iff.mpr hexc
      rw [ih, find?_skip (p := m.holdsAt target sourceHost ty thirdParty fun r => !r.exception && r.important)
          (by rw [hat, hnexc, Bool.eq_false_iff.mpr himp]; rfl),
        find?_skip (p := m.holdsAt target sourceHost ty thirdParty fun r => r.exception) (by rw [hat, hnexc]),
        List.find?_cons_of_pos (p := m.holdsAt target sourceHost ty thirdParty fun r => !r.exception) (by rw [hat, hnexc]; rfl),
        Option.or_assoc, Option.some_or]

end

/-- What a target is shown, in strictly increasing order. -/
theorem candidates_sorted (m : Matcher) (target : Target) : (m.candidates target).Pairwise (· < ·) := by
  have hsorted := List.pairwise_insertionSort (fun a b : Nat => a ≤ b)
    (m.untokenized ++ (urlTokens target.lower.utf8).flatMap fun t => (m.index.get? ⟨t⟩).getD [])
  refine List.Pairwise.imp₂ (fun a b hle hne => Nat.lt_of_le_of_ne hle hne) (hsorted.sublist (List.dedup_sublist _)) ?_
  exact List.nodup_dedup _

theorem mem_candidates {m : Matcher} {target : Target} {id : Nat} :
    id ∈ m.candidates target ↔
      id ∈ m.untokenized ∨ ∃ t ∈ urlTokens target.lower.utf8, id ∈ (m.index.get? ⟨t⟩).getD [] := by
  rw [candidates, List.mem_dedup, (List.perm_insertionSort _ _).mem_iff, List.mem_append, List.mem_flatMap]

end Matcher

/-! ## No rule is lost -/

/-- A rule whose pattern matches is shown to the target, whatever token it is filed under. -/
theorem mem_candidates_of_matches (lists : List (Text × ParsedList)) {target : Target} (htarget : target.Built) {id : Nat}
    {rule : Rule} (hrule : (heldRules lists)[id]? = some rule)
    (hmatch : rule.pattern.matches (rule.textOf target) (some target.host) = true) :
    id ∈ (builderOf lists).build.candidates target := by
  rw [Matcher.mem_candidates]
  rcases MatcherBuilder.filed_build lists hrule with ⟨t, ht, hid⟩ | hid
  · exact Or.inr ⟨t, htarget.token hmatch ht, hid⟩
  · exact Or.inl hid

/-- The first candidate that applies and is as asked is the first such rule of all. -/
theorem find_candidates (lists : List (Text × ParsedList)) {target : Target} (htarget : target.Built)
    (sourceHost : Option Text) (ty : ResourceType) (thirdParty : Bool) (ask : Rule → Bool) :
    ((builderOf lists).build.candidates target).find?
        ((builderOf lists).build.holdsAt target sourceHost ty thirdParty ask) =
      (heldRules lists).findIdx? fun r => r.applies target sourceHost ty thirdParty && ask r := by
  have hat : ∀ id, (builderOf lists).build.holdsAt target sourceHost ty thirdParty ask id =
      ((heldRules lists)[id]?).any fun r => r.applies target sourceHost ty thirdParty && ask r := by
    intro id
    rw [← MatcherBuilder.rules_build, List.getElem?_map, Option.any_map]
    rfl
  refine find_eq_findIdx (Matcher.candidates_sorted _ _) hat ?_
  intro id hid
  rw [hat, Option.any_eq_true] at hid
  obtain ⟨rule, hrule, hasked⟩ := hid
  rw [Bool.and_eq_true] at hasked
  have hmatch := hasked.1
  rw [Rule.applies, Bool.and_eq_true] at hmatch
  exact mem_candidates_of_matches lists htarget hrule hmatch.2

/-- Every request is decided as if all rules were looked at in the order of their ids: these are the rules of all
lists, where no more lists and rules come than are taken. A rule whose pattern matches a target is with those that
have no token, or under a token of the target. -/
theorem check_request_eq_scan (lists : List (Text × ParsedList)) :
    (∀ req, checkRequest (builderOf lists).build req = scanRequest (heldRules lists) req) ∧
      (lists.length ≤ 0xFFFF → (lists.flatMap fun list => list.2.rules).length ≤ MAX_TOTAL_RULES →
        heldRules lists = lists.flatMap fun list => list.2.rules) ∧
      ∀ url target, Target.fromUrl url = some target → ∀ id rule, (heldRules lists)[id]? = some rule →
        rule.pattern.matches (rule.textOf target) (some target.host) = true →
        id ∈ (builderOf lists).build.untokenized ∨
          ∃ t ∈ urlTokens target.lower.utf8, id ∈ ((builderOf lists).build.index.get? ⟨t⟩).getD [] := by
  refine ⟨?_, heldRules_eq, ?_⟩
  · intro req
    unfold checkRequest scanRequest
    cases htarget : Target.fromUrl req.url with
    | none => exact (ite_self _).symm
    | some target =>
        have hbuilt := Target.built htarget
        refine congrArg (ite _ Verdict.allow) ?_
        dsimp only
        rw [Matcher.decideFrom_eq, scanTarget, Option.none_or, Option.none_or, find_candidates lists hbuilt,
          find_candidates lists hbuilt, find_candidates lists hbuilt]
        simp only [Bool.and_assoc]
  · intro url target htarget id rule hrule hmatch
    exact Matcher.mem_candidates.mp (mem_candidates_of_matches lists (Target.built htarget) hrule hmatch)

end Pelorus.Block
