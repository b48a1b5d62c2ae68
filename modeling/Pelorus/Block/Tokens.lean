import Pelorus.Block.Glob

/-
  Block/Tokens.lean --- what a pattern matches has its tokens.

  A TOKEN of a pattern is a run whose neighbours are such that, wherever the run is matched, no
  byte of a token stands before or behind it.  So it is a whole run of the text too.
-/
set_option autoImplicit false

namespace Pelorus.Block

open Lib

/-! ## Runs of a text -/

/-- A run of a text: no byte of a token is next to it. -/
structure IsRunIn (before run after : Bytes) : Prop where
  ne_nil : run ≠ []
  all : ∀ b ∈ run, isTokenByte b = true
  left : before.getLast?.any isTokenByte = false
  right : after.head?.any isTokenByte = false

variable {run after token text : Bytes} {pattern : Pattern}

theorem takeWhile_run (hall : ∀ b ∈ run, isTokenByte b = true)
    (hright : after.head?.any isTokenByte = false) :
    (run ++ after).takeWhile isTokenByte = run ∧ (run ++ after).dropWhile isTokenByte = after := by
  rw [List.takeWhile_append_of_pos hall, List.dropWhile_append_of_pos hall]
  cases after with
  | nil => simp
  | cons b rest =>
      have hb : isTokenByte b = false := hright
      rw [List.takeWhile_cons_of_neg (by simp [hb]), List.dropWhile_cons_of_neg (by simp [hb]), List.append_nil]
      exact ⟨rfl, rfl⟩

/-- What is dropped from a text ends before its last byte that is in no token. -/
theorem dropWhile_snoc {last : UInt8} (hlast : isTokenByte last = false) (front : Bytes) :
    ∃ front', (front ++ [last]).dropWhile isTokenByte = front' ++ [last] := by
  rw [List.dropWhile_append]
  split
  · exact ⟨[], List.dropWhile_cons_of_neg (by simp [hlast])⟩
  · exact ⟨_, rfl⟩

/-- Every run of a text is found. -/
theorem mem_urlRuns {before : Bytes} (h : IsRunIn before run after)
    (hlen : isTokenLength run.length = true) : run ∈ urlRuns (before ++ run ++ after) := by
  induction hn : before.length using Nat.strong_induction_on generalizing before with
  | _ n ih =>
      cases before with
      | nil =>
          obtain ⟨b, rest, rfl⟩ := List.exists_cons_of_ne_nil h.ne_nil
          have hb : isTokenByte b = true := h.all b List.mem_cons_self
          have hrest := (takeWhile_run (fun c hc => h.all c (List.mem_cons_of_mem _ hc)) h.right).1
          rw [List.nil_append, List.cons_append, urlRuns, hb]
          simp only [Bool.not_true, Bool.false_eq_true, if_false, hrest, hlen, if_true]
          exact List.mem_append_left _ List.mem_cons_self
      | cons b rest =>
          rw [List.length_cons] at hn
          rw [List.cons_append, List.cons_append, urlRuns]
          by_cases hb : isTokenByte b = true
          · -- the run that starts here ends before the last byte of what is before
            obtain ⟨front, last, rfl⟩ : ∃ front last, rest = front ++ [last] := by
              rcases List.eq_nil_or_concat rest with rfl | ⟨front, last, rfl⟩
              · have hleft := h.left
                rw [List.getLast?_singleton, Option.any_some, hb] at hleft
                cases hleft
              · exact ⟨front, last, List.concat_eq_append⟩
            have hlast : isTokenByte last = false := by
              have hleft := h.left
              rwa [← List.cons_append, List.getLast?_append, List.getLast?_singleton, Option.some_or,
                Option.any_some] at hleft
            obtain ⟨front', hfront⟩ := dropWhile_snoc hlast front
            have hdrop : (front ++ [last] ++ run ++ after).dropWhile isTokenByte = front' ++ [last] ++ run ++ after := by
              rw [List.append_assoc, List.dropWhile_append, hfront, if_neg (by simp), ← List.append_assoc]
            have hshorter : (front' ++ [last]).length ≤ (front ++ [last]).length := by
              rw [← hfront]
              exact (List.dropWhile_suffix _).length_le
            have hrun : IsRunIn (front' ++ [last]) run after := by
              refine ⟨h.ne_nil, h.all, ?_, h.right⟩
              rw [List.getLast?_append, List.getLast?_singleton, Option.some_or, Option.any_some, hlast]
            simp only [hb, Bool.not_true, Bool.false_eq_true, if_false]
            refine List.mem_append_right _ ?_
            rw [hdrop]
            exact ih _ (by omega) hrun rfl
          · have hrun : IsRunIn rest run after := by
              refine ⟨h.ne_nil, h.all, ?_, h.right⟩
              have hleft := h.left
              rw [List.getLast?_cons] at hleft
              cases hrest : rest.getLast? with
              | none => rfl
              | some last =>
                  rw [hrest] at hleft
                  exact hleft
            simp only [hb]
            exact ih rest.length (by omega) hrun rfl

theorem mem_urlTokens {lower : Bytes} : token ∈ urlTokens lower ↔ token ∈ urlRuns lower := by
  rw [urlTokens, List.mem_dedup, (List.perm_insertionSort _ _).mem_iff]

/-! ## Runs of a pattern -/

/-- A run of a pattern that is a token: it is between edges. -/
structure IsRunOf (pattern : Pattern) (prev : Option Elem) (before run after : List Elem) : Prop where
  ne_nil : run ≠ []
  all : ∀ e ∈ run, isTok e = true
  length : isTokenLength run.length = true
  left : isEdge (pattern.start ≠ .anywhere) (before.getLast?.or prev) = true
  right : isEdge pattern.end_ after.head? = true
  left_not : (before.getLast?.or prev).any isTok = false
  right_not : after.head?.any isTok = false

/-- Where a run ends, what is next to it is in no run. -/
theorem head_dropWhile_isTok (elems : List Elem) : ((elems.dropWhile isTok).head?).any isTok = false := by
  have h := List.head?_dropWhile_not isTok elems
  cases hd : (elems.dropWhile isTok).head? with
  | none => rfl
  | some e =>
      rw [hd] at h
      simpa using h

theorem IsRunOf.behind {pattern : Pattern} {prev : Option Elem} {first before run after : List Elem}
    (h : IsRunOf pattern (first.getLast?.or prev) before run after) :
    IsRunOf pattern prev (first ++ before) run after := by
  have hleft : (first ++ before).getLast?.or prev = before.getLast?.or (first.getLast?.or prev) := by
    rw [List.getLast?_append, Option.or_assoc]
  exact ⟨h.ne_nil, h.all, h.length, hleft ▸ h.left, h.right, hleft ▸ h.left_not, h.right_not⟩

theorem mem_indexRuns {prev : Option Elem} {elems : List Elem}
    (hstart : prev.any isTok = false ∨ elems.head?.any isTok = false) (h : token ∈ indexRuns pattern prev elems) :
    ∃ before run after, elems = before ++ run ++ after ∧ IsRunOf pattern prev before run after ∧
      token = run.filterMap tokByte := by
  fun_induction indexRuns pattern prev elems with
  | case1 => cases h
  | case2 prev e rest htok ih =>
      have hno : isTok e = false := by simpa using htok
      obtain ⟨before, run, after, heq, hrun, htoken⟩ := ih (Or.inl hno) h
      exact ⟨e :: before, run, after, by rw [heq]; rfl, @IsRunOf.behind _ prev [e] _ _ _ hrun, htoken⟩
  | case3 prev e rest htok run after ok ih =>
      have he : isTok e = true := by simpa using htok
      have hsplit : e :: rest = run ++ after := by
        rw [← @List.takeWhile_append_dropWhile _ isTok rest]
        rfl
      rcases List.mem_append.mp h with h | h
      · split at h
        · rename_i hok
          rw [List.mem_singleton] at h
          simp only [ok, Bool.and_eq_true] at hok
          refine ⟨[], run, after, hsplit, ⟨List.cons_ne_nil _ _, ?_, hok.2, hok.1.1, hok.1.2, ?_, ?_⟩, h⟩
          · intro d hd
            rcases List.mem_cons.mp hd with rfl | hd
            · exact he
            · exact List.mem_takeWhile_imp hd
          · exact hstart.resolve_right (by simp [he])
          · exact head_dropWhile_isTok rest
        · cases h
      · obtain ⟨before, run', after', heq, hrun, htoken⟩ := ih (Or.inr (head_dropWhile_isTok rest)) h
        refine ⟨run ++ before, run', after', ?_, @IsRunOf.behind _ prev run _ _ _ hrun, htoken⟩
        rw [hsplit, heq]
        simp

theorem mem_indexTokens : token ∈ pattern.indexTokens ↔ token ∈ indexRuns pattern none pattern.elems := by
  have hfold : ∀ (tokens out : List Bytes), token ∈ tokens.foldl
      (fun out t => if out.contains t then out else out ++ [t]) out ↔ token ∈ out ∨ token ∈ tokens := by
    intro tokens
    induction tokens with
    | nil => simp
    | cons t tokens ih =>
        intro out
        rw [List.foldl_cons, ih, List.mem_cons, ← or_assoc]
        refine or_congr_left ?_
        split
        · rename_i hin
          refine ⟨Or.inl, fun h => h.elim id ?_⟩
          rintro rfl
          exact List.contains_iff_mem.mp hin
        · rw [List.mem_append, List.mem_singleton]
  rw [Pattern.indexTokens, hfold]
  simp

/-! ## Segments -/

theorem matchAt_append (a b : List Elem) (text : Bytes) (p : Nat) :
    matchAt (a ++ b) text p = (matchAt a text p).bind (matchAt b text) := by
  induction a generalizing p with
  | nil => rfl
  | cons e a ih =>
      cases e with
      | lit c =>
          simp only [List.cons_append, matchAt]
          split
          · exact ih (p + 1)
          · rfl
      | sep =>
          simp only [List.cons_append, matchAt]
          split
          · split
            · exact ih (p + 1)
            · rfl
          · exact ih p
      | star => rfl

theorem matchAt_run {text : Bytes} : ∀ {run : List Elem} {p q : Nat}, (∀ e ∈ run, isTok e = true) →
    matchAt run text p = some q → ∃ bytes, text.drop p = bytes ++ text.drop q ∧ q = p + bytes.length ∧
      bytes.length = run.length ∧ (∀ b ∈ bytes, isTokenByte b = true) ∧ run.filterMap tokByte = bytes.map lowerByte
  | [], p, q, _, h => by
      obtain rfl := Option.some.inj h
      exact ⟨[], rfl, rfl, rfl, List.forall_mem_nil _, rfl⟩
  | .lit b :: run, p, q, hall, h => by
      unfold matchAt at h
      split at h
      · rename_i hb
        obtain ⟨bytes, hdrop, hq, hlen, hbytes, hlower⟩ :=
          matchAt_run (fun e he => hall e (List.mem_cons_of_mem _ he)) h
        obtain ⟨hlt, hget⟩ := List.getElem?_eq_some_iff.mp hb
        refine ⟨b :: bytes, ?_, ?_, ?_, ?_, ?_⟩
        · rw [List.drop_eq_getElem_cons hlt, hget, hdrop, List.cons_append]
        · rw [hq, List.length_cons]
          omega
        · rw [List.length_cons, hlen, List.length_cons]
        · intro c hc
          rcases List.mem_cons.mp hc with rfl | hc
          · exact hall (.lit c) List.mem_cons_self
          · exact hbytes c hc
        · rw [List.filterMap_cons_some (by rfl), hlower, List.map_cons]
      · cases h
  | .sep :: run, p, q, hall, _ => by
      have h := hall .sep List.mem_cons_self
      cases h
  | .star :: run, p, q, hall, _ => by
      have h := hall .star List.mem_cons_self
      cases h

theorem isTokenByte_of_isSeparator {c : UInt8} (h : isSeparator c = true) : isTokenByte c = false := by
  have hall : ∀ n < 256, isSeparator (UInt8.ofNat n) = true → isTokenByte (UInt8.ofNat n) = false := by
    decide +kernel
  have hc := hall c.toNat c.toNat_lt
  rw [UInt8.ofNat_toNat] at hc
  exact hc h

/-- In front of a run there is no byte of a token, if the element in front of it is an edge. -/
theorem left_of_matchAt {front : List Elem} {e : Elem} {p q : Nat} {anchored : Bool}
    (h : matchAt (front ++ [e]) text p = some q) (hedge : isEdge anchored (some e) = true) (hno : isTok e = false)
    (hmore : q < text.length) : ∃ c, text[q - 1]? = some c ∧ 0 < q ∧ isTokenByte c = false := by
  rw [matchAt_append] at h
  obtain ⟨m, _, h⟩ := Option.bind_eq_some_iff.mp h
  cases e with
  | lit b =>
      unfold matchAt at h
      split at h
      · rename_i hb
        obtain rfl := Option.some.inj h
        exact ⟨b, hb, Nat.succ_pos m, hno⟩
      · cases h
  | sep =>
      unfold matchAt at h
      split at h
      · rename_i c hc
        split at h
        · rename_i hsep
          obtain rfl := Option.some.inj h
          exact ⟨c, hc, Nat.succ_pos m, isTokenByte_of_isSeparator hsep⟩
        · cases h
      · rename_i hend
        obtain rfl := Option.some.inj h
        exact absurd (List.getElem?_eq_none_iff.mp hend) (by omega)
  | star => cases hedge

/-- Nor is there one behind it. -/
theorem right_of_matchAt {e : Elem} {rest : List Elem} {q r : Nat} {anchored : Bool}
    (h : matchAt (e :: rest) text q = some r) (hedge : isEdge anchored (some e) = true) (hno : isTok e = false) :
    text[q]?.any isTokenByte = false := by
  cases e with
  | lit b =>
      unfold matchAt at h
      split at h
      · rename_i hb
        rw [hb]
        exact hno
      · cases h
  | sep =>
      unfold matchAt at h
      split at h
      · rename_i c hc
        split at h
        · rename_i hsep
          rw [hc]
          exact isTokenByte_of_isSeparator hsep
        · cases h
      · rename_i hend
        rw [hend]
        rfl
  | star => cases hedge

/-- Where a segment of a pattern stands in a text that it matches. -/
structure Placed (pattern : Pattern) (text : Bytes) (host : Option (Nat × Nat)) (seg : List Elem) (first last : Prop)
    (p q : Nat) : Prop where
  ends : matchAt seg text p = some q
  start : first → pattern.start = .start → p = 0
  host : first → pattern.start = .host → ∃ hs he, host = some (hs, he) ∧ (p = hs ∨ text[p - 1]? = some 0x2e)
  end_ : last → pattern.end_ = true → seg ≠ [] → q = text.length

theorem matchAtHost_eq_some {seg : List Elem} {he p e : Nat} {needEnd : Option Nat}
    (h : matchAtHost seg text he needEnd p = some e) :
    ∃ q, matchAt seg text q = some e ∧ (needEnd.all fun n => e = n) = true ∧ (q = p ∨ text[q - 1]? = some 0x2e) := by
  fun_induction matchAtHost seg text he needEnd p with
  | case1 p e' hfound =>
      obtain rfl := Option.some.inj h
      obtain ⟨hmatch, hneed⟩ := Option.filter_eq_some_iff.mp hfound
      exact ⟨p, hmatch, hneed, Or.inl rfl⟩
  | case2 p _ q hq ih =>
      obtain ⟨q', hmatch, hneed, hwhere⟩ := ih h
      refine ⟨q', hmatch, hneed, Or.inr ?_⟩
      rcases hwhere with rfl | hdot
      · exact (nextBoundary_eq_some hq).2.2.2
      · exact hdot
  | case3 => cases h

/-- Every segment of a pattern that matches stands somewhere. -/
theorem placed_of_matchSegs {pattern : Pattern} {text : Bytes} {host : Option (Nat × Nat)} :
    ∀ {segs : List (List Elem)} {first : Bool} {cur : Nat}, matchSegs pattern text host first cur segs = true →
      ∀ pre seg post, segs = pre ++ seg :: post →
        ∃ p q, Placed pattern text host seg (first = true ∧ pre = []) (post = []) p q
  | [], _, _, _, pre, seg, post, heq => by
      have hlen := congrArg List.length heq
      simp at hlen
  | seg' :: segs, first, cur, h, pre, seg, post, heq => by
      -- what is placed now, and what is left
      have hboth : (∃ p q, Placed pattern text host seg' (first = true) (segs = []) p q) ∧
          ∃ cur', matchSegs pattern text host false cur' segs = true := by
        unfold matchSegs at h
        dsimp only at h
        split at h
        · rename_i hfirst
          simp only [Bool.and_eq_true, decide_eq_true_eq] at hfirst
          split at h
          · rename_i e hfound
            refine ⟨?_, e, h⟩
            have hend : ∀ p, matchAt seg' text p = some e →
                ((if segs.isEmpty && pattern.end_ then some text.length else none).all fun n => e = n) = true →
                segs = [] → pattern.end_ = true → e = text.length := by
              rintro p _ hneed rfl hend
              simpa [hend] using hneed
            split at hfound
            · rename_i hstart
              obtain ⟨hmatch, hneed⟩ := Option.filter_eq_some_iff.mp hfound
              exact ⟨0, e, hmatch, fun _ _ => rfl, fun _ hhost => absurd (hstart.symm.trans hhost) (by decide),
                fun hlast hanchor _ => hend 0 hmatch hneed hlast hanchor⟩
            · rename_i hstart
              obtain ⟨⟨hs, he⟩, hhost, hfound⟩ := Option.bind_eq_some_iff.mp hfound
              obtain ⟨p, hmatch, hneed, hwhere⟩ := matchAtHost_eq_some hfound
              exact ⟨p, e, hmatch, fun _ hstart' => absurd (hstart.symm.trans hstart') (by decide),
                fun _ _ => ⟨hs, he, hhost, hwhere⟩, fun hlast hanchor _ => hend p hmatch hneed hlast hanchor⟩
            · cases hfound
          · cases h
        · rename_i hfirst
          have hfree : first = true → pattern.start = .anywhere := by
            intro hf
            simpa [hf] using hfirst
          have hstart : first = true → pattern.start = .start → ∀ p, p = 0 := fun hf hs =>
            absurd ((hfree hf).symm.trans hs) (by decide)
          have hhost : first = true → pattern.start = .host → ∀ p, ∃ hs he,
              host = some (hs, he) ∧ (p = hs ∨ text[p - 1]? = some 0x2e) := fun hf hs =>
            absurd ((hfree hf).symm.trans hs) (by decide)
          split at h
          · rename_i hlast
            simp only [Bool.and_eq_true, List.isEmpty_iff] at hlast
            split at h
            · cases h
            · rename_i hany
              refine ⟨?_, _, h⟩
              by_cases hempty : seg' = []
              · subst hempty
                exact ⟨0, 0, rfl, fun _ _ => rfl, fun hf hs => hhost hf hs 0, fun _ _ hne => absurd rfl hne⟩
              · have hsome : ((List.range' (max cur (text.length - seg'.length))
                    (text.length + 1 - max cur (text.length - seg'.length))).any
                    fun p => matchAt seg' text p = some text.length) = true := by
                  have hne : seg'.isEmpty = false := by simpa using hempty
                  simpa only [hne, Bool.not_false, Bool.true_and, Bool.not_eq_true', Bool.not_eq_false] using hany
                obtain ⟨p, _, hmatch⟩ := List.any_eq_true.mp hsome
                exact ⟨p, text.length, of_decide_eq_true hmatch, fun hf hs => hstart hf hs p,
                  fun hf hs => hhost hf hs p, fun _ _ _ => rfl⟩
          · rename_i hlast
            split at h
            · rename_i e hfound
              obtain ⟨p, _, hmatch⟩ := List.exists_of_findSome?_eq_some hfound
              refine ⟨⟨p, e, hmatch, fun hf hs => hstart hf hs p, fun hf hs => hhost hf hs p, ?_⟩, e, h⟩
              intro hnil hanchor _
              simp [hnil, hanchor] at hlast
            · cases h
      obtain ⟨⟨p, q, hplaced⟩, cur', hrest⟩ := hboth
      cases pre with
      | nil =>
          obtain ⟨rfl, rfl⟩ := List.cons.inj heq
          exact ⟨p, q, hplaced.ends, fun hf => hplaced.start hf.1, fun hf => hplaced.host hf.1, hplaced.end_⟩
      | cons s pre =>
          obtain ⟨_, htail⟩ := List.cons.inj heq
          obtain ⟨p', q', hplaced'⟩ := placed_of_matchSegs hrest pre seg post htail
          exact ⟨p', q', hplaced'.ends, fun hf => absurd hf.2 (List.cons_ne_nil _ _),
            fun hf => absurd hf.2 (List.cons_ne_nil _ _), hplaced'.end_⟩

/-! ## Tokens of what is matched -/

theorem segment_of_append {before run after : List Elem} (hrun : ∀ e ∈ run, isStar e = false) :
    ∃ pre front back post, (before ++ run ++ after).splitOnP isStar = pre ++ (front ++ run ++ back) :: post ∧
      (front = [] → pre = [] ∧ before = [] ∨ before.getLast? = some .star) ∧
      (front ≠ [] → front.getLast? = before.getLast?) ∧
      (back = [] → post = [] ∧ after = [] ∨ after.head? = some .star) ∧ (back ≠ [] → back.head? = after.head?) := by
  have hstar : ∀ e, isStar e = true ↔ e = .star := fun e => decide_eq_true_iff
  obtain ⟨start, front, hbefore, hfront, hstart⟩ : ∃ start front, before = start ++ front ∧
      (∀ e ∈ front, isStar e = false) ∧ (start = [] ∨ ∃ s, start = s ++ [.star]) := by
    induction before using List.reverseRecOn with
    | nil => exact ⟨[], [], rfl, List.forall_mem_nil _, Or.inl rfl⟩
    | append_singleton before e ih =>
        by_cases he : e = .star
        · exact ⟨before ++ [e], [], (List.append_nil _).symm, List.forall_mem_nil _, Or.inr ⟨before, by rw [he]⟩⟩
        · obtain ⟨start, front, rfl, hfront, hstart⟩ := ih
          refine ⟨start, front ++ [e], List.append_assoc .., fun d hd => ?_, hstart⟩
          rcases List.mem_append.mp hd with hd | hd
          · exact hfront d hd
          · rw [List.mem_singleton.mp hd]
            exact decide_eq_false he
  obtain ⟨back, finish, hafter, hback, hfinish⟩ : ∃ back finish, after = back ++ finish ∧
      (∀ e ∈ back, isStar e = false) ∧ (finish = [] ∨ ∃ s, finish = .star :: s) := by
    induction after with
    | nil => exact ⟨[], [], rfl, List.forall_mem_nil _, Or.inl rfl⟩
    | cons e after ih =>
        by_cases he : e = .star
        · exact ⟨[], e :: after, rfl, List.forall_mem_nil _, Or.inr ⟨after, by rw [he]⟩⟩
        · obtain ⟨back, finish, rfl, hback, hfinish⟩ := ih
          refine ⟨e :: back, finish, rfl, fun d hd => ?_, hfinish⟩
          rcases List.mem_cons.mp hd with rfl | hd
          · exact decide_eq_false he
          · exact hback d hd
  have hseg : ∀ e ∈ front ++ run ++ back, isStar e = false := by
    intro e he
    rcases List.mem_append.mp he with he | he
    · exact (List.mem_append.mp he).elim (hfront e) (hrun e)
    · exact hback e he
  have htail : ∃ post, (front ++ run ++ after).splitOnP isStar = (front ++ run ++ back) :: post ∧
      (back = [] → post = [] ∧ after = [] ∨ after.head? = some .star) := by
    rcases hfinish with rfl | ⟨s, rfl⟩
    · rw [hafter, List.append_nil, List.splitOnP_eq_singleton hseg]
      exact ⟨[], rfl, fun hnil => Or.inl ⟨rfl, hnil⟩⟩
    · rw [hafter, ← List.append_assoc, List.splitOnP_append_cons _ _ ((hstar _).mpr rfl),
        List.splitOnP_eq_singleton hseg]
      refine ⟨_, rfl, ?_⟩
      rintro rfl
      exact Or.inr rfl
  obtain ⟨post, hpost, hbackNil⟩ := htail
  have hbackHead : back ≠ [] → back.head? = after.head? := by
    intro hne
    obtain ⟨e, t, rfl⟩ := List.exists_cons_of_ne_nil hne
    rw [hafter]
    rfl
  have hfrontLast : front ≠ [] → front.getLast? = before.getLast? := by
    intro hne
    rw [hbefore, List.getLast?_append, List.getLast?_eq_some_getLast hne, Option.some_or]
  rcases hstart with rfl | ⟨s, rfl⟩
  · rw [List.nil_append] at hbefore
    subst hbefore
    exact ⟨[], before, back, post, hpost, fun hnil => Or.inl ⟨rfl, hnil⟩, hfrontLast, hbackNil, hbackHead⟩
  · refine ⟨s.splitOnP isStar, front, back, post, ?_, ?_, hfrontLast, hbackNil, hbackHead⟩
    · have hassoc : before ++ run ++ after = s ++ .star :: (front ++ run ++ after) := by
        rw [hbefore]
        simp
      rw [hassoc, List.splitOnP_append_cons _ _ ((hstar _).mpr rfl), hpost]
    · rintro rfl
      rw [hbefore, List.append_nil, List.getLast?_append]
      exact Or.inr rfl

theorem isTokenByte_lowerByte (b : UInt8) : isTokenByte (lowerByte b) = isTokenByte b := by
  have hall : ∀ n < 256, isTokenByte (lowerByte (UInt8.ofNat n)) = isTokenByte (UInt8.ofNat n) := by decide +kernel
  have hb := hall b.toNat b.toNat_lt
  rwa [UInt8.ofNat_toNat] at hb

theorem IsRunIn.lower {before : Bytes} (h : IsRunIn before run after) :
    IsRunIn (before.map lowerByte) (run.map lowerByte) (after.map lowerByte) := by
  have hany : ∀ o : Option UInt8, (o.map lowerByte).any isTokenByte = o.any isTokenByte := by
    intro o
    cases o with
    | none => rfl
    | some b => exact isTokenByte_lowerByte b
  refine ⟨by simpa using h.ne_nil, fun b hb => ?_, ?_, ?_⟩
  · obtain ⟨c, hc, rfl⟩ := List.mem_map.mp hb
    rw [isTokenByte_lowerByte]
    exact h.all c hc
  · rw [List.getLast?_map, hany]
    exact h.left
  · rw [List.head?_map, hany]
    exact h.right

theorem getLast?_take_any {a : Nat} (hlt : a < text.length)
    (h : a = 0 ∨ text[a - 1]?.any isTokenByte = false) : (text.take a).getLast?.any isTokenByte = false := by
  rcases Nat.eq_zero_or_pos a with rfl | hpos
  · rfl
  · rw [List.getLast?_take, if_neg (by omega)]
    rw [List.getElem?_eq_getElem (by omega)]
    have hno := h.resolve_left (by omega)
    rwa [List.getElem?_eq_getElem (by omega)] at hno

theorem token_of_matches {host : Option (Nat × Nat)}
    (hhost : ∀ hs he, host = some (hs, he) → hs = 0 ∨ text[hs - 1]?.any isTokenByte = false)
    (h : pattern.matches text host = true) {token : Bytes} (htoken : token ∈ pattern.indexTokens) :
    token ∈ urlTokens (text.map lowerByte) := by
  obtain ⟨before, run, after, helems, hrun, rfl⟩ := mem_indexRuns (Or.inl rfl) (mem_indexTokens.mp htoken)
  have hnostar : ∀ e ∈ run, isStar e = false := by
    intro e he
    refine decide_eq_false ?_
    rintro rfl
    have htok := hrun.all .star he
    cases htok
  obtain ⟨pre, front, back, post, hsegs, hfrontNil, hfrontLast, hbackNil, hbackHead⟩ :=
    @segment_of_append before run after hnostar
  obtain ⟨p, q, hplaced⟩ := placed_of_matchSegs h pre (front ++ run ++ back) post (by rw [helems, hsegs])
  -- the three parts of the segment, one after the other
  have hends := hplaced.ends
  rw [matchAt_append] at hends
  obtain ⟨b, hends, hback⟩ := Option.bind_eq_some_iff.mp hends
  rw [matchAt_append] at hends
  obtain ⟨a, hfront, hmid⟩ := Option.bind_eq_some_iff.mp hends
  obtain ⟨bytes, hdrop, hb, hlen, hall, hlower⟩ := matchAt_run hrun.all hmid
  have hne : bytes ≠ [] := by
    rintro rfl
    exact hrun.ne_nil (List.eq_nil_of_length_eq_zero hlen.symm)
  have hlt : a < text.length := by
    by_contra hge
    rw [List.drop_eq_nil_of_le (by omega)] at hdrop
    exact hne (List.append_eq_nil_iff.mp hdrop.symm).1
  have htext : text = text.take a ++ bytes ++ text.drop b := by
    rw [List.append_assoc, ← hdrop, List.take_append_drop]
  have hleft : a = 0 ∨ text[a - 1]?.any isTokenByte = false := by
    rcases List.eq_nil_or_concat front with rfl | ⟨front, e, rfl⟩
    · obtain rfl : p = a := Option.some.inj hfront
      rcases hfrontNil rfl with ⟨rfl, rfl⟩ | hstar
      · have hedge : pattern.start ≠ .anywhere := of_decide_eq_true hrun.left
        cases hstart : pattern.start with
        | anywhere => exact absurd hstart hedge
        | start => exact Or.inl (hplaced.start ⟨rfl, rfl⟩ hstart)
        | host =>
            obtain ⟨hs, he, hsome, hwhere⟩ := hplaced.host ⟨rfl, rfl⟩ hstart
            rcases hwhere with rfl | hdot
            · exact hhost _ _ hsome
            · refine Or.inr ?_
              rw [hdot]
              rfl
      · have hedge := hrun.left
        rw [hstar] at hedge
        cases hedge
    · rw [List.concat_eq_append] at hfront hfrontLast
      have hlast : before.getLast? = some e := by
        rw [← hfrontLast (by simp), List.getLast?_append]
        rfl
      have hedge := hrun.left
      have hno := hrun.left_not
      rw [hlast] at hedge hno
      obtain ⟨c, hc, _, htok⟩ := left_of_matchAt hfront hedge hno hlt
      refine Or.inr ?_
      rw [hc]
      exact htok
  have hright : text[b]?.any isTokenByte = false := by
    cases back with
    | nil =>
        obtain rfl : b = q := Option.some.inj hback
        rcases hbackNil rfl with ⟨rfl, rfl⟩ | hstar
        · have hlenEq := hplaced.end_ rfl hrun.right (by simp [hrun.ne_nil])
          rw [hlenEq, List.getElem?_eq_none (Nat.le_refl _)]
          rfl
        · have hedge := hrun.right
          rw [hstar] at hedge
          cases hedge
    | cons e rest =>
        have hhead : after.head? = some e := (hbackHead (List.cons_ne_nil _ _)).symm
        have hedge := hrun.right
        have hno := hrun.right_not
        rw [hhead] at hedge hno
        exact right_of_matchAt hback hedge hno
  have hin : IsRunIn (text.take a) bytes (text.drop b) := by
    refine ⟨hne, hall, getLast?_take_any hlt hleft, ?_⟩
    rw [List.head?_drop]
    exact hright
  rw [mem_urlTokens, htext, List.map_append, List.map_append, hlower]
  refine mem_urlRuns hin.lower ?_
  rw [List.length_map, hlen]
  exact hrun.length

end Pelorus.Block
