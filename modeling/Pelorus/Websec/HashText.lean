import Pelorus.Websec.Sri

/-
  Websec/HashText.lean --- the two readers of hashes side by side: that of integrity
  metadata and that of hash sources (`px-websec/src/sri.rs`, `px-websec/src/csp/source.rs`).

  THE DECODERS differ in one thing.  The last character of an encoding may hold bits that
  no byte takes up, and only one of the decoders looks at them.
-/
set_option autoImplicit false

namespace Pelorus.Websec.Csp

/-- The same algorithm, in the terms of integrity metadata. -/
def HashAlg.algorithm : HashAlg → Sri.Algorithm
  | .sha256 => .sha256
  | .sha384 => .sha384
  | .sha512 => .sha512

end Pelorus.Websec.Csp

namespace Pelorus.Websec

open Lib Lib.Text
open Websec.Csp (HashAlg HashValue base64Value decodeBase64)

/-! ## Bits that are left over -/

/-- The bits that no byte takes up, as the decoders' loop leaves them. -/
def looseBits : Nat → Nat → Text → Nat
  | acc, _, [] => acc
  | acc, bits, c :: s =>
      let acc := acc * 64 + (base64Value c).getD 0
      let bits := bits + 6
      if 8 ≤ bits then looseBits (acc % 2 ^ (bits - 8)) (bits - 8) s else looseBits acc bits s

/-- One decoder reads what the other reads, if no bits are left over. -/
theorem sri_base64Bytes (acc bits : Nat) (s : Text) :
    Sri.base64Bytes acc bits s = if looseBits acc bits s = 0 then Csp.base64Bytes acc bits s else none := by
  fun_induction looseBits acc bits s with
  | case1 acc bits => rfl
  | case2 acc bits c s acc' bits' hbits ih =>
      simp only [Sri.base64Bytes, Csp.base64Bytes]
      cases hc : base64Value c with
      | none => simp
      | some v =>
          simp only [acc', bits', hc, Option.getD_some] at ih hbits ⊢
          simp only [Option.bind_eq_bind, Option.bind_some, hbits, if_true, ih]
          split <;> rfl
  | case3 acc bits c s acc' bits' hbits ih =>
      simp only [Sri.base64Bytes, Csp.base64Bytes]
      cases hc : base64Value c with
      | none => simp
      | some v =>
          simp only [acc', bits', hc, Option.getD_some] at ih hbits ⊢
          simp only [Option.bind_eq_bind, Option.bind_some, hbits, if_false, ih]

variable {c : Char} {s body name : Text} {d : Bytes} {a : HashAlg}

theorem base64Value_lt {v : Nat} (h : base64Value c = some v) : v < 64 := by
  unfold base64Value at h
  split at h
  · rename_i hupper
    delta Char.isUpper at hupper
    simp only [decide_eq_true_eq, UInt32.le_iff_toNat_le] at hupper
    have hle : c.toNat ≤ 90 := hupper.2
    cases h
    omega
  · split at h
    · rename_i hlower
      delta Char.isLower at hlower
      simp only [Bool.and_eq_true, decide_eq_true_eq, UInt32.le_iff_toNat_le] at hlower
      have hle : c.toNat ≤ 122 := hlower.2
      cases h
      omega
    · split at h
      · rename_i hdigit
        simp only [Char.isDigit, Bool.and_eq_true, decide_eq_true_eq, UInt32.le_iff_toNat_le] at hdigit
        have hle : c.toNat ≤ 57 := hdigit.2
        cases h
        omega
      · split at h
        · cases h
          decide
        · split at h
          · cases h
            decide
          · cases h

/-- The bits left over are of the last character. -/
theorem looseBits_concat {c : Char} {v : Nat} (hc : base64Value c = some v) : ∀ (s : Text) (acc bits : Nat),
    bits = 0 ∧ acc = 0 ∨ bits = 2 ∨ bits = 4 ∨ bits = 6 →
    looseBits acc bits (s ++ [c]) = v % 2 ^ ((bits + 6 * (s.length + 1)) % 8)
  | [], acc, bits, h => by
      have hlt := base64Value_lt hc
      simp only [List.nil_append, looseBits, hc, Option.getD_some, List.length_nil]
      rcases h with ⟨rfl, rfl⟩ | rfl | rfl | rfl
      · simp only [Nat.reduceAdd, Nat.reduceLeDiff, if_false, Nat.reduceMul, Nat.reduceMod, Nat.reducePow]
        omega
      all_goals
        simp only [Nat.reduceAdd, Nat.reduceLeDiff, if_true, Nat.reduceMul, Nat.reduceMod, Nat.reducePow, Nat.reduceSub]
        omega
  | x :: s, acc, bits, h => by
      simp only [List.cons_append, looseBits, List.length_cons]
      split
      · rename_i hbits
        have hnext : bits + 6 - 8 = 0 ∧ (acc * 64 + (base64Value x).getD 0) % 2 ^ (bits + 6 - 8) = 0 ∨
            bits + 6 - 8 = 2 ∨ bits + 6 - 8 = 4 ∨ bits + 6 - 8 = 6 := by
          rcases h with ⟨rfl, -⟩ | rfl | rfl | rfl
          · omega
          · exact Or.inl ⟨rfl, Nat.mod_one _⟩
          · exact Or.inr (Or.inl rfl)
          · exact Or.inr (Or.inr (Or.inl rfl))
        rw [looseBits_concat hc s _ _ hnext]
        have hmod : (bits + 6 - 8 + 6 * (s.length + 1)) % 8 = (bits + 6 * (s.length + 1 + 1)) % 8 := by omega
        rw [hmod]
      · rename_i hbits
        have hnext : bits + 6 = 6 := by omega
        rw [looseBits_concat hc s _ _ (Or.inr (Or.inr (Or.inr hnext)))]
        have hmod : (bits + 6 + 6 * (s.length + 1)) % 8 = (bits + 6 * (s.length + 1 + 1)) % 8 := by omega
        rw [hmod]

/-- A text decodes exactly if every character has a value, and then to so many bytes. -/
theorem base64Bytes_spec : ∀ (s : Text) (acc bits : Nat), bits < 8 →
    ((∃ d, Csp.base64Bytes acc bits s = some d) ↔ ∀ c ∈ s, (base64Value c).isSome = true) ∧
      ∀ d, Csp.base64Bytes acc bits s = some d → d.length = (bits + 6 * s.length) / 8
  | [], acc, bits, h => by
      refine ⟨iff_of_true ⟨_, rfl⟩ fun c hc => absurd hc List.not_mem_nil, fun d hd => ?_⟩
      cases hd
      exact (Nat.div_eq_of_lt h).symm
  | c :: s, acc, bits, h => by
      simp only [Csp.base64Bytes, List.forall_mem_cons, List.length_cons]
      cases hc : base64Value c with
      | none => simp
      | some v =>
          simp only [Option.bind_eq_bind, Option.bind_some, Option.isSome_some, true_and]
          split
          · rename_i hbits
            obtain ⟨hsome, hlen⟩ := base64Bytes_spec s ((acc * 64 + v) % 2 ^ (bits + 6 - 8)) (bits + 6 - 8) (by omega)
            refine ⟨?_, fun d hd => ?_⟩
            · rw [← hsome]
              exact ⟨fun ⟨d, hd⟩ => let ⟨rest, hrest, _⟩ := Option.bind_eq_some_iff.mp hd; ⟨rest, hrest⟩,
                fun ⟨d, hd⟩ => ⟨_, Option.bind_eq_some_iff.mpr ⟨d, hd, rfl⟩⟩⟩
            · obtain ⟨rest, hrest, hcons⟩ := Option.bind_eq_some_iff.mp hd
              cases hcons
              rw [List.length_cons, hlen rest hrest]
              omega
          · rename_i hbits
            obtain ⟨hsome, hlen⟩ := base64Bytes_spec s (acc * 64 + v) (bits + 6) (by omega)
            refine ⟨hsome, fun d hd => ?_⟩
            rw [hlen d hd]
            omega

/-! ## The decoders -/

theorem base64Bytes_eq_none (h : '=' ∈ s) : Csp.base64Bytes 0 0 s = none := by
  refine Option.eq_none_iff_forall_not_mem.mpr fun d hd => ?_
  have hvalue := (base64Bytes_spec s 0 0 (by decide)).1.mp ⟨d, hd⟩ '=' h
  exact Bool.noConfusion (hvalue : false = true)

/-- A text is a body that does not end with `=`, and padding. -/
theorem exists_padding (s : Text) : ∃ n, s = trimEndMatches (· = '=') s ++ List.replicate n '=' ∧
    ∀ x : Text, trimEndMatches (· = '=') s ≠ x ++ ['='] := by
  induction s using List.reverseRecOn with
  | nil => exact ⟨0, rfl, fun x h => by cases x <;> cases h⟩
  | append_singleton s c ih =>
      by_cases hc : c = '='
      · obtain ⟨n, hs, hbody⟩ := ih
        have htrim : trimEndMatches (· = '=') (s ++ [c]) = trimEndMatches (· = '=') s :=
          List.rdropWhile_concat_pos _ _ _ (decide_eq_true hc)
        refine ⟨n + 1, ?_, htrim ▸ hbody⟩
        rw [htrim, List.replicate_succ', ← List.append_assoc, ← hs, hc]
      · have htrim : trimEndMatches (· = '=') (s ++ [c]) = s ++ [c] :=
          List.rdropWhile_concat_neg _ _ _ (by simp [hc])
        refine ⟨0, by rw [htrim]; exact (List.append_nil _).symm, fun x hx => hc ?_⟩
        rw [htrim] at hx
        exact List.singleton_inj.mp (List.append_inj_right' hx rfl)

theorem stripSuffix_eq_none {tail : Text} (h : ∀ x, s ≠ x ++ tail) : stripSuffix s tail = none := by
  refine if_neg fun hsuffix => ?_
  obtain ⟨x, hx⟩ := List.isSuffixOf_iff_suffix.mp hsuffix
  exact h x hx.symm

/-- That a body holds no `=` need not be asked apart. -/
theorem ite_contains (body : Text) {n : Nat} (hn : ¬ 2 < n) :
    (if body.contains '=' || body.len % 4 = 1 then none else Csp.base64Bytes 0 0 body) =
      if 2 < n || body.len % 4 = 1 then none else Csp.base64Bytes 0 0 body := by
  cases hmem : body.contains '=' with
  | false => rw [decide_eq_false hn]
  | true =>
      rw [base64Bytes_eq_none (List.contains_iff_mem.mp hmem)]
      simp

/-- `decode_base64` sees the padding as `base64_decode` does. -/
theorem decodeBase64_eq (s : Text) : decodeBase64 s =
    if 2 < s.length - (trimEndMatches (· = '=') s).length || (trimEndMatches (· = '=') s).len % 4 = 1 then none
    else Csp.base64Bytes 0 0 (trimEndMatches (· = '=') s) := by
  obtain ⟨n, hs, hbody⟩ := exists_padding s
  generalize trimEndMatches (· = '=') s = body at hs hbody ⊢
  subst hs
  have hlen : (body ++ List.replicate n '=').length - body.length = n := by
    rw [List.length_append, List.length_replicate, Nat.add_sub_cancel_left]
  have hnone : ∀ x, body ≠ x ++ ['=', '='] := fun x hx => hbody (x ++ ['=']) (by rw [hx, List.append_assoc]; rfl)
  have hone : ∀ x, body ++ ['='] ≠ x ++ ['=', '='] := fun x hx => hbody x (by
    rw [List.append_cons x '=' ['=']] at hx
    exact List.append_cancel_right hx)
  rw [hlen, decodeBase64]
  match n with
  | 0 =>
      have hbare : stripSuffix body "==".toList = none := stripSuffix_eq_none hnone
      have hpad : stripSuffix body "=".toList = none := stripSuffix_eq_none hbody
      simp only [List.replicate_zero, List.append_nil, hbare, hpad, Option.orElse_none, Option.getD_none]
      exact ite_contains body (by decide)
  | 1 =>
      have hbare : stripSuffix (body ++ ['=']) "==".toList = none := stripSuffix_eq_none hone
      have hpad : stripSuffix (body ++ ['=']) "=".toList = some body := stripSuffix_append body ['=']
      simp only [List.replicate_one, hbare, hpad, Option.orElse_none, Option.getD_some]
      exact ite_contains body (by decide)
  | 2 =>
      have hpad : stripSuffix (body ++ ['=', '=']) "==".toList = some body := stripSuffix_append body ['=', '=']
      simp only [List.replicate_succ, List.replicate_zero, hpad, Option.orElse_some, Option.getD_some]
      exact ite_contains body (by decide)
  | n + 3 =>
      have hsplit : body ++ List.replicate (n + 3) '=' = (body ++ List.replicate (n + 1) '=') ++ "==".toList := by
        rw [List.append_assoc]
        exact congrArg _ (List.replicate_add (n + 1) 2 '=')
      have hmem : (body ++ List.replicate (n + 1) '=').contains '=' = true := by
        rw [List.contains_iff_mem, List.mem_append, List.replicate_succ]
        exact Or.inr List.mem_cons_self
      rw [hsplit, stripSuffix_append]
      simp only [Option.orElse_some, Option.getD_some, hmem, Bool.true_or, if_true]
      rw [if_pos (by simp)]

/-! ## Where they differ -/

/-- The last character of an encoding holds bits that no byte takes up. -/
def LooseEnd (body : Text) : Prop :=
  ∃ init c v, body = init ++ [c] ∧ base64Value c = some v ∧
    (body.length % 4 = 2 ∧ v % 16 ≠ 0 ∨ body.length % 4 = 3 ∧ v % 4 ≠ 0)

/-- A text of base64 characters with such bits, and at most two characters of padding. -/
def LooseText (s : Text) : Prop :=
  ∃ body pad, s = body ++ pad ∧ (pad = [] ∨ pad = ['='] ∨ pad = ['=', '=']) ∧
    (∀ c ∈ body, (base64Value c).isSome = true) ∧ LooseEnd body

/-- A hash of the right length whose text is such. -/
def LooseHash (s : Text) : Prop :=
  ∃ name value a, s = name ++ '-' :: value ∧ HashAlg.parse name = some a ∧ LooseText value ∧
    (trimEndMatches (· = '=') value).length * 6 / 8 = a.digestLen

/-- No bits are left over but those of a last character that is not the fourth of its group. -/
theorem looseBits_eq_zero (hvalid : ∀ c ∈ body, (base64Value c).isSome = true)
    (hlen : body.length % 4 ≠ 1) : looseBits 0 0 body = 0 ↔ ¬ LooseEnd body := by
  induction body using List.reverseRecOn with
  | nil => exact iff_of_true rfl fun ⟨init, c, v, heq, _⟩ => by cases init <;> cases heq
  | append_singleton init c _ =>
      obtain ⟨v, hv⟩ := Option.isSome_iff_exists.mp (hvalid c (List.mem_append_right _ (List.mem_singleton_self c)))
      have hloose : LooseEnd (init ++ [c]) ↔
          (init ++ [c]).length % 4 = 2 ∧ v % 16 ≠ 0 ∨ (init ++ [c]).length % 4 = 3 ∧ v % 4 ≠ 0 := by
        constructor
        · rintro ⟨init', c', v', heq, hv', h⟩
          obtain ⟨-, hc⟩ := List.append_inj' heq rfl
          rw [List.singleton_inj.mp hc, hv'] at hv
          exact Option.some.inj hv ▸ h
        · exact fun h => ⟨init, c, v, rfl, hv, h⟩
      rw [hloose, looseBits_concat hv init 0 0 (Or.inl ⟨rfl, rfl⟩)]
      rw [List.length_append, List.length_singleton] at hlen ⊢
      generalize init.length + 1 = n at hlen ⊢
      have hcases : n % 4 = 0 ∨ n % 4 = 2 ∨ n % 4 = 3 := by omega
      rcases hcases with h | h | h
      · have hbits : (0 + 6 * n) % 8 = 0 := by omega
        rw [hbits]
        omega
      · have hbits : (0 + 6 * n) % 8 = 4 := by omega
        rw [hbits]
        omega
      · have hbits : (0 + 6 * n) % 8 = 2 := by omega
        rw [hbits]
        omega

theorem isGraphic_of_base64Value (h : (base64Value c).isSome = true) : isGraphic c = true := by
  unfold base64Value at h
  split at h
  · rename_i hupper
    exact isGraphic_upper hupper
  · split at h
    · rename_i hlower
      exact isGraphic_lower hlower
    · split at h
      · rename_i hdigit
        exact isGraphic_digit hdigit
      · split at h
        · rename_i heq
          rcases heq with rfl | rfl <;> rfl
        · split at h
          · rename_i heq
            rcases heq with rfl | rfl <;> rfl
          · cases h

theorem len_of_base64 (hvalid : ∀ c ∈ body, (base64Value c).isSome = true) : body.len = body.length :=
  len_of_isAscii (isAscii_of_isGraphic fun c hc => isGraphic_of_base64Value (hvalid c hc))

theorem trimEnd_padded {pad : Text} (hvalid : ∀ c ∈ body, (base64Value c).isSome = true)
    (hpad : pad = [] ∨ pad = ['='] ∨ pad = ['=', '=']) : trimEndMatches (· = '=') (body ++ pad) = body := by
  have hbody : trimEndMatches (· = '=') body = body := by
    refine List.rdropWhile_eq_self_iff.mpr fun hne hlast => ?_
    have hvalue := hvalid _ (List.getLast_mem hne)
    rw [of_decide_eq_true hlast] at hvalue
    exact Bool.noConfusion (hvalue : false = true)
  have hone : ∀ s : Text, trimEndMatches (· = '=') (s ++ ['=']) = trimEndMatches (· = '=') s := fun s =>
    List.rdropWhile_concat_pos _ _ _ rfl
  rcases hpad with rfl | rfl | rfl
  · rw [List.append_nil, hbody]
  · rw [hone, hbody]
  · rw [List.append_cons, hone, hone, hbody]

/-- What `base64_decode` makes of what `decode_base64` reads. -/
theorem base64Decode_eq (s : Text) : Sri.base64Decode s =
    if looseBits 0 0 (trimEndMatches (· = '=') s) = 0 then decodeBase64 s else none := by
  rw [decodeBase64_eq, Sri.base64Decode]
  simp only [sri_base64Bytes]
  split
  · split <;> rfl
  · rfl

/-- A text that `decode_base64` reads is loose if bits are left over. -/
theorem looseText_iff (h : decodeBase64 s = some d) :
    LooseText s ↔ looseBits 0 0 (trimEndMatches (· = '=') s) ≠ 0 := by
  obtain ⟨n, hs, -⟩ := exists_padding s
  rw [decodeBase64_eq] at h
  split at h
  · cases h
  · rename_i hok
    have hvalid := (base64Bytes_spec _ 0 0 (by decide)).1.mp ⟨d, h⟩
    have hlen := len_of_base64 hvalid
    simp only [Bool.or_eq_true, decide_eq_true_eq, not_or, hlen] at hok
    constructor
    · intro hloose hzero
      obtain ⟨body, pad, rfl, hpad, hbody, hend⟩ := hloose
      rw [trimEnd_padded hbody hpad] at hzero hok
      exact (looseBits_eq_zero hbody hok.2).mp hzero hend
    · intro hne
      refine ⟨_, _, hs, ?_, hvalid, not_not.mp fun hend => hne ((looseBits_eq_zero hvalid hok.2).mpr hend)⟩
      have hfew : n ≤ 2 := by
        have hsum := congrArg List.length hs
        rw [List.length_append, List.length_replicate] at hsum
        omega
      match n, hfew with
      | 0, _ => exact Or.inl rfl
      | 1, _ => exact Or.inr (Or.inl rfl)
      | 2, _ => exact Or.inr (Or.inr rfl)

/-- What is loose is read by `decode_base64`. -/
theorem decodeBase64_of_looseText (h : LooseText s) : ∃ d, decodeBase64 s = some d := by
  obtain ⟨body, pad, rfl, hpad, hvalid, hend⟩ := h
  obtain ⟨d, hd⟩ := (base64Bytes_spec body 0 0 (by decide)).1.mpr hvalid
  refine ⟨d, ?_⟩
  rw [decodeBase64_eq, trimEnd_padded hvalid hpad, len_of_base64 hvalid, hd]
  refine if_neg ?_
  have hshort : pad.length ≤ 2 := by rcases hpad with rfl | rfl | rfl <;> decide
  obtain ⟨_, _, _, _, _, hlen⟩ := hend
  simp only [List.length_append, Bool.or_eq_true, decide_eq_true_eq]
  omega

theorem decoders_agree_iff (s : Text) : decodeBase64 s = Sri.base64Decode s ↔ ¬ LooseText s := by
  rw [base64Decode_eq]
  cases h : decodeBase64 s with
  | none =>
      refine iff_of_true (by split <;> rfl) fun hloose => ?_
      obtain ⟨d, hd⟩ := decodeBase64_of_looseText hloose
      rw [h] at hd
      cases hd
  | some d =>
      rw [looseText_iff h, not_not]
      constructor
      · intro heq
        by_contra hne
        rw [if_neg hne] at heq
        cases heq
      · intro hzero
        rw [if_pos hzero]

/-! ## Hashes -/

theorem algorithm_injective : Function.Injective HashAlg.algorithm := by
  intro a b h
  cases a <;> cases b <;> first | rfl | cases h

theorem fromToken_eq (name : Text) : Sri.Algorithm.fromToken name = (HashAlg.parse name).map HashAlg.algorithm := by
  unfold Sri.Algorithm.fromToken HashAlg.parse
  split
  · rfl
  · split
    · rfl
    · split <;> rfl

theorem digestLen_algorithm (a : HashAlg) : a.algorithm.digestLen = a.digestLen := by cases a <;> rfl

/-- A hash source is its algorithm's name, a hyphen and an encoding of the right length. -/
theorem hashValue_parse_iff : HashValue.parse s = some ⟨a, d⟩ ↔
    ∃ name value, splitOnce '-' s = some (name, value) ∧ HashAlg.parse name = some a ∧
      decodeBase64 value = some d ∧ d.length = a.digestLen := by
  unfold HashValue.parse
  simp only [Option.bind_eq_bind, Option.bind_eq_some_iff]
  constructor
  · rintro ⟨⟨name, value⟩, hsplit, alg, halg, digest, hdigest, h⟩
    split at h
    · cases h
    · rename_i hlen
      cases h
      exact ⟨name, value, hsplit, halg, hdigest, not_not.mp hlen⟩
  · rintro ⟨name, value, hsplit, halg, hdigest, hlen⟩
    exact ⟨(name, value), hsplit, a, halg, d, hdigest, if_neg (not_not.mpr hlen)⟩

theorem grammar_of_base64Value (h : (base64Value c).isSome = true) :
    (c.isAlphanum || c = '+' || c = '/' || c = '-' || c = '_') = true := by
  unfold base64Value at h
  delta Char.isAlphanum Char.isAlpha
  split at h
  · simp [*]
  · split at h
    · simp [*]
    · split at h
      · simp [*]
      · split at h
        · rename_i heq
          rcases heq with rfl | rfl <;> rfl
        · split at h
          · rename_i heq
            rcases heq with rfl | rfl <;> rfl
          · cases h

/-- What `decode_base64` reads: a body in the grammar, and few characters of padding. -/
theorem decodeBase64_spec (h : decodeBase64 s = some d) :
    (∀ c ∈ trimEndMatches (· = '=') s, (base64Value c).isSome = true) ∧
      s.length - (trimEndMatches (· = '=') s).length ≤ 2 ∧ d.length = 6 * (trimEndMatches (· = '=') s).length / 8 := by
  rw [decodeBase64_eq] at h
  split at h
  · cases h
  · rename_i hok
    simp only [Bool.or_eq_true, decide_eq_true_eq, not_or, Nat.not_lt] at hok
    obtain ⟨hvalid, hlen⟩ := base64Bytes_spec (trimEndMatches (· = '=') s) 0 0 (by decide)
    refine ⟨hvalid.mp ⟨d, h⟩, hok.1, ?_⟩
    rw [hlen d h, Nat.zero_add]

/-- What `base64_decode` reads, `decode_base64` reads too. -/
theorem base64Decode_eq_some : Sri.base64Decode s = some d ↔ decodeBase64 s = some d ∧ ¬ LooseText s := by
  rw [base64Decode_eq]
  constructor
  · intro h
    split at h
    · rename_i hzero
      exact ⟨h, fun hloose => (looseText_iff h).mp hloose hzero⟩
    · cases h
  · rintro ⟨h, hloose⟩
    rw [if_pos (not_not.mp fun hne => hloose ((looseText_iff h).mpr hne)), h]

theorem digestLen_pos (a : HashAlg) : 0 < a.digestLen := by cases a <;> decide

/-- A token of integrity metadata is a hash with a digest exactly if it is such a text too. -/
theorem sri_parseToken_iff (hquery : '?' ∉ s) :
    (Sri.parseToken s = some ⟨a.algorithm, d⟩ ∧ d ≠ []) ↔
      ∃ name value, splitOnce '-' s = some (name, value) ∧ HashAlg.parse name = some a ∧
        Sri.base64Decode value = some d ∧ d.length = a.digestLen := by
  have hwhole : (s.takeWhile fun c => c ≠ '?') = s :=
    List.takeWhile_eq_self_iff.mpr fun c hc => decide_eq_true fun heq => hquery (heq ▸ hc)
  unfold Sri.parseToken
  simp only [hwhole, Option.bind_eq_bind, Option.bind_eq_some_iff, fromToken_eq, Option.map_eq_some_iff]
  constructor
  · rintro ⟨⟨⟨name, value⟩, hsplit, alg, ⟨a', halg, rfl⟩, h⟩, hne⟩
    split at h
    · cases h
    · obtain ⟨halgorithm, hdigest⟩ := Sri.HashExpr.mk.inj (Option.some.inj h)
      obtain rfl := algorithm_injective halgorithm
      cases hdecode : (Sri.base64Decode value).filter fun d => d.length = a'.algorithm.digestLen with
      | none => exact absurd (by rw [← hdigest, hdecode]; rfl) hne
      | some digest =>
          rw [hdecode, Option.getD_some] at hdigest
          subst hdigest
          obtain ⟨hread, hlen⟩ := Option.filter_eq_some_iff.mp hdecode
          rw [digestLen_algorithm] at hlen
          exact ⟨name, value, hsplit, halg, hread, of_decide_eq_true hlen⟩
  · rintro ⟨name, value, hsplit, halg, hread, hlen⟩
    obtain ⟨hvalid, hpad, hcount⟩ := decodeBase64_spec (base64Decode_eq_some.mp hread).1
    have hpos := digestLen_pos a
    have hgrammar : (trimEndMatches (· = '=') value).all
        (fun c => c.isAlphanum || c = '+' || c = '/' || c = '-' || c = '_') = true :=
      List.all_eq_true.mpr fun c hc => grammar_of_base64Value (hvalid c hc)
    have hne : (trimEndMatches (· = '=') value).isEmpty = false := by
      refine List.isEmpty_eq_false_iff.mpr fun hnil => ?_
      rw [hnil, List.length_nil] at hcount
      omega
    have hfew : ¬ 2 < value.length - (trimEndMatches (· = '=') value).length := Nat.not_lt.mpr hpad
    refine ⟨⟨(name, value), hsplit, a.algorithm, ⟨a, halg, rfl⟩, ?_⟩, fun hnil => ?_⟩
    · rw [hne, hgrammar, decide_eq_false hfew, hread,
        Option.filter_some_pos (by rw [digestLen_algorithm]; exact decide_eq_true hlen)]
      rfl
    · rw [hnil, List.length_nil] at hlen
      omega

/-- The hashes of a value without spaces: that of its one token. -/
theorem sri_parse_eq (hspace : ∀ c ∈ s, Referrer.isTokenSpace c = false) (hne : s ≠ [])
    (hlen : s.len ≤ Sri.MAX_INTEGRITY_BYTES) : Sri.parse s = .ok ⟨(Sri.parseToken s).toList, true⟩ := by
  have hone : (s.splitOnP Referrer.isTokenSpace).filter (fun t => !t.isEmpty) = [s] := by
    rw [List.splitOnP_eq_singleton hspace]
    exact List.filter_cons_of_pos (by rw [List.isEmpty_eq_false_iff.mpr hne]; rfl)
  rw [Sri.parse, if_neg (Nat.not_lt.mpr hlen)]
  simp only [hone, List.length_singleton]
  rw [if_neg (by decide), List.filterMap_cons, List.filterMap_nil]
  cases Sri.parseToken s <;> rfl

/-- The name of an algorithm is one of three, whatever its case. -/
theorem lower_of_parse (h : HashAlg.parse name = some a) :
    ∃ t ∈ ["sha256".toList, "sha384".toList, "sha512".toList], toAsciiLowercase name = toAsciiLowercase t := by
  unfold HashAlg.parse at h
  split at h
  · rename_i hname
    exact ⟨_, by simp, eqIgnoreAsciiCase_iff.mp hname⟩
  · split at h
    · rename_i hname
      exact ⟨_, by simp, eqIgnoreAsciiCase_iff.mp hname⟩
    · split at h
      · rename_i hname
        exact ⟨_, by simp, eqIgnoreAsciiCase_iff.mp hname⟩
      · cases h

theorem not_mem_name (h : HashAlg.parse name = some a) : '-' ∉ name := by
  obtain ⟨t, ht, hname⟩ := lower_of_parse h
  rw [← mem_toAsciiLowercase (Or.inl (by decide)), hname, mem_toAsciiLowercase (Or.inl (by decide))]
  simp only [List.mem_cons, List.not_mem_nil, or_false] at ht
  rcases ht with rfl | rfl | rfl <;> decide

theorem len_of_hash {value : Text} (hsplit : splitOnce '-' s = some (name, value))
    (halg : HashAlg.parse name = some a) (hread : decodeBase64 value = some d) (hlen : d.length = a.digestLen) :
    s.len ≤ Sri.MAX_INTEGRITY_BYTES := by
  obtain ⟨rfl, -⟩ := splitOnce_eq_some hsplit
  have hname : name.len = 6 := by
    obtain ⟨t, ht, hname⟩ := lower_of_parse halg
    rw [← len_toAsciiLowercase, hname, len_toAsciiLowercase]
    simp only [List.mem_cons, List.not_mem_nil, or_false] at ht
    rcases ht with rfl | rfl | rfl <;> rfl
  have hdigest : a.digestLen ≤ 64 := by cases a <;> decide
  obtain ⟨hvalid, hpad, hcount⟩ := decodeBase64_spec hread
  obtain ⟨n, hvalue, -⟩ := exists_padding value
  have hpadded : value.length = (trimEndMatches (· = '=') value).length + n := by
    have hsum := congrArg List.length hvalue
    rwa [List.length_append, List.length_replicate] at hsum
  have hascii : isAscii (List.replicate n '=') = true := List.all_eq_true.mpr fun c hc => by
    rw [List.eq_of_mem_replicate hc]
    rfl
  have hvalueLen : value.len = (trimEndMatches (· = '=') value).length + n := by
    rw [hvalue, len_append, len_of_base64 hvalid, len_of_isAscii hascii, List.length_replicate, ← hvalue]
  have hsum : Text.len (name ++ '-' :: value) = name.len + (1 + value.len) := by
    rw [len_append, ← List.singleton_append, len_append]
    rfl
  rw [hsum, hname, hvalueLen, Sri.MAX_INTEGRITY_BYTES]
  omega

/-- Integrity metadata is read as exactly one hash, which has this digest. -/
def ReadsAs (s : Text) (a : HashAlg) (d : Bytes) : Prop :=
  d ≠ [] ∧ ∃ m, Sri.parse s = .ok m ∧ m.hashes = [⟨a.algorithm, d⟩]

theorem readsAs_iff (h : ∀ c ∈ s, Referrer.isTokenSpace c = false ∧ c ≠ '?') :
    ReadsAs s a d ↔ ∃ name value, splitOnce '-' s = some (name, value) ∧ HashAlg.parse name = some a ∧
      Sri.base64Decode value = some d ∧ d.length = a.digestLen := by
  have hspace : ∀ c ∈ s, Referrer.isTokenSpace c = false := fun c hc => (h c hc).1
  have hquery : '?' ∉ s := fun hmem => (h '?' hmem).2 rfl
  rw [← sri_parseToken_iff hquery]
  constructor
  · rintro ⟨hne, m, hparse, hone⟩
    have hlen : s.len ≤ Sri.MAX_INTEGRITY_BYTES := by
      by_contra hlong
      rw [Sri.parse, if_pos (Nat.not_le.mp hlong)] at hparse
      cases hparse
    have hs : s ≠ [] := by
      rintro rfl
      have hnone : Sri.parse [] = .ok ⟨[], false⟩ := rfl
      rw [hnone] at hparse
      cases hparse
      cases hone
    rw [sri_parse_eq hspace hs hlen] at hparse
    cases hparse
    exact ⟨Option.toList_eq_singleton_iff.mp hone, hne⟩
  · intro htoken
    obtain ⟨name, value, hsplit, halg, hread, hdigest⟩ := (sri_parseToken_iff hquery).mp htoken
    have hs : s ≠ [] := by
      rintro rfl
      cases hsplit
    have hparse := sri_parse_eq hspace hs (len_of_hash hsplit halg (base64Decode_eq_some.mp hread).1 hdigest)
    exact ⟨htoken.2, _, hparse, by rw [htoken.1]; rfl⟩

/-- The decoders agree on a text exactly if it does not hold bits that are left over, and the readers on a text without
spaces and queries exactly if no hash in it does. -/
theorem hashes_read_alike_iff (s : Text) :
    (decodeBase64 s = Sri.base64Decode s ↔ ¬ LooseText s) ∧
    ((∀ c ∈ s, Referrer.isTokenSpace c = false ∧ c ≠ '?') →
      ((∀ (a : HashAlg) (d : Bytes), HashValue.parse s = some ⟨a, d⟩ ↔ ReadsAs s a d) ↔ ¬ LooseHash s)) := by
  refine ⟨decoders_agree_iff s, fun hplain => ?_⟩
  constructor
  · intro hall hloose
    obtain ⟨name, value, a, rfl, halg, hvalue, hlen⟩ := hloose
    obtain ⟨d, hd⟩ := decodeBase64_of_looseText hvalue
    have hsplit : splitOnce '-' (name ++ '-' :: value) = some (name, value) := splitOnce_append (not_mem_name halg) value
    have hdigest : d.length = a.digestLen := by
      rw [(decodeBase64_spec hd).2.2, Nat.mul_comm]
      exact hlen
    obtain ⟨name', value', hsplit', -, hread, -⟩ :=
      (readsAs_iff hplain).mp ((hall a d).mp (hashValue_parse_iff.mpr ⟨name, value, hsplit, halg, hd, hdigest⟩))
    rw [hsplit] at hsplit'
    cases hsplit'
    exact (base64Decode_eq_some.mp hread).2 hvalue
  · intro hloose a d
    rw [hashValue_parse_iff, readsAs_iff hplain]
    refine exists_congr fun name => exists_congr fun value => and_congr_right fun hsplit => and_congr_right fun halg => ?_
    refine and_congr_left fun hdigest => ⟨fun hd => ?_, fun hd => (base64Decode_eq_some.mp hd).1⟩
    refine base64Decode_eq_some.mpr ⟨hd, fun hvalue => hloose ⟨name, value, a, ?_, halg, hvalue, ?_⟩⟩
    · exact (splitOnce_eq_some hsplit).1
    · rw [Nat.mul_comm, ← (decodeBase64_spec hd).2.2, hdigest]

theorem hashes_read_alike_sample :
    (∀ (a : HashAlg) (d : Bytes), HashValue.parse "sha256-AAA=".toList = some ⟨a, d⟩ ↔ ReadsAs "sha256-AAA=".toList a d) ↔
      ¬ LooseHash "sha256-AAA=".toList := by
  have hplain : ("sha256-AAA=".toList.all fun c => !Referrer.isTokenSpace c && c ≠ '?') = true := by decide
  refine (hashes_read_alike_iff "sha256-AAA=".toList).2 fun c hc => ?_
  simpa using List.all_eq_true.mp hplain c hc

/-- A hash of 43 characters of which the last has a bit too many. -/
def looseSample : Text := "sha256-".toList ++ List.replicate 42 'A' ++ ['B']

/-- It is a hash source, and as integrity metadata it holds no digest. -/
theorem loose_hash_read_by_one :
    ¬ (∀ (a : HashAlg) (d : Bytes), HashValue.parse looseSample = some ⟨a, d⟩ ↔ ReadsAs looseSample a d) ∧
      decodeBase64 (looseSample.drop 7) ≠ Sri.base64Decode (looseSample.drop 7) := by
  have hsource : HashValue.parse looseSample = some ⟨.sha256, List.replicate 32 0⟩ := by rfl
  have hmetadata : Sri.parse looseSample = .ok ⟨[⟨.sha256, []⟩], true⟩ := by rfl
  have hfirst : decodeBase64 (looseSample.drop 7) = some (List.replicate 32 0) := by rfl
  have hsecond : Sri.base64Decode (looseSample.drop 7) = none := by rfl
  refine ⟨fun hall => ?_, by rw [hfirst, hsecond]; exact Option.some_ne_none _⟩
  obtain ⟨-, m, hparse, hone⟩ := (hall .sha256 (List.replicate 32 0)).mp hsource
  rw [hmetadata] at hparse
  cases hparse
  cases hone

end Pelorus.Websec
