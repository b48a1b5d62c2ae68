import Pelorus.Lib.Text

/-
  Lib/Lossy.lean --- decoding with replacement, line by line.

  A LINE END is a byte of its own: it is part of no longer character, so that the lines of a
  decoded text are the decoded lines, broken characters and all.
-/
set_option autoImplicit false

namespace Pelorus.Lib.Text

/-! ## Encoded characters -/

variable {c : Char} {bytes rest : Bytes} {first : UInt8}

/-- Equal encodings begin with equal characters. -/
theorem utf8EncodeChar_append_inj {d : Char} {x y : Bytes}
    (h : String.utf8EncodeChar c ++ x = String.utf8EncodeChar d ++ y) : c = d ∧ x = y := by
  have hc := @ByteArray.utf8DecodeChar?_utf8EncodeChar_append x.toByteArray c
  have hd := @ByteArray.utf8DecodeChar?_utf8EncodeChar_append y.toByteArray d
  rw [← List.toByteArray_append] at hc hd
  rw [h, hd] at hc
  obtain rfl := Option.some.inj hc
  exact ⟨rfl, List.append_cancel_left h⟩

/-- A text whose encoding begins another's begins it. -/
theorem prefix_of_utf8 : ∀ {s t : Text} {bytes : Bytes}, t.utf8 = s.utf8 ++ bytes → ∃ rest, t = s ++ rest
  | [], t, _, _ => ⟨t, rfl⟩
  | c :: s, [], _, h => by
      have hnil := congrArg List.length h
      have hpos : 0 < (String.utf8EncodeChar c).length := by
        rw [String.length_utf8EncodeChar]
        exact Char.utf8Size_pos c
      simp only [utf8, List.flatMap_nil, List.flatMap_cons, List.length_nil, List.length_append] at hnil
      omega
  | c :: s, d :: t, bytes, h => by
      simp only [utf8, List.flatMap_cons, List.append_assoc] at h
      obtain ⟨rfl, hrest⟩ := utf8EncodeChar_append_inj h
      obtain ⟨rest, rfl⟩ := prefix_of_utf8 hrest
      exact ⟨rest, rfl⟩

theorem charWidth_ofNat {n : Nat} (h : n < 256) : charWidth (UInt8.ofNat n) =
    if n < 0x80 then 1 else if 0xC2 ≤ n ∧ n ≤ 0xDF then 2 else if 0xE0 ≤ n ∧ n ≤ 0xEF then 3
      else if 0xF0 ≤ n ∧ n ≤ 0xF4 then 4 else 0 := by
  simp only [charWidth, UInt8.lt_iff_toNat_lt, UInt8.le_iff_toNat_le, UInt8.toNat_ofNat_of_lt' h]
  rfl

theorem le_ofNat_continued (n : Nat) : 0x80 ≤ UInt8.ofNat (n % 0x40 + 0x80) := by
  have hlt : n % 0x40 + 0x80 < 256 := by omega
  rw [UInt8.le_iff_toNat_le, UInt8.toNat_ofNat_of_lt' hlt]
  exact Nat.le_add_left _ _

/-- The first byte of a character tells how many it has, and the others are not ASCII. -/
theorem utf8EncodeChar_shape (c : Char) : ∃ first others, String.utf8EncodeChar c = first :: others ∧
    charWidth first = others.length + 1 ∧ ∀ b ∈ others, 0x80 ≤ b := by
  have hval : c.val.toNat ≤ 0x10ffff := by
    rcases c.valid with h | h
    · exact Nat.le_trans (Nat.le_of_lt h) (by decide)
    · exact Nat.le_of_lt_succ h.2
  unfold String.utf8EncodeChar
  generalize c.val.toNat = v at hval
  dsimp only
  split
  · refine ⟨_, [], rfl, ?_, List.forall_mem_nil _⟩
    rw [charWidth_ofNat (by omega), if_pos (by omega)]
    rfl
  · split
    · refine ⟨_, _, rfl, ?_, List.forall_mem_singleton.mpr (le_ofNat_continued _)⟩
      rw [charWidth_ofNat (by omega), if_neg (by omega), if_pos (by omega)]
      rfl
    · split
      · refine ⟨_, _, rfl, ?_, List.forall_mem_cons.mpr ⟨le_ofNat_continued _, List.forall_mem_singleton.mpr (le_ofNat_continued _)⟩⟩
        rw [charWidth_ofNat (by omega), if_neg (by omega), if_neg (by omega), if_pos (by omega)]
        rfl
      · refine ⟨_, _, rfl, ?_, List.forall_mem_cons.mpr ⟨le_ofNat_continued _,
          List.forall_mem_cons.mpr ⟨le_ofNat_continued _, List.forall_mem_singleton.mpr (le_ofNat_continued _)⟩⟩⟩
        rw [charWidth_ofNat (by omega), if_neg (by omega), if_neg (by omega), if_neg (by omega), if_pos (by omega)]
        rfl

/-! ## Pieces -/

/-- Where a text is cut, the last piece of its beginning goes on in the rest. -/
theorem splitOnP_append {α : Type} (p : α → Bool) (s : List α) : ∃ pieces, ∀ rest : List α,
    (s ++ rest).splitOnP p = pieces ++ (rest.splitOnP p).modifyHead ((s.rtakeWhile fun x => !p x) ++ ·) := by
  induction s using List.reverseRecOn with
  | nil =>
      refine ⟨[], fun rest => ?_⟩
      rw [List.nil_append, List.nil_append, List.rtakeWhile_nil]
      exact (congrFun List.modifyHead_id _).symm
  | append_singleton s x ih =>
      obtain ⟨pieces, h⟩ := ih
      have hcut : ∀ rest : List α, (s ++ [x] ++ rest).splitOnP p =
          pieces ++ ((x :: rest).splitOnP p).modifyHead ((s.rtakeWhile fun x => !p x) ++ ·) := fun rest => by
        rw [List.append_assoc, List.singleton_append, h]
      cases hx : p x with
      | true =>
          refine ⟨pieces ++ [s.rtakeWhile fun x => !p x], fun rest => ?_⟩
          rw [hcut, List.splitOnP_cons_eq_if_modifyHead, hx, List.rtakeWhile_concat_neg _ _ _ (by rw [hx]; decide)]
          simp only [if_true, List.modifyHead_cons, List.append_nil, List.nil_append, List.append_assoc]
          exact congrArg _ (congrArg _ (congrFun List.modifyHead_id _).symm)
      | false =>
          refine ⟨pieces, fun rest => ?_⟩
          rw [hcut, List.splitOnP_cons_eq_if_modifyHead, hx, List.rtakeWhile_concat_pos _ _ _ (by rw [hx]; rfl)]
          simp only [Bool.false_eq_true, if_false, List.modifyHead_modifyHead]
          refine congrArg _ (congrArg (fun f => List.modifyHead f _) (funext fun l => ?_))
          exact List.append_cons _ x l

/-! ## Lines -/

theorem isSecondByte_newline (first : UInt8) : isSecondByte first 0x0a = false := by
  unfold isSecondByte
  repeat' split
  all_goals rfl

theorem brokenWidth_le (first : UInt8) (rest : Bytes) : brokenWidth first rest - 1 ≤ rest.length := by
  unfold brokenWidth
  split
  · split
    · exact Nat.zero_le _
    · split
      · split <;> simp
      · simp
  · simp

/-- A line end does not count among the bytes of a broken character. -/
theorem brokenWidth_append (first : UInt8) (rest after : Bytes) :
    brokenWidth first (rest ++ 0x0a :: after) = brokenWidth first rest := by
  match rest with
  | [] => simp [brokenWidth, isSecondByte_newline]
  | [second] => simp [brokenWidth]
  | second :: third :: rest => rfl

theorem fromUtf8_eq_singleton (h : fromUtf8 bytes = some [c]) : bytes = String.utf8EncodeChar c := by
  rw [← utf8_of_fromUtf8 h, utf8, List.flatMap_singleton]

theorem charWidth_of_decoded (h : fromUtf8 ((first :: rest).take (charWidth first)) = some [c]) : 
    charWidth first - 1 ≤ rest.length ∧ ∀ b ∈ rest.take (charWidth first - 1), 0x80 ≤ b := by
  obtain ⟨first', others, hshape, hwidth, hothers⟩ := utf8EncodeChar_shape c
  have henc := (fromUtf8_eq_singleton h).trans hshape
  cases hw : charWidth first with
  | zero =>
      rw [hw] at henc
      cases henc
  | succ w =>
      rw [hw, List.take_succ_cons] at henc
      obtain ⟨rfl, rfl⟩ := List.cons.inj henc
      rw [hw, List.length_take] at hwidth
      exact ⟨by omega, by simpa using hothers⟩

/-- Whether bytes begin with a character does not depend on what follows a line end. -/
theorem decoded_append_newline (after : Bytes) {c : Char} :
    fromUtf8 ((first :: (rest ++ 0x0a :: after)).take (charWidth first)) = some [c] ↔
      fromUtf8 ((first :: rest).take (charWidth first)) = some [c] := by
  by_cases hle : charWidth first ≤ (first :: rest).length
  · rw [← List.cons_append, List.take_append_of_le_length hle]
  · rw [List.length_cons] at hle
    refine iff_of_false (fun h => ?_) fun h => hle (by have := (charWidth_of_decoded h).1; omega)
    have hmem : (0x0a : UInt8) ∈ (rest ++ 0x0a :: after).take (charWidth first - 1) := by
      obtain ⟨n, hn⟩ : ∃ n, charWidth first - 1 = rest.length + (n + 1) := ⟨charWidth first - 1 - rest.length - 1, by omega⟩
      rw [hn, List.take_length_add_append, List.take_succ_cons]
      exact List.mem_append_right _ List.mem_cons_self
    exact absurd ((charWidth_of_decoded h).2 _ hmem) (by decide)

theorem fromUtf8LossyFrom_cons_of_decoded {first : UInt8} {rest : Bytes} {c : Char}
    (h : fromUtf8 ((first :: rest).take (charWidth first)) = some [c]) :
    fromUtf8LossyFrom 0 (first :: rest) = c :: fromUtf8LossyFrom (charWidth first - 1) rest := by
  rw [fromUtf8LossyFrom, h]

theorem fromUtf8LossyFrom_cons_of_broken
    (h : ∀ c, fromUtf8 ((first :: rest).take (charWidth first)) ≠ some [c]) :
    fromUtf8LossyFrom 0 (first :: rest) = Char.ofNat 0xFFFD :: fromUtf8LossyFrom (brokenWidth first rest - 1) rest := by
  rw [fromUtf8LossyFrom]
  split
  · rename_i c hc
    exact absurd hc (h c)
  · rfl

/-- An ASCII byte is a character of its own. -/
theorem fromUtf8LossyFrom_ascii {b : UInt8} (h : b < 0x80) (rest : Bytes) :
    fromUtf8LossyFrom 0 (b :: rest) = Char.ofNat b.toNat :: fromUtf8LossyFrom 0 rest := by
  have hwidth : charWidth b = 1 := if_pos h
  have hascii : fromUtf8 [b] = some [Char.ofNat b.toNat] := by
    have hbytes := @utf8_ofBytes [b] (List.forall_mem_singleton.mpr h)
    rw [← hbytes]
    exact fromUtf8_utf8 _
  have hsome := @fromUtf8LossyFrom_cons_of_decoded b rest (Char.ofNat b.toNat) (by rw [hwidth]; exact hascii)
  rw [hsome, hwidth]

theorem fromUtf8LossyFrom_append {skip : Nat} (h : skip ≤ bytes.length) (after : Bytes) :
    fromUtf8LossyFrom skip (bytes ++ 0x0a :: after) = fromUtf8LossyFrom skip bytes ++ '\n' :: fromUtf8Lossy after := by
  induction bytes generalizing skip with
  | nil =>
      obtain rfl := Nat.le_zero.mp h
      exact fromUtf8LossyFrom_ascii (by decide) after
  | cons first rest ih =>
      cases skip with
      | succ skip => exact ih (Nat.le_of_succ_le_succ h)
      | zero =>
          by_cases hdecoded : ∃ c, fromUtf8 ((first :: rest).take (charWidth first)) = some [c]
          · obtain ⟨c, hc⟩ := hdecoded
            rw [List.cons_append, fromUtf8LossyFrom_cons_of_decoded ((decoded_append_newline after).mpr hc),
              fromUtf8LossyFrom_cons_of_decoded hc, ih (charWidth_of_decoded hc).1, List.cons_append]
          · have hbroken : ∀ c, fromUtf8 ((first :: rest).take (charWidth first)) ≠ some [c] := fun c hc => hdecoded ⟨c, hc⟩
            rw [List.cons_append, fromUtf8LossyFrom_cons_of_broken fun c hc => hbroken c ((decoded_append_newline after).mp hc),
              fromUtf8LossyFrom_cons_of_broken hbroken, brokenWidth_append, ih (brokenWidth_le _ _), List.cons_append]

/-- What is decoded has a line end only where the bytes have one. -/
theorem newline_not_mem {skip : Nat} (h : 0x0a ∉ bytes) : '\n' ∉ fromUtf8LossyFrom skip bytes := by
  induction bytes generalizing skip with
  | nil => 
      cases skip with
      | zero => exact List.not_mem_nil
      | succ skip => exact List.not_mem_nil
  | cons first rest ih =>
      have hrest : (0x0a : UInt8) ∉ rest := fun hmem => h (List.mem_cons_of_mem first hmem)
      cases skip with
      | succ skip => exact ih hrest
      | zero =>
          by_cases hdecoded : ∃ c, fromUtf8 ((first :: rest).take (charWidth first)) = some [c]
          · obtain ⟨c, hc⟩ := hdecoded
            rw [fromUtf8LossyFrom_cons_of_decoded hc]
            refine List.not_mem_cons_of_ne_of_not_mem (fun heq => ?_) (ih hrest)
            subst heq
            have hbytes : (first :: rest).take (charWidth first) = [0x0a] := fromUtf8_eq_singleton hc
            exact h (List.mem_of_mem_take (hbytes ▸ List.mem_singleton_self _))
          · rw [fromUtf8LossyFrom_cons_of_broken fun c hc => hdecoded ⟨c, hc⟩]
            exact List.not_mem_cons_of_ne_of_not_mem (by decide) (ih hrest)

/-- The lines of a decoded text are the decoded lines. -/
theorem splitOn_fromUtf8Lossy (bytes : Bytes) :
    (fromUtf8Lossy bytes).splitOn '\n' = (bytes.splitOn 0x0a).map fromUtf8Lossy := by
  by_cases hmem : (0x0a : UInt8) ∈ bytes
  · obtain ⟨line, rest, hbytes, hline⟩ := List.eq_append_cons_of_mem hmem
    have hshort : rest.length < bytes.length := by
      rw [hbytes, List.length_append, List.length_cons]
      omega
    have hlossy : fromUtf8Lossy bytes = fromUtf8Lossy line ++ '\n' :: fromUtf8Lossy rest := by
      rw [hbytes]
      exact fromUtf8LossyFrom_append (Nat.zero_le _) rest
    have hfirst : '\n' ∉ fromUtf8Lossy line := newline_not_mem hline
    rw [hlossy, List.splitOn_append_cons_self_of_not_mem hfirst, splitOn_fromUtf8Lossy rest, hbytes,
      List.splitOn_append_cons_self_of_not_mem hline, List.map_cons]
  · have hnone : '\n' ∉ fromUtf8Lossy bytes := newline_not_mem hmem
    rw [List.splitOn_eq_singleton hnone, List.splitOn_eq_singleton hmem, List.map_singleton]
termination_by bytes.length

theorem fromUtf8Lossy_of_ascii (h : ∀ b ∈ bytes, b < 0x80) :
    fromUtf8Lossy bytes = bytes.map fun b => Char.ofNat b.toNat := by
  induction bytes with
  | nil => rfl
  | cons b bytes ih =>
      obtain ⟨hb, hrest⟩ := List.forall_mem_cons.mp h
      exact (fromUtf8LossyFrom_ascii hb bytes).trans (congrArg _ (ih hrest))

end Pelorus.Lib.Text
