import Pelorus.Update.Client
import Pelorus.Update.Rotation

/-
  Update/Threshold.lean --- how many signatures a signature file can hold, and
  which thresholds can be met with it.

  THE LINE.  An accepted line has one length: its tag, a key id of eight bytes and
  a signature of sixty-four, in hexadecimal and separated by blanks.  So the cap on
  the file is a cap on its lines, and that cap is six (`count_le_of_parse`), two
  below the eight keys a set may hold.

  THE FILE.  Six keys and fewer have a file: their signatures, sorted by the id of
  the key (`exists_ascending`), written one a line (`parse_canonicalText`).
-/
set_option autoImplicit false

namespace Pelorus.Update

open Lib Lib.Text

namespace SignatureSet

/-! ## Lines -/

/-- The line of one signature. -/
def entryLine (entry : KeyId × Signature) : Text :=
  "sig".toList ++ ' ' :: (Hex.encode entry.1.1 ++ ' ' :: Hex.encode entry.2.1)

/-- A signature file: a line for each entry, the last ended too. -/
def canonicalText (entries : List (KeyId × Signature)) : Text :=
  (entries.map entryLine).flatMap fun l => l ++ ['\n']

/-- The bytes of a line, its end among them. -/
def LINE_BYTES : Nat := 150

theorem not_mem_encode {bytes : Bytes} {c : Char} (h : ∀ d < 16, c ≠ d.digitChar) :
    c ∉ Hex.encode bytes := by
  intro hmem
  obtain ⟨d, hd, rfl⟩ := Hex.mem_encode hmem
  exact h d hd rfl

theorem splitOn_entryLine (entry : KeyId × Signature) :
    (entryLine entry).splitOn ' ' = ["sig".toList, Hex.encode entry.1.1, Hex.encode entry.2.1] := by
  have hblank : ∀ bytes : Bytes, ' ' ∉ Hex.encode bytes := fun _ => not_mem_encode (by decide)
  rw [entryLine, List.splitOn_append_cons_self_of_not_mem (by decide),
    List.splitOn_append_cons_self_of_not_mem (hblank _), List.splitOn_eq_singleton (hblank _)]

theorem not_mem_entryLine (entry : KeyId × Signature) : '\n' ∉ entryLine entry := by
  have hnewline : ∀ bytes : Bytes, '\n' ∉ Hex.encode bytes := fun _ => not_mem_encode (by decide)
  simp [entryLine, hnewline]

theorem len_entryLine (entry : KeyId × Signature) : (entryLine entry).len + 1 = LINE_BYTES := by
  have hlen : ∀ bytes : Bytes, (Hex.encode bytes).len = 2 * bytes.length := fun bytes => by
    rw [len_of_isAscii (Hex.isAscii_encode bytes), Hex.length_encode]
  have hcons : ∀ s : Text, len (' ' :: s) = 1 + len s := fun s => len_append [' '] s
  rw [entryLine, len_append, hcons, len_append, hcons, hlen, hlen, entry.1.2, entry.2.2]
  rfl

theorem len_canonicalText (entries : List (KeyId × Signature)) :
    (canonicalText entries).len = LINE_BYTES * entries.length := by
  induction entries with
  | nil => rfl
  | cons entry entries ih =>
      rw [canonicalText, List.map_cons, List.flatMap_cons, len_append, len_append]
      rw [canonicalText] at ih
      have hline := len_entryLine entry
      rw [ih, List.length_cons, show len ['\n'] = 1 from rfl, hline, Nat.mul_succ, Nat.add_comm]

/-! ## Reading what was written -/

variable {sigs : SignatureSet}

theorem eq_of_entries {sigs' : SignatureSet} (h : sigs.entries = sigs'.entries) : sigs = sigs' := by
  cases sigs
  cases sigs'
  cases h
  rfl

theorem parseLines_written {sigs : SignatureSet} : ∀ {entries : List (KeyId × Signature)} {out : SignatureSet},
    sigs.entries = out.entries ++ entries → parseLines out (entries.map entryLine) = .ok sigs
  | [], out, h => by
      rw [List.append_nil] at h
      rw [List.map_nil, parseLines, eq_of_entries h]
  | entry :: entries, out, h => by
      have hroom : ¬ MAX_KEYS ≤ out.entries.length := by
        have hcount := sigs.count
        rw [h, List.length_append, List.length_cons] at hcount
        omega
      have hlast : ¬ (out.entries.getLast?.any fun p => ¬ p.1.1 < entry.1.1) = true := by
        have hascending := sigs.ascending
        rw [h] at hascending
        cases hget : out.entries.getLast? with
        | none => simp
        | some last =>
            have hlt := (List.pairwise_append.mp hascending).2.2 last (List.mem_of_getLast? hget)
              entry (by simp)
            simpa using hlt
      have hrest : sigs.entries = (out.push entry.1 entry.2 hroom hlast).entries ++ entries := by
        rw [h, push, List.append_assoc, List.singleton_append]
      have ih := parseLines_written hrest
      rw [List.map_cons, parseLines]
      simp only [splitOn_entryLine, ne_eq, not_true_eq_false, if_false, Hex.decodeFixed_encode]
      rw [dif_neg hroom, dif_neg hlast, ih]

/-- A set that is not empty and whose file keeps the cap is read back. -/
theorem parse_canonicalText (hne : sigs.entries ≠ [])
    (hcap : LINE_BYTES * sigs.entries.length ≤ MAX_SIG_FILE_BYTES) :
    parse (canonicalText sigs.entries).utf8 = .ok sigs := by
  have hlen : ¬ MAX_SIG_FILE_BYTES < (canonicalText sigs.entries).utf8.length := by
    have := len_canonicalText sigs.entries
    rw [len] at this
    omega
  have hbody : ∃ body, stripSuffix (canonicalText sigs.entries) ['\n'] = some body ∧
      body.splitOn '\n' = sigs.entries.map entryLine := by
    have hno : ∀ l ∈ sigs.entries.map entryLine, '\n' ∉ l := by
      intro l hl
      obtain ⟨entry, -, rfl⟩ := List.mem_map.mp hl
      exact not_mem_entryLine entry
    cases hentries : sigs.entries with
    | nil => exact absurd hentries hne
    | cons entry entries =>
        rw [hentries, List.map_cons] at hno
        rw [canonicalText, List.map_cons, flatMap_ended, stripSuffix_append]
        refine ⟨_, rfl, splitOn_led '\n' (hno _ (by simp)) ?_⟩
        intro l hl
        exact hno l (List.mem_cons_of_mem _ hl)
  obtain ⟨body, hstrip, hsplit⟩ := hbody
  rw [parse, if_neg hlen, fromUtf8_utf8]
  simp only [hstrip, hsplit]
  exact parseLines_written (show sigs.entries = empty.entries ++ sigs.entries from rfl)

/-! ## What an accepted file holds -/

theorem len_of_decodeFixed {n : Nat} {s : Text} {b : Fixed n} (h : Hex.decodeFixed n s = some b) :
    s.len = 2 * n := by
  unfold Hex.decodeFixed at h
  split at h
  · cases h
  · rename_i hlen
    exact not_not.mp hlen

/-- The length of pieces joined with a separator of one byte. -/
theorem len_intercalate {sep : Char} (hsep : len [sep] = 1) : ∀ (piece : Text) (pieces : List Text),
    len ([sep].intercalate (piece :: pieces)) + 1 = ((piece :: pieces).map fun p => len p + 1).foldr (· + ·) 0
  | piece, [] => by simp
  | piece, next :: pieces => by
      have ih := len_intercalate hsep next pieces
      rw [List.intercalate_cons_cons, len_append, len_append, hsep, List.map_cons, List.foldr_cons, ← ih]
      omega

/-- A line that is read has the length of a line that is written. -/
theorem len_of_split {l tag id sig : Text} (hsplit : l.splitOn ' ' = [tag, id, sig]) (htag : tag = "sig".toList)
    {idBytes : KeyId} {sigBytes : Signature} (hid : Hex.decodeFixed 8 id = some idBytes)
    (hsig : Hex.decodeFixed 64 sig = some sigBytes) : len l + 1 = LINE_BYTES := by
  have hjoin : [' '].intercalate [tag, id, sig] = l := by rw [← hsplit, List.intercalate_splitOn]
  have hlen := len_intercalate (show len [' '] = 1 from rfl) tag [id, sig]
  rw [hjoin] at hlen
  rw [hlen, htag]
  simp only [List.map_cons, List.map_nil, List.foldr_cons, List.foldr_nil, len_of_decodeFixed hid,
    len_of_decodeFixed hsig]
  rfl

/-- The loop takes one entry from each line, and every line is as long as any. -/
theorem parseLines_ok : ∀ {lines : List Text} {out sigs : SignatureSet}, parseLines out lines = .ok sigs →
    sigs.entries.length = out.entries.length + lines.length ∧ ∀ l ∈ lines, len l + 1 = LINE_BYTES
  | [], out, sigs, h => by
      rw [parseLines] at h
      cases h
      simp
  | l :: lines, out, sigs, h => by
      rw [parseLines] at h
      split at h
      · cases h
      · split at h
        · rename_i tag id sig hsplit
          split at h
          · cases h
          · rename_i htag
            split at h
            · rename_i hid hsig
              split at h
              · cases h
              · obtain ⟨hcount, hlines⟩ := parseLines_ok h
                rw [push, List.length_append, List.length_singleton] at hcount
                refine ⟨?_, ?_⟩
                · rw [hcount, List.length_cons]
                  omega
                · intro l' hl'
                  rcases List.mem_cons.mp hl' with rfl | hl'
                  · exact len_of_split hsplit (not_not.mp htag) hid hsig
                  · exact hlines l' hl'
            · cases h
        · cases h

theorem foldr_lines : ∀ {lines : List Text}, (∀ l ∈ lines, len l + 1 = LINE_BYTES) →
    (lines.map fun l => len l + 1).foldr (· + ·) 0 = LINE_BYTES * lines.length
  | [], _ => rfl
  | l :: lines, h => by
      have ih := foldr_lines fun l' hl' => h l' (List.mem_cons_of_mem _ hl')
      rw [List.map_cons, List.foldr_cons, ih, h l (by simp), List.length_cons, Nat.mul_succ, Nat.add_comm]

theorem length_of_parse {bytes : Bytes} (h : parse bytes = .ok sigs) :
    bytes.length = LINE_BYTES * sigs.entries.length ∧ bytes.length ≤ MAX_SIG_FILE_BYTES := by
  unfold parse at h
  split at h
  · cases h
  · rename_i hcap
    refine ⟨?_, Nat.not_lt.mp hcap⟩
    split at h
    · cases h
    · rename_i text htext
      split at h
      · cases h
      · rename_i body hstrip
        obtain ⟨hcount, hlines⟩ := parseLines_ok h
        rw [← utf8_of_fromUtf8 htext, stripSuffix_eq_some hstrip, ← len, len_append,
          show len ['\n'] = 1 from rfl]
        cases hsplit : body.splitOn '\n' with
        | nil => exact absurd hsplit (List.splitOn_ne_nil _ _)
        | cons line lines =>
            have hjoin : ['\n'].intercalate (line :: lines) = body := by
              rw [← hsplit, List.intercalate_splitOn]
            rw [hsplit] at hcount hlines
            rw [← hjoin, len_intercalate rfl, foldr_lines hlines, hcount]
            exact congrArg _ (Nat.zero_add _).symm

/-! ## Ascending entries -/

/-- Entries with distinct ids can be put in ascending order. -/
theorem exists_ascending {entries : List (KeyId × Signature)} (h : (entries.map Prod.fst).Nodup) :
    ∃ sorted : List (KeyId × Signature), sorted.Perm entries ∧ sorted.Pairwise fun p q => p.1.1 < q.1.1 := by
  let le : KeyId × Signature → KeyId × Signature → Prop := fun p q => p.1.1 ≤ q.1.1
  have htotal : Std.Total le := ⟨fun p q => List.le_total p.1.1 q.1.1⟩
  have htrans : IsTrans (KeyId × Signature) le := ⟨fun _ _ _ => List.le_trans⟩
  have hperm := List.mergeSort_perm entries fun p q => decide (le p q)
  have hsorted := List.pairwise_mergeSort' le entries
  have hdistinct := List.pairwise_map.mp ((hperm.map Prod.fst).nodup_iff.mpr h)
  refine ⟨_, hperm, (hsorted.and hdistinct).imp ?_⟩
  rintro p q ⟨hle, hne⟩
  rcases List.le_iff_lt_or_eq.mp hle with hlt | heq
  · exact hlt
  · exact absurd (Subtype.ext heq) hne

end SignatureSet

/-! ## Thresholds -/

section
variable {C : Crypto}

/-- A trust the client can come to hold: a root set, or the set a rotation introduced. -/
def Trust.Accepted (C : Crypto) (t : Trust) : Prop :=
  (∃ epoch keys threshold revoked, Trust.new C epoch keys threshold revoked = .ok t) ∨
    ∃ (t₀ : Trust) (signed : Bytes) (sigs : SignatureSet) (now : UInt64),
      t₀.applyRotation C signed sigs now = .ok t

variable {t : Trust} {signed : Bytes}

theorem Trust.Accepted.validSet (h : t.Accepted C) : ValidSet C t.keys t.threshold := by
  rcases h with ⟨_, _, _, _, hnew⟩ | ⟨_, _, _, _, hrotation⟩
  · exact (wf_of_new hnew).set
  · exact (applyRotation_ok hrotation).set

/-- Every key of the set has signed the document. -/
def Trust.AllSign (C : Crypto) (t : Trust) (signed : Bytes) : Prop :=
  ∀ k ∈ t.keys, ∃ sig, C.verify k (Trust.message signed) sig = true

theorem signer_of_mem (hdistinct : (t.keys.map (keyId C)).Nodup) {k : PublicKey}
    (hk : k ∈ t.keys) {sig : Signature} (hsig : C.verify k (Trust.message signed) sig = true) :
    t.signer C signed (keyId C k, sig) = some k := by
  have hfind : (t.keys.find? fun k' => keyId C k' = keyId C k) = some k := by
    cases hfound : t.keys.find? fun k' => keyId C k' = keyId C k with
    | none =>
        have := List.find?_eq_none.mp hfound k hk
        simp at this
    | some k' =>
        have hid : keyId C k' = keyId C k := by simpa using List.find?_some hfound
        rw [List.inj_on_of_nodup_map hdistinct (List.mem_of_find?_eq_some hfound) hk hid]
  rw [Trust.signer, hfind, Option.filter_some, if_pos hsig]

/-- The signatures of the first keys, as many as asked for, make a set that counts them all. -/
theorem exists_signatures (hset : ValidSet C t.keys t.threshold)
    (hsign : t.AllSign C signed) {count : Nat} (hcount : count ≤ t.keys.length) :
    ∃ sigs : SignatureSet, sigs.entries.length = count ∧
      (sigs.entries.filterMap (t.signer C signed)).length = count := by
  have : Nonempty Signature := ⟨⟨List.replicate 64 0, List.length_replicate⟩⟩
  choose! signature hsignature using hsign
  have hmem : ∀ k ∈ t.keys.take count, k ∈ t.keys := fun _ hk => List.mem_of_mem_take hk
  have hlength : (t.keys.take count).length = count := by
    rw [List.length_take, Nat.min_eq_left hcount]
  have hids : (((t.keys.take count).map fun k => (keyId C k, signature k)).map Prod.fst).Nodup := by
    rw [List.map_map]
    exact hset.distinct.sublist ((List.take_sublist count t.keys).map (keyId C))
  obtain ⟨sorted, hperm, hascending⟩ := SignatureSet.exists_ascending hids
  have hsize : sorted.length = count := by
    rw [hperm.length_eq, List.length_map, hlength]
  have hmax : sorted.length ≤ MAX_KEYS := by
    rw [hsize]
    exact hcount.trans hset.count
  refine ⟨⟨sorted, hmax, hascending⟩, hsize, ?_⟩
  have hall : ((t.keys.take count).map fun k => (keyId C k, signature k)).filterMap (t.signer C signed) =
      t.keys.take count := by
    rw [List.filterMap_map]
    refine (List.filterMap_congr fun k hk => ?_).trans List.filterMap_some
    exact signer_of_mem hset.distinct (hmem k hk) (hsignature k (hmem k hk))
  rw [(hperm.filterMap _).length_eq, hall, hlength]

/-- A signature file counts for no more than six keys. -/
theorem count_le_of_parse {bytes : Bytes} {sigs : SignatureSet} (h : SignatureSet.parse bytes = .ok sigs) :
    sigs.entries.length ≤ 6 := by
  obtain ⟨hlength, hcap⟩ := SignatureSet.length_of_parse h
  simp only [SignatureSet.LINE_BYTES, MAX_SIG_FILE_BYTES] at hlength hcap
  omega

/-- Every key that counts has an entry of its own. -/
theorem threshold_le_of_verify {sigs : SignatureSet}
    (h : t.verify C signed sigs = .ok ()) : t.threshold.toNat ≤ sigs.entries.length := by
  unfold Trust.verify at h
  split at h
  · cases h
  · simp only at h
    split at h
    · rename_i hneed
      exact hneed.trans (List.length_filterMap_le _ _)
    · cases h

end

/-- WHICH SETS AND THRESHOLDS ARE WITHIN REACH.  The file of a set of signatures is read back
if and only if it has at most six; and a threshold that all keys of a trust have signed for can be
met by some file if and only if it is at most six. -/
theorem signatures_within_reach_iff (C : Crypto) :
    (∀ sigs : SignatureSet, sigs.entries ≠ [] →
      (SignatureSet.parse (SignatureSet.canonicalText sigs.entries).utf8 = .ok sigs ↔
        sigs.entries.length ≤ 6)) ∧
    ∀ (t : Trust) (signed : Bytes), t.Accepted C → signed.length ≤ MAX_MANIFEST_BYTES →
      t.AllSign C signed →
      ((∃ (bytes : Bytes) (sigs : SignatureSet), SignatureSet.parse bytes = .ok sigs ∧
          t.verify C signed sigs = .ok ()) ↔ t.threshold.toNat ≤ 6) := by
  have hcap : ∀ sigs : SignatureSet, sigs.entries.length ≤ 6 →
      SignatureSet.LINE_BYTES * sigs.entries.length ≤ MAX_SIG_FILE_BYTES := by
    intro sigs h
    simp only [SignatureSet.LINE_BYTES, MAX_SIG_FILE_BYTES]
    omega
  refine ⟨?_, ?_⟩
  · intro sigs hne
    exact ⟨count_le_of_parse, fun h => SignatureSet.parse_canonicalText hne (hcap sigs h)⟩
  · intro t signed haccepted hsigned hsign
    have hset := haccepted.validSet
    constructor
    · rintro ⟨bytes, sigs, hparse, hverify⟩
      exact (threshold_le_of_verify hverify).trans (count_le_of_parse hparse)
    · intro hthreshold
      obtain ⟨sigs, hcount, hvalid⟩ := exists_signatures hset hsign hset.threshold_le
      have hpos := hset.threshold_pos
      have hne : sigs.entries ≠ [] := by
        intro hnil
        rw [hnil, List.length_nil] at hcount
        omega
      refine ⟨_, sigs, SignatureSet.parse_canonicalText hne (hcap sigs (by omega)), ?_⟩
      rw [Trust.verify, if_neg (Nat.not_lt.mpr hsigned)]
      simp only [hvalid, Nat.le_refl, if_true]

/-- One key and its signature are within reach. -/
theorem signatures_within_reach_root :
    (∃ (bytes : Bytes) (sigs : SignatureSet), SignatureSet.parse bytes = .ok sigs ∧
      Sample.root.verify Sample.crypto Sample.signed sigs = .ok ()) ↔ Sample.root.threshold.toNat ≤ 6 := by
  have hsigned : Sample.signed.length ≤ MAX_MANIFEST_BYTES := by decide +kernel
  refine (signatures_within_reach_iff Sample.crypto).2 Sample.root Sample.signed
    (Or.inl ⟨1, [Sample.rootKey], 1, [], Sample.new_root⟩) hsigned ?_
  intro k hk
  have hroot : k = Sample.rootKey := by simpa [Sample.root] using hk
  exact ⟨Sample.signature, by simp [Sample.crypto, hroot]⟩

/-- Seven signatures, by the keys whose ids begin with the numbers to six. -/
def sevenSignatures : SignatureSet where
  entries := (List.range 7).map fun i =>
    (⟨UInt8.ofNat i :: List.replicate 7 0, rfl⟩, ⟨List.replicate 64 0, rfl⟩)
  count := by decide
  ascending := by decide

/-- The file of seven signatures is too large to be read, though a set may hold eight keys. -/
theorem sevenSignatures_too_large :
    sevenSignatures.entries.length = 7 ∧ 7 ≤ MAX_KEYS ∧
      SignatureSet.parse (SignatureSet.canonicalText sevenSignatures.entries).utf8 = .error .tooLarge := by
  refine ⟨rfl, by decide, ?_⟩
  have hlength := SignatureSet.len_canonicalText sevenSignatures.entries
  have hseven : sevenSignatures.entries.length = 7 := rfl
  rw [len, hseven] at hlength
  rw [SignatureSet.parse, if_pos]
  rw [hlength]
  decide

end Pelorus.Update
