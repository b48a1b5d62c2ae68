import Pelorus.Block.Filter

/-
  Block/Accounting.lean --- every line is accounted for, and every rule is a line.

  THE COUNTERS go up together: each line raises the number of lines and one other.

  A RULE comes from one line, and the lines that are read are lines of the list, but for the
  last one where the list was cut.
-/
set_option autoImplicit false

namespace Pelorus.Block

open Lib

/-! ## Rules of lines -/

theorem finishFilter_lineno (line : Text) (n : Nat) (exception : Bool) (patternText : Text) (o : Options) :
    finishFilter line n exception patternText o =
      (finishFilter line 0 exception patternText o).map fun r => { r with line := n } := by
  unfold finishFilter
  split
  · rfl
  · generalize (if o.posTypes = 0 then TypeMask.DEFAULT.bits else o.posTypes) = base
    dsimp only
    split
    · rfl
    · cases Pattern.fromText patternText o.matchCase with
      | error e => rfl
      | ok pattern =>
          dsimp only
          split
          · rfl
          · rfl

/-- Whether a line is a rule does not depend on where it stands. -/
theorem parseNetworkFilter_lineno (line : Text) (n : Nat) :
    parseNetworkFilter line n = (parseNetworkFilter line 0).map fun r => { r with line := n } := by
  have hbody : ∀ exception body, parseFilterBody line n exception body =
      (parseFilterBody line 0 exception body).map fun r => { r with line := n } := by
    intro exception body
    unfold parseFilterBody
    split
    · rfl
    · dsimp only
      split
      · rfl
      · exact finishFilter_lineno _ _ _ _ _
  unfold parseNetworkFilter
  split
  · exact hbody true _
  · exact hbody false _

variable {r : ListedRule} {lines : List Text} {bytes : Bytes}

/-- A rule is the line as it was written. -/
theorem text_of_parseNetworkFilter {line : Text} {n : Nat} (h : parseNetworkFilter line n = .ok r) :
    r.text = line := by
  have hfinish : ∀ {exception patternText o}, finishFilter line n exception patternText o = .ok r → r.text = line := by
    intro exception patternText o h
    unfold finishFilter at h
    split at h
    · cases h
    · generalize (if o.posTypes = 0 then TypeMask.DEFAULT.bits else o.posTypes) = base at h
      dsimp only at h
      split at h
      · cases h
      · split at h
        · cases h
        · split at h
          · cases h
          · cases h
            rfl
  have hbody : ∀ {exception body}, parseFilterBody line n exception body = .ok r → r.text = line := by
    intro exception body h
    unfold parseFilterBody at h
    split at h
    · cases h
    · dsimp only at h
      split at h
      · cases h
      · exact hfinish h
  unfold parseNetworkFilter at h
  split at h
  · exact hbody h
  · exact hbody h

/-- What `classify` and `parse_network_filter` take for a rule, at a place. -/
def filterOf (lineno : Nat) (raw : Text) : Option ListedRule :=
  if MAX_LINE_BYTES < raw.len ∨ classify raw.trim ≠ .network then none else (parseNetworkFilter raw.trim lineno).toOption

/-- A line is a filter, wherever it stands. -/
def isFilter (raw : Text) : Bool := (filterOf 0 raw).isSome

theorem filterOf_eq (n : Nat) (raw : Text) : filterOf n raw = (filterOf 0 raw).map fun r => { r with line := n } := by
  unfold filterOf
  split
  · rfl
  · rw [parseNetworkFilter_lineno]
    cases parseNetworkFilter raw.trim 0 with
    | error _ => rfl
    | ok _ => rfl

theorem isSome_filterOf (n : Nat) (raw : Text) : (filterOf n raw).isSome = isFilter raw := by
  rw [filterOf_eq, Option.isSome_map, isFilter]

theorem of_filterOf {n : Nat} {raw : Text}
    (h : filterOf n raw = some r) : r.line = n ∧ r.text = raw.trim := by
  constructor
  · rw [filterOf_eq] at h
    obtain ⟨r', _, rfl⟩ := Option.map_eq_some_iff.mp h
    rfl
  · unfold filterOf at h
    split at h
    · cases h
    · cases hparse : parseNetworkFilter raw.trim n with
      | error _ =>
          rw [hparse] at h
          cases h
      | ok r' =>
          rw [hparse] at h
          cases h
          exact text_of_parseNetworkFilter hparse

/-! ## One line more -/

/-- Each line that was seen landed in one counter, and each rule was counted. -/
def ReadList.Balanced (list : ReadList) : Prop :=
  list.stats.lines = list.stats.blank + list.stats.comments + list.stats.headers + list.stats.cosmeticSkipped +
    list.stats.accepted + list.stats.rejectedTotal ∧ list.stats.accepted = list.rules.length

theorem rejectedTotal_reject (stats : ParseStats) (reason : RejectReason) :
    (stats.reject reason).rejectedTotal = stats.rejectedTotal + 1 := by
  have hsum := SortedMap.sum_insert (fun _ n => n) stats.rejected reason (stats.rejectedFor reason + 1)
  have hold : (stats.rejected.get? reason).elim 0 (fun n => n) = stats.rejectedFor reason := by
    unfold ParseStats.rejectedFor
    cases stats.rejected.get? reason with
    | none => rfl
    | some _ => rfl
  unfold ParseStats.rejectedTotal ParseStats.reject
  dsimp only
  omega

theorem balanced_readLine {list : ReadList} (h : list.Balanced) (idx : Nat) (raw : Text) : (readLine list idx raw).Balanced := by
  obtain ⟨hlines, haccepted⟩ := h
  have hreject : ∀ (t : Bool) (reason : RejectReason), ReadList.Balanced
      { list with stats := ParseStats.reject { list.stats with lines := list.stats.lines + 1, truncated := t } reason } := by
    intro t reason
    have htotal := rejectedTotal_reject { list.stats with lines := list.stats.lines + 1, truncated := t } reason
    refine ⟨?_, haccepted⟩
    rw [htotal]
    simp only [ParseStats.reject, ParseStats.rejectedTotal] at hlines ⊢
    omega
  unfold ParseStats.rejectedTotal at hlines
  unfold readLine
  dsimp only
  split
  · exact hreject _ _
  · split
    · exact ⟨by simp only [ParseStats.rejectedTotal]; omega, haccepted⟩
    · exact ⟨by simp only [ParseStats.rejectedTotal]; omega, haccepted⟩
    · exact ⟨by simp only [ParseStats.rejectedTotal]; omega, haccepted⟩
    · exact ⟨by simp only [ParseStats.rejectedTotal]; omega, haccepted⟩
    · split
      · exact hreject _ _
      · split
        · exact ⟨by simp only [ParseStats.rejectedTotal]; omega, by simp only [List.length_append, List.length_singleton]; omega⟩
        · exact hreject _ _

theorem rules_readLine (list : ReadList) (idx : Nat) (raw : Text) : (readLine list idx raw).rules =
    if list.rules.length < MAX_RULES_PER_LIST then list.rules ++ (filterOf (min (idx + 1) U32_MAX) raw).toList
      else list.rules := by
  have hnone : ∀ {o : Option ListedRule}, o = none →
      list.rules = if list.rules.length < MAX_RULES_PER_LIST then list.rules ++ o.toList else list.rules := by
    intro o ho
    rw [ho, Option.toList_none, List.append_nil, ite_self]
  unfold readLine
  dsimp only
  split
  · rename_i hlong
    exact hnone (if_pos (Or.inl hlong))
  · rename_i hshort
    have hother : classify raw.trim ≠ .network → filterOf (min (idx + 1) U32_MAX) raw = none := fun h => if_pos (Or.inr h)
    split
    · rename_i hclass
      exact hnone (hother (by rw [hclass]; decide))
    · rename_i hclass
      exact hnone (hother (by rw [hclass]; decide))
    · rename_i hclass
      exact hnone (hother (by rw [hclass]; decide))
    · rename_i scriptlet hclass
      exact hnone (hother (by rw [hclass]; exact Class.noConfusion))
    · rename_i hclass
      have hfilter : filterOf (min (idx + 1) U32_MAX) raw = (parseNetworkFilter raw.trim (min (idx + 1) U32_MAX)).toOption :=
        if_neg (not_or.mpr ⟨hshort, fun h => h hclass⟩)
      split
      · rename_i hfull
        rw [if_neg (Nat.not_lt.mpr hfull)]
      · rename_i hroom
        rw [if_pos (Nat.not_le.mp hroom), hfilter]
        split
        · rename_i rule hrule
          rw [hrule]
          rfl
        · rename_i reason hreason
          rw [hreason]
          exact (List.append_nil _).symm

/-! ## All the lines -/

/-- The rules of lines, the first of which has this index. -/
def filtersFrom : Nat → List Text → List ListedRule
  | _, [] => []
  | idx, raw :: lines => (filterOf (min (idx + 1) U32_MAX) raw).toList ++ filtersFrom (idx + 1) lines

theorem balanced_readLines {list : ReadList} (h : list.Balanced) (idx : Nat) (lines : List Text) :
    (readLines list idx lines).Balanced := by
  induction lines generalizing list idx with
  | nil => exact h
  | cons raw lines ih => exact ih (balanced_readLine h idx raw) (idx + 1)

/-- The rules that are read are the first ones that there is room for. -/
theorem rules_readLines (list : ReadList) (idx : Nat) (lines : List Text) :
    (readLines list idx lines).rules =
      list.rules ++ (filtersFrom idx lines).take (MAX_RULES_PER_LIST - list.rules.length) := by
  induction lines generalizing list idx with
  | nil => rw [readLines, filtersFrom, List.take_nil, List.append_nil]
  | cons raw lines ih =>
      rw [readLines, ih, rules_readLine, filtersFrom]
      by_cases hroom : list.rules.length < MAX_RULES_PER_LIST
      · obtain ⟨room, hsub⟩ : ∃ room, MAX_RULES_PER_LIST - list.rules.length = room + 1 :=
          ⟨MAX_RULES_PER_LIST - list.rules.length - 1, by omega⟩
        rw [if_pos hroom]
        cases filterOf (min (idx + 1) U32_MAX) raw with
        | none => rw [Option.toList_none, List.append_nil, List.nil_append]
        | some r =>
            have hless : MAX_RULES_PER_LIST - (list.rules ++ [r]).length = room := by
              rw [List.length_append, List.length_singleton]
              omega
            rw [Option.toList_some, hless, hsub, List.singleton_append, List.take_succ_cons, List.append_assoc,
              List.singleton_append]
      · rw [if_neg hroom, Nat.sub_eq_zero_of_le (Nat.not_lt.mp hroom), List.take_zero, List.take_zero]

theorem filtersFrom_append (idx : Nat) (front back : List Text) :
    filtersFrom idx (front ++ back) = filtersFrom idx front ++ filtersFrom (idx + front.length) back := by
  induction front generalizing idx with
  | nil => rfl
  | cons raw front ih =>
      rw [List.cons_append, filtersFrom, ih, filtersFrom, List.append_assoc, List.length_cons, Nat.add_assoc,
        Nat.add_comm 1]

theorem length_filtersFrom (idx : Nat) (lines : List Text) : (filtersFrom idx lines).length = lines.countP isFilter := by
  induction lines generalizing idx with
  | nil => rfl
  | cons raw lines ih =>
      rw [filtersFrom, List.length_append, ih, List.countP_cons, ← isSome_filterOf (min (idx + 1) U32_MAX) raw, Nat.add_comm]
      cases filterOf (min (idx + 1) U32_MAX) raw with
      | none => rfl
      | some _ => rfl

/-- A rule is the line at its number. -/
theorem of_mem_filtersFrom {idx : Nat} (h : r ∈ filtersFrom idx lines)
    (hidx : idx + lines.length ≤ U32_MAX) :
    ∃ i raw, lines[i]? = some raw ∧ r.line = idx + i + 1 ∧ r.text = raw.trim := by
  induction lines generalizing idx with
  | nil => cases h
  | cons raw lines ih =>
      rw [List.length_cons] at hidx
      rcases List.mem_append.mp h with hfirst | hrest
      · obtain ⟨hline, htext⟩ := of_filterOf (Option.mem_toList.mp hfirst)
        exact ⟨0, raw, rfl, by rw [hline]; omega, htext⟩
      · obtain ⟨i, raw', hget, hline, htext⟩ := ih hrest (by omega)
        exact ⟨i + 1, raw', hget, by omega, htext⟩

theorem pairwise_filtersFrom {idx : Nat} (hidx : idx + lines.length ≤ U32_MAX) :
    (filtersFrom idx lines).Pairwise fun a b => a.line < b.line := by
  induction lines generalizing idx with
  | nil => exact .nil
  | cons raw lines ih =>
      rw [List.length_cons] at hidx
      refine List.pairwise_append.mpr ⟨?_, ih (by omega), fun a ha b hb => ?_⟩
      · cases filterOf (min (idx + 1) U32_MAX) raw with
        | none => exact .nil
        | some _ => exact List.pairwise_singleton _ _
      · have hfirst := (of_filterOf (Option.mem_toList.mp ha)).1
        obtain ⟨i, _, _, hline, _⟩ := of_mem_filtersFrom hb (by omega)
        omega

/-! ## Lines of a list -/

/-- The lines of a list: what stands between line ends, decoded; a byte order mark is no part of the first. -/
def listLines (bytes : Bytes) : List Text := ((bytes.splitOn 0x0a).map Text.fromUtf8Lossy).modifyHead stripMark

theorem stripMark_cons (c : Char) (s : Text) : stripMark (c :: s) = if c = Char.ofNat 0xFEFF then s else c :: s := by
  unfold stripMark Text.stripPrefix
  by_cases h : c = Char.ofNat 0xFEFF
  · rw [if_pos h, h, if_pos (by simp [List.isPrefixOf])]
    rfl
  · rw [if_neg h, if_neg (by simpa [List.isPrefixOf] using fun heq => h heq.symm)]
    rfl

/-- Taking the mark off a text takes it off its first line. -/
theorem splitOn_stripMark (text : Text) : (stripMark text).splitOn '\n' = (text.splitOn '\n').modifyHead stripMark := by
  cases text with
  | nil => rfl
  | cons c s =>
      rw [stripMark_cons, List.splitOn_eq_splitOnP, List.splitOn_eq_splitOnP, List.splitOnP_cons_eq_if_modifyHead]
      split
      · rename_i h
        have hmark : stripMark ∘ List.cons c = id := funext fun s => (stripMark_cons c s).trans (if_pos h)
        rw [if_neg (by rw [h]; decide), List.modifyHead_modifyHead, hmark, List.modifyHead_id]
        rfl
      · rename_i h
        rw [List.splitOnP_cons_eq_if_modifyHead]
        split
        · rfl
        · have hkeep : stripMark ∘ List.cons c = List.cons c := funext fun s => (stripMark_cons c s).trans (if_neg h)
          rw [List.modifyHead_modifyHead, hkeep]

theorem listLines_eq (bytes : Bytes) : listLines bytes = (stripMark (Text.fromUtf8Lossy bytes)).splitOn '\n' := by
  rw [splitOn_stripMark, Text.splitOn_fromUtf8Lossy, listLines]

theorem listLines_take (n : Nat) (bytes : Bytes) : ∃ (init : List Text) (cut whole : Text) (more : List Text),
    listLines (bytes.take n) = init ++ [cut] ∧ listLines bytes = init ++ whole :: more ∧
      (bytes.length ≤ n → cut = whole) := by
  obtain ⟨pieces, hpieces⟩ := Text.splitOnP_append (fun b : UInt8 => b == 0x0a) (bytes.take n)
  obtain ⟨line, more, hrest⟩ := List.exists_cons_of_ne_nil (List.splitOnP_ne_nil (fun b : UInt8 => b == 0x0a) (bytes.drop n))
  generalize ((bytes.take n).rtakeWhile fun b => !(b == 0x0a)) = tail at hpieces
  have hcut : (bytes.take n).splitOn 0x0a = pieces ++ [tail] := by
    have hnil := hpieces []
    rw [List.append_nil, List.splitOnP_nil, List.modifyHead_cons, List.append_nil] at hnil
    exact hnil
  have hwhole : bytes.splitOn 0x0a = pieces ++ (tail ++ line) :: more := by
    have happend := hpieces (bytes.drop n)
    rw [List.take_append_drop, hrest, List.modifyHead_cons] at happend
    exact happend
  have hline : bytes.length ≤ n → line = [] := by
    intro hle
    rw [List.drop_eq_nil_of_le hle, List.splitOnP_nil] at hrest
    exact (List.cons.inj hrest).1.symm
  unfold listLines
  rw [hcut, hwhole, List.map_append, List.map_append, List.map_singleton, List.map_cons]
  cases pieces with
  | nil =>
      refine ⟨[], stripMark (Text.fromUtf8Lossy tail), stripMark (Text.fromUtf8Lossy (tail ++ line)), _, rfl, rfl, fun hle => ?_⟩
      rw [hline hle, List.append_nil]
  | cons first pieces =>
      refine ⟨stripMark (Text.fromUtf8Lossy first) :: pieces.map Text.fromUtf8Lossy, Text.fromUtf8Lossy tail,
        Text.fromUtf8Lossy (tail ++ line), _, rfl, rfl, fun hle => ?_⟩
      rw [hline hle, List.append_nil]

theorem fitting_isPrefix (n : Nat) (text : Text) : fitting n text <+: text := by
  induction text generalizing n with
  | nil => exact List.nil_prefix
  | cons c s ih =>
      rw [fitting]
      split
      · exact List.cons_prefix_cons.mpr ⟨rfl, ih _⟩
      · exact List.nil_prefix

theorem len_fitting (n : Nat) (text : Text) : (fitting n text).len ≤ n := by
  induction text generalizing n with
  | nil => exact Nat.zero_le _
  | cons c s ih =>
      rw [fitting]
      split
      · rename_i hfits
        have hrest := ih (n - c.utf8Size)
        rw [Text.len_eq_sum] at hrest ⊢
        rw [List.map_cons, List.sum_cons]
        omega
      · exact Nat.zero_le _

/-- The lines that are kept where there is more than the cap: whole lines, and an empty one behind them. -/
theorem splitOn_keptText {text : Text} (h : MAX_LIST_BYTES < text.len) : ∃ (lines more : List Text), more ≠ [] ∧
    (keptText text).splitOn '\n' = lines ++ [[]] ∧ text.splitOn '\n' = lines ++ more := by
  rw [keptText, if_pos h]
  obtain ⟨rest, hrest⟩ := List.IsPrefix.trans (List.rdropWhile_prefix (fun c => decide (c ≠ '\n')) _) (fitting_isPrefix MAX_LIST_BYTES text)
  cases hkept : (fitting MAX_LIST_BYTES text).rdropWhile fun c => c ≠ '\n' with
  | nil => exact ⟨[], text.splitOn '\n', List.splitOnP_ne_nil _ _, rfl, rfl⟩
  | cons c s =>
      have hne : (fitting MAX_LIST_BYTES text).rdropWhile (fun c => c ≠ '\n') ≠ [] := by rw [hkept]; exact List.cons_ne_nil _ _
      have hlast := List.rdropWhile_last_not _ _ hne
      have hsplit := List.dropLast_append_getLast hne
      rw [Bool.not_eq_true, decide_eq_false_iff_not, Decidable.not_not] at hlast
      rw [hlast, hkept] at hsplit
      rw [hkept, ← hsplit, List.append_assoc] at hrest
      refine ⟨((c :: s).dropLast).splitOn '\n', rest.splitOn '\n', List.splitOnP_ne_nil _ _, ?_, ?_⟩
      · rw [← hsplit, List.splitOn_eq_splitOnP, List.splitOnP_append_cons _ _ (by rfl), List.dropLast_concat]
        rfl
      · rw [← hrest, List.splitOn_eq_splitOnP]
        exact List.splitOnP_append_cons _ _ (by rfl)

theorem length_splitOn_le (text : Text) : (text.splitOn '\n').length ≤ text.len + 1 := by
  rw [List.splitOn_eq_splitOnP]
  induction text with
  | nil => exact Nat.le_refl _
  | cons c s ih =>
      have hlen : Text.len (c :: s) = c.utf8Size + Text.len s := by
        rw [Text.len_eq_sum, Text.len_eq_sum, List.map_cons, List.sum_cons]
      have hpos := c.utf8Size_pos
      rw [List.splitOnP_cons_eq_if_modifyHead]
      split
      · rw [List.length_cons]
        omega
      · rw [List.length_modifyHead]
        omega

theorem length_splitOn_keptText (text : Text) : ((keptText text).splitOn '\n').length ≤ U32_MAX := by
  have hkept : (keptText text).len ≤ MAX_LIST_BYTES := by
    unfold keptText
    split
    · exact Nat.le_trans (Text.len_le_of_sublist (List.rdropWhile_prefix _ _).sublist) (len_fitting _ _)
    · omega
  exact Nat.le_trans (length_splitOn_le _) (Nat.le_trans (Nat.succ_le_succ hkept) (by decide))

/-! ## The main result -/

/-- Every rule is a line of the list, in order, and every line is accounted for. -/
structure Accounts (bytes : Bytes) : Prop where
  whole : ∀ r ∈ (parseListBytes bytes).rules, ∃ i raw, (listLines bytes)[i]? = some raw ∧ r.line = i + 1 ∧ r.text = raw.trim
  ordered : (parseListBytes bytes).rules.Pairwise fun a b => a.line < b.line
  balanced : (parseListBytes bytes).Balanced

/-- The cut falls into a line, what is left of that line is a filter of its own, and there is room for it. -/
def CutIntoFilter (bytes : Bytes) : Prop :=
  MAX_LIST_BYTES < bytes.length ∧ (stripMark (Text.fromUtf8Lossy (bytes.take MAX_LIST_BYTES))).len ≤ MAX_LIST_BYTES ∧
    ∃ (init : List Text) (cut whole : Text), listLines (bytes.take MAX_LIST_BYTES) = init ++ [cut] ∧
      (listLines bytes)[init.length]? = some whole ∧ isFilter cut = true ∧ init.countP isFilter < MAX_RULES_PER_LIST ∧
        cut.trim ≠ whole.trim

theorem rules_parseListBytes (bytes : Bytes) : (parseListBytes bytes).rules =
    (filtersFrom 0 ((keptText (stripMark (Text.fromUtf8Lossy (bytes.take MAX_LIST_BYTES)))).splitOn '\n')).take
      MAX_RULES_PER_LIST := by
  rw [parseListBytes, parseList]
  dsimp only
  rw [rules_readLines]
  rfl

theorem balanced_parseListBytes (bytes : Bytes) : (parseListBytes bytes).Balanced := by
  exact @balanced_readLines ⟨[], _⟩ ⟨rfl, rfl⟩ _ _

theorem whole_of_prefix (hlines : lines <+: listLines bytes) (hlength : lines.length ≤ U32_MAX)
    {r : ListedRule} (h : r ∈ filtersFrom 0 lines) :
    ∃ i raw, (listLines bytes)[i]? = some raw ∧ r.line = i + 1 ∧ r.text = raw.trim := by
  obtain ⟨i, raw, hget, hline, htext⟩ := of_mem_filtersFrom h (by omega)
  obtain ⟨more, hmore⟩ := hlines
  refine ⟨i, raw, ?_, by omega, htext⟩
  rw [← hmore, List.getElem?_append_left (List.getElem?_eq_some_iff.mp hget).1, hget]

theorem rules_of_cut
    (hfit : (stripMark (Text.fromUtf8Lossy (bytes.take MAX_LIST_BYTES))).len ≤ MAX_LIST_BYTES)
    {init : List Text} {cut : Text} (hcut : listLines (bytes.take MAX_LIST_BYTES) = init ++ [cut]) :
    init.length + 1 ≤ U32_MAX ∧ (parseListBytes bytes).rules = (filtersFrom 0 init).take MAX_RULES_PER_LIST ++
      (filterOf (init.length + 1) cut).toList.take (MAX_RULES_PER_LIST - init.countP isFilter) := by
  have hkept : (keptText (stripMark (Text.fromUtf8Lossy (bytes.take MAX_LIST_BYTES)))).splitOn '\n' = init ++ [cut] := by
    rw [keptText, if_neg (Nat.not_lt.mpr hfit), ← listLines_eq, hcut]
  have hlength : init.length + 1 ≤ U32_MAX := by
    have hle := length_splitOn_keptText (stripMark (Text.fromUtf8Lossy (bytes.take MAX_LIST_BYTES)))
    rw [hkept, List.length_append, List.length_singleton] at hle
    exact hle
  refine ⟨hlength, ?_⟩
  rw [rules_parseListBytes, hkept, filtersFrom_append, List.take_append, length_filtersFrom, Nat.zero_add, filtersFrom,
    filtersFrom, List.append_nil, Nat.min_eq_left hlength]

/-- Where the cut leaves a filter, that filter is no line of the list. -/
theorem not_accounts_of_cut (hcut : CutIntoFilter bytes) : ¬ Accounts bytes := by
  intro h
  obtain ⟨_, hfit, init, cut, whole, hinit, hget, hfilter, hroom, hne⟩ := hcut
  obtain ⟨_, hrules⟩ := rules_of_cut hfit hinit
  obtain ⟨r, hr⟩ := Option.isSome_iff_exists.mp ((isSome_filterOf (init.length + 1) cut).trans hfilter)
  obtain ⟨room, hsub⟩ : ∃ room, MAX_RULES_PER_LIST - init.countP isFilter = room + 1 :=
    ⟨MAX_RULES_PER_LIST - init.countP isFilter - 1, by omega⟩
  have hmem : r ∈ (parseListBytes bytes).rules := by
    rw [hrules, hr, hsub, Option.toList_some, List.take_succ_cons]
    exact List.mem_append_right _ List.mem_cons_self
  obtain ⟨i, raw, hraw, hline, htext⟩ := h.whole r hmem
  obtain ⟨hplace, hcutText⟩ := of_filterOf hr
  obtain rfl : i = init.length := by omega
  obtain rfl := Option.some.inj (hget.symm.trans hraw)
  exact hne (hcutText.symm.trans htext)

/-- FILTER-LIST PARSING INVENTS NO RULE AND ACCOUNTS FOR EVERY LINE, but where the number of bytes that are examined ends
inside a line and what is left of the line is itself a filter.  For every byte string, each rule is a whole line of it, in
the order of the lines, and the counters add up, if and only if the cut leaves no such part of a line. -/
theorem accounts_iff (bytes : Bytes) : Accounts bytes ↔ ¬ CutIntoFilter bytes := by
  constructor
  · exact fun h hcut => not_accounts_of_cut hcut h
  · intro hno
    have hlength := length_splitOn_keptText (stripMark (Text.fromUtf8Lossy (bytes.take MAX_LIST_BYTES)))
    obtain ⟨init, cut, whole, more, hinit, hbytes, hsame⟩ := listLines_take MAX_LIST_BYTES bytes
    have hprefix : init <+: listLines bytes := ⟨whole :: more, hbytes.symm⟩
    refine ⟨fun r hr => ?_, ?_, balanced_parseListBytes bytes⟩
    · by_cases hfit : (stripMark (Text.fromUtf8Lossy (bytes.take MAX_LIST_BYTES))).len ≤ MAX_LIST_BYTES
      · obtain ⟨hbound, hrules⟩ := rules_of_cut hfit hinit
        rw [hrules] at hr
        rcases List.mem_append.mp hr with hearlier | hlast
        · exact whole_of_prefix hprefix (by omega) (List.mem_of_mem_take hearlier)
        · have hroom : init.countP isFilter < MAX_RULES_PER_LIST := by
            by_contra hfull
            rw [Nat.sub_eq_zero_of_le (Nat.not_lt.mp hfull)] at hlast
            cases hlast
          have hfilter := Option.mem_toList.mp (List.mem_of_mem_take hlast)
          obtain ⟨hline, htext⟩ := of_filterOf hfilter
          have hget : (listLines bytes)[init.length]? = some whole := by
            rw [hbytes, List.getElem?_append_right (Nat.le_refl _), Nat.sub_self]
            rfl
          refine ⟨init.length, whole, hget, hline, htext.trans ?_⟩
          rcases Nat.lt_or_ge MAX_LIST_BYTES bytes.length with hlong | hshort
          · by_contra hne
            refine hno ⟨hlong, hfit, init, cut, whole, hinit, hget, ?_, hroom, hne⟩
            rw [← isSome_filterOf (init.length + 1), hfilter]
            rfl
          · rw [hsame hshort]
      · obtain ⟨lines, more', hne, hkept, hall⟩ := splitOn_keptText (Nat.not_le.mp hfit)
        rw [rules_parseListBytes, hkept, filtersFrom_append] at hr
        rw [← listLines_eq, hinit] at hall
        have hblank : filtersFrom (0 + lines.length) [[]] = [] := rfl
        rw [hblank, List.append_nil] at hr
        refine whole_of_prefix ?_ ?_ (List.mem_of_mem_take hr)
        · have hlengths := congrArg List.length hall
          have hpos := List.length_pos_iff.mpr hne
          rw [List.length_append, List.length_append, List.length_singleton] at hlengths
          refine List.IsPrefix.trans (List.prefix_of_prefix_length_le ⟨more', hall.symm⟩ (List.prefix_append init [cut]) ?_) hprefix
          omega
        · rw [hkept, List.length_append, List.length_singleton] at hlength
          omega
    · rw [rules_parseListBytes]
      exact (pairwise_filtersFrom (by omega)).sublist (List.take_sublist _ _)

/-- The part of a list that is examined: one long line, and `||ads.exa`. -/
def examined : Bytes := List.replicate (MAX_LIST_BYTES - 10) 0x78 ++ 0x0a :: Text.utf8 "||ads.exa".toList

/-- The list goes on, and the rule is `||ads.example.com^`. -/
def cutList : Bytes := examined ++ Text.utf8 "mple.com^\n".toList

theorem length_examined : examined.length = MAX_LIST_BYTES := by
  have hrule : (Text.utf8 "||ads.exa".toList).length = 9 := by decide
  rw [examined, List.length_append, List.length_replicate, List.length_cons, hrule]
  rfl

theorem len_stripMark_le (text : Text) : (stripMark text).len ≤ text.len := by
  refine Text.len_le_of_sublist ?_
  cases text with
  | nil => exact List.Sublist.slnil
  | cons c s =>
      rw [stripMark_cons]
      split
      · exact List.sublist_cons_self c s
      · exact List.Sublist.refl _

theorem listLines_append {line : Bytes} (h : 0x0a ∉ line) (rest : Bytes) :
    listLines (line ++ 0x0a :: rest) = stripMark (Text.fromUtf8Lossy line) :: (rest.splitOn 0x0a).map Text.fromUtf8Lossy := by
  rw [listLines, List.splitOn_append_cons_self_of_not_mem h]
  rfl

theorem cutIntoFilter_cutList : CutIntoFilter cutList := by
  have hexamined : cutList.take MAX_LIST_BYTES = examined := List.take_left' length_examined
  have hfirst : (0x0a : UInt8) ∉ List.replicate (MAX_LIST_BYTES - 10) 0x78 := fun h =>
    absurd (List.eq_of_mem_replicate h) (by decide)
  have hascii : ∀ b ∈ examined, b < 128 := by
    intro b hb
    rcases List.mem_append.mp hb with hx | hrule
    · rw [List.eq_of_mem_replicate hx]
      decide
    · have hall : (0x0a :: Text.utf8 "||ads.exa".toList).all (fun b => b < 128) = true := by decide
      exact of_decide_eq_true (List.all_eq_true.mp hall b hrule)
  refine ⟨?_, ?_, [stripMark (Text.fromUtf8Lossy (List.replicate (MAX_LIST_BYTES - 10) 0x78))], "||ads.exa".toList,
    "||ads.example.com^".toList, ?_, ?_, by decide, ?_, by decide⟩
  · rw [cutList, List.length_append, length_examined]
    exact Nat.lt_add_of_pos_right (by decide)
  · have hlen := len_stripMark_le (Text.fromUtf8Lossy examined)
    rw [Text.fromUtf8Lossy_of_ascii hascii, Text.len, Text.len, Text.utf8_ofBytes hascii, length_examined] at hlen
    rw [hexamined, Text.fromUtf8Lossy_of_ascii hascii]
    exact hlen
  · have hrule : (List.splitOn 0x0a (Text.utf8 "||ads.exa".toList)).map Text.fromUtf8Lossy = ["||ads.exa".toList] := by decide
    rw [hexamined, examined, listLines_append hfirst, hrule]
    rfl
  · have hrule : (List.splitOn 0x0a (Text.utf8 "||ads.exa".toList ++ Text.utf8 "mple.com^\n".toList)).map Text.fromUtf8Lossy =
        ["||ads.example.com^".toList, []] := by decide
    rw [cutList, examined, List.append_assoc, List.cons_append, listLines_append hfirst, hrule]
    rfl
  · exact Nat.lt_of_le_of_lt (List.countP_le_length (p := isFilter)) (by decide)

/-- The list of this rule is read as one that blocks every host that begins with `ads.exa`. -/
theorem cut_list_not_accounted : ¬ Accounts cutList := not_accounts_of_cut cutIntoFilter_cutList

end Pelorus.Block
