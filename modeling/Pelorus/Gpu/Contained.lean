import Pelorus.Gpu.Exchange

/-
  Gpu/Contained.lean --- what no GPU process can do to the session.

  WHAT IS KEPT over every call: there is one failure for every process that was started and is
  not held, the bound on failures is not passed before the session has given up, and the held
  process was sent its fonts once each and none that was refused (`Sound`).  The frame that a
  call returns follows from what is kept and from what one exchange comes to.
-/
set_option autoImplicit false

namespace Pelorus.Gpu

open Lib Ipc Paint

/-- A call of the session, with what comes of a start in it if it makes one. -/
inductive Op where
  | registerFont (id : UInt32) (bytes : Bytes)
  | warmUp (spawn : Spawn)
  | render (spawn : Spawn) (list : DisplayList) (width height : UInt32)

namespace GpuSession

variable {Font : Type}

/-- The session after a call. -/
def call (software : Software Font) (s : GpuSession Font) : Op → GpuSession Font
  | .registerFont id bytes =>
      match s.registerFont software id bytes with
      | .ok s => s
      | .error _ => s
  | .warmUp spawn => s.ensureProcess spawn
  | .render spawn list width height => (s.render software spawn list width height).session

/-- The processes that a call starts. -/
def attempts (s : GpuSession Font) : Op → Nat
  | .registerFont _ _ => 0
  | .warmUp _ => if s.starts then 1 else 0
  | .render _ list width height => if s.gpuCanTake list width height && s.starts then 1 else 0

/-- The session after calls in turn. -/
def after (software : Software Font) (config : GpuConfig) (ops : List Op) : GpuSession Font :=
  runFrom (call software) (new config) ops

/-- The processes that calls in turn start. -/
def started (software : Software Font) (s : GpuSession Font) : List Op → Nat
  | [] => 0
  | op :: ops => s.attempts op + started software (s.call software op) ops

/-! ## What is kept -/

/-- What holds between calls. -/
structure Sound (s : GpuSession Font) : Prop where
  counted : s.spawned.toNat = s.failures.toNat + if s.process.isSome then 1 else 0
  within : s.givenUp = false → s.failures.toNat ≤ s.config.maxRestarts.toNat
  most : s.failures.toNat ≤ s.config.maxRestarts.toNat + 1
  dropped : s.givenUp = true → s.process = none
  bounded : s.config.maxRestarts.toNat < 2 ^ 32 - 1
  told : ∀ p, s.process = some p → Told s.registry s.rejected p

theorem saturatingSucc_toNat {n : UInt32} (h : n.toNat < 2 ^ 32 - 1) : (saturatingSucc n).toNat = n.toNat + 1 := by
  have hne : n ≠ UInt32.ofNat (2 ^ 32 - 1) := by
    rintro rfl
    exact absurd h (by decide)
  rw [saturatingSucc, if_neg hne, UInt32.toNat_add]
  exact Nat.mod_eq_of_lt (by rw [UInt32.toNat_one]; omega)

variable {config : GpuConfig} {p : GpuProcess}

theorem sound_new (h : config.maxRestarts.toNat < 2 ^ 32 - 1) : (new config : GpuSession Font).Sound := by
  unfold new
  dsimp only
  split
  · exact ⟨rfl, fun _ => Nat.zero_le _, Nat.zero_le _, fun _ => rfl, h, fun p hp => by cases hp⟩
  · exact ⟨rfl, fun _ => Nat.zero_le _, Nat.zero_le _, fun _ => rfl, h, fun p hp => by cases hp⟩

variable {s : GpuSession Font}

/-- Neither the serial nor the renderer of the last frame matters. -/
theorem Sound.shown (h : s.Sound) (serial : UInt32) (last : Backend) :
    Sound { s with serial := serial, last := last } :=
  ⟨h.counted, h.within, h.most, h.dropped, h.bounded, h.told⟩

theorem Sound.going (h : s.Sound) (hp : s.process = some p) : s.givenUp = false := by
  cases hgiven : s.givenUp with
  | false => rfl
  | true =>
      rw [h.dropped hgiven] at hp
      cases hp

/-- A failure leaves all but the process, the count and the log, and the session gives up exactly when the
count passes the bound. -/
theorem fail_fields (s : GpuSession Font) (cause : Cause) :
    (s.fail cause).process = none ∧ (s.fail cause).failures = saturatingSucc s.failures ∧
      (s.fail cause).givenUp = (s.givenUp || decide (saturatingSucc s.failures > s.config.maxRestarts)) ∧
      (s.fail cause).config = s.config ∧ (s.fail cause).spawned = s.spawned ∧
      (s.fail cause).registry = s.registry ∧ (s.fail cause).rejected = s.rejected ∧
      (s.fail cause).local_ = s.local_ ∧ (s.fail cause).serial = s.serial := by
  unfold fail record
  dsimp only
  split
  · rename_i h
    exact ⟨rfl, rfl, by rw [decide_eq_true h, Bool.or_true], rfl, rfl, rfl, rfl, rfl, rfl⟩
  · rename_i h
    exact ⟨rfl, rfl, by rw [decide_eq_false h, Bool.or_false], rfl, rfl, rfl, rfl, rfl, rfl⟩

/-- A process that is lost while the session has not given up is counted once. -/
theorem sound_fail (hcounted : s.spawned.toNat = s.failures.toNat + 1)
    (hgoing : s.givenUp = false) (hwithin : s.failures.toNat ≤ s.config.maxRestarts.toNat)
    (hbounded : s.config.maxRestarts.toNat < 2 ^ 32 - 1) (cause : Cause) : (s.fail cause).Sound := by
  obtain ⟨hprocess, hfailures, hgiven, hconfig, hspawned, -, -, -, -⟩ := fail_fields s cause
  have hsucc : (saturatingSucc s.failures).toNat = s.failures.toNat + 1 := saturatingSucc_toNat (by omega)
  refine ⟨?_, ?_, ?_, fun _ => hprocess, by rw [hconfig]; exact hbounded, fun p hp => ?_⟩
  · rw [hspawned, hfailures, hprocess, hsucc, hcounted]
    rfl
  · rw [hgiven, hfailures, hconfig, hgoing, Bool.false_or]
    intro h
    exact UInt32.le_iff_toNat_le.mp (UInt32.not_lt.mp (of_decide_eq_false h))
  · rw [hfailures, hconfig, hsucc]
    omega
  · rw [hprocess] at hp
    cases hp

/-- A process that was started has been written nothing. -/
theorem start_ok {spawn : Spawn} (h : GpuProcess.start spawn = .ok p) : p.sent = [] ∧ p.queued = [] := by
  unfold GpuProcess.start at h
  split at h
  · cases h
  · split_ifs at h
    split at h
    · cases h
    · cases h
    · split at h
      · cases h
      · cases h
        exact ⟨rfl, rfl⟩
    · cases h

/-- What `ensureProcess` comes to. -/
theorem ensureProcess_cases (s : GpuSession Font) (spawn : Spawn) :
    (s.starts = false ∧ s.ensureProcess spawn = s) ∨
      (s.starts = true ∧ ∃ p events, p.sent = [] ∧ p.queued = [] ∧ s.ensureProcess spawn =
        { s with spawned := saturatingSucc s.spawned, process := some p, events := events }) ∨
      s.starts = true ∧ ∃ cause, s.ensureProcess spawn = fail { s with spawned := saturatingSucc s.spawned } cause := by
  unfold ensureProcess
  by_cases hheld : s.process.isSome = true ∨ s.givenUp = true
  · rw [if_pos hheld]
    refine .inl ⟨?_, rfl⟩
    rcases hheld with h | h
    · rw [starts, ← Option.not_isSome, h]
      rfl
    · rw [starts, h, Bool.not_true, Bool.and_false, Bool.false_and]
  · rw [if_neg hheld]
    rw [not_or, Bool.not_eq_true, Bool.not_eq_true] at hheld
    have hstarts : s.starts = s.config.executable.isSome := by
      rw [starts, ← Option.not_isSome, hheld.1, hheld.2]
      rfl
    cases hexe : s.config.executable with
    | none =>
        rw [hexe] at hstarts
        exact .inl ⟨hstarts, rfl⟩
    | some path =>
        rw [hexe] at hstarts
        dsimp only
        cases hstart : GpuProcess.start spawn with
        | error cause => exact .inr (.inr ⟨hstarts, cause, rfl⟩)
        | ok p =>
            obtain ⟨hsent, hqueued⟩ := start_ok hstart
            exact .inr (.inl ⟨hstarts, p, _, hsent, hqueued, rfl⟩)

theorem not_held_of_starts (h : s.starts = true) : s.process = none ∧ s.givenUp = false := by
  rw [starts, Bool.and_eq_true, Bool.and_eq_true, Option.isNone_iff_eq_none, Bool.not_eq_true'] at h
  exact h.1

/-- What is counted when a process is started. -/
theorem Sound.starting (h : s.Sound) (hstarts : s.starts = true) :
    (saturatingSucc s.spawned).toNat = s.spawned.toNat + 1 ∧ (saturatingSucc s.spawned).toNat = s.failures.toNat + 1 ∧
      s.failures.toNat ≤ s.config.maxRestarts.toNat := by
  obtain ⟨hnone, hgoing⟩ := not_held_of_starts hstarts
  have hcounted := h.counted
  have hwithin := h.within hgoing
  have hbounded := h.bounded
  rw [hnone, Option.isSome_none, if_neg (by decide), Nat.add_zero] at hcounted
  have hsucc : (saturatingSucc s.spawned).toNat = s.spawned.toNat + 1 := saturatingSucc_toNat (by omega)
  exact ⟨hsucc, by rw [hsucc, hcounted], hwithin⟩

/-- Making sure of a process changes neither the fonts nor the serial, and counts a process that it starts. -/
theorem ensureProcess_fields (h : s.Sound) (spawn : Spawn) :
    (s.ensureProcess spawn).Sound ∧ (s.ensureProcess spawn).registry = s.registry ∧
      (s.ensureProcess spawn).rejected = s.rejected ∧ (s.ensureProcess spawn).local_ = s.local_ ∧
      (s.ensureProcess spawn).config = s.config ∧
      (s.ensureProcess spawn).spawned.toNat = s.spawned.toNat + if s.starts then 1 else 0 := by
  rcases ensureProcess_cases s spawn with ⟨hstarts, heq⟩ | ⟨hstarts, p, events, hsent, hqueued, heq⟩ |
    ⟨hstarts, cause, heq⟩
  · rw [heq, hstarts]
    exact ⟨h, rfl, rfl, rfl, rfl, rfl⟩
  · obtain ⟨hsucc, hcounted, hwithin⟩ := h.starting hstarts
    obtain ⟨-, hgoing⟩ := not_held_of_starts hstarts
    rw [heq, hstarts]
    refine ⟨⟨hcounted, fun _ => hwithin, h.most, fun hgiven => ?_, h.bounded, fun p' hp' => ?_⟩,
      rfl, rfl, rfl, rfl, hsucc⟩
    · rw [hgoing] at hgiven
      cases hgiven
    · cases hp'
      refine ⟨by simp [hsent], by simp [hsent], by simp [hsent], ?_⟩
      rw [hsent, hqueued]
      rfl
  · obtain ⟨hsucc, hcounted, hwithin⟩ := h.starting hstarts
    obtain ⟨-, hgoing⟩ := not_held_of_starts hstarts
    obtain ⟨-, -, -, hconfig, hspawned, hregistry, hrejected, hlocal, -⟩ :=
      fail_fields { s with spawned := saturatingSucc s.spawned } cause
    rw [heq, hstarts]
    exact ⟨sound_fail (s := { s with spawned := saturatingSucc s.spawned }) hcounted hgoing hwithin h.bounded cause, hregistry, hrejected, hlocal, hconfig,
      by rw [hspawned]; exact hsucc⟩

/-! ## A frame -/

/-- What a frame may be: one that was received from the process in use, with nothing before it, or the one that the
session draws on its own. -/
structure Frame.Good (software : Software Font) (s : GpuSession Font) (spawn : Spawn) (list : DisplayList)
    (width height : UInt32) (frame : Frame Font) : Prop where
  shown :
    (frame.session.last = .gpu ∧ ∃ canvas p n inbound, frame.result = .ok canvas ∧
        (s.ensureProcess spawn).process = some p ∧ p.inbound = List.replicate n .silence ++ inbound ∧
        Received frame.session.serial width height inbound canvas) ∨
      (frame.session.last = .software ∧ frame.result = software.rasterize list width height s.local_)
  told : ToldPart s.registry s.rejected frame.queued

theorem needed_of_gpuCanTake {list : DisplayList} {width height : UInt32}
    (h : s.gpuCanTake list width height = true) : ∀ id ∈ fontsNeeded list, id ∉ s.rejected := by
  unfold gpuCanTake at h
  split_ifs at h with hgiven hitems hglyphs hfonts
  rw [Bool.not_eq_true', Bool.not_eq_false, List.all_eq_true] at hfonts
  intro id hid
  have hall := hfonts id hid
  rw [Bool.and_eq_true, Bool.not_eq_true'] at hall
  exact fun hmem => Bool.false_ne_true (hall.1.symm.trans (List.contains_iff_mem.mpr hmem))

theorem toldPart_nil (registry : List RegisteredFont) (bad : List UInt32) : ToldPart registry bad [] :=
  ⟨[], List.nodup_nil, by simp, List.nil_prefix⟩

/-- A lost process leaves the fonts and what is counted as they should be. -/
theorem lose_fields (h : s.Sound) (hprocess : s.process = some p) (cause : Cause) (fresh : List UInt32) :
    (s.lose cause fresh).Sound ∧ (s.lose cause fresh).spawned = s.spawned ∧
      (∃ extra, (s.lose cause fresh).rejected = s.rejected ++ extra) ∧ (s.lose cause fresh).local_ = s.local_ ∧
      (s.lose cause fresh).config = s.config := by
  have hcounted := h.counted
  have hgoing := h.going hprocess
  rw [hprocess] at hcounted
  unfold lose
  split
  · obtain ⟨-, -, -, hconfig, hspawned, -, hrejected, hlocal, -⟩ :=
      fail_fields { s with rejected := s.rejected ++ fresh } cause
    exact ⟨sound_fail (s := { s with rejected := s.rejected ++ fresh }) hcounted hgoing (h.within hgoing) h.bounded cause,
      hspawned, ⟨fresh, hrejected⟩, hlocal, hconfig⟩
  · obtain ⟨-, -, -, hconfig, hspawned, -, hrejected, hlocal, -⟩ := fail_fields s cause
    exact ⟨sound_fail hcounted hgoing (h.within hgoing) h.bounded cause, hspawned,
      ⟨[], by rw [hrejected, List.append_nil]⟩, hlocal, hconfig⟩

/-- What a frame comes to with a process, and what is kept over it. -/
theorem renderWith_spec (software : Software Font) (h : s.Sound) (hprocess : s.process = some p)
    {list : DisplayList} (hneeded : ∀ id ∈ fontsNeeded list, id ∉ s.rejected) (width height : UInt32) :
    ((∃ canvas n inbound, (s.renderWith software p list width height).session.last = .gpu ∧
          (s.renderWith software p list width height).result = .ok canvas ∧
          (s.renderWith software p list width height).session.serial = s.serial ∧
          p.inbound = List.replicate n .silence ++ inbound ∧ Received s.serial width height inbound canvas) ∨
        ((s.renderWith software p list width height).session.last = .software ∧
          (s.renderWith software p list width height).result = software.rasterize list width height s.local_)) ∧
      ToldPart s.registry s.rejected (s.renderWith software p list width height).queued ∧
      (s.renderWith software p list width height).session.Sound ∧
      (s.renderWith software p list width height).session.spawned = s.spawned ∧
      (∃ extra, (s.renderWith software p list width height).session.rejected = s.rejected ++ extra) ∧
      (s.renderWith software p list width height).session.config = s.config := by
  unfold renderWith
  have hcases := @exchange_cases s.registry s.rejected ⟨s.serial, list, width, height⟩ hneeded ⟨p, []⟩
  rcases hcases (h.told p hprocess) with
    ⟨canvas, t', n, inbound, hrun, htold, hquiet, hreceived⟩ | ⟨cause, t', hrun, hpart⟩
  · rw [hrun]
    have hcounted := h.counted
    have hgoing := h.going hprocess
    rw [hprocess] at hcounted
    refine ⟨.inl ⟨canvas, n, inbound, rfl, rfl, rfl, hquiet, hreceived⟩, htold.part, ?_, rfl,
      ⟨[], (List.append_nil _).symm⟩, rfl⟩
    refine ⟨hcounted, h.within, h.most, fun hgiven => ?_, h.bounded, fun p' hp' => ?_⟩
    · rw [hgoing] at hgiven
      cases hgiven
    · cases hp'
      exact htold
  · rw [hrun]
    obtain ⟨hsound, hspawned, hrejected, hlocal, hconfig⟩ := lose_fields h hprocess cause t'.fresh
    refine ⟨.inr ⟨rfl, ?_⟩, hpart, hsound.shown _ _, hspawned, hrejected, hconfig⟩
    dsimp only [inSoftware]
    rw [hlocal]

/-- One frame, and what is kept over it. -/
theorem render_spec (software : Software Font) (h : s.Sound) (spawn : Spawn) (list : DisplayList)
    (width height : UInt32) :
    Frame.Good software s spawn list width height (s.render software spawn list width height) ∧
      (s.render software spawn list width height).session.Sound ∧
      (s.render software spawn list width height).session.spawned.toNat =
        s.spawned.toNat + s.attempts (.render spawn list width height) ∧
      (∃ extra, (s.render software spawn list width height).session.rejected = s.rejected ++ extra) ∧
      (s.render software spawn list width height).session.config = s.config := by
  have hattempts : s.attempts (.render spawn list width height) =
      if s.gpuCanTake list width height && s.starts then 1 else 0 := rfl
  unfold render
  by_cases htake : s.gpuCanTake list width height = true
  · rw [htake, Bool.true_and] at hattempts
    rw [if_pos htake, hattempts]
    obtain ⟨hsound, hregistry, hrejected, hlocal, hconfig, hspawned⟩ := ensureProcess_fields h spawn
    have hneeded := needed_of_gpuCanTake htake
    rw [← hrejected] at hneeded
    dsimp only
    split
    · refine ⟨⟨.inr ⟨rfl, ?_⟩, toldPart_nil _ _⟩, hsound.shown _ _, hspawned, ⟨[], ?_⟩, hconfig⟩
      · rw [← hlocal]
        rfl
      · rw [← hrejected]
        exact (List.append_nil _).symm
    · rename_i p hprocess
      have hsound₁ : Sound { s.ensureProcess spawn with serial := (s.ensureProcess spawn).serial + 1 } :=
        hsound.shown _ _
      have hframe := renderWith_spec software hsound₁ hprocess hneeded width height
      revert hframe
      generalize renderWith software _ p list width height = frame
      intro hframe
      obtain ⟨hshown, htold, hsound', hspawned', hrejected', hconfig'⟩ := hframe
      dsimp only at hshown htold hspawned' hrejected' hconfig'
      rw [hregistry, hrejected] at htold
      rw [hlocal] at hshown
      rw [hrejected] at hrejected'
      refine ⟨⟨?_, htold⟩, hsound', by rw [hspawned', hspawned], hrejected', hconfig'.trans hconfig⟩
      rcases hshown with ⟨canvas, n, inbound, hlast, hresult, hserial, hquiet, hreceived⟩ | hshown
      · rw [← hserial] at hreceived
        exact .inl ⟨hlast, canvas, p, n, inbound, hresult, hprocess, hquiet, hreceived⟩
      · exact .inr hshown
  · rw [Bool.not_eq_true _ |>.mp htake, Bool.false_and] at hattempts
    rw [if_neg htake, hattempts]
    exact ⟨⟨.inr ⟨rfl, rfl⟩, toldPart_nil _ _⟩, h.shown _ _, rfl, ⟨[], (List.append_nil _).symm⟩, rfl⟩

/-! ## A run -/

section

variable (software : Software Font)

include software

theorem call_registerFont (s : GpuSession Font) (id : UInt32) (bytes : Bytes) :
    s.call software (.registerFont id bytes) = s ∨
      ∃ total fonts, s.call software (.registerFont id bytes) =
        { s with registryBytes := total, local_ := fonts, registry := s.registry ++ [⟨id, bytes⟩] } := by
  rw [call]
  cases hregister : s.registerFont software id bytes with
  | error e => exact .inl rfl
  | ok s' =>
      unfold registerFont at hregister
      split_ifs at hregister
      cases hregister
      exact .inr ⟨_, _, rfl⟩

theorem call_spec (h : s.Sound) (op : Op) :
    (s.call software op).Sound ∧ (s.call software op).spawned.toNat = s.spawned.toNat + s.attempts op ∧
      (∃ extra, (s.call software op).rejected = s.rejected ++ extra) ∧ (s.call software op).config = s.config := by
  cases op with
  | registerFont id bytes =>
      rcases call_registerFont software s id bytes with heq | ⟨total, fonts, heq⟩ <;> rw [heq]
      · exact ⟨h, rfl, ⟨[], (List.append_nil _).symm⟩, rfl⟩
      · exact ⟨⟨h.counted, h.within, h.most, h.dropped, h.bounded, fun p hp => (h.told p hp).register _⟩, rfl,
          ⟨[], (List.append_nil _).symm⟩, rfl⟩
  | warmUp spawn =>
      obtain ⟨hsound, -, hrejected, -, hconfig, hspawned⟩ := ensureProcess_fields h spawn
      exact ⟨hsound, hspawned, ⟨[], by rw [List.append_nil]; exact hrejected⟩, hconfig⟩
  | render spawn list width height =>
      obtain ⟨-, hspec⟩ := render_spec software h spawn list width height
      exact hspec

/-- A session that has given up stays so, and starts nothing. -/
theorem call_givenUp (h : s.givenUp = true) (op : Op) :
    (s.call software op).givenUp = true ∧ (s.call software op).process = s.process ∧
      (s.call software op).spawned = s.spawned := by
  cases op with
  | registerFont id bytes =>
      rcases call_registerFont software s id bytes with heq | ⟨total, fonts, heq⟩ <;> rw [heq]
      · exact ⟨h, rfl, rfl⟩
      · exact ⟨h, rfl, rfl⟩
  | warmUp spawn =>
      rw [call, ensureProcess, if_pos (.inr h)]
      exact ⟨h, rfl, rfl⟩
  | render spawn list width height =>
      have htake : s.gpuCanTake list width height = false := by rw [gpuCanTake, h, Bool.true_or, if_pos rfl]
      rw [call, render, htake, if_neg Bool.false_ne_true]
      exact ⟨h, rfl, rfl⟩

theorem sound_after (h : config.maxRestarts.toNat < 2 ^ 32 - 1) (ops : List Op) :
    (after software config ops).Sound :=
  run_keeps (P := Sound) (fun _ op hs => (call_spec software hs op).1) (sound_new h) ops

/-- The processes that were started are those that are counted. -/
theorem spawned_runFrom (ops : List Op) (h : s.Sound) :
    (runFrom (call software) s ops).spawned.toNat = s.spawned.toNat + started software s ops := by
  induction ops generalizing s with
  | nil => rfl
  | cons op ops ih =>
      obtain ⟨hsound, hspawned, -, -⟩ := call_spec software h op
      rw [runFrom_cons, ih hsound, hspawned, started, Nat.add_assoc]

theorem config_after (h : config.maxRestarts.toNat < 2 ^ 32 - 1) (ops : List Op) :
    (after software config ops).config = config := by
  have hnew : (new config : GpuSession Font).config = config := by
    unfold new
    dsimp only
    split <;> rfl
  have hkept : (after software config ops).Sound ∧ (after software config ops).config = config :=
    run_keeps (P := fun s : GpuSession Font => s.Sound ∧ s.config = config)
      (fun s op hs => ⟨(call_spec software hs.1 op).1, (call_spec software hs.1 op).2.2.2.trans hs.2⟩)
      ⟨sound_new h, hnew⟩ ops
  exact hkept.2

end

theorem not_sent_of_toldPart {registry : List RegisteredFont} {bad : List UInt32} {queued : List GpuRequest}
    (h : ToldPart registry bad queued) {id : UInt32} (hid : id ∈ bad) : ∀ r ∈ queued, fontOf r ≠ some id := by
  obtain ⟨ids, -, hallowed, hpart⟩ := h
  intro r hr hof
  have hmem : r ∈ fontMessages queued := List.mem_filter.mpr ⟨hr, by rw [hof]; rfl⟩
  obtain ⟨id', hid', hr'⟩ := List.mem_flatMap.mp (hpart.subset hmem)
  have heq := fontOf_of_mem_requestsOf r hr'
  rw [hof, Option.some.injEq] at heq
  exact hallowed id' hid' (heq ▸ hid)

/-- Whatever its processes do: a frame is one that was received whole or the session's own, one failure is counted for
every process that was started and is not held, a session that has given up starts and holds no process any more, a font
that was refused is never sent again, and no process is sent a font twice. -/
theorem adversary_contained (software : Software Font) (config : GpuConfig)
    (h : config.maxRestarts.toNat < 2 ^ 32 - 1) (ops : List Op) :
    (∀ spawn list width height, Frame.Good software (after software config ops) spawn list width height
        ((after software config ops).render software spawn list width height)) ∧
      ((after software config ops).spawned.toNat =
          (after software config ops).failures.toNat + (if (after software config ops).process.isSome then 1 else 0) ∧
        (after software config ops).spawned.toNat = started software (new config : GpuSession Font) ops ∧
        started software (new config : GpuSession Font) ops ≤ config.maxRestarts.toNat + 1) ∧
      ((after software config ops).givenUp = true → ∀ more,
        (after software config (ops ++ more)).givenUp = true ∧ (after software config (ops ++ more)).process = none ∧
          (after software config (ops ++ more)).spawned = (after software config ops).spawned) ∧
      ∀ id ∈ (after software config ops).rejected, ∀ more spawn list width height,
        ∀ r ∈ ((after software config (ops ++ more)).render software spawn list width height).queued,
          fontOf r ≠ some id := by
  have hsound := sound_after software h ops
  have hstarted : (after software config ops).spawned.toNat = started software (new config : GpuSession Font) ops := by
    have hnew : (new config : GpuSession Font).Sound := sound_new h
    have hrun := spawned_runFrom software ops hnew
    have hzero : (new config : GpuSession Font).spawned.toNat = 0 := by
      unfold new
      dsimp only
      split <;> rfl
    rwa [hzero, Nat.zero_add] at hrun
  refine ⟨fun spawn list width height => (render_spec software hsound spawn list width height).1,
    ⟨hsound.counted, hstarted, ?_⟩, fun hgiven more => ?_, fun id hid more spawn list width height => ?_⟩
  · have hcounted := hsound.counted
    have hconfig := config_after software h ops
    have hmost := hsound.most
    rw [hconfig] at hmost
    rw [← hstarted, hcounted]
    split
    · rename_i hheld
      obtain ⟨p, hp⟩ := Option.isSome_iff_exists.mp hheld
      have hwithin := hsound.within (hsound.going hp)
      rw [hconfig] at hwithin
      omega
    · omega
  · have hkept := run_keeps
      (P := fun s : GpuSession Font => s.givenUp = true ∧ s.process = none ∧
        s.spawned = (after software config ops).spawned)
      (fun s op hs => by
        obtain ⟨hg, hp, hs'⟩ := call_givenUp software hs.1 op
        exact ⟨hg, hp.trans hs.2.1, hs'.trans hs.2.2⟩)
      ⟨hgiven, hsound.dropped hgiven, rfl⟩ more
    rwa [after, runFrom_append]
  · have hsound' := sound_after software h (ops ++ more)
    have hkept := run_keeps (P := fun s : GpuSession Font => s.Sound ∧ id ∈ s.rejected)
      (fun s op hs => by
        obtain ⟨hs', -, ⟨extra, hextra⟩, -⟩ := call_spec software hs.1 op
        exact ⟨hs', by rw [hextra]; exact List.mem_append_left _ hs.2⟩)
      ⟨hsound, hid⟩ more
    rw [after, runFrom_append] at hsound' ⊢
    exact not_sent_of_toldPart (render_spec software hsound' spawn list width height).1.told hkept.2

/-- A binary that is missing is tried once more than the bound, and then no more. -/
theorem adversary_contained_missing :
    started ⟨fun _ => none, fun _ _ _ _ => .error (.input .emptyViewport)⟩
      (new ⟨some "px-gpu", 1⟩ : GpuSession Unit)
      (List.replicate 5 (.warmUp ⟨some "not found", true, true, [], [], .error "never started"⟩)) ≤ 2 :=
  (adversary_contained ⟨fun _ => none, fun _ _ _ _ => .error (.input .emptyViewport)⟩ ⟨some "px-gpu", 1⟩ (by decide)
    (List.replicate 5 (.warmUp ⟨some "not found", true, true, [], [], .error "never started"⟩))).2.1.2.2

end GpuSession

end Pelorus.Gpu
