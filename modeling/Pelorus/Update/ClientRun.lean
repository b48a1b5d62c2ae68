import Pelorus.Update.Fetch

/-
  Update/ClientRun.lean --- the client over whole runs: it never goes backwards, and it
  fails closed.

  A RUN is any sequence of checks, each with a transport, a configuration, a clock and
  a trigger of its own, and of installs recorded between them.  Nothing is assumed of
  the transports: the other side may serve anything.
-/
set_option autoImplicit false

namespace Pelorus.Update

open Lib

variable {C : Crypto} {T : Transport}

/-! ## The order of versions -/

/-- A version as one number. -/
def Version.rank (v : Version) : Nat :=
  (v.major.toNat * 2 ^ 32 + v.minor.toNat) * 2 ^ 32 + v.patch.toNat

theorem Version.lt_iff {v w : Version} : v.lt w = true ↔ v.rank < w.rank := by
  have hv := v.minor.toNat_lt
  have hv' := v.patch.toNat_lt
  have hw := w.minor.toNat_lt
  have hw' := w.patch.toNat_lt
  simp only [Version.lt, Version.rank, Bool.or_eq_true, Bool.and_eq_true, decide_eq_true_eq,
    UInt32.lt_iff_toNat_lt, ← UInt32.toNat_inj]
  omega

theorem u64_le_max (a b : UInt64) : a ≤ max a b ∧ b ≤ max a b := by
  rw [show max a b = if a ≤ b then b else a from rfl]
  split
  · rename_i h
    exact ⟨h, UInt64.le_refl _⟩
  · rename_i h
    exact ⟨UInt64.le_refl _, UInt64.le_of_lt (UInt64.not_le.mp h)⟩

/-! ## What a decision rests on -/

/-- The decisions that conclude something from a manifest. -/
def Decision.accepts : Decision → Bool
  | .upToDate => true
  | .updateAvailable _ _ _ => true
  | .dataRefresh _ => true
  | .notDue => false
  | .rejected _ => false

/-- The release of a signed manifest that a mirror served: a threshold of distinct keys of
the trust signed its bytes, under the epoch of the trust, for the channel, with the
clock inside its window, and it is not behind the state. -/
structure Grounds (C : Crypto) (cfg : Config) (now : UInt64) (state : State) (trust : Trust)
    (log : Log) (r : Release) : Prop where
  signed : ∃ mirror ∈ cfg.mirrors, ∃ (bytes sigBytes : Bytes) (sigs : SignatureSet),
    Served mirror MANIFEST_RESOURCE bytes log ∧ Served mirror SIGNATURE_RESOURCE sigBytes log ∧
    SignatureSet.parse sigBytes = .ok sigs ∧ trust.SignedBy C bytes sigs ∧
    Manifest.parse bytes = .ok (.release r)
  epoch : r.keyEpoch = trust.epoch
  channel : r.channel = cfg.channel
  fresh : r.issued.toNat ≤ now.toNat + MAX_FUTURE_SKEW_SECS.toNat ∧ now < r.expires
  sequence : state.maxSequence ≤ r.sequence
  version : ¬ r.version.lt state.installed = true

/-- Data of a release that is strictly newer than what is installed. -/
def NewerData (state : State) (r : Release) (data : List DataEntry) : Prop :=
  ∀ d ∈ data, d ∈ r.data ∧ state.dataVersion d.kind < d.version

/-- A decision offers only what is in the release, for the platform, and newer than what
is installed. -/
def Decision.Offers (cfg : Config) (state : State) (r : Release) : Decision → Prop
  | .updateAvailable release artifact data =>
      release = r ∧ artifact ∈ r.artifacts ∧ artifact.platform = cfg.platform ∧
        state.installed.lt r.version = true ∧ NewerData state r data
  | .dataRefresh data => NewerData state r data
  | .upToDate => True
  | .notDue => False
  | .rejected _ => False

variable {now : UInt64}

theorem checkFresh_ok {issued expires : UInt64} (h : checkFresh issued expires now = .ok ()) :
    issued.toNat ≤ now.toNat + MAX_FUTURE_SKEW_SECS.toNat ∧ now < expires := by
  unfold checkFresh at h
  split at h
  · cases h
  · rename_i hexpires
    split at h
    · cases h
    · rename_i hissued
      exact ⟨by omega, UInt64.not_le.mp hexpires⟩

theorem openRelease_ok {t : Trust} {bytes : Bytes} {sigs : SignatureSet} {r : Release}
    (h : t.openRelease C bytes sigs now = .ok r) :
    t.SignedBy C bytes sigs ∧ Manifest.parse bytes = .ok (.release r) ∧ r.keyEpoch = t.epoch ∧
      r.issued.toNat ≤ now.toNat + MAX_FUTURE_SKEW_SECS.toNat ∧ now < r.expires := by
  unfold Trust.openRelease at h
  cases hopen : t.openManifest C bytes sigs now with
  | error e =>
      rw [hopen] at h
      cases h
  | ok m =>
      rw [hopen] at h
      obtain ⟨hverify, hparse, hfresh⟩ := openManifest_ok.mp hopen
      simp only [bind, Except.bind] at h
      cases m with
      | rotation r' => cases h
      | release r' =>
          simp only at h
          split at h
          · rename_i hepoch
            cases h
            exact ⟨signedBy_of_verify hverify, hparse, hepoch, checkFresh_ok hfresh⟩
          · cases h

theorem grounds_of_accepted {cfg : Config} {state : State} {trust : Trust} {log : Log} {r : Release}
    {mirror : Mirror} (hmirror : mirror ∈ cfg.mirrors)
    (hopened : Opened C mirror now trust log r) (hadmitted : Admitted cfg state r) :
    Grounds C cfg now state trust log r := by
  obtain ⟨bytes, sigBytes, sigs, hserved, hservedSig, hsigs, hopen⟩ := hopened
  obtain ⟨hsigned, hparse, hepoch, hfresh⟩ := openRelease_ok hopen
  exact ⟨⟨mirror, hmirror, bytes, sigBytes, sigs, hserved, hservedSig, hsigs, hsigned, hparse⟩,
    hepoch, hadmitted.channel, hfresh, hadmitted.sequence, hadmitted.version⟩

theorem newerData_filter (state : State) (r : Release) :
    NewerData state r (r.data.filter fun d => state.dataVersion d.kind < d.version) := by
  intro d hd
  obtain ⟨hmem, hlt⟩ := List.mem_filter.mp hd
  exact ⟨hmem, of_decide_eq_true hlt⟩

theorem conclude_offers (cfg : Config) (state : State) (r : Release) :
    (conclude cfg state r).accepts = true ∧ (conclude cfg state r).Offers cfg state r := by
  have hnewer := newerData_filter state r
  -- Without an update, the decision is about the data alone.
  have hrest : ∀ rest : Decision, rest = (if (r.data.filter fun d =>
      decide (state.dataVersion d.kind < d.version)).isEmpty then Decision.upToDate else
        .dataRefresh (r.data.filter fun d => state.dataVersion d.kind < d.version)) →
      rest.accepts = true ∧ rest.Offers cfg state r := by
    rintro rest rfl
    split
    · exact ⟨rfl, trivial⟩
    · exact ⟨rfl, hnewer⟩
  unfold conclude
  split
  · rename_i artifact hfind
    split
    · rename_i hversion
      have hplatform := List.find?_some hfind
      exact ⟨rfl, rfl, List.mem_of_find?_eq_some hfind, of_decide_eq_true hplatform, hversion, hnewer⟩
    · exact hrest _ rfl
  · exact hrest _ rfl

/-! ## One check -/

/-- The release that a check accepts, if any. -/
def accepted (C : Crypto) (T : Transport) (cfg : Config) (trust : Trust) (state : State)
    (now : UInt64) (trigger : Trigger) : Option Release :=
  match gate cfg state now trigger with
  | some _ => none
  | none => (searchFrom C T cfg trust state now).found

/-- What a check leaves. -/
structure CheckSpec (C : Crypto) (cfg : Config) (now : UInt64) (trust : Trust) (state : State)
    (found : Option Release) (out : Outcome × Log) : Prop where
  /-- The trust moves along a chain of verified rotations. -/
  chain : ∃ attempts, out.1.trust = trust.after C attempts
  audited : ∀ x ∈ out.2, audit x.request.bytes = .ok ()
  /-- A check concludes something exactly if it accepted a release. -/
  accepts : out.1.decision.accepts = true ↔ ∃ r, found = some r
  /-- Then the decision rests on that release, whose sequence is recorded. -/
  grounds : ∀ r, found = some r → Grounds C cfg now state out.1.trust out.2 r ∧
    out.1.decision.Offers cfg state r ∧
    out.1.state = { state with
      lastCheck := now
      lastAttempt := now
      maxSequence := max state.maxSequence r.sequence
      mirrorFailures := out.1.state.mirrorFailures }
  /-- Otherwise only the attempt and the failures are recorded. -/
  rejected : found = none → out.1.state = { state with
    lastAttempt := out.1.state.lastAttempt
    mirrorFailures := out.1.state.mirrorFailures }
  notDue : out.1.decision = .notDue → out.1.state = state ∧ out.1.trust = trust

theorem gate_accepts {cfg : Config} {state : State} {trigger : Trigger} {d : Decision}
    (h : gate cfg state now trigger = some d) : d.accepts = false := by
  unfold gate at h
  split at h
  · cases trigger with
    | scheduled =>
        cases h
        rfl
    | manual =>
        cases h
        rfl
  · split at h
    · cases h
      rfl
    · split at h
      · cases h
        rfl
      · cases h

theorem check_spec (cfg : Config) (trust : Trust) (state : State) (now : UInt64) (trigger : Trigger) :
    CheckSpec C cfg now trust state (accepted C T cfg trust state now trigger)
      (check C T cfg trust state now trigger) := by
  unfold check accepted
  cases hgate : gate cfg state now trigger with
  | some d =>
      have hd := gate_accepts hgate
      refine ⟨⟨[], rfl⟩, fun x hx => absurd hx List.not_mem_nil, ?_, fun r hr => (by cases hr),
        fun _ => rfl, fun _ => ⟨rfl, rfl⟩⟩
      simp [hd]
  | none =>
      have hspec := @search_spec C T cfg now (mirrorOrder (state.begin cfg.mirrors.length now)
        cfg.mirrors.length) (state.begin cfg.mirrors.length now) trust none []
      simp only
      have haudited : ∀ x ∈ (searchFrom C T cfg trust state now).log, audit x.request.bytes = .ok () := by
        obtain ⟨added, hlog, haudit⟩ := hspec.log
        intro x hx
        rw [searchFrom, hlog, List.nil_append] at hx
        exact haudit x hx
      cases hfound : (searchFrom C T cfg trust state now).found with
      | none =>
          refine ⟨hspec.chain, haudited, by simp [Decision.accepts], fun r hr => (by cases hr),
            fun _ => ?_, fun h => (by cases h)⟩
          rw [searchFrom, hspec.kept]
          rfl
      | some release =>
          obtain ⟨⟨mirror, hmirror, hopened⟩, hadmitted⟩ := hspec.accepted release hfound
          have hkept : (searchFrom C T cfg trust state now).state = { state with
              lastAttempt := now
              mirrorFailures := (searchFrom C T cfg trust state now).state.mirrorFailures } := hspec.kept
          have hoffers := conclude_offers cfg ({ (searchFrom C T cfg trust state now).state with
            lastCheck := now
            maxSequence := max (searchFrom C T cfg trust state now).state.maxSequence
              release.sequence }) release
          simp only
          refine ⟨hspec.chain, haudited, by simp [hoffers.1], fun r hr => ?_, fun h => (by cases h),
            fun h => ?_⟩
          · cases hr
            refine ⟨grounds_of_accepted hmirror hopened ⟨hadmitted.1, hadmitted.2, hadmitted.3,
              hadmitted.4⟩, ?_, ?_⟩
            · have hsame := hoffers.2
              rw [hkept] at hsame ⊢
              exact hsame
            · rw [hkept]
          · have hacc := hoffers.1
            simp only at h
            rw [h] at hacc
            cases hacc

/-! ## Runs -/

/-- What the client keeps between calls. -/
structure Client where
  state : State
  trust : Trust

/-- A check against some transport, or an install recorded. -/
inductive Event where
  | check (T : Transport) (cfg : Config) (now : UInt64) (trigger : Trigger)
  | dataInstalled (k : DataKind) (version : UInt32)
  | releaseInstalled (v : Version)

namespace Client

/-- The state and the trust after an event. -/
def step (C : Crypto) (c : Client) : Event → Client
  | .check T cfg now trigger =>
      let outcome := (Update.check C T cfg c.trust c.state now trigger).1
      { state := outcome.state, trust := outcome.trust }
  | .dataInstalled k version => { c with state := c.state.recordDataInstalled k version }
  | .releaseInstalled v => { c with state := c.state.recordReleaseInstalled v }

/-- Events in turn, each fed what the one before left. -/
def run (C : Crypto) (c : Client) (events : List Event) : Client := events.foldl (step C) c

theorem run_append (c : Client) (as bs : List Event) : c.run C (as ++ bs) = (c.run C as).run C bs :=
  List.foldl_append

/-- Nothing went backwards. -/
structure NotBehind (c c' : Client) : Prop where
  epoch : c.trust.epoch ≤ c'.trust.epoch
  sequence : c.state.maxSequence ≤ c'.state.maxSequence
  installed : ¬ c'.state.installed.lt c.state.installed = true
  data : ∀ k, c.state.dataVersion k ≤ c'.state.dataVersion k

theorem NotBehind.refl (c : Client) : NotBehind c c :=
  ⟨UInt32.le_refl _, UInt64.le_refl _, by rw [Version.lt_iff]; exact Nat.lt_irrefl _,
    fun _ => UInt32.le_refl _⟩

theorem NotBehind.trans {a b c : Client} (h : NotBehind a b) (h' : NotBehind b c) : NotBehind a c := by
  refine ⟨UInt32.le_trans h.epoch h'.epoch, UInt64.le_trans h.sequence h'.sequence, ?_,
    fun k => UInt32.le_trans (h.data k) (h'.data k)⟩
  have hab := h.installed
  have hbc := h'.installed
  rw [Version.lt_iff] at hab hbc ⊢
  omega

theorem dataVersion_recordDataInstalled (s : State) (k k' : DataKind) (version : UInt32) :
    s.dataVersion k' ≤ (s.recordDataInstalled k version).dataVersion k' := by
  unfold State.recordDataInstalled
  split
  · rename_i hlt
    by_cases hk : k.index = k'.index
    · have hsame : k = k' := by
        revert hk
        cases k <;> cases k' <;> decide
      subst hsame
      have hnew : ({ s with dataVersions := s.dataVersions.set k.index version } : State).dataVersion k =
          version := by
        simp [State.dataVersion]
      rw [hnew]
      exact UInt32.le_of_lt hlt
    · have hother : ({ s with dataVersions := s.dataVersions.set k.index version } : State).dataVersion
          k' = s.dataVersion k' := by
        have hne : k.index.val ≠ k'.index.val := fun h => hk (Fin.ext h)
        simp [State.dataVersion, hne]
      rw [hother]
      exact UInt32.le_refl _
  · exact UInt32.le_refl _

/-- One event never goes backwards. -/
theorem step_notBehind (c : Client) (e : Event) : NotBehind c (c.step C e) := by
  cases e with
  | check T cfg now trigger =>
      have hspec := @check_spec C T cfg c.trust c.state now trigger
      have hepoch : c.trust.epoch ≤ (c.step C (.check T cfg now trigger)).trust.epoch := by
        obtain ⟨attempts, hchain⟩ := hspec.chain
        show c.trust.epoch ≤ (Update.check C T cfg c.trust c.state now trigger).1.trust.epoch
        rw [hchain]
        exact UInt32.le_iff_toNat_le.mpr (Trust.epoch_le_after c.trust attempts)
      have hself := NotBehind.refl c
      cases hfound : accepted C T cfg c.trust c.state now trigger with
      | none =>
          have hstate := hspec.rejected hfound
          refine ⟨hepoch, ?_, ?_, ?_⟩
          · rw [step, hstate]
            exact hself.sequence
          · rw [step, hstate]
            exact hself.installed
          · rw [step, hstate]
            exact hself.data
      | some r =>
          obtain ⟨-, -, hstate⟩ := hspec.grounds r hfound
          refine ⟨hepoch, ?_, ?_, ?_⟩
          · rw [step, hstate]
            exact (u64_le_max _ _).1
          · rw [step, hstate]
            exact hself.installed
          · rw [step, hstate]
            exact hself.data
  | dataInstalled k version =>
      have hself := NotBehind.refl c
      have hrest : (c.state.recordDataInstalled k version).maxSequence = c.state.maxSequence ∧
          (c.state.recordDataInstalled k version).installed = c.state.installed := by
        unfold State.recordDataInstalled
        split <;> exact ⟨rfl, rfl⟩
      refine ⟨hself.epoch, ?_, ?_, fun k' => dataVersion_recordDataInstalled c.state k k' version⟩
      · rw [step, hrest.1]
        exact hself.sequence
      · rw [step, hrest.2]
        exact hself.installed
  | releaseInstalled v =>
      have hself := NotBehind.refl c
      show NotBehind c { c with state := c.state.recordReleaseInstalled v }
      unfold State.recordReleaseInstalled
      split
      · rename_i hlt
        refine ⟨hself.epoch, hself.sequence, ?_, hself.data⟩
        rw [Version.lt_iff] at hlt ⊢
        exact Nat.not_lt.mpr (Nat.le_of_lt hlt)
      · exact hself

theorem run_notBehind (c : Client) (events : List Event) : NotBehind c (c.run C events) := by
  induction events generalizing c with
  | nil => exact NotBehind.refl c
  | cons e events ih => exact (step_notBehind c e).trans (ih (c.step C e))

theorem accepted_le_step {c : Client} {cfg : Config} {now : UInt64} {trigger : Trigger} {r : Release}
    (h : accepted C T cfg c.trust c.state now trigger = some r) :
    r.sequence ≤ (c.step C (.check T cfg now trigger)).state.maxSequence := by
  obtain ⟨-, -, hstate⟩ := (@check_spec C T cfg c.trust c.state now trigger).grounds r h
  rw [step, hstate]
  exact (u64_le_max _ _).2

end Client

/-- NEVER BACKWARDS, AND CLOSED ON FAILURE.  After any events, and whatever is served: no
later event lowers the epoch, the highest sequence, the installed version or a data
version; a check that concludes something accepted a release of a signed manifest, whose
sequence is at least that of every release accepted before and whose version is at
least the installed one, and offers only newer things from it; a check that does not
leaves the state as it was but for the attempt and the failure counts, and one that was
not due leaves everything as it was. -/
theorem update_never_backwards (C : Crypto) (start : Client) (before : List Event) :
    (∀ later, Client.NotBehind (start.run C before) ((start.run C before).run C later)) ∧
    ∀ (T : Transport) (cfg : Config) (now : UInt64) (trigger : Trigger) (out : Outcome × Log),
      check C T cfg (start.run C before).trust (start.run C before).state now trigger = out →
      (∃ attempts, out.1.trust = (start.run C before).trust.after C attempts) ∧
      (out.1.decision.accepts = true → ∃ r,
        accepted C T cfg (start.run C before).trust (start.run C before).state now trigger = some r ∧
        Grounds C cfg now (start.run C before).state out.1.trust out.2 r ∧
        out.1.decision.Offers cfg (start.run C before).state r ∧
        ∀ (pre post : List Event) (T' : Transport) (cfg' : Config) (now' : UInt64)
          (trigger' : Trigger) (r' : Release),
          before = pre ++ .check T' cfg' now' trigger' :: post →
          accepted C T' cfg' (start.run C pre).trust (start.run C pre).state now' trigger' = some r' →
          r'.sequence ≤ r.sequence) ∧
      (out.1.decision.accepts = false → out.1.state = { (start.run C before).state with
        lastAttempt := out.1.state.lastAttempt
        mirrorFailures := out.1.state.mirrorFailures }) ∧
      (out.1.decision = .notDue →
        out.1.state = (start.run C before).state ∧ out.1.trust = (start.run C before).trust) := by
  refine ⟨fun later => Client.run_notBehind _ later, ?_⟩
  rintro T cfg now trigger out rfl
  have hspec := @check_spec C T cfg (start.run C before).trust (start.run C before).state now trigger
  refine ⟨hspec.chain, fun hacc => ?_, fun hacc => ?_, hspec.notDue⟩
  · obtain ⟨r, hfound⟩ := hspec.accepts.mp hacc
    obtain ⟨hgrounds, hoffers, -⟩ := hspec.grounds r hfound
    refine ⟨r, hfound, hgrounds, hoffers, ?_⟩
    rintro pre post T' cfg' now' trigger' r' rfl hfound'
    have hrecorded := Client.accepted_le_step (C := C) hfound'
    have hlater := Client.run_notBehind (C := C)
      ((start.run C pre).step C (.check T' cfg' now' trigger')) post
    have hseq := hgrounds.sequence
    rw [Client.run_append] at hseq
    exact UInt64.le_trans hrecorded (UInt64.le_trans hlater.sequence hseq)
  · refine hspec.rejected ?_
    cases hfound : accepted C T cfg (start.run C before).trust (start.run C before).state now trigger with
    | none => rfl
    | some r =>
        have htrue := hspec.accepts.mpr ⟨r, hfound⟩
        rw [hacc] at htrue
        cases htrue

end Pelorus.Update

/-! # Update checks carry no identifier

TWO RUNS.  Two clients with the same mirrors, failure counts and trust, at the same
time and with the same answers, go through the same exchanges until one of them
stops: everything else they hold (what is installed, the channel, the platform, the
times) is looked at only after the signatures, and can only end the search. -/

namespace Pelorus.Update

open Lib

variable {C : Crypto} {T : Transport}

/-! ## One mirror -/

/-- The configuration and the state decide only whether the release is taken. -/
theorem tryMirror_rest (mirror : Mirror) (cfg cfg' : Config) (trust : Trust) (state state' : State)
    (now : UInt64) (log : Log) :
    (tryMirror C T mirror cfg trust state now log).2 =
      (tryMirror C T mirror cfg' trust state' now log).2 := by
  unfold tryMirror
  cases fetchSigned T mirror MANIFEST_RESOURCE SIGNATURE_RESOURCE log with
  | mk result log₁ =>
      cases result with
      | error e => rfl
      | ok p =>
          simp only
          cases openLoop C T mirror p.1 p.2 now MAX_ROTATIONS_PER_CHECK none trust log₁ with
          | mk result rest =>
              cases result with
              | error e => rfl
              | ok release => rfl

/-! ## The search -/

/-- The order depends on the failure counts alone. -/
theorem mirrorOrder_congr {state state' : State} (h : state.failures = state'.failures) (n : Nat) :
    mirrorOrder state n = mirrorOrder state' n := by
  have hbefore : mirrorBefore state = mirrorBefore state' := by
    funext i j
    rw [mirrorBefore, mirrorBefore, h]
  unfold mirrorOrder
  congr!

theorem failures_begin (state : State) (n : Nat) (now : UInt64) (i : Nat) :
    (state.begin n now).failures i = if i < n then state.failures i else 0 := by
  simp only [State.failures, State.begin, List.getElem?_take]
  split
  · rename_i hi
    by_cases hlen : i < state.mirrorFailures.length
    · rw [List.getElem?_append_left hlen]
    · rw [List.getElem?_append_right (Nat.not_lt.mp hlen), List.getElem?_replicate,
        List.getElem?_eq_none (Nat.not_lt.mp hlen)]
      split <;> rfl
  · rfl

/-- Two searches of the same mirrors, from the same trust and the same log: one log is the
beginning of the other, whatever else the clients hold. -/
theorem search_log (cfg cfg' : Config) (hmirrors : cfg.mirrors = cfg'.mirrors) (now : UInt64) :
    ∀ (order : List Nat) (state state' : State) (trust : Trust) (worst worst' : Option Reason)
      (log : Log),
      List.IsPrefix (search C T cfg now order state trust worst log).log
        (search C T cfg' now order state' trust worst' log).log ∨
      List.IsPrefix (search C T cfg' now order state' trust worst' log).log
        (search C T cfg now order state trust worst log).log
  | [], _, _, _, _, _, log => Or.inl (List.prefix_refl log)
  | i :: order, state, state', trust, worst, worst', log => by
      unfold search
      rw [← hmirrors]
      cases cfg.mirrors[i]? with
      | none => exact search_log cfg cfg' hmirrors now order state state' trust worst worst' log
      | some mirror =>
          have hrest := @tryMirror_rest C T mirror cfg cfg' trust state state' now log
          simp only
          generalize tryMirror C T mirror cfg trust state now log = out at hrest ⊢
          generalize tryMirror C T mirror cfg' trust state' now log = out' at hrest ⊢
          obtain ⟨result, trust₁, log₁⟩ := out
          obtain ⟨result', trust₂, log₂⟩ := out'
          cases hrest
          -- A search that ends here has a log that the other one extends.
          cases result with
          | ok release =>
              cases result' with
              | ok release' => exact Or.inl (List.prefix_refl _)
              | error reason' => exact Or.inl (search_spec cfg' now order _ _ _ _).log.isPrefix
          | error reason =>
              cases result' with
              | ok release' => exact Or.inr (search_spec cfg now order _ _ _ _).log.isPrefix
              | error reason' =>
                  exact search_log cfg cfg' hmirrors now order (state.charge i) (state'.charge i) _
                    (mergeReason worst reason) (mergeReason worst' reason') _

/-! ## The check -/

/-- What leaves the client: where each request went, and its bytes. -/
def sent (log : Log) : List (Mirror × Bytes) := log.map fun x => (x.mirror, x.request.bytes)

/-- A check sends nothing, or what its search sends. -/
theorem check_log (cfg : Config) (trust : Trust) (state : State) (now : UInt64) (trigger : Trigger) :
    (check C T cfg trust state now trigger).2 = [] ∨
    (check C T cfg trust state now trigger).2 = (searchFrom C T cfg trust state now).log := by
  unfold check
  cases gate cfg state now trigger with
  | some d => exact Or.inl rfl
  | none =>
      simp only
      cases (searchFrom C T cfg trust state now).found with
      | none => exact Or.inr rfl
      | some release => exact Or.inr rfl

theorem searchFrom_log {cfg cfg' : Config} (hmirrors : cfg.mirrors = cfg'.mirrors) (trust : Trust)
    {state state' : State}
    (hfailures : ∀ i < cfg.mirrors.length, state.failures i = state'.failures i) (now : UInt64) :
    List.IsPrefix (searchFrom C T cfg trust state now).log (searchFrom C T cfg' trust state' now).log ∨
    List.IsPrefix (searchFrom C T cfg' trust state' now).log (searchFrom C T cfg trust state now).log := by
  have hbegin : (state.begin cfg.mirrors.length now).failures =
      (state'.begin cfg.mirrors.length now).failures := by
    funext i
    rw [failures_begin, failures_begin]
    split
    · rename_i hi
      exact hfailures i hi
    · rfl
  unfold searchFrom
  simp only
  rw [← hmirrors, mirrorOrder_congr hbegin]
  exact search_log cfg cfg' hmirrors now _ _ _ trust none none []

/-- NO IDENTIFIER.  Two clients with the same mirrors, the same failure counts of these
mirrors and the same trust, at the same time and given the same answers, send the same
requests to the same mirrors, until one of them stops; and every request passes the
audit. -/
theorem checks_carry_no_identifier (C : Crypto) (T : Transport) (cfg cfg' : Config) (trust : Trust)
    (state state' : State) (now : UInt64) (trigger trigger' : Trigger)
    (hmirrors : cfg.mirrors = cfg'.mirrors)
    (hfailures : ∀ i < cfg.mirrors.length, state.failures i = state'.failures i) :
    (List.IsPrefix (sent (check C T cfg trust state now trigger).2)
        (sent (check C T cfg' trust state' now trigger').2) ∨
      List.IsPrefix (sent (check C T cfg' trust state' now trigger').2)
        (sent (check C T cfg trust state now trigger).2)) ∧
    ∀ request ∈ sent (check C T cfg trust state now trigger).2, audit request.2 = .ok () := by
  constructor
  · rcases @check_log C T cfg trust state now trigger with h | h
    · rw [h]
      exact Or.inl (List.nil_prefix)
    · rcases @check_log C T cfg' trust state' now trigger' with h' | h'
      · rw [h']
        exact Or.inr (List.nil_prefix)
      · rw [h, h']
        exact (searchFrom_log hmirrors trust hfailures now).imp (fun hp => hp.map _) fun hp => hp.map _
  · intro request hrequest
    obtain ⟨x, hx, rfl⟩ := List.mem_map.mp hrequest
    exact (check_spec cfg trust state now trigger).audited x hx

namespace Sample

/-- A mirror. -/
def mirror : Mirror := { host := "mirror.example.net".toList, port := 443, base := "/v1".toList }

def config (channel platform : String) : Config where
  channel := channel.toList
  platform := platform.toList
  mirrors := [mirror]
  cadenceSecs := 604800
  maxDataAgeSecs := 2592000
  minRetrySecs := 3600

end Sample

/-- Clients of two channels, platforms and versions, when the network is down. -/
theorem checks_carry_no_identifier_offline :
    (List.IsPrefix
        (sent (check Sample.crypto (fun _ _ _ _ => .error .connect) (Sample.config "stable" "linux-x64")
          Sample.root (State.new ⟨1, 0, 0⟩ #v[20260101, 20260101, 20260101]) 1790100000 .manual).2)
        (sent (check Sample.crypto (fun _ _ _ _ => .error .connect) (Sample.config "beta" "macos-arm64")
          Sample.root (State.new ⟨2, 3, 4⟩ #v[0, 0, 0]) 1790100000 .scheduled).2) ∨
      List.IsPrefix
        (sent (check Sample.crypto (fun _ _ _ _ => .error .connect) (Sample.config "beta" "macos-arm64")
          Sample.root (State.new ⟨2, 3, 4⟩ #v[0, 0, 0]) 1790100000 .scheduled).2)
        (sent (check Sample.crypto (fun _ _ _ _ => .error .connect) (Sample.config "stable" "linux-x64")
          Sample.root (State.new ⟨1, 0, 0⟩ #v[20260101, 20260101, 20260101]) 1790100000 .manual).2)) ∧
    ∀ request ∈ sent (check Sample.crypto (fun _ _ _ _ => .error .connect)
        (Sample.config "stable" "linux-x64") Sample.root
        (State.new ⟨1, 0, 0⟩ #v[20260101, 20260101, 20260101]) 1790100000 .manual).2,
      audit request.2 = .ok () :=
  checks_carry_no_identifier Sample.crypto (fun _ _ _ _ => .error .connect)
    (Sample.config "stable" "linux-x64") (Sample.config "beta" "macos-arm64") Sample.root
    (State.new ⟨1, 0, 0⟩ #v[20260101, 20260101, 20260101]) (State.new ⟨2, 3, 4⟩ #v[0, 0, 0]) 1790100000
    .manual .scheduled rfl fun _ _ => rfl

end Pelorus.Update
