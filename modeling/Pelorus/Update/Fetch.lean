import Pelorus.Update.Client
import Pelorus.Update.Rotation

/-
  Update/Fetch.lean --- what each step of a check can do.

  THE LOG only grows, and by audited requests (`Extends`).

  THE TRUST moves along a chain of rotations (`Trust.after`), whatever the mirrors serve.

  A RELEASE is returned only when a mirror served it with the signatures, and the trust
  held at that moment opens it (`Opened`).
-/
set_option autoImplicit false

namespace Pelorus.Update

open Lib

variable {C : Crypto} {T : Transport}

/-! ## The log -/

/-- Audited exchanges were added. -/
def Extends (log log' : Log) : Prop :=
  ∃ added, log' = log ++ added ∧ ∀ x ∈ added, audit x.request.bytes = .ok ()

theorem Extends.refl (log : Log) : Extends log log :=
  ⟨[], by rw [List.append_nil], fun x hx => absurd hx List.not_mem_nil⟩

variable {log log' : Log} {mirror : Mirror} {resource : Text}

theorem Extends.trans {log'' : Log} (h : Extends log log') (h' : Extends log' log'') :
    Extends log log'' := by
  obtain ⟨a, rfl, ha⟩ := h
  obtain ⟨b, rfl, hb⟩ := h'
  refine ⟨a ++ b, List.append_assoc _ _ _, fun x hx => ?_⟩
  rcases List.mem_append.mp hx with hx | hx
  · exact ha x hx
  · exact hb x hx

theorem Extends.isPrefix (h : Extends log log') : List.IsPrefix log log' := by
  obtain ⟨added, rfl, -⟩ := h
  exact List.prefix_append _ _

/-- A mirror answered the request for a resource with this body. -/
def Served (mirror : Mirror) (resource : Text) (body : Bytes) (log : Log) : Prop :=
  ∃ x ∈ log, x.mirror = mirror ∧ buildGet mirror resource = .ok x.request ∧ x.response = .ok body

theorem Served.extends {body : Bytes} (h : Served mirror resource body log) (hext : Extends log log') :
    Served mirror resource body log' := by
  obtain ⟨x, hx, hserved⟩ := h
  exact ⟨x, hext.isPrefix.subset hx, hserved⟩

/-! ## Fetching -/

/-- A request is refused before it is sent, or one audited exchange is added. -/
theorem fetchChecked_cases (mirror : Mirror) (resource : Text) (maxBody : UInt64) (log : Log) :
    (∃ e, fetchChecked T mirror resource maxBody log = (.error e, log)) ∨
    ∃ x : Exchange, x.mirror = mirror ∧ buildGet mirror resource = .ok x.request ∧
      audit x.request.bytes = .ok () ∧
      (fetchChecked T mirror resource maxBody log).2 = log ++ [x] ∧
      ∀ body, (fetchChecked T mirror resource maxBody log).1 = .ok body → x.response = .ok body := by
  unfold fetchChecked
  cases hbuild : buildGet mirror resource with
  | error e => exact Or.inl ⟨_, rfl⟩
  | ok request =>
      cases haudit : audit request.bytes with
      | error e =>
          simp only [haudit]
          exact Or.inl ⟨_, rfl⟩
      | ok u =>
          simp only [haudit]
          refine Or.inr ⟨⟨mirror, request, maxBody, T log mirror request maxBody⟩, rfl, rfl, haudit, ?_⟩
          cases hresponse : T log mirror request maxBody with
          | error e => exact ⟨rfl, fun body h => (by cases h)⟩
          | ok body =>
              simp only
              split
              · exact ⟨rfl, fun body h => (by cases h)⟩
              · refine ⟨rfl, fun body' h => ?_⟩
                cases h
                rfl

theorem fetchChecked_extends (mirror : Mirror) (resource : Text) (maxBody : UInt64) (log : Log) :
    Extends log (fetchChecked T mirror resource maxBody log).2 := by
  rcases @fetchChecked_cases T mirror resource maxBody log with ⟨e, h⟩ | ⟨x, -, -, haudit, hlog, -⟩
  · rw [h]
    exact Extends.refl log
  · exact ⟨[x], hlog, fun y hy => by rw [List.mem_singleton.mp hy]; exact haudit⟩

theorem fetchChecked_served {maxBody : UInt64} {body : Bytes}
    (h : fetchChecked T mirror resource maxBody log = (.ok body, log')) :
    Served mirror resource body log' := by
  rcases @fetchChecked_cases T mirror resource maxBody log with ⟨e, h'⟩ | ⟨x, hm, hb, -, hlog, hbody⟩
  · rw [h'] at h
    cases h
  · rw [h] at hlog hbody
    rw [show log' = log ++ [x] from hlog]
    exact ⟨x, by simp, hm, hb, hbody body rfl⟩

theorem fetchSigned_extends (mirror : Mirror) (resource sigResource : Text) (log : Log) :
    Extends log (fetchSigned T mirror resource sigResource log).2 := by
  unfold fetchSigned
  have hfirst := @fetchChecked_extends T mirror resource (UInt64.ofNat MAX_MANIFEST_BYTES) log
  generalize fetchChecked T mirror resource (UInt64.ofNat MAX_MANIFEST_BYTES) log = first at hfirst ⊢
  obtain ⟨result, log₁⟩ := first
  cases result with
  | error e => exact hfirst
  | ok manifest =>
      simp only
      have hsecond := @fetchChecked_extends T mirror sigResource MAX_SIG_BYTES log₁
      generalize fetchChecked T mirror sigResource MAX_SIG_BYTES log₁ = second at hsecond ⊢
      obtain ⟨result, log₂⟩ := second
      cases result with
      | error e => exact hfirst.trans hsecond
      | ok sigBytes =>
          simp only
          cases SignatureSet.parse sigBytes with
          | error e => exact hfirst.trans hsecond
          | ok sigs => exact hfirst.trans hsecond

theorem fetchSigned_served {sigResource : Text} {bytes : Bytes} {sigs : SignatureSet}
    (h : fetchSigned T mirror resource sigResource log = (.ok (bytes, sigs), log')) :
    Served mirror resource bytes log' ∧
      ∃ sigBytes, Served mirror sigResource sigBytes log' ∧ SignatureSet.parse sigBytes = .ok sigs := by
  unfold fetchSigned at h
  cases hfirst : fetchChecked T mirror resource (UInt64.ofNat MAX_MANIFEST_BYTES) log with
  | mk result log₁ =>
      rw [hfirst] at h
      cases result with
      | error e => cases h
      | ok manifest =>
          simp only at h
          cases hsecond : fetchChecked T mirror sigResource MAX_SIG_BYTES log₁ with
          | mk result log₂ =>
              rw [hsecond] at h
              have hext := @fetchChecked_extends T mirror sigResource MAX_SIG_BYTES log₁
              rw [hsecond] at hext
              cases result with
              | error e => cases h
              | ok sigBytes =>
                  simp only at h
                  cases hparse : SignatureSet.parse sigBytes with
                  | error e =>
                      rw [hparse] at h
                      cases h
                  | ok parsed =>
                      rw [hparse] at h
                      cases h
                      exact ⟨(fetchChecked_served hfirst).extends hext, sigBytes,
                        fetchChecked_served hsecond, hparse⟩

/-! ## Opening -/

/-- What the loop of one mirror leaves: a trust further along the chain, a longer log,
and a release only if that trust opens it. -/
structure LoopSpec (C : Crypto) (bytes : Bytes) (sigs : SignatureSet) (now : UInt64) (trust : Trust)
    (log : Log) (out : Except Reason Release × Trust × Log) : Prop where
  chain : ∃ attempts, out.2.1 = trust.after C attempts
  log : Extends log out.2.2
  opened : ∀ r, out.1 = .ok r → out.2.1.openRelease C bytes sigs now = .ok r

theorem LoopSpec.stop {bytes : Bytes} {sigs : SignatureSet} {now : UInt64} {trust : Trust}
    (e : Reason) (h : Extends log log') :
    LoopSpec C bytes sigs now trust log (.error e, trust, log') :=
  ⟨⟨[], rfl⟩, h, fun r hr => by cases hr⟩

theorem openLoop_spec (mirror : Mirror) (bytes : Bytes) (sigs : SignatureSet) (now : UInt64) :
    ∀ (left : Nat) (firstErr : Option TrustError) (trust : Trust) (log : Log),
      LoopSpec C bytes sigs now trust log
        (openLoop C T mirror bytes sigs now left firstErr trust log) := by
  intro left
  induction left with
  | zero =>
      intro firstErr trust log
      unfold openLoop
      cases hopen : trust.openRelease C bytes sigs now with
      | ok r =>
          refine ⟨⟨[], rfl⟩, Extends.refl log, fun r' hr => ?_⟩
          cases hr
          exact hopen
      | error e =>
          simp only
          split
          · exact LoopSpec.stop _ (Extends.refl log)
          · exact LoopSpec.stop _ (Extends.refl log)
  | succ left ih =>
      intro firstErr trust log
      unfold openLoop
      cases hopen : trust.openRelease C bytes sigs now with
      | ok r =>
          refine ⟨⟨[], rfl⟩, Extends.refl log, fun r' hr => ?_⟩
          cases hr
          exact hopen
      | error e =>
          simp only
          split
          · have hext := @fetchSigned_extends T mirror
              (rotationResource (min (trust.epoch.toNat + 1) (2 ^ 32 - 1)) ".txt")
              (rotationResource (min (trust.epoch.toNat + 1) (2 ^ 32 - 1)) ".sig") log
            generalize fetchSigned T mirror _ _ log = fetched at hext ⊢
            obtain ⟨result, log'⟩ := fetched
            cases result with
            | error e' => exact LoopSpec.stop _ hext
            | ok p =>
                obtain ⟨rbytes, rsigs⟩ := p
                simp only
                cases hrotate : trust.applyRotation C rbytes rsigs now with
                | error e' => exact LoopSpec.stop _ hext
                | ok trust' =>
                    simp only
                    obtain ⟨⟨attempts, hchain⟩, hlog, hopened⟩ := ih (some (firstErr.getD e)) trust' log'
                    refine ⟨⟨⟨rbytes, rsigs, now⟩ :: attempts, ?_⟩, hext.trans hlog, hopened⟩
                    rw [hchain]
                    show trust'.after C attempts = (trust.attempt C ⟨rbytes, rsigs, now⟩).after C attempts
                    rw [Trust.attempt, hrotate]
          · exact LoopSpec.stop _ (Extends.refl log)

/-! ## One mirror -/

/-- A mirror served a release, with signatures, that this trust opens. -/
def Opened (C : Crypto) (mirror : Mirror) (now : UInt64) (trust : Trust) (log : Log) (r : Release) :
    Prop :=
  ∃ (bytes sigBytes : Bytes) (sigs : SignatureSet), Served mirror MANIFEST_RESOURCE bytes log ∧
    Served mirror SIGNATURE_RESOURCE sigBytes log ∧ SignatureSet.parse sigBytes = .ok sigs ∧
    trust.openRelease C bytes sigs now = .ok r

/-- The checks against the state: nothing goes backwards. -/
structure Admitted (cfg : Config) (state : State) (r : Release) : Prop where
  channel : r.channel = cfg.channel
  sequence : state.maxSequence ≤ r.sequence
  version : ¬ r.version.lt state.installed = true
  data : ∀ d ∈ r.data, state.dataVersion d.kind ≤ d.version

theorem admitRelease_ok {cfg : Config} {state : State} {r r' : Release} (h : admitRelease cfg state r = .ok r') :
    r' = r ∧ Admitted cfg state r := by
  unfold admitRelease at h
  split at h
  · cases h
  · rename_i hchannel
    split at h
    · cases h
    · rename_i hsequence
      split at h
      · cases h
      · rename_i hversion
        split at h
        · cases h
        · rename_i hdata
          cases h
          refine ⟨rfl, not_not.mp hchannel, UInt64.not_lt.mp hsequence, hversion, fun d hd => ?_⟩
          exact UInt32.not_lt.mp fun hlt => by simpa [hlt] using List.find?_eq_none.mp hdata d hd

/-- What one mirror leaves. -/
structure MirrorSpec (C : Crypto) (mirror : Mirror) (cfg : Config) (now : UInt64) (trust : Trust)
    (state : State) (log : Log) (out : Except Reason Release × Trust × Log) : Prop where
  chain : ∃ attempts, out.2.1 = trust.after C attempts
  log : Extends log out.2.2
  accepted : ∀ r, out.1 = .ok r → Opened C mirror now out.2.1 out.2.2 r ∧ Admitted cfg state r

theorem tryMirror_spec (mirror : Mirror) (cfg : Config) (trust : Trust) (state : State)
    (now : UInt64) (log : Log) :
    MirrorSpec C mirror cfg now trust state log (tryMirror C T mirror cfg trust state now log) := by
  unfold tryMirror
  have hext := @fetchSigned_extends T mirror MANIFEST_RESOURCE SIGNATURE_RESOURCE log
  cases hfetch : fetchSigned T mirror MANIFEST_RESOURCE SIGNATURE_RESOURCE log with
  | mk result log₁ =>
      rw [hfetch] at hext
      cases result with
      | error e => exact ⟨⟨[], rfl⟩, hext, fun r hr => by cases hr⟩
      | ok p =>
          obtain ⟨bytes, sigs⟩ := p
          obtain ⟨hserved, sigBytes, hservedSig, hparse⟩ := fetchSigned_served hfetch
          have hloop := @openLoop_spec C T mirror bytes sigs now MAX_ROTATIONS_PER_CHECK none trust log₁
          simp only
          generalize openLoop C T mirror bytes sigs now MAX_ROTATIONS_PER_CHECK none trust log₁ = out
            at hloop ⊢
          obtain ⟨result, trust', log₂⟩ := out
          cases result with
          | error e => exact ⟨hloop.chain, hext.trans hloop.log, fun r hr => by cases hr⟩
          | ok release =>
              refine ⟨hloop.chain, hext.trans hloop.log, fun r hr => ?_⟩
              obtain ⟨rfl, hadmitted⟩ := admitRelease_ok hr
              exact ⟨⟨bytes, sigBytes, sigs, hserved.extends hloop.log, hservedSig.extends hloop.log,
                hparse, hloop.opened r rfl⟩, hadmitted⟩

/-! ## The search -/

/-- What a search leaves. -/
structure SearchSpec (C : Crypto) (cfg : Config) (now : UInt64) (trust : Trust) (state : State)
    (log : Log) (out : Search) : Prop where
  chain : ∃ attempts, out.trust = trust.after C attempts
  log : Extends log out.log
  kept : out.state = { state with mirrorFailures := out.state.mirrorFailures }
  accepted : ∀ r, out.found = some r →
    (∃ mirror ∈ cfg.mirrors, Opened C mirror now out.trust out.log r) ∧ Admitted cfg state r

theorem search_spec (cfg : Config) (now : UInt64) : ∀ (order : List Nat) (state : State)
    (trust : Trust) (worst : Option Reason) (log : Log),
    SearchSpec C cfg now trust state log (search C T cfg now order state trust worst log)
  | [], state, trust, worst, log =>
      ⟨⟨[], rfl⟩, Extends.refl log, rfl, fun r hr => by cases hr⟩
  | i :: order, state, trust, worst, log => by
      unfold search
      cases hmirror : cfg.mirrors[i]? with
      | none => exact search_spec cfg now order state trust worst log
      | some mirror =>
          have hspec := @tryMirror_spec C T mirror cfg trust state now log
          simp only
          generalize tryMirror C T mirror cfg trust state now log = out at hspec ⊢
          obtain ⟨result, trust', log'⟩ := out
          cases result with
          | ok release =>
              refine ⟨hspec.chain, hspec.log, rfl, fun r hr => ?_⟩
              obtain ⟨hopened, hadmitted⟩ := hspec.accepted r (by cases hr; rfl)
              exact ⟨⟨mirror, List.mem_of_getElem? hmirror, hopened⟩, hadmitted⟩
          | error reason =>
              have ih := search_spec cfg now order (state.charge i) trust' (mergeReason worst reason) log'
              obtain ⟨attempts, hchain⟩ := hspec.chain
              obtain ⟨attempts', hchain'⟩ := ih.chain
              refine ⟨⟨attempts ++ attempts', ?_⟩, hspec.log.trans ih.log, ih.kept, fun r hr => ?_⟩
              · rw [Trust.after_append, ← hchain, ← hchain']
              · obtain ⟨hopened, hadmitted⟩ := ih.accepted r hr
                exact ⟨hopened, hadmitted.1, hadmitted.2, hadmitted.3, hadmitted.4⟩

end Pelorus.Update
