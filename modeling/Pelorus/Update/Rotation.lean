import Pelorus.Update.Canonical
import Pelorus.Update.Trust

/-
  Update/Rotation.lean --- chains of key rotations.

  ONE ROTATION.  `applyRotation_ok` says everything a successful rotation did: who
  signed it, which epoch it made, and what became of the keys of the old set.

  CHAINS.  A client makes attempts, one after another, and holds the trust of the last
  one that succeeded (`Trust.after`).  Epochs and revoked keys only grow along such a
  chain, and every trust on it is well formed, so what one rotation drops stays dropped
  and what it consumed is never accepted again.
-/
set_option autoImplicit false

namespace Pelorus.Update

open Lib

variable {C : Crypto}

/-! ## Key sets -/

/-- The rules of a key set: 1 to 8 valid keys with distinct ids, and a threshold from 1
to their number. -/
structure ValidSet (C : Crypto) (keys : List PublicKey) (threshold : UInt8) : Prop where
  pos : 1 ≤ keys.length
  count : keys.length ≤ MAX_KEYS
  valid : ∀ k ∈ keys, C.checkPublicKey k = true
  distinct : (keys.map (keyId C)).Nodup
  threshold_pos : 1 ≤ threshold.toNat
  threshold_le : threshold.toNat ≤ keys.length

theorem validateKeys_ok : ∀ {keys : List PublicKey}, validateKeys C keys = .ok () ↔
    (∀ k ∈ keys, C.checkPublicKey k = true) ∧ (keys.map (keyId C)).Nodup
  | [] => by simp [validateKeys]
  | k :: rest => by
      have ih := @validateKeys_ok rest
      unfold validateKeys
      split
      · rename_i hbad
        simp [hbad]
      · rename_i hgood
        split
        · rename_i hdup
          obtain ⟨o, ho, hid⟩ := List.any_eq_true.mp hdup
          refine ⟨fun h => (by cases h), fun h => absurd ?_ (List.nodup_cons.mp h.2).1⟩
          exact List.mem_map.mpr ⟨o, ho, of_decide_eq_true hid⟩
        · rename_i hnew
          have hout : keyId C k ∉ rest.map (keyId C) := by
            intro hmem
            obtain ⟨o, ho, hid⟩ := List.mem_map.mp hmem
            exact hnew (List.any_eq_true.mpr ⟨o, ho, decide_eq_true hid⟩)
          rw [ih]
          simp [hout, Bool.not_eq_false _ ▸ hgood]

theorem validateSet_ok {keys : List PublicKey} {threshold : UInt8} :
    validateSet C keys threshold = .ok () ↔ ValidSet C keys threshold := by
  unfold validateSet
  split
  · rename_i h
    refine ⟨fun h => (by cases h), fun hset => ?_⟩
    have hpos := hset.pos
    have hcount := hset.count
    rcases h with h | h
    · rw [List.isEmpty_iff.mp h] at hpos
      cases hpos
    · omega
  · rename_i h
    obtain ⟨hne, hcount⟩ := not_or.mp h
    split
    · rename_i h
      refine ⟨fun h => (by cases h), fun hset => ?_⟩
      have hpos := hset.threshold_pos
      have hle := hset.threshold_le
      rcases h with rfl | h
      · cases hpos
      · omega
    · rename_i h
      obtain ⟨hzero, hle⟩ := not_or.mp h
      rw [validateKeys_ok]
      refine ⟨fun hkeys => ?_, fun hset => ⟨hset.valid, hset.distinct⟩⟩
      exact {
        pos := List.length_pos_iff.mpr fun hnil => hne (List.isEmpty_iff.mpr hnil)
        count := Nat.not_lt.mp hcount
        valid := hkeys.1
        distinct := hkeys.2
        threshold_pos := UInt8.lt_iff_toNat_lt.mp (UInt8.pos_iff_ne_zero.mpr hzero)
        threshold_le := Nat.not_lt.mp hle }

/-! ## Signatures -/

/-- At least a threshold of distinct keys of the set signed these bytes. -/
def Trust.SignedBy (C : Crypto) (t : Trust) (signed : Bytes) (sigs : SignatureSet) : Prop :=
  ∃ signers : List PublicKey, signers.Nodup ∧ t.threshold.toNat ≤ signers.length ∧
    ∀ k ∈ signers, k ∈ t.keys ∧ ∃ sig, (keyId C k, sig) ∈ sigs.entries ∧
      C.verify k (Trust.message signed) sig = true

variable {t : Trust}

theorem signer_eq_some {signed : Bytes} {entry : KeyId × Signature} {k : PublicKey}
    (h : t.signer C signed entry = some k) :
    k ∈ t.keys ∧ keyId C k = entry.1 ∧ C.verify k (Trust.message signed) entry.2 = true := by
  obtain ⟨hfind, hverify⟩ := Option.filter_eq_some_iff.mp h
  have hid := List.find?_some hfind
  exact ⟨List.mem_of_find?_eq_some hfind, of_decide_eq_true hid, hverify⟩

/-- Entries with distinct ids are signed by distinct keys. -/
theorem nodup_signers (t : Trust) (signed : Bytes) {entries : List (KeyId × Signature)}
    (h : entries.Pairwise fun p q => p.1.1 < q.1.1) :
    (entries.filterMap (t.signer C signed)).Nodup := by
  refine List.pairwise_filterMap.mpr (h.imp ?_)
  intro p q hlt k hk l hl heq
  have hp := (signer_eq_some hk).2.1
  have hq := (signer_eq_some hl).2.1
  rw [heq, hq] at hp
  rw [hp] at hlt
  exact List.lt_irrefl _ hlt

theorem signedBy_of_verify {signed : Bytes} {sigs : SignatureSet}
    (h : t.verify C signed sigs = .ok ()) : t.SignedBy C signed sigs := by
  unfold Trust.verify at h
  split at h
  · cases h
  · simp only at h
    split at h
    · rename_i hcount
      refine ⟨_, nodup_signers t signed sigs.ascending, hcount, fun k hk => ?_⟩
      obtain ⟨entry, hentry, hsigner⟩ := List.mem_filterMap.mp hk
      obtain ⟨hkey, hid, hverify⟩ := signer_eq_some hsigner
      exact ⟨hkey, entry.2, hid ▸ hentry, hverify⟩
    · cases h

/-! ## One rotation -/

theorem openManifest_ok {signed : Bytes} {sigs : SignatureSet} {now : UInt64} {m : Manifest} : t.openManifest C signed sigs now = .ok m ↔
      t.verify C signed sigs = .ok () ∧ Manifest.parse signed = .ok m ∧
        checkFresh m.issued m.expires now = .ok () := by
  unfold Trust.openManifest
  cases t.verify C signed sigs with
  | error e => simp [bind, Except.bind]
  | ok u =>
      cases Manifest.parse signed with
      | error e => simp [bind, Except.bind]
      | ok m' =>
          cases hfresh : checkFresh m'.issued m'.expires now with
          | error e =>
              simp only [bind, Except.bind, hfresh]
              refine ⟨fun h => (by cases h), ?_⟩
              rintro ⟨-, h, h'⟩
              cases h
              rw [hfresh] at h'
              cases h'
          | ok u' =>
              simp only [bind, Except.bind, hfresh]
              refine ⟨fun h => ?_, fun h => ?_⟩
              · cases h
                exact ⟨trivial, rfl, hfresh⟩
              · cases h.2.1
                rfl

/-- What a successful rotation did. -/
structure Rotated (C : Crypto) (t : Trust) (signed : Bytes) (sigs : SignatureSet) (t' : Trust) :
    Prop where
  signedBy : t.SignedBy C signed sigs
  parsed : ∃ r : Rotation, Manifest.parse signed = .ok (.rotation r) ∧ r.keyEpoch = t'.epoch
  epoch : t'.epoch.toNat = t.epoch.toNat + 1
  set : ValidSet C t'.keys t'.threshold
  allowed : ∀ k ∈ t'.keys, k ∉ t.revoked
  revoked : t'.revoked = Trust.revoke t'.keys t.revoked t.keys

theorem applyRotation_ok {t' : Trust} {signed : Bytes} {sigs : SignatureSet} {now : UInt64}
    (h : t.applyRotation C signed sigs now = .ok t') : Rotated C t signed sigs t' := by
  unfold Trust.applyRotation at h
  cases hopen : t.openManifest C signed sigs now with
  | error e =>
      rw [hopen] at h
      cases h
  | ok m =>
      rw [hopen] at h
      obtain ⟨hverify, hparse, -⟩ := openManifest_ok.mp hopen
      cases m with
      | release r => cases h
      | rotation r =>
          simp only [bind, Except.bind] at h
          split at h
          · cases h
          · split at h
            · cases h
            · rename_i hepoch
              split at h
              · cases h
              · rename_i hset
                split at h
                · cases h
                · rename_i hallowed
                  cases h
                  exact {
                    signedBy := signedBy_of_verify hverify
                    parsed := ⟨r, hparse, rfl⟩
                    epoch := (not_not.mp hepoch).symm
                    set := validateSet_ok.mp hset
                    allowed := by simpa using hallowed
                    revoked := rfl }

/-- A rotation to an epoch that was reached is refused. -/
theorem applyRotation_rollback {signed : Bytes} {r : Rotation}
    (hparse : Manifest.parse signed = .ok (.rotation r)) (hle : r.keyEpoch.toNat ≤ t.epoch.toNat)
    (sigs : SignatureSet) (now : UInt64) (t' : Trust) :
    t.applyRotation C signed sigs now ≠ .ok t' := by
  intro h
  have hrot := applyRotation_ok h
  obtain ⟨r', hparse', hepoch'⟩ := hrot.parsed
  rw [hparse] at hparse'
  cases hparse'
  have hepoch := hrot.epoch
  rw [← hepoch'] at hepoch
  omega

theorem mem_revoke {keys : List PublicKey} {k : PublicKey} : ∀ {olds revoked : List PublicKey},
    k ∈ Trust.revoke keys revoked olds ↔ k ∈ revoked ∨ k ∈ olds ∧ k ∉ keys
  | [], revoked => by simp [Trust.revoke]
  | old :: olds, revoked => by
      unfold Trust.revoke
      split
      · rename_i h
        rw [mem_revoke]
        have hold : old ∉ keys := by simpa using h.1
        by_cases hk : k = old
        · subst hk
          simp [hold]
        · simp [hk]
      · rename_i h
        rw [mem_revoke]
        by_cases hk : k = old
        · subst hk
          by_cases hin : k ∈ keys
          · simp [hin]
          · have hrev : k ∈ revoked := by
              by_contra hnot
              exact h ⟨by simpa using hin, by simpa using hnot⟩
            simp [hrev]
        · simp [hk]

/-! ## Well-formed trust -/

/-- The key set follows the rules, and no trusted key is revoked. -/
structure Trust.Wf (C : Crypto) (t : Trust) : Prop where
  epoch : 1 ≤ t.epoch.toNat
  set : ValidSet C t.keys t.threshold
  disjoint : ∀ k ∈ t.keys, k ∉ t.revoked

theorem wf_of_new {epoch : UInt32} {keys : List PublicKey} {threshold : UInt8}
    {revoked : List PublicKey} (h : Trust.new C epoch keys threshold revoked = .ok t) :
    t.Wf C := by
  unfold Trust.new at h
  split at h
  · cases h
  · rename_i hepoch
    simp only [bind, Except.bind] at h
    split at h
    · cases h
    · rename_i hset
      split at h
      · cases h
      · rename_i hdisjoint
        cases h
        exact ⟨UInt32.lt_iff_toNat_lt.mp (UInt32.pos_iff_ne_zero.mpr hepoch),
          validateSet_ok.mp hset, by simpa using hdisjoint⟩

theorem Rotated.wf {t' : Trust} {signed : Bytes} {sigs : SignatureSet}
    (h : Rotated C t signed sigs t') : t'.Wf C := by
  refine ⟨?_, h.set, fun k hk hrev => ?_⟩
  · rw [h.epoch]
    omega
  · rw [h.revoked, mem_revoke] at hrev
    rcases hrev with hold | ⟨-, hnot⟩
    · exact h.allowed k hk hold
    · exact hnot hk

/-! ## Chains -/

/-- A call of `apply_rotation`. -/
structure Attempt where
  signed : Bytes
  sigs : SignatureSet
  now : UInt64

namespace Trust

/-- The trust held after an attempt. -/
def attempt (C : Crypto) (t : Trust) (a : Attempt) : Trust :=
  match t.applyRotation C a.signed a.sigs a.now with
  | .ok t' => t'
  | .error _ => t

/-- The trust held after attempts in turn. -/
def after (C : Crypto) (t : Trust) (attempts : List Attempt) : Trust := attempts.foldl (attempt C) t

theorem after_append (t : Trust) (as bs : List Attempt) :
    t.after C (as ++ bs) = (t.after C as).after C bs := List.foldl_append

theorem attempt_cases (t : Trust) (a : Attempt) :
    t.attempt C a = t ∨ Rotated C t a.signed a.sigs (t.attempt C a) := by
  unfold attempt
  cases h : t.applyRotation C a.signed a.sigs a.now with
  | error e => exact Or.inl rfl
  | ok t' => exact Or.inr (applyRotation_ok h)

theorem after_keeps {P : Trust → Prop}
    (hstep : ∀ t t' signed sigs, P t → Rotated C t signed sigs t' → P t') :
    ∀ {attempts : List Attempt} {t : Trust}, P t → P (t.after C attempts)
  | [], _, h => h
  | a :: attempts, t, h => by
      have hnext : P (t.attempt C a) := by
        rcases attempt_cases t a with heq | hrot
        · rw [heq]
          exact h
        · exact hstep _ _ _ _ h hrot
      exact @after_keeps P hstep attempts (t.attempt C a) hnext

theorem after_wf {t : Trust} (h : t.Wf C) (attempts : List Attempt) : (t.after C attempts).Wf C :=
  after_keeps (fun _ _ _ _ _ hrot => hrot.wf) h

theorem epoch_le_after (t : Trust) (attempts : List Attempt) :
    t.epoch.toNat ≤ (t.after C attempts).epoch.toNat := by
  refine after_keeps (P := fun u => t.epoch.toNat ≤ u.epoch.toNat) ?_ (Nat.le_refl _)
  intro u u' _ _ hle hrot
  have := hrot.epoch
  omega

theorem revoked_after {t : Trust} {k : PublicKey} (h : k ∈ t.revoked) (attempts : List Attempt) :
    k ∈ (t.after C attempts).revoked := by
  refine after_keeps (P := fun u => k ∈ u.revoked) ?_ h
  intro u u' _ _ hmem hrot
  rw [hrot.revoked, mem_revoke]
  exact Or.inl hmem

end Trust

/-- THE ROTATION CHAIN.  From any trust that `Trust::new` accepts, after any attempts:
the trust held has 1 to 8 valid keys with distinct ids and a threshold it can meet; an
attempt that succeeds raises the epoch by one and was signed by a threshold of distinct
keys of the set it replaces; a key it drops is revoked, and trusted no more, after any
further attempts; and its bytes are refused in every trust after it. -/
theorem rotation_chain (C : Crypto) (epoch : UInt32) (keys : List PublicKey) (threshold : UInt8)
    (revoked : List PublicKey) (t : Trust) (hnew : Trust.new C epoch keys threshold revoked = .ok t)
    (before : List Attempt) :
    ValidSet C (t.after C before).keys (t.after C before).threshold ∧
    ∀ (a : Attempt) (t' : Trust),
      (t.after C before).applyRotation C a.signed a.sigs a.now = .ok t' →
      t' = t.after C (before ++ [a]) ∧
      t'.epoch.toNat = (t.after C before).epoch.toNat + 1 ∧
      (t.after C before).SignedBy C a.signed a.sigs ∧
      ∀ later : List Attempt,
        (∀ k ∈ (t.after C before).keys, k ∉ t'.keys →
          k ∈ (t'.after C later).revoked ∧ k ∉ (t'.after C later).keys) ∧
        ∀ (sigs : SignatureSet) (now : UInt64) (t'' : Trust),
          (t'.after C later).applyRotation C a.signed sigs now ≠ .ok t'' := by
  have hwf := Trust.after_wf (wf_of_new hnew) before
  refine ⟨hwf.set, fun a t' hok => ?_⟩
  have hrot := applyRotation_ok hok
  have hheld : t' = t.after C (before ++ [a]) := by
    rw [Trust.after_append]
    show t' = (t.after C before).attempt C a
    rw [Trust.attempt, hok]
  refine ⟨hheld, hrot.epoch, hrot.signedBy, fun later => ⟨fun k hk hdropped => ?_, ?_⟩⟩
  · have hrev : k ∈ t'.revoked := by
      rw [hrot.revoked, mem_revoke]
      exact Or.inr ⟨hk, hdropped⟩
    have hlater := Trust.revoked_after (C := C) hrev later
    exact ⟨hlater, fun hkey => (Trust.after_wf hrot.wf later).disjoint k hkey hlater⟩
  · obtain ⟨r, hparse, hepoch⟩ := hrot.parsed
    refine applyRotation_rollback hparse ?_
    rw [hepoch]
    exact Trust.epoch_le_after t' later

/-! ## A chain of one rotation -/

namespace Sample

/-- An Ed25519 public key. -/
def rootKey : PublicKey :=
  ⟨[215, 90, 152, 1, 130, 177, 10, 183, 213, 75, 254, 211, 201, 100, 7, 58, 14, 225, 114, 243,
    218, 166, 35, 37, 175, 2, 26, 104, 247, 7, 81, 26], rfl⟩

/-- The key it hands over to. -/
def nextKey : PublicKey :=
  ⟨[61, 64, 23, 195, 232, 67, 137, 90, 146, 183, 10, 167, 77, 27, 126, 188, 156, 152, 44, 207,
    46, 196, 150, 140, 192, 205, 85, 241, 42, 244, 102, 12], rfl⟩

/-- SHA-256 of `rootKey`. -/
def rootDigest : Fixed 32 :=
  ⟨[33, 254, 49, 223, 161, 84, 162, 97, 98, 107, 248, 84, 4, 111, 210, 39, 27, 123, 237, 75,
    106, 190, 69, 170, 88, 135, 126, 244, 127, 151, 33, 185], rfl⟩

/-- SHA-256 of `nextKey`. -/
def nextDigest : Fixed 32 :=
  ⟨[57, 247, 19, 208, 166, 68, 37, 63, 4, 82, 148, 33, 185, 245, 27, 155, 8, 151, 157, 8, 41,
    89, 89, 196, 243, 153, 14, 230, 23, 245, 19, 159], rfl⟩

/-- The rotation from `rootKey` to `nextKey`. -/
def handOver : Rotation where
  keyEpoch := 2
  issued := 1790000000
  expires := 1790604800
  threshold := 1
  keys := [nextKey]

/-- The document that is signed. -/
def signed : Bytes := (Manifest.rotation handOver).encode.utf8

/-- The signature of the document under `rootKey`. -/
def signature : Signature :=
  ⟨[191, 143, 94, 241, 64, 74, 56, 177, 209, 247, 51, 71, 19, 93, 89, 32, 108, 236, 88, 108,
    148, 153, 53, 158, 104, 171, 81, 49, 252, 175, 204, 29, 254, 83, 23, 243, 13, 248, 194,
    98, 247, 173, 86, 25, 216, 245, 57, 54, 77, 251, 215, 68, 112, 86, 182, 107, 233, 106, 2,
    135, 70, 4, 126, 4], rfl⟩

/-- The hash and the scheme, as far as this chain uses them. -/
def crypto : Crypto where
  sha256 b := if b = rootKey.1 then rootDigest else nextDigest
  checkPublicKey k := k = rootKey ∨ k = nextKey
  verify k m s := k = rootKey ∧ m = Trust.message signed ∧ s = signature

def sigs : SignatureSet where
  entries := [(keyId crypto rootKey, signature)]
  count := by decide
  ascending := List.pairwise_singleton _ _

def root : Trust := { epoch := 1, keys := [rootKey], threshold := 1, revoked := [] }

def next : Trust := { epoch := 2, keys := [nextKey], threshold := 1, revoked := [rootKey] }

theorem new_root : Trust.new crypto 1 [rootKey] 1 [] = .ok root := by
  decide +kernel

theorem rotate_root : root.applyRotation crypto signed sigs 1790100000 = .ok next := by
  have hvalid : (Manifest.rotation handOver).Valid :=
    ⟨by decide, ⟨by decide, by decide, by decide⟩, by decide, by decide, by decide, by decide⟩
  have hopen : root.openManifest crypto signed sigs 1790100000 = .ok (.rotation handOver) :=
    openManifest_ok.mpr ⟨by decide +kernel, parse_encode hvalid, by decide +kernel⟩
  rw [Trust.applyRotation, hopen]
  decide +kernel

end Sample

/-- The old key is revoked for ever, and the document is used up. -/
theorem rotation_chain_handOver :
    Sample.root.applyRotation Sample.crypto Sample.signed Sample.sigs 1790100000 = .ok Sample.next ∧
    ∀ later : List Attempt,
      Sample.rootKey ∈ (Sample.next.after Sample.crypto later).revoked ∧
      ∀ (sigs : SignatureSet) (now : UInt64) (t : Trust),
        (Sample.next.after Sample.crypto later).applyRotation Sample.crypto Sample.signed sigs now ≠
          .ok t := by
  refine ⟨Sample.rotate_root, fun later => ?_⟩
  have h := ((rotation_chain Sample.crypto 1 [Sample.rootKey] 1 [] Sample.root Sample.new_root []).2
    ⟨Sample.signed, Sample.sigs, 1790100000⟩ Sample.next Sample.rotate_root).2.2.2 later
  exact ⟨(h.1 Sample.rootKey (by decide) (by decide)).1, h.2⟩

end Pelorus.Update
