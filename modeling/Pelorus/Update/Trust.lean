import Pelorus.Lib.Collections
import Pelorus.Update.Manifest

/-
  Update/Trust.lean --- trusted keys, detached signatures, and key rotation
  (`px-update/src/trust.rs`).

  The hash and the signature scheme are parameters (`Crypto`), and nothing is assumed
  of them: every result holds whatever they answer.
-/
set_option autoImplicit false

namespace Pelorus.Update

open Lib Lib.Text

/-- An Ed25519 public key. -/
abbrev PublicKey : Type := Fixed 32

abbrev Signature : Type := Fixed 64

/-- `KeyId`, ordered as its bytes are. -/
abbrev KeyId : Type := Fixed 8

/-- The functions of `sha2` and `ed25519` in use here. -/
structure Crypto where
  sha256 : Bytes → Fixed 32
  /-- `check_public_key` succeeds. -/
  checkPublicKey : PublicKey → Bool
  /-- `verify` of a message under a key succeeds. -/
  verify : PublicKey → Bytes → Signature → Bool

/-- `key_id`: the first bytes of the hash. -/
def keyId (C : Crypto) (publicKey : PublicKey) : KeyId :=
  ⟨(C.sha256 publicKey.1).1.take 8, by rw [List.length_take, (C.sha256 publicKey.1).2]; rfl⟩

/-- The prefix of every signed message. -/
def SIGN_DOMAIN : Bytes := Text.utf8 "px-update/manifest/v1\n".toList

def MAX_FUTURE_SKEW_SECS : UInt64 := 86400

def MAX_SIG_FILE_BYTES : Nat := 1024

inductive TrustError where
  | badKeySet (why : String)
  | badSignatureFile (why : String)
  | tooLarge
  | thresholdNotMet (valid need : Nat)
  | parse (e : ParseError)
  | wrongType
  | expired
  | notYetValid
  | rotationSkipsEpoch
  | rotationRollback
  | revokedKeyReintroduced
  | epochMismatch (manifest trusted : UInt32)
  deriving DecidableEq, Repr

/-! ## Signature files -/

/-- A parsed signature file: at most eight entries, with strictly ascending key ids, so
that no key can be counted twice. -/
structure SignatureSet where
  entries : List (KeyId × Signature)
  count : entries.length ≤ MAX_KEYS
  ascending : entries.Pairwise fun p q => p.1.1 < q.1.1

namespace SignatureSet

def empty : SignatureSet := ⟨[], Nat.zero_le _, List.Pairwise.nil⟩

/-- `push` of an entry above the last one. -/
def push (out : SignatureSet) (id : KeyId) (sig : Signature)
    (hcount : ¬ MAX_KEYS ≤ out.entries.length)
    (hlast : ¬ (out.entries.getLast?.any fun p => ¬ p.1.1 < id.1) = true) : SignatureSet where
  entries := out.entries ++ [(id, sig)]
  count := by
    rw [List.length_append]
    exact Nat.not_le.mp hcount
  ascending := pairwise_concat out.ascending (fun _ _ _ => List.lt_trans) fun p hp => by
    rw [hp] at hlast
    simpa using hlast

/-- The loop of `SignatureSet::parse` over the lines. -/
def parseLines (out : SignatureSet) : List Text → Except TrustError SignatureSet
  | [] => .ok out
  | l :: lines =>
      if hcount : MAX_KEYS ≤ out.entries.length then .error (.badSignatureFile "too many signatures")
      else
        match l.splitOn ' ' with
        | [tag, id, sig] =>
            if tag ≠ "sig".toList then
              .error (.badSignatureFile "line is not `sig <key id> <signature>`")
            else
              match Hex.decodeFixed 8 id, Hex.decodeFixed 64 sig with
              | some id, some sig =>
                  if hlast : (out.entries.getLast?.any fun p => ¬ p.1.1 < id.1) = true then
                    .error (.badSignatureFile "key ids are not strictly ascending")
                  else parseLines (out.push id sig hcount hlast) lines
              | _, _ =>
                  .error (.badSignatureFile
                    "key id or signature is not lowercase hex of the right length")
        | _ => .error (.badSignatureFile "line is not `sig <key id> <signature>`")

def parse (bytes : Bytes) : Except TrustError SignatureSet :=
  if MAX_SIG_FILE_BYTES < bytes.length then .error .tooLarge
  else
    match fromUtf8 bytes with
    | none => .error (.badSignatureFile "not ASCII")
    | some text =>
        match stripSuffix text ['\n'] with
        | none => .error (.badSignatureFile "no final newline")
        | some body => parseLines empty (body.splitOn '\n')

end SignatureSet

/-! ## Trust -/

/-- The keys the client trusts. -/
structure Trust where
  epoch : UInt32
  keys : List PublicKey
  threshold : UInt8
  revoked : List PublicKey
  deriving DecidableEq

/-- The loop of `validate_set` over the keys. -/
def validateKeys (C : Crypto) : List PublicKey → Except TrustError Unit
  | [] => .ok ()
  | k :: rest =>
      if C.checkPublicKey k = false then .error (.badKeySet "a key is not a valid Ed25519 key")
      else if rest.any fun o => keyId C o = keyId C k then
        .error (.badKeySet "duplicate key or key id")
      else validateKeys C rest

def validateSet (C : Crypto) (keys : List PublicKey) (threshold : UInt8) : Except TrustError Unit :=
  if keys.isEmpty ∨ MAX_KEYS < keys.length then .error (.badKeySet "a key set holds 1 to 8 keys")
  else if threshold = 0 ∨ keys.length < threshold.toNat then
    .error (.badKeySet "threshold is outside 1..=keys")
  else validateKeys C keys

/-- `check_fresh`: `issued - skew <= now < expires`. -/
def checkFresh (issued expires now : UInt64) : Except TrustError Unit :=
  if expires ≤ now then .error .expired
  else if min (now.toNat + MAX_FUTURE_SKEW_SECS.toNat) (2 ^ 64 - 1) < issued.toNat then
    .error .notYetValid
  else .ok ()

def Manifest.issued : Manifest → UInt64
  | .release r => r.issued
  | .rotation r => r.issued

def Manifest.expires : Manifest → UInt64
  | .release r => r.expires
  | .rotation r => r.expires

namespace Trust

def new (C : Crypto) (epoch : UInt32) (keys : List PublicKey) (threshold : UInt8)
    (revoked : List PublicKey) : Except TrustError Trust :=
  if epoch = 0 then .error (.badKeySet "epochs start at 1")
  else do
    validateSet C keys threshold
    if keys.any fun k => revoked.contains k then .error (.badKeySet "a trusted key is also revoked")
    else .ok { epoch, keys, threshold, revoked }

/-- The signed message. -/
def message (signed : Bytes) : Bytes := SIGN_DOMAIN ++ signed

/-- The key of the set that an entry of a signature file names, when it verifies. -/
def signer (C : Crypto) (t : Trust) (signed : Bytes) (entry : KeyId × Signature) : Option PublicKey :=
  (t.keys.find? fun k => keyId C k = entry.1).filter fun k => C.verify k (message signed) entry.2

def verify (C : Crypto) (t : Trust) (signed : Bytes) (sigs : SignatureSet) : Except TrustError Unit :=
  if MAX_MANIFEST_BYTES < signed.length then .error .tooLarge
  else
    let valid := (sigs.entries.filterMap (t.signer C signed)).length
    let need := t.threshold.toNat
    if need ≤ valid then .ok () else .error (.thresholdNotMet valid need)

/-- `Trust::open`: authenticate first, parse second. -/
def openManifest (C : Crypto) (t : Trust) (signed : Bytes) (sigs : SignatureSet) (now : UInt64) :
    Except TrustError Manifest := do
  t.verify C signed sigs
  match Manifest.parse signed with
  | .error e => .error (.parse e)
  | .ok m => do
      checkFresh m.issued m.expires now
      .ok m

def openRelease (C : Crypto) (t : Trust) (signed : Bytes) (sigs : SignatureSet) (now : UInt64) :
    Except TrustError Release := do
  match ← t.openManifest C signed sigs now with
  | .release r =>
      if r.keyEpoch = t.epoch then .ok r else .error (.epochMismatch r.keyEpoch t.epoch)
  | .rotation _ => .error .wrongType

/-- The revoked keys after a rotation: each old key that is not kept is added once. -/
def revoke (keys : List PublicKey) : List PublicKey → List PublicKey → List PublicKey
  | revoked, [] => revoked
  | revoked, old :: rest =>
      if keys.contains old = false ∧ revoked.contains old = false then
        revoke keys (revoked ++ [old]) rest
      else revoke keys revoked rest

def applyRotation (C : Crypto) (t : Trust) (signed : Bytes) (sigs : SignatureSet) (now : UInt64) :
    Except TrustError Trust := do
  match ← t.openManifest C signed sigs now with
  | .release _ => .error .wrongType
  | .rotation r =>
      if r.keyEpoch ≤ t.epoch then .error .rotationRollback
      else if t.epoch.toNat + 1 ≠ r.keyEpoch.toNat then .error .rotationSkipsEpoch
      else do
        validateSet C r.keys r.threshold
        if r.keys.any fun k => t.revoked.contains k then .error .revokedKeyReintroduced
        else .ok { epoch := r.keyEpoch, keys := r.keys, threshold := r.threshold,
                   revoked := revoke r.keys t.revoked t.keys }

end Trust

end Pelorus.Update
