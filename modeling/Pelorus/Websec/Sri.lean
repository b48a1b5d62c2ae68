import Pelorus.Websec.Cors

/-
  Websec/Sri.lean --- subresource integrity (`px-websec/src/sri.rs`).

  The digests are a parameter: `verify_with` takes them as an argument too.
-/
set_option autoImplicit false

namespace Pelorus.Websec.Sri

open Lib Lib.Text Websec.Cors

def MAX_INTEGRITY_BYTES : Nat := 16 * 1024

def MAX_TOKENS : Nat := 128

/-- The algorithms, the weakest first. -/
inductive Algorithm where
  | sha256
  | sha384
  | sha512
  deriving DecidableEq

namespace Algorithm

def digestLen : Algorithm → Nat
  | .sha256 => 32
  | .sha384 => 48
  | .sha512 => 64

def fromToken (t : Text) : Option Algorithm :=
  if eqIgnoreAsciiCase t "sha256".toList then some .sha256
  else if eqIgnoreAsciiCase t "sha384".toList then some .sha384
  else if eqIgnoreAsciiCase t "sha512".toList then some .sha512
  else none

end Algorithm

structure HashExpr where
  algorithm : Algorithm
  digest : Bytes
  deriving DecidableEq

structure Metadata where
  hashes : List HashExpr
  hadTokens : Bool
  deriving DecidableEq

def Metadata.needsCheck (m : Metadata) : Bool := m.hadTokens

def Metadata.strongest (m : Metadata) : Option Algorithm :=
  [Algorithm.sha512, .sha384, .sha256].find? fun a => m.hashes.any fun h => h.algorithm = a

inductive SriError where
  | tooLarge
  | notEligible
  | mismatch
  deriving DecidableEq

/-- The bytes of a base64 text, where `acc` holds the last `bits` bits that are not out yet. -/
def base64Bytes (acc bits : Nat) : Text → Option Bytes
  | [] => if acc = 0 then some [] else none
  | c :: s => do
      let v ← Csp.base64Value c
      let acc := acc * 64 + v
      let bits := bits + 6
      if 8 ≤ bits then
        let rest ← base64Bytes (acc % 2 ^ (bits - 8)) (bits - 8) s
        some (UInt8.ofNat (acc / 2 ^ (bits - 8)) :: rest)
      else base64Bytes acc bits s

def base64Decode (s : Text) : Option Bytes :=
  let body := trimEndMatches (· = '=') s
  if 2 < s.length - body.length || body.len % 4 = 1 then none else base64Bytes 0 0 body

/-- The hash that a token names, if it names one. -/
def parseToken (token : Text) : Option HashExpr := do
  let (alg, b64) ← splitOnce '-' (token.takeWhile fun c => c ≠ '?')
  let algorithm ← Algorithm.fromToken alg
  let body := trimEndMatches (· = '=') b64
  if body.isEmpty || 2 < b64.length - body.length ||
      !body.all fun c => c.isAlphanum || c = '+' || c = '/' || c = '-' || c = '_' then none
  else
    -- a digest that cannot match is still a hash
    let digest := ((base64Decode b64).filter fun d => d.length = algorithm.digestLen).getD []
    some { algorithm, digest }

def parse (value : Text) : Except SriError Metadata :=
  if MAX_INTEGRITY_BYTES < value.len then .error .tooLarge
  else
    let tokens := (value.splitOnP Referrer.isTokenSpace).filter fun t => !t.isEmpty
    if MAX_TOKENS < tokens.length then .error .tooLarge
    else .ok { hashes := tokens.filterMap parseToken, hadTokens := !tokens.isEmpty }

def eligible (tainting : Tainting) : Bool := tainting ≠ .opaque_

def verifyWith (digest : Algorithm → Bytes → Bytes) (metadata : Metadata) (tainting : Tainting)
    (body : Bytes) : Except SriError Unit :=
  if !metadata.hadTokens && metadata.hashes.isEmpty then .ok ()
  else if !eligible tainting then .error .notEligible
  else
    match metadata.strongest with
    | none => .ok ()
    | some strongest =>
        if (metadata.hashes.filter fun h => h.algorithm = strongest).any
            fun h => h.digest = digest strongest body then .ok ()
        else .error .mismatch

end Pelorus.Websec.Sri
