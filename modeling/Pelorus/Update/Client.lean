import Pelorus.Update.Trust

/-
  Update/Client.lean --- the update client (`px-update/src/client.rs`).

  THE TRANSPORT is an arbitrary function of everything that was exchanged so far in
  the check, which is as much as the other side can know; a check returns the log of
  its exchanges beside its outcome.

  THE SEARCH over the mirrors is a function of its own (`search`), so that the release
  a check accepted can be named; `check` concludes from what the search found.
-/
set_option autoImplicit false

/-
  The exact bytes of every request (`px-update/src/request.rs`).

  A request is built from a mirror and a resource name and nothing else, and is
  audited against an allowlist before it is handed to the transport.
-/

namespace Pelorus.Update

open Lib Lib.Text

/-- The only header names that may appear, in the order they are sent. -/
def ALLOWED_HEADERS : List Text :=
  ["Host".toList, "User-Agent".toList, "Accept".toList, "Connection".toList]

def USER_AGENT : Text := "update/1".toList

def MAX_REQUEST_BYTES : Nat := 1024

/-- `MAX_PATH_BYTES` of the request, which is not the one of the manifest. -/
def MAX_TARGET_BYTES : Nat := 256

def MANIFEST_RESOURCE : Text := "manifest.txt".toList

def SIGNATURE_RESOURCE : Text := "manifest.sig".toList

/-- Where to connect, and under which path the tree lives. -/
structure Mirror where
  host : Text
  port : UInt16
  base : Text
  deriving DecidableEq

structure RequestError where
  why : String
  deriving DecidableEq, Repr

/-- Complete HTTP/1.1 request bytes. -/
structure Request where
  bytes : Bytes
  deriving DecidableEq

def pathCharsOk (s : Text) : Bool := s.all isPathChar

def validHost (h : Text) : Bool :=
  !h.isEmpty && h.len ≤ 253 && (h.splitOn '.').all fun l =>
    !l.isEmpty && Text.len l ≤ 63 && l.head? ≠ some '-' && l.getLast? ≠ some '-' &&
      l.all fun c => c.isLower || c.isDigit || c = '-'

def Mirror.validate (m : Mirror) : Except RequestError Unit :=
  if ¬ validHost m.host then .error ⟨"mirror host is not a plain lowercase DNS name"⟩
  else if m.port = 0 then .error ⟨"mirror port is zero"⟩
  else if !m.base.isEmpty &&
      (m.base.head? ≠ some '/' || m.base.getLast? = some '/' || containsText m.base "//".toList ||
        64 < m.base.len || !pathCharsOk m.base ||
        ((m.base.splitOn '/').drop 1).any fun s => s.isEmpty || s.head? = some '.') then
    .error ⟨"mirror base path is not a plain path prefix"⟩
  else .ok ()

/-- The value of the host header. -/
def hostValue (m : Mirror) : Text :=
  if m.port = 443 then m.host else m.host ++ ':' :: decimal m.port.toNat

def CRLF : Text := ['\r', '\n']

/-- A header line is sound: an allowed name with its fixed value. -/
def headerOk (name value : Text) : Bool :=
  if name = "User-Agent".toList then value = USER_AGENT
  else if name = "Accept".toList then value = "*/*".toList
  else if name = "Connection".toList then value = "close".toList
  else
    let (h, p) := match splitOnce ':' value with
      | some (h, p) => (h, some p)
      | none => (value, none)
    validHost h && p.all fun p => !p.isEmpty && p.len ≤ 5 && p.all Char.isDigit

/-- The loop of `audit` over the header lines: the names seen. -/
def auditHeaders : List Text → Except RequestError (List Text)
  | [] => .ok []
  | l :: lines =>
      match splitOnceText ": ".toList l with
      | none => .error ⟨"malformed header"⟩
      | some (name, value) =>
          if ¬ ALLOWED_HEADERS.contains name then .error ⟨"header outside the allowlist"⟩
          else if ¬ headerOk name value then .error ⟨"header value is not the fixed value"⟩
          else do
            let seen ← auditHeaders lines
            .ok (name :: seen)

def audit (bytes : Bytes) : Except RequestError Unit :=
  if MAX_REQUEST_BYTES < bytes.length then .error ⟨"request too long"⟩
  else if ¬ bytes.all fun b => b = 0x0d || b = 0x0a || (0x20 ≤ b && b ≤ 0x7e) then
    .error ⟨"non-ASCII byte in request"⟩
  else
    match fromUtf8 bytes with
    | none => .error ⟨"not ASCII"⟩
    | some text =>
        match stripSuffix text (CRLF ++ CRLF) with
        | none => .error ⟨"request does not end with an empty line, or has a body"⟩
        | some head =>
            if containsText head ['\n', '\r'] || (removeText CRLF head).any (fun c => c = '\r' || c = '\n')
            then .error ⟨"bare CR or LF"⟩
            else
              match splitText CRLF head with
              | [] => .error ⟨"empty request"⟩
              | requestLine :: lines =>
                  match requestLine.splitOn ' ' with
                  | [method, target, version] =>
                      if method ≠ "GET".toList ∨ version ≠ "HTTP/1.1".toList then
                        .error ⟨"request line is not `GET <path> HTTP/1.1`"⟩
                      else if target.any (fun c => "?#%:@\\".toList.contains c) ||
                          target.head? ≠ some '/' || MAX_TARGET_BYTES < Text.len target ||
                          containsText target "//".toList || containsText target "/.".toList then
                        .error ⟨"request path has a query, fragment, escape or dot segment"⟩
                      else do
                        let seen ← auditHeaders lines
                        if seen ≠ ALLOWED_HEADERS then
                          .error ⟨"headers are not exactly the allowlist, in order"⟩
                        else .ok ()
                  | _ => .error ⟨"request line is not `GET <path> HTTP/1.1`"⟩

/-- The text of a request. -/
def requestText (m : Mirror) (resource : Text) : Text :=
  "GET ".toList ++ m.base ++ '/' :: resource ++ " HTTP/1.1".toList ++ CRLF ++
    "Host: ".toList ++ hostValue m ++ CRLF ++ "User-Agent: ".toList ++ USER_AGENT ++ CRLF ++
    "Accept: */*".toList ++ CRLF ++ "Connection: close".toList ++ CRLF ++ CRLF

def buildGet (m : Mirror) (resource : Text) : Except RequestError Request := do
  m.validate
  if resource.isEmpty || 128 < resource.len || !pathCharsOk resource || resource.head? = some '/' ||
      (resource.splitOn '/').any (fun s => s.isEmpty || s.head? = some '.') then
    .error ⟨"resource is not a plain relative path"⟩
  else
    let bytes := (requestText m resource).utf8
    audit bytes
    .ok ⟨bytes⟩

end Pelorus.Update

namespace Pelorus.Update

open Lib

def MAX_MIRRORS : Nat := 8

def MAX_FAILURES : Nat := 8

def MAX_ROTATIONS_PER_CHECK : Nat := 4

def MAX_SIG_BYTES : UInt64 := 1024

/-! ## Transport -/

inductive TransportError where
  | connect
  | status (code : UInt16)
  | tooLarge
  | truncated
  | other
  deriving DecidableEq, Repr

/-- One call of `Transport::fetch`, with what it returned. -/
structure Exchange where
  mirror : Mirror
  request : Request
  maxBody : UInt64
  response : Except TransportError Bytes

/-- The exchanges of a check, oldest first. -/
abbrev Log : Type := List Exchange

/-- `Transport::fetch`, given what was exchanged before. -/
abbrev Transport : Type := Log → Mirror → Request → UInt64 → Except TransportError Bytes

/-! ## Configuration and state -/

structure Config where
  channel : Text
  platform : Text
  mirrors : List Mirror
  cadenceSecs : UInt64
  maxDataAgeSecs : UInt64
  minRetrySecs : UInt64
  deriving DecidableEq

structure State where
  installed : Version
  maxSequence : UInt64
  lastCheck : UInt64
  lastAttempt : UInt64
  dataVersions : Vector UInt32 3
  mirrorFailures : List UInt8
  deriving DecidableEq

/-- `kind_index`. -/
def DataKind.index : DataKind → Fin 3
  | psl => 0
  | hsts => 1
  | roots => 2

namespace State

def new (installed : Version) (dataVersions : Vector UInt32 3) : State where
  installed := installed
  maxSequence := 0
  lastCheck := 0
  lastAttempt := 0
  dataVersions := dataVersions
  mirrorFailures := []

def dataVersion (s : State) (k : DataKind) : UInt32 := s.dataVersions[k.index]

def recordDataInstalled (s : State) (k : DataKind) (version : UInt32) : State :=
  if s.dataVersion k < version then
    { s with dataVersions := s.dataVersions.set k.index version }
  else s

def recordReleaseInstalled (s : State) (v : Version) : State :=
  if s.installed.lt v then { s with installed := v } else s

def failures (s : State) (i : Nat) : UInt8 := s.mirrorFailures[i]?.getD 0

def charge (s : State) (i : Nat) : State :=
  { s with mirrorFailures :=
      s.mirrorFailures.modify i fun f => UInt8.ofNat (min (f.toNat + 1) MAX_FAILURES) }

def clear (s : State) (i : Nat) : State :=
  { s with mirrorFailures := s.mirrorFailures.modify i fun _ => 0 }

/-- `mirror_failures.resize(n, 0)`, and the attempt recorded. -/
def begin (s : State) (n : Nat) (now : UInt64) : State :=
  { s with mirrorFailures := (s.mirrorFailures ++ List.replicate n 0).take n, lastAttempt := now }

end State

/-! ## When to check -/

inductive Due where
  | no
  | cadence
  | staleData (k : DataKind)
  deriving DecidableEq, Repr

inductive Trigger where
  | scheduled
  | manual
  deriving DecidableEq, Repr

/-- `data_age`, with `saturating_sub`. -/
def dataAge (version : UInt32) (now : UInt64) : Option Nat :=
  (dateToUnix version).map fun t => now.toNat - t.toNat

/-- A data file is too old, or has no date. -/
def isStale (cfg : Config) (state : State) (now : UInt64) (k : DataKind) : Bool :=
  match dataAge (state.dataVersion k) now with
  | some age => cfg.maxDataAgeSecs.toNat < age
  | none => true

/-- Too soon after the last attempt. -/
def floorBlocks (cfg : Config) (state : State) (now : UInt64) : Bool :=
  state.lastAttempt ≤ now && now - state.lastAttempt < cfg.minRetrySecs

def due (cfg : Config) (state : State) (now : UInt64) : Due :=
  if floorBlocks cfg state now then .no
  else
    match DataKind.all.find? (isStale cfg state now) with
    | some k => .staleData k
    | none =>
        if 0 < cfg.cadenceSecs && (state.lastCheck = 0 || now < state.lastCheck ||
            cfg.cadenceSecs ≤ now - state.lastCheck) then .cadence
        else .no

/-! ## Decisions -/

inductive Reason where
  | noMirrors
  | request (e : RequestError)
  | transport (e : TransportError)
  | trust (e : TrustError)
  | wrongChannel
  | sequenceRollback (offered seen : UInt64)
  | versionDowngrade (offered installed : Version)
  | dataDowngrade (k : DataKind)
  | tooSoon
  deriving DecidableEq, Repr

/-- `is_security`: the mirror served something wrong. -/
def Reason.isSecurity : Reason → Bool
  | transport _ => false
  | noMirrors => false
  | tooSoon => false
  | request _ => false
  | _ => true

inductive Decision where
  | notDue
  | upToDate
  | updateAvailable (release : Release) (artifact : Artifact) (data : List DataEntry)
  | dataRefresh (data : List DataEntry)
  | rejected (reason : Reason)
  deriving DecidableEq

structure Outcome where
  decision : Decision
  state : State
  trust : Trust
  deriving DecidableEq

/-- The rank of a mirror: failures first, then the configured order. -/
def mirrorBefore (state : State) (i j : Nat) : Prop :=
  state.failures i < state.failures j ∨ state.failures i = state.failures j ∧ i ≤ j

instance (state : State) : DecidableRel (mirrorBefore state) := fun i j =>
  inferInstanceAs (Decidable (state.failures i < state.failures j ∨
    state.failures i = state.failures j ∧ i ≤ j))

def mirrorOrder (state : State) (n : Nat) : List Nat :=
  (List.range n).insertionSort (mirrorBefore state)

/-! ## Fetching -/

def fetchChecked (T : Transport) (mirror : Mirror) (resource : Text) (maxBody : UInt64) (log : Log) :
    Except Reason Bytes × Log :=
  match buildGet mirror resource with
  | .error e => (.error (.request e), log)
  | .ok request =>
      match audit request.bytes with
      | .error e => (.error (.request e), log)
      | .ok () =>
          let response := T log mirror request maxBody
          let log := log ++ [{ mirror, request, maxBody, response }]
          match response with
          | .error e => (.error (.transport e), log)
          | .ok body =>
              if maxBody.toNat < body.length then (.error (.transport .tooLarge), log)
              else (.ok body, log)

def fetchSigned (T : Transport) (mirror : Mirror) (manifestResource sigResource : Text) (log : Log) :
    Except Reason (Bytes × SignatureSet) × Log :=
  match fetchChecked T mirror manifestResource (UInt64.ofNat MAX_MANIFEST_BYTES) log with
  | (.error e, log) => (.error e, log)
  | (.ok manifest, log) =>
      match fetchChecked T mirror sigResource MAX_SIG_BYTES log with
      | (.error e, log) => (.error e, log)
      | (.ok sigBytes, log) =>
          match SignatureSet.parse sigBytes with
          | .error e => (.error (.trust e), log)
          | .ok sigs => (.ok (manifest, sigs), log)

/-- `rotation-{next}` with a suffix. -/
def rotationResource (next : Nat) (suffix : String) : Text :=
  "rotation-".toList ++ decimal next ++ suffix.toList

/-- The errors after which the client looks for a rotation. -/
def TrustError.maybeNewer : TrustError → Bool
  | thresholdNotMet _ _ => true
  | epochMismatch _ _ => true
  | _ => false

/-- The loop of `try_mirror`, with `left` rotations still allowed and the first error so
far. -/
def openLoop (C : Crypto) (T : Transport) (mirror : Mirror) (bytes : Bytes) (sigs : SignatureSet)
    (now : UInt64) : Nat → Option TrustError → Trust → Log → Except Reason Release × Trust × Log
  | left, firstErr, trust, log =>
      match trust.openRelease C bytes sigs now with
      | .ok r => (.ok r, trust, log)
      | .error e =>
          if e.maybeNewer then
            let first := firstErr.getD e
            match left with
            | 0 => (.error (.trust first), trust, log)
            | left + 1 =>
                let next := min (trust.epoch.toNat + 1) (2 ^ 32 - 1)
                match fetchSigned T mirror (rotationResource next ".txt")
                    (rotationResource next ".sig") log with
                | (.error _, log) => (.error (.trust first), trust, log)
                | (.ok (rbytes, rsigs), log) =>
                    match trust.applyRotation C rbytes rsigs now with
                    | .ok trust => openLoop C T mirror bytes sigs now left (some first) trust log
                    | .error _ => (.error (.trust first), trust, log)
          else (.error (.trust e), trust, log)

/-- The checks of `try_mirror` after the signatures: never backwards. -/
def admitRelease (cfg : Config) (state : State) (release : Release) : Except Reason Release :=
  if release.channel ≠ cfg.channel then .error .wrongChannel
  else if release.sequence < state.maxSequence then
    .error (.sequenceRollback release.sequence state.maxSequence)
  else if release.version.lt state.installed then
    .error (.versionDowngrade release.version state.installed)
  else
    match release.data.find? fun d => d.version < state.dataVersion d.kind with
    | some d => .error (.dataDowngrade d.kind)
    | none => .ok release

def tryMirror (C : Crypto) (T : Transport) (mirror : Mirror) (cfg : Config) (trust : Trust)
    (state : State) (now : UInt64) (log : Log) : Except Reason Release × Trust × Log :=
  match fetchSigned T mirror MANIFEST_RESOURCE SIGNATURE_RESOURCE log with
  | (.error e, log) => (.error e, trust, log)
  | (.ok (bytes, sigs), log) =>
      match openLoop C T mirror bytes sigs now MAX_ROTATIONS_PER_CHECK none trust log with
      | (.error e, trust, log) => (.error e, trust, log)
      | (.ok release, trust, log) => (admitRelease cfg state release, trust, log)

def mergeReason (worst : Option Reason) (new : Reason) : Option Reason :=
  match worst with
  | some w => if w.isSecurity || !new.isSecurity then some w else some new
  | none => some new

/-! ## The check -/

/-- What the mirrors gave. -/
structure Search where
  found : Option Release
  state : State
  trust : Trust
  worst : Option Reason
  log : Log

/-- The loop of `check` over the mirrors. -/
def search (C : Crypto) (T : Transport) (cfg : Config) (now : UInt64) :
    List Nat → State → Trust → Option Reason → Log → Search
  | [], state, trust, worst, log => { found := none, state, trust, worst, log }
  | i :: order, state, trust, worst, log =>
      match cfg.mirrors[i]? with
      | none => search C T cfg now order state trust worst log
      | some mirror =>
          match tryMirror C T mirror cfg trust state now log with
          | (.ok release, trust, log) =>
              { found := some release, state := state.clear i, trust, worst, log }
          | (.error reason, trust, log) =>
              search C T cfg now order (state.charge i) trust (mergeReason worst reason) log

/-- Why a check stops before it looks at the mirrors. -/
def gate (cfg : Config) (state : State) (now : UInt64) (trigger : Trigger) : Option Decision :=
  if floorBlocks cfg state now then
    match trigger with
    | .scheduled => some .notDue
    | .manual => some (.rejected .tooSoon)
  else if trigger = .scheduled ∧ due cfg state now = .no then some .notDue
  else if cfg.mirrors.isEmpty ∨ MAX_MIRRORS < cfg.mirrors.length then some (.rejected .noMirrors)
  else none

/-- The search of a check that passed the gate. -/
def searchFrom (C : Crypto) (T : Transport) (cfg : Config) (trust : Trust) (state : State)
    (now : UInt64) : Search :=
  let state := state.begin cfg.mirrors.length now
  search C T cfg now (mirrorOrder state cfg.mirrors.length) state trust none []

/-- What an accepted release is good for. -/
def conclude (cfg : Config) (state : State) (release : Release) : Decision :=
  let data := release.data.filter fun d => state.dataVersion d.kind < d.version
  let rest := if data.isEmpty then .upToDate else .dataRefresh data
  match release.artifacts.find? fun a => a.platform = cfg.platform with
  | some artifact =>
      if state.installed.lt release.version then .updateAvailable release artifact data else rest
  | none => rest

/-- `check`: the outcome, and the exchanges it took. -/
def check (C : Crypto) (T : Transport) (cfg : Config) (trust : Trust) (state : State) (now : UInt64)
    (trigger : Trigger) : Outcome × Log :=
  match gate cfg state now trigger with
  | some decision => ({ decision, state, trust }, [])
  | none =>
      let s := searchFrom C T cfg trust state now
      match s.found with
      | some release =>
          let state := { s.state with
            lastCheck := now, maxSequence := max s.state.maxSequence release.sequence }
          ({ decision := conclude cfg state release, state, trust := s.trust }, s.log)
      | none =>
          ({ decision := .rejected (s.worst.getD .noMirrors), state := s.state, trust := s.trust },
            s.log)

end Pelorus.Update
