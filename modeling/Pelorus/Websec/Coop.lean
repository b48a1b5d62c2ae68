import Pelorus.Websec.Cors

/-
  Websec/Coop.lean --- opener, embedder and resource policies, and secure contexts
  (`px-websec/src/coop.rs`).
-/
set_option autoImplicit false
set_option linter.dupNamespace false

namespace Pelorus.Websec.Coop

open Lib Lib.Text Websec.Cors

def MAX_HEADER_BYTES : Nat := 2048

/-! ## Structured items -/

structure SfItem where
  token : Text
  reportTo : Option Text
  deriving DecidableEq

def isSfTokenChar (c : Char) : Bool := c.isAlphanum || ("!#$%&'*+-.^_|~:/".toList).contains c || c.toNat = 0x60

def isSfTokenStart (c : Char) : Bool := c.isAlpha || c = '*'

/-- A quoted string up to its closing quote, and what is after it. -/
def sfString : Text → Option (Text × Text)
  | [] => none
  | '"' :: rest => some ([], rest)
  | '\\' :: c :: rest =>
      if c = '"' ∨ c = '\\' then (sfString rest).map fun r => (c :: r.1, r.2) else none
  | c :: rest =>
      if c ≠ '\\' ∧ isPrintable c then (sfString rest).map fun r => (c :: r.1, r.2) else none

/-- What is after a number. -/
def sfNumber (s : Text) : Option Text :=
  let (digits, rest) := s.span Char.isDigit
  if digits.isEmpty || 15 < digits.length then none
  else
    match rest with
    | '.' :: fraction =>
        let (decimals, rest) := fraction.span Char.isDigit
        if 12 < digits.length || decimals.isEmpty || 3 < decimals.length then none else some rest
    | _ => some rest

/-- The value of a parameter, where it is a string, and what is after it. -/
def sfValue : Text → Option (Option Text × Text)
  | '"' :: rest => (sfString rest).map fun r => (some r.1, r.2)
  | '?' :: b :: rest => if b = '0' ∨ b = '1' then some (none, rest) else none
  | '-' :: rest => (sfNumber rest).map fun rest => (none, rest)
  | ':' :: rest =>
      match rest.dropWhile fun c => c.isAlphanum || c = '+' || c = '/' || c = '=' with
      | ':' :: rest => some (none, rest)
      | _ => none
  | c :: rest =>
      if c.isDigit then (sfNumber (c :: rest)).map fun rest => (none, rest)
      else if isSfTokenStart c then some (none, rest.dropWhile isSfTokenChar)
      else none
  | [] => none

/-- The value of `report-to` after the parameters, where it was `reportTo` before them.  Each
parameter takes a character at least, so the length of the text bounds their number. -/
def sfParameters : Nat → Option Text → Text → Option (Option Text)
  | 0, _, _ => none
  | fuel + 1, reportTo, s =>
      match s.dropWhile fun c => c = ' ' || c = '\t' with
      | [] => some reportTo
      | ';' :: rest =>
          match rest.dropWhile fun c => c = ' ' with
          | [] => none
          | first :: rest =>
              if !(first.isLower || first = '*') then none
              else
                let (more, rest) :=
                  rest.span fun c => c.isLower || c.isDigit || c = '_' || c = '-' || c = '.' || c = '*'
                let isReportTo := first :: more = "report-to".toList
                match rest with
                | '=' :: rest =>
                    match sfValue rest with
                    | some (val, rest) =>
                        sfParameters fuel (if isReportTo then val else reportTo) rest
                    | none => none
                | _ => sfParameters fuel (if isReportTo then none else reportTo) rest
      | _ => none

def parseSfTokenItem (input : Text) : Option SfItem :=
  if MAX_HEADER_BYTES < input.len || !isAscii input then none
  else
    let isBlank (c : Char) : Bool := c = ' ' || c = '\t'
    match trimEndMatches isBlank (trimStartMatches isBlank input) with
    | [] => none
    | first :: rest =>
        if !isSfTokenStart first then none
        else
          let (more, rest) := rest.span isSfTokenChar
          (sfParameters (rest.length + 1) none rest).map fun reportTo => ⟨first :: more, reportTo⟩

/-! ## Embedder and opener policies -/

inductive Coep where
  | unsafeNone
  | requireCorp
  | credentialless
  deriving DecidableEq

def Coep.isIsolationCompatible : Coep → Bool
  | .requireCorp | .credentialless => true
  | .unsafeNone => false

structure EmbedderPolicy where
  value : Coep
  reportTo : Option Text
  deriving DecidableEq

def parseCoep (header : Option Text) : EmbedderPolicy :=
  match header.bind parseSfTokenItem with
  | none => { value := .unsafeNone, reportTo := none }
  | some item =>
      { value :=
          if item.token = "require-corp".toList then .requireCorp
          else if item.token = "credentialless".toList then .credentialless
          else .unsafeNone
        reportTo := item.reportTo }

inductive Coop where
  | unsafeNone
  | sameOriginAllowPopups
  | sameOrigin
  | sameOriginPlusCoep
  deriving DecidableEq

structure OpenerPolicy where
  value : Coop
  reportTo : Option Text
  deriving DecidableEq

def parseCoop (header : Option Text) (coep : Coep) : OpenerPolicy :=
  match header.bind parseSfTokenItem with
  | none => { value := .unsafeNone, reportTo := none }
  | some item =>
      { value :=
          if item.token = "same-origin".toList then
            if coep.isIsolationCompatible then .sameOriginPlusCoep else .sameOrigin
          else if item.token = "same-origin-allow-popups".toList then .sameOriginAllowPopups
          else .unsafeNone
        reportTo := item.reportTo }

/-! ## Resource policies -/

inductive Corp where
  | sameOrigin
  | sameSite
  | crossOrigin
  deriving DecidableEq

def parseCorp : List Text → Option Corp
  | [line] =>
      let isBlank (c : Char) : Bool := c = ' ' || c = '\t' || c = '\n' || c = '\r'
      let v := trimEndMatches isBlank (trimStartMatches isBlank line)
      if v = "same-origin".toList then some .sameOrigin
      else if v = "same-site".toList then some .sameSite
      else if v = "cross-origin".toList then some .crossOrigin
      else none
  | _ => none

inductive CorpVerdict where
  | allowed
  | blocked
  deriving DecidableEq

structure CorpResponse where
  url : Url
  corp : Option Corp
  requestIncludesCredentials : Bool

def corpInternal (fresh : UInt64) (origin : Origin) (embedder : Coep) (response : CorpResponse)
    (forNavigation : Bool) (resolver : SiteResolver) : CorpVerdict :=
  if forNavigation = true ∧ embedder = .unsafeNone then .allowed
  else
    let policy :=
      response.corp.orElse fun _ =>
        match embedder with
        | .unsafeNone => none
        | .credentialless =>
            if response.requestIncludesCredentials || forNavigation then some .sameOrigin else none
        | .requireCorp => some .sameOrigin
    let respOrigin := Origin.fromUrl fresh response.url
    match policy with
    | none | some .crossOrigin => .allowed
    | some .sameOrigin => if origin.sameOrigin respOrigin then .allowed else .blocked
    | some .sameSite =>
        if schemelesslySameSite origin respOrigin resolver &&
            (origin.scheme? = some "https".toList || response.url.scheme ≠ "https".toList) then .allowed
        else .blocked

def corpCheck (fresh : UInt64) (origin : Origin) (embedder : Coep) (response : CorpResponse)
    (forNavigation : Bool) (resolver : SiteResolver) : CorpVerdict :=
  if corpInternal fresh origin .unsafeNone response forNavigation resolver = .blocked then .blocked
  else corpInternal fresh origin embedder response forNavigation resolver

def coepCheckResponse (fresh : UInt64) (origin : Origin) (embedder : Coep) (tainting : Tainting)
    (response : CorpResponse) (resolver : SiteResolver) : CorpVerdict :=
  match tainting with
  | .opaque_ => corpCheck fresh origin embedder response false resolver
  | .basic | .cors => .allowed

def coepNavigationCheck (parent response : Coep) : CorpVerdict :=
  if parent.isIsolationCompatible && !response.isIsolationCompatible then .blocked else .allowed

def isSecureContext (chain : List Mixed.ContextNode) : Bool :=
  !chain.isEmpty && chain.all Mixed.ContextNode.isTrustworthy

end Pelorus.Websec.Coop
