import Pelorus.Block.Glob
import Pelorus.Lib.SortedMap
import Pelorus.Websec.Origin

/-
  Block/Matcher.lean --- the rule index and `check_request` (`px-block/src/matcher.rs`, and the
  rules of `px-block/src/filter.rs`).

  A RULE is filed under the rarest token of its pattern, or with those that have none; a request
  is shown the rules that are filed under a token of its URL, and those.
-/
set_option autoImplicit false

namespace Pelorus.Block

open Lib Websec

def MAX_TOTAL_RULES : Nat := 1000000

/-! ## Rules -/

inductive ResourceType where
  | script
  | image
  | stylesheet
  | xmlHttpRequest
  | subdocument
  | ping
  | media
  | font
  | other
  | document
  deriving DecidableEq

/-- The place of a type in the enumeration. -/
def ResourceType.index : ResourceType → UInt16
  | .script => 0
  | .image => 1
  | .stylesheet => 2
  | .xmlHttpRequest => 3
  | .subdocument => 4
  | .ping => 5
  | .media => 6
  | .font => 7
  | .other => 8
  | .document => 9

def ResourceType.bit (t : ResourceType) : UInt16 := 1 <<< t.index

structure TypeMask where
  bits : UInt16
  deriving DecidableEq

def TypeMask.contains (mask : TypeMask) (t : ResourceType) : Bool := mask.bits &&& t.bit ≠ 0

/-- `domain=`. -/
structure DomainConstraint where
  include_ : List Text
  exclude : List Text
  deriving DecidableEq

def hostUnder (host domain : Text) : Bool :=
  host = domain || (Text.stripSuffix host domain).any fun p => p.getLast? = some '.'

def DomainConstraint.allows (c : DomainConstraint) (host : Option Text) : Bool :=
  let host := host.getD []
  let best : Option (Nat × Bool) :=
    c.include_.foldl
      (fun best d =>
        if hostUnder host d && best.all fun b => b.1 < d.len then some (d.len, false) else best)
      none
  let best :=
    c.exclude.foldl
      (fun best d =>
        if hostUnder host d && best.all fun b => b.1 ≤ d.len then some (d.len, true) else best)
      best
  match best with
  | some (_, excluded) => !excluded
  | none => c.include_.isEmpty

/-- What decides whether a rule applies, and what it does. -/
structure Rule where
  exception : Bool
  important : Bool
  matchCase : Bool
  pattern : Pattern
  types : TypeMask
  thirdParty : Option Bool
  domains : DomainConstraint
  deriving DecidableEq

structure ParsedList where
  rules : List Rule
  deriving DecidableEq

/-! ## Requests -/

/-- The decision for one request. -/
inductive Verdict where
  | allow
  | block (ruleId : Nat)
  | allowedByException (ruleId : Nat)
  deriving DecidableEq

structure Request where
  url : Url
  sourceOrigin : Option Origin
  resourceType : ResourceType
  isThirdParty : Bool
  deriving DecidableEq

/-- The URL string a rule is matched against. -/
structure Target where
  full : Text
  lower : Text
  host : Nat × Nat
  deriving DecidableEq

namespace Target

def build (url : Url) (host : Text) : Option Target :=
  if ["http", "https", "ws", "wss", "ftp"].all fun s => s.toList ≠ url.scheme then none
  else
    let front := url.scheme ++ "://".toList
    let port :=
      match url.port with
      | some p => ':' :: Nat.toDigits 10 p.toNat
      | none => []
    let query :=
      match url.query with
      | some q => '?' :: q
      | none => []
    let full := front ++ host ++ port ++ url.path ++ query
    some { full, lower := Text.toAsciiLowercase full, host := (front.len, front.len + host.len) }

def fromUrl (url : Url) : Option Target := url.host.bind fun host => build url host.serialize

end Target

/-! ## The index -/

/-- A token as a key of the index. -/
structure IndexKey where
  token : Bytes
  deriving DecidableEq

theorem toNat_injective : Function.Injective fun key : IndexKey => key.token.map UInt8.toNat := by
  rintro ⟨a⟩ ⟨b⟩ h
  have hinj : Function.Injective (List.map UInt8.toNat) :=
    List.map_injective_iff.mpr fun _ _ hxy => UInt8.toNat_inj.mp hxy
  exact congrArg IndexKey.mk (hinj h)

/-- Keys are ordered bytewise. -/
instance : LinearOrder IndexKey := LinearOrder.lift' _ toNat_injective

structure Entry where
  rule : Rule
  list : UInt16
  deriving DecidableEq

structure MatcherBuilder where
  lists : List (Text × ParsedList)

structure Matcher where
  entries : List Entry
  listNames : List Text
  index : SortedMap IndexKey (List Nat)
  untokenized : List Nat
  dropped : Nat

/-- A number as a `u32`, the largest one if it is none. -/
def saturated32 (n : Nat) : Nat := if n < 2 ^ 32 then n else 2 ^ 32 - 1

/-- `min_by`: the first of the least. -/
def minBy {α : Type} (less : α → α → Bool) : List α → Option α
  | [] => none
  | a :: rest => some (rest.foldl (fun best x => if less x best then x else best) a)

/-- A token is the better key: fewer rules could use it, or as many and it is longer, or as long and it comes first. -/
def betterKey (freq : SortedMap IndexKey Nat) (a b : Bytes) : Bool :=
  let fa := (freq.get? ⟨a⟩).getD 0
  let fb := (freq.get? ⟨b⟩).getD 0
  decide (fa < fb) || (decide (fa = fb) && (decide (b.length < a.length) || (decide (a.length = b.length) && decide (a < b))))

namespace MatcherBuilder

def new : MatcherBuilder := ⟨[]⟩

def addList (builder : MatcherBuilder) (name : Text) (list : ParsedList) : MatcherBuilder :=
  if builder.lists.length < 0xFFFF then ⟨builder.lists ++ [(name, list)]⟩ else builder

/-- The rules of the lists, up to as many as are held, and how many are dropped. -/
def collect : List (Nat × ParsedList) → List Entry × Nat → List Entry × Nat
  | [], held => held
  | (li, list) :: lists, held =>
      collect lists
        (list.rules.foldl
          (fun held rule =>
            if MAX_TOTAL_RULES ≤ held.1.length then (held.1, held.2 + 1)
            else (held.1 ++ [⟨rule, if li < 2 ^ 16 then UInt16.ofNat li else 0xFFFF⟩], held.2))
          held)

/-- How many rules could use each token. -/
def frequencies (entries : List Entry) : SortedMap IndexKey Nat :=
  entries.foldl
    (fun freq e =>
      e.rule.pattern.indexTokens.foldl (fun freq t => freq.insert ⟨t⟩ ((freq.get? ⟨t⟩).getD 0 + 1)) freq)
    .empty

/-- File a rule under its rarest token. -/
def fileUnder (freq : SortedMap IndexKey Nat) (filed : SortedMap IndexKey (List Nat) × List Nat) (e : Entry × Nat) :
    SortedMap IndexKey (List Nat) × List Nat :=
  let id := saturated32 e.2
  match minBy (betterKey freq) e.1.rule.pattern.indexTokens with
  | some t => (filed.1.insert ⟨t⟩ ((filed.1.get? ⟨t⟩).getD [] ++ [id]), filed.2)
  | none => (filed.1, filed.2 ++ [id])

def build (builder : MatcherBuilder) : Matcher :=
  let held := collect ((builder.lists.map Prod.snd).mapIdx fun i list => (i, list)) ([], 0)
  let filed := held.1.zipIdx.foldl (fileUnder (frequencies held.1)) (.empty, [])
  { entries := held.1
    listNames := builder.lists.map Prod.fst
    index := filed.1
    untokenized := filed.2
    dropped := held.2 }

end MatcherBuilder

/-! ## Checking -/

/-- The text that a rule is matched against. -/
def Rule.textOf (rule : Rule) (target : Target) : Bytes :=
  if rule.matchCase then target.full.utf8 else target.lower.utf8

/-- The type mask, the third-party option, the domain constraint and the pattern of a rule all match. -/
def Rule.applies (rule : Rule) (target : Target) (sourceHost : Option Text) (ty : ResourceType) (thirdParty : Bool) :
    Bool :=
  rule.types.contains ty && rule.thirdParty.all (fun want => want = thirdParty) && rule.domains.allows sourceHost &&
    rule.pattern.matches (rule.textOf target) (some target.host)

namespace Matcher

/-- The rules that a target is shown, in order. -/
def candidates (m : Matcher) (target : Target) : List Nat :=
  ((m.untokenized ++ (urlTokens target.lower.utf8).flatMap fun t => (m.index.get? ⟨t⟩).getD []).insertionSort
    fun a b => a ≤ b).dedup

/-- The loop of `check_target`, with the first exception and the first block that were found. -/
def decideFrom (m : Matcher) (target : Target) (sourceHost : Option Text) (ty : ResourceType) (thirdParty : Bool) :
    Option Nat → Option Nat → List Nat → Verdict
  | some id, _, [] => .allowedByException id
  | none, some id, [] => .block id
  | none, none, [] => .allow
  | exception, block, id :: cands =>
      match m.entries[id]? with
      | none => decideFrom m target sourceHost ty thirdParty exception block cands
      | some e =>
          if !e.rule.applies target sourceHost ty thirdParty then
            decideFrom m target sourceHost ty thirdParty exception block cands
          else if e.rule.exception then
            decideFrom m target sourceHost ty thirdParty (exception.or (some id)) block cands
          else if e.rule.important then .block id
          else decideFrom m target sourceHost ty thirdParty exception (block.or (some id)) cands

def checkTarget (m : Matcher) (target : Target) (sourceHost : Option Text) (ty : ResourceType) (thirdParty : Bool) :
    Verdict :=
  if ty = .document then .allow
  else m.decideFrom target sourceHost ty thirdParty none none (m.candidates target)

end Matcher

def sourceHost (origin : Option Origin) : Option Text :=
  match origin.bind Origin.host? with
  | none | some .empty => none
  | some h => some h.serialize

def checkRequest (m : Matcher) (req : Request) : Verdict :=
  match Target.fromUrl req.url with
  | none => .allow
  | some target => m.checkTarget target (sourceHost req.sourceOrigin) req.resourceType req.isThirdParty

end Pelorus.Block
