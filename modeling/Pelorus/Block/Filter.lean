import Pelorus.Block.Matcher
import Pelorus.Lib.Lossy

/-
  Block/Filter.lean --- the filter-list parser (`px-block/src/filter.rs`).

  A LINE is one thing: blank, a comment, a header, a cosmetic filter, or a network filter, and
  a network filter is a rule or is refused whole.

  A LIST is cut at a number of bytes, and what was decoded from it at the same number again.
-/
set_option autoImplicit false

namespace Pelorus.Block

open Lib

/-- Largest list text examined. -/
def MAX_LIST_BYTES : Nat := 16 * 1024 * 1024

/-- Longest accepted line. -/
def MAX_LINE_BYTES : Nat := 4096

/-- Most rules accepted from one list. -/
def MAX_RULES_PER_LIST : Nat := 500000

/-- Most `domain=` entries per rule. -/
def MAX_DOMAINS_PER_RULE : Nat := 128

/-- Longest `domain=` entry. -/
def MAX_DOMAIN_BYTES : Nat := 253

/-- `u32::MAX`. -/
def U32_MAX : Nat := 2 ^ 32 - 1

/-! ## Rules and reasons -/

def ResourceType.fromOption (name : Text) : Option ResourceType :=
  if name = "script".toList then some .script
  else if name = "image".toList then some .image
  else if name = "stylesheet".toList ∨ name = "css".toList then some .stylesheet
  else if name = "xmlhttprequest".toList ∨ name = "xhr".toList then some .xmlHttpRequest
  else if name = "subdocument".toList ∨ name = "frame".toList then some .subdocument
  else if name = "ping".toList then some .ping
  else if name = "media".toList then some .media
  else if name = "font".toList then some .font
  else if name = "other".toList then some .other
  else none

def TypeMask.DEFAULT : TypeMask :=
  ⟨ResourceType.script.bit ||| ResourceType.image.bit ||| ResourceType.stylesheet.bit |||
    ResourceType.xmlHttpRequest.bit ||| ResourceType.subdocument.bit ||| ResourceType.ping.bit |||
    ResourceType.media.bit ||| ResourceType.font.bit ||| ResourceType.other.bit⟩

def DomainConstraint.isEmpty (c : DomainConstraint) : Bool := c.include_.isEmpty && c.exclude.isEmpty

def Pattern.hasLiteral (pattern : Pattern) : Bool :=
  pattern.elems.any fun e => match e with
    | .lit _ => true
    | .sep | .star => false

/-- A rule with the place it was read from. -/
structure ListedRule extends Rule where
  line : Nat
  text : Text
  deriving DecidableEq

inductive RejectReason where
  | regex
  | unsupportedOption
  | lineTooLong
  | patternTooLong
  | invalidCharacters
  | matchAll
  | conflictingOptions
  | importantException
  | tooManyDomains
  | badDomain
  | overRuleCap
  deriving DecidableEq

/-- The place of a reason in the enumeration. -/
def RejectReason.rank : RejectReason → Nat
  | .regex => 0
  | .unsupportedOption => 1
  | .lineTooLong => 2
  | .patternTooLong => 3
  | .invalidCharacters => 4
  | .matchAll => 5
  | .conflictingOptions => 6
  | .importantException => 7
  | .tooManyDomains => 8
  | .badDomain => 9
  | .overRuleCap => 10

theorem RejectReason.rank_injective : Function.Injective RejectReason.rank := by
  intro a b h
  cases a <;> cases b <;> first | rfl | cases h

instance : LinearOrder RejectReason := LinearOrder.lift' RejectReason.rank RejectReason.rank_injective

/-! ## Kinds of lines -/

inductive Class where
  | blank
  | comment
  | header
  | cosmetic (scriptlet : Bool)
  | network
  deriving DecidableEq

def isDomainListChar (c : Char) : Bool :=
  c.isAlphanum || c = '.' || c = '-' || c = '_' || c = ',' || c = '~' || c = '*' || c = ':' || c = '[' || c = ']'

/-- A text up to a character, and from that character on. -/
def findSplit (c : Char) (s : Text) : Option (Text × Text) :=
  if c ∈ s then some (s.takeWhile fun d => d ≠ c, s.dropWhile fun d => d ≠ c) else none

/-- The markers of cosmetic filters, in the order in which they are tried. -/
def MARKERS : List Text :=
  ["#@$#".toList, "#@?#".toList, "#@%#".toList, "##".toList, "#@#".toList, "#?#".toList, "#$#".toList, "#%#".toList]

def cosmetic (line : Text) : Option Class :=
  let hash :=
    (findSplit '#' line).bind fun (lead, rest) =>
      if lead.all isDomainListChar then
        MARKERS.findSome? fun marker =>
          (Text.stripPrefix rest marker).map fun body =>
            Class.cosmetic ("+js(".toList.isPrefixOf body || "%#".toList.isSuffixOf marker)
      else none
  match hash with
  | some c => some c
  | none =>
      (findSplit '$' line).bind fun (lead, rest) =>
        if lead.all isDomainListChar && ("$$".toList.isPrefixOf rest || "$@$".toList.isPrefixOf rest) then
          some (.cosmetic false)
        else none

def classify (line : Text) : Class :=
  if line.isEmpty then .blank
  else if line.head? = some '!' then .comment
  else if line.head? = some '[' ∧ line.getLast? = some ']' then .header
  else
    match cosmetic line with
    | some c => c
    | none =>
        if line = ['#'] ∨ "# ".toList.isPrefixOf line ∨ "#\t".toList.isPrefixOf line then .comment
        else .network

/-! ## Network filters -/

/-- `rfind` of a character: before its last occurrence, and after. -/
def rsplitOnce (c : Char) (s : Text) : Option (Text × Text) :=
  (Text.splitOnce c s.reverse).map fun (after, before) => (before.reverse, after.reverse)

def isRegexFilter (body : Text) : Bool :=
  body.head? = some '/' &&
    (rsplitOnce '/' body).any fun (before, after) => !before.isEmpty && (after.isEmpty || after.head? = some '$')

def validDomain (d : Text) : Bool :=
  !d.isEmpty && d.len ≤ MAX_DOMAIN_BYTES && d.head? ≠ some '.' && d.getLast? ≠ some '.' &&
    !Text.containsText d "..".toList && d.all fun c => c.isAlphanum || c = '.' || c = '-' || c = '_'

/-- What the options of a filter have said so far. -/
structure Options where
  important : Bool
  matchCase : Bool
  thirdParty : Option Bool
  posTypes : UInt16
  negTypes : UInt16
  domains : DomainConstraint
  sawDomain : Bool

/-- Before any option. -/
def Options.init : Options where
  important := false
  matchCase := false
  thirdParty := none
  posTypes := 0
  negTypes := 0
  domains := ⟨[], []⟩
  sawDomain := false

/-- One entry of `domain=`. -/
def domainEntry (domains : DomainConstraint) (entry : Text) : Except RejectReason DomainConstraint :=
  let (ex, d) :=
    match Text.stripPrefix entry ['~'] with
    | some r => (true, r)
    | none => (false, entry)
  -- entities and regex domains
  if '*' ∈ d ∨ '/' ∈ d then .error .unsupportedOption
  else
    let d := Text.toAsciiLowercase d
    if !validDomain d then .error .badDomain
    else
      let domains : DomainConstraint :=
        if ex then { domains with exclude := domains.exclude ++ [d] }
        else { domains with include_ := domains.include_ ++ [d] }
      if MAX_DOMAINS_PER_RULE < domains.include_.length + domains.exclude.length then .error .tooManyDomains
      else .ok domains

/-- `sort` and `dedup`. -/
def sortDedup (l : List Text) : List Text := (l.insertionSort fun a b => a.utf8 ≤ b.utf8).dedup

/-- One option of a filter. -/
def addOption (o : Options) (opt : Text) : Except RejectReason Options :=
  if opt.isEmpty then .ok o
  else
    let (neg, opt) :=
      match Text.stripPrefix opt ['~'] with
      | some r => (true, r)
      | none => (false, opt)
    let (name, value) :=
      match Text.splitOnce '=' opt with
      | some (n, v) => (n, some v)
      | none => (opt, none)
    let name := Text.toAsciiLowercase name
    match value with
    | none =>
        if name = "third-party".toList ∨ name = "3p".toList ∨ name = "first-party".toList ∨ name = "1p".toList then
          let want := if name = "first-party".toList ∨ name = "1p".toList then neg else !neg
          if o.thirdParty.any fun prev => prev ≠ want then .error .conflictingOptions
          else .ok { o with thirdParty := some want }
        else if name = "important".toList ∧ !neg then .ok { o with important := true }
        else if name = "match-case".toList ∧ !neg then .ok { o with matchCase := true }
        else
          match ResourceType.fromOption name with
          | some t =>
              if neg then .ok { o with negTypes := o.negTypes ||| t.bit }
              else .ok { o with posTypes := o.posTypes ||| t.bit }
          | none => .error .unsupportedOption
    | some v =>
        if name = "domain".toList ∧ !neg then
          if o.sawDomain then .error .conflictingOptions
          else do
            let domains ← (v.splitOn '|').foldlM domainEntry o.domains
            pure { o with
              sawDomain := true
              domains := { include_ := sortDedup domains.include_, exclude := sortDedup domains.exclude } }
        else .error .unsupportedOption

/-- The reason for which a pattern is refused. -/
def patternReason : PatternError → RejectReason
  | .tooLong => .patternTooLong
  | .invalidCharacter => .invalidCharacters

/-- The end of `parse_network_filter`: what the options and the pattern make. -/
def finishFilter (line : Text) (lineno : Nat) (exception : Bool) (patternText : Text) (o : Options) :
    Except RejectReason ListedRule :=
  if exception && o.important then .error .importantException
  else
    let base := if o.posTypes = 0 then TypeMask.DEFAULT.bits else o.posTypes
    let types : TypeMask := ⟨base &&& ~~~o.negTypes⟩
    if types.bits = 0 then .error .conflictingOptions
    else
      let constrained := o.posTypes ≠ 0 || o.negTypes ≠ 0 || o.thirdParty.isSome || !o.domains.isEmpty
      match Pattern.fromText patternText o.matchCase with
      | .error e => .error (patternReason e)
      | .ok pattern =>
          if !pattern.hasLiteral && !constrained then .error .matchAll
          else
            .ok { exception, important := o.important, matchCase := o.matchCase, pattern, types,
                  thirdParty := o.thirdParty, domains := o.domains, line := lineno, text := line }

/-- `parse_network_filter`, after the mark of an exception. -/
def parseFilterBody (line : Text) (lineno : Nat) (exception : Bool) (body : Text) : Except RejectReason ListedRule :=
  if isRegexFilter body then .error .regex
  else
    let parts := (rsplitOnce '$' body).getD (body, [])
    match (parts.2.splitOn ',').foldlM addOption Options.init with
    | .error reason => .error reason
    | .ok o => finishFilter line lineno exception parts.1 o

def parseNetworkFilter (line : Text) (lineno : Nat) : Except RejectReason ListedRule :=
  match Text.stripPrefix line "@@".toList with
  | some rest => parseFilterBody line lineno true rest
  | none => parseFilterBody line lineno false line

/-! ## Lists -/

/-- Counters for one parse. -/
structure ParseStats where
  lines : Nat
  blank : Nat
  comments : Nat
  headers : Nat
  cosmeticSkipped : Nat
  scriptletSkipped : Nat
  accepted : Nat
  exceptions : Nat
  rejected : SortedMap RejectReason Nat
  truncated : Bool

def ParseStats.default : ParseStats where
  lines := 0
  blank := 0
  comments := 0
  headers := 0
  cosmeticSkipped := 0
  scriptletSkipped := 0
  accepted := 0
  exceptions := 0
  rejected := .empty
  truncated := false

def ParseStats.rejectedFor (stats : ParseStats) (reason : RejectReason) : Nat := (stats.rejected.get? reason).getD 0

def ParseStats.rejectedTotal (stats : ParseStats) : Nat := stats.rejected.sum fun _ n => n

/-- One line more was refused for a reason. -/
def ParseStats.reject (stats : ParseStats) (reason : RejectReason) : ParseStats :=
  { stats with rejected := stats.rejected.insert reason (stats.rejectedFor reason + 1) }

/-- The rules of a list with their places, and what was seen. -/
structure ReadList where
  rules : List ListedRule
  stats : ParseStats

/-- One turn of the loop of `parse_list`, at the line with this index. -/
def readLine (list : ReadList) (idx : Nat) (raw : Text) : ReadList :=
  let lineno := min (idx + 1) U32_MAX
  let stats := { list.stats with lines := list.stats.lines + 1 }
  if MAX_LINE_BYTES < raw.len then { list with stats := stats.reject .lineTooLong }
  else
    let line := raw.trim
    match classify line with
    | .blank => { list with stats := { stats with blank := stats.blank + 1 } }
    | .comment => { list with stats := { stats with comments := stats.comments + 1 } }
    | .header => { list with stats := { stats with headers := stats.headers + 1 } }
    | .cosmetic scriptlet =>
        { list with stats := { stats with
            cosmeticSkipped := stats.cosmeticSkipped + 1
            scriptletSkipped := if scriptlet then stats.scriptletSkipped + 1 else stats.scriptletSkipped } }
    | .network =>
        if MAX_RULES_PER_LIST ≤ list.rules.length then
          { list with stats := ParseStats.reject { stats with truncated := true } .overRuleCap }
        else
          match parseNetworkFilter line lineno with
          | .ok rule =>
              { rules := list.rules ++ [rule]
                stats := { stats with
                  accepted := stats.accepted + 1
                  exceptions := if rule.exception then stats.exceptions + 1 else stats.exceptions } }
          | .error reason => { list with stats := stats.reject reason }

/-- The loop of `parse_list`, from the line with this index on. -/
def readLines (list : ReadList) : Nat → List Text → ReadList
  | _, [] => list
  | idx, raw :: lines => readLines (readLine list idx raw) (idx + 1) lines

/-- As much of a text as fits into a number of bytes: the cut, walked back to a character boundary. -/
def fitting : Nat → Text → Text
  | _, [] => []
  | n, c :: s => if c.utf8Size ≤ n then c :: fitting (n - c.utf8Size) s else []

/-- `strip_prefix` of the byte order mark. -/
def stripMark (text : Text) : Text := (Text.stripPrefix text [Char.ofNat 0xFEFF]).getD text

/-- What is parsed of a text: no more than the cap, and no partial line. -/
def keptText (text : Text) : Text :=
  if MAX_LIST_BYTES < text.len then (fitting MAX_LIST_BYTES text).rdropWhile fun c => c ≠ '\n' else text

def parseList (text : Text) : ReadList :=
  let text := stripMark text
  let stats := { ParseStats.default with truncated := MAX_LIST_BYTES < text.len }
  readLines ⟨[], stats⟩ 0 ((keptText text).splitOn '\n')

def parseListBytes (bytes : Bytes) : ReadList :=
  let cut := MAX_LIST_BYTES < bytes.length
  let list := parseList (Text.fromUtf8Lossy (bytes.take MAX_LIST_BYTES))
  { list with stats := { list.stats with truncated := list.stats.truncated || cut } }

end Pelorus.Block
