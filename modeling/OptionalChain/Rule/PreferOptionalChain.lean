import OptionalChain.Guard.Fallback
import OptionalChain.Guard.Replacement
import OptionalChain.Node.Walk
import OptionalChain.Rule.Basic
import OptionalChain.Typing.Resolve

/-!
# The rule for optional chains

Every run of `&&` or `||` is searched for chains once, from its outermost node, and every
member access for an empty-object fallback. Templates, spreads and markup containers are
left alone. A report that takes a cut inside a character cannot be made, and then the whole
check gives no result.
-/

namespace OptionalChain.PreferOptionalChain

def info : RuleInfo where
  id := "Q022"
  name := "prefer-optional-chain"
  description := "Enforce concise optional chain expressions instead of chained logical ands, " ++
    "negated logical ors, or empty objects"
  severity := .warning
  examples? := some <|
    "// Bad\nfoo && foo.a && foo.a.b && foo.a.b.c;\n!foo || !foo.bar;\n" ++
      "(foo || \x7b\x7d).bar;\n\n// Good\nfoo?.a?.b?.c;\n!foo?.bar;\nfoo?.bar;"

def messageId : String := "preferOptionalChain"

def suggestMessageId : String := "optionalChainSuggest"

def message : String :=
  "Prefer using an optional chain expression instead, as it's more concise and easier to read."

/-- What the rule works with on one file. -/
structure Context where
  file : SourceFile
  oracle : Oracle
  options : ChainOptions

namespace Context

variable (c : Context)

def region? (s : Span) : Option Region := do
  let first ← c.file.locate? s.lo
  let last ← c.file.locate? s.hi
  return ⟨first, last, c.file.clamp s.lo, c.file.clamp s.hi⟩

def fix (region : Region) (replacement : List Char) (v : Verdict) : Fix :=
  if v = .safe ∨ c.options.allowUnsafeFixes then
    { title := "Use an optional chain", newText := replacement, region }
  else
    { title := "Change to an optional chain.", newText := replacement, region
      applicability := .suggestion, messageId? := some suggestMessageId }

def diagnostic (region : Region) (replacement : List Char) (v : Verdict) : Diagnostic where
  ruleId := info.id
  messageId? := some messageId
  severity := info.severity
  confidence := if v = .safe then .high else .medium
  message := message
  file := c.file.name
  region
  suggestion? := some ("Replace with '" ++ String.ofList replacement ++ "'")
  fixes := [c.fix region replacement v]

def finder (style : ChainStyle) : ChainFinder :=
  ⟨c.file, style, c.oracle, c.options⟩

def chainReport? (x : Chain) : Option (Diagnostic × Event) := do
  let replacement ← x.replacement? c.file
  let region ← c.region? x.span
  return (c.diagnostic region replacement x.verdict,
    .chain c.file.name x.style x.operands x.guards.length x.verdict)

/-- Reports for the chains of one run. -/
def runReport? (style : ChainStyle) (operands : List Node) : Option Report := do
  let reports ← ((c.finder style).find operands).mapM c.chainReport?
  return {
    diagnostics := reports.map Prod.fst
    events := ((c.finder style).truncations operands).map .truncated ++ reports.map Prod.snd }

/-- The report for a member access on a fallback that is not disqualified. -/
def fallbackReport? (n : Node) : Option Report :=
  match Fallback.of? n with
  | none => some {}
  | some b =>
    let v := b.verdict c.oracle c.options
    if v = .disqualified then some {}
    else do
      let region ← c.region? n.span
      return {
        diagnostics := [c.diagnostic region (b.replacement c.file) v]
        events := [.fallback c.file.name v] }

end Context

/-! ## The visitor -/

/-- Runs that were searched from an outer node, regions to leave alone, and the report. -/
structure State where
  consumed : List Span := []
  skipped : List Span := []
  report : Report := {}

/-- The nodes of a run below its outermost one, by their spans. -/
def nestedSpans (style : ChainStyle) : Node → List Span
  | .binary op s left right =>
    if op = style.op then s :: (nestedSpans style left ++ nestedSpans style right) else []
  | _ => []

namespace State

def isSkipped (t : State) (s : Span) : Bool :=
  t.skipped.any (s.within ·)

def skip (t : State) (s : Span) : State :=
  { t with skipped := t.skipped ++ [s] }

def add (t : State) (r : Report) : State :=
  { t with
    report :=
      { diagnostics := t.report.diagnostics ++ r.diagnostics
        events := t.report.events ++ r.events } }

/-- Searches a run from its outermost node. -/
def visitRun? (c : Context) (t : State) (style : ChainStyle) (s : Span) (left right : Node) :
    Option State :=
  if t.consumed.contains s || t.isSkipped s then some t
  else
    (c.runReport? style (left.flatten style ++ right.flatten style)).map
      { t with consumed := t.consumed ++ nestedSpans style left ++ nestedSpans style right }.add

def visit? (c : Context) (hook : Hook) (n : Node) (t : State) : Option State :=
  match hook, n with
  | .binary, .binary op s left right =>
    match ChainStyle.ofOp? op with
    | some style => t.visitRun? c style s left right
    | none => some t
  | .member, n => if t.isSkipped n.span then some t else (c.fallbackReport? n).map t.add
  | .argument, .mk (.argument true) s _ => some (t.skip s)
  | .template, n | .spread, n | .container, n | .spreadChild, n => some (t.skip n.span)
  | _, _ => some t

end State

/-- A report that cannot be made ends the walk, and no state is left. -/
def visitor (c : Context) : Visitor (Option State) := fun hook n t? =>
  match t?.bind (·.visit? c hook n) with
  | some t => .go (some t)
  | none => .stop none

def checkProgram? (c : Context) (program : Node) : Option Report :=
  (program.walk (visitor c) (some {})).state.map (·.report)

def check? (options : ChainOptions) (f : SourceFile) : Option Report :=
  match f.program? with
  | none => some {}
  | some program => checkProgram? ⟨f, (Declarations.ofProgram program).oracle, options⟩ program

end PreferOptionalChain

def preferOptionalChain (options : ChainOptions) : Rule :=
  ⟨PreferOptionalChain.info, PreferOptionalChain.check? options⟩

end OptionalChain
