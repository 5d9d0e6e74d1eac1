import OptionalChain.Config.Basic
import OptionalChain.Rule.Basic

/-!
# Registries

Rules in the order of their registration, and the settings they run under.
-/

namespace OptionalChain

/-- What decides which reports come out: the references that are turned off, the severities set
by reference, whether rules on quality run, and the least confidence. -/
structure RuleSettings where
  disabled : List String := []
  severity : List (String × Severity) := []
  quality : Bool := true
  minConfidence : Confidence := .low
deriving DecidableEq, Repr

namespace RuleSettings

def disable (s : RuleSettings) (ref : String) : RuleSettings :=
  { s with disabled := s.disabled.insert ref }

/-- Sets the severity of a reference, in place of the one it had. -/
def setSeverity (s : RuleSettings) (ref : String) (severity : Severity) : RuleSettings :=
  { s with severity := (ref, severity) :: s.severity.filter (·.1 != ref) }

def clear (s : RuleSettings) : RuleSettings :=
  { s with disabled := [], severity := [] }

/-- Takes over the settings of a configuration, one after the other. -/
def configure (s : RuleSettings) (c : RulesConfig) : RuleSettings :=
  let s := c.disabled.foldl disable s.clear
  -- A reference is given once, so the order of the severities does not count.
  let s := c.severity.foldr (fun (ref, severity) s => s.setSeverity ref severity) s
  { s with
    quality := c.quality?.getD true
    minConfidence := c.minConfidence?.getD .low }

def allows (s : RuleSettings) (r : RuleInfo) : Bool :=
  (s.quality || r.category != .quality) &&
    !s.disabled.contains r.id && !s.disabled.contains r.name

/-- The severity set for a rule; its identifier is looked up before its name. -/
def severityOf? (s : RuleSettings) (r : RuleInfo) : Option Severity :=
  s.severity.lookup r.id <|> s.severity.lookup r.name

def adjust (s : RuleSettings) (r : RuleInfo) (d : Diagnostic) : Diagnostic :=
  match s.severityOf? r with
  | some severity => { d with severity }
  | none => d

/-- The reports of one rule that come out. -/
def filter (s : RuleSettings) (r : RuleInfo) (ds : List Diagnostic) : List Diagnostic :=
  (ds.filter (s.minConfidence.level ≤ ·.confidence.level)).map (s.adjust r)

end RuleSettings

structure Registry where
  rules : List Rule := []
  settings : RuleSettings := {}

namespace Registry

variable (r : Registry)

def register (rule : Rule) : Registry :=
  { r with rules := r.rules ++ [rule] }

def configure (c : RulesConfig) : Registry :=
  { r with settings := r.settings.configure c }

def size : Nat := r.rules.length

def runRule? (f : SourceFile) (rule : Rule) : Option Report :=
  if r.settings.allows rule.info then do
    let report ← rule.check? f
    return { report with diagnostics := r.settings.filter rule.info report.diagnostics }
  else some {}

/-- The reports of all rules that are allowed to run. If one gives up, there are none. -/
def runAll? (f : SourceFile) : Option Report := do
  let reports ← r.rules.mapM (r.runRule? f)
  return ⟨reports.flatMap (·.diagnostics), reports.flatMap (·.events)⟩

def ruleById? (id : String) : Option Rule :=
  r.rules.find? (·.info.id == id)

def ruleByName? (name : String) : Option Rule :=
  r.rules.find? (·.info.name == name)

def isEnabled (ref : String) : Bool :=
  (r.ruleById? ref <|> r.ruleByName? ref).any (r.settings.allows ·.info)

/-- Identifier and name of the rule with an identifier. -/
def refs? (id : String) : Option (String × String) :=
  (r.ruleById? id).map fun rule => (rule.info.id, rule.info.name)

end Registry

end OptionalChain
