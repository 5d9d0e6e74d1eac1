import OptionalChain.Rule.PreferOptionalChain
import OptionalChain.Rule.Registry

/-!
# Analysis

Syntax errors of a file come first, then what the rules report. Directives in the file take
out what they name. Where a rule gives up, the analysis gives no result.
-/

namespace OptionalChain

structure Engine where
  registry : Registry

namespace Engine

def ofConfig (c : Config) : Engine :=
  ⟨(({} : Registry).register (preferOptionalChain c.rules.chain)).configure c.rules⟩

/-- The rule reference of syntax errors. -/
def parseRuleId : String := "PARSE"

def issueDiagnostic (f : SourceFile) (e : SyntaxIssue) : Diagnostic where
  ruleId := parseRuleId
  severity := .error
  message := e.message
  file := f.name
  region := ⟨⟨e.line, e.column⟩, ⟨e.line, e.column⟩, 0, 0⟩

variable (e : Engine)

/-- The references by which directives can name the rule of a diagnostic. -/
def refsOf (d : Diagnostic) : List String :=
  match e.registry.refs? d.ruleId with
  | some (id, name) => [id, name]
  | none => [d.ruleId]

/-- What is left of diagnostics under directives. -/
def unsuppressed (ds : Directives) (diagnostics : List Diagnostic) : List Diagnostic :=
  diagnostics.filter fun d => !ds.isDisabled d.line (e.refsOf d)

def issuesUnder (ds : Directives) (f : SourceFile) : List Diagnostic :=
  (f.issues.map (issueDiagnostic f)).filter fun d => !ds.isDisabled d.line [parseRuleId]

/-- The diagnostics of a file under given directives, where the rules have found some. -/
def diagnosticsUnder (ds : Directives) (f : SourceFile) (found : List Diagnostic) :
    List Diagnostic :=
  issuesUnder ds f ++ e.unsuppressed ds found

def analyze? (f : SourceFile) : Option Report := do
  let report ← e.registry.runAll? f
  let diagnostics := e.diagnosticsUnder f.directives f report.diagnostics
  let suppressed := report.diagnostics.length + f.issues.length - diagnostics.length
  return {
    diagnostics
    events := report.events ++
      [.analyzed f.name e.registry.size f.issues.length suppressed diagnostics.length] }

end Engine

end OptionalChain
