import OptionalChain.Output.Color
import OptionalChain.Output.Json
import OptionalChain.Rule.Registry

/-!
# Reports for programs

All diagnostics with counts, as one JSON value.
-/

namespace OptionalChain.Structured

/-- What is told of a run besides its diagnostics. -/
structure Run where
  registry? : Option Registry := none
  fixedFiles : Nat := 0
  totalFiles : Nat := 0
  analyzedPath : String
  workingDirectory : String

def formatVersion : String := "1.0"

def programVersion : String := "0.1.0"

def optional (key : String) (s? : Option String) : List (String × Json) :=
  s?.toList.map fun s => (key, .text s)

def position (l : Text.Location) : Json :=
  .record [("line", .number l.line), ("column", .number l.column)]

def location (file : String) (r : Region) : Json :=
  .record [("file", .text file), ("start", position r.first), ("end", position r.last),
    ("span", .record [("start", .number r.start), ("end", .number r.stop)])]

def fix (x : Fix) : Json :=
  .record ([("title", .text x.title), ("applicability", .text x.applicability.name)] ++
    optional "message_id" x.messageId? ++
    [("start", position x.region.first), ("end", position x.region.last),
      ("new_text", .text (String.ofList x.newText))])

namespace Run

variable (r : Run)

def ruleName? (id : String) : Option String := do
  return (← (← r.registry?).refs? id).2

def diagnostic (d : Diagnostic) : Json :=
  .record ([("rule_id", .text d.ruleId)] ++ optional "rule_name" (r.ruleName? d.ruleId) ++
    optional "message_id" d.messageId? ++
    [("severity", .text d.severity.name), ("confidence", .text d.confidence.name),
      ("message", .text d.message), ("location", location d.file d.region)] ++
    optional "suggestion" d.suggestion? ++
    if d.fixes.isEmpty then [] else [("fixes", .list (d.fixes.map fix))])

def metadata : Json :=
  .record [("chainlint_version", .text programVersion),
    ("working_directory", .text r.workingDirectory), ("analyzed_path", .text r.analyzedPath)]

def summary (ds : List Diagnostic) : Json :=
  .record [("total_files", .number r.totalFiles),
    ("files_with_issues", .number (ds.map (·.file)).eraseDups.length),
    ("total_diagnostics", .number ds.length), ("fixable", .number (countFixable ds)),
    ("fixed_files", .number r.fixedFiles),
    ("by_severity", .record (Severity.all.map fun s => (s.name, .number (countSeverity ds s))))]

def format (ds : List Diagnostic) : String :=
  Json.render 0 (.record [("version", .text formatVersion), ("metadata", r.metadata),
    ("summary", r.summary ds), ("diagnostics", .list (ds.map r.diagnostic))])

end Run

end OptionalChain.Structured
