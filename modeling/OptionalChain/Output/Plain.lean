import OptionalChain.Output.Color

/-!
# Reports in lines

One line for each diagnostic, one more for its suggestion, and a count at the end.
-/

namespace OptionalChain.Plain

def diagnostic (p : Palette) (d : Diagnostic) : List String :=
  let head :=
    d.file ++ ":" ++ toString d.line ++ ":" ++ toString d.column ++ ": " ++
      p.severity d.severity ++ " [" ++ p.paint [.dimmed] d.ruleId ++ "]: " ++ d.message
  head :: d.suggestion?.toList.map fun s => "  " ++ p.paint [.green] "suggestion:" ++ " " ++ s

def summary (ds : List Diagnostic) : List String :=
  ["", "Found " ++ toString (countSeverity ds .error) ++ " error(s) and " ++
    toString (countSeverity ds .warning) ++ " warning(s)"]

def format (p : Palette) (ds : List Diagnostic) : String :=
  let lines := ds.flatMap (diagnostic p) ++ if ds.isEmpty then [] else summary ds
  String.join (lines.map (· ++ "\n"))

end OptionalChain.Plain
