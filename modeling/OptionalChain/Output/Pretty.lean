import OptionalChain.Output.Color

/-!
# Reports with source lines

Each diagnostic is shown with its first line, the reported part of it underlined, and its fixes.
-/

namespace OptionalChain.Pretty

structure Style where
  palette : Palette
  sources : List (String × List Char) := []

namespace Style

variable (s : Style)

def sourceLine? (file : String) (line : Nat) : Option (List Char) := do
  let text ← s.sources.lookup file
  if line = 0 then none else (Text.lines text)[line - 1]?

/-- Length of the mark under a line. -/
def markLength (d : Diagnostic) (line : List Char) : Nat :=
  let stop := d.region.last
  max 1 <|
    if d.column < stop.column ∧ stop.line = d.line then stop.column - d.column
    else line.length - (d.column - 1)

def spaces (n : Nat) : String := String.ofList (List.replicate n ' ')

def excerpt (d : Diagnostic) (margin : String) (line : List Char) : List String :=
  let bar := s.palette.paint [.blue] "|"
  let mark := String.ofList (List.replicate (markLength d line) '^')
  [margin ++ " " ++ bar,
    s.palette.paint [.blue] (toString d.line) ++ " " ++ bar ++ " " ++ String.ofList line,
    margin ++ " " ++ bar ++ " " ++ spaces (d.column - 1) ++ s.palette.paint [.red] mark,
    margin ++ " " ++ bar]

def fixLine (margin : String) (x : Fix) : String :=
  let label :=
    if x.isAutomatic then s.palette.paint [.green] "fix:"
    else s.palette.paint [.yellow] "suggestion:"
  margin ++ " " ++ s.palette.paint [.blue] "=" ++ " " ++ label ++ " " ++ String.ofList x.newText

def diagnostic (d : Diagnostic) : String :=
  let margin := spaces (toString d.line).length
  let head :=
    s.palette.severity d.severity ++ "[" ++ s.palette.paint [.dimmed] d.ruleId ++ "]: " ++ d.message
  let place :=
    "  " ++ s.palette.paint [.blue] "-->" ++ " " ++ d.file ++ ":" ++ toString d.line ++ ":" ++
      toString d.column
  let shown := ((s.sourceLine? d.file d.line).map (s.excerpt d margin)).getD []
  "\n".intercalate (head :: place :: shown ++ d.fixes.map (s.fixLine margin))

def summary (ds : List Diagnostic) : String :=
  let total := ds.length
  let fixable := countFixable ds
  "\nFound " ++ s.palette.paint [.bold] (toString total) ++
    (if total = 1 then " problem (" else " problems (") ++
    s.palette.paint [.red] (plural (countSeverity ds .error) "error") ++ ", " ++
    s.palette.paint [.yellow] (plural (countSeverity ds .warning) "warning") ++ ")\n" ++
    if fixable = 0 then ""
    else
      s.palette.paint [.bold] (toString fixable) ++ " fixable with " ++
        s.palette.paint [.green] "--fix" ++ "\n"

def format (ds : List Diagnostic) : String :=
  String.join (ds.map fun d => s.diagnostic d ++ "\n") ++
    if ds.isEmpty then "" else s.summary ds

end Style

end OptionalChain.Pretty
