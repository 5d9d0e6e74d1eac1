import OptionalChain.Command.Arguments
import OptionalChain.Config.Load
import OptionalChain.Fix
import OptionalChain.Output.Plain
import OptionalChain.Output.Pretty
import OptionalChain.Output.Structured

/-!
# Checking files

A check finds the files of a path, fixes them if asked to, and reports what is left in them.
It is a function of the file system: new texts of files are part of its result.
-/

namespace OptionalChain

/-! ## Discovery -/

def supportedExtensions : List String :=
  ["js", "jsx", "ts", "tsx", "mjs", "cjs", "mts", "cts"]

def isSupportedName (name : FileName) : Bool :=
  (Path.extensionOf? name).any supportedExtensions.contains

/-- Whether one place stands before or at another, name by name. -/
def placeLe (a b : List FileName) : Bool := !decide (b < a)

/-- The supported files of a tree, in the order of their paths. -/
def FileTree.supported (t : FileTree) (start : Path) : List FileEntry :=
  let files := (t.search (!·.isHidden) start []).filter (!·.isFolder)
  (files.filter (isSupportedName ·.name)).mergeSort fun a b => placeLe a.names b.names

/-- Paths of the files to check, or nothing if the path leads nowhere. -/
def FileSystem.discover? (fs : FileSystem) (p : Path) : Option (List Path) :=
  (fs.at? p).map fun
    | .file _ => if p.name?.any isSupportedName then [p] else []
    | t => (t.supported p).map (·.path)

/-! ## One file -/

structure FileReport where
  path : Path
  content : List Char
  diagnostics : List Diagnostic
  isFixed : Bool
deriving DecidableEq, Repr

namespace Engine

variable (e : Engine)

def report? (p : Path) (content : List Char) : Option FileReport := do
  let report ← e.analyze? (.ofText p.toText content)
  return { path := p, content, diagnostics := report.diagnostics, isFixed := false }

/-- Fixes a text as far as that goes without asking, and reports what is left. -/
def fixAndReport? (p : Path) (content : List Char) : Option FileReport := do
  let fixed := (← e.fixUntilStable? p.toText content false).output
  if fixed.changed then
    return { ← e.report? p fixed.output with isFixed := true }
  else
    e.report? p content

def checkText? (fix : Bool) (p : Path) (content : List Char) : Option FileReport :=
  if fix then e.fixAndReport? p content else e.report? p content

end Engine

/-! ## All files -/

structure CheckSummary where
  files : Nat := 0
  errors : Nat := 0
  warnings : Nat := 0
  fixedFiles : Nat := 0
deriving DecidableEq, Repr

def CheckSummary.shouldFail (s : CheckSummary) (failOnWarnings : Bool) : Bool :=
  0 < s.errors || (failOnWarnings && 0 < s.warnings)

/-- What a check found: the paths of the files and a report for each that can be read. -/
structure CheckRun where
  engine : Engine
  files : List Path
  reports : List FileReport

namespace CheckRun

variable (r : CheckRun)

def diagnostics : List Diagnostic := r.reports.flatMap (·.diagnostics)

def fixed : List FileReport := r.reports.filter (·.isFixed)

def summary : CheckSummary where
  files := r.files.length
  errors := countSeverity r.diagnostics .error
  warnings := countSeverity r.diagnostics .warning
  fixedFiles := r.fixed.length

/-- The file system once the fixed texts are in it. -/
def apply (fs : FileSystem) : FileSystem :=
  r.fixed.foldl (fun fs report => fs.write report.path report.content) fs

end CheckRun

/-- The files that can be read, with their texts. -/
def FileSystem.readable (fs : FileSystem) (files : List Path) : List (Path × List Char) :=
  files.filterMap fun p => (fs.read p).toOption.map (p, ·)

/-- Why a check comes to nothing: its path leads nowhere, or the analysis of a file gives no
result. -/
inductive CheckFault where
  | missing (path : Path)
  | aborted
deriving DecidableEq, Repr

def CheckFault.message : CheckFault → String
  | missing path => "Path does not exist: " ++ path.toText
  | aborted => "An offset falls inside a character"

/-- Checks the files below a path. -/
def FileSystem.check (fs : FileSystem) (c : Config) (fix : Bool) (p : Path) :
    Except CheckFault CheckRun :=
  match fs.discover? p with
  | none => .error (.missing p)
  | some files =>
    let engine := Engine.ofConfig c
    match (fs.readable files).mapM fun (p, content) => engine.checkText? fix p content with
    | none => .error .aborted
    | some reports => .ok { engine, files, reports }

/-! ## The command -/

/-- What surrounds a command: whether the terminal takes colors, whether they are switched off
for all programs, and the text of the folder it runs in. -/
structure Surroundings where
  hasColor : Bool := false
  noColor : Bool := false
  workingDirectory : String

/-- Everything that a command shows and does. What a check that was aborted wrote before is not
told. -/
structure CheckResult where
  warnings : String
  output : String
  outcome : Except CheckFault CheckSummary
  writes : List (Path × List Char)

namespace CheckRun

variable (r : CheckRun)

def output (o : CheckOptions) (p : Palette) (workingDirectory : String) : String :=
  if r.files.isEmpty then "No JavaScript/TypeScript files found.\n"
  else
    let ds := r.diagnostics
    let body := match o.format with
      | .json =>
        ({ registry? := some r.engine.registry
           fixedFiles := r.fixed.length
           totalFiles := r.files.length
           analyzedPath := o.path.toText
           workingDirectory } : Structured.Run).format ds ++ "\n"
      | .text => Plain.format p ds
      | .pretty =>
        ({ palette := p
           sources := r.reports.map fun x => (x.path.toText, x.content) } : Pretty.Style).format ds
    body ++
      if o.fix && !r.fixed.isEmpty && o.format != .json then
        "Fixed " ++ toString r.fixed.length ++ " file(s)\n"
      else ""

end CheckRun

/-- Runs the command on a file system. -/
def FileSystem.runCheck (fs : FileSystem) (s : Surroundings) (o : CheckOptions) : CheckResult :=
  let palette : Palette := ⟨s.hasColor && !o.noColor && !s.noColor⟩
  let loaded := fs.configWithWarningsAt Toml.reader o.path
  let warnings := String.join <| loaded.warnings.map fun w =>
    palette.paint [.bold, .yellow] "warning:" ++ " " ++ w ++ "\n"
  match fs.check loaded.config o.fix o.path with
  | .error fault => { warnings, output := "", writes := [], outcome := .error fault }
  | .ok run =>
    { warnings
      output := run.output o palette s.workingDirectory
      outcome := .ok run.summary
      writes := run.fixed.map fun x => (x.path, x.content) }

end OptionalChain
