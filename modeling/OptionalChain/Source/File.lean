import OptionalChain.Directive
import OptionalChain.Source.Language
import OptionalChain.Text.Width

/-!
# Source files

A file keeps its whole text. A byte-order mark at the start is left out before the text is
read, so that places in such a file are counted from after the mark while cuts are made in
the text that still has it.
-/

namespace OptionalChain

/-! ## Reading a text -/

/-- A syntax error at its line and display column; lines count from one, columns from zero. -/
structure SyntaxIssue where
  line : Nat
  column : Nat
  span : Span
  message : String
deriving DecidableEq, Repr

namespace SyntaxIssue

def display (e : SyntaxIssue) : String :=
  s!"{e.message} at {e.line}:{e.column}"

/-- Line and display column after `before`; a line ends with `\n`, `\r` or `\r\n`. -/
def position (before : List Char) : Nat × Nat :=
  go 1 [] before
where
  go (line : Nat) (current : List Char) : List Char → Nat × Nat
    | [] => (line, Text.displayWidth current)
    | '\r' :: '\n' :: cs => go (line + 1) [] cs
    | c :: cs => if c = '\n' ∨ c = '\r' then go (line + 1) [] cs else go line (c :: current) cs

def ofError (text : List Char) (e : SyntaxError) : SyntaxIssue :=
  let (line, column) := position (Text.upTo e.span.lo text)
  ⟨line, column, e.span, e.fault.message⟩

end SyntaxIssue

/-- A program with the errors and comments met in reading it. -/
structure Outcome where
  program? : Option Node
  issues : List SyntaxIssue
  comments : List Comment

namespace Outcome

def dropMark : List Char → List Char
  | c :: cs => if c = '\uFEFF' then cs else c :: cs
  | [] => []

def ofText (dialect : Grammar.Dialect) (text : List Char) : Outcome :=
  let text := dropMark text
  let r := Grammar.parse dialect text
  { program? := r.program?
    issues := r.errors.map (SyntaxIssue.ofError text)
    comments := r.comments }

/-- The program of a text without any error, or the first error. -/
def strict (o : Outcome) : Except SyntaxIssue Node :=
  match o.issues, o.program? with
  | e :: _, _ => .error e
  | [], some n => .ok n
  | [], none => .error ⟨1, 1, ⟨0, 0⟩, "no module produced"⟩

end Outcome

/-! ## Files -/

structure SourceFile where
  name : String
  text : List Char
  outcome : Outcome
  directives : Directives

namespace SourceFile

def ofText (name : String) (text : List Char) : SourceFile :=
  { name, text
    outcome := .ofText (Language.ofFileName name).dialect text
    directives := .ofText text }

variable (f : SourceFile)

def language : Language := .ofFileName f.name

def program? : Option Node := f.outcome.program?

def issues : List SyntaxIssue := f.outcome.issues

def comments : List Comment := f.outcome.comments

def lineCount : Nat := (Text.lines f.text).length

/-- The place itself, or the end of the text if that is nearer. -/
def clamp (offset : Nat) : Nat :=
  min offset (Text.size f.text)

/-- The text of a span, absent when a cut falls inside a character. -/
def slice? (s : Span) : Option (List Char) :=
  Text.slice? (f.clamp s.lo) (f.clamp s.hi) f.text

def slice (s : Span) : List Char :=
  (f.slice? s).getD []

def locate? (offset : Nat) : Option Text.Location :=
  Text.locate? (f.clamp offset) f.text

/-- One line that tells what is known of the file. -/
def summary : String :=
  "ParsedFile \x7b metadata: FileMetadata \x7b filename: \"" ++ f.name ++ "\", language: " ++
    f.language.name ++ ", line_count: " ++ toString f.lineCount ++ ", has_errors: " ++
    toString (!f.issues.isEmpty) ++ " \x7d, has_module: " ++ toString f.program?.isSome ++
    ", error_count: " ++ toString f.issues.length ++ ", comment_count: " ++
    toString f.comments.length ++ " \x7d"

end SourceFile

end OptionalChain
