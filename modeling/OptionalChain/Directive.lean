import OptionalChain.Text.Blank
import OptionalChain.Text.Lines
import OptionalChain.Text.Pattern

/-!
# Directives

A comment can turn rules off for its own line or for the next one. A directive without
rules turns all of them off. Of the directives for one line the union counts.
-/

namespace OptionalChain

structure Directive where
  line : Nat
  rules : List String
deriving DecidableEq, Repr

namespace Directive

def disablesAll (d : Directive) : Bool :=
  d.rules.isEmpty

def disables (d : Directive) (ref : String) : Bool :=
  d.rules.isEmpty || d.rules.contains ref

/-- Both directives as one for the line of the first. -/
def merge (d e : Directive) : Directive :=
  if d.disablesAll || e.disablesAll then { d with rules := [] }
  else { d with rules := d.rules ++ e.rules }

/-! ## Reading -/

/-- The line that a directive is for, seen from its comment. -/
inductive Reach where
  | sameLine
  | nextLine
deriving DecidableEq, Repr

def Reach.target (line : Nat) : Reach → Nat
  | sameLine => line
  | nextLine => line + 1

/-- The names, which are the second group, up to the end of the comment or line. -/
def namesPattern : Text.Pattern :=
  .seq (.optional (.seq (.many1 Text.isBlank true) (.group 2 (.many (· != '*') false)))) <|
  .seq (.many Text.isBlank true) <|
  .alt (.word "*/".toList) .finish

/-- The comment of a directive; the word that tells its reach is the first group. -/
def pattern : Text.Pattern :=
  .seq (.alt (.word "//".toList) (.word "/*".toList)) <|
  .seq (.many Text.isBlank true) <|
  .seq (.word "chainlint-disable-".toList) <|
  .seq (.group 1 (.alt (.word "next-line".toList) (.word "line".toList))) <|
  namesPattern

/-- Names between commas; blank ones do not count. -/
def ruleNames (cs : List Char) : List String :=
  ((cs.splitOnP (· == ',')).map Text.trim).filterMap fun name =>
    if name.isEmpty then none else some (String.ofList name)

def reachOf (caps : Text.Captures) : Reach :=
  if caps.lookup 1 = some "next-line".toList then .nextLine else .sameLine

def rulesOf (caps : Text.Captures) : List String :=
  ((caps.lookup 2).map ruleNames).getD []

/-- A directive that starts exactly here, and the text after it. -/
def at? (cs : List Char) : Option (Reach × List String × List Char) :=
  (pattern.match? cs).map fun (caps, rest) => (reachOf caps, rulesOf caps, rest)

/-- Directives of a line from left to right; none starts in the first `skip` characters. -/
def scanFrom (skip : Nat) : List Char → List (Reach × List String)
  | [] => []
  | c :: cs =>
    match skip with
    | skip + 1 => scanFrom skip cs
    | 0 =>
      match at? (c :: cs) with
      | none => scanFrom 0 cs
      | some (reach, names, rest) => (reach, names) :: scanFrom (cs.length - rest.length) cs

def scan (line : List Char) : List (Reach × List String) :=
  scanFrom 0 line

end Directive

/-- Directives by line, at most one for each. -/
structure Directives where
  entries : List Directive := []
deriving DecidableEq, Repr

namespace Directives

def addTo (d : Directive) : List Directive → List Directive
  | [] => [d]
  | e :: es => if e.line = d.line then e.merge d :: es else e :: addTo d es

def add (ds : Directives) (d : Directive) : Directives :=
  ⟨addTo d ds.entries⟩

def size (ds : Directives) : Nat :=
  ds.entries.length

/-- Whether one of `refs`, which all name the same rule, is turned off on the line. -/
def isDisabled (ds : Directives) (line : Nat) (refs : List String) : Bool :=
  (ds.entries.find? (·.line == line)).any fun d => refs.any d.disables

/-- All directives of a text in reading order; the first line is number one. -/
def inText (text : List Char) : List Directive :=
  ((Text.lines text).zipIdx 1).flatMap fun (line, n) =>
    (Directive.scan line).map fun (reach, rules) => ⟨reach.target n, rules⟩

def ofText (text : List Char) : Directives :=
  (inText text).foldl add {}

end Directives

end OptionalChain
