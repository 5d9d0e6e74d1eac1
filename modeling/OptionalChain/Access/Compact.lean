import OptionalChain.Text.Blank

/-!
# Compact text

Two pieces of code are compared by their text without white space, comments, optional
markers and non-null assertions. String literals are kept as they are.
-/

namespace OptionalChain.Access

/-- What the characters read so far have opened. -/
inductive Mode where
  | code
  | quoted (quote : Char)
  | escaped (quote : Char)
  | lineComment
  | blockComment (star : Bool)
deriving DecidableEq, Repr

def isQuote (c : Char) : Bool :=
  c == '\'' || c == '"' || c == '\x60'

/-- Whether `c` may follow a non-null assertion that is dropped. -/
def endsAssertion : List Char → Bool
  | '.' :: _ | '[' :: _ | ')' :: _ => true
  | _ => false

/-- Whether an optional marker stands before a bracket, where it leaves no dot. -/
def opensBracket : List Char → Bool
  | '[' :: _ | '(' :: _ => true
  | _ => false

def compactFrom : Mode → List Char → List Char
  | _, [] => []
  | .quoted q, c :: cs =>
    c :: if c == '\\' then compactFrom (.escaped q) cs
      else if c == q then compactFrom .code cs
      else compactFrom (.quoted q) cs
  | .escaped q, c :: cs => c :: compactFrom (.quoted q) cs
  | .lineComment, c :: cs => if c == '\n' then compactFrom .code cs else compactFrom .lineComment cs
  | .blockComment star, c :: cs =>
    if star && c == '/' then compactFrom .code cs else compactFrom (.blockComment (c == '*')) cs
  | .code, '/' :: '/' :: cs => compactFrom .lineComment cs
  | .code, '/' :: '*' :: cs => compactFrom (.blockComment false) cs
  | .code, '?' :: '.' :: cs =>
    if opensBracket cs then compactFrom .code cs else '.' :: compactFrom .code cs
  | .code, c :: cs =>
    if isQuote c then c :: compactFrom (.quoted c) cs
    else if c == '!' && endsAssertion cs then compactFrom .code cs
    else if Text.isBlank c then compactFrom .code cs
    else c :: compactFrom .code cs

def compact (cs : List Char) : List Char :=
  compactFrom .code cs

end OptionalChain.Access
