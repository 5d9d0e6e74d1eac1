import OptionalChain.Node.Basic
import OptionalChain.Token.Scan

/-!
# Cursor and parsers

A cursor stands at one token of the text. Parsers move it, collect comments and recovered
errors in it, and stop at a fatal error.
-/

namespace OptionalChain.Grammar

/-- The language variant a text is read in. -/
structure Dialect where
  typescript : Bool := false
  jsx : Bool := false
  decorators : Bool := false
deriving DecidableEq, Repr

/-- What the surroundings of a construct allow, how often anything can be repeated in the text,
and where the text ends. -/
structure Setting where
  dialect : Dialect
  budget : Nat
  size : Nat
  inFunction : Bool := false
  inAsync : Bool := false
  inGenerator : Bool := false
  newTarget : Bool := false
  directSuper : Bool := false
  inClassField : Bool := false
  breakable : Bool := false
  continuable : Bool := false
  labels : List String := []
  allowIn : Bool := true
  ambient : Bool := false
  inBranch : Bool := false
  noConditional : Bool := false

/-- The current token, the text from it on and after it, and what was met before. Comments are
listed each time the end of the text is met. A cursor is stuck on a regular expression that
does not end. -/
structure Cursor where
  typescript : Bool
  token : Token
  text : List Char
  rest : List Char
  prevEnd : Nat := 0
  comments : List Comment := []
  listed : List Comment := []
  errors : List SyntaxError := []
  stuck : Bool := false

namespace Cursor

/-- The end of the text stands right after the last token. -/
def placed (c : Cursor) (t : Token) : Token :=
  if t.form == .endOfText then ⟨.endOfText, ⟨c.prevEnd, c.prevEnd⟩, true⟩ else t

/-- Moves to the token at or after byte `pos`, where the text goes on as `cs`. -/
def goto (c : Cursor) (pos : Nat) (cs : List Char) : Cursor :=
  let s := Token.scan pos cs
  let comments := if s.comments.isEmpty then c.comments else c.comments ++ s.comments
  let faults := s.faults.filter fun e => c.typescript || e.fault != .octalNumber
  { c with
    token := c.placed s.token, text := s.text, rest := s.rest, comments
    listed := if s.token.form == .endOfText then comments else c.listed
    errors := if faults.isEmpty then c.errors else c.errors ++ faults }

def advance (c : Cursor) : Cursor :=
  let c := { c with prevEnd := c.token.span.hi }
  if c.stuck then c else c.goto c.token.span.hi c.rest

/-- The first line is skipped when it starts with `#!`. -/
def start (typescript : Bool) (cs : List Char) : Cursor :=
  let empty : Cursor := { typescript, token := ⟨.endOfText, ⟨0, 0⟩, false⟩, text := cs, rest := cs }
  match cs with
  | '#' :: '!' :: _ =>
    let (line, rest) := cs.span (!Token.isLineEnd ·)
    let stop := Text.size line
    { empty with prevEnd := stop }.goto stop rest
  | cs => empty.goto 0 cs

/-- How an error names the current token. -/
def tokenText (c : Cursor) : String :=
  let raw := String.ofList (Text.upTo (c.token.span.hi - c.token.span.lo) c.text)
  match c.token.form with
  | .endOfText => "<eof>"
  | .word name _ => name
  | .punct _ => raw
  | .number value => "numeric literal (" ++ String.ofList value.toText ++ ", " ++ raw ++ ")"
  | .bigint value => "bigint literal (" ++ toString value ++ ", " ++ raw ++ ")"
  | .string value => "string literal (" ++ value ++ ", " ++ raw ++ ")"
  | .invalid _ => "<lexing error>"

end Cursor

abbrev Parser := ReaderT Setting (EStateM SyntaxError Cursor)

/-- The nonterminals that recursion runs through; the last argument of `climb` is the strength
below which operators are left alone. -/
inductive Goal where
  | expression
  | assignment
  | unary
  | climb (left : Node) (floor : Nat)
  | access
  | callee
  | markup
  | binding
  | type
  | statement
  | body
  | item
  | block

/-- Parsers for the parts of a construct. -/
abbrev Parts := Goal → Parser Node

variable {α : Type}

def dialect : Parser Dialect := return (← read).dialect

def budget : Parser Nat := return (← read).budget

def isTypescript : Parser Bool := return (← read).dialect.typescript

def token : Parser Token := return (← get).token

def form : Parser TokenForm := return (← get).token.form

def here : Parser Nat := return (← get).token.span.lo

def bump : Parser Unit := modify Cursor.advance

/-- The token after the current one. -/
def peek : Parser Token := do
  let c ← get
  return (Token.scan c.token.span.hi c.rest).token

/-- The tokens after the current one, up to two of them. -/
def peekTwo : Parser (Token × Token) := do
  let c ← get
  let first := Token.scan c.token.span.hi c.rest
  return (first.token, (Token.scan first.token.span.hi first.rest).token)

/-! ## Errors -/

/-- Takes the current token when it is none, and gives what is wrong with it. -/
def takeInvalid? : Parser (Option SyntaxError) := do
  match ← form with
  | .invalid e =>
    bump
    return some e
  | _ => return none

def note (e : SyntaxError) : Parser Unit :=
  modify fun c => { c with errors := c.errors ++ [e] }

/-- Notes an error to recover from. What is wrong with the current token comes first, and the
token is taken. -/
def recover (e : SyntaxError) : Parser Unit := do
  match ← takeInvalid? with
  | some earlier => note earlier
  | none => pure ()
  note e

def emit (span : Span) (fault : Fault) : Parser Unit :=
  recover ⟨span, fault⟩

/-- Stops with an error. What is wrong with the current token is noted before. -/
def failAt (span : Span) (fault : Fault) : Parser α := do
  match ← takeInvalid? with
  | some e => recover e
  | none => pure ()
  throw ⟨span, fault⟩

def failHere (fault : Fault) : Parser α := do
  failAt (← token).span fault

/-- Stops because the text ends. -/
def failAtEnd : Parser α := do
  let size := (← read).size
  throw ⟨⟨size, size⟩, .endOfText⟩

/-- Stops with what is wrong with the current token, if it is none. -/
def rejectInvalid : Parser Unit := do
  match ← takeInvalid? with
  | some e => throw e
  | none => pure ()

/-- Puts the cursor back; comments once listed stay listed. -/
def rewind (before : Cursor) : Parser Unit :=
  modify fun c => { before with listed := c.listed }

/-- Runs a parser that may fail; a failure puts the cursor back. -/
def attempt (p : Parser α) : Parser (Option α) := do
  let before ← get
  try
    return some (← p)
  catch _ =>
    rewind before
    return none

/-- Runs a parser that may fail and whose recovered errors do not count. -/
def speculate (p : Parser α) : Parser (Option α) := do
  let errors := (← get).errors
  let result ← attempt p
  modify fun c => { c with errors }
  return result

/-- Looks ahead without moving. -/
def ahead (test : Parser Bool) : Parser Bool := do
  let before ← get
  let answer ← attempt test
  rewind before
  return answer.getD false

/-! ## Spans, words and punctuators -/

/-- From `lo` to the end of the last token taken. -/
def spanFrom (lo : Nat) : Parser Span :=
  return ⟨lo, (← get).prevEnd⟩

def nodeFrom (lo : Nat) (kind : Kind) (children : List Node) : Parser Node :=
  return .mk kind (← spanFrom lo) children

def isPunct (p : Punct) : Parser Bool := return (← form) == .punct p

def isWord (w : String) : Parser Bool := return (← form) == .word w false

def isEnd : Parser Bool := return (← form) == .endOfText

def eat (p : Punct) : Parser Bool := do
  if ← isPunct p then
    bump
    return true
  return false

def eatWord (w : String) : Parser Bool := do
  if ← isWord w then
    bump
    return true
  return false

def failExpected (wanted : String) : Parser α := do
  failHere (.expected wanted (← get).tokenText)

def expect (p : Punct) : Parser Unit := do
  if !(← eat p) then
    failExpected p.text

def expectWord (w : String) : Parser Unit := do
  if !(← eatWord w) then
    failExpected w

/-- Whether a statement may end here: at a semicolon, which is taken, at a closing brace, at the
end of the text or after a line break. -/
def eatSemicolon : Parser Bool := do
  if ← eat .semi then
    return true
  let t ← token
  return t.form == .endOfText || t.form == .punct .rbrace || t.newline

def expectSemicolon : Parser Unit := do
  if !(← eatSemicolon) then
    failExpected ";"

/-- Repeats a step until it gives a result; the length of the text bounds the repetitions. -/
def iterateFrom {σ : Type} (step : σ → Parser (σ ⊕ α)) : Nat → σ → Parser α
  | 0, _ => failAtEnd
  | fuel + 1, s => do
    match ← step s with
    | .inl s => iterateFrom step fuel s
    | .inr a => return a

def iterate {σ : Type} (step : σ → Parser (σ ⊕ α)) (s : σ) : Parser α := do
  iterateFrom step (← budget) s

/-- Whether a list ends here; its closing punctuator is taken. A text that ends first is an
error. -/
def endsList (close : Punct) : Parser Bool := do
  if ← isEnd then
    failExpected close.text
  eat close

/-- An item of a list and the mark after it. -/
def listItem (close : Punct) (item : Parser Node) (items : List Node) :
    Parser (List Node ⊕ List Node) := do
  let n ← item
  let items := items ++ [n]
  if ← eat close then
    return .inr items
  expect .comma
  return .inl items

/-- Items between commas up to a closing punctuator, which is taken; a last comma is allowed. A
text that ends before an item lacks the punctuator. -/
def openList (close : Punct) (item : Parser Node) : Parser (List Node) :=
  iterate (fun items => do
    if ← endsList close then
      return .inr items
    listItem close item items) []

/-- Items as in an open list; a text that ends before an item lacks the item. -/
def commaList (close : Punct) (item : Parser Node) : Parser (List Node) :=
  iterate (fun items => do
    if ← eat close then
      return .inr items
    listItem close item items) []

/-- The name `arguments` means nothing in the value of a field. -/
def checkArguments (name : String) (span : Span) : Parser Unit := do
  if name == "arguments" && (← read).inClassField then
    emit span .argumentsPlace

/-- A name that is not reserved, with its span. -/
def identifier : Parser (String × Span) := do
  let t ← token
  match t.form with
  | .word name _ =>
    if name == "await" && !(← read).ambient then
      failHere .awaitName
    if Token.keywords.contains name && !(name == "this" && (← isTypescript)) then
      failHere .nameExpected
    bump
    if Token.strictWords.contains name then
      emit t.span (.reservedName name)
    checkArguments name t.span
    return (name, t.span)
  | .endOfText => failAtEnd
  | _ => failHere .nameExpected

def identifierNode : Parser Node := do
  let (name, span) ← identifier
  return .mk (.ident name) span []

/-- A name that is bound; `lexical` says that it is bound by a word which excludes `let`. -/
def boundIdentifier (lexical : Bool) : Parser (String × Span) := do
  if lexical && (← isWord "let") then
    failHere (.unexpected "let" "let is reserved in const, let, class declaration")
  let (name, span) ← identifier
  if name == "eval" || name == "arguments" then
    emit span .boundName
  return (name, span)

def boundIdentifierNode (lexical : Bool) : Parser Node := do
  let (name, span) ← boundIdentifier lexical
  return .mk (.ident name) span []

/-- Any word, keywords included. -/
def anyWord : Parser (String × Span) := do
  let t ← token
  match t.form with
  | .word name _ =>
    bump
    return (name, t.span)
  | .endOfText => failAtEnd
  | _ => failHere .nameExpected

/-- A word after `#`, with nothing between. -/
def privateName : Parser Node := do
  let lo ← here
  expect .hash
  let hash ← spanFrom lo
  if (← here) != hash.hi then
    failAt hash .hashSpace
  let (name, _) ← anyWord
  nodeFrom lo (.privateName name) []

/-- Takes one `>` even where it is the start of a longer operator. -/
def expectGreater : Parser Unit := do
  let c ← get
  match c.token.form, c.text with
  | .punct _, '>' :: rest =>
    let stop := c.token.span.lo + 1
    set ({ c with prevEnd := stop }.goto stop rest)
  | _, _ => failExpected ">"

/-- Takes one `<` even where it is the start of a shift. -/
def eatLess : Parser Bool := do
  let c ← get
  match c.token.form, c.text with
  | .punct (.op .lt), '<' :: rest | .punct (.op .shl), '<' :: rest =>
    let stop := c.token.span.lo + 1
    set ({ c with prevEnd := stop }.goto stop rest)
    return true
  | _, _ => return false

def isLess : Parser Bool := do
  let f ← form
  return f == .punct (.op .lt) || f == .punct (.op .shl)

/-- Substitutions of a template that starts at the current token. Only a `tagged` template may
have escapes that stand for nothing. -/
def templateParts (tagged : Bool) (item : Parser Node) : Parser (List Node) := do
  let lo ← here
  iterate (fun items => do
    let c ← get
    match Token.templateChunk c.rest with
    | none =>
      let stop := c.token.span.hi + Text.size c.rest
      let fault : SyntaxError := ⟨⟨lo, stop⟩, .unterminatedTemplate⟩
      set { c with token := ⟨.invalid fault, ⟨c.token.span.lo, stop⟩, false⟩, rest := [] }
      failHere (.unexpected (← get).tokenText "template token")
    | some (rest, last) =>
      if !tagged then
        if let some e := Token.templateFault? c.rest then
          throw (e.shift c.token.span.hi)
      let stop := c.token.span.hi + (Text.size c.rest - Text.size rest)
      set ({ c with prevEnd := stop }.goto stop rest)
      if last then
        return .inr items
      let n ← item
      if !(← isPunct .rbrace) then
        failExpected Punct.rbrace.text
      return .inl (items ++ [n])) []

/-- Runs a parser in a changed setting. -/
def within (change : Setting → Setting) (p : Parser α) : Parser α :=
  withReader change p

end OptionalChain.Grammar
