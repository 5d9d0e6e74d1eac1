import OptionalChain.Token.Literal
import OptionalChain.Text.Blank

/-!
# Scanning

One token at a time, with the comments and faults met on the way to it. A slash is always
scanned as an operator; whoever expects an operand reads it again as a regular expression.
-/

namespace OptionalChain

inductive CommentStyle where
  | line | block
deriving DecidableEq, Repr

structure Comment where
  style : CommentStyle
  span : Span
deriving DecidableEq, Repr

namespace Token

/-- White space of the language: the Unicode property and the byte-order mark. -/
def isSpace (c : Char) : Bool :=
  Text.isBlank c || c.toNat == 0xFEFF

/-- Text from `pos` on, with what was skipped before it. A comment that starts with `<!--` is an
error up to where the text goes on. -/
structure Gap where
  rest : List Char
  pos : Nat
  first : Bool := false
  newline : Bool := false
  legacy? : Option Nat := none
  comments : List Comment := []
  faults : List SyntaxError := []

namespace Gap

/-- The gap after one more character. -/
def past (g : Gap) (c : Char) : Gap :=
  { g with pos := g.pos + c.utf8Size, newline := g.newline || isLineEnd c }

/-- The gap after a comment that started at byte `lo`. -/
def closing (g : Gap) (style : CommentStyle) (lo : Nat) : Gap :=
  { g with comments := g.comments ++ [⟨style, ⟨lo, g.pos⟩⟩] }

/-- The gap with the error of a comment that starts with `<!--`, if there was one. -/
def settled (g : Gap) : Gap :=
  match g.legacy? with
  | some lo =>
    { g with legacy? := none, faults := g.faults ++ [⟨⟨lo, g.pos⟩, .legacyComment⟩] }
  | none => g

/-- The gap after the mark `<!--`. -/
def pastOpening (g : Gap) : Gap :=
  { g.settled with legacy? := some g.pos, pos := g.pos + 4 }

/-- The gap after the mark `-->` at the start of a line. -/
def pastClosing (g : Gap) : Gap :=
  let g := g.settled
  { g with
    pos := g.pos + 3
    faults := g.faults ++ [⟨⟨g.pos, g.pos + 3⟩, .legacyComment⟩] }

end Gap

/-- What the characters skipped so far have opened, and where. -/
inductive SkipMode where
  | blanks
  | lineComment (lo : Nat)
  | blockComment (lo : Nat) (star : Bool)

/-- Skips white space and comments. -/
def skipFrom : SkipMode → Gap → List Char → Gap
  | .blanks, g, [] => { g.settled with rest := [] }
  | .lineComment lo, g, [] => { (g.closing .line lo).settled with rest := [] }
  | .blockComment _ _, g, [] =>
    let faults := g.faults ++ [⟨⟨g.pos, g.pos⟩, .unterminatedComment⟩]
    { { g with faults }.settled with rest := [] }
  | .blanks, g, '/' :: '/' :: cs => skipFrom (.lineComment g.pos) { g with pos := g.pos + 2 } cs
  | .blanks, g, '/' :: '*' :: cs =>
    skipFrom (.blockComment g.pos false) { g with pos := g.pos + 2 } cs
  | .blanks, g, '<' :: '!' :: '-' :: '-' :: cs =>
    skipFrom (.lineComment (g.pos + 1)) g.pastOpening cs
  | .blanks, g, '-' :: '-' :: '>' :: cs =>
    if g.newline || g.first then skipFrom (.lineComment (g.pos + 3)) g.pastClosing cs
    else { g.settled with rest := '-' :: '-' :: '>' :: cs }
  | .blanks, g, c :: cs =>
    if isSpace c then skipFrom .blanks (g.past c) cs else { g.settled with rest := c :: cs }
  | .lineComment lo, g, c :: cs =>
    if isLineEnd c then skipFrom .blanks ((g.closing .line lo).past c) cs
    else skipFrom (.lineComment lo) (g.past c) cs
  | .blockComment lo star, g, c :: cs =>
    if star && c == '/' then skipFrom .blanks ((g.past c).closing .block lo) cs
    else skipFrom (.blockComment lo (c == '*')) (g.past c) cs

def skip (pos : Nat) (cs : List Char) : Gap :=
  skipFrom .blanks { rest := cs, pos, first := pos == 0 } cs

/-- Punctuators, a longer one before those it starts with. -/
def punctuators : List (List Char × Punct) :=
  [(['>', '>', '>', '='], .compound), (['.', '.', '.'], .ellipsis),
    (['=', '=', '='], .op .strictEq), (['!', '=', '='], .op .strictNe),
    (['*', '*', '='], .compound), (['<', '<', '='], .compound), (['>', '>', '='], .compound),
    (['&', '&', '='], .compound), (['|', '|', '='], .compound), (['?', '?', '='], .compound),
    (['>', '>', '>'], .op .ushr), (['=', '>'], .arrow), (['=', '='], .op .eq),
    (['!', '='], .op .ne), (['<', '='], .op .le), (['>', '='], .op .ge),
    (['&', '&'], .op .and), (['|', '|'], .op .or), (['?', '?'], .op .nullish),
    (['?', '.'], .questionDot), (['+', '+'], .plusPlus), (['-', '-'], .minusMinus),
    (['*', '*'], .op .exp), (['<', '<'], .op .shl), (['>', '>'], .op .shr),
    (['+', '='], .compound), (['-', '='], .compound), (['*', '='], .compound),
    (['/', '='], .compound), (['%', '='], .compound), (['&', '='], .compound),
    (['|', '='], .compound), (['^', '='], .compound),
    (['('], .lparen), ([')'], .rparen), (['['], .lbrack), ([']'], .rbrack),
    (['{'], .lbrace), (['}'], .rbrace), ([';'], .semi), ([','], .comma), ([':'], .colon),
    (['.'], .dot), (['?'], .question), (['#'], .hash), (['@'], .sign), (['!'], .bang),
    (['~'], .tilde), (['\x60'], .backtick), (['='], .assign), (['<'], .op .lt), (['>'], .op .gt),
    (['+'], .op .add), (['-'], .op .sub), (['*'], .op .mul), (['/'], .op .div),
    (['%'], .op .mod), (['|'], .op .bitOr), (['^'], .op .bitXor), (['&'], .op .bitAnd)]

/-- The longest punctuator that the text starts with and its length; `?.` before a digit is a
question mark. -/
def punctuator? (cs : List Char) : Option (Punct × Nat) :=
  (punctuators.find? fun (text, _) => text.isPrefixOf cs).map fun (text, p) =>
    if p = .questionDot ∧ ((cs.drop 2).head?.any Char.isDigit) = true then (.question, 1)
    else (p, text.length)

/-- A token together with the text that starts at it and the text after it. -/
structure Scanned where
  token : Token
  text : List Char
  rest : List Char
  comments : List Comment
  faults : List SyntaxError

/-- The mark that starts a template; the text of the template is read by whoever expects it. -/
def templateLexeme (cs : List Char) : Lexeme :=
  match templateChunk (cs.drop 1) with
  | some _ => ⟨.punct .backtick, 1, []⟩
  | none => ⟨.invalid ⟨⟨0, Text.size cs⟩, .unterminatedTemplate⟩, cs.length, []⟩

/-- The token that the text starts with. -/
def lexeme (cs : List Char) : Lexeme :=
  match cs with
  | [] => ⟨.endOfText, 0, []⟩
  | c :: rest =>
    if Text.isIdentStart c || c = '\\' then wordLexeme cs
    else if c.isDigit || (c = '.' && rest.head?.any Char.isDigit) then numberLexeme cs
    else if c = '"' ∨ c = '\'' then stringLexeme c rest
    else if c = '\x60' then templateLexeme cs
    else
      match punctuator? cs with
      | some (p, taken) => ⟨.punct p, taken, []⟩
      | none => ⟨.invalid ⟨⟨0, 0⟩, .strayCharacter c⟩, 1, []⟩

/-- The form of a token that starts at byte `pos`. -/
def placed (pos : Nat) : TokenForm → TokenForm
  | .invalid e => .invalid (e.shift pos)
  | form => form

/-- The next token of text that starts at byte `pos`. -/
def scan (pos : Nat) (cs : List Char) : Scanned :=
  let g := skip pos cs
  let x := lexeme g.rest
  let span : Span := ⟨g.pos, g.pos + Text.size (g.rest.take x.taken)⟩
  { token := ⟨placed g.pos x.form, span, g.newline⟩
    text := g.rest
    rest := g.rest.drop x.taken
    comments := g.comments
    faults := g.faults ++ x.faults.map (SyntaxError.shift g.pos) }

end Token

end OptionalChain
