import OptionalChain.Grammar.Type

/-!
# Markup

Elements and fragments. Between tags the text is not divided into tokens, so the readers
here leave the cursor on the bracket that ends a tag or a container, and the text after it
is read by whoever knows what may follow.
-/

namespace OptionalChain.Grammar

variable (p : Parts)

/-- Takes the stretch of a name, hyphens included, that starts at the current token. -/
def markupWord : Parser (List Char) := do
  let c ← get
  match c.token.form with
  | .word _ _ =>
    let (word, rest) := c.text.span fun d => Text.isIdentPart d || d == '-'
    let stop := c.token.span.lo + Text.size word
    set ({ c with prevEnd := stop }.goto stop rest)
    return word
  | .endOfText => failAtEnd
  | _ => failHere .nameExpected

/-- A tag or attribute name with its dots and colons. -/
def markupName : Parser (List Char) := do
  let first ← markupWord
  iterate (fun name => do
    if ← eat .dot then
      let w ← markupWord
      return .inl (name ++ '.' :: w)
    else if ← eat .colon then
      let w ← markupWord
      return .inl (name ++ ':' :: w)
    else
      return .inr name) first

/-- Stops unless the text goes on with `>`; the bracket is not taken. -/
def atGreater : Parser Unit := do
  match (← get).text with
  | '>' :: _ => return
  | _ => if ← isEnd then failAtEnd else failExpected ">"

/-- Stops unless a closing brace stands here; it is not taken. -/
def atBrace : Parser Unit := do
  if !(← isPunct .rbrace) then
    failExpected Punct.rbrace.text

/-- The end of the one-character token the cursor stands on, and the text after it. -/
def afterBracket : Parser (Nat × List Char) := do
  let c ← get
  return (c.token.span.lo + 1, c.text.drop 1)

/-- A node that ends with the bracket the cursor stands on. -/
def nodeToBracket (lo : Nat) (kind : Kind) (children : List Node) : Parser Node :=
  return .mk kind ⟨lo, (← get).token.span.lo + 1⟩ children

/-! ## Attributes -/

/-- A quoted value after `=`; markup strings have no escapes. -/
def quotedValue? : Parser (Option Node) := do
  let c ← get
  let gap := Token.skip c.token.span.hi c.rest
  match gap.rest with
  | q :: rest =>
    if q = '"' ∨ q = '\'' then
      let (body, after) := rest.span (· != q)
      match after with
      | [] => failAt ⟨gap.pos, gap.pos + 1 + Text.size body⟩ .unterminatedString
      | _ :: after =>
        let stop := gap.pos + 2 + Text.size body
        set ({ c with prevEnd := stop }.goto stop after)
        return some (.mk (.jsx .text) ⟨gap.pos, stop⟩ [])
    else
      return none
  | [] => return none

def attributeValue : Parser Node := do
  match ← quotedValue? with
  | some n => return n
  | none =>
    bump
    let lo ← here
    if ← eat .lbrace then
      if ← eat .rbrace then
        failAt (← spanFrom lo) .emptyAttribute
      let e ← p .expression
      expect .rbrace
      nodeFrom lo (.jsx .container) [e]
    else if ← isLess then
      let n ← p .markup
      expectGreater
      return n
    else
      failHere (.unexpected (← get).tokenText "string literal or jsx element")

def markupAttribute : Parser Node := do
  let lo ← here
  if ← eat .lbrace then
    let spreadLo ← here
    expect .ellipsis
    let e ← p .assignment
    let n ← nodeFrom spreadLo .spread [e]
    expect .rbrace
    return n
  else
    let _ ← markupName
    let value ← if ← isPunct .assign then attributeValue p else pure .absent
    nodeFrom lo (.jsx .attribute) [value]

/-- Attributes up to the end of the tag. -/
def markupAttributes : Parser (List Node) :=
  iterate (fun items => do
    match (← form), (← get).text with
    | _, '>' :: _ => return .inr items
    | .punct (.op .div), _ => return .inr items
    | _, _ =>
      let a ← markupAttribute p
      return .inl (items ++ [a])) []

/-! ## Children -/

/-- An expression, a spread or nothing in braces; the closing brace is not taken. -/
def childContainer : Parser Node := do
  let lo ← here
  expect .lbrace
  if ← isPunct .rbrace then
    nodeToBracket lo (.jsx .container) [.absent]
  else if ← eat .ellipsis then
    let e ← p .expression
    atBrace
    nodeToBracket lo (.jsx .spreadChild) [e]
  else
    let e ← p .expression
    atBrace
    nodeToBracket lo (.jsx .container) [e]

/-- The name in a closing tag, from its `<` on; the closing bracket is not taken. -/
def closingRest : Parser (List Char) := do
  expect (.op .div)
  let name ← match (← get).text with
    | '>' :: _ => pure []
    | _ => markupName
  atGreater
  return name

def closingName : Parser (List Char) := do
  let _ ← eatLess
  closingRest

/-- Brackets in the text between tags, which starts at byte `pos`. -/
def textFaults (pos : Nat) : List Char → List SyntaxError
  | [] => []
  | c :: cs =>
    let faults := textFaults (pos + c.utf8Size) cs
    if c = '>' ∨ c = '}' then ⟨⟨pos, pos⟩, .markupText c⟩ :: faults else faults

/-- Children after the bracket the cursor stands on, up to the closing tag called `name`. -/
def children (name : List Char) : Parser (List Node) :=
  iterate (fun items => do
    let (pos, text) ← afterBracket
    let (words, rest) := text.span fun d => d != '<' && d != '{'
    let stop := pos + Text.size words
    let items := if words.isEmpty then items else items ++ [.mk (.jsx .text) ⟨pos, stop⟩ []]
    (textFaults pos words).forM note
    modify fun c => { c with prevEnd := stop }.goto stop rest
    match rest with
    | '{' :: _ =>
      let n ← childContainer p
      return .inl (items ++ [n])
    | '<' :: _ =>
      if (← peek).form == .punct (.op .div) then
        let lo ← here
        let closing ← closingName
        if closing != name then
          failAt ⟨lo, (← get).token.span.lo + 1⟩ (.markupMismatch (String.ofList name))
        return .inr items
      else
        let n ← p .markup
        return .inl (items ++ [n])
    | _ => failAtEnd) []

/-- An element or fragment; the bracket that ends it is not taken. -/
def markup : Parser Node := do
  let lo ← here
  if !(← eatLess) then
    failExpected "<"
  match (← get).text with
  | '>' :: _ =>
    let items ← children p []
    nodeToBracket lo (.jsx .fragment) items
  | _ =>
    let nameLo ← here
    let name ← markupName
    let nameNode ← nodeFrom nameLo (.jsx .name) []
    let typeArgs ← if ← isTypescript then typeArguments? p else pure .absent
    let attrs ← markupAttributes p
    if ← eat (.op .div) then
      atGreater
      nodeToBracket lo (.jsx .element) (nameNode :: attrs ++ [typeArgs])
    else
      atGreater
      let items ← children p name
      nodeToBracket lo (.jsx .element) (nameNode :: attrs ++ typeArgs :: items)

end OptionalChain.Grammar
