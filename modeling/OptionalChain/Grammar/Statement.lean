import OptionalChain.Grammar.Expression

/-!
# Statements

Declarations of values, control flow and expression statements. The span of a statement
includes its semicolon.
-/

namespace OptionalChain.Grammar

variable (p : Parts)

/-! ## Blocks -/

/-- Statements up to the closing brace. A text that ends first is an error to recover from. -/
def itemsToBrace (goal : Goal) : Parser (List Node) :=
  iterate (fun items => do
    if ← eat .rbrace then
      return .inr items
    let t ← token
    if t.form == .endOfText then
      emit t.span (.expected Punct.rbrace.text (← get).tokenText)
      return .inr items
    let s ← p goal
    return .inl (items ++ [s])) []

def block : Parser Node := do
  let lo ← here
  expect .lbrace
  let items ← within ({ · with allowIn := true, inBranch := false }) (itemsToBrace p .statement)
  nodeFrom lo (.statement .block) items

/-- An expression between parentheses. -/
def condition : Parser Node := do
  expect .lparen
  let e ← within ({ · with allowIn := true, inBranch := false }) (p .expression)
  expect .rparen
  return e

/-! ## Variables -/

mutual

/-- Shorthand properties with defaults, outside functions: they are no expressions. -/
def shorthandValues : Node → List Span
  | .mk kind span children =>
    match kind with
    | .functionExpr | .arrow => []
    | .shorthandDefault => [span]
    | _ => shorthandValuesIn children

def shorthandValuesIn : List Node → List Span
  | [] => []
  | n :: rest => shorthandValues n ++ shorthandValuesIn rest

end

/-- Refuses what could only be a pattern. -/
def verify (e : Node) : Parser Node := do
  (shorthandValues e).forM fun span => emit span .shorthandValue
  return e

/-- The word that declares variables. -/
inductive Binder where
  | var | let | const
deriving DecidableEq, Repr

def isName (pattern : Node) : Bool :=
  match pattern.kind with
  | .pattern (.name _ _) => true
  | _ => false

/-- The mark `!` after a name. -/
def eatDefinite (pattern : Node) : Parser Unit := do
  if (← isTypescript) && isName pattern then
    let _ ← eat .bang

def startsEach : Parser Bool := return (← isWord "of") || (← isWord "in")

/-- A declaration without a value, which only some allow. -/
def checkNoValue (binder : Binder) (inHead : Bool) (bare : Node) (span : Span) : Parser Unit := do
  if (← read).ambient then
    return
  if binder == .const && !inHead then
    emit span .constWithoutValue
  else if !isName bare then
    failAt span .patternWithoutValue

/-- One variable with its type and value. -/
def declarator (binder : Binder) (inHead : Bool) : Parser Node := do
  let lo ← here
  let bare ← barePattern p (binder != .var)
  eatDefinite bare
  let type ← if ← isTypescript then annotation? p else pure .absent
  let pattern := annotated bare false type
  let patternSpan ← spanFrom lo
  if inHead && (← startsEach) then
    nodeFrom lo (.statement .declarator) [pattern, .absent]
  else if ← eat .assign then
    let value ← p .assignment
    let value ← verify value
    nodeFrom lo (.statement .declarator) [pattern, value]
  else
    checkNoValue binder inHead bare patternSpan
    nodeFrom lo (.statement .declarator) [pattern, .absent]

/-- Variables between commas, after the word that declares them, which spans `word`. A missing
variable at the end is an error to recover from. -/
def declarators (binder : Binder) (inHead : Bool) (word : Span) : Parser (List Node) :=
  iterate (fun items => do
    if (← isPunct .semi) || (← isEnd) then
      let stop := (← get).prevEnd
      emit (if items.isEmpty then ⟨word.hi, word.hi⟩ else ⟨stop - 1, stop⟩) .trailingComma
      return .inr items
    let d ← declarator p binder inHead
    let items := items ++ [d]
    if ← eat .comma then
      return .inl items
    else
      return .inr items) []

/-- Ends a declaration; without an end, what follows is skipped up to one. -/
def endDeclaration : Parser Unit := do
  if !(← eatSemicolon) then
    emit (← token).span .semicolonExpected
    let _ ← (try some <$> p .expression catch _ => pure none : Parser (Option Node))
    iterate (fun _ => do
      if ← eatSemicolon then
        return .inr ()
      bump
      match ← form with
      | .invalid _ => return .inr ()
      | _ => return .inl ()) ()

/-- The word that declares variables, which is taken. -/
def binder : Parser Binder := do
  let t ← token
  bump
  match t.form with
  | .word "const" _ => return .const
  | .word "let" _ => return .let
  | _ => return .var

def bindingList (lo : Nat) : Parser Node := do
  let word := (← token).span
  let b ← binder
  let items ← declarators p b false word
  endDeclaration p
  nodeFrom lo (.statement (.bindings (b == .const))) items

/-- Variables in the head of a loop, without the part that tells the kind of loop. -/
def headVariables (lo : Nat) : Parser Node := do
  let word := (← token).span
  let b ← binder
  let items ← within ({ · with allowIn := b != .var }) (declarators p b true word)
  nodeFrom lo (.statement (.bindings (b == .const))) items

/-- Whether the word here starts a declaration of variables. -/
def startsVariables : Parser Bool := do
  match (← form), (← peek).form with
  | .word "var" false, _ => return true
  | .word "const" false, next => return !(next == .word "enum" false && (← isTypescript))
  | .word "let" false, .word w _ => return !Token.keywords.contains w
  | .word "let" false, .punct .lbrack | .word "let" false, .punct .lbrace => return true
  | _, _ => return false

/-- Whether `using` declares resources here. -/
def startsResources : Parser Bool := do
  let next ← peek
  match (← form), next.form with
  | .word "using" false, .word w _ =>
    return (← isTypescript) && !next.newline && w != "in" && w != "of" && w != "instanceof"
  | _, _ => return false

def resources (lo : Nat) : Parser Node := do
  let word := (← token).span
  bump
  let items ← declarators p .var false word
  endDeclaration p
  nodeFrom lo (.statement .resources) items

/-! ## Control flow -/

def choice (lo : Nat) : Parser Node := do
  bump
  let test ← condition p
  let yes ← p .body
  let no ← if ← eatWord "else" then p .body else pure .absent
  nodeFrom lo (.statement .choice) [test, yes, no]

def loopBody : Parser Node :=
  within ({ · with breakable := true, continuable := true }) (p .body)

def whileLoop (lo : Nat) : Parser Node := do
  bump
  let test ← condition p
  let body ← loopBody p
  nodeFrom lo (.statement .whileLoop) [test, body]

def doLoop (lo : Nat) : Parser Node := do
  bump
  let body ← loopBody p
  expectWord "while"
  let test ← condition p
  let _ ← eat .semi
  nodeFrom lo (.statement .doLoop) [test, body]

def optionalUntil (close : Punct) : Parser Node := do
  if ← isPunct close then
    return .absent
  else
    p .expression

/-- The rest of a counting loop after its first semicolon. -/
def forRest (lo : Nat) (start : Node) : Parser Node := do
  let test ← optionalUntil p .semi
  expect .semi
  let update ← optionalUntil p .rparen
  expect .rparen
  let body ← loopBody p
  nodeFrom lo (.statement .forLoop) [start, test, update, body]

/-- The rest of a loop over keys or elements, from `in` or `of` on. -/
def eachRest (lo : Nat) (target : Node) : Parser Node := do
  if ← eatWord "of" then
    let subject ← p .assignment
    expect .rparen
    let body ← loopBody p
    nodeFrom lo (.statement .forOfLoop) [target, subject, body]
  else
    expectWord "in"
    let subject ← p .expression
    expect .rparen
    let body ← loopBody p
    nodeFrom lo (.statement .forInLoop) [target, subject, body]

/-- What a declaration in the head of a loop over keys or elements may not have. -/
def checkHead (start : Node) : Parser Unit := do
  match start.children with
  | [d] =>
    match d.children with
    | [pattern, value] =>
      if !value.isAbsent then
        emit pattern.span .loopInitializer
      if (← isTypescript) && hasAnnotation pattern then
        emit pattern.span .loopTypeMark
    | _ => pure ()
  | [] => pure ()
  | _ :: rest => rest.forM fun d => emit (d.children.headD d).span .loopBindings
where
  hasAnnotation (pattern : Node) : Bool :=
    match pattern.kind, pattern.children with
    | .pattern (.name _ _), [type] => !type.isAbsent
    | .pattern _, items => items.any fun n =>
      match n.kind with
      | .type _ => true
      | _ => false
    | _, _ => false

/-- What a loop goes through with each key or element, when the head started with an
expression. -/
def eachTarget (start : Node) : Parser Node := do
  let target ← assignmentTarget start
  if (← isTypescript) && (← isWord "in") then
    match target.kind with
    | .pattern .array | .pattern .object => emit target.span .loopPattern
    | _ => pure ()
  return target

/-- Whether an expression at the start of a loop is the word that declares resources. -/
def isResourceWord (start : Node) : Bool :=
  match start.kind, start.children with
  | .ident "using", _ => true
  | .await, [e] => e.kind == .ident "using"
  | _, _ => false

def namedResource (lo : Nat) : Parser Node := do
  let (name, span) ← boundIdentifier false
  let pattern := Node.mk (.pattern (.name name false)) span [.absent]
  let d ← nodeFrom lo (.statement .declarator) [pattern, .absent]
  nodeFrom lo (.statement .resources) [d]

/-- A resource in the head of a loop, after the word that declares it. -/
def headResource? (lo : Nat) (start : Node) : Parser (Option Node) := do
  let next ← peek
  match (← form), next.form with
  | .word w false, .word "of" false | .word w false, .word "in" false =>
    if (← isTypescript) && isResourceWord start && w != "of" then
      return some (← namedResource lo)
    else
      return none
  | _, _ => return none

def forHead (lo : Nat) : Parser Node := do
  let startLo ← here
  if ← startsVariables then
    let start ← headVariables p startLo
    if ← startsEach then
      checkHead start
      eachRest p lo start
    else
      expect .semi
      forRest p lo start
  else if ← eat .semi then
    forRest p lo .absent
  else
    let start ← within ({ · with allowIn := false }) (p .expression)
    match ← headResource? startLo start with
    | some d => eachRest p lo d
    | none =>
      if ← startsEach then
        let target ← eachTarget start
        eachRest p lo target
      else
        expect .semi
        let start ← verify start
        forRest p lo start

def forLoop (lo : Nat) : Parser Node := do
  bump
  let word ← token
  let awaited ← eatWord "await"
  expect .lparen
  let n ← forHead p lo
  match n.kind with
  | .statement .forOfLoop => return n
  | _ =>
    if awaited then
      failAt word.span .awaitLoop
    return n

def returning (lo : Nat) : Parser Node := do
  bump
  let value ← if ← eatSemicolon then pure .absent else do
    let e ← p .expression
    expectSemicolon
    pure e
  let n ← nodeFrom lo (.statement .returning) [value]
  if !(← read).inFunction then
    emit n.span .returnOutside
  return n

def throwing (lo : Nat) : Parser Node := do
  bump
  if (← token).newline then
    failHere .breakAfterThrow
  let e ← p .expression
  expectSemicolon
  nodeFrom lo (.statement .throwing) [e]

/-- A jump must have somewhere to go. -/
def checkJump (span : Span) (isBreak : Bool) (label : Option String) : Parser Unit := do
  let s ← read
  let known := label.all s.labels.contains
  if isBreak then
    if !known then
      emit span .breakLabel
    else if label.isNone && !s.breakable then
      emit span .breakOutside
  else if !s.continuable then
    emit span .continueOutside
  else if !known then
    emit span .continueLabel

/-- A `break` or `continue` statement. -/
def jump (lo : Nat) : Parser Node := do
  let isBreak ← isWord "break"
  bump
  let label ← if ← eatSemicolon then pure none else do
    let (name, _) ← identifier
    expectSemicolon
    pure (some name)
  let n ← nodeFrom lo (.statement .jump) []
  checkJump n.span isBreak label
  return n

/-- A case after its test. -/
def caseRest (lo : Nat) (test : Node) : Parser Node := do
  expect .colon
  let items ← iterate (fun items => do
    if (← isWord "case") || (← isWord "default") || (← isPunct .rbrace) || (← isEnd) then
      return .inr items
    let s ← p .statement
    return .inl (items ++ [s])) []
  nodeFrom lo (.statement .switchCase) (test :: items)

/-- One case of a choice; only one has no test. -/
def switchCase (hasDefault : Bool) : Parser Node := do
  let lo ← here
  if ← eatWord "default" then
    if hasDefault then
      failHere .severalDefaults
    caseRest p lo .absent
  else
    expectWord "case"
    let test ← p .expression
    caseRest p lo test

def switch (lo : Nat) : Parser Node := do
  bump
  let subject ← condition p
  expect .lbrace
  let cases ← within ({ · with breakable := true }) (iterate (fun items => do
    if (← isWord "case") || (← isWord "default") then
      let c ← switchCase p (items.any isDefault)
      return .inl (items ++ [c])
    else
      return .inr items) [])
  expect .rbrace
  nodeFrom lo (.statement .switch) (subject :: cases)
where
  isDefault (n : Node) : Bool := n.children.head?.any Node.isAbsent

def handler : Parser Node := do
  let lo ← here
  if ← eatWord "catch" then
    let param ← if ← eat .lparen then do
        let b ← p .binding
        expect .rparen
        pure b
      else pure .absent
    let body ← p .block
    nodeFrom lo (.statement .handler) [param, body]
  else
    return .absent

def finalizer : Parser Node := do
  if ← eatWord "finally" then p .block else pure .absent

/-- A handler without its `try`, an error to recover from. -/
def strayHandler (lo : Nat) : Parser Node := do
  let t ← token
  emit t.span .semicolonExpected
  let read : Parser Unit := do
    let _ ← handler p
  let readLast : Parser Unit := do
    let _ ← finalizer p
  (try read catch _ => pure () : Parser Unit)
  (try readLast catch _ => pure () : Parser Unit)
  return .mk (.statement .expression) ⟨lo, t.span.hi⟩ [.mk .invalid t.span []]

def trying (lo : Nat) : Parser Node := do
  bump
  let body ← p .block
  let after ← here
  let caught ← handler p
  let last ← finalizer p
  if caught.isAbsent && last.isAbsent then
    emit ⟨after, after⟩ .semicolonExpected
  nodeFrom lo (.statement .trying) [body, caught, last]

def withObject (lo : Nat) : Parser Node := do
  emit (← token).span .withStatement
  bump
  let subject ← condition p
  let body ← p .body
  nodeFrom lo (.statement .withObject) [subject, body]

/-! ## Expression statements -/

/-- What follows a label; a function there is an error to recover from. -/
def labeledBody : Parser Node := do
  if ← isWord "function" then
    let special := (← peek).form == .punct (.op .mul)
    let f ← p .statement
    emit f.span .labelledFunction
    if special then
      emit f.span .labelledSpecial
    return f
  else
    p .body

def labeled (lo : Nat) (name : String) (span : Span) : Parser Node := do
  let known := (← read).labels.filter (· == name)
  let body ← within (fun s => { s with breakable := true, labels := name :: s.labels })
    (labeledBody p)
  known.forM fun _ => emit span (.repeatedLabel name)
  nodeFrom lo (.statement .labeled) [body]

/-- An expression statement. Before an operator a missing end is an error to recover from. -/
def expressionStatement (lo : Nat) : Parser Node := do
  let e ← p .expression
  match e.kind with
  | .ident name =>
    if ← eat .colon then
      labeled p lo name e.span
    else
      ending e
  | _ =>
    let e ← verify e
    ending e
where
  ending (e : Node) : Parser Node := do
    if ← eatSemicolon then
      nodeFrom lo (.statement .expression) [e]
    else
      let t ← token
      match t.form with
      | .punct (.op _) =>
        emit t.span .semicolonExpected
        let e ← p (.climb e 0)
        nodeFrom lo (.statement .expression) [e]
      | _ => failHere .statementEnd

end OptionalChain.Grammar
