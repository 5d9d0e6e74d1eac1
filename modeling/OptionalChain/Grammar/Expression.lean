import OptionalChain.Grammar.Class
import OptionalChain.Grammar.Markup

/-!
# Expressions

Operands, accesses and calls, operators by strength, assignments, and arrow functions. A
text in parentheses is first tried as the parameters of an arrow function.
-/

namespace OptionalChain.Grammar

variable (p : Parts)

def isArrow (n : Node) : Bool :=
  match n.kind with
  | .arrow => true
  | _ => false

/-! ## Arrow functions -/

def Setting.forArrow (async : Bool) (s : Setting) : Setting :=
  { s with
    inFunction := true, inAsync := async, inGenerator := false,
    breakable := false, continuable := false, labels := [] }

/-- Parameters, result type and arrow. -/
structure ArrowHead where
  typeParams : Node
  params : Node
  result : Node

def arrowMark : Parser Unit := do
  if (← token).newline then
    failExpected "=>"
  expect .arrow

def arrowHead (generic : Bool) : Parser ArrowHead := do
  let typeParams ← if generic then typeParameters p else pure .absent
  let params ← within ({ · with allowIn := true, inBranch := false }) (parameters p false)
  let result ← returnAnnotation? p
  arrowMark
  return ⟨typeParams, params, result⟩

def arrowBody (lo : Nat) (async : Bool) (h : ArrowHead) : Parser Node := do
  within (Setting.forArrow async) do
    let body ← if ← isPunct .lbrace then bracedBody p else p .assignment
    nodeFrom lo .arrow [h.params, body, h.typeParams, h.result]

/-- An arrow function, if one starts here. In the first branch of a conditional a result type
counts only when the colon of the conditional still follows. -/
def arrow? (lo : Nat) (async generic : Bool) : Parser (Option Node) := do
  let before ← get
  match ← attempt (within (Setting.forArrow async) (arrowHead p generic)) with
  | none => return none
  | some h =>
    if (← read).inBranch && !h.result.isAbsent then
      match ← attempt (do
        let n ← arrowBody p lo async h
        if !(← isPunct .colon) then
          failExpected ":"
        return n) with
      | some n => return some n
      | none =>
        rewind before
        return none
    else
      return some (← arrowBody p lo async h)

/-- An arrow function of one bare name, `name => body`. -/
def shortArrow (lo : Nat) (async : Bool) : Parser Node := do
  let (name, span) ← within (Setting.forArrow async) identifier
  let params := Node.mk .parameters span [.mk (.pattern (.name name false)) span [.absent]]
  arrowMark
  arrowBody p lo async ⟨.absent, params, .absent⟩

/-! ## Operands -/

/-- Runs a parser for a value, whatever the surroundings are. -/
def asValue : Parser Node → Parser Node :=
  within ({ · with allowIn := true, inBranch := false })

/-- An argument or element, spread or not. -/
def argument : Parser Node := do
  let lo ← here
  if ← eat .ellipsis then
    let e ← asValue (p .assignment)
    nodeFrom lo (.argument true) [e]
  else
    let e ← asValue (p .assignment)
    return .mk (.argument false) e.span [e]

def arguments : Parser Node := do
  let lo ← here
  expect .lparen
  let items ← iterate (fun items => do
    if ← endsList .rparen then
      return .inr items
    let n ← argument p
    let items := items ++ [n]
    if ← endsList .rparen then
      return .inr items
    expect .comma
    return .inl items) []
  nodeFrom lo .arguments items

def arrayLiteral : Parser Node := do
  let lo ← here
  expect .lbrack
  let items ← iterate (fun items => do
    if ← endsList .rbrack then
      return .inr items
    if ← eat .comma then
      return .inl (items ++ [Node.absent])
    let n ← argument p
    let items := items ++ [n]
    if ← eat .rbrack then
      return .inr items
    expect .comma
    return .inl items) []
  nodeFrom lo .array items

/-- A method from the end of its name on, with the check of its parameters. -/
def methodRestOf (lo : Nat) (async generator : Bool) (check : Node → Parser Unit) : Parser Node :=
  within ({ · with directSuper := true }) (functionChecked p lo async generator check)

def plainMethod (lo : Nat) (async generator : Bool) (key : Node) : Parser Node := do
  let f ← methodRestOf p lo async generator fun _ => pure ()
  return .mk .method f.span [key, f]

def getterOf (lo : Nat) (key : Node) : Parser Node := do
  let f ← methodRestOf p lo false false (checkGetter key)
  match f.children with
  | [_, body, _, result] => return .mk .getter f.span [key, result, body]
  | _ => return .mk .getter f.span [key]

def setterOf (lo : Nat) (key : Node) : Parser Node := do
  let f ← methodRestOf p lo false false (checkSetter key)
  match f.children with
  | params :: body :: _ =>
    if params.children.isEmpty then
      emit key.span .setterParameters
    return .mk .setter f.span (key :: params.children ++ [body])
  | _ => return .mk .setter f.span [key]

/-- Whether the token after a name shows which kind of property it is. -/
def followsKey (named : Bool) : Parser Bool := do
  match ← form with
  | .punct .lparen | .punct .lbrack | .punct .colon | .punct .comma | .punct .question
  | .punct .assign | .punct (.op .mul) | .punct (.op .lt) => return true
  | .punct .rbrace => return named
  | .word _ _ | .string _ | .number _ => return true
  | _ => return false

/-- A shorthand property, perhaps with a default. -/
def shorthandOf (lo : Nat) (name : String) (span : Span) : Parser Node := do
  let ident := Node.mk (.ident name) span []
  checkShorthand name span
  if ← eat .assign then
    let value ← asValue (p .assignment)
    nodeFrom lo .shorthandDefault [ident, value]
  else
    return .mk .shorthand span [ident]

/-- A property by its first word, after the mark of an optional one. -/
def propertyByWord (lo : Nat) (name : String) (span : Span) : Parser Node := do
  match ← form with
  | .punct .assign | .punct .comma | .punct .rbrace => shorthandOf p lo name span
  | _ =>
    match name with
    | "get" =>
      let key ← propertyKey p
      getterOf p lo key
    | "set" =>
      let key ← propertyKey p
      setterOf p lo key
    | "async" =>
      let generator ← eat (.op .mul)
      let key ← propertyKey p
      plainMethod p lo true generator key
    | _ =>
      failHere (.unexpected (← get).tokenText
        (if ← isTypescript then
          "... , *,  (, [, :, , ?, =, an identifier, public, protected, private, readonly, <."
        else "... , *,  (, [, :, , ?, = or an identifier"))

/-- A property whose name is the word `name`, which neither a value nor parameters follow. -/
def propertyOfWord (lo : Nat) (name : String) (span : Span) : Parser Node := do
  if ← isPunct .question then
    let mark ← token
    bump
    emit mark.span .optionalProperty
  propertyByWord p lo name span

def accessModifiers : List String := ["public", "protected", "private", "readonly"]

/-- Takes a modifier in front of a property, where only a type checker could refuse it. -/
def eatAccessModifier : Parser Unit := do
  let next ← peek
  match (← form), next.form with
  | .word w false, .word _ _ | .word w false, .punct .lbrack | .word w false, .punct .lbrace =>
    if (← isTypescript) && accessModifiers.contains w && !next.newline then
      bump
  | _, _ => return

/-- A property from its name on: value, method, accessor or shorthand. -/
def propertyNamed (lo : Nat) : Parser Node := do
  let t ← token
  let key ← propertyKey p
  let named := match t.form with
    | .word _ _ => true
    | _ => false
  let ts ← isTypescript
  if ts && !(← followsKey named) then
    emit (← token).span .semicolonExpected
    let span ← spanFrom lo
    return .mk .property span [key, .mk .invalid span []]
  else if ← eat .colon then
    let value ← asValue (p .assignment)
    nodeFrom lo .property [key, value]
  else if (← isPunct .lparen) || (ts && (← isPunct (.op .lt))) then
    plainMethod p lo false false key
  else
    match t.form with
    | .word name _ => propertyOfWord p lo name t.span
    | _ => failHere (.unexpected (← get).tokenText "identifier")

def objectProperty : Parser Node := do
  let lo ← here
  if ← eat .ellipsis then
    let e ← asValue (p .assignment)
    nodeFrom lo .spread [e]
  else if ← eat (.op .mul) then
    let key ← propertyKey p
    plainMethod p lo false true key
  else
    eatAccessModifier
    propertyNamed p lo

def objectLiteral : Parser Node := do
  let lo ← here
  expect .lbrace
  let items ← commaList .rbrace (objectProperty p)
  nodeFrom lo .object items

def templateLiteral (tagged : Bool) : Parser Node := do
  let lo ← here
  let items ← templateParts tagged (asValue (p .expression))
  nodeFrom lo .template items

/-- The flags after a regular expression, which look like a name. -/
def regexFlags (cs : List Char) : List Char × List Char :=
  if cs.head?.any Text.isIdentStart then cs.span Text.isIdentPart else ([], cs)

/-- The first of the known flags that is written twice. -/
def repeatedFlag? : List Char → Option Char
  | [] => none
  | c :: cs => if isFlag c && cs.contains c then some c else repeatedFlag? cs
where
  isFlag (c : Char) : Bool := ['d', 'g', 'i', 'm', 's', 'u', 'v', 'y'].contains c

def checkFlags (span : Span) (flags : List Char) : Parser Unit := do
  if flags.any (!repeatedFlag?.isFlag ·) then
    emit span .regexFlags
  if let some flag := repeatedFlag? flags then
    emit span (.repeatedFlag flag)

/-- Reads the slash at the cursor again as the start of a regular expression. -/
def regexLiteral : Parser Node := do
  let c ← get
  let lo := c.token.span.lo
  match Token.regexBody false (c.text.drop 1) with
  | none =>
    let stop := lo + Text.size (c.text.takeWhile (!Token.isLineEnd ·))
    let token : Token := ⟨.invalid ⟨⟨lo, stop⟩, .unterminatedRegex⟩, ⟨lo, stop⟩, c.token.newline⟩
    set { c with token, stuck := true }
    failHere .expressionExpected
  | some after =>
    let (flags, rest) := regexFlags after
    let stop := lo + (Text.size c.text - Text.size rest)
    set ({ c with prevEnd := stop }.goto stop rest)
    checkFlags ⟨lo, stop⟩ flags
    return .mk (.literal .regex) ⟨lo, stop⟩ []

/-- An expression in parentheses, and whether it is marked as a parameter by its type. -/
def parenItem : Parser (Node × Bool) := do
  if ← isOptionalName then
    let n ← identifierNode
    bump
    typed n
  else
    let n ← argument p
    if (← isTypescript) && (← isPunct .colon) then
      typed n
    else
      return (n, false)
where
  typed (n : Node) : Parser (Node × Bool) := do
    let _ ← annotation? p
    let _ ← initializer? p
    return (n, true)
  isOptionalName : Parser Bool := do
    let (one, two) ← peekTwo
    match (← form), one.form, two.form with
    | .word w false, .punct .question, .punct q =>
      return (← isTypescript) && !Token.reservedWords.contains w
        && [Punct.comma, .assign, .rparen, .colon].contains q
    | _, _, _ => return false

/-- What stands in parentheses, between commas. -/
def parenItems : Parser (List (Node × Bool)) := do
  expect .lparen
  iterate (fun items => do
    if ← endsList .rparen then
      return .inr items
    let item ← parenItem p
    let items := items ++ [item]
    if ← eat .rparen then
      return .inr items
    expect .comma
    return .inl items) []

/-- The value of an argument. -/
def argumentValue (n : Node) : Node :=
  match n.kind, n.children with
  | .argument _, [e] => e
  | _, _ => n

/-- An expression read as a parameter although it is none. -/
def forcedParameter (n : Node) : Parser Node := do
  let e := argumentValue n
  match e.kind with
  | .paren =>
    emit e.span .notPattern
    return .mk .invalid e.span []
  | .ident _ | .array | .object | .assign =>
    match elementPattern? e with
    | some pattern => return pattern
    | none => failAt e.span .notPattern
  | _ => failAt e.span .notPattern

/-- The rest of an arrow function whose parameters were read as expressions. -/
def forcedArrow (lo : Nat) (items : List Node) : Parser Node := do
  if (← token).newline then
    failAt (← spanFrom lo) .breakBeforeArrow
  let paramsSpan ← spanFrom lo
  expect .arrow
  let params ← items.mapM forcedParameter
  arrowBody p lo false ⟨.absent, .mk .parameters paramsSpan params, .absent⟩

/-- Properties of an object in parentheses cannot have defaults. -/
def checkShorthandValues (n : Node) : Parser Unit := do
  match n.kind with
  | .object => n.children.forM fun m => do
    match m.kind with
    | .shorthandDefault => emit m.span .shorthandValue
    | _ => pure ()
  | _ => pure ()

def parenValue (n : Node) : Parser Node := do
  match n.kind, n.children with
  | .argument true, [e] => failAt e.span .spreadInParens
  | _, _ => return argumentValue n

/-- Expressions in parentheses. -/
def parenthesized : Parser Node := do
  let lo ← here
  let items ← asParens (parenItems p)
  if items.any (·.2) || (← isPunct .arrow) then
    forcedArrow p lo (items.map (·.1))
  else
    items.forM fun item => checkShorthandValues (argumentValue item.1)
    let span ← spanFrom lo
    let values ← items.mapM fun item => parenValue item.1
    match values with
    | [] => failAt span .emptyParens
    | [e] => return .mk .paren span [e]
    | first :: rest =>
      let last := rest.getLastD first
      return .mk .paren span [.mk .sequence (first.span.upTo last.span) values]
where
  asParens : Parser (List (Node × Bool)) → Parser (List (Node × Bool)) :=
    within ({ · with allowIn := true, inBranch := false })

/-- An arrow function with a body in braces is no operand of an operator. -/
def arrowEnd (n : Node) : Parser Node := do
  match n.children with
  | _ :: body :: _ =>
    match body.kind, (← form) with
    | .statement .block, .punct (.op _) => joined
    | .statement .block, .word "in" false | .statement .block, .word "instanceof" false => joined
    | _, _ => return n
  | _ => return n
where
  joined : Parser Node := do
    emit (← token).span .semicolonExpected
    let e ← p (.climb n 0)
    if !(← isPunct .semi) then
      emit (← token).span .semicolonExpected
    return e

def parenOperand : Parser Node := do
  let lo ← here
  match ← arrow? p lo false false with
  | some n => arrowEnd p n
  | none => parenthesized p

def leaf (kind : Kind) : Parser Node := do
  let t ← token
  bump
  return .mk kind t.span []

/-- An operand that starts with `async`. -/
def asyncOperand : Parser Node := do
  let lo ← here
  let (one, two) ← peekTwo
  if one.newline then
    reference lo
  else
    match one.form, two.form with
    | .word "function" false, _ =>
      bump
      functionWith p lo true .functionExpr false
    | .word _ _, .punct .arrow =>
      bump
      shortArrow p lo true
    | .punct .lparen, _ => arrowOr lo false
    | .punct (.op .lt), _ => if ← isTypescript then arrowOr lo true else reference lo
    | _, _ => reference lo
where
  reference (lo : Nat) : Parser Node := do
    if (← peek).form == .punct .arrow then
      shortArrow p lo false
    else
      identifierNode
  arrowOr (lo : Nat) (generic : Bool) : Parser Node := do
    let before ← get
    bump
    match ← arrow? p lo true generic with
    | some n => if generic then return n else arrowEnd p n
    | none =>
      rewind before
      identifierNode

/-- Either `import(…)` or `import.meta`. -/
def importOperand : Parser Node := do
  let lo ← here
  let t ← token
  bump
  if ← eat .dot then
    let (name, _) ← anyWord
    if name != "meta" then
      failHere (.unexpected (← get).tokenText "meta")
    nodeFrom lo .metaProperty []
  else if ← isPunct .lparen then
    let args ← arguments p
    nodeFrom lo (.call false) [.mk .importRef t.span [], args, .absent]
  else
    failHere (.unexpected (← get).tokenText "(")

/-- The word `super` with its access or call. -/
def superOperand : Parser Node := do
  let lo ← here
  let t ← token
  bump
  if ← isPunct .lparen then
    let args ← arguments p
    nodeFrom lo (.call false) [.mk .superRef t.span [], args, .absent]
  else if ← eat .dot then
    let (name, span) ← anyWord
    checkSuper t.span
    nodeFrom lo .superMember [.mk (.name name) span []]
  else if ← isPunct .lbrack then
    let keyLo ← here
    bump
    let e ← within ({ · with allowIn := true }) (p .expression)
    expect .rbrack
    let key ← nodeFrom keyLo .computed [e]
    checkSuper t.span
    nodeFrom lo .superMember [key]
  else
    failHere .superOutside
where
  checkSuper (span : Span) : Parser Unit := do
    if !(← isTypescript) && !(← read).directSuper then
      failAt span .superOutside

/-- The word `new` with its operand and arguments, or `new.target`. -/
def creation : Parser Node := do
  let lo ← here
  expectWord "new"
  if ← eat .dot then
    if !(← eatWord "target") then
      failHere (.unexpected (← get).tokenText "target")
    let n ← nodeFrom lo .metaProperty []
    if !(← read).newTarget then
      emit n.span .newTargetOutside
    return n
  else
    let callee ← p .callee
    match callee.kind with
    | .member _ | .call _ =>
      if callee.inChain then
        failAt callee.span .optionalConstructor
    | _ => pure ()
    let typeArgs ← if (← isTypescript) && (← isLess) then
        match ← speculate (do
          let a ← typeArguments p
          if (← isPunct .lparen) then return a
          failExpected "(") with
        | some a => pure a
        | none => pure Node.absent
      else pure .absent
    let args ← if ← isPunct .lparen then arguments p else pure .absent
    nodeFrom lo .new [callee, args, typeArgs]

def primary : Parser Node := do
  let t ← token
  let lo := t.span.lo
  match t.form with
  | .number value => leaf (.literal (.number value))
  | .bigint value => leaf (.literal (.bigint value))
  | .string value => leaf (.literal (.string value))
  | .punct .backtick => templateLiteral p false
  | .punct .lparen => parenOperand p
  | .punct .lbrack => arrayLiteral p
  | .punct .lbrace => objectLiteral p
  | .punct (.op .div) => regexLiteral
  | .punct .compound => if (← get).text.head? == some '/' then regexLiteral else unexpected
  | .punct .hash =>
    bump
    let (name, _) ← anyWord
    nodeFrom lo (.privateName name) []
  | .punct .sign =>
    if (← dialect).decorators then
      let _ ← decorators p
      classWith p (← here) .classExpr false
    else
      unexpected
  | .word "async" false => asyncOperand p
  | .word w false =>
    match w with
    | "this" => leaf .thisRef
    | "null" => leaf (.literal .null)
    | "true" => leaf (.literal (.boolean true))
    | "false" => leaf (.literal (.boolean false))
    | "function" => functionWith p lo false .functionExpr false
    | "class" => classWith p lo .classExpr false
    | "new" => creation p
    | "import" => importOperand p
    | "super" => superOperand p
    | w => if Token.reservedWords.contains w then unexpected else name lo
  | .word _ true => name lo
  | _ => unexpected
where
  unexpected : Parser Node := failHere .expressionExpected
  name (lo : Nat) : Parser Node := do
    let next ← peek
    if next.form == .punct .arrow && !next.newline then
      shortArrow p lo false
    else
      identifierNode

/-! ## Accesses and calls -/

def computedKey : Parser Node := do
  let lo ← here
  expect .lbrack
  let e ← asValue (p .expression)
  expect .rbrack
  nodeFrom lo .computed [e]

def dottedKey : Parser Node := do
  if ← isPunct .hash then
    privateName
  else
    let (name, span) ← anyWord
    return .mk (.name name) span []

/-- Whether type arguments in an expression may end before this token. -/
def endsTypeArguments : Parser Bool := do
  let t ← token
  match t.form with
  | .punct (.op .lt) | .punct (.op .gt) | .punct (.op .add) | .punct (.op .sub)
  | .punct (.op .shr) | .punct (.op .ge) | .punct .lparen | .punct .backtick => return false
  | .punct (.op _) => return true
  | .word "in" false | .word "instanceof" false | .word "as" false | .word "satisfies" false
  | .word "extends" false | .word "implements" false => return true
  | .word _ _ | .number _ | .bigint _ | .string _ => return t.newline
  | .punct .lbrack | .punct .lbrace | .punct .bang | .punct .tilde | .punct .plusPlus
  | .punct .minusMinus | .punct .hash => return t.newline
  | _ => return true

/-- Type arguments followed by a call, a template or an end; the operand of `new` takes no
calls. -/
def typeArgumentStep (calls : Bool) (base : Node) : Parser Node := do
  let lo := base.span.lo
  let args ← typeArguments p
  if calls && (← isPunct .lparen) then
    let values ← arguments p
    nodeFrom lo (.call false) [base, values, args]
  else if ← isPunct .backtick then
    let t ← templateLiteral p true
    nodeFrom lo .taggedTemplate [base, args, t]
  else if ← endsTypeArguments then
    nodeFrom lo .instantiation [base, args]
  else
    failHere .expressionExpected

/-- A step after `?.`, which has been taken. -/
def optionalStep (base : Node) : Parser Node := do
  let lo := base.span.lo
  match ← form with
  | .punct .lparen =>
    let values ← arguments p
    nodeFrom lo (.call true) [base, values, .absent]
  | .punct (.op .lt) | .punct (.op .shl) =>
    let args ← typeArguments p
    let values ← arguments p
    nodeFrom lo (.call true) [base, values, args]
  | .punct .lbrack =>
    let key ← computedKey p
    nodeFrom lo (.member true) [base, key]
  | .punct .backtick => failHere .optionalTemplate
  | _ =>
    let key ← dottedKey
    nodeFrom lo (.member true) [base, key]

/-- Accesses, calls, assertions and templates after an operand; the operand of `new` takes no
calls. -/
def steps (calls : Bool) (base : Node) : Parser Node :=
  iterate (fun base => do
    let lo := base.span.lo
    let t ← token
    match t.form with
    | .punct .bang =>
      if (← isTypescript) && !t.newline then
        bump
        return .inl (← nodeFrom lo .nonNull [base])
      else
        return .inr base
    | .punct .questionDot =>
      bump
      return .inl (← optionalStep p base)
    | .punct .dot =>
      bump
      let key ← dottedKey
      return .inl (← nodeFrom lo (.member false) [base, key])
    | .punct .lbrack =>
      let key ← computedKey p
      return .inl (← nodeFrom lo (.member false) [base, key])
    | .punct .lparen =>
      if calls then
        let values ← arguments p
        return .inl (← nodeFrom lo (.call false) [base, values, .absent])
      else
        return .inr base
    | .punct .backtick =>
      if base.inChain then
        emit t.span .optionalTemplate
      let template ← templateLiteral p true
      return .inl (← nodeFrom lo .taggedTemplate [base, .absent, template])
    | .punct (.op .lt) | .punct (.op .shl) =>
      if ← isTypescript then
        match ← speculate (typeArgumentStep p calls base) with
        | some n => return .inl n
        | none => return .inr base
      else
        return .inr base
    | _ => return .inr base) base

/-- An operand with its accesses and calls. -/
def access : Parser Node := do
  if (← dialect).jsx && (← isLess) then
    let n ← p .markup
    expectGreater
    return n
  else
    let base ← primary p
    if isArrow base then
      return base
    else
      steps p true base

/-- The operand of `new`. -/
def callee : Parser Node := do
  let base ← primary p
  steps p false base

/-! ## Operators -/

def unaryPunct? : Punct → Option UnaryOp
  | .bang => some .not
  | .tilde => some .tilde
  | .op .add => some .plus
  | .op .sub => some .minus
  | _ => none

def unaryWord? : String → Option UnaryOp
  | "delete" => some .delete
  | "void" => some .void
  | "typeof" => some .typeof
  | _ => none

def unaryOp? : TokenForm → Option UnaryOp
  | .punct q => unaryPunct? q
  | .word w false => unaryWord? w
  | _ => none

/-- A type checker lets only a property be deleted. -/
def checkDeletedType (arg : Node) : Parser Unit := do
  if ← isTypescript then
    let inner := arg.stripParens
    match inner.kind with
    | .member _ => pure ()
    | _ => emit inner.span .deleteOperand

def checkDeleted (arg : Node) : Parser Unit := do
  match arg.kind with
  | .ident _ => emit arg.span .deleteName
  | _ => pure ()
  checkDeletedType arg

def unaryWith (lo : Nat) (op : UnaryOp) : Parser Node := do
  bump
  let argLo ← here
  let arg ← try p .unary catch e => do
    recover e
    pure (.mk .invalid ⟨argLo - 1, argLo - 1⟩ [])
  if op == .delete then
    checkDeleted arg
  return .mk (.unary op) ⟨lo, arg.span.hi⟩ [arg]

def awaiting (lo : Nat) : Parser Node := do
  let t ← token
  let s ← read
  bump
  if ← isPunct (.op .mul) then
    failHere .awaitStar
  if !s.inAsync && (← awaitsNothing) then
    emit t.span .awaitName
    return .mk (.ident "await") t.span []
  if s.inFunction && !s.inAsync then
    emit t.span .awaitOutside
  let arg ← p .unary
  nodeFrom lo .await [arg]
where
  awaitsNothing : Parser Bool := do
    let t ← token
    match t.form with
    | .endOfText | .punct .semi | .punct .rbrace | .punct .rparen | .punct .rbrack
    | .punct .comma => return true
    | _ => return t.newline

/-- An assertion `<T>e` or `<const>e` after its first mark. -/
def angleRest (lo : Nat) : Parser Node := do
  if ← eatWord "const" then
    expectGreater
    let e ← p .unary
    nodeFrom lo .constAssertion [e]
  else
    let t ← p .type
    expectGreater
    let e ← p .unary
    nodeFrom lo .typeAssertion [e, t]

def angleAssertion (lo : Nat) : Parser Node := do
  let _ ← eatLess
  angleRest p lo

def unary : Parser Node := do
  let t ← token
  let lo := t.span.lo
  let d ← dialect
  if d.typescript && !d.jsx && (← isLess) then
    angleAssertion p lo
  else
    match unaryOp? t.form with
    | some op => unaryWith p lo op
    | none =>
      match t.form with
      | .punct .plusPlus | .punct .minusMinus =>
        bump
        let arg ← p .unary
        checkChanged true arg
        nodeFrom lo .update [arg]
      | .word "await" false => awaiting p lo
      | _ =>
        let e ← p .access
        if isArrow e then
          return e
        let t ← token
        if (t.form == .punct .plusPlus || t.form == .punct .minusMinus) && !t.newline then
          checkChanged true e
          bump
          nodeFrom lo .update [e]
        else
          return e

def binaryOp? : Parser (Option BinaryOp) := do
  match ← form with
  | .punct (.op o) => return some o
  | .word "in" false => return if (← read).allowIn then some .isIn else none
  | .word "instanceof" false => return some .instanceOf
  | _ => return none

/-- The words `as` and `satisfies` after an operand; they bind like relations. -/
def assertions (floor : Nat) (left : Node) : Parser Node :=
  iterate (fun left => do
    let lo := left.span.lo
    if !(← isTypescript) || (← token).newline then
      return .inr left
    if floor < BinaryOp.isIn.precedence && (← isWord "as") then
      bump
      if ← eatWord "const" then
        return .inl (← nodeFrom lo .constAssertion [left])
      let t ← p .type
      return .inl (← nodeFrom lo .asType [left, t])
    if ← isWord "satisfies" then
      bump
      let t ← p .type
      return .inl (← nodeFrom lo .satisfies [left, t])
    return .inr left) left

def isLogical (n : Node) : Bool :=
  match n.kind with
  | .binary .and | .binary .or => true
  | _ => false

/-- An unparenthesized `??` as the left operand of `&&` or `||`. -/
def hasNullishLeft : Node → Bool
  | .binary .and _ (.binary .nullish ..) _ => true
  | .binary .or _ (.binary .nullish ..) _ => true
  | _ => false

def isUnary (n : Node) : Bool :=
  match n.kind with
  | .unary _ | .await => true
  | _ => false

/-- One more operator stronger than `floor`, with the fact whether there was one. -/
def climbOnce (floor : Nat) (left : Node) : Parser (Node × Bool) := do
  let left ← assertions p floor left
  match ← binaryOp? with
  | none => return (left, false)
  | some op =>
    if op.precedence ≤ floor then
      return (left, false)
    bump
    if op == .exp && isUnary left then
      failHere .unaryPower
    let first ← p .unary
    let right ← p (.climb first (if op == .exp then op.precedence - 1 else op.precedence))
    if op == .nullish then
      if isLogical left then
        emit left.span .mixedNullish
      if isLogical right then
        emit right.span .mixedNullish
    return (.binary op (left.span.upTo right.span) left right, true)

/-- Operators stronger than `floor` after an operand. -/
def climb (left : Node) (floor : Nat) : Parser Node :=
  iterate (fun left => do
    let (n, more) ← climbOnce p floor left
    if hasNullishLeft n then
      emit n.span .mixedNullish
    return if more then .inl n else .inr n) left

/-- Operands joined by operators. A missing first operand before an operator is an error to
recover from; at the end of the text that end is the error. -/
def binary : Parser Node := do
  let left ← try p .unary catch e => do
    rejectInvalid
    let t ← token
    if (← binaryOp?).isSome then
      emit t.span .expressionExpected
      pure (.mk .invalid e.span [])
    else if t.form == .endOfText then
      failAtEnd
    else
      throw e
  if isArrow left then
    return left
  else
    p (.climb left 0)

def conditional : Parser Node := do
  let lo ← here
  let test ← binary p
  if isArrow test then
    return test
  if ← eat .question then
    let yes ← within ({ · with allowIn := true, inBranch := true }) (p .assignment)
    expect .colon
    let no ← within ({ · with inBranch := false }) (p .assignment)
    nodeFrom lo .conditional [test, yes, no]
  else
    return test

/-! ## Assignments -/

/-- Whether nothing that could be yielded follows on this line. -/
def yieldsNothing : Parser Bool := do
  let t ← token
  if t.newline then
    return true
  match t.form with
  | .endOfText | .punct .rparen | .punct .rbrack | .punct .rbrace | .punct .comma | .punct .semi
  | .punct .colon | .word "in" false => return true
  | _ => return false

def yielding : Parser Node := do
  let lo ← here
  bump
  if ← yieldsNothing then
    nodeFrom lo .yield [.absent]
  else
    let _ ← eat (.op .mul)
    let e ← p .assignment
    nodeFrom lo .yield [e]

/-- The result of an operator, to which nothing is assigned. -/
def isOperation (n : Node) : Bool :=
  match n.kind with
  | .conditional | .binary _ | .unary _ | .update => true
  | _ => false

def assignmentBase : Parser Node := do
  if (← read).inGenerator && (← isWord "yield") then
    yielding p
  else
    rejectInvalid
    let lo ← here
    let left ← conditional p
    if isArrow left || isOperation left then
      return left
    match ← form with
    | .punct .assign =>
      let target ← assignmentTarget left
      bump
      let value ← p .assignment
      nodeFrom lo .assign [target, value]
    | .punct .compound =>
      checkChanged false left
      if !isTargetShape left then
        failAt left.span .invalidTarget
      bump
      let value ← p .assignment
      nodeFrom lo .assign [left, value]
    | _ => return left

def assignment : Parser Node := do
  let d ← dialect
  if d.typescript && (← isLess) then
    let lo ← here
    if d.jsx then
      match ← attempt (assignmentBase p) with
      | some n => return n
      | none =>
        match ← arrow? p lo false true with
        | some n => return n
        | none => assignmentBase p
    else
      match ← arrow? p lo false true with
      | some n => return n
      | none => assignmentBase p
  else
    assignmentBase p

def expression : Parser Node := do
  let lo ← here
  let first ← p .assignment
  if ← isPunct .comma then
    let items ← iterate (fun items => do
      if ← eat .comma then
        let e ← p .assignment
        return .inl (items ++ [e])
      else
        return .inr items) [first]
    nodeFrom lo .sequence items
  else
    return first

end OptionalChain.Grammar
