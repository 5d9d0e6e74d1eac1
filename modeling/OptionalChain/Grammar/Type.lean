import OptionalChain.Grammar.Cursor

/-!
# Types

Unions, intersections, function types, literals, references, and the members of interfaces
and type literals.
-/

namespace OptionalChain.Grammar

variable (p : Parts)

/-! ## Names, arguments and parameters -/

/-- A dotted name: an identifier, or a qualified name whose parts are not kept. -/
def entityName : Parser Node := do
  let lo ← here
  let (first, span) ← anyWord
  let rec more (fuel : Nat) (qualified : Bool) : Parser Bool := do
    match fuel with
    | 0 => return qualified
    | fuel + 1 =>
      if ← eat .dot then
        let _ ← anyWord
        more fuel true
      else
        return qualified
  if ← more (← budget) false then
    nodeFrom lo (.type .qualified) []
  else
    return .mk (.ident first) span []

/-- Types up to the closing angle bracket. -/
def typesUntilGreater : Parser (List Node) :=
  iterate (fun items => do
    match (← get).text with
    | '>' :: _ =>
      expectGreater
      return .inr items
    | _ =>
      let t ← p .type
      let items := items ++ [t]
      if ← eat .comma then
        return .inl items
      expectGreater
      return .inr items) []

def typeArguments : Parser Node := do
  let lo ← here
  if !(← eatLess) then
    failExpected "<"
  let items ← within ({ · with noConditional := false }) (typesUntilGreater p)
  let n ← nodeFrom lo (.type .arguments) items
  if items.isEmpty then
    emit n.span .emptyTypeArguments
  return n

/-- Type arguments on the same line, if any. -/
def typeArguments? : Parser Node := do
  if (← isLess) && !(← token).newline then
    typeArguments p
  else
    return .absent

/-- One type parameter with its modifiers, constraint and default. -/
def typeParameter : Parser Node := do
  let lo ← here
  let modifiers := ["const", "in", "out"]
  let rec skip (fuel : Nat) : Parser Unit := do
    match fuel with
    | 0 => return
    | fuel + 1 =>
      match (← form), (← peek).form with
      | .word w false, .word _ _ =>
        if modifiers.contains w && !(← isExtends) then
          bump
          skip fuel
      | _, _ => return
  skip 3
  let _ ← anyWord
  let bound ← if ← eatWord "extends" then p .type else pure .absent
  let fallback ← if ← eat .assign then p .type else pure .absent
  nodeFrom lo (.type .parameter) [bound, fallback]
where
  isExtends : Parser Bool := return (← peek).form == .word "extends" false

def typeParameters : Parser Node := do
  let lo ← here
  if !(← eatLess) then
    failExpected "<"
  let items ← iterate (fun items => do
    match (← get).text with
    | '>' :: _ =>
      expectGreater
      return .inr items
    | _ =>
      let t ← typeParameter p
      let items := items ++ [t]
      if ← eat .comma then
        return .inl items
      expectGreater
      return .inr items) ([] : List Node)
  nodeFrom lo (.type .parameters) items

def typeParameters? : Parser Node := do
  if (← isTypescript) && (← isLess) then
    typeParameters p
  else
    return .absent

/-- A parameter of a signature. -/
def signatureParameter : Parser Node := do
  let lo ← here
  if ← eat .ellipsis then
    let n ← p .binding
    nodeFrom lo (.pattern .rest) [n]
  else
    p .binding

def signatureParameters : Parser Node := do
  let lo ← here
  expect .lparen
  let items ← openList .rparen (signatureParameter p)
  nodeFrom lo .parameters items

/-- A return type: a type, or a predicate about an argument. -/
def returnType : Parser Node := do
  let lo ← here
  let (one, two) ← peekTwo
  match (← form), one.form, two.form with
  | .word "asserts" false, .word subject _, .word "is" false =>
    if one.newline || subject == "is" then
      p .type
    else
      bump; bump; bump
      let t ← p .type
      nodeFrom lo (.type .predicate) [t]
  | .word "asserts" false, .word subject _, _ =>
    if one.newline || subject == "is" then
      if subject == "is" && !one.newline then
        bump; bump
        let t ← p .type
        nodeFrom lo (.type .predicate) [t]
      else
        p .type
    else
      bump; bump
      nodeFrom lo (.type .predicate) []
  | .word _ _, .word "is" false, _ =>
    if one.newline then
      p .type
    else
      bump; bump
      let t ← p .type
      nodeFrom lo (.type .predicate) [t]
  | _, _, _ => p .type

/-- A colon and a type, if a colon stands here. -/
def annotation? : Parser Node := do
  if (← isTypescript) && (← isPunct .colon) then
    bump
    within ({ · with noConditional := false }) (p .type)
  else
    return .absent

/-- A colon and a return type, if a colon stands here. -/
def returnAnnotation? : Parser Node := do
  if (← isTypescript) && (← isPunct .colon) then
    bump
    within ({ · with noConditional := false }) (returnType p)
  else
    return .absent

/-! ## Members -/

/-- A property name: a word, a string, a number, a private name or an expression in brackets. -/
def propertyKey : Parser Node := do
  let t ← token
  match t.form with
  | .word name _ =>
    bump
    return .mk (.name name) t.span []
  | .string value =>
    bump
    return .mk (.literal (.string value)) t.span []
  | .number value =>
    bump
    return .mk (.literal (.number value)) t.span []
  | .bigint value =>
    bump
    return .mk (.literal (.bigint value)) t.span []
  | .punct .lbrack =>
    bump
    let e ← within ({ · with allowIn := true }) (p .assignment)
    expect .rbrack
    nodeFrom t.span.lo .computed [e]
  | .punct .hash => privateName
  | .endOfText => failAtEnd
  | _ =>
    failHere (.unexpected (← get).tokenText
      "identifier, string literal, numeric literal or [ for the computed key")

/-- Whether a token can start a property name. -/
def startsKey : TokenForm → Bool
  | .word _ _ | .string _ | .number _ | .bigint _ | .punct .lbrack | .punct .hash => true
  | _ => false

def memberSeparator : Parser Unit := do
  if !(← eat .comma) then
    expectSemicolon

/-- Whether an index signature starts here: a bracket, a name and a colon. -/
def startsIndex : Parser Bool := do
  match (← form), (← peekTwo) with
  | .punct .lbrack, (one, two) =>
    match one.form, two.form with
    | .word _ _, .punct .colon => return true
    | _, _ => return false
  | _, _ => return false

/-- An index signature from its bracket on. -/
def indexSignature (lo : Nat) : Parser Node := do
  expect .lbrack
  let _ ← anyWord
  expect .colon
  let keyType ← p .type
  expect .rbrack
  let type ← annotation? p
  memberSeparator
  nodeFrom lo (.type .index) [keyType, type]

/-- A call or construct signature from its type parameters on. -/
def signature (lo : Nat) (kind : TypeForm) : Parser Node := do
  let typeParams ← typeParameters? p
  let params ← signatureParameters p
  let result ← returnAnnotation? p
  memberSeparator
  nodeFrom lo (.type kind) [params, result, typeParams]

/-- Property, method or accessor with its name. -/
def namedMember (lo : Nat) : Parser Node := do
  let next ← peek
  let accessor := startsKey next.form && !next.newline
  if (← isWord "get") && accessor then
    bump
    let key ← propertyKey p
    let _ ← signatureParameters p
    let result ← annotation? p
    memberSeparator
    nodeFrom lo (.type .getter) [key, result]
  else if (← isWord "set") && accessor then
    bump
    let key ← propertyKey p
    let params ← signatureParameters p
    let _ ← annotation? p
    memberSeparator
    nodeFrom lo (.type .setter) [key, params]
  else
    let key ← propertyKey p
    let optional ← eat .question
    if (← isPunct .lparen) || (← isLess) then
      let typeParams ← typeParameters? p
      let params ← signatureParameters p
      let result ← returnAnnotation? p
      memberSeparator
      nodeFrom lo (.type (.method optional)) [key, params, result, typeParams]
    else
      let type ← annotation? p
      memberSeparator
      nodeFrom lo (.type (.property optional)) [key, type]

def typeMember : Parser Node := do
  let lo ← here
  let next ← peek
  if (← isPunct .lparen) || (← isLess) then
    signature p lo .callSignature
  else if (← isWord "new") && (next.form == .punct .lparen || next.form == .punct (.op .lt)) then
    bump
    signature p lo .constructSignature
  else
    if (← isWord "readonly") && startsKey next.form && !next.newline then
      bump
    if ← startsIndex then
      indexSignature p lo
    else
      namedMember p lo

/-- Members between braces. -/
def memberBlock : Parser (List Node) := do
  expect .lbrace
  iterate (fun items => do
    if ← eat .rbrace then
      return .inr items
    let m ← typeMember p
    return .inl (items ++ [m])) []

/-! ## Types proper -/

/-- Whether what was read is the first parameter of a function type. -/
def followsParameter : Parser Bool := do
  match ← form with
  | .punct .colon | .punct .comma | .punct .question | .punct .assign => return true
  | .punct .rparen =>
    bump
    isPunct .arrow
  | _ => return false

/-- Whether a function type, and no type in parentheses, starts at this parenthesis. -/
def startsFunctionType : Parser Bool := do
  expect .lparen
  if (← isPunct .rparen) || (← isPunct .ellipsis) then
    return true
  match ← form with
  | .word _ _ => bump
  | .punct .lbrace | .punct .lbrack => let _ ← p .binding
  | _ => failHere .nameExpected
  followsParameter

/-- A function or constructor type from its type parameters on. -/
def functionType (lo : Nat) (kind : TypeForm) : Parser Node := do
  let typeParams ← typeParameters? p
  let params ← signatureParameters p
  expect .arrow
  let result ← returnType p
  nodeFrom lo (.type kind) [params, result, typeParams]

/-- The head of a mapped type up to `in`. -/
def mappedHead : Parser Unit := do
  expect .lbrace
  if (← isPunct (.op .add)) || (← isPunct (.op .sub)) then
    bump
    expectWord "readonly"
  else if (← isWord "readonly") && (← peek).form == .punct .lbrack then
    bump
  expect .lbrack
  let _ ← anyWord
  expectWord "in"

/-- A mapped type after its head. -/
def mappedRest (lo : Nat) : Parser Node := do
  let domain ← p .type
  let rename ← if ← eatWord "as" then p .type else pure .absent
  expect .rbrack
  if (← isPunct (.op .add)) || (← isPunct (.op .sub)) then
    bump
    expect .question
  else
    let _ ← eat .question
  let type ← annotation? p
  let _ ← eatSemicolon
  expect .rbrace
  nodeFrom lo (.type .other) [domain, rename, type]

/-- The name of a tuple element with its marks and its colon. -/
def tupleLabel : Parser Unit := do
  let _ ← eat .ellipsis
  let _ ← anyWord
  let _ ← eat .question
  expect .colon

def elementType (lo : Nat) : Parser Node := do
  if ← eat .ellipsis then
    let t ← p .type
    let rest ← nodeFrom lo (.type .rest) [t]
    nodeFrom lo (.type .tupleElement) [rest]
  else
    let t ← p .type
    let t ← if ← eat .question then nodeFrom lo (.type .optional) [t] else pure t
    nodeFrom lo (.type .tupleElement) [t]

/-- An element of a tuple. Marks in front of its name are no part of its type. -/
def tupleElement : Parser Node := do
  let lo ← here
  let _ ← speculate tupleLabel
  elementType p lo

def isOptionalElement : Node → Bool
  | .mk (.type .tupleElement) _ [.mk (.type .optional) _ _] => true
  | _ => false

def isRestElement : Node → Bool
  | .mk (.type .tupleElement) _ [.mk (.type .rest) _ _] => true
  | _ => false

/-- Whether a required element follows an optional one. -/
def requiresAfterOptional (items : List Node) : Bool :=
  (items.dropWhile (!isOptionalElement ·)).any fun n => !isOptionalElement n && !isRestElement n

def tupleType (lo : Nat) : Parser Node := do
  expect .lbrack
  let items ← commaList .rbrack (tupleElement p)
  let n ← nodeFrom lo (.type .tuple) items
  if requiresAfterOptional items then
    failAt n.span .requiredElement
  return n

/-- An imported type after its source. -/
def importTypeRest (lo : Nat) : Parser Node := do
  expect .rparen
  if ← eat .dot then
    let _ ← entityName
  let args ← typeArguments? p
  nodeFrom lo (.type .other) [args]

/-- An imported type, `import("m")` with its qualifier and arguments. -/
def importType (lo : Nat) : Parser Node := do
  expectWord "import"
  expect .lparen
  let _ ← p .type
  if ← eat .comma then
    if !(← isPunct .rparen) then
      let _ ← p .assignment
      let _ ← eat .comma
  importTypeRest p lo

def keywordType? : String → Option KeywordType
  | "any" => some .any
  | "unknown" => some .unknown
  | "number" => some .number
  | "string" => some .string
  | "boolean" => some .boolean
  | "bigint" => some .bigint
  | "symbol" => some .symbol
  | "object" => some .object
  | "void" => some .void
  | "undefined" => some .undefined
  | "null" => some .null
  | "never" => some .never
  | _ => none

def literalType (t : Token) (value : Literal) : Parser Node := do
  bump
  return .mk (.type (.literal value)) t.span []

/-- A type that starts with a word. -/
def wordType (lo : Nat) (word : String) : Parser Node := do
  let next ← peek
  match word with
  | "true" => literalType (← token) (.boolean true)
  | "false" => literalType (← token) (.boolean false)
  | "this" =>
    bump
    nodeFrom lo (.type .other) []
  | "typeof" =>
    bump
    let target ← if ← isWord "import" then importType p (← here) else entityName
    let args ← typeArguments? p
    nodeFrom lo (.type .query) [target, args]
  | "import" => importType p lo
  | word =>
    match keywordType? word with
    | some k =>
      if next.form == .punct .dot then
        reference
      else
        bump
        nodeFrom lo (.type (.keyword k)) []
    | none => reference
where
  reference : Parser Node := do
    let name ← entityName
    let args ← typeArguments? p
    nodeFrom lo (.type .reference) [name, args]

/-- A type without suffixes and operators. -/
def primaryType : Parser Node := do
  rejectInvalid
  let t ← token
  let lo := t.span.lo
  match t.form with
  | .word w _ => wordType p lo w
  | .string value => literalType t (.string value)
  | .number value => literalType t (.number value)
  | .bigint value => literalType t (.bigint value)
  | .punct (.op .sub) =>
    bump
    let n ← token
    match n.form with
    | .number value =>
      bump
      nodeFrom lo (.type (.literal (.number value))) []
    | .bigint value =>
      bump
      nodeFrom lo (.type (.literal (.bigint value))) []
    | _ => failExpected "numeric literal"
  | .punct .backtick =>
    let parts ← templateParts false (p .type)
    nodeFrom lo (.type .template) parts
  | .punct .lbrace =>
    match ← speculate mappedHead with
    | some () => mappedRest p lo
    | none =>
      let members ← memberBlock p
      nodeFrom lo (.type .members) members
  | .punct .lbrack => tupleType p lo
  | .punct .lparen =>
    bump
    let inner ← within ({ · with noConditional := false }) (p .type)
    expect .rparen
    nodeFrom lo (.type .paren) [inner]
  | .endOfText => failAtEnd
  | _ =>
    failHere (.unexpected (← get).tokenText
      ("an identifier, void, yield, null, await, break, a string literal, a numeric literal, " ++
        "true, false, `, -, import, this, typeof, \x7b, [, ("))

/-- Array and indexed-access suffixes. -/
def suffixedType : Parser Node := do
  let lo ← here
  let first ← primaryType p
  iterate (fun t => do
    if (← isPunct .lbrack) && !(← token).newline then
      bump
      if ← eat .rbrack then
        let n ← nodeFrom lo (.type .array) [t]
        return .inl n
      else
        let index ← p .type
        expect .rbrack
        let n ← nodeFrom lo (.type .other) [t, index]
        return .inl n
    else
      return .inr t) first

def typeOperator? : String → Option TypeOperator
  | "keyof" => some .keyof
  | "unique" => some .unique
  | "readonly" => some .readonly
  | _ => none

/-- Whether a token can start the operand of a type operator. -/
def startsOperand (t : Token) : Bool :=
  match t.form with
  | .word w _ => w != "extends" && w != "is" && w != "in"
  | .string _ | .number _ | .bigint _ => true
  | .punct .lparen | .punct .lbrack | .punct .lbrace | .punct .backtick => true
  | _ => false

/-- The bound of an inferred type. -/
def inferBound : Parser Node := do
  expectWord "extends"
  let t ← within ({ · with noConditional := true }) (p .type)
  if (← isPunct .question) && !(← read).noConditional then
    failHere .nameExpected
  return t

/-- Operators written before a type, innermost last. -/
def operatorType : Nat → Parser Node
  | 0 => suffixedType p
  | fuel + 1 => do
    let lo ← here
    match (← form), (← peek) with
    | .word w false, next =>
      match typeOperator? w with
      | some op =>
        if startsOperand next then
          bump
          let t ← operatorType fuel
          nodeFrom lo (.type (.operator op)) [t]
        else
          suffixedType p
      | none =>
        if w == "infer" && startsOperand next then
          bump
          let _ ← anyWord
          let bound ← speculate (inferBound p)
          nodeFrom lo (.type .other) (bound.toList)
        else
          suffixedType p
    | _, _ => suffixedType p

/-- Constituents joined by one operator; a leading operator makes a list of one. -/
def joinedType (op : BinaryOp) (form : TypeForm) (part : Parser Node) : Parser Node := do
  let lo ← here
  let leading ← eat (.op op)
  let first ← part
  let parts ← iterate (fun items => do
    if ← eat (.op op) then
      let t ← part
      return .inl (items ++ [t])
    else
      return .inr items) [first]
  if leading || parts.length > 1 then
    nodeFrom lo (.type form) parts
  else
    return first

def unionType : Parser Node := do
  let depth ← budget
  joinedType .bitOr .union (joinedType .bitAnd .intersection (operatorType p depth))

/-- A type that is not conditional. -/
def plainType : Parser Node := do
  let lo ← here
  let next ← peek
  if (← isWord "new") && (next.form == .punct .lparen || next.form == .punct (.op .lt)) then
    bump
    functionType p lo .constructor
  else if (← isWord "abstract") && next.form == .word "new" false then
    bump
    bump
    functionType p lo .constructor
  else if ← isLess then
    functionType p lo .function
  else if (← isPunct .lparen) && (← ahead (startsFunctionType p)) then
    functionType p lo .function
  else
    unionType p

def type : Parser Node := do
  let lo ← here
  let t ← plainType p
  if !(← read).noConditional && (← isWord "extends") && !(← token).newline then
    bump
    let bound ← within ({ · with noConditional := true }) (plainType p)
    expect .question
    let yes ← p .type
    expect .colon
    let no ← p .type
    nodeFrom lo (.type .other) [t, bound, yes, no]
  else
    return t

end OptionalChain.Grammar
