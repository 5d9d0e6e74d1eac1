import OptionalChain.Grammar.Type

/-!
# Patterns

Names, arrays and objects that bind values, and expressions that are assigned to.
-/

namespace OptionalChain.Grammar

variable (p : Parts)

/-- The default `= value`, if it stands here. -/
def initializer? : Parser Node := do
  if ← eat .assign then
    p .assignment
  else
    return .absent

/-- A default after a pattern, if there is one. -/
def withDefault (lo : Nat) (pattern : Node) : Parser Node := do
  if ← eat .assign then
    let value ← within ({ · with allowIn := true }) (p .assignment)
    nodeFrom lo (.pattern .withDefault) [pattern, value]
  else
    return pattern

/-- A binding and its default. -/
def bindingElement : Parser Node := do
  let lo ← here
  let b ← p .binding
  withDefault p lo b

/-- A name without its annotation, and the annotation. -/
def detachAnnotation : Node → Node × Node
  | .mk (.pattern (.name name optional)) span [type] =>
    (.mk (.pattern (.name name optional)) span [.absent], type)
  | n => (n, .absent)

/-- A rest binding after `...`; an annotation belongs to the whole. -/
def restBinding : Parser Node := do
  let lo ← here
  expect .ellipsis
  let (b, type) := detachAnnotation (← p .binding)
  nodeFrom lo (.pattern .rest) [b, type]

/-- A shorthand property must be a name. -/
def checkShorthand (name : String) (span : Span) : Parser Unit := do
  if Token.reservedWords.contains name || name == "let" then
    emit span .reservedShorthand

/-- The next item of a list in which nothing may follow a rest item. The last rest item is kept,
and `fault` is what to say of it if something follows. -/
def nextItem (close : Punct) (fault : Fault) (item : Bool → Parser Node) (items : List Node)
    (rest? : Option Span) : Parser ((List Node × Option Span) ⊕ List Node) := do
  rest?.forM fun span => emit span fault
  let isRest ← isPunct .ellipsis
  let n ← item isRest
  let items := items ++ [n]
  if ← eat close then
    return .inr items
  let comma ← token
  expect .comma
  if isRest && (← isPunct close) then
    emit comma.span .commaAfterRest
  return .inl (items, if isRest then some n.span else rest?)

/-- Elements of an array pattern; nothing may follow a rest element. -/
def arrayPattern : Parser (List Node) := do
  expect .lbrack
  iterate (fun (items, rest?) => do
    if ← endsList .rbrack then
      return .inr items
    if ← eat .comma then
      return .inl (items ++ [Node.absent], rest?)
    nextItem .rbrack .restNotFinal (fun isRest =>
      if isRest then restBinding p else bindingElement p) items rest?)
    (([] : List Node), (none : Option Span))

/-- One property of an object pattern. -/
def patternProperty : Parser Node := do
  let lo ← here
  if ← isPunct .ellipsis then
    restBinding p
  else
    let t ← token
    let key ← propertyKey p
    if ← eat .colon then
      let value ← bindingElement p
      nodeFrom lo (.pattern .property) [key, value]
    else
      match t.form with
      | .word name _ =>
        let value ← if ← eat .assign then
            within ({ · with allowIn := true }) (p .assignment)
          else do
            checkShorthand name t.span
            pure .absent
        nodeFrom lo (.pattern .shorthand)
          [.mk (.pattern (.name name false)) t.span [.absent], value]
      | _ => failHere (.unexpected (← get).tokenText "an identifier")

/-- A pattern without its annotation; `lexical` as for names. -/
def barePattern (lexical : Bool) : Parser Node := do
  rejectInvalid
  let lo ← here
  match ← form with
  | .punct .lbrack =>
    let items ← arrayPattern p
    nodeFrom lo (.pattern .array) items
  | .punct .lbrace =>
    bump
    let items ← commaList .rbrace (patternProperty p)
    nodeFrom lo (.pattern .object) items
  | .word _ _ =>
    let (name, span) ← boundIdentifier lexical
    return .mk (.pattern (.name name false)) span [.absent]
  | .endOfText => failAtEnd
  | _ => failHere (.unexpected (← get).tokenText "yield, an identifier, [ or \x7b")

/-- Adds the mark for an optional parameter and the annotation to a pattern. -/
def annotated (pattern : Node) (optional : Bool) (type : Node) : Node :=
  match pattern with
  | .mk (.pattern (.name name _)) span _ => .mk (.pattern (.name name optional)) span [type]
  | .mk kind span children => .mk kind span (children ++ type.present?.toList)

def binding : Parser Node := do
  let n ← barePattern p false
  if ← isTypescript then
    let optional ← eat .question
    let type ← annotation? p
    return annotated n optional type
  else
    return n

/-! ## Assignment targets -/

/-- Whether a value can be assigned to the expression. -/
def isSimpleTarget : Node → Bool
  | .mk (.ident name) _ _ => name != "eval" && name != "arguments"
  | n@(.member ..) => !n.inChain
  | .mk .superMember _ _ => true
  | .paren _ e => isSimpleTarget e
  | .nonNull _ e => isSimpleTarget e
  | .mk .asType _ [e, _] => isSimpleTarget e
  | .mk .satisfies _ [e, _] => isSimpleTarget e
  | .mk .typeAssertion _ [e, _] => isSimpleTarget e
  | .mk .instantiation _ [e, _] => isSimpleTarget e
  | _ => false

/-- Whether the expression may stand on the left, be it only with an error. -/
def isTargetShape (n : Node) : Bool :=
  match n.kind with
  | .ident _ | .member _ | .superMember | .paren | .nonNull | .asType | .satisfies
  | .typeAssertion | .instantiation => true
  | .call _ => n.inChain
  | _ => false

def checkTarget (n : Node) : Parser Unit := do
  if !isSimpleTarget n then
    emit n.span .assignmentTarget

/-- The names `eval` and `arguments`, which cannot be assigned to. -/
def isFixedName (n : Node) : Bool :=
  match n.kind with
  | .ident name => name == "eval" || name == "arguments"
  | _ => false

/-- Whether a type checker leaves it to others to refuse a change of the expression. -/
def isUncheckedTarget : Node → Bool
  | .paren _ e => isUncheckedTarget e
  | n =>
    match n.kind with
    | .literal _ | .call _ | .binary _ => !n.inChain
    | _ => false

/-- Checks what is changed together with its old value by `++`, `--` or a compound assignment;
`lenient` leaves some values unchecked. -/
def checkChanged (lenient : Bool) (n : Node) : Parser Unit := do
  if ← isTypescript then
    if !isSimpleTarget n && !(lenient && (isFixedName n || isUncheckedTarget n)) then
      emit n.span .assignmentTarget
    if isFixedName n then
      emit n.span .argumentsUse
  else if !isSimpleTarget n then
    emit n.span .simpleTarget

mutual

/-- An element of a destructured array or object as a pattern; `none` when it can be none. -/
def elementPattern? : Node → Option Node
  | .mk .array span items => (arrayElements? items).map (.mk (.pattern .array) span)
  | .mk .object span items => (objectElements? items).map (.mk (.pattern .object) span)
  | .mk .assign span [target, value] => some (.mk (.pattern .withDefault) span [target, value])
  | n =>
    match n.kind with
    | .member _ | .call _ => if n.inChain then none else some n
    | .superMember | .new | .literal _ | .ident _ | .functionExpr | .classExpr | .paren
    | .template | .asType | .nonNull | .satisfies | .typeAssertion => some n
    | _ => none

def arrayElements? : List Node → Option (List Node)
  | [] => some []
  | .mk (.argument spread) span [e] :: rest => do
    let e ← elementPattern? e
    let rest ← arrayElements? rest
    return (if spread then .mk (.pattern .rest) span [e, .absent] else e) :: rest
  | n :: rest => do
    let rest ← arrayElements? rest
    return n :: rest

def objectElements? : List Node → Option (List Node)
  | [] => some []
  | .mk .property span [key, value] :: rest => do
    let value ← elementPattern? value
    let rest ← objectElements? rest
    return .mk (.pattern .property) span [key, value] :: rest
  | .mk .shorthand span [name] :: rest => do
    let rest ← objectElements? rest
    return .mk (.pattern .shorthand) span [name, .absent] :: rest
  | .mk .shorthandDefault span [name, value] :: rest => do
    let rest ← objectElements? rest
    return .mk (.pattern .shorthand) span [name, value] :: rest
  | .mk .spread span [e] :: rest => do
    let e ← elementPattern? e
    let rest ← objectElements? rest
    return .mk (.pattern .rest) span [e, .absent] :: rest
  | _ => none

end

/-- The first element that cannot be a pattern. -/
def firstNonPattern (n : Node) : Span :=
  match n.preorder.find? fun m => m.inChain with
  | some m => m.span
  | none => n.span

def targetPattern (n : Node) : Parser Node := do
  match elementPattern? n with
  | some pattern => return pattern
  | none =>
    emit (firstNonPattern n) .notPattern
    failAt (firstNonPattern n) .notPattern

/-- Reads an expression as what is assigned to. -/
def assignmentTarget (n : Node) : Parser Node := do
  match n.kind with
  | .array | .object => targetPattern n
  | _ =>
    checkTarget n
    if isTargetShape n then
      return n
    else
      failAt n.span .invalidTarget

end OptionalChain.Grammar
