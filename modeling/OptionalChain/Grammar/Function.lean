import OptionalChain.Grammar.Pattern

/-!
# Functions

Parameters, results and bodies of functions, methods and constructors.
-/

namespace OptionalChain.Grammar

variable (p : Parts)

/-- What a function's own code allows. -/
def Setting.forFunction (async generator : Bool) (s : Setting) : Setting :=
  { s with
    inFunction := true, inAsync := async, inGenerator := generator, newTarget := true,
    inClassField := false, breakable := false, continuable := false, labels := [],
    allowIn := true, inBranch := false }

/-- Decorators, each an `@` and an expression, any number of times. -/
def decorators : Parser (List Node) := do
  if (← dialect).decorators then
    iterate (fun items => do
      let lo ← here
      if ← eat .sign then
        let e ← p .access
        let n ← nodeFrom lo .decorator [e]
        return .inl (items ++ [n])
      else
        return .inr items) []
  else
    return []

def accessWords : List String := ["public", "private", "protected", "readonly", "override"]

/-- Takes modifiers of a parameter that make it a property; says whether there were any. -/
def parameterModifiers : Nat → Parser Bool
  | 0 => return false
  | fuel + 1 => do
    match (← form), (← peek).form with
    | .word w false, next =>
      let named := match next with
        | .word _ _ | .punct .lbrack | .punct .lbrace => true
        | _ => false
      if (← isTypescript) && accessWords.contains w && named then
        bump
        let _ ← parameterModifiers fuel
        return true
      else
        return false
    | _, _ => return false

/-- A parameter; `properties` says whether modifiers may make it a property of the instance. -/
def parameter (properties : Bool) : Parser Node := do
  let _ ← decorators p
  let lo ← here
  let isProperty ← if properties then parameterModifiers 4 else pure false
  let n ← if ← isPunct .ellipsis then restBinding p else bindingElement p
  if isProperty then
    nodeFrom lo (.classMember .parameterProperty) [n]
  else
    return n

/-- Parameters in parentheses; nothing may follow a rest parameter. -/
def parameters (properties : Bool) : Parser Node := do
  let lo ← here
  expect .lparen
  let items ← iterate (fun (items, rest?) => do
    if ← endsList .rparen then
      return .inr items
    nextItem .rparen .restNotLast (fun _ => parameter p properties) items rest?)
    (([] : List Node), (none : Option Span))
  nodeFrom lo .parameters items

/-- A body in braces, which nothing that is only declared has. -/
def bracedBody : Parser Node := do
  let t ← token
  if (← read).ambient then
    emit t.span .ambientBody
  p .block

/-- A body in braces; a signature alone ends like a statement. -/
def bodyOrNone : Parser Node := do
  if ← isPunct .lbrace then
    bracedBody p
  else if ← isTypescript then
    if ← eatSemicolon then
      return .absent
    else
      p .block
  else
    p .block

/-- A function from its type parameters on; its span starts at `lo`, and `check` looks at its
parameters. -/
def functionChecked (lo : Nat) (async generator : Bool) (check : Node → Parser Unit) :
    Parser Node := do
  within (Setting.forFunction async generator) do
    let typeParams ← typeParameters? p
    let params ← parameters p false
    check params
    let result ← returnAnnotation? p
    let body ← bodyOrNone p
    nodeFrom lo .function [params, body, typeParams, result]

def functionRest (lo : Nat) (async generator : Bool) : Parser Node :=
  functionChecked p lo async generator fun _ => pure ()

/-- Parameters other than `this`. -/
def ownParameters (params : Node) : List Node :=
  params.children.filter fun n =>
    match n.kind with
    | .pattern (.name "this" _) => false
    | _ => true

/-- An accessor to read a property has no parameters. -/
def checkGetter (key : Node) (params : Node) : Parser Unit := do
  if !(ownParameters params).isEmpty then
    emit key.span .getterParameters

/-- An accessor to write a property has one parameter. -/
def checkSetter (key : Node) (params : Node) : Parser Unit := do
  if (ownParameters params).length != 1 then
    emit key.span .setterParameters

/-- The word `function`, an optional star and name, and the rest. -/
def functionWith (lo : Nat) (async : Bool) (kind : Kind) (needsName : Bool) : Parser Node := do
  expectWord "function"
  let generator ← eat (.op .mul)
  let name ← match ← form with
    | .word _ _ => boundIdentifierNode false
    | _ => if needsName then boundIdentifierNode false else pure .absent
  let f ← within ({ · with directSuper := false }) (functionRest p lo async generator)
  return .mk kind f.span [name, f]

/-- Whether `async function` stands here on one line. -/
def startsAsyncFunction : Parser Bool := do
  let next ← peek
  return (← isWord "async") && next.form == .word "function" false && !next.newline

end OptionalChain.Grammar
