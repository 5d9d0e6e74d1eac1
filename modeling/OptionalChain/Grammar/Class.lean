import OptionalChain.Grammar.Function

/-!
# Classes

Members come in source order; the superclass follows them in the node.
-/

namespace OptionalChain.Grammar

variable (p : Parts)

/-- Modifiers in front of a member. -/
structure Modifiers where
  isStatic : Bool := false
  accessor : Bool := false

/-- Whether a token can follow a modifier, as the start of the member's name. -/
def followsModifier (t : Token) : Bool :=
  startsKey t.form || t.form == .punct (.op .mul)

def typeModifiers : List String :=
  ["public", "private", "protected", "readonly", "override", "abstract", "declare"]

def modifiersFrom : Nat → Modifiers → Parser Modifiers
  | 0, m => return m
  | fuel + 1, m => do
    let next ← peek
    match ← form with
    | .word w false =>
      if w == "static" && !m.isStatic && (followsModifier next || next.form == .punct .lbrace) then
        bump
        modifiersFrom fuel { m with isStatic := true }
      else if (← isTypescript) && w == "accessor" && followsModifier next && !next.newline then
        bump
        modifiersFrom fuel { m with accessor := true }
      else if (← isTypescript) && typeModifiers.contains w && followsModifier next
          && !next.newline then
        bump
        modifiersFrom fuel m
      else
        return m
    | _ => return m

/-- What the value of a field allows. -/
def Setting.forField (s : Setting) : Setting :=
  { s with
    inFunction := false, inAsync := false, inGenerator := false, newTarget := true,
    inClassField := true, breakable := false, continuable := false, labels := [], allowIn := true }

/-- A field from the end of its name on. -/
def fieldRest (lo : Nat) (m : Modifiers) (key : Node) (optional : Bool) : Parser Node := do
  let type ← annotation? p
  let value ← if ← eat .assign then within Setting.forField (p .assignment) else pure .absent
  if !(← eatSemicolon) then
    emit (← token).span .semicolonExpected
  let form := if m.accessor then MemberForm.accessor else .field m.isStatic optional
  nodeFrom lo (.classMember form) [key, value, type]

/-- What the parameters of a method must be. -/
def accessorCheck (kind : MethodKind) (key : Node) : Node → Parser Unit :=
  match kind with
  | .getter => checkGetter key
  | .setter => checkSetter key
  | _ => fun _ => pure ()

def methodRest (lo : Nat) (m : Modifiers) (kind : MethodKind) (async generator : Bool)
    (key : Node) : Parser Node := do
  let f ← functionChecked p lo async generator (accessorCheck kind key)
  return .mk (.classMember (.method m.isStatic kind)) f.span [key, f]

def constructorRest (lo : Nat) : Parser Node := do
  within (Setting.forFunction false false) do
    let params ← parameters p true
    let _ ← returnAnnotation? p
    let body ← bodyOrNone p
    nodeFrom lo (.classMember .constructor) [params, body]

def isConstructorKey (key : Node) : Bool :=
  match key.kind with
  | .name "constructor" | .literal (.string "constructor") => true
  | _ => false

/-- A member from its name on. -/
def memberNamed (lo : Nat) (m : Modifiers) (kind : MethodKind) (async generator : Bool) :
    Parser Node := do
  let key ← propertyKey p
  let optional ← if ← isTypescript then eat .question else pure false
  if (← isTypescript) && (← isPunct .bang) then
    bump
  if (← isPunct .lparen) || (← isLess) then
    if isConstructorKey key && !m.isStatic && kind == .plain && !async && !generator then
      constructorRest p lo
    else
      methodRest p lo m kind async generator key
  else
    fieldRest p lo m key optional

def classMember : Parser Node := do
  let lo ← here
  let _ ← decorators p
  let m ← modifiersFrom 6 {}
  if m.isStatic && (← isPunct .lbrace) then
    let body ← within Setting.forField (p .block)
    nodeFrom lo (.classMember .staticBlock) [body]
  else if (← isTypescript) && (← startsIndex) then
    let n ← indexSignature p lo
    return .mk (.classMember .index) n.span n.children
  else
    let next ← peek
    if (← isWord "async") && followsModifier next && !next.newline then
      bump
      let generator ← eat (.op .mul)
      memberNamed p lo m .plain true generator
    else if ← eat (.op .mul) then
      memberNamed p lo m .plain false true
    else if (← isWord "get") && startsKey next.form then
      bump
      memberNamed p lo m .getter false false
    else if (← isWord "set") && startsKey next.form then
      bump
      memberNamed p lo m .setter false false
    else
      memberNamed p lo m .plain false false

/-- Whether the member is a constructor with a body. -/
def isConstructor : Node → Bool
  | .mk (.classMember .constructor) _ [_, body] => !body.isAbsent
  | _ => false

/-- Members between braces. A text that ends first is an error to recover from. -/
def classMembers : Parser Node := do
  let lo ← here
  expect .lbrace
  let items ← iterate (fun items => do
    if ← eat .rbrace then
      return .inr items
    if ← eat .semi then
      return .inl items
    if ← isEnd then
      emit (← token).span (.expected Punct.rbrace.text (← get).tokenText)
      return .inr items
    let m ← classMember p
    if isConstructor m && items.any isConstructor then
      emit m.span .secondConstructor
    return .inl (items ++ [m])) []
  nodeFrom lo .classMembers items

/-- A type that a class or interface takes its members from. -/
def heritage : Parser Node := do
  let lo ← here
  let e ← p .access
  match e with
  | .mk .instantiation _ [inner, args] => nodeFrom lo (.type .heritage) [inner, args]
  | e =>
    let args ← typeArguments? p
    nodeFrom lo (.type .heritage) [e, args]

def heritageList : Parser (List Node) := do
  let first ← heritage p
  iterate (fun items => do
    if ← eat .comma then
      let h ← heritage p
      return .inl (items ++ [h])
    else
      return .inr items) [first]

/-- A class after its superclass. -/
def classBody (lo : Nat) (typeParams parent parentArgs : Node) : Parser Node := do
  let interfaces ← if (← isTypescript) && (← eatWord "implements") then heritageList p else pure []
  let members ← within ({ · with newTarget := true, directSuper := true }) (classMembers p)
  nodeFrom lo .classBody ([members, parent, typeParams, parentArgs] ++ interfaces)

/-- A class after its name: members, then superclass, type parameters and interfaces. -/
def classRest (lo : Nat) : Parser Node := do
  let typeParams ← typeParameters? p
  if ← eatWord "extends" then
    match ← p .access with
    | .mk .instantiation _ [inner, args] => classBody p lo typeParams inner args
    | e =>
      let args ← if ← isTypescript then typeArguments? p else pure .absent
      classBody p lo typeParams e args
  else
    classBody p lo typeParams .absent .absent

/-- The keyword `class`, a name and the rest; the span starts at `lo`. -/
def classWith (lo : Nat) (kind : Kind) (needsName : Bool) : Parser Node := do
  expectWord "class"
  let name ← match ← form with
    | .word w _ =>
      if !needsName && (w == "extends" || w == "implements") then pure .absent
      else boundIdentifierNode true
    | _ => if needsName then boundIdentifierNode true else pure .absent
  let body ← classRest p lo
  return .mk kind body.span [name, body]

end OptionalChain.Grammar
