import OptionalChain.Grammar.Statement

/-!
# Declarations

Functions and classes as statements, the declarations of the type language, imports and
exports.
-/

namespace OptionalChain.Grammar

variable (p : Parts)

/-! ## Types and namespaces -/

/-- An interface: name, type parameters, what it extends, and members. -/
def interface (lo : Nat) : Parser Node := do
  bump
  let name ← identifierNode
  let typeParams ← typeParameters? p
  let heritagesLo ← here
  let parents ← if ← eatWord "extends" then heritageList p else pure []
  let heritages ← nodeFrom heritagesLo (.type .heritages) parents
  let membersLo ← here
  let members ← memberBlock p
  let body ← nodeFrom membersLo (.type .members) members
  nodeFrom lo (.statement .interface) [name, typeParams, heritages, body]

/-- A named type: name, type parameters and the type. -/
def typeAlias (lo : Nat) : Parser Node := do
  bump
  let name ← identifierNode
  let typeParams ← typeParameters? p
  expect .assign
  let t ← p .type
  expectSemicolon
  nodeFrom lo (.statement .typeAlias) [name, typeParams, t]

def enumMember : Parser Node := do
  let lo ← here
  let key ← propertyKey p
  let value ← initializer? p
  nodeFrom lo (.statement .enumMember) [key, value]

/-- Members of an enumeration up to the closing brace; a missing comma is an error to recover
from. -/
def enumMembers : Parser (List Node) :=
  iterate (fun items => do
    if ← eat .rbrace then
      return .inr items
    let m ← enumMember p
    let items := items ++ [m]
    if !(← eat .comma) && !(← isPunct .rbrace) then
      emit (← token).span (.expected Punct.comma.text (← get).tokenText)
    return .inl items) []

/-- An enumeration, perhaps after `const`. -/
def enum (lo : Nat) : Parser Node := do
  let _ ← eatWord "const"
  expectWord "enum"
  let name ← identifierNode
  expect .lbrace
  let members ← enumMembers p
  nodeFrom lo (.statement .enum) (name :: members)

/-- The body of a namespace; a module known only by its name has none. -/
def moduleBody (lo : Nat) : Parser Node := do
  if ← eat .lbrace then
    let items ← itemsToBrace p .item
    nodeFrom lo (.statement .moduleBlock) items
  else
    expectSemicolon
    nodeFrom lo (.statement .moduleBlock) []

def moduleName : Parser Unit := do
  match ← form with
  | .string _ => bump
  | _ =>
    let _ ← entityName
    return

def moduleDecl (lo : Nat) : Parser Node := do
  bump
  moduleName
  moduleBody p lo

/-- Whether the words here start a declaration of the type language. -/
inductive TypeDecl where
  | interface
  | typeAlias
  | enum
  | module
  | global
  | declare
  | abstractClass

/-- Words that start what can be declared without being defined. -/
def ambientWords : List String :=
  ["function", "class", "const", "var", "let", "global", "abstract", "enum", "interface", "module",
    "namespace", "type"]

def typeDecl? : Parser (Option TypeDecl) := do
  if !(← isTypescript) then
    return none
  let next ← peek
  match (← form), next.form with
  | .word "enum" false, _ => return some .enum
  | .word "const" false, .word "enum" false => return some .enum
  | .word w false, f =>
    if next.newline then
      return none
    match w, f with
    | "interface", .word _ _ => return some .interface
    | "type", .word _ _ => return some .typeAlias
    | "namespace", .word _ _ => return some .module
    | "module", .word _ _ | "module", .string _ => return some .module
    | "global", .punct .lbrace => return some .global
    | "declare", .word d false => return if ambientWords.contains d then some .declare else none
    | "abstract", .word "class" false => return some .abstractClass
    | _, _ => return none
  | _, _ => return none

def declare (lo : Nat) : Parser Node := do
  bump
  let n ← within ({ · with ambient := true }) (p .statement)
  return .mk n.kind ⟨lo, n.span.hi⟩ n.children

def typeDeclWith (lo : Nat) : TypeDecl → Parser Node
  | .interface => interface p lo
  | .typeAlias => typeAlias p lo
  | .enum => enum p lo
  | .module => moduleDecl p lo
  | .global => do
    bump
    moduleBody p lo
  | .declare => declare p lo
  | .abstractClass => do
    bump
    classWith p lo (.statement .classDecl) true

/-! ## Statements by their first word -/

/-- Statements that a keyword starts; `none` for any other token. -/
def keywordStatement? (lo : Nat) : TokenForm → Option (Parser Node)
  | .punct .lbrace => some (p .block)
  | .punct .semi => some do
    bump
    nodeFrom lo (.statement .empty) []
  | .word w false =>
    match w with
    | "if" => some (choice p lo)
    | "while" => some (whileLoop p lo)
    | "do" => some (doLoop p lo)
    | "for" => some (forLoop p lo)
    | "return" => some (returning p lo)
    | "throw" => some (throwing p lo)
    | "break" | "continue" => some (jump lo)
    | "switch" => some (switch p lo)
    | "try" => some (trying p lo)
    | "with" => some (withObject p lo)
    | "function" => some (functionWith p lo false (.statement .function) true)
    | "class" => some (classWith p lo (.statement .classDecl) true)
    | "catch" | "finally" => some (strayHandler p lo)
    | "debugger" => some do
      bump
      expectSemicolon
      nodeFrom lo (.statement .debugger) []
    | _ => none
  | _ => none

def startsAwaitResources : Parser Bool := do
  let (one, two) ← peekTwo
  match (← form), one.form, two.form with
  | .word "await" false, .word "using" false, .word _ _ =>
    return (← isTypescript) && !one.newline && !two.newline
  | _, _, _ => return false

/-- Whether an import or export stands here, which only the top of a program allows. -/
def checkModulePlace : Parser Unit := do
  let next ← peek
  match (← form), next.form with
  | .word "import" false, .punct .lparen | .word "import" false, .punct .dot => return
  | .word "import" false, _ | .word "export" false, _ => failHere .modulePlace
  | _, _ => return

def statement : Parser Node := do
  let lo ← here
  checkModulePlace
  match ← typeDecl? with
  | some d => typeDeclWith p lo d
  | none =>
    match keywordStatement? p lo (← form) with
    | some s => s
    | none =>
      if ← startsVariables then
        bindingList p lo
      else if ← startsResources then
        resources p lo
      else if ← startsAwaitResources then
        bump
        resources p lo
      else if ← startsAsyncFunction then
        bump
        functionWith p lo true (.statement .function) true
      else if (← isPunct .sign) && (← dialect).decorators then
        let _ ← decorators p
        let _ ← eatWord "abstract"
        classWith p lo (.statement .classDecl) true
      else
        expressionStatement p lo

/-- A statement where no declaration is allowed. -/
def bodyStatement : Parser Node := do
  let lo ← here
  match ← form with
  | .word "function" false | .word "class" false =>
    emit (← token).span .declarationPlace
    p .statement
  | .word "const" false | .word "let" false =>
    if ← startsVariables then expressionStatement p lo else p .statement
  | .word "async" false =>
    if ← startsAsyncFunction then expressionStatement p lo else p .statement
  | _ => p .statement

/-! ## Imports and exports -/

def moduleSource : Parser Unit := do
  match ← form with
  | .string _ => bump
  | .endOfText => failAtEnd
  | _ => failHere (.unexpected (← get).tokenText "a string literal")

/-- The word `with` and an object, after the source of a module. -/
def importAttributes : Parser Unit := do
  if (← isTypescript) && !(← token).newline && ((← isWord "with") || (← isWord "assert")) then
    bump
    let _ ← objectLiteral p
    return

/-- A name in braces, which may be quoted; gives the word, if it is one. -/
def moduleWord : Parser (Option (String × Span)) := do
  match ← form with
  | .string _ =>
    bump
    return none
  | .word _ _ => return some (← anyWord)
  | .endOfText => failAtEnd
  | _ => failHere (.unexpected (← get).tokenText "identifier or string")

def startsWord : Parser Bool := do
  match ← form with
  | .word _ _ => return true
  | _ => return false

/-- A second name after `as`. -/
def newName : Parser Bool := do
  if ← eatWord "as" then
    let _ ← moduleWord
    return true
  else
    return false

/-- The rest of a specifier after the modifier `type`; the name itself may be `as`. -/
def typeSpecifierRest : Parser Unit := do
  let (name, _) ← anyWord
  if name == "as" then
    if ← startsWord then
      let (second, _) ← anyWord
      if second == "as" && (← startsWord) then
        let _ ← anyWord
  else
    let _ ← newName

/-- A name in braces, perhaps with a second one after `as`; a modifier `type` may come first.
A word that is `bound` by itself is no reserved one. -/
def specifier (bound : Bool) : Parser Node := do
  let lo ← here
  match ← moduleWord with
  | some (name, span) =>
    if name == "type" && (← isTypescript) && (← startsWord) then
      typeSpecifierRest
    else if !(← newName) && bound && Token.reservedWords.contains name then
      failAt span .reservedImport
  | none =>
    let _ ← newName
  nodeFrom lo (.statement .importDecl) []

def specifiers (bound : Bool) : Parser Unit := do
  expect .lbrace
  let _ ← openList .rbrace (specifier bound)
  return

/-- The rest of `import name = …` from the equals sign on. -/
def importEquals : Parser Unit := do
  bump
  if (← isWord "require") && (← peek).form == .punct .lparen then
    bump
    bump
    moduleSource
    expect .rparen
  else
    let _ ← entityName
    return

/-- The names that an import binds after the first, and its source. -/
def importNames : Parser Unit := do
  if ← eat (.op .mul) then
    expectWord "as"
    let _ ← boundIdentifier false
  else if ← isPunct .lbrace then
    specifiers true
  expectWord "from"
  moduleSource
  importAttributes p

/-- An import after its first name. -/
def importRest (named : Bool) : Parser Unit := do
  if named && (← isTypescript) && (← isPunct .assign) then
    importEquals
  else
    if named && !(← isWord "from") then
      expect .comma
    importNames p

def importBindings : Parser Unit := do
  match ← form with
  | .word w _ =>
    if Token.reservedWords.contains w then
      importRest p false
    else
      let _ ← boundIdentifier false
      importRest p true
  | _ => importRest p false

/-- The names of an import and its source. -/
def importClause : Parser Unit := do
  let next ← peek
  if (← isWord "type") && (← isTypescript) then
    match next.form with
    | .word "from" _ | .punct .comma | .punct .assign => pure ()
    | _ => bump
  importBindings p

def importDecl (lo : Nat) : Parser Node := do
  bump
  match ← form with
  | .string _ =>
    bump
    importAttributes p
  | _ => importClause p
  expectSemicolon
  nodeFrom lo (.statement .importDecl) []

/-- The word `from` and a source, if they stand here. -/
def exportSource : Parser Unit := do
  if ← eatWord "from" then
    moduleSource
    importAttributes p
  expectSemicolon

/-- What follows `export default`. -/
def defaultExport : Parser Node := do
  let lo ← here
  let next ← peek
  let _ ← decorators p
  if ← isWord "function" then
    functionWith p lo false .functionExpr false
  else if ← startsAsyncFunction then
    bump
    functionWith p lo true .functionExpr false
  else if ← isWord "class" then
    classWith p lo .classExpr false
  else if (← isTypescript) && (← isWord "abstract") && next.form == .word "class" false then
    bump
    classWith p lo .classExpr false
  else if (← isTypescript) && (← isWord "interface") && !next.newline then
    interface p lo
  else
    let e ← p .assignment
    expectSemicolon
    return e

/-- Whether a declaration that can be exported starts here. -/
def startsExported : Parser Bool := do
  match ← form with
  | .word "class" false | .word "function" false => return true
  | .punct .sign => return (← dialect).decorators
  | _ => return (← startsVariables) || (← startsAsyncFunction) || (← typeDecl?).isSome

/-- The export of names or of a declaration, after its modifier. -/
def exportNames (lo : Nat) : Parser Node := do
  if ← eat (.op .mul) then
    if !(← isWord "from") then
      expectWord "as"
      let _ ← moduleWord
      if !(← isWord "from") then
        failHere .exportSource
    exportSource p
    nodeFrom lo (.statement .exportDecl) []
  else if ← startsExported then
    let n ← p .statement
    nodeFrom lo (.statement .exportDecl) [n]
  else
    specifiers false
    exportSource p
    nodeFrom lo (.statement .exportDecl) []

def exportDecl (lo : Nat) : Parser Node := do
  bump
  if ← isEnd then
    failAtEnd
  let next ← peek
  let ts ← isTypescript
  if ← eatWord "default" then
    let n ← defaultExport p
    nodeFrom lo (.statement .exportDecl) [n]
  else if ts && (← eat .assign) then
    let e ← p .expression
    expectSemicolon
    nodeFrom lo (.statement .exportDecl) [e]
  else if ts && (← isWord "as") && next.form == .word "namespace" false then
    bump
    bump
    let _ ← identifier
    expectSemicolon
    nodeFrom lo (.statement .exportDecl) []
  else if ts && (← isWord "import") then
    let n ← importDecl p lo
    nodeFrom lo (.statement .exportDecl) [n]
  else
    if ts && (← isWord "type") &&
        (next.form == .punct .lbrace || next.form == .punct (.op .mul)) then
      bump
    exportNames p lo

/-- A statement, import or export at the top of a program or namespace. -/
def item : Parser Node := do
  let lo ← here
  let next ← peek
  if (← isPunct .sign) && (← dialect).decorators then
    let _ ← decorators p
    if ← isWord "export" then
      exportDecl p lo
    else
      let _ ← eatWord "abstract"
      classWith p lo (.statement .classDecl) true
  else if (← isWord "import") && next.form != .punct .lparen && next.form != .punct .dot then
    importDecl p lo
  else if ← isWord "export" then
    exportDecl p lo
  else
    p .statement

end OptionalChain.Grammar
