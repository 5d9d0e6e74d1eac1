import OptionalChain.Typing.Shape

/-!
# Declarations

What a program says about the types of its names: annotations, initial values, functions,
classes, interfaces and named types. Each node gives its own facts, and a program's
declarations are those of its nodes, parents first.
-/

namespace OptionalChain

/-- What is written about the type of a name or property. A function whose result is not
annotated has an absent one. -/
inductive Declared where
  | annotated (type : Node) (optional : Bool)
  | initialized (value : Node) (widen : Bool)
  | function (result : Node)
  | classObject
  | untyped

/-- A name that is known in a scope, from a position on or, before any such, in all of it. -/
structure Binding where
  name : String
  scope : Span
  pos : Nat
  declared : Declared

/-- Members of a class's instances, latest first, and the name of the superclass. -/
structure ClassInfo where
  members : List (String × Declared)
  parent? : Option String

structure Interface where
  name : String
  members : List Node
  parents : List String

/-- What one node declares. -/
inductive Fact where
  | binding (b : Binding)
  | named (name : String) (type : Node)
  | interface (i : Interface)
  | classDef (name? : Option String) (span : Span) (info : ClassInfo)

/-! ## Names -/

def Node.identName? (n : Node) : Option String :=
  match n.kind with
  | .ident name => some name
  | _ => none

/-- The text of a property name that is not computed. -/
def Node.keyName? (n : Node) : Option String :=
  match n.kind with
  | .name text => some text
  | .literal (.string value) => some value
  | .literal (.number value) => some (String.ofList value.toText)
  | _ => none

/-- As `keyName?`, private names included. -/
def Node.memberName? (n : Node) : Option String :=
  match n.kind with
  | .privateName text => some ("#" ++ text)
  | _ => n.keyName?

/-! ## Bindings -/

/-- A name with an annotation or initial value; an annotation counts more. -/
def Declared.ofParts (type value : Node) (optional widen : Bool) : Declared :=
  match type.present?, value.present? with
  | some t, _ => .annotated t optional
  | none, some v => .initialized v widen
  | none, none => .untyped

mutual

/-- Bindings of a pattern in a scope, where `value` is its initial value if known. -/
def Node.bindings (scope : Span) (value : Node) (widen : Bool) : Node → List Binding
  | .mk (.pattern (.name name optional)) span parts =>
    [⟨name, scope, span.lo, .ofParts (parts.headD .absent) value optional widen⟩]
  | .mk (.pattern .withDefault) _ [inner, fallback] => Node.bindings scope fallback true inner
  | .mk (.pattern .shorthand) _ (.mk (.pattern (.name name _)) span _ :: _) =>
    [⟨name, scope, span.lo, .untyped⟩]
  | .mk (.pattern .property) _ [_, inner] => Node.bindings scope .absent true inner
  | .mk (.pattern .rest) _ (inner :: _) => Node.bindings scope .absent true inner
  | .mk (.pattern .array) _ items => Node.bindingsAll scope items
  | .mk (.pattern .object) _ items => Node.bindingsAll scope items
  | _ => []

/-- Bindings of patterns without initial values. -/
def Node.bindingsAll (scope : Span) : List Node → List Binding
  | [] => []
  | n :: ns => Node.bindings scope .absent true n ++ Node.bindingsAll scope ns

end

/-- Bindings of a parameter; one that is also a property binds like any other. -/
def Node.parameterBindings (scope : Span) : Node → List Binding
  | .mk (.classMember .parameterProperty) _ [n] => Node.bindings scope .absent true n
  | n => Node.bindings scope .absent true n

def Node.declaratorBindings (scope : Span) (widen : Bool) : Node → List Binding
  | .mk (.statement .declarator) _ [pattern, value] => Node.bindings scope value widen pattern
  | _ => []

/-- The annotated result of a function node. -/
def Node.functionResult (n : Node) : Node :=
  match n.kind, n.children with
  | .function, [_, _, _, result] => result
  | .arrow, [_, _, _, result] => result
  | .functionExpr, [_, .mk .function _ [_, _, _, result]] => result
  | _, _ => .absent

/-! ## Classes -/

def Declared.ofMethod (kind : MethodKind) (result : Node) : Declared :=
  match kind with
  | .getter => .ofParts result .absent false true
  | .plain | .setter => .function result

/-- A parameter of a constructor that is also a property. -/
def Node.propertyParameter? : Node → Option (String × Declared)
  | .mk (.classMember .parameterProperty) _ [.mk (.pattern (.name name optional)) _ parts] =>
    some (name, .ofParts (parts.headD .absent) .absent optional true)
  | .mk (.classMember .parameterProperty) _
      [.mk (.pattern .withDefault) _ [.mk (.pattern (.name name optional)) _ parts, _]] =>
    some (name, .ofParts (parts.headD .absent) .absent optional true)
  | _ => none

/-- What a class member says about the properties of instances. -/
def Node.instanceMembers : Node → List (String × Declared)
  | .mk (.classMember (.field false optional)) _ [key, value, type] =>
    key.memberName?.toList.map (·, .ofParts type value optional true)
  | .mk (.classMember (.method false kind)) _ [key, f] =>
    key.memberName?.toList.map (·, .ofMethod kind f.functionResult)
  | .mk (.classMember .constructor) _ [params, _] =>
    params.children.filterMap Node.propertyParameter?
  | _ => []

def Node.classInfo (body : Node) : ClassInfo :=
  match body.children with
  | members :: parent :: _ =>
    ⟨(members.children.flatMap Node.instanceMembers).reverse, parent.identName?⟩
  | _ => ⟨[], none⟩

/-! ## Collection -/

/-- The scope of what stands inside a node. -/
def Node.scopeInside (scope : Span) (kind : Kind) (span : Span) : Span :=
  match kind with
  | .function | .arrow | .classMember .constructor | .statement .block => span
  | _ => scope

/-- Interfaces, named types and types are not searched for declarations. -/
def Kind.isClosed : Kind → Bool
  | .statement .interface | .statement .typeAlias | .type _ => true
  | _ => false

/-- The names that the parents of an interface are written with. -/
def Node.heritageNames (n : Node) : List String :=
  n.children.filterMap fun h => h.children.head?.bind Node.identName?

/-- What a node itself declares. -/
def Node.ownFacts (scope : Span) (kind : Kind) (span : Span) (children : List Node) : List Fact :=
  match kind, children with
  | .statement (.bindings constant), decls =>
    (decls.flatMap (Node.declaratorBindings scope !constant)).map .binding
  | .statement .function, [name, f] =>
    name.identName?.toList.map fun x =>
      .binding ⟨x, scope, name.span.lo, .function f.functionResult⟩
  | .function, params :: _ | .arrow, params :: _ | .classMember .constructor, params :: _ =>
    (params.children.flatMap (Node.parameterBindings span)).map .binding
  | .statement .classDecl, [name, body] =>
    (name.identName?.toList.map fun x => .binding ⟨x, scope, name.span.lo, .classObject⟩) ++
      [.classDef name.identName? body.span body.classInfo]
  | .classExpr, [name, body] => [.classDef name.identName? body.span body.classInfo]
  | .statement .interface, [name, _, heritages, body] =>
    name.identName?.toList.map fun x => .interface ⟨x, body.children, heritages.heritageNames⟩
  | .statement .typeAlias, [name, _, type] => name.identName?.toList.map (.named · type)
  | _, _ => []

mutual

def Node.facts (scope : Span) : Node → List Fact
  | .mk kind span children =>
    ownFacts scope kind span children ++
      if kind.isClosed then [] else factsAll (scopeInside scope kind span) children

def Node.factsAll (scope : Span) : List Node → List Fact
  | [] => []
  | n :: ns => n.facts scope ++ Node.factsAll scope ns

end

/-- The scope of a whole program. -/
def programScope : Span := ⟨0, 0xffffffff⟩

/-- Facts by kind; of named types and classes the latest comes first. -/
structure Declarations where
  bindings : List Binding := []
  aliases : List (String × Node) := []
  interfaces : List Interface := []
  classes : List (Option String × Span × ClassInfo) := []

namespace Declarations

def ofFacts (facts : List Fact) : Declarations where
  bindings := facts.filterMap fun | .binding b => some b | _ => none
  aliases := (facts.filterMap fun | .named name type => some (name, type) | _ => none).reverse
  interfaces := facts.filterMap fun | .interface i => some i | _ => none
  classes :=
    facts.filterMap fun | .classDef name? span info => some (name?, span, info) | _ => none

def ofProgram (program : Node) : Declarations :=
  ofFacts (program.facts programScope)

def ofProgram? (program? : Option Node) : Declarations :=
  (program?.map ofProgram).getD {}

variable (d : Declarations)

/-- The binding of a name that counts at a position: of those in the innermost scope the last
one that starts at or before it, or else the first. -/
def lookup (name : String) (pos : Nat) : Option Binding :=
  let visible := d.bindings.filter fun b => b.name == name && b.scope.has pos
  match (visible.map (·.scope.length)).min? with
  | none => none
  | some innermost =>
    let near := visible.filter (·.scope.length == innermost)
    (near.filter (·.pos ≤ pos)).getLast? <|> near.head?

def alias? (name : String) : Option Node :=
  d.aliases.lookup name

/-- The class that was last given the name. -/
def class? (name : String) : Option ClassInfo :=
  (d.classes.reverse.find? fun (name?, _, _) => name? == some name).map fun (_, _, info) => info

/-- The innermost class around a position. -/
def enclosingClass? (pos : Nat) : Option ClassInfo :=
  let around := d.classes.filter fun (_, span, _) => span.has pos
  match (around.map fun (_, span, _) => span.length).min? with
  | none => none
  | some least =>
    (around.find? fun (_, span, _) => span.length == least).map fun (_, _, info) => info

def interfacesNamed (name : String) : List Interface :=
  d.interfaces.filter (·.name == name)

end Declarations

end OptionalChain
