import OptionalChain.Typing.Declaration

/-!
# Resolution

Types and expressions are followed through the declarations of a program. Every step to
another type or expression goes one level down, and what lies below level zero is
unresolved, so that cyclic declarations end.
-/

namespace OptionalChain

/-- A constituent whose members can still be looked up. -/
inductive Resolved where
  | kind (k : TypeKind)
  | members (elements : List Node)
  | interface (name : String)
  | intersection (parts : List Node)
  | array (element? : Option Node)
  | tuple (elements : List Node)
  | record (value : Node)
  | function (result : Node)
  | instanceOf (info : ClassInfo)
  | object (properties : List Node)

namespace Resolved

def toKind : Resolved → TypeKind
  | kind k => k
  | _ => .object

def isNullish : Resolved → Bool
  | kind k => k.isNullish
  | _ => false

def isPrimitive : Resolved → Bool
  | kind k => k.primitive?.isSome
  | _ => false

def isUnresolved : Resolved → Bool
  | kind .unresolved => true
  | _ => false

end Resolved

/-- How a member is asked for. -/
inductive Key where
  | name (text : String)
  | index (value : Number.Magnitude)
  | dynamic

def Key.ofNode (n : Node) : Key :=
  match n.kind, n.children with
  | .name text, _ => .name text
  | .privateName text, _ => .name ("#" ++ text)
  | .computed, [.mk (.literal (.string value)) _ _] => .name value
  | .computed, [.mk (.literal (.number value)) _ _] => .index value
  | _, _ => .dynamic

/-- Where an initial value comes from: an expression, or the name of a shorthand property. -/
inductive Initial where
  | value (n : Node)
  | reference (n : Node)

/-- The answers that one level gives. -/
structure Resolver where
  type : Node → List Resolved
  expr : Node → List Resolved
  declared : Declared → List Resolved
  init : Initial → Bool → List Resolved
  call : List Resolved → List Resolved
  member : List Resolved → Key → List Resolved
  interface : String → Key → Option (List Resolved)
  ofClass : ClassInfo → Key → Option (List Resolved)

namespace Resolver

def unresolved : List Resolved := [.kind .unresolved]

/-- Nothing found counts as unresolved. -/
def orUnresolved (found : List Resolved) : List Resolved :=
  if found.isEmpty then unresolved else found

def withUndefined (optional : Bool) (found : List Resolved) : List Resolved :=
  if optional then found ++ [.kind .undefined] else found

def dropNullish (found : List Resolved) : List Resolved :=
  found.filter (!·.isNullish)

/-- A type that is perhaps not written. -/
def typeOr (type : Node → List Resolved) (n : Node) : List Resolved :=
  match n.present? with
  | some t => type t
  | none => unresolved

/-! ## Declared names and initial values -/

/-- A value. Assertions that do not change the type are looked through. -/
def valueWith (type expr : Node → List Resolved) (widen : Bool) : Node → List Resolved
  | .paren _ e => valueWith type expr widen e
  | .mk .constAssertion _ [e] => valueWith type expr widen e
  | n@(.mk k _ children) =>
    let kind (k : TypeKind) : List Resolved := [.kind (if widen then k.widened else k)]
    match k, children with
    | .literal value, _ => kind value.typeKind
    | .template, _ => kind (.primitive .string)
    | .unary op, _ => kind op.resultKind
    | .ident "undefined", _ => kind .undefined
    | .object, properties => [.object properties]
    | .arrow, _ | .functionExpr, _ => [.function n.functionResult]
    | .array, _ => [.array none]
    | .new, _ | .classExpr, _ => kind .object
    | .asType, [_, t] | .typeAssertion, [_, t] => type t
    | .ident _, _ | .thisRef, _ | .member _, _ | .call _, _ | .nonNull, _ | .satisfies, _ => expr n
    | _, _ => kind .unresolved

def initWith (type expr : Node → List Resolved) : Initial → Bool → List Resolved
  | .value n, widen => valueWith type expr widen n
  | .reference n, _ => expr n

def declaredWith (type : Node → List Resolved) (init : Initial → Bool → List Resolved) :
    Declared → List Resolved
  | .annotated t optional => withUndefined optional (type t)
  | .initialized value widen => init (.value value) widen
  | .function result => [.function result]
  | .classObject => [.kind .object]
  | .untyped => unresolved

/-! ## Calls -/

def callSignature? (elements : List Node) : Option Node :=
  elements.findSome? fun
    | .mk (.type .callSignature) _ [_, result, _] => result.present?
    | _ => none

def callOne (type : Node → List Resolved) : Resolved → List Resolved
  | .function result => typeOr type result
  | .kind .any => [.kind .any]
  | .kind k => if k.isNullish then [] else unresolved
  | .members elements =>
    match callSignature? elements with
    | some result => type result
    | none => unresolved
  | _ => unresolved

def callWith (type : Node → List Resolved) (callee : List Resolved) : List Resolved :=
  orUnresolved (callee.flatMap (callOne type))

/-! ## Members -/

/-- A member of a type literal or interface that has the name. -/
def namedElement? (type : Node → List Resolved) (name : String) : Node → Option (List Resolved)
  | .mk (.type (.property optional)) _ [key, t] =>
    if key.keyName? == some name then some (withUndefined optional (typeOr type t)) else none
  | .mk (.type (.method optional)) _ [key, _, result, _] =>
    if key.keyName? == some name then some (withUndefined optional [.function result]) else none
  | .mk (.type .getter) _ [key, result] =>
    if key.keyName? == some name then some (typeOr type result) else none
  | _ => none

def indexElement? (type : Node → List Resolved) : Node → Option (List Resolved)
  | .mk (.type .index) _ [_, t] => some (typeOr type t)
  | _ => none

/-- A member by its name, or else by the first index signature. -/
def element? (type : Node → List Resolved) (elements : List Node) (key : Key) :
    Option (List Resolved) :=
  let named := match key with
    | .name name => elements.findSome? (namedElement? type name)
    | _ => none
  named <|> elements.findSome? (indexElement? type)

/-- Interfaces of one name count together; their parents come after all of them. -/
def interfaceWith (d : Declarations) (r : Resolver) (name : String) (key : Key) :
    Option (List Resolved) :=
  let all := d.interfacesNamed name
  (all.findSome? fun i => element? r.type i.members key) <|>
    (all.flatMap (·.parents)).findSome? fun parent => r.interface parent key

def classWith (d : Declarations) (r : Resolver) (info : ClassInfo) (key : Key) :
    Option (List Resolved) :=
  match key with
  | .name name =>
    match info.members.lookup name with
    | some declared => some (r.declared declared)
    | none => (info.parent?.bind d.class?).bind (r.ofClass · key)
  | _ => none

/-- What the property of an object literal holds. -/
def propertyValue? (r : Resolver) (name : String) : Node → Option (List Resolved)
  | .mk .property _ [key, value] =>
    if key.keyName? == some name then some (r.init (.value value) true) else none
  | .mk .shorthand _ [ident] =>
    if ident.identName? == some name then some (r.init (.reference ident) true) else none
  | .mk .method _ [key, f] =>
    if key.keyName? == some name then some [.function f.functionResult] else none
  | _ => none

def memberOfPrimitive (k : TypeKind) : Key → List Resolved
  | .name "length" =>
    if k.primitive? == some .string then [.kind (.primitive .number)] else unresolved
  | .index _ => if k.primitive? == some .string then [.kind (.primitive .string)] else unresolved
  | _ => unresolved

def memberOfArray (type : Node → List Resolved) (element? : Option Node) : Key → List Resolved
  | .name name => if name == "length" then [.kind (.primitive .number)] else unresolved
  | .index _ | .dynamic =>
    match element? with
    | some t => type t
    | none => unresolved

def tupleType (type : Node → List Resolved) : Node → List Resolved
  | .mk (.type .tupleElement) _ [t] => type t
  | _ => unresolved

def memberOfTuple (type : Node → List Resolved) (elements : List Node) : Key → List Resolved
  | .name name => if name == "length" then [.kind (.primitive .number)] else unresolved
  | .index value =>
    match value.toNat?.bind (elements[·]?) with
    | some e => tupleType type e
    | none => [.kind .undefined]
  | .dynamic => elements.flatMap (tupleType type)

def memberOne (d : Declarations) (r : Resolver) (key : Key) : Resolved → List Resolved
  | .kind .any => [.kind .any]
  | .kind k => if k.isNullish then [] else memberOfPrimitive k key
  | .function _ => unresolved
  | .members elements => (element? r.type elements key).getD unresolved
  | .interface name => (interfaceWith d r name key).getD unresolved
  | .intersection parts =>
    orUnresolved ((parts.flatMap fun t => r.member (r.type t) key).filter (!·.isUnresolved))
  | .array element? => memberOfArray r.type element? key
  | .tuple elements => memberOfTuple r.type elements key
  | .record value => r.type value
  | .instanceOf info => (classWith d r info key).getD unresolved
  | .object properties =>
    match key with
    | .name name => (properties.findSome? (propertyValue? r name)).getD unresolved
    | _ => unresolved

def memberWith (d : Declarations) (r : Resolver) (target : List Resolved) (key : Key) :
    List Resolved :=
  orUnresolved (target.flatMap (memberOne d r key))

/-! ## Types -/

/-- Names that every program knows. -/
def builtinType (type : Node → List Resolved) (name : String) (args : List Node) : List Resolved :=
  match name with
  | "Array" | "ReadonlyArray" => [.array args.head?]
  | "Record" =>
    match args[1]? with
    | some value => [.record value]
    | none => [.kind .object]
  | "NonNullable" =>
    match args.head? with
    | some inner => dropNullish (type inner)
    | none => unresolved
  | "Readonly" =>
    match args.head? with
    | some inner => type inner
    | none => unresolved
  | "Map" | "Set" | "WeakMap" | "WeakSet" | "Promise" | "Date" | "RegExp" | "Function"
  | "Object" | "Error" => [.kind .object]
  | _ => unresolved

def referenceWith (d : Declarations) (r : Resolver) (name : String) (args : List Node) :
    List Resolved :=
  match d.alias? name with
  | some t => r.type t
  | none =>
    if !(d.interfacesNamed name).isEmpty then
      [.interface name]
    else
      match d.class? name with
      | some info => [.instanceOf info]
      | none => builtinType r.type name args

/-- An intersection with a primitive in it behaves like the primitive. -/
def intersectionWith (type : Node → List Resolved) (parts : List Node) : List Resolved :=
  let primitives := (parts.flatMap type).filter (·.isPrimitive)
  if primitives.isEmpty then [.intersection parts] else primitives

def typeWith (d : Declarations) (r : Resolver) : Node → List Resolved
  | .mk (.type form) span children =>
    match form, children with
    | .keyword k, _ => k.kinds.map .kind
    | .literal value, _ => [.kind value.typeKind]
    | .template, _ => [.kind (.primitive .string)]
    | .union, parts => parts.flatMap r.type
    | .intersection, parts => intersectionWith r.type parts
    | .paren, [t] => r.type t
    | .members, elements => [.members elements]
    | .array, [t] => [.array (some t)]
    | .tuple, elements => [.tuple elements]
    | .optional, [t] => withUndefined true (r.type t)
    | .function, [_, result, _] => [.function result]
    | .constructor, _ => [.kind .object]
    | .reference, name :: rest =>
      match name.identName? with
      | some x => referenceWith d r x (rest.flatMap Node.children)
      | none => unresolved
    | .query, name :: _ =>
      match name.identName?.bind (d.lookup · span.lo) with
      | some b => r.declared b.declared
      | none => unresolved
    | .operator .readonly, [t] => r.type t
    | .operator .unique, _ => [.kind (.primitive .symbol)]
    | .predicate, _ => [.kind (.primitive .boolean)]
    | _, _ => unresolved
  | _ => unresolved

/-! ## Expressions -/

/-- A name; `undefined` has its meaning unless it is bound. -/
def nameWith (d : Declarations) (r : Resolver) (name : String) (pos : Nat) : List Resolved :=
  match d.lookup name pos with
  | some b => r.declared b.declared
  | none => if name == "undefined" then [.kind .undefined] else unresolved

def newWith (d : Declarations) (callee : Node) : List Resolved :=
  match callee.identName?.bind d.class? with
  | some info => [.instanceOf info]
  | none => [.kind .object]

/-- Whether what is called is an expression. -/
def isCallable (callee : Node) : Bool :=
  match callee.kind with
  | .superRef | .importRef => false
  | _ => true

def exprWith (d : Declarations) (r : Resolver) (n : Node) : List Resolved :=
  match n with
  | .paren _ e => r.expr e
  | .nonNull _ e => dropNullish (r.expr e)
  | .member optional _ object key =>
    withUndefined optional (r.member (r.expr object) (.ofNode key))
  | .call optional _ callee _ _ =>
    if isCallable callee then withUndefined optional (r.call (r.expr callee)) else unresolved
  | .mk kind span children =>
    match kind, children with
    | .ident name, _ => nameWith d r name span.lo
    | .thisRef, _ =>
      match d.enclosingClass? span.lo with
      | some info => [.instanceOf info]
      | none => unresolved
    | .asType, [_, t] | .typeAssertion, [_, t] => r.type t
    | .satisfies, e :: _ | .constAssertion, e :: _ => r.expr e
    | .new, callee :: _ => newWith d callee
    | .literal value, _ => [.kind value.typeKind]
    | .template, _ => [.kind (.primitive .string)]
    | .unary op, _ => [.kind op.resultKind]
    | .object, _ | .classExpr, _ => [.kind .object]
    | .array, _ => [.array none]
    | .arrow, _ | .functionExpr, _ => [.function n.functionResult]
    | _, _ => unresolved

/-! ## Levels -/

/-- Below level zero no type and no expression is followed. -/
def bottom : Resolver where
  type _ := unresolved
  expr _ := unresolved
  declared :=
    declaredWith (fun _ => unresolved) (initWith (fun _ => unresolved) fun _ => unresolved)
  init := initWith (fun _ => unresolved) fun _ => unresolved
  call := callWith fun _ => unresolved
  member _ _ := unresolved
  interface _ _ := none
  ofClass _ _ := none

/-- The level above `r`. -/
def above (d : Declarations) (r : Resolver) : Resolver where
  type := typeWith d r
  expr := exprWith d r
  declared := declaredWith r.type r.init
  init := initWith r.type r.expr
  call := callWith r.type
  member := memberWith d r
  interface := interfaceWith d r
  ofClass := classWith d r

def level (d : Declarations) : Nat → Resolver
  | 0 => bottom
  | n + 1 => above d (level d n)

end Resolver

/-! ## The oracle of a program -/

/-- Steps that are followed from an expression. -/
def maxDepth : Nat := 16

namespace Declarations

/-- The shape of an expression when `depth` steps are followed. -/
def shapeWithin (d : Declarations) (depth : Nat) (e : Node) : Shape :=
  .ofKinds (((Resolver.level d (depth + 1)).expr e).map (·.toKind))

def oracle (d : Declarations) : Oracle :=
  d.shapeWithin maxDepth

end Declarations

end OptionalChain
