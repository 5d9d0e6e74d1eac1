import OptionalChain.Number.Shortest

/-!
# Kinds of syntax nodes

A kind names the construct and carries what is not itself a node: names, operators,
literal values and flags. The order of a node's children is fixed by its kind and is the
order in which they are visited; an optional child that is not written is `absent`.
-/

namespace OptionalChain

inductive Literal where
  | null
  | boolean (value : Bool)
  | string (value : String)
  | number (value : Number.Magnitude)
  | bigint (value : Nat)
  | regex
deriving DecidableEq, Repr

inductive UnaryOp where
  | not | minus | plus | tilde | typeof | void | delete
deriving DecidableEq, Repr

inductive BinaryOp where
  | and | or | nullish
  | eq | ne | strictEq | strictNe
  | lt | le | gt | ge | isIn | instanceOf
  | shl | shr | ushr | add | sub | mul | div | mod | exp
  | bitOr | bitXor | bitAnd
deriving DecidableEq, Repr

inductive KeywordType where
  | any | unknown | number | string | boolean | bigint | symbol | object
  | void | undefined | null | never | intrinsic
deriving DecidableEq, Repr

inductive TypeOperator where
  | keyof | unique | readonly
deriving DecidableEq, Repr

/-- Constructs of the type language. -/
inductive TypeForm where
  | keyword (type : KeywordType)
  | literal (value : Literal)
  | template
  | union
  | intersection
  | paren
  | members
  | array
  | tuple
  | tupleElement
  | optional
  | rest
  | function
  | constructor
  | reference
  | query
  | operator (op : TypeOperator)
  | predicate
  | qualified
  | other
  | arguments
  | parameters
  | parameter
  | property (optional : Bool)
  | method (optional : Bool)
  | getter
  | setter
  | index
  | callSignature
  | constructSignature
  | heritage
  | heritages
deriving DecidableEq, Repr

/-- Constructs that bind or assign names. -/
inductive PatternForm where
  | name (name : String) (optional : Bool)
  | array
  | object
  | rest
  | withDefault
  | property
  | shorthand
deriving DecidableEq, Repr

inductive StatementForm where
  | program
  | expression
  | block
  | empty
  | choice
  | whileLoop
  | doLoop
  | forLoop
  | forInLoop
  | forOfLoop
  | returning
  | throwing
  | trying
  | handler
  | switch
  | switchCase
  | jump
  | labeled
  | withObject
  | debugger
  | bindings (constant : Bool)
  | resources
  | declarator
  | function
  | classDecl
  | interface
  | typeAlias
  | enum
  | enumMember
  | moduleBlock
  | importDecl
  | exportDecl
deriving DecidableEq, Repr

inductive JsxForm where
  | element
  | fragment
  | name
  | attribute
  | text
  | container
  | spreadChild
deriving DecidableEq, Repr

inductive MethodKind where
  | plain | getter | setter
deriving DecidableEq, Repr

inductive MemberForm where
  | field (isStatic optional : Bool)
  | accessor
  | method (isStatic : Bool) (kind : MethodKind)
  | constructor
  | parameterProperty
  | staticBlock
  | index
deriving DecidableEq, Repr

/-- The flag `optional` of a member access or call says that it is written with `?.`. -/
inductive Kind where
  | absent
  | invalid
  | ident (name : String)
  | literal (value : Literal)
  | template
  | taggedTemplate
  | thisRef
  | superRef
  | importRef
  | metaProperty
  | paren
  | array
  | object
  | unary (op : UnaryOp)
  | update
  | binary (op : BinaryOp)
  | assign
  | conditional
  | sequence
  | await
  | yield
  | member (optional : Bool)
  | superMember
  | call (optional : Bool)
  | new
  | function
  | functionExpr
  | arrow
  | classBody
  | classMembers
  | classExpr
  | nonNull
  | asType
  | typeAssertion
  | constAssertion
  | satisfies
  | instantiation
  | name (text : String)
  | privateName (text : String)
  | computed
  | arguments
  | argument (spread : Bool)
  | spread
  | property
  | shorthand
  | shorthandDefault
  | getter
  | setter
  | method
  | parameters
  | decorator
  | pattern (form : PatternForm)
  | statement (form : StatementForm)
  | type (form : TypeForm)
  | classMember (form : MemberForm)
  | jsx (form : JsxForm)
deriving DecidableEq, Repr

end OptionalChain
