import OptionalChain.Node.Basic

/-!
# Shapes

The shape of an expression lists what its value may be. An unresolved constituent stands for
a type that the file does not tell.
-/

namespace OptionalChain

inductive Primitive where
  | string | number | boolean | bigint | symbol
deriving DecidableEq, Repr

/-- One constituent of a type. -/
inductive TypeKind where
  | null
  | undefined
  | any
  | unknown
  | primitive (type : Primitive)
  | literal (type : Primitive) (falsy : Bool)
  | object
  | unresolved
deriving DecidableEq, Repr

namespace TypeKind

def isNullish : TypeKind → Bool
  | null | undefined => true
  | _ => false

def primitive? : TypeKind → Option Primitive
  | primitive p => some p
  | literal p _ => some p
  | _ => none

/-- The type that a variable gets when its value may change later. -/
def widened : TypeKind → TypeKind
  | literal p _ => primitive p
  | k => k

/-- Whether the constituent tells nothing about which nullish values are possible. -/
def isUnconstrained : TypeKind → Bool
  | unresolved | any | unknown => true
  | _ => false

def isFalsyLiteral : TypeKind → Bool
  | literal _ falsy => falsy
  | _ => false

end TypeKind

/-- The groups of types that truthiness checks can be limited to. -/
inductive TypeCategory where
  | string | number | boolean | bigint | any | unknown
deriving DecidableEq, Repr

namespace TypeCategory

def primitive? : TypeCategory → Option Primitive
  | string => some .string
  | number => some .number
  | boolean => some .boolean
  | bigint => some .bigint
  | any | unknown => none

end TypeCategory

/-- Adds an element at the end unless it is there already. -/
def addNew {α : Type} [DecidableEq α] (xs : List α) (x : α) : List α :=
  if x ∈ xs then xs else xs ++ [x]

/-- Constituents without repetition, in the order in which they are met. -/
structure Shape where
  kinds : List TypeKind
deriving DecidableEq, Repr

namespace Shape

def ofKinds (kinds : List TypeKind) : Shape :=
  ⟨kinds.foldl addNew []⟩

def unresolved : Shape := ⟨[.unresolved]⟩

def includesNull (s : Shape) : Bool := s.kinds.contains .null

def includesUndefined (s : Shape) : Bool := s.kinds.contains .undefined

def includesNullish (s : Shape) : Bool := s.includesNull || s.includesUndefined

def isUnconstrained (s : Shape) : Bool := s.kinds.any (·.isUnconstrained)

def nonNullish (s : Shape) : List TypeKind := s.kinds.filter (!·.isNullish)

/-- Whether every constituent but the nullish ones is of the category, and there is one. Any
other constituent may stand beside `any`, and any but `any` beside `unknown`. -/
def isExactly (s : Shape) : TypeCategory → Bool
  | .any => s.kinds.contains .any
  | .unknown => s.kinds.contains .unknown && !s.kinds.contains .any
  | category =>
    category.primitive?.any fun p =>
      !s.nonNullish.isEmpty && s.nonNullish.all fun k => k.primitive? == some p

def hasFalsyLiteral (s : Shape) : Bool := s.kinds.any (·.isFalsyLiteral)

end Shape

/-- Tells the shape of any expression. -/
abbrev Oracle := Node → Shape

/-- The oracle that knows nothing. -/
def Oracle.untyped : Oracle := fun _ => .unresolved

/-! ## Values that tell their type -/

def Literal.typeKind : Literal → TypeKind
  | .null => .null
  | .boolean value => .literal .boolean (!value)
  | .string value => .literal .string value.isEmpty
  | .number value => .literal .number value.isZero
  | .bigint value => .literal .bigint (value == 0)
  | .regex => .object

def UnaryOp.resultKind : UnaryOp → TypeKind
  | .not | .delete => .primitive .boolean
  | .typeof => .primitive .string
  | .void => .undefined
  | .minus | .plus | .tilde => .primitive .number

def KeywordType.kinds : KeywordType → List TypeKind
  | .any => [.any]
  | .unknown => [.unknown]
  | .number => [.primitive .number]
  | .string => [.primitive .string]
  | .boolean => [.primitive .boolean]
  | .bigint => [.primitive .bigint]
  | .symbol => [.primitive .symbol]
  | .object => [.object]
  | .void | .undefined => [.undefined]
  | .null => [.null]
  | .never => []
  | .intrinsic => [.unresolved]

end OptionalChain
