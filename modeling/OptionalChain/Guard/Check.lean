import OptionalChain.Access.Path

/-!
# Checks

What an operand of `&&` or `||` says about an access path, and which path a last operand
ends in.
-/

namespace OptionalChain

inductive ChainStyle where
  | and
  | or
deriving DecidableEq, Repr

namespace ChainStyle

def ofOp? : BinaryOp → Option ChainStyle
  | .and => some .and
  | .or => some .or
  | _ => none

def op : ChainStyle → BinaryOp
  | .and => .and
  | .or => .or

end ChainStyle

/-- Which nullish values a comparison tells apart from the rest. -/
inductive Comparison where
  | loose
  | strictNull
  | strictUndefined
deriving DecidableEq, Repr

/-- What a check holds of its path: that it is truthy, falsy, not nullish, nullish, or by
`typeof` not undefined or undefined. -/
inductive CheckKind where
  | truthy
  | falsy
  | notNullish (comparison : Comparison)
  | nullish (comparison : Comparison)
  | typeofDefined
  | typeofUndefined
deriving DecidableEq, Repr

namespace CheckKind

/-- Whether a run of the style goes on past the check when the value is present. -/
def continues (k : CheckKind) : ChainStyle → Bool
  | .and =>
    match k with
    | truthy | notNullish _ | typeofDefined => true
    | _ => false
  | .or =>
    match k with
    | falsy | nullish _ | typeofUndefined => true
    | _ => false

def isTruthiness : CheckKind → Bool
  | truthy | falsy => true
  | _ => false

def comparison? : CheckKind → Option Comparison
  | notNullish c | nullish c => some c
  | _ => none

end CheckKind

structure Check where
  kind : CheckKind
  path : AccessPath

/-! ## Comparisons -/

namespace BinaryOp

def isEquality : BinaryOp → Bool
  | eq | ne | strictEq | strictNe => true
  | _ => false

/-- Whether an equality operator is negated. -/
def isNegated : BinaryOp → Bool
  | ne | strictNe => true
  | _ => false

def isStrict : BinaryOp → Bool
  | strictEq | strictNe => true
  | _ => false

def isRelational : BinaryOp → Bool
  | lt | le | gt | ge | instanceOf => true
  | _ => false

end BinaryOp

/-- What an operand of a comparison is known to be. -/
inductive Constant where
  | null
  | undefined
  | literal
  | other
deriving DecidableEq, Repr

def Kind.isLiteral : Kind → Bool
  | .literal _ => true
  | _ => false

def Kind.isNumeric : Kind → Bool
  | .literal (.number _) | .literal (.bigint _) => true
  | _ => false

def Constant.ofNode (n : Node) : Constant :=
  match n.stripParens with
  | .unary .void _ e => if e.kind.isLiteral then .undefined else .other
  | .unary .minus _ e => if e.kind.isNumeric then .literal else .other
  | .mk (.literal .null) _ _ => .null
  | .mk (.literal _) _ _ => .literal
  | .mk (.ident "undefined") _ _ => .undefined
  | .mk .template _ [] => .literal
  | _ => .other

/-- The compared expression and the constant it is compared with, in either order. -/
def splitComparison? (left right : Node) : Option (Node × Constant) :=
  match Constant.ofNode left, Constant.ofNode right with
  | .other, .other => none
  | .other, c => some (left, c)
  | c, .other => some (right, c)
  | _, _ => none

def typeofOperand? (n : Node) : Option Node :=
  match n.stripParens with
  | .unary .typeof _ e => some e
  | _ => none

def stringValue? (n : Node) : Option String :=
  match n.stripParens.kind with
  | .literal (.string value) => some value
  | _ => none

/-- Operand and string of a comparison with `typeof`, in either order. -/
def splitTypeof? (left right : Node) : Option (Node × String) :=
  match typeofOperand? left, stringValue? right with
  | some e, some s => some (e, s)
  | _, _ =>
    match typeofOperand? right, stringValue? left with
    | some e, some s => some (e, s)
    | _, _ => none

/-! ## Operands -/

variable (f : SourceFile)

namespace Check

def ofPath? (kind : CheckKind) (n : Node) : Option Check :=
  (AccessPath.of? f n).map (⟨kind, ·⟩)

def comparison? (op : BinaryOp) : Constant → Option Comparison
  | .null => some (if op.isStrict then .strictNull else .loose)
  | .undefined => some (if op.isStrict then .strictUndefined else .loose)
  | .literal | .other => none

def ofEquality? (op : BinaryOp) (left right : Node) : Option Check :=
  match splitTypeof? left right with
  | some (e, s) =>
    if s == "undefined" then
      ofPath? f (if op.isNegated then .typeofDefined else .typeofUndefined) e
    else
      none
  | none => do
    let (e, c) ← splitComparison? left right
    let comparison ← comparison? op c
    ofPath? f (if op.isNegated then .notNullish comparison else .nullish comparison) e

/-- The check that an operand makes. -/
def of? (operand : Node) : Option Check :=
  match operand.stripParens with
  | .unary .not _ e => ofPath? f .falsy e
  | .binary op s left right =>
    if op.isEquality then ofEquality? f op left right
    else ofPath? f .truthy (.binary op s left right)
  | n => ofPath? f .truthy n

end Check

/-! ## Last operands -/

/-- Whether an undefined operand of the comparison gives the value that a run of the style
short-circuits to. -/
def ChainStyle.accepts (style : ChainStyle) (op : BinaryOp) (c : Constant) : Bool :=
  match style, op with
  | .and, .strictEq | .or, .strictNe => c == .null || c == .literal
  | .and, .eq | .or, .ne => c == .literal
  | .and, .strictNe | .or, .strictEq => c == .undefined
  | .and, .ne | .or, .eq => c == .null || c == .undefined
  | _, _ => false

/-- The same for a comparison of `typeof` with a string. -/
def ChainStyle.acceptsTypeof (style : ChainStyle) (op : BinaryOp) (s : String) : Bool :=
  match style with
  | .and => op.isNegated == (s == "undefined")
  | .or => op.isNegated != (s == "undefined")

def terminalOfEquality? (style : ChainStyle) (op : BinaryOp) (left right : Node) :
    Option AccessPath :=
  match splitTypeof? left right with
  | some (e, s) => if style.acceptsTypeof op s then AccessPath.of? f e else none
  | none => do
    let (e, c) ← splitComparison? left right
    if style.accepts op c then AccessPath.of? f e else none

def terminalOfRelation? (op : BinaryOp) (left right : Node) : Option AccessPath :=
  match AccessPath.of? f left with
  | some p => some p
  | none => if op == .instanceOf then none else AccessPath.of? f right

/-- The path that a last operand ends in, if an undefined value there gives what a run of the
style short-circuits to. -/
def terminalPath? (style : ChainStyle) (operand : Node) : Option AccessPath :=
  match operand.stripParens with
  | .unary .not _ e => if style == .or then AccessPath.of? f e else none
  | .binary op s left right =>
    if op.isEquality then terminalOfEquality? f style op left right
    else if style == .and && op.isRelational then terminalOfRelation? f op left right
    else if style == .and then AccessPath.of? f (.binary op s left right) else none
  | n => if style == .and then AccessPath.of? f n else none

end OptionalChain
