import OptionalChain.Node.Kind
import OptionalChain.Span

/-!
# Syntax nodes

One node type for expressions, patterns, statements, types and markup. The patterns below
name the shapes that the analysis takes apart.
-/

namespace OptionalChain

inductive Node where
  | mk (kind : Kind) (span : Span) (children : List Node)
deriving Repr

namespace Node

instance : Inhabited Node := ⟨.mk .absent ⟨0, 0⟩ []⟩

def kind : Node → Kind
  | mk k _ _ => k

def span : Node → Span
  | mk _ s _ => s

def children : Node → List Node
  | mk _ _ cs => cs

/-- Stands for an optional child that is not written. -/
def absent : Node := mk .absent ⟨0, 0⟩ []

def isAbsent (n : Node) : Bool :=
  match n.kind with
  | .absent => true
  | _ => false

/-- The node, unless it is absent. -/
def present? (n : Node) : Option Node :=
  if n.isAbsent then none else some n

mutual

/-- The node and all nodes below it, parents first. -/
def preorder : Node → List Node
  | mk k s cs => mk k s cs :: preorderAll cs

def preorderAll : List Node → List Node
  | [] => []
  | n :: ns => preorder n ++ preorderAll ns

end

@[match_pattern] def paren (s : Span) (e : Node) : Node := mk .paren s [e]

@[match_pattern] def nonNull (s : Span) (e : Node) : Node := mk .nonNull s [e]

@[match_pattern] def unary (op : UnaryOp) (s : Span) (e : Node) : Node := mk (.unary op) s [e]

@[match_pattern] def binary (op : BinaryOp) (s : Span) (l r : Node) : Node :=
  mk (.binary op) s [l, r]

@[match_pattern] def member (optional : Bool) (s : Span) (object key : Node) : Node :=
  mk (.member optional) s [object, key]

@[match_pattern] def call (optional : Bool) (s : Span) (callee args typeArgs : Node) : Node :=
  mk (.call optional) s [callee, args, typeArgs]

/-- Whether the expression is part of an optional chain: some step of it, down to the nearest
parenthesis, is written with `?.`. -/
def inChain : Node → Bool
  | member optional _ object _ => optional || object.inChain
  | call optional _ callee _ _ => optional || callee.inChain
  | nonNull _ e => e.inChain
  | _ => false

/-- The expression inside any number of parentheses. -/
def stripParens : Node → Node
  | paren _ e => e.stripParens
  | n => n

end Node

end OptionalChain
