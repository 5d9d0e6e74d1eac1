import OptionalChain.Guard.Safety

/-!
# Empty-object fallbacks

A member access on `(x || {})` or `(x ?? {})`, which reads the same as an optional access
on `x`.
-/

namespace OptionalChain

structure Fallback where
  value : Node
  op : BinaryOp
  key : Node

namespace Fallback

def isEmptyObject (n : Node) : Bool :=
  match n.stripParens with
  | .mk .object _ [] => true
  | _ => false

/-- The fallback that a member access is on. -/
def of? (n : Node) : Option Fallback :=
  match n with
  | .member _ _ (.paren _ inner) key =>
    match inner.stripParens with
    | .binary op _ value fallback =>
      if (op == .or || op == .nullish) && isEmptyObject fallback then some ⟨value, op, key⟩
      else none
    | _ => none
  | _ => none

/-- The operator `??` falls back on nullish values only, `||` on every falsy one. -/
def verdict (b : Fallback) (oracle : Oracle) (o : ChainOptions) : Verdict :=
  if b.op == .nullish then .safe else judgeTruthiness (oracle b.value) o

/-- Whether a value can be accessed without parentheses around it. -/
def isBare : Kind → Bool
  | .ident _ | .thisRef | .member _ | .superMember | .call _ | .metaProperty | .paren | .nonNull
  | .array | .literal _ | .template => true
  | _ => false

def keyText (f : SourceFile) (key : Node) : List Char :=
  match key.kind with
  | .name text => text.toList
  | .privateName text => '#' :: text.toList
  | _ => f.slice key.span

def replacement (b : Fallback) (f : SourceFile) : List Char :=
  let value := f.slice b.value.span
  (if isBare b.value.kind then value else '(' :: value ++ [')']) ++ ['?', '.'] ++ keyText f b.key

end Fallback

end OptionalChain
