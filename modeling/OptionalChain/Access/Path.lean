import OptionalChain.Access.Compact
import OptionalChain.Access.Search
import OptionalChain.Source.File
import OptionalChain.Text.Alphanumeric

/-!
# Access paths

A path is a base followed by member, element and call steps. Paths are compared by canonical
text, so that parentheses, non-null assertions, optional markers and white space make no
difference.
-/

namespace OptionalChain

/-! ## Effects -/

mutual

/-- Whether evaluating the expression may update, assign or yield. The code of functions
inside it is not run. -/
def Node.hasEffects : Node → Bool
  | .mk kind _ children =>
    match kind with
    | .update | .assign | .yield => true
    | .function | .arrow => false
    | _ => Node.anyHasEffects children

def Node.anyHasEffects : List Node → Bool
  | [] => false
  | n :: ns => n.hasEffects || Node.anyHasEffects ns

end

namespace Access

def isWordPart (c : Char) : Bool :=
  Text.isAlphanumeric c || c == '_' || c == '$'

/-- Whether `await` stands in the text as a word. -/
def mentionsAwait (cs : List Char) : Bool :=
  (cs.splitOnP (!isWordPart ·)).any (· == "await".toList)

end Access

/-! ## Steps -/

inductive StepKind where
  | member
  | element
  | call
deriving DecidableEq, Repr

/-- A step with its canonical text, the fact whether it is written with `?.`, the offset where
the marker goes, and the expression up to and including the step. -/
structure Step where
  kind : StepKind
  key : List Char
  optional : Bool
  insertAt : Nat
  expr : Node

namespace Step

/-- What makes the step optional. -/
def marker (s : Step) : List Char :=
  match s.kind with
  | .member => ['?']
  | .element | .call => ['?', '.']

/-- Whether two steps read the same thing. -/
def agrees (s t : Step) : Bool :=
  s.kind == t.kind && s.key == t.key

variable (f : SourceFile)

/-- The step of a member access. -/
def ofMember (optional : Bool) (object key expr : Node) : Step :=
  let dot := Access.findToken '.' (f.clamp object.span.hi) (f.clamp key.span.lo) f.text
  match key.kind with
  | .name text => ⟨.member, '.' :: text.toList, optional, dot, expr⟩
  | .privateName text => ⟨.member, '.' :: '#' :: text.toList, optional, dot, expr⟩
  | _ =>
    let inner := (key.children.head?.map fun e => Access.compact (f.slice e.span)).getD []
    ⟨.element, '[' :: inner ++ [']'], optional, f.clamp key.span.lo, expr⟩

/-- The step of a call. -/
def ofCall (optional : Bool) (callee typeArgs expr : Node) : Step :=
  let stop := f.clamp expr.span.hi
  let open_ := Access.findToken '(' (f.clamp callee.span.hi) stop f.text
  let args := Access.compact (Text.slice open_ stop f.text)
  match typeArgs.present? with
  | some t => ⟨.call, Access.compact (f.slice t.span) ++ args, optional, f.clamp t.span.lo, expr⟩
  | none => ⟨.call, args, optional, open_, expr⟩

end Step

/-! ## Paths -/

structure AccessPath where
  base : Node
  baseKey : List Char
  steps : List Step

namespace AccessPath

def length (p : AccessPath) : Nat := p.steps.length

/-- The expression that the whole path evaluates. -/
def target (p : AccessPath) : Node :=
  (p.steps.getLast?.map (·.expr)).getD p.base

/-- Whether `q` starts with every step of `p`. -/
def leads (p q : AccessPath) : Bool :=
  p.baseKey == q.baseKey && p.length ≤ q.length &&
    (p.steps.zip q.steps).all fun (s, t) => s.agrees t

def leadsStrictly (p q : AccessPath) : Bool :=
  p.length < q.length && p.leads q

def sameAs (p q : AccessPath) : Bool :=
  p.length == q.length && p.leads q

/-- The canonical text of the path. -/
def render (p : AccessPath) : List Char :=
  p.baseKey ++ p.steps.flatMap (·.key)

/-- Whether a node can be a base, apart from its effects. -/
def isBaseKind : Kind → Bool
  | .ident _ | .thisRef | .metaProperty | .superMember | .new | .asType | .satisfies
  | .typeAssertion | .constAssertion => true
  | _ => false

/-- Whether what is called is an expression. -/
def isCallee (n : Node) : Bool :=
  match n.kind with
  | .superRef | .importRef => false
  | _ => true

variable (f : SourceFile)

def base? (n : Node) : Option Node :=
  match n with
  | .mk .await _ [e] => if e.hasEffects then none else some n
  | .mk kind span _ =>
    if isBaseKind kind && !Access.mentionsAwait (f.slice span) && !n.hasEffects then some n
    else none

/-- Base and steps of an expression. Keys and arguments that have effects are refused. -/
def spine? (n : Node) : Option (Node × List Step) :=
  match n with
  | .paren _ e => spine? e
  | .nonNull _ e => spine? e
  | .member optional _ object key =>
    if Node.anyHasEffects key.children then none
    else do
      let (base, steps) ← spine? object
      return (base, steps ++ [.ofMember f optional object key n])
  | .call optional _ callee args typeArgs =>
    if !isCallee callee || Node.anyHasEffects args.children then none
    else do
      let (base, steps) ← spine? callee
      return (base, steps ++ [.ofCall f optional callee typeArgs n])
  | n => (base? f n).map (·, [])

/-- The access path of an expression. An awaited value is a base only when a step follows. -/
def of? (n : Node) : Option AccessPath := do
  let (base, steps) ← spine? f n
  match base.kind, steps with
  | .await, [] => none
  | _, _ => some ⟨base, Access.compact (f.slice base.span), steps⟩

end AccessPath

end OptionalChain
