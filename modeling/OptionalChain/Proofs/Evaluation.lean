import OptionalChain.Guard.Safety

/-!
# Evaluation of accesses, checks and comparisons

A world gives a value to every base and to every step on a value that is present. A plain step
on a nullish value throws. A step written with `?.` skips the rest of its chain, which then is
undefined. Where a chain ends is a matter of the reading: with the whole path, or at the
parenthesis around it.

Expressions that are neither accesses nor comparisons may do anything: change the state, give
any value, or throw. A run that throws has no result.
-/

namespace OptionalChain

/-! ## Values -/

inductive Numeral where
  | nan
  | signed (negative : Bool) (magnitude : Number.Magnitude)
deriving DecidableEq, Repr

/-- Symbols and objects are told apart by a number. -/
inductive Datum where
  | undefined
  | null
  | boolean (value : Bool)
  | number (value : Numeral)
  | string (value : String)
  | bigint (value : Int)
  | symbol (id : Nat)
  | object (id : Nat) (callable : Bool)
deriving DecidableEq, Repr

namespace Numeral

def isZero : Numeral → Bool
  | signed _ m => m.isZero
  | nan => false

/-- Equality of numbers: the two zeros are equal, and nothing is equal to `nan`. -/
def same (x y : Numeral) : Bool :=
  x != nan && (x == y || x.isZero && y.isZero)

end Numeral

namespace Datum

def isNullish : Datum → Bool
  | undefined | null => true
  | _ => false

def isTruthy : Datum → Bool
  | undefined | null => false
  | boolean b => b
  | number x => x != .nan && !x.isZero
  | string s => !s.isEmpty
  | bigint n => n != 0
  | symbol _ | object _ _ => true

/-- What `typeof` tells of the value. -/
def typeName : Datum → String
  | undefined => "undefined"
  | null => "object"
  | boolean _ => "boolean"
  | number _ => "number"
  | string _ => "string"
  | bigint _ => "bigint"
  | symbol _ => "symbol"
  | object _ callable => if callable then "function" else "object"

/-- Equality without conversion. -/
def same : Datum → Datum → Bool
  | number x, number y => x.same y
  | v, u => v == u

def primitive? : Datum → Option Primitive
  | boolean _ => some .boolean
  | number _ => some .number
  | string _ => some .string
  | bigint _ => some .bigint
  | symbol _ => some .symbol
  | undefined | null | object _ _ => none

def isObject : Datum → Bool
  | object _ _ => true
  | _ => false

theorem typeName_eq_undefined {v : Datum} : v.typeName = "undefined" ↔ v = undefined := by
  cases v with
  | object id callable => cases callable <;> simp [typeName]
  | _ => simp [typeName]

end Datum

/-- The value of a literal; a regular expression makes a new object. -/
def Literal.value? : Literal → Option Datum
  | .null => some .null
  | .boolean b => some (.boolean b)
  | .string s => some (.string s)
  | .number m => some (.number (.signed false m))
  | .bigint n => some (.bigint n)
  | .regex => none

/-! ## Values and shapes -/

/-- Whether a constituent of a type has the value. -/
def TypeKind.admits : TypeKind → Datum → Bool
  | .null, v => v == .null
  | .undefined, v => v == .undefined
  | .primitive p, v => v.primitive? == some p
  | .literal p falsy, v => v.primitive? == some p && v.isTruthy == !falsy
  | .object, v => v.isObject
  | .any, _ | .unknown, _ | .unresolved, _ => true

/-- Whether a value is among those that the shape tells of. -/
def Shape.admits (s : Shape) (v : Datum) : Bool :=
  s.kinds.any (·.admits v)

theorem TypeKind.isTruthy_of_admits {k : TypeKind} {v : Datum} (hnullish : k.isNullish = false)
    (hfalsy : k.mayBeFalsy = false) (h : k.admits v = true) : v.isTruthy = true := by
  cases k with
  | primitive p =>
    have hp : p = .symbol := by simpa [mayBeFalsy] using hfalsy
    subst hp
    cases v <;> simp_all [admits, Datum.primitive?, Datum.isTruthy]
  | literal p falsy =>
    have hf : falsy = false := by simpa [mayBeFalsy] using hfalsy
    simp_all [admits]
  | object => cases v <;> simp_all [admits, Datum.isObject, Datum.isTruthy]
  | null => simp [isNullish] at hnullish
  | undefined => simp [isNullish] at hnullish
  | any => simp [mayBeFalsy] at hfalsy
  | unknown => simp [mayBeFalsy] at hfalsy
  | unresolved => simp [mayBeFalsy] at hfalsy

theorem TypeKind.isNullish_of_admits {k : TypeKind} {v : Datum} (hnullish : k.isNullish = true)
    (h : k.admits v = true) : v.isNullish = true := by
  cases k <;> simp_all [isNullish, admits, Datum.isNullish]

/-- A shape that cannot be falsy beside being nullish has no other falsy value. -/
theorem Shape.isNullish_of_falsy {s : Shape} {v : Datum} (hshape : s.mayBeFalsy = false)
    (hv : s.admits v = true) (hfalsy : v.isTruthy = false) : v.isNullish = true := by
  unfold admits at hv
  rw [List.any_eq_true] at hv
  obtain ⟨k, hk, hadmits⟩ := hv
  cases hn : k.isNullish with
  | true => exact TypeKind.isNullish_of_admits hn hadmits
  | false =>
    have hkfalsy : k.mayBeFalsy = false := by
      unfold mayBeFalsy nonNullish at hshape
      rw [List.any_eq_false] at hshape
      have hmem : k ∈ s.kinds.filter (!·.isNullish) := by simp [hk, hn]
      simpa using hshape k hmem
    have htruthy := TypeKind.isTruthy_of_admits hn hkfalsy hadmits
    rw [hfalsy] at htruthy
    cases htruthy

/-! ## Worlds -/

/-- What the code around an expression decides, in a state of type `σ`: the value of a base and
of a step by their canonical text, equality of values of different types, order, and all that
other expressions do. No literal is nullish apart from `null`. -/
structure World (σ : Type) where
  base : σ → List Char → Datum
  read : σ → StepKind → List Char → Datum → Option Datum
  constant : Node → Datum
  constant_present : ∀ n, (constant n).isNullish = false
  equates : σ → Datum → Datum → Option Bool
  convertsObject : σ → Nat → Bool
  orders : σ → BinaryOp → Datum → Datum → Bool
  isInstance : σ → Datum → Datum → Option Bool
  other : Node → σ → Option (Datum × σ)

/-- Where a chain ends that `?.` has left: at the end of the path, or at the first parenthesis
that closes. -/
inductive Reading where
  | whole
  | grouped
deriving DecidableEq, Repr

/-- Where the evaluation of an access stands: at a value, or past a step that was skipped. -/
inductive Link where
  | reached (v : Datum)
  | skipped
deriving DecidableEq, Repr

def Link.value : Link → Datum
  | reached v => v
  | skipped => .undefined

/-- What a closing parenthesis makes of the access inside. -/
def Reading.close : Reading → Link → Link
  | whole, l => l
  | grouped, l => .reached l.value

/-- A step as evaluation sees it; it is grouped when a parenthesis closes right before it. -/
structure Hop where
  kind : StepKind
  key : List Char
  optional : Bool
  grouped : Bool
deriving DecidableEq, Repr

/-- The node has a parenthesis around all of it, apart from non-null assertions. -/
def Node.closes : Node → Bool
  | .paren _ _ => true
  | .nonNull _ e => e.closes
  | _ => false

namespace Step

/-- The expression that the step is made on. -/
def receiver? (s : Step) : Option Node :=
  match s.expr with
  | .member _ _ object _ => some object
  | .call _ _ callee _ _ => some callee
  | _ => none

def isGrouped (s : Step) : Bool :=
  s.receiver?.any (·.closes)

def hop (s : Step) : Hop :=
  ⟨s.kind, s.key, s.optional, s.isGrouped⟩

end Step

namespace World

variable {σ : Type} (w : World σ)

def follow (s : σ) (optional : Bool) (kind : StepKind) (key : List Char) : Link → Option Link
  | .skipped => some .skipped
  | .reached v =>
    if v.isNullish then if optional then some .skipped else none
    else (w.read s kind key v).map .reached

/-- Makes the steps one after the other. -/
def walk (r : Reading) (s : σ) : Link → List Hop → Option Link
  | l, [] => some l
  | l, h :: hs =>
    (w.follow s h.optional h.kind h.key (if h.grouped then r.close l else l)).bind
      (walk r s · hs)

/-- The value of a path whose base and steps are given. -/
def pathValue (r : Reading) (s : σ) (baseKey : List Char) (hops : List Hop) : Option Datum :=
  (w.walk r s (.reached (w.base s baseKey)) hops).map (·.value)

/-- Whether a value can take part in an ordering. -/
def converts (s : σ) : Datum → Bool
  | .symbol _ => false
  | .object id _ => w.convertsObject s id
  | _ => true

/-- An ordering with an undefined side does not hold. -/
def relates (s : σ) (op : BinaryOp) (a b : Datum) : Option Bool :=
  if op = .instanceOf then w.isInstance s a b
  else if w.converts s a && w.converts s b then
    some (a != .undefined && b != .undefined && w.orders s op a b)
  else none

/-- Equality with conversion: nullish values are equal to each other and to nothing else, and
values of one type are compared without conversion. -/
def equatesLoosely (s : σ) (a b : Datum) : Option Bool :=
  if a.isNullish || b.isNullish then some (a.isNullish && b.isNullish)
  else if a.primitive? = b.primitive? then some (a.same b)
  else w.equates s a b

def compares (s : σ) (op : BinaryOp) (a b : Datum) : Option Bool :=
  (if op.isStrict then some (a.same b) else w.equatesLoosely s a b).map (· != op.isNegated)

variable (f : SourceFile) (r : Reading)

def leaf (n : Node) (s : σ) : Option (Datum × σ) :=
  match AccessPath.base? f n with
  | some _ => some (w.base s (Access.compact (f.slice n.span)), s)
  | none => w.other n s

/-- Evaluates an access up to the end of its chain. -/
def link : Node → σ → Option (Link × σ)
  | .paren _ e, s => (link e s).map fun (l, s) => (r.close l, s)
  | .nonNull _ e, s => link e s
  | .member optional span object key, s =>
    let n : Node := .member optional span object key
    if Node.anyHasEffects key.children then (w.other n s).map fun (v, s) => (.reached v, s)
    else
      let step := Step.ofMember f optional object key n
      (link object s).bind fun (l, s) =>
        (w.follow s optional step.kind step.key l).map fun l => (l, s)
  | .call optional span callee args typeArgs, s =>
    let n : Node := .call optional span callee args typeArgs
    if !AccessPath.isCallee callee || Node.anyHasEffects args.children then
      (w.other n s).map fun (v, s) => (.reached v, s)
    else
      let step := Step.ofCall f optional callee typeArgs n
      (link callee s).bind fun (l, s) =>
        (w.follow s optional step.kind step.key l).map fun l => (l, s)
  | n, s => (w.leaf f n s).map fun (v, s) => (.reached v, s)

def access (n : Node) (s : σ) : Option (Datum × σ) :=
  (w.link f r n s).map fun (l, s) => (l.value, s)

end World

/-- The name `undefined`, which a comparison takes for the value. -/
def Node.isUndefined (n : Node) : Bool :=
  match n.stripParens with
  | .mk (.ident "undefined") _ _ => true
  | _ => false

namespace World

variable {σ : Type} (w : World σ) (f : SourceFile) (r : Reading)

/-- Evaluates an operand. -/
def eval : Node → σ → Option (Datum × σ)
  | .paren _ e, s => eval e s
  | .unary .not _ e, s => (eval e s).map fun (v, s) => (.boolean (!v.isTruthy), s)
  | .unary .typeof _ e, s => (eval e s).map fun (v, s) => (.string v.typeName, s)
  | .unary .void _ e, s => (eval e s).map fun (_, s) => (.undefined, s)
  | .unary .minus span e, s =>
    if e.kind.isNumeric then some (w.constant (.unary .minus span e), s)
    else w.other (.unary .minus span e) s
  | .binary op span left right, s =>
    if op.isEquality then
      (if left.isUndefined then some (.undefined, s) else eval left s).bind fun (a, s) =>
        (if right.isUndefined then some (.undefined, s) else eval right s).bind fun (b, s) =>
          (w.compares s op a b).map fun holds => (.boolean holds, s)
    else if op.isRelational then
      (eval left s).bind fun (a, s) =>
        (eval right s).bind fun (b, s) =>
          (w.relates s op a b).map fun holds => (.boolean holds, s)
    else w.other (.binary op span left right) s
  | .mk (.literal l) span children, s =>
    some (l.value?.getD (w.constant (.mk (.literal l) span children)), s)
  | .mk .template span [], s => some (w.constant (.mk .template span []), s)
  | n, s => w.access f r n s

end World

/-! ## Runs of operands -/

/-- Whether a run of the style ends at an operand with the value. -/
def ChainStyle.stops : ChainStyle → Datum → Bool
  | .and, v => !v.isTruthy
  | .or, v => v.isTruthy

namespace World

variable {σ : Type} (w : World σ) (f : SourceFile) (r : Reading)

/-- Evaluates operands until one ends the run; its value is given if there is one. -/
def guards (style : ChainStyle) : List Node → σ → Option (Option Datum × σ)
  | [], s => some (none, s)
  | n :: ns, s =>
    (w.eval f r n s).bind fun (v, s) =>
      if style.stops v then some (some v, s) else guards style ns s

/-- Evaluates operands and, if none of them ends the run, the last one. -/
def run (style : ChainStyle) (operands : List Node) (last : Node) (s : σ) : Option (Datum × σ) :=
  (w.guards f r style operands s).bind fun
    | (some v, s) => some (v, s)
    | (none, s) => w.eval f r last s

end World

end OptionalChain
