import OptionalChain.Guard.Check
import OptionalChain.Typing.Shape

/-!
# Safety

Whether a guard can become `?.` without changing the value of the expression.
-/

namespace OptionalChain

/-- The options of the rule. -/
structure ChainOptions where
  requireNullish : Bool := false
  checkAny : Bool := true
  checkUnknown : Bool := true
  checkString : Bool := true
  checkNumber : Bool := true
  checkBoolean : Bool := true
  checkBigInt : Bool := true
  allowUnsafeFixes : Bool := false
deriving DecidableEq, Repr

/-- Safe: the guard stops at nullish values only. Risky: it may stop at other falsy values.
Disqualified: it cannot become `?.` at all. -/
inductive Verdict where
  | safe
  | risky
  | disqualified
deriving DecidableEq, Repr

namespace Verdict

def reason : Verdict → String
  | safe => "nullish-only guards"
  | risky => "guard may short-circuit on a falsy value"
  | disqualified => "guard is excluded by its type or options"

def rank : Verdict → Nat
  | safe => 0
  | risky => 1
  | disqualified => 2

/-- The worse of two verdicts. -/
def max (v w : Verdict) : Verdict :=
  if v.rank ≤ w.rank then w else v

end Verdict

namespace ChainOptions

def checks (o : ChainOptions) : TypeCategory → Bool
  | .any => o.checkAny
  | .unknown => o.checkUnknown
  | .string => o.checkString
  | .number => o.checkNumber
  | .boolean => o.checkBoolean
  | .bigint => o.checkBigInt

end ChainOptions

def TypeCategory.all : List TypeCategory :=
  [.any, .unknown, .string, .number, .boolean, .bigint]

/-- Whether a value of the kind may be falsy without being nullish. -/
def TypeKind.mayBeFalsy : TypeKind → Bool
  | .object | .null | .undefined => false
  | .literal _ falsy => falsy
  | .primitive p => p != .symbol
  | .any | .unknown | .unresolved => true

def Shape.mayBeFalsy (s : Shape) : Bool :=
  s.nonNullish.any (·.mayBeFalsy)

/-- The verdict on a bare test for truthiness. -/
def judgeTruthiness (s : Shape) (o : ChainOptions) : Verdict :=
  if o.requireNullish && !s.includesNullish then .disqualified
  else if TypeCategory.all.any fun c => !o.checks c && s.isExactly c then .disqualified
  else if s.hasFalsyLiteral && !o.allowUnsafeFixes then .disqualified
  else if s.mayBeFalsy then .risky
  else .safe

/-- Whether a check alone rules out both nullish values. -/
def CheckKind.isComplete (k : CheckKind) : Bool :=
  match k.comparison? with
  | some .strictNull | some .strictUndefined => false
  | _ => true

/-- Whether the checks on one path together rule out every nullish value it may have. -/
def isComplete (checks : List CheckKind) (s : Shape) : Bool :=
  checks.any (·.isComplete) ||
    ((checks.any (·.comparison? == some .strictNull) || s.isUnconstrained || !s.includesNull) &&
      (checks.any (·.comparison? == some .strictUndefined) || s.isUnconstrained ||
        !s.includesUndefined))

/-- The verdict on all checks of one path. -/
def judgeLevel (checks : List CheckKind) (s : Shape) (o : ChainOptions) : Verdict :=
  if checks.isEmpty || !isComplete checks s then .disqualified
  else if checks.any (·.isTruthiness) then judgeTruthiness s o
  else .safe

end OptionalChain
