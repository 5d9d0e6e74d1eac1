import OptionalChain.Guard.Safety

/-!
# Chains

A chain is a block of operands in a run of `&&` or `||`: checks on a path that gets deeper,
and a last operand whose path goes deeper still.
-/

namespace OptionalChain

/-- An operand of a run with the check that the run goes on past, if it makes one, and the path
that it ends in, if it can be the last of a chain. -/
structure Operand where
  node : Node
  check? : Option Check
  terminal? : Option AccessPath

/-- Checks on one path; the operand is the first of them and the index its place in the run.
A level without checks can only be the last. -/
structure Level where
  path : AccessPath
  operand : Operand
  index : Nat
  checks : List CheckKind

/-- Guards come shallowest first. -/
structure Chain where
  style : ChainStyle
  guards : List AccessPath
  terminal : Node
  terminalPath : AccessPath
  operands : Nat
  span : Span
  verdict : Verdict

/-- A note that levels were given up: how many there were, how many stay, and the path of the
first one given up. -/
structure Truncation where
  levels : Nat
  kept : Nat
  guard : List Char
deriving DecidableEq, Repr

/-- Operands of a run of one operator. An operand in parentheses stays whole. -/
def Node.flatten (style : ChainStyle) : Node → List Node
  | .binary op s left right =>
    if op = style.op then left.flatten style ++ right.flatten style
    else [.binary op s left right]
  | n => [n]

/-- What the search for chains goes by. -/
structure ChainFinder where
  file : SourceFile
  style : ChainStyle
  oracle : Oracle
  options : ChainOptions

namespace ChainFinder

variable (c : ChainFinder)

/-- What a node says as an operand of a run. -/
def operand (n : Node) : Operand where
  node := n
  check? := (Check.of? c.file n).filter (·.kind.continues c.style)
  terminal? := terminalPath? c.file c.style n

/-- A last operand on a path deeper than the level, as a level of its own. -/
def lastLevel? (current : Level) (index : Nat) (operand : Operand) : Option Level :=
  (operand.terminal?.filter current.path.leadsStrictly).map fun path => ⟨path, operand, index, []⟩

/-- The levels from `current` on, given the operands after it. -/
def levelsFrom (current : Level) (index : Nat) : List Operand → List Level
  | [] => [current]
  | operand :: rest =>
    match operand.check? with
    | some check =>
      if check.path.sameAs current.path then
        levelsFrom { current with checks := current.checks ++ [check.kind] } (index + 1) rest
      else if current.path.leadsStrictly check.path then
        current :: levelsFrom ⟨check.path, operand, index, [check.kind]⟩ (index + 1) rest
      else
        current :: (lastLevel? current index operand).toList
    | none => current :: (lastLevel? current index operand).toList

/-- The levels of a run from its operand number `index` on; none if that is no check. -/
def levelsAt (index : Nat) (operand : Operand) (rest : List Operand) : List Level :=
  match operand.check? with
  | some check => levelsFrom ⟨check.path, operand, index, [check.kind]⟩ (index + 1) rest
  | none => []

def verdict (l : Level) : Verdict :=
  judgeLevel l.checks (c.oracle l.path.target) c.options

/-- The deepest level that can be the last: the first disqualified one. -/
def deepest (levels : List Level) : Nat :=
  min (levels.findIdx fun l => c.verdict l == .disqualified) (levels.length - 1)

def truncation? (levels : List Level) : Option Truncation :=
  (levels[c.deepest levels + 1]?).map fun l =>
    ⟨levels.length, c.deepest levels + 1, l.path.render⟩

/-- Level number `t + 1` as the last one, after level number `t`. -/
def terminalAt? (levels : List Level) (t : Nat) : Option (Level × AccessPath) := do
  let before ← levels[t]?
  let last ← levels[t + 1]?
  let path ← last.operand.terminal?.filter before.path.leadsStrictly
  return (last, path)

/-- The chain with the most levels among the first `t` guards. -/
def chainWithin (levels : List Level) (first : Level) : Nat → Option Chain
  | 0 => none
  | t + 1 =>
    match terminalAt? levels t with
    | some (last, path) =>
      let guards := levels.take (t + 1)
      some
        { style := c.style
          guards := guards.map (·.path)
          terminal := last.operand.node
          terminalPath := path
          operands := last.index + 1 - first.index
          span := first.operand.node.span.upTo last.operand.node.span
          verdict := (guards.map c.verdict).foldl .max .safe }
    | none => chainWithin levels first t

def settle (levels : List Level) : Option Chain := do
  let first ← levels.head?
  c.chainWithin levels first (c.deepest levels)

/-- The outcome at one operand of a run: the chain that starts there and what was given up. -/
structure Attempt where
  truncation? : Option Truncation
  chain? : Option Chain

/-- Attempts from left to right; the first `skip` operands belong to a chain already. -/
def searchFrom (skip index : Nat) : List Operand → List Attempt
  | [] => []
  | operand :: rest =>
    match skip with
    | skip + 1 => searchFrom skip (index + 1) rest
    | 0 =>
      let levels := levelsAt index operand rest
      let chain? := c.settle levels
      let skip := (chain?.map (·.operands - 1)).getD 0
      ⟨c.truncation? levels, chain?⟩ :: searchFrom skip (index + 1) rest

def search (operands : List Node) : List Attempt :=
  c.searchFrom 0 0 (operands.map c.operand)

/-- Every chain of a run from left to right; no two share an operand. -/
def find (operands : List Node) : List Chain :=
  (c.search operands).filterMap (·.chain?)

def truncations (operands : List Node) : List Truncation :=
  (c.search operands).filterMap (·.truncation?)

end ChainFinder

end OptionalChain
