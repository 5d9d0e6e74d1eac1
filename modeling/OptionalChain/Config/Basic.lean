import OptionalChain.Diagnostic
import OptionalChain.Guard.Safety

/-!
# Configuration

Which rules run, how severe their reports are, and the options of the rule.
-/

namespace OptionalChain

/-- Settings of the rules. Severities are by rule reference, an identifier or a name, each of
them given once. -/
structure RulesConfig where
  enabled : List String := []
  disabled : List String := []
  severity : List (String × Severity) := []
  quality? : Option Bool := none
  minConfidence? : Option Confidence := none
  chain : ChainOptions := {}
deriving DecidableEq, Repr

structure Config where
  includes : List String := []
  excludes : List String := []
  rules : RulesConfig := {}
deriving DecidableEq, Repr

end OptionalChain
