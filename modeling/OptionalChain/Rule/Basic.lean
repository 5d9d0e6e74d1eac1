import OptionalChain.Diagnostic
import OptionalChain.Guard.Chain

/-!
# Rules

A rule looks at a file and reports diagnostics, unless it has to give up. What it notes on the
way is kept as events.
-/

namespace OptionalChain

/-- Notes on the work done, in the order in which it was done. -/
inductive Event where
  | truncated (t : Truncation)
  | chain (file : String) (style : ChainStyle) (operands levels : Nat) (verdict : Verdict)
  | fallback (file : String) (verdict : Verdict)
  | analyzed (file : String) (rules parseErrors suppressed diagnostics : Nat)
  | applied (file : String) (pass applied : Nat)
  | unreadable (file : String) (pass : Nat) (message : String)
deriving Repr

structure Report where
  diagnostics : List Diagnostic := []
  events : List Event := []

inductive RuleCategory where
  | quality
deriving DecidableEq, Repr

structure RuleInfo where
  id : String
  name : String
  description : String
  category : RuleCategory := .quality
  severity : Severity
  docsUrl? : Option String := none
  examples? : Option String := none
deriving DecidableEq, Repr

structure Rule where
  info : RuleInfo
  check? : SourceFile → Option Report

end OptionalChain
