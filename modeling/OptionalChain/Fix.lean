import OptionalChain.Engine

/-!
# Fixing

Edits are made in the order of their regions. An edit that overlaps one already made is left
for the next pass, and passes are repeated until nothing changes. Fixing gives no result if the
analysis of one of the texts on the way gives none.
-/

namespace OptionalChain

structure FixOutput where
  output : List Char
  applied : Nat
  skipped : Nat
deriving DecidableEq, Repr

def FixOutput.changed (r : FixOutput) : Bool := 0 < r.applied

namespace Fix

/-- Order by start, then by end. -/
def atOrBefore (x y : Fix) : Bool :=
  x.start < y.start || (x.start == y.start && x.stop ≤ y.stop)

/-- Whether an edit is of a kind to be made and its region lies in a text of `size` bytes. -/
def isSelected (suggestions : Bool) (size : Nat) (x : Fix) : Bool :=
  (suggestions || x.isAutomatic) && x.start ≤ x.stop && x.stop ≤ size

/-- The edits to consider, in the order in which they are made. -/
def selected (suggestions : Bool) (text : List Char) (ds : List Diagnostic) : List Fix :=
  ((ds.flatMap (·.fixes)).filter (isSelected suggestions (Text.size text))).mergeSort atOrBefore

/-- Whether an edit can be made after everything before `cursor` has been dealt with. -/
def fits (text : List Char) (cursor : Nat) (x : Fix) : Bool :=
  cursor ≤ x.start && Text.isBoundary x.start text && Text.isBoundary x.stop text

/-- The edits that are made: each one that fits after those before it. -/
def chosen (text : List Char) (cursor : Nat) : List Fix → List Fix
  | [] => []
  | x :: xs =>
    if x.fits text cursor then x :: chosen text x.stop xs else chosen text cursor xs

/-- The text from `cursor` on with edits in order. -/
def splice (text : List Char) (cursor : Nat) : List Fix → List Char
  | [] => Text.slice cursor (Text.size text) text
  | x :: xs => Text.slice cursor x.start text ++ x.newText ++ splice text x.stop xs

end Fix

/-- One pass over the diagnostics of a text. -/
def applyFixes (text : List Char) (ds : List Diagnostic) (suggestions : Bool) : FixOutput :=
  let selected := Fix.selected suggestions text ds
  let chosen := Fix.chosen text 0 selected
  { output := Fix.splice text 0 chosen
    applied := chosen.length
    skipped := selected.length - chosen.length }

/-! ## Passes -/

namespace Engine

variable (e : Engine)

def maxPasses : Nat := 10

/-- A fix output with the events of its passes. -/
structure FixRun where
  output : FixOutput
  events : List Event

/-- Passes from number `pass` on, with `applied` edits made before them and `skipped` ones left
by the last. A pass whose output does not parse is given up. -/
def fixFrom? (name : String) (suggestions : Bool) (text : List Char) (applied skipped pass : Nat) :
    Nat → Option FixRun
  | 0 => some ⟨⟨text, applied, skipped⟩, []⟩
  | left + 1 => do
    let report ← e.analyze? (.ofText name text)
    let result := applyFixes text report.diagnostics suggestions
    let last (events : List Event) : FixRun :=
      ⟨⟨text, applied, result.skipped⟩, report.events ++ events⟩
    if result.changed then
      match (Outcome.ofText (Language.ofFileName name).dialect result.output).strict with
      | .error issue => return last [.unreadable name pass issue.message]
      | .ok _ =>
        let rest ← fixFrom? name suggestions result.output (applied + result.applied)
          result.skipped (pass + 1) left
        return ⟨rest.output, report.events ++ .applied name pass result.applied :: rest.events⟩
    else
      return last []

/-- Repeats passes until nothing changes, an output does not parse, or there were enough. -/
def fixUntilStable? (name : String) (text : List Char) (suggestions : Bool) : Option FixRun :=
  e.fixFrom? name suggestions text 0 0 1 maxPasses

end Engine

end OptionalChain
