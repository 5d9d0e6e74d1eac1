import OptionalChain.Text.Lines

/-!
# Diagnostics

What is reported about a place in a file, with the edits that resolve it.
-/

namespace OptionalChain

inductive Severity where
  | error | warning | info | hint
deriving DecidableEq, Repr

namespace Severity

def name : Severity → String
  | error => "error"
  | warning => "warning"
  | info => "info"
  | hint => "hint"

def all : List Severity := [error, warning, info, hint]

def ofName? (s : String) : Option Severity :=
  all.find? (·.name == s)

end Severity

inductive Confidence where
  | high | medium | low
deriving DecidableEq, Repr

namespace Confidence

def level : Confidence → Nat
  | high => 3
  | medium => 2
  | low => 1

def name : Confidence → String
  | high => "high"
  | medium => "medium"
  | low => "low"

def all : List Confidence := [high, medium, low]

def ofName? (s : String) : Option Confidence :=
  all.find? (·.name == s)

end Confidence

/-- Whether an edit may be made without asking. -/
inductive Applicability where
  | automatic
  | suggestion
deriving DecidableEq, Repr

def Applicability.name : Applicability → String
  | automatic => "automatic"
  | suggestion => "suggestion"

/-- A part of a text by locations, which are for display, and by byte offsets. -/
structure Region where
  first : Text.Location
  last : Text.Location
  start : Nat
  stop : Nat
deriving DecidableEq, Repr

/-- One edit: the region is replaced by the text. -/
structure Fix where
  title : String
  newText : List Char
  applicability : Applicability := .automatic
  messageId? : Option String := none
  region : Region
deriving DecidableEq, Repr

namespace Fix

def start (x : Fix) : Nat := x.region.start

def stop (x : Fix) : Nat := x.region.stop

def isAutomatic (x : Fix) : Bool :=
  x.applicability == .automatic

/-- Whether the regions share text. -/
def overlaps (x y : Fix) : Bool :=
  x.start < y.stop && y.start < x.stop

end Fix

structure Diagnostic where
  ruleId : String
  messageId? : Option String := none
  severity : Severity
  confidence : Confidence := .high
  message : String
  file : String
  region : Region
  suggestion? : Option String := none
  fixes : List Fix := []
deriving DecidableEq, Repr

namespace Diagnostic

def line (d : Diagnostic) : Nat := d.region.first.line

def column (d : Diagnostic) : Nat := d.region.first.column

def automaticFixes (d : Diagnostic) : List Fix :=
  d.fixes.filter (·.isAutomatic)

def suggestedFixes (d : Diagnostic) : List Fix :=
  d.fixes.filter (!·.isAutomatic)

end Diagnostic

end OptionalChain
