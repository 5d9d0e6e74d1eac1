import OptionalChain.Diagnostic

/-!
# Colors

Text for a terminal. A painted text is put between escape codes, also when it is empty, and is
left as it is when colors are off.
-/

namespace OptionalChain

inductive Paint where
  | bold | dimmed | red | green | yellow | blue | cyan
deriving DecidableEq, Repr

def Paint.code : Paint → Nat
  | bold => 1
  | dimmed => 2
  | red => 31
  | green => 32
  | yellow => 33
  | blue => 34
  | cyan => 36

/-- Whether colors are on. -/
structure Palette where
  isOn : Bool
deriving DecidableEq, Repr

namespace Palette

variable (p : Palette)

def paint (paints : List Paint) (text : String) : String :=
  if p.isOn then
    "\x1b[" ++ ";".intercalate (paints.map fun c => toString c.code) ++ "m" ++ text ++ "\x1b[0m"
  else
    text

def severityPaint : Severity → Paint
  | .error => .red
  | .warning => .yellow
  | .info => .blue
  | .hint => .cyan

def severity (s : Severity) : String :=
  p.paint [.bold, severityPaint s] s.name

end Palette

/-! ## Counting -/

def countSeverity (ds : List Diagnostic) (s : Severity) : Nat :=
  ds.countP (·.severity == s)

def countFixable (ds : List Diagnostic) : Nat :=
  ds.countP fun d => !d.automaticFixes.isEmpty

def plural (n : Nat) (noun : String) : String :=
  toString n ++ " " ++ noun ++ (if n = 1 then "" else "s")

end OptionalChain
