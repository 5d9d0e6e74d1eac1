import OptionalChain.Grammar.Program

/-!
# Languages

The extension of a file name decides how its text is read.
-/

namespace OptionalChain

inductive Language where
  | javascript
  | typescript
  | jsx
  | tsx
deriving DecidableEq, Repr

namespace Language

/-- What follows the last dot, in small letters; the whole name when there is no dot. -/
def extension (fileName : String) : String :=
  String.ofList (((fileName.toList.reverse.takeWhile (· != '.')).reverse).map Char.toLower)

def ofFileName (fileName : String) : Language :=
  match extension fileName with
  | "ts" | "mts" | "cts" => typescript
  | "tsx" => tsx
  | "jsx" => jsx
  | _ => javascript

/-- Decorators are read in no language that a file name stands for. -/
def dialect : Language → Grammar.Dialect
  | javascript => {}
  | typescript => { typescript := true }
  | jsx => { jsx := true }
  | tsx => { typescript := true, jsx := true }

def name : Language → String
  | javascript => "JavaScript"
  | typescript => "TypeScript"
  | jsx => "Jsx"
  | tsx => "Tsx"

end Language

end OptionalChain
