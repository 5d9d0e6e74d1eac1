/-!
# Errors in a settings file

Each cause has one wording. An error in the header of a table says so first.
-/

namespace OptionalChain.Toml

inductive Fault where
  | missingValue
  | bareWord
  | key
  | separator
  | lineEnd
  | basicString
  | multilineBasicString
  | literalString
  | multilineLiteralString
  | escape
  | hexCode (digits : Nat)
  | number
  | outOfRange
  | array
  | inlineTable
  | headerEnd (isList : Bool)
  | duplicate (key : String) (table? : Option (List String))
  | extendsValue (path : List String) (actual : String)
  | inHeader (cause : Fault)
deriving DecidableEq, Repr

namespace Fault

/-- Where a key was given before. -/
def place : Option (List String) → String
  | none => ""
  | some [] => " in document root"
  | some path => " in table `" ++ ".".intercalate path ++ "`"

def message : Fault → String
  | missingValue => ""
  | bareWord => "invalid string\nexpected `\"`, `'`"
  | key => "invalid key"
  | separator => "expected `.`, `=`"
  | lineEnd => "expected newline, `#`"
  | basicString => "invalid basic string"
  | multilineBasicString => "invalid multiline basic string"
  | literalString => "invalid literal string"
  | multilineLiteralString => "invalid multiline literal string"
  | escape =>
    "invalid escape sequence\nexpected `b`, `f`, `n`, `r`, `t`, `u`, `U`, `\\`, `\"`"
  | hexCode digits => "invalid unicode " ++ toString digits ++ "-digit hex code"
  | number => "invalid integer"
  | outOfRange => "invalid integer\nnumber too large to fit in target type"
  | array => "invalid array\nexpected `]`"
  | inlineTable => "invalid inline table\nexpected `\x7d`"
  | headerEnd isList => "expected `.`, `" ++ (if isList then "]]" else "]") ++ "`"
  | duplicate name table? => "duplicate key `" ++ name ++ "`" ++ place table?
  | extendsValue path actual =>
    "dotted key `" ++ ".".intercalate path ++ "` attempted to extend non-table type (" ++
      actual ++ ")"
  | inHeader cause => "invalid table header\n" ++ cause.message

end Fault

end OptionalChain.Toml
