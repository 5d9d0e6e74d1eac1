/-!
# Setting values

The data that settings are read from. A settings file has no null; it stands for a setting
that is not given. A float is kept as its text.
-/

namespace OptionalChain

inductive Value where
  | null
  | boolean (value : Bool)
  | integer (value : Int)
  | float (text : String)
  | string (value : String)
  | date
  | list (items : List Value)
  | table (isInline : Bool) (entries : List (String × Value))

namespace Value

instance : Inhabited Value := ⟨null⟩

/-- A string in quotes, with escapes for quotes, backslashes and control characters. -/
def quoteChar (c : Char) : String :=
  match c with
  | '"' => "\\\""
  | '\\' => "\\\\"
  | '\n' => "\\n"
  | '\r' => "\\r"
  | '\t' => "\\t"
  | c =>
    if c.toNat = 0 then "\\0"
    else if c.toNat < 32 ∨ (127 ≤ c.toNat ∧ c.toNat < 160) then
      "\\u\x7b" ++ String.ofList (Nat.toDigits 16 c.toNat) ++ "\x7d"
    else c.toString

def quote (s : String) : String :=
  "\"" ++ String.join (s.toList.map quoteChar) ++ "\""

/-- How an error names the value. -/
def describe : Value → String
  | null => "null"
  | boolean value => "boolean `" ++ toString value ++ "`"
  | integer value => "integer `" ++ toString value ++ "`"
  | float text => "floating point `" ++ text ++ "`"
  | string value => "string " ++ quote value
  | date => "map"
  | list _ => "sequence"
  | table _ _ => "map"

/-- The name of the value's type. -/
def typeName : Value → String
  | null => "null"
  | boolean _ => "boolean"
  | integer _ => "integer"
  | float _ => "float"
  | string _ => "string"
  | date => "datetime"
  | list _ => "array"
  | table true _ => "inline table"
  | table false _ => "table"

/-- The value of a key in a table. -/
def get? (v : Value) (key : String) : Option Value :=
  match v with
  | table _ entries => entries.lookup key
  | _ => none

/-- Keys of a table, in the order in which they are written. -/
def keys : Value → List String
  | table _ entries => entries.map Prod.fst
  | _ => []

def isTable : Value → Bool
  | table _ _ => true
  | _ => false

end Value

end OptionalChain
