import OptionalChain.Config.Toml.Fault
import OptionalChain.Config.Value
import OptionalChain.Number.Shortest

/-!
# Scalars of a settings file

Strings, keys, numbers and words. A reader takes the text it reads off the front of the rest.
-/

namespace OptionalChain.Toml

abbrev Reader := StateT (List Char) (Except Fault)

variable {α : Type}

def failWith (f : Fault) : Reader α := throw f

def peek? : Reader (Option Char) := return (← get).head?

def bump : Reader Unit := modify (·.drop 1)

def skipWhile (p : Char → Bool) : Reader Unit := modify (·.dropWhile p)

def takeWhile (p : Char → Bool) : Reader (List Char) := do
  let (taken, rest) := (← get).span p
  set rest
  return taken

/-- Takes `word` if the text starts with it. -/
def eat (word : List Char) : Reader Bool := do
  let cs ← get
  if word.isPrefixOf cs then
    set (cs.drop word.length)
    return true
  return false

def isBlank (c : Char) : Bool := c == ' ' || c == '\t'

def skipBlanks : Reader Unit := skipWhile isBlank

def eatNewline : Reader Bool := do
  if ← eat ['\n'] then return true
  eat ['\r', '\n']

/-- Characters that may stand in a comment or a literal string. -/
def isPlain (c : Char) : Bool :=
  c == '\t' || (32 ≤ c.toNat && c.toNat != 127)

def skipComment : Reader Unit := do
  if (← peek?) == some '#' then
    skipWhile isPlain

/-! ## Strings -/

def hexValue? (c : Char) : Option Nat :=
  if c.isDigit then some (c.toNat - '0'.toNat)
  else if 'a' ≤ c ∧ c ≤ 'f' then some (c.toNat - 'a'.toNat + 10)
  else if 'A' ≤ c ∧ c ≤ 'F' then some (c.toNat - 'A'.toNat + 10)
  else none

/-- The value of digits in a base, if all of them are digits of it. -/
def digitsValue? (base : Nat) (cs : List Char) : Option Nat :=
  cs.foldlM (fun n c => do
    let d ← hexValue? c
    if d < base then return n * base + d else none) 0

def hexChar (digits : Nat) : Reader Char := do
  let cs ← get
  match digitsValue? 16 (cs.take digits) with
  | some n =>
    if (cs.take digits).length = digits ∧ n.isValidChar then
      set (cs.drop digits)
      return Char.ofNat n
    else
      failWith (.hexCode digits)
  | none => failWith (.hexCode digits)

/-- The character after a backslash. -/
def escapeChar : Reader Char := do
  let c? ← peek?
  bump
  match c? with
  | some 'b' => return '\x08'
  | some 't' => return '\t'
  | some 'n' => return '\n'
  | some 'f' => return '\x0c'
  | some 'r' => return '\r'
  | some '"' => return '"'
  | some '\\' => return '\\'
  | some 'u' => hexChar 4
  | some 'U' => hexChar 8
  | _ => failWith .escape

/-- The rest of a string in double quotes. -/
def basicFrom : Nat → List Char → Reader String
  | 0, _ => failWith .basicString
  | fuel + 1, done => do
    match ← peek? with
    | some '"' =>
      bump
      return String.ofList done
    | some '\\' =>
      bump
      let c ← escapeChar
      basicFrom fuel (done ++ [c])
    | some c =>
      if isPlain c then
        bump
        basicFrom fuel (done ++ [c])
      else
        failWith .basicString
    | none => failWith .basicString

def basicString : Reader String := do
  bump
  basicFrom ((← get).length + 1) []

def literalString : Reader String := do
  bump
  let body ← takeWhile fun c => isPlain c && c != '\''
  if ← eat ['\''] then
    return String.ofList body
  else
    failWith .literalString

/-- Takes a closing run of quotes; up to two more belong to the string. -/
def closingQuotes? (quote : Char) : Reader (Option (List Char)) := do
  let run := ((← get).takeWhile (· == quote)).length
  if run < 3 then
    return none
  else
    let extra := min (run - 3) 2
    modify (·.drop (3 + extra))
    return some (List.replicate extra quote)

/-- The rest of a string in three double quotes. -/
def multilineBasicFrom : Nat → List Char → Reader String
  | 0, _ => failWith .multilineBasicString
  | fuel + 1, done => do
    match ← closingQuotes? '"' with
    | some extra => return String.ofList (done ++ extra)
    | none =>
      match ← get with
      | '\\' :: cs =>
        let rest := cs.dropWhile isBlank
        if rest.head? == some '\n' || ['\r', '\n'].isPrefixOf rest then
          set (rest.dropWhile fun c => isBlank c || c == '\n' || c == '\r')
          multilineBasicFrom fuel done
        else
          set cs
          let c ← escapeChar
          multilineBasicFrom fuel (done ++ [c])
      | c :: cs =>
        if ← eatNewline then
          multilineBasicFrom fuel (done ++ ['\n'])
        else if isPlain c then
          set cs
          multilineBasicFrom fuel (done ++ [c])
        else
          failWith .multilineBasicString
      | [] => failWith .multilineBasicString

/-- The rest of a string in three single quotes. -/
def multilineLiteralFrom : Nat → List Char → Reader String
  | 0, _ => failWith .multilineLiteralString
  | fuel + 1, done => do
    match ← closingQuotes? '\'' with
    | some extra => return String.ofList (done ++ extra)
    | none =>
      match ← get with
      | c :: cs =>
        if ← eatNewline then
          multilineLiteralFrom fuel (done ++ ['\n'])
        else if isPlain c then
          set cs
          multilineLiteralFrom fuel (done ++ [c])
        else
          failWith .multilineLiteralString
      | [] => failWith .multilineLiteralString

/-- A string of any kind, from its opening quotes on. -/
def string : Reader String := do
  if ← eat ['"', '"', '"'] then
    let _ ← eatNewline
    multilineBasicFrom ((← get).length + 1) []
  else if ← eat ['\'', '\'', '\''] then
    let _ ← eatNewline
    multilineLiteralFrom ((← get).length + 1) []
  else if (← peek?) == some '"' then
    basicString
  else
    literalString

/-! ## Keys -/

def isBareKeyChar (c : Char) : Bool :=
  c.isAlphanum || c == '_' || c == '-'

def simpleKey : Reader String := do
  match ← peek? with
  | some '"' => basicString
  | some '\'' => literalString
  | _ =>
    let name ← takeWhile isBareKeyChar
    if name.isEmpty then failWith .key else return String.ofList name

/-- The rest of a dotted key. -/
def keyFrom : Nat → List String → Reader (List String)
  | 0, path => return path
  | fuel + 1, path => do
    skipBlanks
    let name ← simpleKey
    skipBlanks
    if ← eat ['.'] then
      keyFrom fuel (path ++ [name])
    else
      return path ++ [name]

def key : Reader (List String) := do
  keyFrom ((← get).length + 1) []

/-! ## Numbers -/

/-- Digits with single underscores between them, as far as they go. -/
def digitRun (isDigit : Char → Bool) : Bool → List Char → List Char × List Char
  | _, [] => ([], [])
  | after, c :: cs =>
    if isDigit c then
      let (taken, rest) := digitRun isDigit true cs
      (c :: taken, rest)
    else if c == '_' && after && cs.head?.any isDigit then
      digitRun isDigit false cs
    else
      ([], c :: cs)

def takeDigits (isDigit : Char → Bool) : Reader (List Char) := do
  let (taken, rest) := digitRun isDigit false (← get)
  set rest
  return taken

def takeSign : Reader Bool := do
  if ← eat ['-'] then return true
  let _ ← eat ['+']
  return false

/-- The text of a float, which always shows a decimal point. -/
def floatText (negative : Bool) (digits : Nat) (exponent : Int) : String :=
  let text := match Number.ofDecimal digits exponent with
    | .infinite => "inf".toList
    | x => x.toText
  let text := if text.contains '.' || text == "inf".toList then text else text ++ ['.', '0']
  String.ofList (if negative then '-' :: text else text)

/-- Integers below this one and not below its opposite can be given. -/
def integerLimit : Nat := 0x8000000000000000

def based (base : Nat) : Reader Value := do
  let digits ← takeDigits fun c => (hexValue? c).any (· < base)
  match digitsValue? base digits with
  | some n =>
    if digits.isEmpty then failWith .number
    else if n < integerLimit then return .integer n
    else failWith .outOfRange
  | none => failWith .number

/-- The part of a float after its exponent mark. -/
def exponentPart : Reader Int := do
  let negative ← takeSign
  let digits ← takeDigits Char.isDigit
  match digitsValue? 10 digits with
  | some n => if digits.isEmpty then failWith .number else return if negative then -n else n
  | none => failWith .number

def eatExponentMark : Reader Bool := do
  if ← eat ['e'] then return true
  eat ['E']

/-- Whether a date or a time starts here. -/
def startsDate (cs : List Char) : Bool :=
  let digits := (cs.takeWhile Char.isDigit).length
  let next := (cs.drop digits).head?
  (digits == 4 && next == some '-') || (digits == 2 && next == some ':')

def date : Reader Value := do
  let part (c : Char) : Bool := c.isDigit || "-:.TtZz+".toList.contains c
  skipWhile part
  match ← get with
  | ' ' :: c :: d :: ':' :: _ =>
    if c.isDigit && d.isDigit then
      bump
      skipWhile part
  | _ => pure ()
  return .date

def decimal : Reader Value := do
  let negative ← takeSign
  if ← eat "inf".toList then
    return .float (if negative then "-inf" else "inf")
  if ← eat "nan".toList then
    return .float "NaN"
  let whole ← takeDigits Char.isDigit
  if whole.isEmpty then
    failWith .number
  let fraction ← match ← get with
    | '.' :: c :: _ => if c.isDigit then do bump; takeDigits Char.isDigit else pure []
    | _ => pure []
  let hasExponent ← eatExponentMark
  let exponent ← if hasExponent then exponentPart else pure 0
  let digits := (digitsValue? 10 (whole ++ fraction)).getD 0
  if fraction.isEmpty && !hasExponent then
    if whole.length > 1 && whole.head? == some '0' then
      failWith .number
    let n : Int := if negative then -(digits : Int) else digits
    if n < integerLimit ∧ -integerLimit ≤ n then return .integer n else failWith .outOfRange
  else
    return .float (floatText negative digits (exponent - fraction.length))

def number : Reader Value := do
  let cs ← get
  if startsDate cs then
    date
  else if ← eat ['0', 'x'] then
    based 16
  else if ← eat ['0', 'o'] then
    based 8
  else if ← eat ['0', 'b'] then
    based 2
  else
    decimal

/-! ## Words -/

def startsNumber (c : Char) : Bool :=
  c.isDigit || c == '+' || c == '-'

def words : List (List Char × Value) :=
  [("true".toList, .boolean true), ("false".toList, .boolean false), ("inf".toList, .float "inf"),
    ("nan".toList, .float "NaN")]

/-- Whether a value can start here. -/
def startsValue (cs : List Char) : Bool :=
  match cs with
  | [] => false
  | c :: _ =>
    c == '"' || c == '\'' || c == '[' || c == '{' || startsNumber c ||
      words.any fun (w, _) => w.isPrefixOf cs

def word : Reader Value := do
  let cs ← get
  match words.find? fun (w, _) => w.isPrefixOf cs with
  | some (w, v) =>
    set (cs.drop w.length)
    return v
  | none => failWith .bareWord

end OptionalChain.Toml
