import OptionalChain.Text.Identifier
import OptionalChain.Token.Basic
import OptionalChain.Token.Reserved

/-!
# Reading literals and words

Each reader takes the text where its token starts. Places of errors are counted in bytes from
there.
-/

namespace OptionalChain.Token

/-- What a token is, the number of its characters, and its faults. -/
structure Lexeme where
  form : TokenForm
  taken : Nat
  faults : List SyntaxError := []

def isLineEnd (c : Char) : Bool :=
  c == '\n' || c == '\r' || c.toNat == 0x2028 || c.toNat == 0x2029

def digitValue (c : Char) : Nat :=
  if c.isDigit then c.toNat - 48
  else if 'a' ≤ c ∧ c ≤ 'z' then c.toNat - 87
  else if 'A' ≤ c ∧ c ≤ 'Z' then c.toNat - 55
  else 36

def isDigitIn (base : Nat) (c : Char) : Bool :=
  digitValue c < base

def digitsValue (base : Nat) (digits : List Nat) : Nat :=
  digits.foldl (fun n d => n * base + d) 0

/-! ## Numbers -/

/-- A run of digits: their values, the places of separators that do not stand between two
digits, where the run ends, and the text after it. -/
structure DigitRun where
  digits : List Nat := []
  misplaced : List Nat := []
  stop : Nat
  rest : List Char

/-- Whether a separator may stand between these characters. -/
def separates (base : Nat) (before after : Option Char) : Bool :=
  after.any (isDigitIn base) && before != some '_'

/-- The run of digits and separators at byte `pos`, after the character `before`. -/
def digitRun (base : Nat) : (before : Option Char) → (pos : Nat) → List Char → DigitRun
  | _, pos, [] => { stop := pos, rest := [] }
  | before, pos, c :: cs =>
    if c = '_' then
      let r := digitRun base (some c) (pos + 1) cs
      if separates base before cs.head? then r else { r with misplaced := pos :: r.misplaced }
    else if isDigitIn base c then
      let r := digitRun base (some c) (pos + 1) cs
      { r with digits := digitValue c :: r.digits }
    else { stop := pos, rest := c :: cs }

/-- Errors of a run that starts at byte `lo`. -/
def DigitRun.faults (lo : Nat) (r : DigitRun) : List SyntaxError :=
  r.misplaced.map fun place => ⟨⟨lo, place⟩, .misplacedSeparator⟩

/-- A number that ends at byte `stop`; a name may not follow at once. -/
def numberEnd (value : Number.Magnitude) (stop : Nat) (rest : List Char)
    (faults : List SyntaxError) : Lexeme :=
  if rest.head?.any Text.isIdentStart then
    ⟨.invalid ⟨⟨stop, stop⟩, .nameAfterNumber⟩, stop, faults⟩
  else
    ⟨.number value, stop, faults⟩

/-- Digits after a base mark such as `0x`. -/
def basedNumber (base : Nat) (cs : List Char) : Lexeme :=
  let r := digitRun base none 2 cs
  let faults := r.faults 2
  if r.digits.isEmpty then ⟨.invalid ⟨⟨2, r.stop⟩, .digitExpected base⟩, r.stop, faults⟩
  else
    match r.rest with
    | 'n' :: _ => ⟨.bigint (digitsValue base r.digits), r.stop + 1, faults⟩
    | rest => numberEnd (Number.ofDigits base r.digits) r.stop rest faults

/-- Digits to base eight after a leading zero. -/
def octalNumber (r : DigitRun) : Lexeme :=
  let n := numberEnd (Number.ofDigits 8 r.digits) r.stop r.rest (r.faults 0)
  match n.form with
  | .number _ =>
    let span : Span := ⟨0, r.stop⟩
    { n with faults := n.faults ++ [⟨span, .octalNumber⟩, ⟨span, .legacyOctal⟩] }
  | _ => n

/-- The digits after a point at byte `pos`, if a point stands there. -/
def fractionPart (pos : Nat) : List Char → DigitRun
  | '.' :: cs => digitRun 10 none (pos + 1) cs
  | cs => { stop := pos, rest := cs }

/-- The exponent at byte `pos`, zero when there is none. -/
def exponentPart (pos : Nat) : List Char → Except SyntaxError (Int × Nat × DigitRun)
  | e :: rest =>
    if e = 'e' ∨ e = 'E' then
      match rest with
      | [] => .error ⟨⟨pos + 1, pos + 1⟩, .exponentExpected⟩
      | s :: tail =>
        let signed := s = '+' ∨ s = '-'
        let lo := if signed then pos + 2 else pos + 1
        let r := digitRun 10 none lo (if signed then tail else rest)
        if r.digits.isEmpty then .error ⟨⟨lo, r.stop⟩, .digitExpected 10⟩
        else
          let n : Int := digitsValue 10 r.digits
          .ok (if s = '-' then -n else n, lo, r)
    else .ok (0, pos, { stop := pos, rest := e :: rest })
  | [] => .ok (0, pos, { stop := pos, rest := [] })

/-- Fraction and exponent after the whole part of a decimal number. -/
def decimalRest (whole : DigitRun) (faults : List SyntaxError) : Lexeme :=
  let fraction := fractionPart whole.stop whole.rest
  let faults := faults ++ fraction.faults (whole.stop + 1)
  match exponentPart fraction.stop fraction.rest with
  | .error e => ⟨.invalid e, e.span.hi, faults⟩
  | .ok (exponent, lo, r) =>
    let value := Number.ofDecimal (digitsValue 10 (whole.digits ++ fraction.digits))
      (exponent - (fraction.digits.length : Int))
    numberEnd value r.stop r.rest (faults ++ r.faults lo)

def decimalNumber (cs : List Char) : Lexeme :=
  let whole := if cs.head? = some '.' then { stop := 0, rest := cs } else digitRun 10 none 0 cs
  let faults := whole.faults 0
  match whole.rest with
  | 'n' :: _ => ⟨.bigint (digitsValue 10 whole.digits), whole.stop + 1, faults⟩
  | _ =>
    if cs.head? = some '0' && whole.stop > 1 then
      if whole.digits.any (· ≥ 8) then
        decimalRest whole (faults ++ [⟨⟨0, whole.stop⟩, .legacyDecimal⟩])
      else
        octalNumber whole
    else decimalRest whole faults

/-- A number literal; `cs` starts with a digit, or with a point and a digit. -/
def numberLexeme (cs : List Char) : Lexeme :=
  match cs with
  | '0' :: m :: rest =>
    if m = 'x' ∨ m = 'X' then basedNumber 16 rest
    else if m = 'o' ∨ m = 'O' then basedNumber 8 rest
    else if m = 'b' ∨ m = 'B' then basedNumber 2 rest
    else decimalNumber cs
  | cs => decimalNumber cs

/-! ## Escapes -/

/-- What an escape stands for, the number of its characters after the backslash, and the text
after it; or what is wrong with it. -/
structure Escape where
  chars : List Char := []
  used : Nat
  size : Nat := used
  rest : List Char
  octal : Bool := false
  fault? : Option Fault := none

/-- Digits of a Unicode escape after its `u`: the code, the number of characters and the text
after them. -/
def unicodeEscape (cs : List Char) : Except (Fault × Nat × List Char) (Nat × Nat × List Char) :=
  match cs with
  | '{' :: tail =>
    let ds := tail.takeWhile (isDigitIn 16)
    let after := tail.drop ds.length
    let code := digitsValue 16 (ds.map digitValue)
    if ds.isEmpty || code > 0xFFFFFFFF then
      .error (.escapeDigits "1-6 hex characters", ds.length + 1, after)
    else if code > 0x10FFFF then
      .error (.escapeDigits "1-6 hex characters in the range 0 to 10FFFF.", ds.length + 1, after)
    else
      match after with
      | '}' :: rest => .ok (code, ds.length + 2, rest)
      | after => .error (.unicodeEscape, ds.length + 1, after)
  | cs =>
    let ds := (cs.take 4).takeWhile (isDigitIn 16)
    let after := cs.drop ds.length
    if ds.length = 4 then .ok (digitsValue 16 (ds.map digitValue), 4, after)
    else .error (.escapeDigits "4 hex characters", ds.length, after)

def isHighUnit (code : Nat) : Bool := 0xD800 ≤ code && code < 0xDC00

def isLowUnit (code : Nat) : Bool := 0xDC00 ≤ code && code < 0xE000

/-- The code point of two units of a pair. -/
def pairCode (high low : Nat) : Nat :=
  0x10000 + (high - 0xD800) * 0x400 + (low - 0xDC00)

/-- The low unit that a text starts with, with the number of its characters. -/
def lowUnit? (cs : List Char) : Option (Nat × Nat × List Char) :=
  match cs with
  | '\\' :: 'u' :: tail =>
    match unicodeEscape tail with
    | .ok (code, used, rest) => if isLowUnit code then some (code, used + 2, rest) else none
    | .error _ => none
  | _ => none

/-- A Unicode escape in a string after its `u`. Two units of a pair are one character, and a
unit without its partner stands for its own spelling. -/
def codeEscape (cs : List Char) : Escape :=
  match unicodeEscape cs with
  | .error (fault, used, rest) => { used := used + 1, rest, fault? := some fault }
  | .ok (code, used, rest) =>
    if isHighUnit code || isLowUnit code then
      match if isHighUnit code then lowUnit? rest else none with
      | some (low, more, rest) =>
        { chars := [Char.ofNat (pairCode code low)], used := used + more + 1, rest }
      | none => { chars := '\\' :: 'u' :: cs.take used, used := used + 1, rest }
    else { chars := [Char.ofNat code], used := used + 1, rest }

/-- An escape of up to three octal digits. -/
def octalEscape (cs : List Char) : Escape :=
  let most := if cs.head?.any (· ≤ '3') then 3 else 2
  let ds := (cs.take most).takeWhile (isDigitIn 8)
  { chars := [Char.ofNat (digitsValue 8 (ds.map digitValue))]
    used := ds.length
    rest := cs.drop ds.length
    octal := ds != ['0'] }

/-- The character that a letter after a backslash stands for. -/
def simpleEscape (c : Char) : Char :=
  match c with
  | 'n' => '\n'
  | 't' => '\t'
  | 'r' => '\r'
  | 'b' => Char.ofNat 8
  | 'f' => Char.ofNat 12
  | 'v' => Char.ofNat 11
  | c => c

/-- The escape whose text after the backslash is `cs`. -/
def escape (cs : List Char) : Escape :=
  match cs with
  | [] => { used := 0, rest := [], fault? := some .stringEscape }
  | '\r' :: '\n' :: rest => { used := 2, rest }
  | 'x' :: tail =>
    let ds := (tail.take 2).takeWhile (isDigitIn 16)
    let rest := tail.drop ds.length
    if ds.length = 2 then
      { chars := [Char.ofNat (digitsValue 16 (ds.map digitValue))], used := 3, rest }
    else { used := ds.length + 1, rest, fault? := some (.escapeDigits "2 hex characters") }
  | 'u' :: tail => codeEscape tail
  | c :: rest =>
    if isLineEnd c then { used := 1, size := c.utf8Size, rest }
    else if isDigitIn 8 c then octalEscape cs
    else { chars := [simpleEscape c], used := 1, size := c.utf8Size, rest }

/-! ## Words -/

/-- Decoded characters of a word, whether an escape occurs, and how many characters were
taken; or why it is no word. -/
structure WordRead where
  name : List Char := []
  escaped : Bool := false
  taken : Nat := 0
  faults : List SyntaxError := []
  error? : Option SyntaxError := none

def wordFrom : Nat → (first : Bool) → (pos : Nat) → List Char → WordRead
  | 0, _, _, _ => {}
  | fuel + 1, first, pos, cs =>
    match cs with
    | '\\' :: 'u' :: tail =>
      match unicodeEscape tail with
      | .error (fault, used, _) =>
        let stop := pos + used + 2
        { taken := used + 2, error? := some ⟨⟨stop, stop⟩, fault⟩ }
      | .ok (code, used, rest) =>
        let c := Char.ofNat code
        let r := wordFrom fuel false (pos + used + 2) rest
        let valid := if first then Text.isIdentStart c else Text.isIdentPart c
        let faults : List SyntaxError :=
          if valid then [] else [⟨⟨pos, pos + used + 2⟩, .nameCharacter⟩]
        { r with
          name := c :: r.name, escaped := true, taken := used + 2 + r.taken
          faults := faults ++ r.faults }
    | '\\' :: _ => { taken := 1, error? := some ⟨⟨pos, pos⟩, .unicodeEscapeExpected⟩ }
    | c :: rest =>
      if Text.isIdentPart c then
        let r := wordFrom fuel false (pos + c.utf8Size) rest
        { r with name := c :: r.name, taken := 1 + r.taken }
      else {}
    | [] => {}

/-- Characters that a word can be made of; the braces stand in escapes. -/
def isWordPart (c : Char) : Bool :=
  Text.isIdentPart c || c == '\\' || c == '{' || c == '}'

/-- A word; `cs` starts with a character that can start one, or with a backslash. -/
def wordLexeme (cs : List Char) : Lexeme :=
  let window := cs.takeWhile isWordPart
  let r := wordFrom window.length true 0 window
  let name := String.ofList r.name
  match r.error? with
  | some e => ⟨.invalid e, r.taken, r.faults⟩
  | none =>
    if r.escaped && isReserved name then
      let span : Span := ⟨0, Text.size (cs.take r.taken)⟩
      ⟨.invalid ⟨span, .escapedWord name⟩, r.taken, r.faults⟩
    else
      ⟨.word name r.escaped, r.taken, r.faults⟩

/-! ## Strings -/

/-- What has been read of a string: its value backwards, and how far it goes. -/
structure StringRead where
  value : List Char := []
  pos : Nat := 1
  taken : Nat := 1
  faults : List SyntaxError := []

namespace StringRead

def text (s : StringRead) : TokenForm :=
  .string (String.ofList s.value.reverse)

/-- The string without its closing quote. -/
def unterminated (s : StringRead) : Lexeme :=
  ⟨s.text, s.taken, s.faults ++ [⟨⟨0, s.pos⟩, .unterminatedString⟩]⟩

/-- The string with one more escape, or the error that ends it. -/
def append (s : StringRead) (e : Escape) : Except Lexeme StringRead :=
  let pos := s.pos + 1 + e.size
  let taken := s.taken + 1 + e.used
  match e.fault? with
  | some fault =>
    let stop := if e.used = 0 then s.pos else pos
    .error ⟨.invalid ⟨⟨s.pos, stop⟩, fault⟩, taken, s.faults⟩
  | none =>
    let faults : List SyntaxError :=
      if e.octal then [⟨⟨s.pos, s.pos + 2⟩, .legacyOctal⟩] else []
    .ok { value := e.chars.reverse ++ s.value, pos, taken, faults := s.faults ++ faults }

end StringRead

def stringFrom (quote : Char) : Nat → StringRead → List Char → Lexeme
  | 0, s, _ => s.unterminated
  | _, s, [] => s.unterminated
  | fuel + 1, s, c :: rest =>
    if c = quote then ⟨s.text, s.taken + 1, s.faults⟩
    else if c = '\n' ∨ c = '\r' then s.unterminated
    else if c = '\\' then
      let e := escape rest
      match s.append e with
      | .error x => x
      | .ok s => stringFrom quote fuel s e.rest
    else
      let s := { s with value := c :: s.value, pos := s.pos + c.utf8Size, taken := s.taken + 1 }
      stringFrom quote fuel s rest

/-- A string literal after its opening quote. -/
def stringLexeme (quote : Char) (cs : List Char) : Lexeme :=
  stringFrom quote (cs.length + 1) {} cs

/-! ## Regular expressions and templates -/

/-- The text after the closing slash of a regular expression. -/
def regexBody (inClass : Bool) : List Char → Option (List Char)
  | [] => none
  | '\\' :: c :: rest => if isLineEnd c then none else regexBody inClass rest
  | c :: rest =>
    if isLineEnd c then none
    else if c = '[' then regexBody true rest
    else if c = ']' then regexBody false rest
    else if c = '/' && !inClass then some rest
    else regexBody inClass rest

/-- The text after a stretch of a template, and whether the template ends there. -/
def templateChunk : List Char → Option (List Char × Bool)
  | [] => none
  | '\\' :: _ :: rest => templateChunk rest
  | '\x60' :: rest => some (rest, true)
  | '$' :: '{' :: rest => some (rest, false)
  | _ :: rest => templateChunk rest

/-- The first escape of a stretch of a template that stands for nothing; the stretch starts at
byte `pos`. -/
def templateFaultFrom : Nat → (pos : Nat) → List Char → Option SyntaxError
  | 0, _, _ => none
  | fuel + 1, pos, cs =>
    match cs with
    | [] => none
    | '\\' :: rest =>
      let e := escape rest
      match e.fault? with
      | some fault => some ⟨⟨pos, pos + 1 + e.size⟩, fault⟩
      | none =>
        if e.octal then some ⟨⟨pos, pos + 2⟩, .legacyOctal⟩
        else templateFaultFrom fuel (pos + 1 + e.size) e.rest
    | '\x60' :: _ => none
    | '$' :: '{' :: _ => none
    | c :: rest => templateFaultFrom fuel (pos + c.utf8Size) rest

def templateFault? (cs : List Char) : Option SyntaxError :=
  templateFaultFrom cs.length 0 cs

end OptionalChain.Token
