import OptionalChain.Span
import OptionalChain.Text.Quoted

/-!
# Syntax errors

Each cause has one wording. A recovered error leaves a program to analyze; a fatal one ends
the reading and is the last error of a file.
-/

namespace OptionalChain

inductive Fault where
  | endOfText
  | expressionExpected
  | nameExpected
  | statementEnd
  | semicolonExpected
  | unexpected (got wanted : String)
  | expected (wanted got : String)
  | strayCharacter (c : Char)
  | unterminatedTemplate
  | unterminatedString
  | unterminatedComment
  | legacyComment
  | unterminatedRegex
  | stringEscape
  | escapeDigits (wanted : String)
  | unicodeEscape
  | unicodeEscapeExpected
  | nameCharacter
  | escapedWord (word : String)
  | nameAfterNumber
  | digitExpected (base : Nat)
  | exponentExpected
  | misplacedSeparator
  | octalNumber
  | legacyOctal
  | legacyDecimal
  | regexFlags
  | repeatedFlag (flag : Char)
  | hashSpace
  | breakAfterThrow
  | breakBeforeArrow
  | emptyParens
  | spreadInParens
  | assignmentTarget
  | simpleTarget
  | invalidTarget
  | notPattern
  | constWithoutValue
  | patternWithoutValue
  | trailingComma
  | commaAfterRest
  | restNotLast
  | restNotFinal
  | returnOutside
  | breakOutside
  | continueOutside
  | breakLabel
  | continueLabel
  | repeatedLabel (name : String)
  | labelledFunction
  | labelledSpecial
  | declarationPlace
  | modulePlace
  | reservedImport
  | exportSource
  | severalDefaults
  | awaitLoop
  | loopBindings
  | loopInitializer
  | loopTypeMark
  | loopPattern
  | mixedNullish
  | newTargetOutside
  | superOutside
  | deleteName
  | deleteOperand
  | withStatement
  | reservedName (name : String)
  | reservedShorthand
  | shorthandValue
  | optionalProperty
  | boundName
  | argumentsUse
  | argumentsPlace
  | awaitName
  | awaitStar
  | secondConstructor
  | getterParameters
  | setterParameters
  | optionalConstructor
  | optionalTemplate
  | unaryPower
  | awaitOutside
  | ambientBody
  | requiredElement
  | emptyTypeArguments
  | markupMismatch (name : String)
  | markupText (c : Char)
  | emptyAttribute
deriving DecidableEq, Repr

/-- The kind of digits that a base has. -/
def digitKind (base : Nat) : String :=
  if base = 2 then "a binary" else if base = 8 then "an octal"
  else if base = 10 then "a decimal" else "a hexadecimal"

def Fault.message : Fault → String
  | endOfText => "Unexpected eof"
  | expressionExpected => "Expression expected"
  | nameExpected => "Expected ident"
  | statementEnd => "Expected ';', '\x7d' or <eof>"
  | semicolonExpected => "Expected a semicolon"
  | unexpected got wanted => "Unexpected token `" ++ got ++ "`. Expected " ++ wanted
  | expected wanted got => "Expected '" ++ wanted ++ "', got '" ++ got ++ "'"
  | strayCharacter c => "Unexpected character " ++ Text.quoted c
  | unterminatedTemplate => "Unterminated template"
  | unterminatedString => "Unterminated string constant"
  | unterminatedComment => "Unterminated block comment"
  | legacyComment => "Legacy comments cannot be used in module code"
  | unterminatedRegex => "Unterminated regexp literal"
  | stringEscape => "Invalid string escape"
  | escapeDigits wanted => "Bad character escape sequence, expected " ++ wanted
  | unicodeEscape => "Invalid unicode escape"
  | unicodeEscapeExpected => "Expected unicode escape"
  | nameCharacter => "Invalid character in identifier"
  | escapedWord word => "Unexpected escape sequence in reserved word: " ++ word
  | nameAfterNumber => "Identifier cannot follow number"
  | digitExpected base => "Expected " ++ digitKind base ++ " digit"
  | exponentExpected => "Expected +, - or decimal digit after e"
  | misplacedSeparator => "A numeric separator is only allowed between two digits"
  | octalNumber =>
    "Legacy octal literals are not available when targeting ECMAScript 5 and higher"
  | legacyOctal => "Legacy octal escape is not permitted in strict mode"
  | legacyDecimal => "Legacy decimal escape is not permitted in strict mode"
  | regexFlags => "Unknown regular expression flags."
  | repeatedFlag flag => "Duplicated regular expression flag '" ++ flag.toString ++ "'."
  | hashSpace => "Unexpected space between # and identifier"
  | breakAfterThrow => "LineBreak cannot follow 'throw'"
  | breakBeforeArrow => "Unexpected line break between arrow head and arrow"
  | emptyParens => "Parenthesized expression cannot be empty"
  | spreadInParens => "Parenthesized expression cannot contain spread operator"
  | assignmentTarget =>
    "The left-hand side of an assignment expression must be a variable or a property access."
  | simpleTarget => "Cannot assign to this"
  | invalidTarget => "Invalid assignment target"
  | notPattern => "Not a pattern"
  | constWithoutValue => "'const' declarations must be initialized"
  | patternWithoutValue => "Destructuring bindings require initializers"
  | trailingComma => "Trailing comma is not allowed"
  | commaAfterRest => "Trailing comma isn't permitted after a rest element"
  | restNotLast => "A rest parameter must be last in a parameter list"
  | restNotFinal => "Rest element must be final element"
  | returnOutside => "Return statement is not allowed here"
  | breakOutside =>
    "A 'break' statement can only be used within an enclosing iteration or switch statement"
  | continueOutside =>
    "A 'continue' statement can only jump to a label of an enclosing iteration statement"
  | breakLabel => "A 'break' statement can only jump to a label of an enclosing statement"
  | continueLabel => "Jump target cannot cross function boundary"
  | repeatedLabel name => "Label " ++ name ++ " is already declared"
  | labelledFunction => "Function cannot be labelled in strict mode"
  | labelledSpecial => "Generator or async function cannot be labelled"
  | declarationPlace => "Declaration is not allowed"
  | modulePlace => "'import', and 'export' cannot be used outside of module code"
  | reservedImport => "cannot import as reserved word"
  | exportSource => "export default statements required from '...';"
  | severalDefaults => "A switch block cannot have multiple defaults"
  | awaitLoop => "for await syntax is valid only for for-of statement"
  | loopBindings => "Expected one variable binding"
  | loopInitializer => "Unexpected initializer in for in/of loop"
  | loopTypeMark =>
    "The left-hand side of a 'for...of' statement cannot use a type annotation"
  | loopPattern =>
    "The left-hand side of a 'for...in' statement cannot be a destructuring pattern"
  | mixedNullish =>
    "Nullish coalescing operator(??) requires parens when mixing with logical operators"
  | newTargetOutside =>
    "'new.target' is only allowed in the body of a function declaration, " ++
      "function expression, or class."
  | superOutside => "Invalid access to super"
  | deleteName => "'delete' cannot be called on an identifier in strict mode"
  | deleteOperand => "The operand of a 'delete' operator must be a property reference."
  | withStatement => "With statement are not allowed in strict mode"
  | reservedName name => "`" ++ name ++ "` cannot be used as an identifier in strict mode"
  | reservedShorthand => "Cannot use a reserved word as a shorthand property"
  | shorthandValue => "assignment property is invalid syntax"
  | optionalProperty => "An object member cannot be declared optional."
  | boundName =>
    "'eval' and 'arguments' cannot be used as a binding identifier in strict mode"
  | argumentsUse => "Invalid use of 'arguments' in strict mode"
  | argumentsPlace => "'arguments' is only allowed in functions and class methods"
  | awaitName => "`await` cannot be used as an identifier in async context"
  | awaitStar =>
    "await* has been removed from the async functions proposal. Use Promise.all() instead."
  | secondConstructor => "A class can only have one constructor"
  | getterParameters => "A `get` accessor cannot have parameters"
  | setterParameters => "A `set` accessor must have exactly one parameter"
  | optionalConstructor => "Constructor in/after an optional chaining is not allowed."
  | optionalTemplate => "Tagged template literal is not allowed in optional chain."
  | unaryPower => "** cannot be applied to unary expression"
  | awaitOutside => "await isn't allowed in non-async function"
  | ambientBody => "An implementation cannot be declared in ambient contexts"
  | requiredElement => "A required element cannot follow an optional element."
  | emptyTypeArguments => "Type argument list cannot be empty."
  | markupMismatch name => "Expected corresponding JSX closing tag for <" ++ name ++ ">"
  | markupText c =>
    "Unexpected token. Did you mean `\x7b'" ++ c.toString ++ "'\x7d` or `" ++
      (if c = '>' then "&gt;" else "&rbrace;") ++ "`?"
  | emptyAttribute => "JSX attributes must only be assigned a non-empty expression"

structure SyntaxError where
  span : Span
  fault : Fault
deriving DecidableEq, Repr

/-- The error in a text that starts `offset` bytes further on. -/
def SyntaxError.shift (offset : Nat) (e : SyntaxError) : SyntaxError :=
  { e with span := ⟨offset + e.span.lo, offset + e.span.hi⟩ }

end OptionalChain
