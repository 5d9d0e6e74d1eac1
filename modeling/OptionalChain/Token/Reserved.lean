/-!
# Reserved words

Words that are never names, words that cannot start an operand, and words that strict code does
not take for names. All code is strict.
-/

namespace OptionalChain.Token

/-- Words that are never names. -/
def keywords : List String :=
  ["break", "case", "catch", "class", "const", "continue", "debugger", "default", "delete", "do",
    "else", "export", "extends", "finally", "for", "function", "if", "import", "in",
    "instanceof", "new", "return", "super", "switch", "this", "throw", "try", "typeof", "var",
    "void", "while", "with", "null", "true", "false"]

/-- Words that cannot start an operand, although some of them may be bound with an error. -/
def reservedWords : List String :=
  keywords ++ ["enum", "await", "yield", "implements", "interface", "package", "private",
    "protected", "public"]

/-- Words that are no names in strict code; using one is an error to recover from. -/
def strictWords : List String :=
  ["enum", "implements", "interface", "let", "package", "private", "protected", "public",
    "static", "yield"]

/-- Whether a word has a meaning of its own, so that it cannot be spelled with escapes. -/
def isReserved (word : String) : Bool :=
  reservedWords.contains word || strictWords.contains word

end OptionalChain.Token
