import OptionalChain.Node.Kind
import OptionalChain.SyntaxError

/-!
# Tokens

Punctuators are enumerated, words keep their decoded name, and literals carry their value.
All compound assignment operators are one token, because nothing depends on which it is.
-/

namespace OptionalChain

inductive Punct where
  | lparen | rparen | lbrack | rbrack | lbrace | rbrace
  | semi | comma | colon | dot | ellipsis | question | questionDot | arrow
  | hash | sign | bang | tilde | backtick
  | assign | compound
  | plusPlus | minusMinus
  | op (op : BinaryOp)
deriving DecidableEq, Repr

/-- What a token is. A word spelled with an escape is never a keyword. Text that is no token at
all is known by what is wrong with it. -/
inductive TokenForm where
  | endOfText
  | word (name : String) (escaped : Bool)
  | punct (p : Punct)
  | number (value : Number.Magnitude)
  | bigint (value : Nat)
  | string (value : String)
  | invalid (error : SyntaxError)
deriving DecidableEq, Repr

/-- A token with its place; `newline` says that a line break stands before it. -/
structure Token where
  form : TokenForm
  span : Span
  newline : Bool
deriving Repr

namespace BinaryOp

/-- Binding strength; `??` shares the weakest level with `||`. -/
def precedence : BinaryOp → Nat
  | nullish | or => 1
  | and => 2
  | bitOr => 3
  | bitXor => 4
  | bitAnd => 5
  | eq | ne | strictEq | strictNe => 6
  | lt | le | gt | ge | isIn | instanceOf => 7
  | shl | shr | ushr => 8
  | add | sub => 9
  | mul | div | mod => 10
  | exp => 11

end BinaryOp

namespace Punct

def text : Punct → String
  | lparen => "(" | rparen => ")" | lbrack => "[" | rbrack => "]"
  | lbrace => "\x7b" | rbrace => "\x7d"
  | semi => ";" | comma => "," | colon => ":" | dot => "." | ellipsis => "..."
  | question => "?" | questionDot => "?." | arrow => "=>"
  | hash => "#" | sign => "@" | bang => "!" | tilde => "~" | backtick => "`"
  | assign => "=" | compound => "=" | plusPlus => "++" | minusMinus => "--"
  | op .and => "&&" | op .or => "||" | op .nullish => "??"
  | op .eq => "==" | op .ne => "!=" | op .strictEq => "===" | op .strictNe => "!=="
  | op .lt => "<" | op .le => "<=" | op .gt => ">" | op .ge => ">="
  | op .isIn => "in" | op .instanceOf => "instanceof"
  | op .shl => "<<" | op .shr => ">>" | op .ushr => ">>>"
  | op .add => "+" | op .sub => "-" | op .mul => "*" | op .div => "/" | op .mod => "%"
  | op .exp => "**" | op .bitOr => "|" | op .bitXor => "^" | op .bitAnd => "&"

end Punct

end OptionalChain
