import OptionalChain.Grammar.Declaration

/-!
# Programs

The nonterminals of the grammar refer to each other through their goals. `run` ties them
together: it is the grammar to a given depth of nesting, and `parse` reads a text to a depth
that no program of its length can exceed.
-/

namespace OptionalChain.Grammar

/-- The parser for a goal, given parsers for the goals inside it. -/
def step (p : Parts) : Parts
  | .expression => expression p
  | .assignment => assignment p
  | .unary => unary p
  | .climb left floor => climb p left floor
  | .access => access p
  | .callee => callee p
  | .markup => markup p
  | .binding => binding p
  | .type => type p
  | .statement => statement p
  | .body => bodyStatement p
  | .item => item p
  | .block => block p

def run : Nat → Parts
  | 0, _ => failAtEnd
  | depth + 1, goal => step (run depth) goal

/-- Goals that can nest without taking a character in between are fewer than this. -/
def depthPerChar : Nat := 12

def program (p : Parts) : Parser Node := do
  let lo ← here
  let items ← iterate (fun items => do
    if ← isEnd then
      return .inr items
    else
      let n ← p .item
      return .inl (items ++ [n])) []
  nodeFrom lo (.statement .program) items

/-- What is known of a text after reading it. A program is missing when the last error is
fatal; comments are missing when the end of the text was never met. -/
structure Reading where
  program? : Option Node
  errors : List SyntaxError
  comments : List Comment

def parse (dialect : Dialect) (text : List Char) : Reading :=
  let budget := text.length + 2
  let setting : Setting := { dialect, budget, size := Text.size text }
  match (program (run (depthPerChar * budget))).run setting
      (Cursor.start dialect.typescript text) with
  | .ok n c => ⟨some n, c.errors, c.listed⟩
  | .error e c => ⟨none, c.errors ++ [e], c.listed⟩

end OptionalChain.Grammar
