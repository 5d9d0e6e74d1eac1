import OptionalChain.Guard.Chain

/-!
# Replacements

A chain is replaced by its last operand with a marker at the step where each guard ends.
Comments of the operands that go away move to the front. There is no replacement if one of the
cuts that it takes falls inside a character.
-/

namespace OptionalChain

/-- What keeps a comment apart from the code after it. -/
def Comment.separator (c : Comment) : Char :=
  match c.style with
  | .line => '\n'
  | .block => ' '

/-- A comment with what keeps it apart from the code after it. -/
def Comment.relocated? (f : SourceFile) (c : Comment) : Option (List Char) :=
  (Text.slice? c.span.lo c.span.hi f.text).map (· ++ [c.separator])

/-- Text to put in at an offset. -/
structure Insertion where
  offset : Nat
  text : List Char
deriving DecidableEq, Repr

/-- The text from `cursor` to `stop` with insertions in order; one that lies outside is left
out. -/
def spliceFrom? (text : List Char) (stop : Nat) (cursor : Nat) :
    List Insertion → Option (List Char)
  | [] => Text.slice? cursor stop text
  | i :: rest =>
    if i.offset < cursor ∨ stop < i.offset then spliceFrom? text stop cursor rest
    else do
      let kept ← Text.slice? cursor i.offset text
      let after ← spliceFrom? text stop i.offset rest
      return kept ++ i.text ++ after

namespace Chain

variable (f : SourceFile) (c : Chain)

/-- Comments between the start of the chain and its last operand. -/
def removedComments : List Comment :=
  f.comments.filter fun m =>
    f.clamp c.span.lo ≤ m.span.lo && m.span.hi ≤ f.clamp c.terminal.span.lo

/-- The steps where the guards end. -/
def boundaries : List Step :=
  c.guards.filterMap fun g => c.terminalPath.steps[g.length]?

def insertions : List Insertion :=
  ((c.boundaries.filter (!·.optional)).map fun s => ⟨s.insertAt, s.marker⟩).mergeSort
    (·.offset ≤ ·.offset)

def replacement? : Option (List Char) := do
  let moved ← (c.removedComments f).mapM (·.relocated? f)
  let kept ← spliceFrom? f.text (f.clamp c.terminal.span.hi) (f.clamp c.terminal.span.lo)
    c.insertions
  return moved.flatten ++ kept

end Chain

end OptionalChain
