/-!
# Patterns

A pattern is matched from a place of a text onwards. Where it can go on in more than one way,
the ways are tried in order of preference, and the first with which all the rest matches
counts. Groups note the text that their part has taken.
-/

namespace OptionalChain.Text

/-- The text after `word`, if it starts with it. -/
def after? : List Char → List Char → Option (List Char)
  | [], cs => some cs
  | _ :: _, [] => none
  | w :: word, c :: cs => if w = c then after? word cs else none

/-- Texts taken by groups, by their numbers; the latest stands first. -/
abbrev Captures := List (Nat × List Char)

inductive Pattern where
  | word (cs : List Char)
  /-- One character of a class. -/
  | one (p : Char → Bool)
  /-- Any number of characters of a class, by preference many or few. -/
  | many (p : Char → Bool) (greedy : Bool)
  /-- The end of the text. -/
  | finish
  | group (index : Nat) (part : Pattern)
  | seq (first second : Pattern)
  /-- Either of two, by preference the first. -/
  | alt (first second : Pattern)

namespace Pattern

def optional (part : Pattern) : Pattern := .alt part (.word [])

def many1 (p : Char → Bool) (greedy : Bool) : Pattern := .seq (.one p) (.many p greedy)

variable {α : Type}

/-- Takes characters of a class and then continues with `next`. -/
def runMany (p : Char → Bool) (greedy : Bool) (next : List Char → Option α) :
    List Char → Option α
  | [] => next []
  | c :: cs =>
    if p c then
      if greedy then runMany p greedy next cs <|> next (c :: cs)
      else next (c :: cs) <|> runMany p greedy next cs
    else next (c :: cs)

/-- Matches the pattern at the start of a text and continues with `next` on what is left. -/
def run (next : List Char → Captures → Option α) :
    Pattern → List Char → Captures → Option α
  | word w, cs, caps => (after? w cs).bind (next · caps)
  | one p, cs, caps =>
    match cs with
    | c :: cs => if p c then next cs caps else none
    | [] => none
  | many p greedy, cs, caps => runMany p greedy (next · caps) cs
  | finish, cs, caps => if cs.isEmpty then next cs caps else none
  | group index part, cs, caps =>
    part.run
      (fun rest caps => next rest ((index, cs.take (cs.length - rest.length)) :: caps)) cs caps
  | seq first second, cs, caps => first.run (second.run next) cs caps
  | alt first second, cs, caps => first.run next cs caps <|> second.run next cs caps

/-- What the groups took in the preferred match at the start of the text, and the text after. -/
def match? (p : Pattern) (cs : List Char) : Option (Captures × List Char) :=
  p.run (fun rest caps => some (caps, rest)) cs []

end Pattern

end OptionalChain.Text
