/-!
# Classes of code points given by their runs

A class is a list of run lengths: the code points of the first run lie outside it, those of
the second inside, and so on.
-/

namespace OptionalChain.Text

/-- Whether `n` lies in a run that is inside, where the first of the `runs` starts at `lo`. -/
def insideFrom (inside : Bool) (lo n : Nat) : List Nat → Bool
  | [] => inside
  | run :: runs => if n < lo + run then inside else insideFrom (!inside) (lo + run) n runs

def isInside (runs : List Nat) (c : Char) : Bool :=
  insideFrom false 0 c.toNat runs

end OptionalChain.Text
