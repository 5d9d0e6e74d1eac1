import OptionalChain.Number.Binary64

/-!
# Shortest decimal text

A double is written with the fewest digits that read back as the same double, of these the
nearest, and always in positional notation.
-/

namespace OptionalChain.Number

/-- The least `j` from `start` with `den ≤ num * 10 ^ j`, searched for `fuel` steps. -/
def leadingZeros (num den : Nat) : Nat → Nat → Nat
  | 0, j => j
  | fuel + 1, j => if den ≤ num * Nat.pow 10 j then j else leadingZeros num den fuel (j + 1)

/-- Decimal exponent of the first digit of `num / den`. -/
def decimalExponent (num den : Nat) : Int :=
  if den ≤ num then (digitCount (num / den) : Int) - 1
  else -(leadingZeros num den 400 0 : Int)

/-- Of the two neighbours of a value on the grid of the given unit the one that reads back as `x`,
the nearer if both do. -/
def gridPoint? (x : Magnitude) (num den : Nat) (unit : Int) : Option Nat :=
  let (n, d) :=
    if 0 ≤ unit then (num, den * Nat.pow 10 unit.toNat)
    else (num * Nat.pow 10 (-unit).toNat, den)
  let c := n / d
  let low := ofDecimal c unit = x
  let high := ofDecimal (c + 1) unit = x
  if low ∧ high then some (if 2 * (n % d) ≤ d then c else c + 1)
  else if low then some c
  else if high then some (c + 1)
  else none

/-- Digits and unit of the shortest decimal, trying `used`, `used + 1`, … digits. -/
def shortestFrom (x : Magnitude) (num den : Nat) (top : Int) : Nat → Nat → Nat × Int
  | 0, used => (num / den, used)
  | fuel + 1, used =>
    let unit := top - used + 1
    match gridPoint? x num den unit with
    | some c => if c = Nat.pow 10 used then (1, unit + used) else (c, unit)
    | none => shortestFrom x num den top fuel (used + 1)

/-- The number `digits * 10 ^ unit` without an exponent. -/
def positional (digits : Nat) (unit : Int) : List Char :=
  let ds := Nat.toDigits 10 digits
  if 0 ≤ unit then ds ++ List.replicate unit.toNat '0'
  else
    let places := (-unit).toNat
    if places < ds.length then
      ds.take (ds.length - places) ++ '.' :: ds.drop (ds.length - places)
    else '0' :: '.' :: (List.replicate (places - ds.length) '0' ++ ds)

def Magnitude.toText (x : Magnitude) : List Char :=
  match x.ratio? with
  | none => ['i', 'n', 'f']
  | some (0, _) => ['0']
  | some (num, den) =>
    let (digits, unit) := shortestFrom x num den (decimalExponent num den) 17 1
    positional digits unit

end OptionalChain.Number
