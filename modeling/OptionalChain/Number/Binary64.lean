/-!
# Doubles without sign

A decimal literal denotes the double nearest to what is written, a tie going to the even
mantissa. A literal in another base is rounded after each of its digits. Rounding is exact
arithmetic on natural numbers.
-/

namespace OptionalChain.Number

/-- A double that is not negative: `mantissa * 2 ^ exponent`, or larger than all of these. -/
inductive Magnitude where
  | finite (mantissa : Nat) (exponent : Int)
  | infinite
deriving DecidableEq, Repr

/-- The ratio `num / den` to the nearest integer, a tie to the even neighbour. -/
def roundDiv (num den : Nat) : Nat :=
  let q := num / den
  let r := num % den
  if 2 * r < den then q else if 2 * r = den then q + q % 2 else q + 1

/-- Whether `num / den < 2 ^ e`. -/
def ratioBelow (num den : Nat) (e : Int) : Bool :=
  if 0 ≤ e then num < den * Nat.pow 2 e.toNat else num * Nat.pow 2 (-e).toNat < den

/-- The double nearest to `num / den`. -/
def ofRatio (num den : Nat) : Magnitude :=
  if num = 0 then .finite 0 0
  else
    let guess : Int := (num.log2 : Int) - den.log2
    let top := if ratioBelow num den guess then guess - 1 else guess
    let q := max (top - 52) (-1074)
    let m :=
      if 0 ≤ q then roundDiv num (den * Nat.pow 2 q.toNat)
      else roundDiv (num * Nat.pow 2 (-q).toNat) den
    let (m, q) := if m = Nat.pow 2 53 then (Nat.pow 2 52, q + 1) else (m, q)
    if m = 0 then .finite 0 0 else if q > 971 then .infinite else .finite m q

/-- Number of decimal digits. -/
def digitCount (n : Nat) : Nat :=
  (Nat.toDigits 10 n).length

/-- The double nearest to `digits * 10 ^ exponent`. -/
def ofDecimal (digits : Nat) (exponent : Int) : Magnitude :=
  let top := (digitCount digits : Int) + exponent
  if digits = 0 ∨ top < -330 then .finite 0 0
  else if top > 310 then .infinite
  else if 0 ≤ exponent then ofRatio (digits * Nat.pow 10 exponent.toNat) 1
  else ofRatio digits (Nat.pow 10 (-exponent).toNat)

namespace Magnitude

def isZero : Magnitude → Bool
  | finite 0 _ => true
  | _ => false

/-- Numerator and denominator; absent for the infinite value. -/
def ratio? : Magnitude → Option (Nat × Nat)
  | finite m e => some (if 0 ≤ e then (m * Nat.pow 2 e.toNat, 1) else (m, Nat.pow 2 (-e).toNat))
  | infinite => none

/-- The value as a natural number when it is one. -/
def toNat? (x : Magnitude) : Option Nat := do
  let (num, den) ← x.ratio?
  if num % den = 0 then some (num / den) else none

/-- The double nearest to the value with one more digit. -/
def appendDigit (base : Nat) (x : Magnitude) (digit : Nat) : Magnitude :=
  match x.ratio? with
  | some (num, den) => ofRatio (num * base + digit * den) den
  | none => infinite

end Magnitude

/-- The double that the digits of a literal in a base other than ten stand for. -/
def ofDigits (base : Nat) (digits : List Nat) : Magnitude :=
  digits.foldl (Magnitude.appendDigit base) (.finite 0 0)

end OptionalChain.Number
