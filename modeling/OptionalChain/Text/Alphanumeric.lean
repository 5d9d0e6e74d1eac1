import OptionalChain.Text.Identifier

/-!
# Letters and numbers

The characters that are alphabetic or numeric. Most of the alphabetic ones can start an
identifier; the table adds marks, circled letters, digits and other numbers.
-/

namespace OptionalChain.Text

set_option maxRecDepth 8000

/-- Runs of the alphabetic and numeric characters above the ASCII range that start no
identifier. -/
def letterlikeRuns : List Nat :=
  [178, 2, 5, 1, 2, 3, 646, 1, 29, 13, 576, 14, 1, 1, 1, 2, 1, 2, 1, 1, 72, 11, 48, 13, 1, 17, 6,
   1, 101, 7, 4, 4, 2, 2, 4, 1, 2, 10, 23, 1, 30, 16, 102, 11, 15, 10, 76, 2, 3, 9, 1, 3, 1, 4,
   106, 1, 60, 12, 3, 7, 6, 20, 54, 2, 2, 15, 1, 2, 5, 3, 10, 2, 2, 10, 17, 3, 58, 7, 2, 2, 2, 2,
   10, 1, 10, 2, 2, 10, 4, 6, 7, 3, 58, 5, 4, 2, 2, 2, 4, 1, 20, 12, 3, 1, 11, 3, 58, 8, 1, 3, 1,
   2, 21, 2, 2, 10, 10, 3, 4, 3, 58, 7, 2, 2, 2, 2, 9, 2, 10, 2, 2, 10, 2, 6, 10, 1, 59, 5, 3, 3,
   1, 3, 10, 1, 14, 13, 13, 5, 57, 7, 1, 3, 1, 3, 8, 2, 11, 2, 2, 10, 8, 7, 2, 3, 58, 7, 1, 3, 1,
   3, 8, 2, 11, 2, 2, 10, 3, 1, 12, 4, 58, 7, 1, 3, 1, 3, 10, 8, 3, 2, 2, 19, 8, 3, 75, 6, 1, 1,
   1, 8, 6, 10, 2, 2, 61, 1, 2, 7, 18, 1, 2, 10, 87, 1, 2, 6, 1, 2, 16, 1, 2, 10, 70, 20, 61, 19,
   9, 11, 1, 36, 110, 12, 1, 1, 2, 4, 1, 10, 12, 4, 4, 3, 1, 3, 2, 7, 3, 4, 13, 12, 1, 15, 715,
   20, 917, 2, 30, 2, 30, 2, 30, 2, 66, 19, 23, 10, 6, 10, 22, 10, 143, 1, 118, 12, 4, 9, 13, 10,
   128, 11, 60, 5, 57, 10, 2, 20, 11, 10, 6, 10, 37, 2, 11, 3, 49, 5, 48, 15, 12, 10, 38, 3, 30,
   9, 2, 2, 2, 10, 45, 11, 50, 19, 9, 10, 6, 10, 377, 34, 635, 1, 3, 6, 6, 10, 198, 16, 41, 1,
   726, 60, 26, 74, 630, 30, 1385, 1, 226, 32, 47, 1, 866, 4, 138, 10, 30, 8, 1, 15, 32, 10, 39,
   15, 29536, 10, 74, 8, 34, 2, 354, 1, 8, 1, 23, 5, 8, 6, 74, 2, 50, 16, 1, 1, 10, 10, 37, 11,
   28, 5, 28, 12, 45, 4, 48, 12, 16, 10, 11, 1, 10, 10, 47, 14, 12, 1, 8, 2, 2, 10, 33, 3, 50, 1,
   1, 3, 2, 2, 5, 1, 44, 5, 5, 1, 237, 8, 5, 10, 20260, 1, 1009, 10, 493, 45, 65, 4, 17, 2, 341,
   27, 36, 4, 82, 5, 293, 10, 942, 8, 25, 7, 39, 9, 75, 5, 22, 6, 160, 2, 2, 16, 2, 46, 1, 3, 1,
   2, 5, 4, 48, 9, 52, 2, 30, 3, 75, 5, 104, 8, 24, 8, 41, 7, 330, 6, 36, 4, 8, 10, 6, 10, 31, 1,
   246, 31, 44, 2, 77, 3, 32, 10, 42, 4, 112, 7, 52, 3, 53, 14, 12, 30, 3, 2, 11, 3, 45, 9, 9, 1,
   45, 10, 6, 3, 36, 12, 3, 10, 5, 2, 57, 3, 48, 13, 14, 12, 7, 20, 55, 9, 2, 1, 6, 1, 2, 1, 157,
   10, 7, 10, 6, 4, 58, 7, 2, 2, 2, 2, 10, 1, 10, 2, 84, 9, 1, 1, 2, 1, 1, 4, 1, 2, 103, 13, 1, 3,
   10, 10, 86, 18, 14, 10, 213, 7, 2, 7, 29, 2, 82, 15, 1, 1, 15, 10, 81, 11, 10, 10, 6, 20, 57,
   14, 5, 12, 240, 13, 167, 19, 61, 6, 1, 2, 2, 2, 3, 1, 1, 1, 13, 10, 119, 7, 2, 6, 4, 1, 28, 10,
   42, 5, 1, 4, 18, 11, 46, 14, 200, 8, 136, 10, 53, 8, 1, 7, 17, 29, 37, 22, 1, 14, 122, 6, 3, 1,
   1, 2, 1, 3, 1, 1, 3, 1, 8, 10, 48, 5, 1, 2, 1, 4, 9, 10, 54, 10, 265, 4, 9, 2, 1, 1, 48, 7, 3,
   3, 15, 10, 102, 21, 16713, 17, 1, 10, 2342, 10, 86, 10, 134, 10, 1, 7, 526, 10, 262, 23, 184,
   1, 1, 55, 7, 4, 93, 2, 19628, 1, 4177, 10, 1478, 20, 12, 20, 108, 25, 1109, 50, 2048, 7, 1, 17,
   2, 7, 1, 2, 1, 5, 100, 1, 176, 10, 422, 10, 502, 10, 247, 10, 232, 1, 2, 1, 7, 2, 5, 1, 465, 9,
   119, 1, 8, 10, 791, 59, 1, 3, 1, 4, 76, 45, 1, 15, 962, 13, 35, 26, 6, 26, 6, 26, 2662, 10]

/-- The symbols U+2118, U+212E, U+309B and U+309C start identifiers but are not alphabetic. -/
def isStartingSymbol (c : Char) : Bool :=
  [0x2118, 0x212E, 0x309B, 0x309C].contains c.toNat

/-- Whether `c` is alphabetic or numeric. -/
def isAlphanumeric (c : Char) : Bool :=
  if c.toNat < 128 then c.isAlphanum
  else (isInside startRuns c && !isStartingSymbol c) || isInside letterlikeRuns c

end OptionalChain.Text
