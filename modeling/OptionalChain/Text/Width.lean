import OptionalChain.Text.Extend

/-!
# Display width

Columns that a character takes on a terminal: two for wide and full-width characters, none
for marks, format controls and the later parts of a Hangul syllable, four for a tab. A
character outside the basic plane is two code units, and the second unit takes one more
column.
-/

namespace OptionalChain.Text

set_option maxRecDepth 8000

/-- Runs of the wide and full-width characters. -/
def wideRuns : List Nat :=
  [4352, 96, 4538, 2, 13, 2, 190, 4, 3, 1, 2, 1, 521, 2, 21, 2, 26, 8, 16, 12, 43, 1, 10, 6, 3, 1,
   13, 1, 8, 2, 17, 2, 5, 2, 8, 1, 5, 1, 21, 1, 7, 2, 1, 1, 4, 1, 2, 1, 7, 1, 4, 2, 28, 1, 35, 1,
   1, 1, 4, 3, 1, 1, 61, 3, 24, 1, 14, 1, 859, 2, 51, 1, 4, 1, 810, 26, 1, 89, 12, 214, 26, 79, 2,
   86, 2, 103, 5, 43, 1, 94, 1, 86, 9, 48, 1, 40, 8, 29245, 3, 55, 1177, 29, 643, 11172, 8540,
   512, 784, 10, 22, 35, 1, 19, 1, 4, 149, 96, 127, 7, 28665, 5, 11, 2, 14, 6136, 8, 1238, 41, 10,
   8935, 4, 1, 7, 1, 2, 1, 291, 15, 1, 29, 3, 2, 1, 14, 4, 8, 396, 8196, 87, 9, 23, 7309, 1, 202,
   1, 190, 1, 2, 10, 101, 3, 13, 44, 4, 9, 7, 2, 14, 6, 154, 33, 12, 9, 1, 70, 1, 22, 12, 43, 4,
   5, 12, 17, 3, 1, 3, 71, 1, 1, 1, 187, 2, 63, 13, 4, 1, 24, 18, 1, 26, 2, 13, 1, 86, 85, 48, 70,
   6, 1, 3, 3, 2, 3, 4, 4, 11, 2, 7, 9, 227, 12, 4, 1, 283, 47, 1, 10, 1, 185, 112, 13, 3, 10, 5,
   56, 7, 15, 2, 11, 6, 9, 1287, 65534, 2, 65534]

/-- Runs of the characters that take no column although they extend none: ignorable ones,
vowels and finals of Hangul syllables, and a few marks before numbers. -/
def emptyRuns : List Nat :=
  [173, 1, 1367, 1, 22, 1, 242, 1, 384, 2, 80, 1, 2173, 160, 1550, 1, 2044, 1, 1, 3, 26, 5, 49,
   16, 4340, 1, 30613, 1, 11957, 23, 4, 49, 9987, 1, 160, 1, 79, 9, 48295, 4, 5327, 8, 798341, 32,
   96, 128, 240, 3600]

/-- Columns of a character. -/
def width (c : Char) : Nat :=
  let n := c.toNat
  if c = '\t' then 4
  else if n < 32 then 0
  else if n < 127 then 1
  else if n < 160 then 0
  else if isExtend c || isInside emptyRuns c then 0
  else if isInside wideRuns c then 2
  else 1

/-- Columns that a stretch of text takes. -/
def displayWidth : List Char → Nat
  | [] => 0
  | c :: cs => width c + (if c.toNat < 0x10000 then 0 else 1) + displayWidth cs

end OptionalChain.Text
