import OptionalChain.Span

/-!
# Lines and locations

A row is the text between two line feeds, kept as a range of bytes. A line is what is left of
a piece that ends with a line feed when that line feed and a carriage return before it are
taken away. Locations count rows and characters from one.
-/

namespace OptionalChain.Text

/-! ## Rows -/

/-- Ranges of the rows when `cs` starts at byte `pos` and the current row at byte `start`. -/
def rowSpansFrom (start pos : Nat) : List Char → List Span
  | [] => if start < pos then [⟨start, pos⟩] else []
  | c :: cs =>
    if c = '\n' then ⟨start, pos⟩ :: rowSpansFrom (pos + 1) (pos + 1) cs
    else rowSpansFrom start (pos + c.utf8Size) cs

/-- Ranges of the rows; text after the last line feed counts only when there is some. -/
def rowSpans (cs : List Char) : List Span :=
  rowSpansFrom 0 0 cs

def rows (cs : List Char) : List (List Char) :=
  (rowSpans cs).map fun s => slice s.lo s.hi cs

/-- Row number `n`, counted from one. -/
def row? (n : Nat) (cs : List Char) : Option (List Char) :=
  match n with
  | 0 => none
  | k + 1 => (rows cs)[k]?

/-! ## Lines -/

/-- Pieces of `current.reverse ++ cs`, each up to its line feed and with it. -/
def piecesFrom (current : List Char) : List Char → List (List Char)
  | [] => if current.isEmpty then [] else [current.reverse]
  | c :: cs =>
    if c = '\n' then (c :: current).reverse :: piecesFrom [] cs
    else piecesFrom (c :: current) cs

def pieces (cs : List Char) : List (List Char) :=
  piecesFrom [] cs

/-- Removes one carriage return at the end. -/
def dropCarriageReturn (cs : List Char) : List Char :=
  if cs.getLast? = some '\r' then cs.dropLast else cs

/-- Removes a line feed at the end and then one carriage return. -/
def dropLineEnd (cs : List Char) : List Char :=
  if cs.getLast? = some '\n' then dropCarriageReturn cs.dropLast else cs

def lines (cs : List Char) : List (List Char) :=
  (pieces cs).map dropLineEnd

/-! ## Locations -/

/-- Line and column of a place in the text, both counted from one. -/
structure Location where
  line : Nat
  column : Nat
deriving DecidableEq, Repr

/-- The location just after `before`, having started at `start`. -/
def Location.after (start : Location) : List Char → Location
  | [] => start
  | c :: cs =>
    if c = '\n' then Location.after ⟨start.line + 1, 1⟩ cs
    else Location.after ⟨start.line, start.column + 1⟩ cs

/-- Location of a byte offset, absent when the offset is inside a character or past the end. -/
def locate? (offset : Nat) (cs : List Char) : Option Location :=
  (slice? 0 offset cs).map (Location.after ⟨1, 1⟩)

end OptionalChain.Text
