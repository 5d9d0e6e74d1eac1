import Mathlib.Data.List.Basic
import OptionalChain.Proofs.Placement.Scan

/-!
# Two views of the lines of a text

Rows are cut out of a text by byte ranges, lines are made of the pieces that end with a line feed.
Both take a text apart at the same places: row by row they differ only in the carriage return that
stands before a line feed, and the rows together give the text back.
-/

namespace OptionalChain.Text

variable {text row rest cs : List Char} {start pos : Nat}

/-! ## Texts part by part -/

/-- A text is empty, or a part without a separator, or such a part with a separator after it and one
more text. -/
@[elab_as_elim]
theorem partInduction (sep : Char) {P : List Char → Prop} (cs : List Char) (nil : P [])
    (last : ∀ part, part ≠ [] → sep ∉ part → P part)
    (ended : ∀ part rest, sep ∉ part → P rest → P (part ++ sep :: rest)) : P cs := by
  by_cases hsep : sep ∈ cs
  · obtain ⟨part, rest, heq, hpart⟩ := List.eq_append_cons_of_mem hsep
    rw [heq]
    exact ended part rest hpart (partInduction sep rest nil last ended)
  · by_cases hne : cs = []
    · exact hne ▸ nil
    · exact last cs hne hsep
termination_by cs.length
decreasing_by
  rw [heq, List.length_append, List.length_cons]
  omega

/-! ## Rows -/

theorem rowSpansFrom_of_notMem (start pos : Nat) (h : '\n' ∉ row) :
    rowSpansFrom start pos row =
      if start < pos + size row then [⟨start, pos + size row⟩] else [] := by
  induction row generalizing pos with
  | nil => rfl
  | cons c row ih =>
    rw [List.mem_cons, not_or] at h
    rw [rowSpansFrom, if_neg (Ne.symm h.1), ih _ h.2, size_cons, Nat.add_assoc]

theorem rowSpansFrom_append (start pos : Nat) (h : '\n' ∉ row) (rest : List Char) :
    rowSpansFrom start pos (row ++ '\n' :: rest) =
      ⟨start, pos + size row⟩ ::
        rowSpansFrom (pos + size row + 1) (pos + size row + 1) rest := by
  induction row generalizing pos with
  | nil => rfl
  | cons c row ih =>
    rw [List.mem_cons, not_or] at h
    rw [List.cons_append, rowSpansFrom, if_neg (Ne.symm h.1), ih _ h.2, size_cons, Nat.add_assoc]

/-- What stands before a line feed, or all of a piece without one. -/
def dropLineFeed (cs : List Char) : List Char :=
  if cs.getLast? = some '\n' then cs.dropLast else cs

theorem getLast?_ne_of_notMem (h : '\n' ∉ row) : row.getLast? ≠ some '\n' :=
  fun hlast ↦ h (List.mem_of_getLast? hlast)

/-! ## Pieces -/

theorem piecesFrom_of_notMem (current : List Char) (h : '\n' ∉ row) :
    piecesFrom current row =
      if (current.reverse ++ row).isEmpty then [] else [current.reverse ++ row] := by
  induction row generalizing current with
  | nil => simp [piecesFrom]
  | cons c row ih =>
    rw [List.mem_cons, not_or] at h
    rw [piecesFrom, if_neg (Ne.symm h.1), ih _ h.2, List.reverse_cons, List.append_assoc,
      List.singleton_append]

theorem piecesFrom_append (current : List Char) (h : '\n' ∉ row) (rest : List Char) :
    piecesFrom current (row ++ '\n' :: rest) =
      (current.reverse ++ row ++ ['\n']) :: pieces rest := by
  induction row generalizing current with
  | nil => simp [piecesFrom, pieces]
  | cons c row ih =>
    rw [List.mem_cons, not_or] at h
    rw [List.cons_append, piecesFrom, if_neg (Ne.symm h.1), ih _ h.2]
    simp

theorem pieces_of_notMem (hne : row ≠ []) (h : '\n' ∉ row) : pieces row = [row] := by
  rw [pieces, piecesFrom_of_notMem [] h]
  simp [hne]

theorem pieces_append (h : '\n' ∉ row) (rest : List Char) :
    pieces (row ++ '\n' :: rest) = (row ++ ['\n']) :: pieces rest :=
  piecesFrom_append [] h rest

/-- The ranges of the rows cut out the pieces without their line feeds, wherever in a longer text
they are counted. -/
theorem map_slice_rowSpansFrom (h : At text pos cs) :
    (rowSpansFrom pos pos cs).map (fun s ↦ slice s.lo s.hi text) =
      (pieces cs).map dropLineFeed := by
  induction cs using partInduction '\n' generalizing pos with
  | nil => simp [rowSpansFrom, pieces, piecesFrom]
  | last row hne hrow =>
    -- A row at the end of the text is listed only when it has at least one byte.
    have hsize : 0 < size row := by
      rw [Nat.pos_iff_ne_zero]
      exact fun hzero ↦ hne (eq_nil_of_size_eq_zero hzero)
    have hat : At text pos (row ++ []) := by rwa [List.append_nil]
    rw [rowSpansFrom_of_notMem pos pos hrow, if_pos (by omega), pieces_of_notMem hne hrow]
    simp [slice, hat.slice?, dropLineFeed, getLast?_ne_of_notMem hrow]
  | ended row rest hrow ih =>
    have hrest : At text (pos + size row + 1) rest := h.append.tail
    rw [rowSpansFrom_append pos pos hrow, pieces_append hrow, List.map_cons, List.map_cons,
      ih hrest]
    simp [slice, h.slice?, dropLineFeed]

theorem rows_eq_map_pieces (cs : List Char) : rows cs = (pieces cs).map dropLineFeed :=
  map_slice_rowSpansFrom (At.start cs)

@[simp]
theorem rows_nil : rows [] = [] := rfl

theorem rows_of_notMem (hne : row ≠ []) (h : '\n' ∉ row) : rows row = [row] := by
  simp [rows_eq_map_pieces, pieces_of_notMem hne h, dropLineFeed, getLast?_ne_of_notMem h]

theorem rows_append (h : '\n' ∉ row) (rest : List Char) :
    rows (row ++ '\n' :: rest) = row :: rows rest := by
  simp [rows_eq_map_pieces, pieces_append h, dropLineFeed]

theorem rows_eq_nil_iff : rows cs = [] ↔ cs = [] := by
  induction cs using partInduction '\n' with
  | nil => simp
  | last row hne hrow => simp [rows_of_notMem hne hrow, hne]
  | ended row rest hrow ih => simp [rows_append hrow]

/-! ## Lines -/

theorem lines_of_notMem (hne : row ≠ []) (h : '\n' ∉ row) : lines row = [row] := by
  simp [lines, pieces_of_notMem hne h, dropLineEnd, getLast?_ne_of_notMem h]

theorem lines_append (h : '\n' ∉ row) (rest : List Char) :
    lines (row ++ '\n' :: rest) = dropCarriageReturn row :: lines rest := by
  simp [lines, pieces_append h, dropLineEnd]

theorem length_rows (cs : List Char) : (rows cs).length = (lines cs).length := by
  rw [rows_eq_map_pieces, lines, List.length_map, List.length_map]

/-- The line feeds end the rows one after the other, so a row has one if there are as many line
feeds as its number says. -/
theorem getElem?_lines (cs : List Char) (k : Nat) :
    (lines cs)[k]? = (rows cs)[k]?.map fun row ↦
      if k + 1 ≤ cs.count '\n' then dropCarriageReturn row else row := by
  induction cs using partInduction '\n' generalizing k with
  | nil => rfl
  | last row hne hrow =>
    rw [lines_of_notMem hne hrow, rows_of_notMem hne hrow, List.count_eq_zero_of_not_mem hrow]
    cases k <;> rfl
  | ended row rest hrow ih =>
    rw [lines_append hrow, rows_append hrow, List.count_append, List.count_eq_zero_of_not_mem hrow,
      List.count_cons_self]
    cases k with
    | zero => simp
    | succ k => simp [ih]

/-! ## Rows by number -/

theorem row?_succ (k : Nat) (cs : List Char) : row? (k + 1) cs = (rows cs)[k]? := rfl

theorem isSome_row?_iff (n : Nat) (cs : List Char) :
    (row? n cs).isSome = true ↔ 1 ≤ n ∧ n ≤ (lines cs).length := by
  rw [← length_rows]
  cases n with
  | zero => simp [row?]
  | succ k =>
    simp only [row?_succ, isSome_getElem?]
    omega

theorem filterMap_getElem?_range {α : Type} (xs : List α) :
    (List.range xs.length).filterMap (xs[·]?) = xs := by
  induction xs with
  | nil => rfl
  | cons x xs ih =>
    rw [List.length_cons, List.range_succ_eq_map, List.filterMap_cons, List.filterMap_map]
    simpa [Function.comp_def] using ih

theorem filterMap_row?_range (cs : List Char) :
    (List.range' 1 (lines cs).length).filterMap (row? · cs) = rows cs := by
  have hrow : (row? · cs) ∘ (1 + ·) = ((rows cs)[·]?) := by
    funext k
    rw [Function.comp_apply, Nat.add_comm, row?_succ]
  rw [← length_rows, List.range'_eq_map_range, List.filterMap_map, hrow,
    filterMap_getElem?_range]

/-- The rows with line feeds between them are the text but for a line feed at its end. -/
theorem eq_intercalate_rows (cs : List Char) :
    cs = List.intercalate ['\n'] (rows cs) ++
      if cs.getLast? = some '\n' then ['\n'] else [] := by
  induction cs using partInduction '\n' with
  | nil => rfl
  | last row hne hrow =>
    rw [rows_of_notMem hne hrow, if_neg (getLast?_ne_of_notMem hrow)]
    simp
  | ended row rest hrow ih =>
    rw [rows_append hrow]
    cases rest with
    | nil => simp
    | cons c rest =>
      -- There is one more row, so the line feed stands between two of them.
      have hne : rows (c :: rest) ≠ [] := mt rows_eq_nil_iff.1 (List.cons_ne_nil c rest)
      obtain ⟨first, others, hrows⟩ := List.exists_cons_of_ne_nil hne
      rw [hrows, List.intercalate_cons_cons, ← hrows, List.getLast?_append_cons,
        List.getLast?_cons_cons, List.append_assoc, List.append_assoc, ← ih, List.singleton_append]

end OptionalChain.Text

namespace OptionalChain.SourceFile

/-- A file has the rows from one to its number of lines. With line feeds between them they are its
text, but for a line feed at its end. A line is the row of its number, without one carriage return
at the end if a line feed ends the row. -/
theorem line_views_agree (f : SourceFile) :
    (∀ n, (Text.row? n f.text).isSome = true ↔ 1 ≤ n ∧ n ≤ f.lineCount) ∧
      f.text =
        List.intercalate ['\n'] ((List.range' 1 f.lineCount).filterMap (Text.row? · f.text)) ++
          (if f.text.getLast? = some '\n' then ['\n'] else []) ∧
      ∀ k, (Text.lines f.text)[k]? = (Text.row? (k + 1) f.text).map fun row ↦
        if k + 1 ≤ f.text.count '\n' then Text.dropCarriageReturn row else row := by
  refine ⟨fun n ↦ Text.isSome_row?_iff n f.text, ?_, Text.getElem?_lines f.text⟩
  rw [lineCount, Text.filterMap_row?_range]
  exact Text.eq_intercalate_rows f.text

end OptionalChain.SourceFile
