import Mathlib.Data.Prod.Lex
import Mathlib.Order.Monotone.Basic
import OptionalChain.Proofs.LineViews
import OptionalChain.Proofs.Placement.Cuts

/-!
# Locations and what stands there

Going on in a text makes locations larger, line before column. The row with the number of the line
has, at the place that the column says, the character that stands at the offset.
-/

namespace OptionalChain.Text

namespace Location

/-- Locations in the order of reading: by line, and by column on one line. -/
def rank (l : Location) : ℕ ×ₗ ℕ :=
  toLex (l.line, l.column)

theorem after_append (start : Location) (xs ys : List Char) :
    start.after (xs ++ ys) = (start.after xs).after ys := by
  induction xs generalizing start with
  | nil => rfl
  | cons c xs ih =>
    rw [List.cons_append, after, after]
    split <;> exact ih _

theorem after_of_notMem (start : Location) {row : List Char} (h : '\n' ∉ row) :
    start.after row = ⟨start.line, start.column + row.length⟩ := by
  induction row generalizing start with
  | nil => rfl
  | cons c row ih =>
    rw [List.mem_cons, not_or] at h
    rw [after, if_neg (Ne.symm h.1), ih _ h.2, List.length_cons, Nat.add_assoc, Nat.add_comm 1]

theorem after_row (start : Location) {row : List Char} (h : '\n' ∉ row) (rest : List Char) :
    start.after (row ++ '\n' :: rest) = Location.after ⟨start.line + 1, 1⟩ rest := by
  rw [after_append, after_of_notMem start h, after, if_pos rfl]

theorem rank_lt_after_singleton (start : Location) (c : Char) :
    start.rank < (start.after [c]).rank := by
  rw [after]
  split
  · exact Prod.Lex.left _ _ (Nat.lt_succ_self _)
  · exact Prod.Lex.right _ (Nat.lt_succ_self _)

/-- Every further character makes the location larger. -/
theorem rank_lt_after (start : Location) {cs : List Char} (h : cs ≠ []) :
    start.rank < (start.after cs).rank := by
  induction cs generalizing start with
  | nil => exact absurd rfl h
  | cons c cs ih =>
    have hfirst := rank_lt_after_singleton start c
    rw [← List.singleton_append, after_append]
    by_cases hcs : cs = []
    · rwa [hcs]
    · exact hfirst.trans (ih _ hcs)

end Location

variable {text cs : List Char} {pos : Nat}

theorem rank_lt_of_locate? {lo hi : Nat} {p q : Location} (hlo : Boundary text lo)
    (hhi : Boundary text hi) (h : lo < hi) (hp : locate? lo text = some p)
    (hq : locate? hi text = some q) : p.rank < q.rank := by
  obtain ⟨piece, rest, ⟨before, rfl, rfl⟩, rfl⟩ := hlo.exists_piece hhi h.le
  have hpiece : piece ≠ [] := by
    rintro rfl
    simp at h
  rw [locate?_append] at hp
  rw [← List.append_assoc, ← size_append, locate?_append, Location.after_append] at hq
  cases hp
  cases hq
  exact Location.rank_lt_after _ hpiece

/-- A text that starts with some characters of a row has a first row that starts with them. -/
theorem exists_rows_eq_cons {w : List Char} (hne : w ≠ []) (h : '\n' ∉ w) (cs : List Char) :
    ∃ more others, rows (w ++ cs) = (w ++ more) :: others := by
  by_cases hfeed : '\n' ∈ cs
  · obtain ⟨row, rest, rfl, hrow⟩ := List.eq_append_cons_of_mem hfeed
    refine ⟨row, rows rest, ?_⟩
    rw [← List.append_assoc, rows_append (by simp [h, hrow])]
  · exact ⟨cs, [], rows_of_notMem (by simp [hne]) (by simp [h, hfeed])⟩

/-- A character stands in the row and at the place in it that the location after the text before it
tells, when the lines are counted from `line` on. -/
theorem exists_row_of_after (before : List Char) {c : Char} (hc : c ≠ '\n') (cs : List Char)
    (line : Nat) :
    ∃ k i row, Location.after ⟨line, 1⟩ before = ⟨line + k, i + 1⟩ ∧
      (rows (before ++ c :: cs))[k]? = some row ∧ row[i]? = some c := by
  have hfirst : ∀ before : List Char, '\n' ∉ before → ∃ row,
      (rows (before ++ c :: cs))[0]? = some row ∧ row[before.length]? = some c := by
    intro before h
    obtain ⟨more, others, hrows⟩ :=
      exists_rows_eq_cons (w := before ++ [c]) (by simp) (by simp [h, hc.symm]) cs
    rw [List.append_assoc, List.singleton_append] at hrows
    exact ⟨before ++ [c] ++ more, by rw [hrows]; rfl, by simp⟩
  -- Each row before the character adds one to the line and one to the number of the row.
  induction before using partInduction '\n' generalizing line with
  | nil =>
    obtain ⟨row, hrow, hplace⟩ := hfirst [] List.not_mem_nil
    exact ⟨0, 0, row, rfl, hrow, hplace⟩
  | last before _ hbefore =>
    obtain ⟨row, hrow, hplace⟩ := hfirst before hbefore
    exact ⟨0, before.length, row,
      by rw [Location.after_of_notMem _ hbefore, Nat.add_zero, Nat.add_comm 1], hrow, hplace⟩
  | ended first rest hrow ih =>
    obtain ⟨k, i, row, hafter, hrows, hplace⟩ := ih (line + 1)
    refine ⟨k + 1, i, row, ?_, ?_, hplace⟩
    · rw [Location.after_row _ hrow, hafter, Nat.add_assoc, Nat.add_comm 1]
    · rwa [List.append_assoc, List.cons_append, rows_append hrow, List.getElem?_cons_succ]

theorem at_of_dropTo? (h : dropTo? pos text = some cs) : At text pos cs := by
  rw [dropTo?_eq_map_splitAt?] at h
  obtain ⟨⟨before, after⟩, hcut, rfl⟩ := Option.map_eq_some_iff.1 h
  exact ⟨before, eq_append_of_splitAt? hcut⟩

theorem exists_row_of_at {c : Char} {place : Location} (h : At text pos (c :: cs)) (hc : c ≠ '\n')
    (hplace : locate? pos text = some place) :
    ∃ row i, row? place.line text = some row ∧ place.column = i + 1 ∧ row[i]? = some c := by
  obtain ⟨before, rfl, rfl⟩ := h
  obtain ⟨k, i, row, hafter, hrow, hat⟩ := exists_row_of_after before hc cs 1
  rw [locate?_append, hafter] at hplace
  cases hplace
  exact ⟨row, i, by rwa [Nat.add_comm, row?_succ], rfl, hat⟩

end OptionalChain.Text

namespace OptionalChain.SourceFile

open Text (At Boundary)

theorem locate?_eq (f : SourceFile) {offset : Nat} (h : Boundary f.text offset) :
    f.locate? offset = Text.locate? offset f.text := by
  rw [locate?, clamp_eq h]

/-- Every place between characters has a location. From one such place to a later one, locations
grow line before column, so that no two places share one. Where a character other than a line feed
stands, the row that the location names is there, and the column says the place of the character in
it. -/
theorem locations_are_faithful (f : SourceFile) :
    ∃ place : Nat → Text.Location,
      (∀ offset, Text.isBoundary offset f.text = true →
        f.locate? offset = some (place offset)) ∧
      StrictMonoOn (fun offset ↦ (place offset).rank)
        {offset | Text.isBoundary offset f.text = true} ∧
      Set.InjOn f.locate? {offset | Text.isBoundary offset f.text = true} ∧
      ∀ offset c rest, Text.dropTo? offset f.text = some (c :: rest) → c ≠ '\n' →
        ∃ row, Text.row? (place offset).line f.text = some row ∧
          1 ≤ (place offset).column ∧ row[(place offset).column - 1]? = some c := by
  let place offset := (Text.locate? offset f.text).getD ⟨1, 1⟩
  have hplace : ∀ offset, Boundary f.text offset →
      Text.locate? offset f.text = some (place offset) := by
    intro offset h
    obtain ⟨l, hl⟩ := h.exists_locate?
    simp only [place, hl, Option.getD_some]
  have hmono : StrictMonoOn (fun offset ↦ (place offset).rank)
      {offset | Text.isBoundary offset f.text = true} := by
    intro lo hlo hi hhi h
    have hlo := Text.boundary_iff.2 hlo
    have hhi := Text.boundary_iff.2 hhi
    exact Text.rank_lt_of_locate? hlo hhi h (hplace lo hlo) (hplace hi hhi)
  have hlocate : ∀ offset, Text.isBoundary offset f.text = true →
      f.locate? offset = some (place offset) := by
    intro offset h
    rw [f.locate?_eq (Text.boundary_iff.2 h), hplace offset (Text.boundary_iff.2 h)]
  refine ⟨place, hlocate, hmono, fun lo hlo hi hhi h ↦ ?_, fun offset c rest hoffset hc ↦ ?_⟩
  · rw [hlocate lo hlo, hlocate hi hhi] at h
    exact hmono.injOn hlo hhi (congrArg Text.Location.rank (Option.some.inj h))
  · have hat := Text.at_of_dropTo? hoffset
    obtain ⟨row, i, hrow, hcolumn, hchar⟩ :=
      Text.exists_row_of_at hat hc (hplace offset hat.boundary)
    rw [hcolumn]
    exact ⟨row, hrow, Nat.le_add_left 1 i, hchar⟩

/-- A letter of two bytes counts as one column, and a blank line as a line. -/
theorem location_past_wide_letter :
    ∃ f : SourceFile, f.text = ['é', '\r', '\n', '\n', 'a', 'b'] ∧
      f.locate? 2 = some ⟨1, 2⟩ ∧ f.locate? 6 = some ⟨3, 2⟩ ∧
      Text.Location.rank ⟨1, 2⟩ < Text.Location.rank ⟨3, 2⟩ ∧
      ∃ row, Text.row? 3 f.text = some row ∧ row[1]? = some 'b' := by
  let f := ofText "a.js" ['é', '\r', '\n', '\n', 'a', 'b']
  have hlo : Text.isBoundary 2 f.text = true := by decide
  have hhi : Text.isBoundary 6 f.text = true := by decide
  have hfirst : f.locate? 2 = some ⟨1, 2⟩ := by decide
  have hlast : f.locate? 6 = some ⟨3, 2⟩ := by decide
  obtain ⟨place, hplace, hmono, -, hrow⟩ := f.locations_are_faithful
  have hlt := hmono hlo hhi (by decide)
  obtain ⟨row, hline, -, hchar⟩ := hrow 6 'b' [] (by decide) (by decide)
  simp only [Option.some.inj ((hplace 2 hlo).symm.trans hfirst),
    Option.some.inj ((hplace 6 hhi).symm.trans hlast)] at hlt hline hchar
  exact ⟨f, rfl, hfirst, hlast, hlt, row, hline, hchar⟩

end OptionalChain.SourceFile
