import OptionalChain.Fix

/-!
# Splicing edits into a text

A pass makes edits in the order of their regions, each one only if it starts at or after the end of
the one before and both of its ends fall between characters. Every cut of the text is then possible,
and the output is the text with the regions of these edits replaced: all else is kept once and in
order.
-/

namespace OptionalChain

/-! ## Cuts -/

namespace Text

theorem eq_nil_of_size_eq_zero {cs : List Char} (h : size cs = 0) : cs = [] := by
  cases cs with
  | nil => rfl
  | cons c cs =>
    have hc := c.utf8Size_pos
    rw [size_cons] at h
    omega

/-- A boundary is an offset where the text can be cut in two. -/
theorem isBoundary_iff {n : Nat} {cs : List Char} :
    isBoundary n cs = true ↔ ∃ before after, cs = before ++ after ∧ size before = n := by
  rw [isBoundary, dropTo?_eq_map_splitAt?, Option.isSome_map, Option.isSome_iff_exists]
  constructor
  · rintro ⟨⟨before, after⟩, h⟩
    exact ⟨before, after, eq_append_of_splitAt? h⟩
  · rintro ⟨before, after, rfl, rfl⟩
    exact ⟨(before, after), splitAt?_append before after⟩

/-- Of two cuts the earlier one lies in the first part of the later one. -/
theorem exists_eq_append {before after before' after' : List Char}
    (h : before ++ after = before' ++ after') (hsize : size before ≤ size before') :
    ∃ piece, before' = before ++ piece ∧ after = piece ++ after' := by
  obtain hlater | ⟨piece, hbefore, hafter⟩ := List.append_eq_append_iff.1 h
  · exact hlater
  · rw [hbefore, size_append] at hsize
    obtain rfl : piece = [] := eq_nil_of_size_eq_zero (by omega)
    refine ⟨[], ?_, ?_⟩
    · rw [hbefore, List.append_nil, List.append_nil]
    · rw [hafter]
      rfl

/-- From a cut on, the text up to a later boundary can be cut off. -/
theorem exists_piece {before after : List Char} {n : Nat}
    (hboundary : isBoundary n (before ++ after) = true) (hn : size before ≤ n) :
    ∃ piece rest, after = piece ++ rest ∧ n = size before + size piece := by
  obtain ⟨before', rest, hcut, rfl⟩ := isBoundary_iff.1 hboundary
  obtain ⟨piece, hpiece, hafter⟩ := exists_eq_append hcut hn
  exact ⟨piece, rest, hafter, by rw [hpiece, size_append]⟩

theorem slice_of_slice? {lo hi : Nat} {cs piece : List Char} (h : slice? lo hi cs = some piece) :
    slice lo hi cs = piece := by
  rw [slice, h, Option.getD_some]

end Text

namespace Fix

/-! ## Spliced texts -/

/-- The text from `cursor` on with edits in order, absent if one of the cuts is not possible. -/
def splice? (text : List Char) (cursor : Nat) : List Fix → Option (List Char)
  | [] => Text.slice? cursor (Text.size text) text
  | x :: xs => do
    let kept ← Text.slice? cursor x.start text
    let rest ← splice? text x.stop xs
    return kept ++ x.newText ++ rest

/-- A text that starts at the offset, edits of regions in it, and the text where each region is
replaced and all between them is kept. -/
inductive Spliced : Nat → List Char → List Fix → List Char → Prop where
  | done (offset : Nat) (rest : List Char) : Spliced offset rest [] rest
  | edit {offset : Nat} {kept removed rest out : List Char} {x : Fix} {xs : List Fix}
      (start_eq : x.start = offset + Text.size kept)
      (stop_eq : x.stop = x.start + Text.size removed) (after : Spliced x.stop rest xs out) :
      Spliced offset (kept ++ (removed ++ rest)) (x :: xs) (kept ++ x.newText ++ out)

/-- Edits that are spliced in lie one after the other. -/
theorem Spliced.pairwise {offset : Nat} {text out : List Char} {xs : List Fix}
    (h : Spliced offset text xs out) :
    (∀ x ∈ xs, offset ≤ x.start) ∧ xs.Pairwise fun x y ↦ x.stop ≤ y.start := by
  induction h with
  | done => exact ⟨List.forall_mem_nil _, .nil⟩
  | edit hstart hstop _ ih =>
    obtain ⟨hafter, hpairwise⟩ := ih
    refine ⟨List.forall_mem_cons.2 ⟨by omega, fun y hy ↦ ?_⟩, hpairwise.cons hafter⟩
    have hy := hafter y hy
    omega

/-! ## The edits of a pass -/

theorem fits_iff {text : List Char} {cursor : Nat} {x : Fix} :
    x.fits text cursor = true ↔ cursor ≤ x.start ∧ Text.isBoundary x.start text = true ∧
      Text.isBoundary x.stop text = true := by
  rw [fits, Bool.and_eq_true, Bool.and_eq_true, decide_eq_true_eq, and_assoc]

theorem chosen_sublist (text : List Char) (cursor : Nat) (xs : List Fix) :
    (chosen text cursor xs).Sublist xs := by
  fun_induction chosen text cursor xs with
  | case1 => exact .slnil
  | case2 cursor x xs _ ih => exact ih.cons_cons x
  | case3 cursor x xs _ ih => exact ih.cons x

/-- The parts of the text around an edit that fits. -/
theorem exists_parts_of_fits {before after : List Char} {x : Fix} (horder : x.start ≤ x.stop)
    (hfits : x.fits (before ++ after) (Text.size before) = true) :
    ∃ kept removed rest, after = kept ++ (removed ++ rest) ∧
      x.start = Text.size before + Text.size kept ∧ x.stop = x.start + Text.size removed := by
  obtain ⟨hcursor, hstart, hstop⟩ := fits_iff.1 hfits
  obtain ⟨kept, tail, rfl, hkept⟩ := Text.exists_piece hstart hcursor
  rw [← List.append_assoc] at hstop
  have hcut : Text.size (before ++ kept) ≤ x.stop := by rwa [Text.size_append, ← hkept]
  obtain ⟨removed, rest, rfl, hremoved⟩ := Text.exists_piece hstop hcut
  refine ⟨kept, removed, rest, rfl, hkept, ?_⟩
  rw [hremoved, Text.size_append, ← hkept]

/-- Edits that are chosen after a cut of the text can be spliced in from there on. -/
theorem splice_chosen {text before after : List Char} (htext : text = before ++ after)
    {xs : List Fix} (horder : ∀ x ∈ xs, x.start ≤ x.stop) :
    splice? text (Text.size before) (chosen text (Text.size before) xs) =
        some (splice text (Text.size before) (chosen text (Text.size before) xs)) ∧
      Spliced (Text.size before) after (chosen text (Text.size before) xs)
        (splice text (Text.size before) (chosen text (Text.size before) xs)) := by
  induction xs generalizing before after with
  | nil =>
    have hslice : Text.slice? (Text.size before) (Text.size text) text = some after := by
      have hcut := Text.slice?_append before after []
      rwa [List.append_nil, ← Text.size_append, ← htext] at hcut
    rw [chosen, splice?, splice, Text.slice_of_slice? hslice]
    exact ⟨hslice, .done _ _⟩
  | cons x xs ih =>
    obtain ⟨hx, hxs⟩ := List.forall_mem_cons.1 horder
    rw [chosen]
    by_cases hfits : x.fits text (Text.size before) = true
    · rw [if_pos hfits]
      rw [htext] at hfits
      obtain ⟨kept, removed, rest, rfl, hstart, hstop⟩ := exists_parts_of_fits hx hfits
      have hslice : Text.slice? (Text.size before) x.start text = some kept := by
        rw [hstart, htext]
        exact Text.slice?_append before kept (removed ++ rest)
      have hnext : x.stop = Text.size (before ++ (kept ++ removed)) := by
        rw [hstop, hstart, Text.size_append, Text.size_append, Nat.add_assoc]
      have hrest : text = before ++ (kept ++ removed) ++ rest := by
        rw [htext]
        simp only [List.append_assoc]
      obtain ⟨hcuts, hspliced⟩ := ih hrest hxs
      rw [← hnext] at hcuts hspliced
      rw [splice?, splice, hslice, hcuts, Text.slice_of_slice? hslice]
      exact ⟨rfl, .edit hstart hstop hspliced⟩
    · rw [if_neg hfits]
      exact ih htext hxs

/-- An edit that would fit but is not made starts before the end of one that is. -/
theorem exists_start_lt_stop {text : List Char} {cursor : Nat} {xs : List Fix} {x : Fix}
    (hx : x ∈ xs) (hfits : x.fits text cursor = true) (hnot : x ∉ chosen text cursor xs) :
    ∃ y ∈ chosen text cursor xs, x.start < y.stop := by
  fun_induction chosen text cursor xs with
  | case1 => cases hx
  | case2 cursor y xs hy ih =>
    rw [List.mem_cons, not_or] at hnot
    obtain hxy | hx := List.mem_cons.1 hx
    · exact absurd hxy hnot.1
    · by_cases hbefore : x.start < y.stop
      · exact ⟨y, List.mem_cons_self, hbefore⟩
      · have hnext : x.fits text y.stop = true :=
          fits_iff.2 ⟨Nat.le_of_not_lt hbefore, (fits_iff.1 hfits).2⟩
        obtain ⟨z, hz, hlt⟩ := ih hx hnext hnot.2
        exact ⟨z, List.mem_cons_of_mem y hz, hlt⟩
  | case3 cursor y xs hy ih =>
    obtain rfl | hx := List.mem_cons.1 hx
    · exact absurd hfits hy
    · exact ih hx hfits hnot

/-- The edits that a pass makes, in order. -/
def made (suggestions : Bool) (text : List Char) (ds : List Diagnostic) : List Fix :=
  chosen text 0 (selected suggestions text ds)

theorem isSelected_of_mem_selected {suggestions : Bool} {text : List Char} {ds : List Diagnostic}
    {x : Fix} (hx : x ∈ selected suggestions text ds) :
    x.isSelected suggestions (Text.size text) = true :=
  (List.mem_filter.1 (List.mem_mergeSort.1 hx)).2

theorem length_selected (suggestions : Bool) (text : List Char) (ds : List Diagnostic) :
    (selected suggestions text ds).length =
      (ds.flatMap (·.fixes)).countP (isSelected suggestions (Text.size text)) := by
  rw [selected, List.length_mergeSort, List.countP_eq_length_filter]

end Fix

/-- A pass cuts the text only where it can be cut. Its output is the text with the regions of the
edits that are made replaced and all else kept, and it makes every edit that it can make after
those before it. Each edit of a kind to be made whose region lies in the text is made or skipped. -/
theorem fixes_splice_text (text : List Char) (ds : List Diagnostic) (suggestions : Bool) :
    Fix.splice? text 0 (Fix.made suggestions text ds) =
        some (applyFixes text ds suggestions).output ∧
      Fix.Spliced 0 text (Fix.made suggestions text ds) (applyFixes text ds suggestions).output ∧
      (Fix.made suggestions text ds).Pairwise (fun x y ↦ x.stop ≤ y.start) ∧
      (Fix.made suggestions text ds).Sublist (Fix.selected suggestions text ds) ∧
      (∀ x ∈ Fix.selected suggestions text ds, Text.isBoundary x.start text = true →
        Text.isBoundary x.stop text = true → x ∉ Fix.made suggestions text ds →
          ∃ y ∈ Fix.made suggestions text ds, x.start < y.stop) ∧
      (applyFixes text ds suggestions).applied = (Fix.made suggestions text ds).length ∧
      (applyFixes text ds suggestions).applied + (applyFixes text ds suggestions).skipped =
        (ds.flatMap (·.fixes)).countP fun x ↦ (suggestions || x.isAutomatic) &&
          x.start ≤ x.stop && x.stop ≤ Text.size text := by
  have horder : ∀ x ∈ Fix.selected suggestions text ds, x.start ≤ x.stop := by
    intro x hx
    have hselected := Fix.isSelected_of_mem_selected hx
    simp only [Fix.isSelected, Bool.and_eq_true, decide_eq_true_eq] at hselected
    exact hselected.1.2
  obtain ⟨hcuts, hspliced⟩ := Fix.splice_chosen (List.nil_append text).symm horder
  have hsublist : (Fix.made suggestions text ds).Sublist (Fix.selected suggestions text ds) :=
    Fix.chosen_sublist text 0 _
  refine ⟨hcuts, hspliced, hspliced.pairwise.2, hsublist, fun x hx hstart hstop hnot ↦ ?_, rfl, ?_⟩
  · exact Fix.exists_start_lt_stop hx (Fix.fits_iff.2 ⟨Nat.zero_le _, hstart, hstop⟩) hnot
  · calc
      (Fix.made suggestions text ds).length + ((Fix.selected suggestions text ds).length -
          (Fix.made suggestions text ds).length) = (Fix.selected suggestions text ds).length :=
        Nat.add_sub_cancel' hsublist.length_le
      _ = (ds.flatMap (·.fixes)).countP (Fix.isSelected suggestions (Text.size text)) :=
        Fix.length_selected suggestions text ds

/-- An edit of the region between two offsets. -/
def Fix.between (start stop : Nat) (newText : String) : Fix where
  title := ""
  newText := newText.toList
  region := ⟨⟨1, 1⟩, ⟨1, 1⟩, start, stop⟩

/-- Edits out of order: two that can be made, one that overlaps, one that cuts into a character, and
two whose regions are past the end or reversed. -/
def crowdedFixes : Diagnostic where
  ruleId := ""
  severity := .warning
  message := ""
  file := "a.ts"
  region := ⟨⟨1, 1⟩, ⟨1, 1⟩, 0, 5⟩
  fixes := [.between 3 4 "2", .between 0 3 "x", .between 1 3 "y", .between 0 2 "e",
    .between 4 40 "z", .between 3 1 "w"]

/-- The first letter takes two bytes. The edit up to the equals sign starts where that of the letter
was made. -/
theorem crowded_fixes_splice :
    applyFixes "é=1;".toList [crowdedFixes] false = ⟨"e=2;".toList, 2, 2⟩ ∧
      Fix.Spliced 0 "é=1;".toList [.between 0 2 "e", .between 3 4 "2"] "e=2;".toList ∧
      Fix.between 0 3 "x" ∈ Fix.selected false "é=1;".toList [crowdedFixes] ∧
      ∃ y ∈ [Fix.between 0 2 "e", .between 3 4 "2"], 0 < y.stop := by
  have hfilter : ([crowdedFixes].flatMap (·.fixes)).filter
      (Fix.isSelected false (Text.size "é=1;".toList)) =
        [.between 3 4 "2", .between 0 3 "x", .between 1 3 "y", .between 0 2 "e"] := by
    decide +kernel
  have hselected : Fix.selected false "é=1;".toList [crowdedFixes] =
      [.between 0 2 "e", .between 0 3 "x", .between 1 3 "y", .between 3 4 "2"] := by
    rw [Fix.selected, hfilter]
    simp [List.mergeSort, Fix.atOrBefore, Fix.between, Fix.start, Fix.stop]
  have hmade : Fix.made false "é=1;".toList [crowdedFixes] =
      [.between 0 2 "e", .between 3 4 "2"] := by
    rw [Fix.made, hselected]
    decide +kernel
  have hresult : applyFixes "é=1;".toList [crowdedFixes] false = ⟨"e=2;".toList, 2, 2⟩ := by
    rw [applyFixes, hselected]
    decide +kernel
  obtain ⟨-, hspliced, -, -, hskipped, -⟩ := fixes_splice_text "é=1;".toList [crowdedFixes] false
  rw [hmade, hresult] at hspliced
  rw [hmade, hselected] at hskipped
  rw [hselected]
  exact ⟨hresult, hspliced, by decide, hskipped (.between 0 3 "x") (by decide)
    (by decide) (by decide) (by decide)⟩

end OptionalChain
