import OptionalChain.Proofs.FixSplicing

/-!
# Edits that are left for the next pass

A pass looks at the edits in the order of their regions and compares each one only with the end of
the last edit that was made. In that order this is enough: the edits that are made share no text,
and an edit whose ends fall between characters is left out only if it shares text with one that is
made.
-/

namespace OptionalChain

namespace Fix

/-! ## The order of the edits -/

theorem atOrBefore_iff {x y : Fix} :
    x.atOrBefore y = true ↔ x.start < y.start ∨ x.start = y.start ∧ x.stop ≤ y.stop := by
  simp [atOrBefore]

theorem atOrBefore_trans (x y z : Fix) (hxy : x.atOrBefore y = true)
    (hyz : y.atOrBefore z = true) : x.atOrBefore z = true := by
  rw [atOrBefore_iff] at *
  omega

theorem atOrBefore_total (x y : Fix) : (x.atOrBefore y || y.atOrBefore x) = true := by
  rw [Bool.or_eq_true, atOrBefore_iff, atOrBefore_iff]
  omega

theorem pairwise_selected (suggestions : Bool) (text : List Char) (ds : List Diagnostic) :
    (selected suggestions text ds).Pairwise fun x y ↦ x.atOrBefore y = true :=
  List.pairwise_mergeSort atOrBefore_trans atOrBefore_total _

theorem start_le_stop_of_mem_selected {suggestions : Bool} {text : List Char}
    {ds : List Diagnostic} {x : Fix} (hx : x ∈ selected suggestions text ds) :
    x.start ≤ x.stop := by
  have hselected := isSelected_of_mem_selected hx
  simp only [isSelected, Bool.and_eq_true, decide_eq_true_eq] at hselected
  exact hselected.1.2

/-! ## Edits that share text -/

theorem overlaps_iff {x y : Fix} :
    x.overlaps y = true ↔ x.start < y.stop ∧ y.start < x.stop := by
  simp [overlaps]

theorem overlaps_eq_false_of_stop_le {x y : Fix} (h : x.stop ≤ y.start) :
    x.overlaps y = false := by
  rw [← Bool.not_eq_true, overlaps_iff]
  omega

/-- An edit that comes later in the order and starts before the end of an earlier one shares text
with it. This fails for an empty edit at the start of the other, but that one comes first. -/
theorem overlaps_of_atOrBefore {x y : Fix} (hx : x.start ≤ x.stop) (horder : y.atOrBefore x = true)
    (hbefore : x.start < y.stop) : x.overlaps y = true := by
  rw [overlaps_iff]
  rw [atOrBefore_iff] at horder
  omega

/-! ## The edits that a pass leaves out -/

/-- The edits that are left out: each one that does not fit after those before it. -/
def leftOut (text : List Char) (cursor : Nat) : List Fix → List Fix
  | [] => []
  | x :: xs =>
    if x.fits text cursor then leftOut text x.stop xs else x :: leftOut text cursor xs

theorem chosen_append_leftOut_perm (text : List Char) (cursor : Nat) (xs : List Fix) :
    (chosen text cursor xs ++ leftOut text cursor xs).Perm xs := by
  induction xs generalizing cursor with
  | nil => exact .nil
  | cons x xs ih =>
    rw [chosen, leftOut]
    split
    · exact (ih x.stop).cons x
    · exact List.perm_middle.trans ((ih cursor).cons x)

/-- Of edits in order, one that is left out although its ends fall between characters starts before
the cursor or shares text with one that is chosen. -/
theorem exists_overlaps_of_mem_leftOut {text : List Char} {cursor : Nat} {xs : List Fix}
    (horder : ∀ x ∈ xs, x.start ≤ x.stop)
    (hsorted : xs.Pairwise fun x y ↦ x.atOrBefore y = true) {x : Fix}
    (hx : x ∈ leftOut text cursor xs) (hstart : Text.isBoundary x.start text = true)
    (hstop : Text.isBoundary x.stop text = true) :
    x.start < cursor ∨ ∃ y ∈ chosen text cursor xs, x.overlaps y = true := by
  induction xs generalizing cursor with
  | nil => cases hx
  | cons y ys ih =>
    obtain ⟨-, hys⟩ := List.forall_mem_cons.1 horder
    obtain ⟨hfirst, hrest⟩ := List.pairwise_cons.1 hsorted
    rw [leftOut] at hx
    rw [chosen]
    by_cases hfits : y.fits text cursor = true
    · rw [if_pos hfits] at hx ⊢
      have hmem : x ∈ ys :=
        (chosen_append_leftOut_perm text y.stop ys).subset (List.mem_append_right _ hx)
      right
      obtain hbefore | ⟨z, hz, hoverlaps⟩ := ih hys hrest hx
      · exact ⟨y, List.mem_cons_self,
          overlaps_of_atOrBefore (hys x hmem) (hfirst x hmem) hbefore⟩
      · exact ⟨z, List.mem_cons_of_mem y hz, hoverlaps⟩
    · rw [if_neg hfits] at hx ⊢
      obtain rfl | hx := List.mem_cons.1 hx
      · left
        apply Nat.lt_of_not_le
        intro hcursor
        exact hfits (fits_iff.2 ⟨hcursor, hstart, hstop⟩)
      · exact ih hys hrest hx

/-- The edits that a pass leaves out, in order. -/
def skipped (suggestions : Bool) (text : List Char) (ds : List Diagnostic) : List Fix :=
  leftOut text 0 (selected suggestions text ds)

theorem made_append_skipped_perm (suggestions : Bool) (text : List Char) (ds : List Diagnostic) :
    (made suggestions text ds ++ skipped suggestions text ds).Perm
      (selected suggestions text ds) :=
  chosen_append_leftOut_perm text 0 _

end Fix

theorem skipped_applyFixes (text : List Char) (ds : List Diagnostic) (suggestions : Bool) :
    (applyFixes text ds suggestions).skipped = (Fix.skipped suggestions text ds).length := by
  have hlength := (Fix.made_append_skipped_perm suggestions text ds).length_eq
  rw [List.length_append] at hlength
  exact Nat.sub_eq_of_eq_add' hlength.symm

/-- The edits of a kind to be made whose regions lie in the text are those that a pass splices in
and those that it skips. No two that are spliced in share text, and one that is skipped although
its ends fall between characters shares text with one that is spliced in. -/
theorem made_fixes_are_maximal (text : List Char) (ds : List Diagnostic) (suggestions : Bool) :
    Fix.Spliced 0 text (Fix.made suggestions text ds) (applyFixes text ds suggestions).output ∧
      (applyFixes text ds suggestions).applied = (Fix.made suggestions text ds).length ∧
      (applyFixes text ds suggestions).skipped = (Fix.skipped suggestions text ds).length ∧
      (Fix.made suggestions text ds ++ Fix.skipped suggestions text ds).Perm
        ((ds.flatMap (·.fixes)).filter fun x ↦ (suggestions || x.isAutomatic) &&
          x.start ≤ x.stop && x.stop ≤ Text.size text) ∧
      (Fix.made suggestions text ds).Pairwise (fun x y ↦ x.overlaps y = false) ∧
      ∀ x ∈ Fix.skipped suggestions text ds, Text.isBoundary x.start text = true →
        Text.isBoundary x.stop text = true →
          ∃ y ∈ Fix.made suggestions text ds, x.overlaps y = true := by
  have horder : ∀ x ∈ Fix.selected suggestions text ds, x.start ≤ x.stop :=
    fun _ ↦ Fix.start_le_stop_of_mem_selected
  have hspliced := (Fix.splice_chosen (List.nil_append text).symm horder).2
  refine ⟨hspliced, rfl, skipped_applyFixes text ds suggestions, ?_, ?_, ?_⟩
  · exact (Fix.made_append_skipped_perm suggestions text ds).trans (List.mergeSort_perm _ _)
  · exact hspliced.pairwise.2.imp Fix.overlaps_eq_false_of_stop_le
  · intro x hx hstart hstop
    have hsorted := Fix.pairwise_selected suggestions text ds
    obtain hbefore | hoverlaps := Fix.exists_overlaps_of_mem_leftOut horder hsorted hx hstart hstop
    · exact absurd hbefore (Nat.not_lt_zero _)
    · exact hoverlaps

/-- Edits that meet: an edit written twice, and empty ones at its start, inside it and at its
end. -/
def touchingFixes : Diagnostic where
  ruleId := ""
  severity := .warning
  message := ""
  file := "a.ts"
  region := ⟨⟨1, 1⟩, ⟨1, 1⟩, 0, 5⟩
  fixes := [.between 1 3 "x", .between 2 2 "y", .between 1 1 "<", .between 3 3 ">",
    .between 1 3 "x"]

/-- The empty edits at both ends are made. The second copy of the edit and the empty one inside it
share text with the first copy. -/
theorem touching_fixes_are_maximal :
    applyFixes "abcd".toList [touchingFixes] false = ⟨"a<x>d".toList, 3, 2⟩ ∧
      Fix.skipped false "abcd".toList [touchingFixes] = [.between 1 3 "x", .between 2 2 "y"] ∧
      ∀ x ∈ [Fix.between 1 3 "x", .between 2 2 "y"],
        ∃ y ∈ Fix.made false "abcd".toList [touchingFixes], x.overlaps y = true := by
  have hselected : Fix.selected false "abcd".toList [touchingFixes] =
      [.between 1 1 "<", .between 1 3 "x", .between 1 3 "x", .between 2 2 "y",
        .between 3 3 ">"] := by
    have hfilter : ([touchingFixes].flatMap (·.fixes)).filter
        (Fix.isSelected false (Text.size "abcd".toList)) = touchingFixes.fixes := by
      decide +kernel
    rw [Fix.selected, hfilter]
    simp [touchingFixes, List.mergeSort, Fix.atOrBefore, Fix.between, Fix.start, Fix.stop]
  have hskipped : Fix.skipped false "abcd".toList [touchingFixes] =
      [.between 1 3 "x", .between 2 2 "y"] := by
    rw [Fix.skipped, hselected]
    decide +kernel
  have hresult : applyFixes "abcd".toList [touchingFixes] false = ⟨"a<x>d".toList, 3, 2⟩ := by
    rw [applyFixes, hselected]
    decide +kernel
  refine ⟨hresult, hskipped, fun x hx ↦ ?_⟩
  obtain ⟨-, -, -, -, -, hmaximal⟩ := made_fixes_are_maximal "abcd".toList [touchingFixes] false
  rw [hskipped] at hmaximal
  have hcuts : ∀ x ∈ [Fix.between 1 3 "x", .between 2 2 "y"],
      Text.isBoundary x.start "abcd".toList = true ∧
        Text.isBoundary x.stop "abcd".toList = true := by
    decide
  exact hmaximal x hx (hcuts x hx).1 (hcuts x hx).2

end OptionalChain
