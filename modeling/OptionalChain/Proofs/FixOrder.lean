import OptionalChain.Proofs.FixSelection

/-!
# The order of diagnostics

A pass sorts the edits by their regions, so that the order in which they are reported counts only
between edits of one region. Which of these comes first decides nothing but the text that is put in,
and nothing at all if they put in the same text.
-/

namespace OptionalChain

namespace Fix

variable {suggestions : Bool} {text : List Char} {ds ds' : List Diagnostic}

theorem mem_selected {x : Fix} :
    x ∈ selected suggestions text ds ↔
      x ∈ ds.flatMap (·.fixes) ∧ x.isSelected suggestions (Text.size text) = true := by
  rw [selected, List.mem_mergeSort, List.mem_filter]

theorem selected_perm (suggestions : Bool) (text : List Char) (h : ds.Perm ds') :
    (selected suggestions text ds).Perm (selected suggestions text ds') := by
  have hfilter := (h.flatMap_right (·.fixes)).filter (isSelected suggestions (Text.size text))
  exact (List.mergeSort_perm _ _).trans (hfilter.trans (List.mergeSort_perm _ _).symm)

/-! ## What counts of an edit -/

/-- The region that an edit replaces. -/
def place (x : Fix) : Nat × Nat := (x.start, x.stop)

/-- The region of an edit and the text that is put in. -/
def edit (x : Fix) : (Nat × Nat) × List Char := (x.place, x.newText)

/-- The region is told by what is seen of an edit. -/
def ShowsPlace {α : Type} (view : α → Nat × Nat) (see : Fix → α) : Prop :=
  ∀ x, view (see x) = x.place

theorem showsPlace_place : ShowsPlace id place := fun _ ↦ rfl

theorem showsPlace_edit : ShowsPlace Prod.fst edit := fun _ ↦ rfl

section

variable {α : Type} {view : α → Nat × Nat} {see : Fix → α}

/-- If all that is seen of an edit to consider is told by its region, the edits look the same in
whatever order they are reported. -/
theorem map_selected_eq (hview : ShowsPlace view see) (hperm : ds.Perm ds')
    (hsee : ∀ x ∈ selected suggestions text ds, ∀ y ∈ selected suggestions text ds,
      x.place = y.place → see x = see y) :
    (selected suggestions text ds).map see = (selected suggestions text ds').map see := by
  let before (a b : α) : Prop :=
    (view a).1 < (view b).1 ∨ (view a).1 = (view b).1 ∧ (view a).2 ≤ (view b).2
  have hselected := selected_perm suggestions text hperm
  have hsorted (ds : List Diagnostic) :
      ((selected suggestions text ds).map see).Pairwise before := by
    refine List.pairwise_map.2 ((pairwise_selected suggestions text ds).imp fun {x y} hxy ↦ ?_)
    simp only [before, hview x, hview y]
    exact atOrBefore_iff.1 hxy
  refine List.Perm.eq_of_pairwise ?_ (hsorted ds) (hsorted ds') (hselected.map see)
  intro a b ha hb hab hba
  obtain ⟨x, hx, rfl⟩ := List.mem_map.1 ha
  obtain ⟨y, hy, rfl⟩ := List.mem_map.1 hb
  refine hsee x hx y (hselected.mem_iff.2 hy) ?_
  simp only [before, hview x, hview y] at hab hba
  exact Prod.ext (by omega) (by omega)

theorem fits_eq_of_place {x y : Fix} (h : x.place = y.place) (cursor : Nat) :
    x.fits text cursor = y.fits text cursor := by
  obtain ⟨hstart, hstop⟩ := Prod.mk.inj h
  rw [fits, fits, hstart, hstop]

/-- Which edits are made depends on their regions only. -/
theorem map_chosen_eq (hview : ShowsPlace view see) {xs ys : List Fix}
    (h : xs.map see = ys.map see) (text : List Char) (cursor : Nat) :
    (chosen text cursor xs).map see = (chosen text cursor ys).map see := by
  induction xs generalizing ys cursor with
  | nil =>
    obtain rfl := List.map_eq_nil_iff.1 h.symm
    rfl
  | cons x xs ih =>
    obtain ⟨y, ys, rfl, hsee, hrest⟩ := List.map_eq_cons_iff.1 h.symm
    have hplace : x.place = y.place := by rw [← hview x, ← hview y, hsee]
    rw [chosen, chosen, fits_eq_of_place hplace]
    split
    · rw [List.map_cons, List.map_cons, hsee, (Prod.mk.inj hplace).2, ih hrest.symm]
    · exact ih hrest.symm cursor

end

theorem splice_eq_of_map_edit {xs ys : List Fix} (cursor : Nat) (h : xs.map edit = ys.map edit) :
    splice text cursor xs = splice text cursor ys := by
  induction xs generalizing ys cursor with
  | nil =>
    obtain rfl := List.map_eq_nil_iff.1 h.symm
    rfl
  | cons x xs ih =>
    obtain ⟨y, ys, rfl, hedit, hrest⟩ := List.map_eq_cons_iff.1 h.symm
    obtain ⟨hplace, htext⟩ := Prod.mk.inj hedit
    obtain ⟨hstart, hstop⟩ := Prod.mk.inj hplace
    rw [splice, splice, hstart, hstop, htext, ih x.stop hrest.symm]

/-- No two edits to consider put different texts in one region. -/
def Agree (suggestions : Bool) (text : List Char) (ds : List Diagnostic) : Prop :=
  ∀ x ∈ ds.flatMap (·.fixes), ∀ y ∈ ds.flatMap (·.fixes),
    x.isSelected suggestions (Text.size text) = true →
      y.isSelected suggestions (Text.size text) = true →
        x.start = y.start → x.stop = y.stop → x.newText = y.newText

instance : Decidable (Agree suggestions text ds) :=
  inferInstanceAs (Decidable (∀ x ∈ ds.flatMap (·.fixes), ∀ y ∈ ds.flatMap (·.fixes),
    x.isSelected suggestions (Text.size text) = true →
      y.isSelected suggestions (Text.size text) = true →
        x.start = y.start → x.stop = y.stop → x.newText = y.newText))

theorem Agree.edit_eq (h : Agree suggestions text ds) {x y : Fix}
    (hx : x ∈ selected suggestions text ds) (hy : y ∈ selected suggestions text ds)
    (hplace : x.place = y.place) : x.edit = y.edit := by
  obtain ⟨hx, hxs⟩ := mem_selected.1 hx
  obtain ⟨hy, hys⟩ := mem_selected.1 hy
  obtain ⟨hstart, hstop⟩ := Prod.mk.inj hplace
  exact Prod.ext hplace (h x hx y hy hxs hys hstart hstop)

end Fix

/-- How many edits a pass makes and skips does not depend on the order of the diagnostics, and
neither does the output where no two edits put different texts in one region. -/
theorem fixing_ignores_report_order (text : List Char) (suggestions : Bool)
    {ds ds' : List Diagnostic} (hperm : ds.Perm ds') :
    (applyFixes text ds suggestions).applied = (applyFixes text ds' suggestions).applied ∧
      (applyFixes text ds suggestions).skipped = (applyFixes text ds' suggestions).skipped ∧
      (Fix.Agree suggestions text ds →
        applyFixes text ds suggestions = applyFixes text ds' suggestions) := by
  have hselected := Fix.selected_perm suggestions text hperm
  have hplaces := Fix.map_selected_eq Fix.showsPlace_place hperm
    (fun x (_ : x ∈ Fix.selected suggestions text ds) y _ hplace ↦ hplace)
  have happlied : (Fix.chosen text 0 (Fix.selected suggestions text ds)).length =
      (Fix.chosen text 0 (Fix.selected suggestions text ds')).length := by
    simpa using congrArg List.length (Fix.map_chosen_eq Fix.showsPlace_place hplaces text 0)
  have hskipped : (applyFixes text ds suggestions).skipped =
      (applyFixes text ds' suggestions).skipped := by
    simp only [applyFixes, happlied, hselected.length_eq]
  refine ⟨happlied, hskipped, fun hagree ↦ ?_⟩
  have hedits := Fix.map_selected_eq Fix.showsPlace_edit hperm
    fun x hx y hy ↦ hagree.edit_eq hx hy
  have houtput : (applyFixes text ds suggestions).output =
      (applyFixes text ds' suggestions).output :=
    Fix.splice_eq_of_map_edit 0 (Fix.map_chosen_eq Fix.showsPlace_edit hedits text 0)
  exact FixOutput.mk.injEq .. ▸ ⟨houtput, happlied, hskipped⟩

/-- Empty edits that `touchingFixes` has too, and an edit that overlaps those at its start. -/
def crossingFixes : Diagnostic :=
  { touchingFixes with fixes := [.between 3 3 ">", .between 0 2 "w", .between 1 1 "<"] }

/-- The empty edit at the end is made twice, in either order of the diagnostics. -/
theorem crossing_fixes_made_alike :
    [touchingFixes, crossingFixes].Perm [crossingFixes, touchingFixes] ∧
      Fix.Agree false "abcd".toList [touchingFixes, crossingFixes] ∧
      applyFixes "abcd".toList [touchingFixes, crossingFixes] false = ⟨"wyc>>d".toList, 4, 4⟩ ∧
      applyFixes "abcd".toList [crossingFixes, touchingFixes] false = ⟨"wyc>>d".toList, 4, 4⟩ := by
  have hperm : [touchingFixes, crossingFixes].Perm [crossingFixes, touchingFixes] := .swap ..
  have hagree : Fix.Agree false "abcd".toList [touchingFixes, crossingFixes] := by decide +kernel
  have hfilter : ([touchingFixes, crossingFixes].flatMap (·.fixes)).filter
      (Fix.isSelected false (Text.size "abcd".toList)) =
        touchingFixes.fixes ++ crossingFixes.fixes := by
    decide +kernel
  have hselected : Fix.selected false "abcd".toList [touchingFixes, crossingFixes] =
      [.between 0 2 "w", .between 1 1 "<", .between 1 1 "<", .between 1 3 "x", .between 1 3 "x",
        .between 2 2 "y", .between 3 3 ">", .between 3 3 ">"] := by
    rw [Fix.selected, hfilter]
    simp [touchingFixes, crossingFixes, List.mergeSort, Fix.atOrBefore, Fix.between, Fix.start,
      Fix.stop]
  have hresult : applyFixes "abcd".toList [touchingFixes, crossingFixes] false =
      ⟨"wyc>>d".toList, 4, 4⟩ := by
    rw [applyFixes, hselected]
    decide +kernel
  obtain ⟨-, -, hsame⟩ := fixing_ignores_report_order "abcd".toList false hperm
  exact ⟨hperm, hagree, hresult, (hsame hagree).symm.trans hresult⟩

end OptionalChain
