import OptionalChain.Proofs.Placement.Scan

/-!
# Comments in order

The comments that are met on the way to a token stand one after the other between the place where
the way starts and the token. Where a token starts, no comment does.
-/

namespace OptionalChain

namespace Comment

/-- The comments stand one after the other, between `lo` and `hi`. -/
structure InOrder (lo hi : Nat) (ms : List Comment) : Prop where
  bounds : ∀ m ∈ ms, lo ≤ m.span.lo ∧ m.span.lo ≤ m.span.hi ∧ m.span.hi ≤ hi
  sorted : ms.Pairwise (·.span.hi ≤ ·.span.lo)

/-- The offset is inside none of the comments. -/
def Outside (ms : List Comment) (pos : Nat) : Prop :=
  ∀ m ∈ ms, m.span.hi ≤ pos ∨ pos ≤ m.span.lo

variable {lo mid hi lo' hi' pos : Nat} {ms ns : List Comment}

theorem inOrder_nil : InOrder lo hi [] :=
  ⟨fun _ hm ↦ (List.not_mem_nil hm).elim, .nil⟩

theorem InOrder.mono (h : InOrder lo hi ms) (hlo : lo' ≤ lo) (hhi : hi ≤ hi') :
    InOrder lo' hi' ms where
  bounds m hm := by
    have hbounds := h.bounds m hm
    omega
  sorted := h.sorted

theorem InOrder.append (h : InOrder lo mid ms) (h' : InOrder mid hi ns) (hlo : lo ≤ mid)
    (hhi : mid ≤ hi) : InOrder lo hi (ms ++ ns) where
  bounds m hm := by
    obtain hm | hm := List.mem_append.1 hm
    · exact (h.mono (Nat.le_refl _) hhi).bounds m hm
    · exact (h'.mono hlo (Nat.le_refl _)).bounds m hm
  sorted := by
    refine List.pairwise_append.2 ⟨h.sorted, h'.sorted, fun m hm n hn ↦ ?_⟩
    exact Nat.le_trans (h.bounds m hm).2.2 (h'.bounds n hn).1

theorem inOrder_singleton {style : CommentStyle} (h : lo ≤ hi) :
    InOrder lo hi [⟨style, ⟨lo, hi⟩⟩] where
  bounds m hm := by
    rw [List.mem_singleton.1 hm]
    exact ⟨Nat.le_refl _, h, Nat.le_refl _⟩
  sorted := List.pairwise_singleton _ _

theorem InOrder.outside_hi (h : InOrder lo hi ms) (hle : hi ≤ pos) : Outside ms pos :=
  fun m hm ↦ .inl (Nat.le_trans (h.bounds m hm).2.2 hle)

theorem InOrder.outside_lo (h : InOrder lo hi ms) (hle : pos ≤ lo) : Outside ms pos :=
  fun m hm ↦ .inr (Nat.le_trans hle (h.bounds m hm).1)

theorem Outside.append (h : Outside ms pos) (h' : Outside ns pos) : Outside (ms ++ ns) pos :=
  fun m hm ↦ (List.mem_append.1 hm).elim (h m) (h' m)

theorem outside_zero (ms : List Comment) : Outside ms 0 :=
  fun _ _ ↦ .inr (Nat.zero_le _)

end Comment

namespace Token

open Comment (InOrder)

variable {cs : List Char} {pos : Nat}

/-- Where the comments that were met end: at the place that is reached, or where the open comment
started. -/
def SkipMode.bound (pos : Nat) : SkipMode → Nat
  | .blanks => pos
  | .lineComment lo => lo
  | .blockComment lo _ => lo

theorem inOrder_closing {start lo : Nat} {g : Gap} {style : CommentStyle}
    (h : InOrder start lo g.comments) (hstart : start ≤ lo) (hlo : lo ≤ g.pos) :
    InOrder start g.pos (g.closing style lo).comments :=
  h.append (Comment.inOrder_singleton hlo) hstart hlo

theorem Gap.inOrder_settled {start : Nat} {g : Gap} (h : InOrder start g.pos g.comments) :
    InOrder start { g.settled with rest := cs }.pos { g.settled with rest := cs }.comments := by
  change InOrder start g.settled.pos g.settled.comments
  rwa [Gap.settled_pos, Gap.settled_comments]

theorem skipFrom_inOrder {start : Nat} (mode : SkipMode) (g : Gap) (cs : List Char)
    (hstart : start ≤ mode.bound g.pos) (hpos : mode.bound g.pos ≤ g.pos)
    (h : InOrder start (mode.bound g.pos) g.comments) :
    InOrder start (skipFrom mode g cs).pos (skipFrom mode g cs).comments := by
  fun_induction skipFrom mode g cs with
  | case1 g => exact Gap.inOrder_settled h
  | case2 lo g =>
    exact Gap.inOrder_settled (g := g.closing .line lo) (inOrder_closing h hstart hpos)
  | case3 lo star g =>
    exact Gap.inOrder_settled
      (g := { g with faults := g.faults ++ [⟨⟨g.pos, g.pos⟩, .unterminatedComment⟩] })
      (h.mono (Nat.le_refl _) hpos)
  | case4 g cs ih => exact ih hstart (Nat.le_add_right _ _) h
  | case5 g cs ih => exact ih hstart (Nat.le_add_right _ _) h
  | case6 g cs ih =>
    refine ih (Nat.le_trans hstart (Nat.le_add_right _ _)) ?_ ?_
    · simp [SkipMode.bound, Gap.pastOpening]
    · have hcomments : g.pastOpening.comments = g.comments := by simp [Gap.pastOpening]
      exact hcomments ▸ h.mono (Nat.le_refl _) (Nat.le_add_right _ _)
  | case7 g cs hfirst ih =>
    refine ih (Nat.le_trans hstart (Nat.le_add_right _ _)) ?_ ?_
    · simp [SkipMode.bound, Gap.pastClosing]
    · have hcomments : g.pastClosing.comments = g.comments := by simp [Gap.pastClosing]
      exact hcomments ▸ h.mono (Nat.le_refl _) (Nat.le_add_right _ _)
  | case8 g cs hfirst => exact Gap.inOrder_settled h
  | case9 g c cs _ _ _ _ hspace ih =>
    have hle : g.pos ≤ (g.past c).pos := Nat.le_add_right _ _
    exact ih (Nat.le_trans hstart hle) (Nat.le_refl _) (h.mono (Nat.le_refl _) hle)
  | case10 g c cs _ _ _ _ hspace => exact Gap.inOrder_settled h
  | case11 lo g c cs hend ih =>
    have hle : g.pos ≤ ((g.closing .line lo).past c).pos := Nat.le_add_right _ _
    refine ih (Nat.le_trans hstart (Nat.le_trans hpos hle)) (Nat.le_refl _) ?_
    exact (inOrder_closing h hstart hpos).mono (Nat.le_refl _) hle
  | case12 lo g c cs hend ih => exact ih hstart (Nat.le_trans hpos (Nat.le_add_right _ _)) h
  | case13 lo star g c cs hclose ih =>
    have hle : lo ≤ (g.past c).pos := Nat.le_trans hpos (Nat.le_add_right _ _)
    refine ih (Nat.le_trans hstart hle) (Nat.le_refl _) ?_
    exact inOrder_closing (g := g.past c) h hstart hle
  | case14 lo star g c cs hclose ih => exact ih hstart (Nat.le_trans hpos (Nat.le_add_right _ _)) h

/-- What is skipped before a token holds its comments in order. -/
theorem skip_inOrder (pos : Nat) (cs : List Char) :
    InOrder pos (skip pos cs).pos (skip pos cs).comments :=
  skipFrom_inOrder .blanks { rest := cs, pos, first := pos == 0 } cs (Nat.le_refl _) (Nat.le_refl _)
    Comment.inOrder_nil

/-! ## Where a token starts -/

theorem skip_nil_comments (pos : Nat) : (skip pos []).comments = [] := rfl

/-- An arrow `-->` is no comment on the line of what stands before it. -/
theorem comments_skip_arrow (h : (pos == 0) = false) (cs : List Char) :
    (skip pos ('-' :: '-' :: '>' :: cs)).comments = [] := by
  have hstop : skip pos ('-' :: '-' :: '>' :: cs) =
      { rest := '-' :: '-' :: '>' :: cs, pos, first := pos == 0 } := if_neg (by simp [h])
  rw [hstop]

/-- No comment starts where skipping ends. -/
theorem comments_skip_skipFrom (mode : SkipMode) (g : Gap) (cs : List Char)
    (hfirst : g.pos = 0 → g.first = true) :
    (skip (skipFrom mode g cs).pos (skipFrom mode g cs).rest).comments = [] := by
  fun_induction skipFrom mode g cs with
  | case1 | case2 | case3 => exact skip_nil_comments _
  | case4 g cs ih => exact ih fun h ↦ absurd h (Nat.succ_ne_zero _)
  | case5 g cs ih => exact ih fun h ↦ absurd h (Nat.succ_ne_zero _)
  | case6 g cs ih => exact ih fun h ↦ absurd h (Nat.succ_ne_zero _)
  | case7 g cs _ ih => exact ih fun h ↦ absurd h (by simp [Gap.pastClosing])
  | case8 g cs hline =>
    -- What was no comment before is none now: the text does not start here.
    have hpos : g.pos ≠ 0 := fun h ↦ hline (by simp [hfirst h])
    have hsettled : (g.settled.pos == 0) = false := by simpa using hpos
    exact comments_skip_arrow hsettled cs
  | case9 g c cs _ _ _ _ _ ih =>
    have hsize := c.utf8Size_pos
    exact ih fun h ↦ absurd h (by simp [Gap.past]; omega)
  | case10 g c cs _ _ _ _ hspace =>
    have hstop (k : Gap) : (skipFrom .blanks k (c :: cs)).comments = k.settled.comments := by
      rw [skipFrom.eq_def]
      split
      all_goals simp_all
    exact (hstop _).trans (Gap.settled_comments _)
  | case11 lo g c cs _ ih =>
    have hsize := c.utf8Size_pos
    exact ih fun h ↦ absurd h (by simp [Gap.past]; omega)
  | case12 lo g c cs _ ih =>
    have hsize := c.utf8Size_pos
    exact ih fun h ↦ absurd h (by simp [Gap.past]; omega)
  | case13 lo star g c cs _ ih =>
    have hsize := c.utf8Size_pos
    exact ih fun h ↦ absurd h (by simp [Gap.past, Gap.closing]; omega)
  | case14 lo star g c cs _ ih =>
    have hsize := c.utf8Size_pos
    exact ih fun h ↦ absurd h (by simp [Gap.past]; omega)

theorem comments_skip_skip (pos : Nat) (cs : List Char) :
    (skip (skip pos cs).pos (skip pos cs).rest).comments = [] :=
  comments_skip_skipFrom .blanks { rest := cs, pos, first := pos == 0 } cs fun h ↦ by
    simpa using h

end Token

end OptionalChain
