import OptionalChain.Proofs.Placement.Scan

/-!
# Gaps between tokens

What is skipped between two tokens is skipped whatever token follows, and a line ends in the gap
exactly if the skipped text has a line end. A comment is skipped as a whole.
-/

namespace OptionalChain.Token

variable {mode mode' : SkipMode} {g g' g'' : Gap} {w v cs rest : List Char} {c : Char}

@[simp] theorem Gap.newline_settled (g : Gap) : g.settled.newline = g.newline := by
  unfold settled
  split <;> rfl

theorem Gap.settled_rest (g : Gap) (rest : List Char) :
    { g with rest }.settled = { g.settled with rest } := by
  cases hlegacy : g.legacy? <;> simp [settled, hlegacy]

theorem Gap.pastOpening_rest (g : Gap) (rest : List Char) :
    { g with rest }.pastOpening = { g.pastOpening with rest } := by
  simp [pastOpening, settled_rest]

theorem Gap.pastClosing_rest (g : Gap) (rest : List Char) :
    { g with rest }.pastClosing = { g.pastClosing with rest } := by
  simp [pastClosing, settled_rest]

/-- From the mode and gap on, the text is skipped, whatever follows it. -/
def Skipped (mode : SkipMode) (g : Gap) (w : List Char) (g' : Gap) : Prop :=
  ∀ rest, skipFrom mode g (w ++ rest) = skipFrom .blanks g' rest

theorem Skipped.append (h : Skipped mode g w g') (h' : Skipped .blanks g' v g'') :
    Skipped mode g (w ++ v) g'' := by
  intro rest
  rw [List.append_assoc, h, h']

theorem skipFrom_space (hc : isSpace c = true) (g : Gap) (cs : List Char) :
    skipFrom .blanks g (c :: cs) = skipFrom .blanks (g.past c) cs := by
  have hslash : c ≠ '/' := by rintro rfl; revert hc; decide
  have hless : c ≠ '<' := by rintro rfl; revert hc; decide
  have hminus : c ≠ '-' := by rintro rfl; revert hc; decide
  rw [skipFrom.eq_def]
  split
  all_goals simp_all

/-- The character starts a token, whatever follows it. -/
def startsToken (c : Char) : Bool :=
  !isSpace c && c != '/' && c != '<' && c != '-'

theorem skipFrom_of_startsToken (h : startsToken c = true) (g : Gap) (cs : List Char) :
    skipFrom .blanks g (c :: cs) = { g.settled with rest := c :: cs } := by
  obtain ⟨⟨⟨hspace, hslash⟩, hless⟩, hminus⟩ :
      ((isSpace c = false ∧ c ≠ '/') ∧ c ≠ '<') ∧ c ≠ '-' := by simpa [startsToken] using h
  rw [skipFrom.eq_def]
  split
  all_goals simp_all

theorem newline_skipFrom_of_startsToken (h : startsToken c = true) (g : Gap) (cs : List Char) :
    (skipFrom .blanks g (c :: cs)).newline = g.newline := by
  rw [skipFrom_of_startsToken h]
  exact g.newline_settled

/-! ## Skipped text -/

/-- What skipping from the mode and gap on does to the text: it takes a piece off, which it takes
off before any other token too. -/
def Takes (mode : SkipMode) (g : Gap) (cs : List Char) (r : Gap) : Prop :=
  ∃ w, cs = w ++ r.rest ∧ r.newline = (g.newline || w.any isLineEnd) ∧
    (r.rest ≠ [] → ∃ g', Skipped mode g w g' ∧ g'.newline = (g.newline || w.any isLineEnd))

/-- Where the text ends, or a token starts. -/
theorem takes_nothing (hrest : g'.rest = cs) (hline : g'.newline = g.newline)
    (hmode : cs ≠ [] → mode = .blanks) : Takes mode g cs g' := by
  refine ⟨[], by rw [hrest]; rfl, by simp [hline], fun hne ↦ ⟨g, fun rest ↦ ?_, by simp⟩⟩
  rw [hmode (hrest ▸ hne)]
  rfl

/-- A few characters are taken off first. -/
theorem Takes.step (h : Takes mode' g' cs g'')
    (hstep : ∀ cs, skipFrom mode g (v ++ cs) = skipFrom mode' g' cs)
    (hline : g'.newline = (g.newline || v.any isLineEnd)) : Takes mode g (v ++ cs) g'' := by
  obtain ⟨w, hcs, hnewline, hskipped⟩ := h
  have hany : (g'.newline || w.any isLineEnd) = (g.newline || (v ++ w).any isLineEnd) := by
    rw [hline, List.any_append, Bool.or_assoc]
  refine ⟨v ++ w, by rw [List.append_assoc, ← hcs], by rw [hnewline, hany], fun hne ↦ ?_⟩
  obtain ⟨k, hk, hkline⟩ := hskipped hne
  refine ⟨k, fun rest ↦ ?_, by rw [hkline, hany]⟩
  rw [List.append_assoc, hstep, hk]

theorem takes_skipFrom (mode : SkipMode) (g : Gap) (cs : List Char) :
    Takes mode g cs (skipFrom mode g cs) := by
  -- The cases of the recursion: the text ends, a comment is opened, a character is taken off, or a
  -- token starts.
  fun_induction skipFrom mode g cs with
  | case1 g => exact takes_nothing rfl (Gap.newline_settled _) fun hne ↦ absurd rfl hne
  | case2 lo g => exact takes_nothing rfl (Gap.newline_settled _) fun hne ↦ absurd rfl hne
  | case3 lo star g => exact takes_nothing rfl (Gap.newline_settled _) fun hne ↦ absurd rfl hne
  | case4 g cs ih => exact ih.step (v := ['/', '/']) (fun _ ↦ rfl) (by simp [isLineEnd])
  | case5 g cs ih => exact ih.step (v := ['/', '*']) (fun _ ↦ rfl) (by simp [isLineEnd])
  | case6 g cs ih =>
    exact ih.step (v := ['<', '!', '-', '-']) (fun _ ↦ rfl) (by simp [isLineEnd, Gap.pastOpening])
  | case7 g cs hfirst ih =>
    refine ih.step (v := ['-', '-', '>']) (fun cs ↦ ?_) (by simp [isLineEnd, Gap.pastClosing])
    exact if_pos hfirst
  | case8 g cs hfirst => exact takes_nothing rfl (Gap.newline_settled _) fun _ ↦ rfl
  | case9 g c cs _ _ _ _ hspace ih =>
    exact ih.step (v := [c]) (skipFrom_space hspace g) (by simp [Gap.past])
  | case10 g c cs => exact takes_nothing rfl (Gap.newline_settled _) fun _ ↦ rfl
  | case11 lo g c cs hend ih =>
    exact ih.step (v := [c]) (fun _ ↦ if_pos hend) (by simp [Gap.past, Gap.closing])
  | case12 lo g c cs hend ih =>
    exact ih.step (v := [c]) (fun _ ↦ if_neg hend) (by simp [Gap.past])
  | case13 lo star g c cs hclose ih =>
    exact ih.step (v := [c]) (fun _ ↦ if_pos hclose) (by simp [Gap.past, Gap.closing])
  | case14 lo star g c cs hclose ih =>
    exact ih.step (v := [c]) (fun _ ↦ if_neg hclose) (by simp [Gap.past])

/-- The text that a gap goes on with is put in where the skipping ends. -/
theorem skipFrom_rest (mode : SkipMode) (g : Gap) (cs rest : List Char) :
    skipFrom mode { g with rest } cs = skipFrom mode g cs := by
  have hsettled (g : Gap) (cs : List Char) :
      { { g with rest }.settled with rest := cs } = { g.settled with rest := cs } :=
    congrArg (fun k : Gap ↦ { k with rest := cs }) (g.settled_rest rest)
  fun_induction skipFrom mode g cs with
  | case1 g => exact hsettled g []
  | case2 lo g => exact hsettled (g.closing .line lo) []
  | case3 lo star g =>
    exact hsettled { g with faults := g.faults ++ [⟨⟨g.pos, g.pos⟩, .unterminatedComment⟩] } []
  | case8 g cs hfirst => exact (if_neg hfirst).trans (hsettled g _)
  | case10 g c cs _ _ _ _ hspace =>
    refine Eq.trans ?_ (hsettled g (c :: cs))
    rw [skipFrom.eq_def]
    split
    all_goals simp_all
  | case4 g cs ih => exact ih
  | case5 g cs ih => exact ih
  | case6 g cs ih =>
    change skipFrom _ ({ g with rest }).pastOpening cs = _
    rw [Gap.pastOpening_rest, ih]
  | case7 g cs hfirst ih =>
    rw [← ih, ← Gap.pastClosing_rest]
    exact if_pos hfirst
  | case9 g c cs _ _ _ _ hspace ih => exact (skipFrom_space hspace _ cs).trans ih
  | case11 lo g c cs hend ih => exact (if_pos hend).trans ih
  | case12 lo g c cs hend ih => exact (if_neg hend).trans ih
  | case13 lo star g c cs hclose ih => exact (if_pos hclose).trans ih
  | case14 lo star g c cs hclose ih => exact (if_neg hclose).trans ih

/-- The text between a place and the next token is skipped there before any other text. -/
theorem exists_skipped {pos : Nat} (h : (skip pos cs).rest ≠ []) :
    ∃ w, cs = w ++ (skip pos cs).rest ∧ (skip pos cs).newline = w.any isLineEnd ∧
      ∃ g, (∀ ds, skip pos (w ++ ds) = skipFrom .blanks g ds) ∧ g.newline = w.any isLineEnd := by
  obtain ⟨w, hcs, hline, hskipped⟩ :=
    takes_skipFrom .blanks { rest := cs, pos, first := pos == 0 } cs
  obtain ⟨g, hg, hgline⟩ := hskipped h
  rw [Bool.false_or] at hline hgline
  refine ⟨w, hcs, hline, g, fun ds ↦ ?_, hgline⟩
  rw [← hg]
  exact skipFrom_rest .blanks { rest := cs, pos, first := pos == 0 } (w ++ ds) (w ++ ds)

/-! ## Comments -/

/-- A comment that stays on its line is skipped with the end of the line. -/
theorem exists_skipped_line (h : w.all (!isLineEnd ·) = true) (hc : isLineEnd c = true) (lo : Nat)
    (g : Gap) : ∃ g', Skipped (.lineComment lo) g (w ++ [c]) g' ∧ g'.newline = true := by
  induction w generalizing g with
  | nil => exact ⟨(g.closing .line lo).past c, fun _ ↦ if_pos hc, by simp [Gap.past, hc]⟩
  | cons a w ih =>
    obtain ⟨ha, hw⟩ : isLineEnd a = false ∧ w.all (!isLineEnd ·) = true := by simpa using h
    obtain ⟨g', hg', hline⟩ := ih hw (g.past a)
    refine ⟨g', fun rest ↦ ?_, hline⟩
    rw [← hg']
    exact if_neg (by simp [ha])

/-- A block comment is skipped up to where it is closed. -/
theorem exists_skipped_block {star : Bool} (h : Comment.closesBlock star w = true) (lo : Nat)
    (g : Gap) : ∃ g', Skipped (.blockComment lo star) g w g' ∧
      g'.newline = (g.newline || w.any isLineEnd) := by
  induction w generalizing star g with
  | nil => cases h
  | cons a w ih =>
    rw [Comment.closesBlock] at h
    split at h
    · rename_i hclose
      obtain rfl : w = [] := by simpa using h
      exact ⟨(g.past a).closing .block lo, fun _ ↦ if_pos hclose, by simp [Gap.past, Gap.closing]⟩
    · rename_i hclose
      obtain ⟨g', hg', hline⟩ := ih h (g.past a)
      refine ⟨g', fun rest ↦ ?_, by simp [hline, Gap.past, Bool.or_assoc]⟩
      rw [← hg']
      exact if_neg hclose

end OptionalChain.Token
