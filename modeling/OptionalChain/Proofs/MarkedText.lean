import OptionalChain.Proofs.StepTokens

/-!
# The text with its markers

What is kept of a chain is the text of its last operand with markers put in. The markers cut this
text into pieces, in the order of the guards, and none of them is left out. Where the tokens of the
steps are found, each marker stands right before the token of its step, and every step at which a
guard ends is optional afterwards.
-/

namespace OptionalChain

open Text (At Boundary)

/-! ## Text with insertions -/

namespace Text

variable {text : List Char} {lo hi : Nat}

/-- What is cut out has the size between its ends. -/
theorem Boundary.size_slice (hlo : Boundary text lo) (hhi : Boundary text hi) (h : lo ≤ hi) :
    lo + size (slice lo hi text) = hi := by
  obtain ⟨piece, rest, hat, rfl⟩ := hlo.exists_piece hhi h
  rw [slice_of_slice? hat.slice?]

/-- The text from an offset on starts with what is cut out there. -/
theorem Boundary.at_slice (hlo : Boundary text lo) (hhi : Boundary text hi) (h : lo ≤ hi) :
    ∃ rest, At text lo (slice lo hi text ++ rest) ∧ At text hi rest := by
  obtain ⟨piece, rest, hat, rfl⟩ := hlo.exists_piece hhi h
  rw [slice_of_slice? hat.slice?]
  exact ⟨rest, hat, hat.append⟩

end Text

namespace Insertion

variable {text : List Char} {lo mid hi : Nat} {i : Insertion} {xs ys : List Insertion}

/-- The insertions are to be made in this order between two offsets. -/
structure Between (text : List Char) (start stop : Nat) (xs : List Insertion) : Prop where
  lo : Boundary text start
  hi : Boundary text stop
  le : start ≤ stop
  boundary : ∀ i ∈ xs, Boundary text i.offset
  bounds : ∀ i ∈ xs, start ≤ i.offset ∧ i.offset ≤ stop
  sorted : xs.Pairwise (·.offset ≤ ·.offset)

theorem Between.tail (h : Between text lo hi (i :: xs)) : Between text i.offset hi xs where
  lo := h.boundary i List.mem_cons_self
  hi := h.hi
  le := (h.bounds i List.mem_cons_self).2
  boundary j hj := h.boundary j (List.mem_cons_of_mem i hj)
  bounds j hj := ⟨(List.pairwise_cons.1 h.sorted).1 j hj,
    (h.bounds j (List.mem_cons_of_mem i hj)).2⟩
  sorted := (List.pairwise_cons.1 h.sorted).2

/-- None of the insertions is left out. -/
theorem Between.spliceFrom_cons (h : Between text lo hi (i :: xs)) :
    spliceFrom text hi lo (i :: xs) =
      Text.slice lo i.offset text ++ i.text ++ spliceFrom text hi i.offset xs := by
  have hi := h.bounds i List.mem_cons_self
  rw [spliceFrom, if_neg (by omega)]

/-- The text is cut into pieces, with each insertion before the piece that starts at its offset. -/
theorem Between.exists_pieces (h : Between text lo hi xs) :
    ∃ (first : List Char) (pieces : List (Insertion × List Char)), pieces.map Prod.fst = xs ∧
      Text.slice lo hi text = first ++ pieces.flatMap Prod.snd ∧
      spliceFrom text hi lo xs = first ++ pieces.flatMap (fun p ↦ p.1.text ++ p.2) ∧
      ∀ before p after, pieces = before ++ p :: after →
        p.1.offset = lo + Text.size (first ++ before.flatMap Prod.snd) := by
  induction xs generalizing lo with
  | nil => exact ⟨Text.slice lo hi text, [], rfl, by simp, by simp [spliceFrom], by simp⟩
  | cons i xs ih =>
    obtain ⟨first, pieces, hmap, hslice, hsplice, hoffsets⟩ := ih h.tail
    have hcut := h.boundary i List.mem_cons_self
    obtain ⟨hlo, hhi⟩ := h.bounds i List.mem_cons_self
    have hsize := h.lo.size_slice hcut hlo
    refine ⟨Text.slice lo i.offset text, (i, first) :: pieces, by rw [List.map_cons, hmap], ?_, ?_,
      fun before p after heq ↦ ?_⟩
    · rw [h.lo.slice_append hcut h.hi hlo hhi, hslice, List.flatMap_cons]
    · rw [h.spliceFrom_cons, hsplice, List.flatMap_cons]
      simp only [List.append_assoc]
    · cases before with
      | nil =>
        obtain ⟨rfl, -⟩ := List.cons.inj heq
        simpa using hsize.symm
      | cons q before =>
        obtain ⟨rfl, hrest⟩ := List.cons.inj heq
        have hoffset := hoffsets before p after hrest
        rw [Text.size_append] at hoffset
        rw [List.flatMap_cons, Text.size_append, Text.size_append]
        dsimp only
        omega

/-- Insertions before and after an offset are made on their sides of it. -/
theorem Between.spliceFrom_append (h : Between text lo mid xs) (h' : Between text mid hi ys) :
    spliceFrom text hi lo (xs ++ ys) = spliceFrom text mid lo xs ++ spliceFrom text hi mid ys := by
  induction xs generalizing lo with
  | nil =>
    cases ys with
    | nil => exact h.lo.slice_append h.hi h'.hi h.le h'.le
    | cons j ys =>
      have hj := h'.bounds j List.mem_cons_self
      have hle := h.le
      rw [List.nil_append, h'.spliceFrom_cons, spliceFrom, spliceFrom, if_neg (by omega),
        h.lo.slice_append h.hi (h'.boundary j List.mem_cons_self) h.le hj.1]
      simp only [List.append_assoc]
  | cons i xs ih =>
    have hi := h.bounds i List.mem_cons_self
    have hle := h'.le
    rw [List.cons_append, h.spliceFrom_cons, spliceFrom, if_neg (by omega), ih h.tail]
    simp only [List.append_assoc]

/-- What stands before all insertions stays as it is. -/
theorem Between.spliceFrom_of_at {piece rest : List Char}
    (h : Between text (lo + Text.size piece) hi xs) (hat : At text lo (piece ++ rest)) :
    spliceFrom text hi lo xs = piece ++ spliceFrom text hi (lo + Text.size piece) xs := by
  have hnone : Between text lo (lo + Text.size piece) [] :=
    { lo := hat.boundary
      hi := h.lo
      le := Nat.le_add_right _ _
      boundary := List.forall_mem_nil _
      bounds := List.forall_mem_nil _
      sorted := .nil }
  rw [← List.nil_append xs, hnone.spliceFrom_append h, spliceFrom, Text.slice_of_slice? hat.slice?,
    List.nil_append]

end Insertion

/-! ## The markers of a chain -/

namespace Step

/-- The marker of a step, to be put in. -/
def mark (s : Step) : Insertion :=
  ⟨s.insertAt, s.marker⟩

/-- The markers of those steps that are not optional. -/
def marks (steps : List Step) : List Insertion :=
  (steps.filter (!·.optional)).map mark

theorem marks_append (ss ts : List Step) : marks (ss ++ ts) = marks ss ++ marks ts := by
  simp [marks]

theorem mem_marks {i : Insertion} {steps : List Step} :
    i ∈ marks steps ↔ ∃ s ∈ steps, s.optional = false ∧ s.mark = i := by
  simp [marks, and_assoc]

/-- The steps are taken one after the other between two offsets. -/
structure InRow (f : SourceFile) (lo hi : Nat) (steps : List Step) : Prop where
  laysOut : ∀ s ∈ steps, f.LaysOut s.expr
  isOf : ∀ s ∈ steps, s.IsOf f
  bounds : ∀ s ∈ steps, lo ≤ s.start ∧ s.expr.span.hi ≤ hi
  order : steps.Pairwise fun s t ↦ s.expr.span.hi ≤ t.start

variable {f : SourceFile} {lo hi : Nat} {s : Step} {ss ts : List Step}

theorem InRow.insertAt_bounds (h : InRow f lo hi ss) (hs : s ∈ ss) :
    s.start ≤ s.insertAt ∧ s.insertAt ≤ s.expr.span.hi :=
  (h.isOf s hs).bounds (h.laysOut s hs)

/-- The markers of such steps are to be put in in this order. -/
theorem InRow.between (h : InRow f lo hi ss) (hlo : Boundary f.text lo) (hhi : Boundary f.text hi)
    (hle : lo ≤ hi) : Insertion.Between f.text lo hi (marks ss) where
  lo := hlo
  hi := hhi
  le := hle
  boundary i hi := by
    obtain ⟨s, hs, -, rfl⟩ := mem_marks.1 hi
    exact (h.isOf s hs).boundary (h.laysOut s hs)
  bounds i hi := by
    obtain ⟨s, hs, -, rfl⟩ := mem_marks.1 hi
    have hinsert := h.insertAt_bounds hs
    have hbounds := h.bounds s hs
    change lo ≤ s.insertAt ∧ s.insertAt ≤ _
    omega
  sorted := by
    refine List.pairwise_map.2 (List.Pairwise.filter _ ?_)
    refine h.order.imp_of_mem fun {s t} hs ht hst ↦ ?_
    have hsInsert := h.insertAt_bounds hs
    have htInsert := h.insertAt_bounds ht
    change s.insertAt ≤ t.insertAt
    omega

end Step

/-! ## Chains in a program -/

namespace Chain

variable {f : SourceFile} {x : Chain}

theorem mem_steps_of_mem_boundaries {s : Step} (h : s ∈ x.boundaries) :
    s ∈ x.terminalPath.steps := by
  obtain ⟨g, -, hg⟩ := List.mem_filterMap.1 h
  exact List.mem_of_getElem? hg

/-- The steps where the guards end come in the order of the path, since the guards get deeper. -/
theorem pairwise_boundaries {R : Step → Step → Prop}
    (hdeepens : (x.guards ++ [x.terminalPath]).IsChain fun p q ↦ p.leadsStrictly q = true)
    (h : x.terminalPath.steps.Pairwise R) : x.boundaries.Pairwise R := by
  have hguards : x.guards.Pairwise fun p q ↦ p.leadsStrictly q = true :=
    (List.pairwise_append.1 (AccessPath.pairwise_leadsStrictly id hdeepens)).1
  refine List.pairwise_filterMap.2 (hguards.imp fun {p q} hpq s hs t ht ↦ ?_)
  obtain ⟨hp, rfl⟩ := List.getElem?_eq_some_iff.1 hs
  obtain ⟨hq, rfl⟩ := List.getElem?_eq_some_iff.1 ht
  exact List.pairwise_iff_getElem.1 h _ _ hp hq (AccessPath.leadsStrictly_iff.1 hpq).1

/-- The markers are put in in the order of the guards. -/
theorem insertions_eq_marks (h : (Step.marks x.boundaries).Pairwise (·.offset ≤ ·.offset)) :
    x.insertions = Step.marks x.boundaries :=
  List.mergeSort_of_pairwise (h.imp fun hij ↦ decide_eq_true hij)

end Chain

/-! ## Reading what was marked -/

namespace Token

variable {text w r cs : List Char} {pos : Nat}

theorem lexeme_questionDot (h : r.head?.any Char.isDigit = false) :
    lexeme ('?' :: '.' :: r) = ⟨.punct .questionDot, 2, []⟩ := by
  have hpunct : punctuator? ('?' :: '.' :: r) = some (.questionDot, 2) := by
    simp [punctuator?, punctuators, h]
  rw [lexeme_cons, hpunct]
  rfl

theorem exists_of_lexeme_questionDot (h : (lexeme cs).form = .punct .questionDot) :
    ∃ r, cs = '?' :: '.' :: r ∧ r.head?.any Char.isDigit = false := by
  have hmark : (lexeme cs).form.isMark = true := by rw [h]; rfl
  obtain ⟨-, hend⟩ | heq | ⟨p, n, hp, heq⟩ := lexeme_eq_mark hmark
  · rw [h] at hend
    cases hend
  · rw [heq] at h
    cases h
  · rw [heq] at h
    cases h
    obtain ⟨⟨t, q⟩, hfind, hpair⟩ := Option.map_eq_some_iff.1 hp
    have hstart := List.find?_some hfind
    obtain ⟨r, rfl⟩ := List.isPrefixOf_iff_prefix.1 hstart
    have hmem := List.mem_of_find?_eq_some hfind
    have honly : ∀ e ∈ punctuators, e.2 = .questionDot → e.1 = ['?', '.'] := by decide
    dsimp only at hpair
    split at hpair
    · cases hpair
    · rename_i hdigit
      cases hpair
      obtain rfl : t = ['?', '.'] := honly _ hmem rfl
      exact ⟨r, rfl, by simpa using hdigit⟩

theorem exists_of_lexeme_dot (h : (lexeme cs).form = .punct .dot) :
    ∃ r, cs = '.' :: r ∧ r.head?.any Char.isDigit = false := by
  have hhead : cs.head? = some '.' := head?_of_punct h (by decide) (by decide)
  obtain ⟨r, rfl⟩ := List.head?_eq_some_iff.1 hhead
  refine ⟨r, rfl, eq_false_of_ne_true fun hdigit ↦ ?_⟩
  have hnumber := isValue_numberLexeme ('.' :: r)
  rw [lexeme_cons, if_neg (by decide), if_pos (by simp [hdigit])] at h
  rw [h] at hnumber
  cases hnumber

/-- Behind what is skipped, `?.` is read where no digit follows. -/
theorem scan_questionDot (hw : Passes .blanks w) (h : r.head?.any Char.isDigit = false)
    (pos : Nat) : (scan pos (w ++ '?' :: '.' :: r)).token.form = .punct .questionDot := by
  obtain ⟨g, hg⟩ := hw 0 { rest := w ++ '?' :: '.' :: r, pos, first := pos == 0 }
  have hrest : (skip pos (w ++ '?' :: '.' :: r)).rest = '?' :: '.' :: r := by
    rw [skip]
    exact congrArg Gap.rest ((hg ('?' :: '.' :: r)).trans (skipFrom_of_startsToken (by decide) g _))
  change placed _ (lexeme (skip pos (w ++ '?' :: '.' :: r)).rest).form = _
  rw [hrest, lexeme_questionDot h]
  rfl

end Token

/-- What follows an offset does not start with a digit because markers are put in. -/
theorem Insertion.Between.isDigit_head {text cs tail : List Char} {lo hi : Nat}
    {xs : List Insertion} (h : Between text lo hi xs) (hmarks : ∀ i ∈ xs, i.text.head? = some '?')
    (hat : At text lo cs) (htail : At text hi tail) (hcs : cs.head?.any Char.isDigit = false) :
    (spliceFrom text hi lo xs ++ tail).head?.any Char.isDigit = false := by
  cases xs with
  | nil =>
    obtain ⟨rest, hcut, hrest⟩ := h.lo.at_slice h.hi h.le
    rwa [spliceFrom, ← hrest.unique htail, hcut.unique hat]
  | cons i xs =>
    obtain ⟨rest, hcut, -⟩ := h.lo.at_slice (h.boundary i List.mem_cons_self)
      (h.bounds i List.mem_cons_self).1
    rw [h.spliceFrom_cons]
    cases hpiece : Text.slice lo i.offset text with
    | nil =>
      obtain ⟨w, hw⟩ := List.head?_eq_some_iff.1 (hmarks i List.mem_cons_self)
      rw [hw]
      rfl
    | cons c piece =>
      rw [hpiece] at hcut
      rw [← hcut.unique hat] at hcs
      exact hcs

namespace Step

variable {f : SourceFile} {lo lo' hi : Nat} {s : Step} {ss ts : List Step}

theorem head?_marker (s : Step) : s.marker.head? = some '?' := by
  unfold marker
  split <;> rfl

theorem head?_of_mem_marks : ∀ i ∈ marks ss, i.text.head? = some '?' := by
  intro i hi
  obtain ⟨s, -, -, rfl⟩ := mem_marks.1 hi
  exact s.head?_marker

/-- The steps after one that ends no earlier than the offset. -/
theorem InRow.tail (h : InRow f lo hi (s :: ss)) (hlo : lo' ≤ s.expr.span.hi) :
    InRow f lo' hi ss where
  laysOut t ht := h.laysOut t (List.mem_cons_of_mem s ht)
  isOf t ht := h.isOf t (List.mem_cons_of_mem s ht)
  bounds t ht := ⟨Nat.le_trans hlo ((List.pairwise_cons.1 h.order).1 t ht),
    (h.bounds t (List.mem_cons_of_mem s ht)).2⟩
  order := (List.pairwise_cons.1 h.order).2

theorem InRow.from_start (h : InRow f lo hi (s :: ss)) : InRow f s.start hi (s :: ss) where
  laysOut := h.laysOut
  isOf := h.isOf
  bounds t ht := by
    refine ⟨?_, (h.bounds t ht).2⟩
    obtain rfl | ht := List.mem_cons.1 ht
    · exact Nat.le_refl _
    · have hinsert := h.insertAt_bounds List.mem_cons_self
      have horder := (List.pairwise_cons.1 h.order).1 t ht
      omega
  order := h.order

theorem InRow.start_boundary (h : InRow f lo hi ss) (hs : s ∈ ss) : Boundary f.text s.start :=
  (h.isOf s hs).start_boundary (h.laysOut s hs)

theorem marks_cons (h : s.optional = false) (ss : List Step) :
    marks (s :: ss) = s.mark :: marks ss := by
  simp [marks, h]

variable {cs tail : List Char}

/-- An optional step stays so. -/
theorem InRow.scan_optional (h : InRow f lo hi (s :: ss))
    (hlegible : Token.Legible f.text s.start cs) (htail : At f.text hi tail)
    (hoptional : s.optional = true) (pos : Nat) :
    (Token.scan pos (spliceFrom f.text hi s.start (marks ss) ++ tail)).token.form =
      .punct .questionDot := by
  obtain ⟨hform, hend⟩ := (h.isOf s List.mem_cons_self).questionDot
    (h.laysOut s List.mem_cons_self) hlegible hoptional
  obtain ⟨w, hcs, hw, -, hlo⟩ := hlegible.exists_gap hform
  obtain ⟨r, hr, hdigit⟩ := Token.exists_of_lexeme_questionDot (Token.lexeme_of_scan hform)
  have hhi : (Token.scan s.start cs).token.span.hi = s.start + Text.size (w ++ ['?', '.']) := by
    have hscan : (Token.scan s.start cs).token.span.hi = (Token.scan s.start cs).token.span.lo +
      Text.size ((Token.skip s.start cs).rest.take
        (Token.lexeme (Token.skip s.start cs).rest).taken) := rfl
    rw [hscan, hlo, hr, Token.lexeme_questionDot hdigit, Text.size_append, Nat.add_assoc]
    rfl
  have hat : At f.text s.start ((w ++ ['?', '.']) ++ r) := by
    have hat := hlegible.at_pos
    rw [hcs, hr] at hat
    simpa using hat
  have hle := (h.bounds s List.mem_cons_self).2
  have hbetween : Insertion.Between f.text (s.start + Text.size (w ++ ['?', '.'])) hi (marks ss) :=
    (h.tail (hhi ▸ hend)).between hat.append.boundary htail.boundary (by omega)
  rw [hbetween.spliceFrom_of_at hat]
  simp only [List.append_assoc, List.cons_append, List.nil_append]
  exact Token.scan_questionDot hw
    (hbetween.isDigit_head head?_of_mem_marks hat.append htail hdigit) pos

/-- The marker of a step and the token behind it start with `?.`, and no digit follows. -/
theorem InRow.exists_questionDot (h : InRow f lo hi (s :: ss)) (hat : At f.text s.insertAt cs)
    (hopens : s.kind.OpensWith (Token.lexeme cs).form) (hend : s.insertAt < s.expr.span.hi)
    (htail : At f.text hi tail) :
    ∃ r, s.marker ++ (spliceFrom f.text hi s.insertAt (marks ss) ++ tail) = '?' :: '.' :: r ∧
      r.head?.any Char.isDigit = false := by
  have hle := (h.bounds s List.mem_cons_self).2
  have hother {c : Char} (hmarker : s.marker = ['?', '.']) (hhead : cs.head? = some c)
      (hc : c.isDigit = false) :
      ∃ r, s.marker ++ (spliceFrom f.text hi s.insertAt (marks ss) ++ tail) = '?' :: '.' :: r ∧
        r.head?.any Char.isDigit = false := by
    have hbetween := (h.tail (Nat.le_of_lt hend)).between hat.boundary htail.boundary (by omega)
    exact ⟨_, by rw [hmarker]; rfl,
      hbetween.isDigit_head head?_of_mem_marks hat htail (by rw [hhead]; exact hc)⟩
  cases hkind : s.kind with
  | member =>
    -- The marker is a question mark only: the dot is the one of the access.
    rw [hkind] at hopens
    obtain ⟨r, rfl, hdigit⟩ := Token.exists_of_lexeme_dot hopens
    have hdot : At f.text s.insertAt (['.'] ++ r) := hat
    have hbetween : Insertion.Between f.text (s.insertAt + Text.size ['.']) hi (marks ss) :=
      (h.tail hend).between hdot.append.boundary htail.boundary (Nat.le_trans hend hle)
    refine ⟨_, by rw [hbetween.spliceFrom_of_at hdot, marker, hkind]; rfl, ?_⟩
    exact hbetween.isDigit_head head?_of_mem_marks hdot.append htail hdigit
  | element =>
    rw [hkind] at hopens
    exact hother (by rw [marker, hkind])
      (Token.head?_of_punct hopens (by decide) (by decide) (c := '[')) rfl
  | call =>
    have hmarker : s.marker = ['?', '.'] := by rw [marker, hkind]
    rw [hkind] at hopens
    obtain hopens | hopens | hopens := hopens
    · exact hother hmarker (Token.head?_of_punct hopens (by decide) (by decide) (c := '(')) rfl
    · exact hother hmarker (Token.head?_of_punct hopens (by decide) (by decide) (c := '<')) rfl
    · exact hother hmarker (Token.head?_of_punct hopens (by decide) (by decide) (c := '<')) rfl

/-- Any other step becomes optional. -/
theorem InRow.scan_marked (h : InRow f lo hi (s :: ss))
    (hlegible : Token.Legible f.text s.start cs) (htail : At f.text hi tail)
    (hoptional : s.optional = false) (pos : Nat) :
    (Token.scan pos (spliceFrom f.text hi s.start (s.mark :: marks ss) ++ tail)).token.form =
      .punct .questionDot := by
  have hstarts := (h.isOf s List.mem_cons_self).startsWith (h.laysOut s List.mem_cons_self) hlegible
    hoptional
  obtain ⟨p, hform⟩ := hstarts.opens.exists_punct
  obtain ⟨w, hcs, hw, -, hlo⟩ := hlegible.exists_gap hform
  have hat : At f.text s.start (w ++ (Token.skip s.start cs).rest) := by
    have hat := hlegible.at_pos
    rwa [hcs] at hat
  have hoffset : s.insertAt = s.start + Text.size w := hstarts.lo_eq.symm.trans hlo
  have hfrom : Insertion.Between f.text s.start hi (s.mark :: marks ss) := by
    have hle := (h.bounds s List.mem_cons_self).2
    have hend := hstarts.lt_end
    rw [← marks_cons hoptional]
    exact h.from_start.between (h.start_boundary List.mem_cons_self) htail.boundary (by omega)
  have hgap : Text.slice s.start s.mark.offset f.text = w := by
    change Text.slice s.start s.insertAt f.text = w
    rw [hoffset]
    exact Text.slice_of_slice? hat.slice?
  obtain ⟨r, hr, hdigit⟩ := h.exists_questionDot (hoffset ▸ hat.append) hstarts.opens.lexeme
    hstarts.lt_end htail
  have hread := Token.scan_questionDot hw hdigit pos
  rw [← hr] at hread
  rw [hfrom.spliceFrom_cons, hgap, List.append_assoc, List.append_assoc]
  exact hread

/-- Reading on from where a step is taken, it is optional. -/
theorem InRow.scan_step (h : InRow f lo hi (s :: ss)) (hlegible : Token.Legible f.text s.start cs)
    (htail : At f.text hi tail) (pos : Nat) :
    (Token.scan pos (spliceFrom f.text hi s.start (marks (s :: ss)) ++ tail)).token.form =
      .punct .questionDot := by
  cases hoptional : s.optional with
  | true =>
    have hmarks : marks (s :: ss) = marks ss := by simp [marks, hoptional]
    rw [hmarks]
    exact h.scan_optional hlegible htail hoptional pos
  | false =>
    rw [marks_cons hoptional]
    exact h.scan_marked hlegible htail hoptional pos

/-- The steps before another one end where it is taken. -/
theorem InRow.of_append (h : InRow f lo hi (ts ++ s :: ss)) :
    InRow f lo s.start ts ∧ InRow f s.start hi (s :: ss) := by
  have hafter : InRow f lo hi (s :: ss) :=
    { laysOut := fun t ht ↦ h.laysOut t (List.mem_append_right ts ht)
      isOf := fun t ht ↦ h.isOf t (List.mem_append_right ts ht)
      bounds := fun t ht ↦ h.bounds t (List.mem_append_right ts ht)
      order := (List.pairwise_append.1 h.order).2.1 }
  refine ⟨?_, hafter.from_start⟩
  exact
    { laysOut := fun t ht ↦ h.laysOut t (List.mem_append_left _ ht)
      isOf := fun t ht ↦ h.isOf t (List.mem_append_left _ ht)
      bounds := fun t ht ↦ ⟨(h.bounds t (List.mem_append_left _ ht)).1,
        (List.pairwise_append.1 h.order).2.2 t ht s List.mem_cons_self⟩
      order := (List.pairwise_append.1 h.order).1 }

/-- Markers that go before the ends of their steps lie apart. -/
theorem InRow.pairwise_marks (h : InRow f lo hi ss)
    (hend : ∀ s ∈ ss, s.optional = false → s.insertAt < s.expr.span.hi) :
    (marks ss).Pairwise (·.offset < ·.offset) := by
  refine List.pairwise_map.2 (List.pairwise_filter.2 (h.order.imp_of_mem ?_))
  intro s t hs ht hst hsOptional _
  have hsEnd := hend s hs (by simpa using hsOptional)
  have htInsert := h.insertAt_bounds ht
  change s.insertAt < t.insertAt
  omega

end Step

namespace Chain

variable {f : SourceFile} {first : Node} {x : Chain}

/-- The markers are put in between the ends of the last operand, in the order of the guards. -/
theorem StandsIn.between (h : x.StandsIn f first)
    (hrow : Step.InRow f x.terminal.span.lo x.terminal.span.hi x.boundaries) :
    Insertion.Between f.text x.terminal.span.lo x.terminal.span.hi (Step.marks x.boundaries) :=
  hrow.between h.seatsTerminal.sits.lo h.seatsTerminal.sits.hi h.terminal_forward

theorem StandsIn.insertions_eq (h : x.StandsIn f first)
    (hrow : Step.InRow f x.terminal.span.lo x.terminal.span.hi x.boundaries) :
    x.insertions = Step.marks x.boundaries :=
  insertions_eq_marks (h.between hrow).sorted

theorem StandsIn.replacement?_eq (h : x.StandsIn f first)
    (hcomments : ∀ m ∈ f.comments, m.SitsIn f.text)
    (hrow : Step.InRow f x.terminal.span.lo x.terminal.span.hi x.boundaries) :
    x.replacement? f = some (x.movedText f ++
      spliceFrom f.text x.terminal.span.hi x.terminal.span.lo (Step.marks x.boundaries)) := by
  rw [Chain.replacement?_eq hcomments h.seatsTerminal h.terminal_forward h.steps,
    h.insertions_eq hrow]

end Chain

namespace PreferOptionalChain

variable {c : Context} {x : Chain}

/-- The steps where the guards of a chain end stand in a row in its last operand. -/
theorem Context.exists_inRow {program n : Node} {style : ChainStyle}
    (hlays : c.file.LaysOut program) (hn : n ∈ program.preorder) (hstyle : runStyle? n = some style)
    (hx : x ∈ (c.finder style).find (n.flatten style)) :
    ∃ first, x.StandsIn c.file first ∧ c.file.LaysOut x.terminal ∧
      x.boundaries.length = x.guards.length ∧
      Step.InRow c.file x.terminal.span.lo x.terminal.span.hi x.boundaries := by
  obtain ⟨first, -, hterminal, hstands⟩ := exists_standsIn hlays.seats hn hstyle hx
  have hlast : c.file.LaysOut x.terminal := (hlays.of_mem_preorder hn).of_mem_preorder
    (SourceFile.mem_preorder_of_mem_flatten hterminal)
  rw [← ChainFinder.map_chain_placed] at hx
  obtain ⟨b, hb, rfl⟩ := List.mem_map.1 hx
  have hwell := ChainFinder.wellFormed_of_chainAt? (ChainFinder.chainAt?_of_mem_placed hb)
  obtain ⟨htaken, horder⟩ := steps_of_terminalPath? hwell.terminal hlast
  have hboundary : ∀ s ∈ b.chain.boundaries, s.TakenIn c.file b.chain.terminal := fun s hs ↦
    htaken s (Chain.mem_steps_of_mem_boundaries hs)
  exact ⟨first, hstands, hlast, hwell.boundaries,
    { laysOut := fun s hs ↦ hlast.of_mem_preorder (hboundary s hs).mem
      isOf := fun s hs ↦ (hboundary s hs).isOf
      bounds := fun s hs ↦ ⟨(hboundary s hs).lo_le, (hboundary s hs).le_hi⟩
      order := Chain.pairwise_boundaries hwell.deepens horder }⟩

open Outcome (markSize)
open SourceFile (ofText)

/-- A chain of a file without a byte-order mark has a step for each guard to end at. A marker is put
in for each of these steps that is not optional yet, in the order of the guards, and the pieces of
text between the markers are the text of the last operand.

Where what stands before these steps is legible, every marker stands right before the token of its
step, inside no comment, and the markers lie apart. Reading on from where one of the steps is taken,
with the markers before it in place, the next token is then `?.`. A line comment that goes on
without `\n` up to the key of an access hides the dot: the marker goes behind it. -/
theorem markers_stand_before_step_tokens {name : String} {text : List Char} {program n : Node}
    {style : ChainStyle} (h : (ofText name text).program? = some program) (hwhole : program.Whole)
    (hmark : markSize text = 0) (hc : c.file = ofText name text) (hn : n ∈ program.preorder)
    (hstyle : runStyle? n = some style) (hx : x ∈ (c.finder style).find (n.flatten style)) :
    x.boundaries.length = x.guards.length ∧ x.insertions = Step.marks x.boundaries ∧
      (∃ (first : List Char) (pieces : List (Insertion × List Char)),
        pieces.map Prod.fst = x.insertions ∧
        c.file.slice x.terminal.span = first ++ pieces.flatMap Prod.snd ∧
        x.replacement? c.file = some (x.movedText c.file ++
          (first ++ pieces.flatMap fun p ↦ p.1.text ++ p.2)) ∧
        ∀ before p after, pieces = before ++ p :: after →
          p.1.offset = x.terminal.span.lo + Text.size (first ++ before.flatMap Prod.snd)) ∧
      ((∀ s ∈ x.boundaries, ∃ cs, Token.Legible text s.start cs) →
        (∀ s ∈ x.boundaries, s.optional = false → ∀ cs, At text s.start cs →
          s.StartsWith c.file (Token.scan s.start cs).token) ∧
        x.insertions.Pairwise (·.offset < ·.offset) ∧
        ∀ tail, At text x.terminal.span.hi tail →
          ∀ before s after, x.boundaries = before ++ s :: after →
            ∃ replaced rest, x.replacement? c.file = some replaced ∧
              replaced ++ tail = x.movedText c.file ++
                spliceFrom text s.start x.terminal.span.lo (Step.marks before) ++ rest ∧
              ∀ pos, (Token.scan pos rest).token.form = .punct .questionDot) ∧
      ∀ s ∈ x.boundaries, ∀ span object key, s.expr = .member false span object key →
        key.kind.isDotted = true → ∀ before body rest,
          At text object.span.hi (before ++ '/' :: '/' :: body ++ rest) →
          (∀ c ∈ before, Token.isSpace c = true) → '\n' ∉ body →
          key.span.lo = object.span.hi + Text.size (before ++ '/' :: '/' :: body) →
          s.insertAt = key.span.lo := by
  have htext : c.file.text = text := by rw [hc]; rfl
  have hlays : c.file.LaysOut program := hc ▸ SourceFile.laysOut_of_parse h hwhole hmark
  obtain ⟨first, hstands, -, hlength, hrow⟩ := Context.exists_inRow hlays hn hstyle hx
  have hinsertions := hstands.insertions_eq hrow
  have hreplacement := hstands.replacement?_eq (hc ▸ SourceFile.sitsIn_of_mem_comments hmark) hrow
  have hsits := hstands.seatsTerminal.sits
  rw [← htext]
  have hstarts (hlegible : ∀ s ∈ x.boundaries, ∃ cs, Token.Legible c.file.text s.start cs)
      (s : Step) (hs : s ∈ x.boundaries) (hoptional : s.optional = false) (cs : List Char)
      (hat : At c.file.text s.start cs) : s.StartsWith c.file (Token.scan s.start cs).token := by
    obtain ⟨cs', hcs⟩ := hlegible s hs
    obtain rfl := hcs.at_pos.unique hat
    exact (hrow.isOf s hs).startsWith (hrow.laysOut s hs) hcs hoptional
  refine ⟨hlength, hinsertions, ?_, fun hlegible ↦ ⟨?_, ?_, ?_⟩, ?_⟩
  · obtain ⟨start, pieces, hmap, hslice, hsplice, hoffsets⟩ := (hstands.between hrow).exists_pieces
    refine ⟨start, pieces, hinsertions ▸ hmap, ?_, by rw [hreplacement, hsplice], hoffsets⟩
    rw [(SourceFile.slice?_eq hsits.lo hsits.hi hstands.terminal_forward).2, hslice]
  · exact fun s hs hoptional cs hat ↦ hstarts hlegible s hs hoptional cs hat
  · rw [hinsertions]
    refine hrow.pairwise_marks fun s hs hoptional ↦ ?_
    obtain ⟨cs, hcs⟩ := hlegible s hs
    exact (hstarts hlegible s hs hoptional cs hcs.at_pos).lt_end
  · intro tail htail before s after hboundaries
    rw [hboundaries] at hrow hreplacement
    obtain ⟨hbefore, hafter⟩ := hrow.of_append
    obtain ⟨cs, hcs⟩ := hlegible s (by simp [hboundaries])
    have hcut := hafter.start_boundary List.mem_cons_self
    have hinsert := hafter.insertAt_bounds List.mem_cons_self
    have hle := (hafter.bounds s List.mem_cons_self).2
    have hlo := (hrow.bounds s (by simp)).1
    refine ⟨_, spliceFrom c.file.text x.terminal.span.hi s.start (Step.marks (s :: after)) ++ tail,
      hreplacement, ?_, hafter.scan_step hcs htail⟩
    rw [Step.marks_append, (hbefore.between hsits.lo hcut hlo).spliceFrom_append
      (hafter.between hcut hsits.hi (by omega))]
    simp only [List.append_assoc]
  · intro s hs span object key hexpr hdotted before body rest hat hspaces hbody hkey
    exact (hrow.isOf s hs).insertAt_of_hidden (hrow.laysOut s hs) hexpr hdotted hat hspaces hbody
      hkey

def commentedSteps : SourceFile :=
  .ofText "a.ts" "a != null && a.b != null && a // .\n.b[0];".toList

def commentedStepsProgram : Node :=
  commentedSteps.program?.get (by decide +kernel)

/-- A dot in a comment that ends with `\n` is passed. -/
theorem commented_steps_marked :
    commentedSteps.program? = some commentedStepsProgram ∧
      ∃ n ∈ commentedStepsProgram.preorder, runStyle? n = some .and ∧
        ∃ x ∈ (Context.finder ⟨commentedSteps, .untyped, {}⟩ .and).find (n.flatten .and),
          x.replacement? commentedSteps = some "a // .\n?.b?.[0]".toList ∧
          x.insertions.Pairwise (·.offset < ·.offset) ∧
          ∀ s ∈ x.boundaries, s.optional = false ∧ ∀ cs, At commentedSteps.text s.start cs →
            s.StartsWith commentedSteps (Token.scan s.start cs).token := by
  have hprogram : commentedSteps.program? = some commentedStepsProgram := (Option.some_get _).symm
  obtain ⟨hwhole, n, hn, hstyle, x, hx, hstarts, hneeded, hmoved, hkept⟩ :
      commentedStepsProgram.Whole ∧
      ∃ n ∈ commentedStepsProgram.preorder, runStyle? n = some .and ∧
        ∃ x ∈ (Context.finder ⟨commentedSteps, .untyped, {}⟩ .and).find (n.flatten .and),
          (∀ s ∈ x.boundaries, s.start = 29 ∨ s.start = 37) ∧
          (∀ s ∈ x.boundaries, s.optional = false) ∧
          x.removedComments commentedSteps = [] ∧
          spliceFrom? commentedSteps.text (commentedSteps.clamp x.terminal.span.hi)
            (commentedSteps.clamp x.terminal.span.lo) (Step.marks x.boundaries) =
              some "a // .\n?.b?.[0]".toList := by
    decide +kernel
  obtain ⟨-, hinsertions, -, hlegible, -⟩ := markers_stand_before_step_tokens
    (c := ⟨commentedSteps, .untyped, {}⟩) hprogram hwhole (by decide +kernel) rfl hn hstyle hx
  have hdot : Token.Legible commentedSteps.text 29 " // .\n.b[0];".toList := by
    refine Token.legible_of_punct (p := .dot) ⟨"a != null && a.b != null && a".toList, ?_, ?_⟩
      ?_ ?_ ?_
    case refine_5 =>
      have hcomments : (Token.scan 29 " // .\n.b[0];".toList).comments = [⟨.line, ⟨30, 34⟩⟩] := by
        decide +kernel
      rw [hcomments]
      refine List.forall_mem_singleton.2 fun _ ↦ ⟨".b[0];".toList, .inl ?_⟩
      exact ⟨"a != null && a.b != null && a // .".toList, by decide +kernel, by decide +kernel⟩
    all_goals decide +kernel
  have hbracket : Token.Legible commentedSteps.text 37 "[0];".toList := by
    refine Token.legible_of_punct (p := .lbrack)
      ⟨"a != null && a.b != null && a // .\n.b".toList, ?_, ?_⟩ ?_ ?_ ?_
    case refine_5 =>
      have hcomments : (Token.scan 37 "[0];".toList).comments = [] := by decide +kernel
      rw [hcomments]
      exact List.forall_mem_nil _
    all_goals decide +kernel
  have hgaps : ∀ s ∈ x.boundaries, ∃ cs, Token.Legible commentedSteps.text s.start cs := by
    intro s hs
    obtain hstart | hstart := hstarts s hs
    · exact ⟨_, hstart ▸ hdot⟩
    · exact ⟨_, hstart ▸ hbracket⟩
  obtain ⟨htokens, hapart, -⟩ := hlegible hgaps
  refine ⟨hprogram, n, hn, hstyle, x, hx, ?_, hapart, fun s hs ↦ ⟨hneeded s hs, ?_⟩⟩
  · rw [Chain.replacement?, hinsertions, hmoved, hkept]
    rfl
  · exact htokens s hs (hneeded s hs)

end PreferOptionalChain

end OptionalChain
