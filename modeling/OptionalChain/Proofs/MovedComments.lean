import OptionalChain.Proofs.Placement.Gaps
import OptionalChain.Proofs.SelectedText

/-!
# Comments that are moved in front of a chain

The replacement of a chain starts with the comments of the operands that go away. A comment that
ends a line there puts what is left of the chain on a new line. After `return`, `throw` or `yield`
the text is then read as something else.
-/

namespace OptionalChain

open Text (At Boundary)

/-! ## Skipping comments that were moved -/

namespace Comment

variable {f : SourceFile} {m : Comment}

/-- Whether a line ends in the comment or with it. -/
def breaksLine (f : SourceFile) (m : Comment) : Bool :=
  match m.style with
  | .line => true
  | .block => (Text.slice m.span.lo m.span.hi f.text).any Token.isLineEnd

/-- A line comment is one that starts with two slashes. -/
def IsSlashed (f : SourceFile) (m : Comment) : Prop :=
  m.style = .line → ['/', '/'] <+: Text.slice m.span.lo m.span.hi f.text

theorem exists_closesBlock_of_isBlock {cs : List Char} (h : isBlock cs = true) :
    ∃ body, cs = '/' :: '*' :: body ∧ closesBlock false body = true := by
  unfold isBlock at h
  split at h
  · exact ⟨_, rfl, h⟩
  · cases h

instance (f : SourceFile) (m : Comment) : Decidable (m.IsSlashed f) :=
  inferInstanceAs (Decidable (m.style = .line → _))

/-- A comment is skipped where it was moved to. -/
theorem SitsIn.exists_skipped (h : m.SitsIn f.text) (hslashed : m.IsSlashed f) (g : Token.Gap) :
    ∃ g', Token.Skipped .blanks g (m.relocated f) g' ∧
      g'.newline = (g.newline || m.breaksLine f) := by
  obtain ⟨piece, rest, hat, hhi, htext⟩ := h
  have hpiece : Text.slice m.span.lo m.span.hi f.text = piece := by
    rw [hhi]
    exact Text.slice_of_slice? hat.slice?
  unfold IsSlashed at hslashed
  unfold relocated breaksLine separator
  rw [hpiece] at hslashed ⊢
  cases hstyle : m.style with
  | line =>
    obtain ⟨body, rfl⟩ := hslashed hstyle
    rw [hstyle] at htext
    have hbody : body.all (!Token.isLineEnd ·) = true := htext
    obtain ⟨g', hg', hline⟩ := Token.exists_skipped_line (c := '\n') hbody rfl g.pos
      { g with pos := g.pos + 2 }
    exact ⟨g', fun rest ↦ hg' rest, by simp [hline]⟩
  | block =>
    rw [hstyle, isText] at htext
    obtain ⟨body, rfl, hbody⟩ := exists_closesBlock_of_isBlock htext
    obtain ⟨g', hg', hline⟩ := Token.exists_skipped_block hbody g.pos { g with pos := g.pos + 2 }
    have hopened : Token.Skipped .blanks g ('/' :: '*' :: body) g' := fun rest ↦ hg' rest
    refine ⟨_, hopened.append fun rest ↦ Token.skipFrom_space rfl g' rest, ?_⟩
    simp [Token.Gap.past, hline, Token.isLineEnd]

/-- So are comments that follow each other. -/
theorem exists_skipped_flatMap {ms : List Comment} (h : ∀ m ∈ ms, m.SitsIn f.text)
    (hslashed : ∀ m ∈ ms, m.IsSlashed f) (g : Token.Gap) :
    ∃ g', Token.Skipped .blanks g (ms.flatMap (·.relocated f)) g' ∧
      g'.newline = (g.newline || ms.any (·.breaksLine f)) := by
  induction ms generalizing g with
  | nil => exact ⟨g, fun _ ↦ rfl, by simp⟩
  | cons m ms ih =>
    obtain ⟨hm, hms⟩ := List.forall_mem_cons.1 h
    obtain ⟨hslash, hslashes⟩ := List.forall_mem_cons.1 hslashed
    obtain ⟨g₁, hg₁, hline₁⟩ := hm.exists_skipped hslash g
    obtain ⟨g₂, hg₂, hline₂⟩ := ih hms hslashes g₁
    exact ⟨g₂, hg₁.append hg₂, by rw [hline₂, hline₁, List.any_cons, Bool.or_assoc]⟩

end Comment

/-! ## The text that is kept -/

/-- The text starts with a character that starts a token. -/
def Token.StartsIn (cs : List Char) : Prop :=
  cs.head?.any Token.startsToken = true

instance (cs : List Char) : Decidable (Token.StartsIn cs) :=
  inferInstanceAs (Decidable (cs.head?.any Token.startsToken = true))

theorem Token.newline_skipFrom_of_startsIn {kept : List Char} (h : Token.StartsIn kept)
    (g : Token.Gap) (cs : List Char) :
    (Token.skipFrom .blanks g (kept ++ cs)).newline = g.newline := by
  cases kept with
  | nil => cases h
  | cons c kept => exact Token.newline_skipFrom_of_startsToken h g (kept ++ cs)

theorem startsIn_spliceFrom {text : List Char} {cursor stop : Nat} {xs : List Insertion}
    (hcursor : Boundary text cursor) (hstop : Boundary text stop)
    (hslice : Token.StartsIn (Text.slice cursor stop text))
    (hxs : ∀ i ∈ xs, Boundary text i.offset ∧ Token.StartsIn i.text) :
    Token.StartsIn (spliceFrom text stop cursor xs) := by
  induction xs with
  | nil => exact hslice
  | cons i xs ih =>
    obtain ⟨⟨hoffset, htext⟩, hxs⟩ := List.forall_mem_cons.1 hxs
    rw [spliceFrom]
    split
    · exact ih hxs
    · rename_i hinside
      rw [hcursor.slice_append hoffset hstop (by omega) (by omega)] at hslice
      cases hkept : Text.slice cursor i.offset text with
      | nil =>
        cases hmark : i.text with
        | nil =>
          rw [hmark] at htext
          cases htext
        | cons c cs =>
          rw [hmark] at htext
          exact htext
      | cons c cs =>
        rw [hkept] at hslice
        exact hslice

theorem Step.startsIn_marker (s : Step) : Token.StartsIn s.marker := by
  unfold marker
  split <;> decide

/-- The last operand of a chain starts with a token before and after the markers are put in. -/
theorem Chain.StandsIn.startsIn_kept {f : SourceFile} {first : Node} {x : Chain}
    (h : x.StandsIn f first) (hstarts : Token.StartsIn (f.slice x.terminal.span)) :
    Token.StartsIn (spliceFrom f.text x.terminal.span.hi x.terminal.span.lo x.insertions) := by
  have hsits := h.seatsTerminal.sits
  rw [(SourceFile.slice?_eq hsits.lo hsits.hi h.terminal_forward).2] at hstarts
  refine startsIn_spliceFrom hsits.lo hsits.hi hstarts fun i hi ↦ ⟨?_, ?_⟩
  · exact boundary_of_mem_insertions h.steps i hi
  · obtain ⟨s, -, rfl⟩ := List.mem_map.1 (List.mem_mergeSort.1 hi)
    exact s.startsIn_marker

/-! ## One edit -/

/-- A pass with one edit puts its text in the place of its region. -/
theorem output_applyFixes_one {text before removed tail : List Char} {d : Diagnostic} {x : Fix}
    (htext : text = before ++ (removed ++ tail)) (hfixes : d.fixes = [x])
    (hstart : x.start = Text.size before)
    (hstop : x.stop = Text.size before + Text.size removed) :
    (applyFixes text [d] true).output = before ++ x.newText ++ tail := by
  have hstartAt : At text x.start (removed ++ tail) := ⟨before, htext, hstart.symm⟩
  have hstopAt : At text x.stop tail := by
    rw [hstop, ← hstart]
    exact hstartAt.append
  have hle := hstopAt.boundary.le_size
  have hselected : x.isSelected true (Text.size text) = true := by
    rw [Fix.isSelected, Bool.true_or, Bool.true_and, Bool.and_eq_true, decide_eq_true_eq,
      decide_eq_true_eq]
    exact ⟨by omega, hle⟩
  have hfits : x.fits text 0 = true :=
    Fix.fits_iff.2 ⟨Nat.zero_le _, Text.boundary_iff.1 hstartAt.boundary,
      Text.boundary_iff.1 hstopAt.boundary⟩
  have hmade : Fix.chosen text 0 (Fix.selected true text [d]) = [x] := by
    simp [Fix.selected, hfixes, hselected, Fix.chosen, hfits]
  have hbefore : Text.slice 0 x.start text = before := by
    rw [hstart, htext]
    exact Text.slice_of_slice? (by simpa using Text.slice?_append [] before (removed ++ tail))
  have htail : Text.slice x.stop (Text.size text) text = tail := by
    have hend : At text x.stop (tail ++ []) := by rwa [List.append_nil]
    rw [hstopAt.size_eq]
    exact Text.slice_of_slice? hend.slice?
  change Fix.splice _ 0 (Fix.chosen _ 0 _) = _
  rw [hmade, Fix.splice, Fix.splice, hbefore, htail]

/-! ## Words that leave a function -/

namespace Node

/-- The word of a node that leaves a function or pauses it with a value. -/
def exitWord? : Node → Option String
  | .mk (.statement .returning) _ [value] => if value.isAbsent then none else some "return"
  | .mk (.statement .throwing) _ _ => some "throw"
  | .mk .yield _ [value] => if value.isAbsent then none else some "yield"
  | _ => none

theorem Sits.keepsLine {text : List Char} {stop : Nat} {n : Node} {word : String}
    (h : n.Sits text stop) (hword : n.exitWord? = some word) :
    Text.KeepsLine text n.span.lo word := by
  have hshape := h.shape
  unfold exitWord? at hword
  split at hword
  · split at hword
    · cases hword
    · rename_i habsent
      cases hword
      exact hshape.resolve_left habsent
  · cases hword
    exact hshape
  · split at hword
    · cases hword
    · rename_i habsent
      cases hword
      exact hshape.resolve_left habsent
  · cases hword

theorem exitWord?_mem {n : Node} {word : String} (h : n.exitWord? = some word) :
    word ∈ ["return", "throw", "yield"] := by
  unfold exitWord? at h
  split at h
  all_goals try split at h
  all_goals cases h
  all_goals decide

end Node

namespace Text

/-- Exits that stand at one place have the same word. -/
theorem exitWord_unique {word word' : String} {text cs cs' : List Char} {lo : Nat}
    (hword : word ∈ ["return", "throw", "yield"]) (hword' : word' ∈ ["return", "throw", "yield"])
    (h : At text lo (word.toList ++ cs)) (h' : At text lo (word'.toList ++ cs')) :
    word = word' ∧ cs = cs' := by
  have heq := h.unique h'
  simp only [List.mem_cons, List.not_mem_nil, or_false] at hword hword'
  obtain rfl | rfl | rfl := hword <;> obtain rfl | rfl | rfl := hword'
  all_goals simp_all

end Text

/-! ## Chains after a word -/

namespace Chain

variable {f : SourceFile} {first : Node} {x : Chain}

/-- A chain whose last operand starts with a token is not empty. -/
theorem StandsIn.lo_lt_size (h : x.StandsIn f first)
    (hstarts : Token.StartsIn (f.slice x.terminal.span)) : x.span.lo < Text.size f.text := by
  have hsits := h.seatsTerminal.sits
  obtain ⟨piece, rest, hat, hhi⟩ := hsits.lo.exists_piece hsits.hi h.terminal_forward
  rw [(SourceFile.slice?_eq hsits.lo hsits.hi h.terminal_forward).2, hhi,
    Text.slice_of_slice? hat.slice?] at hstarts
  have hlo := h.lo_le_terminal
  have hle := hsits.hi.le_size
  cases piece with
  | nil => cases hstarts
  | cons c piece =>
    have hpos := c.utf8Size_pos
    rw [Text.size_cons] at hhi
    omega

end Chain

namespace PreferOptionalChain

open Context

variable {c : Context} {x : Chain}

/-- The edit of a diagnostic puts the replacement in the place of its region. -/
theorem output_applyFixes_diagnostic {before removed tail : List Char} {region : Region}
    (htext : c.file.text = before ++ (removed ++ tail))
    (hstart : region.start = Text.size before)
    (hstop : region.stop = Text.size before + Text.size removed) (replacement : List Char)
    (v : Verdict) :
    (applyFixes c.file.text [c.diagnostic region replacement v] true).output =
      before ++ replacement ++ tail := by
  have hregion : (c.fix region replacement v).region = region :=
    region_of_mem_fixes (List.mem_singleton_self _)
  have hnew : (c.fix region replacement v).newText = replacement := by
    unfold fix
    split <;> rfl
  rw [output_applyFixes_one htext rfl (by rw [Fix.start, hregion, hstart])
    (by rw [Fix.stop, hregion, hstop]), hnew]

/-- What stands between a token and the chain after it stays there, with the comments that are moved
in front of the chain. -/
theorem newline_before_fixed {first : Node} {pos : Nat} {cs : List Char}
    (hstands : x.StandsIn c.file first) (hcomments : ∀ m ∈ c.file.comments, m.SitsIn c.file.text)
    (hslashed : ∀ m ∈ x.removedComments c.file, m.IsSlashed c.file)
    (hstarts : Token.StartsIn (c.file.slice x.terminal.span)) (hat : At c.file.text pos cs)
    (hnext : (Token.skip pos cs).pos = x.span.lo) :
    ∃ report before after, c.chainReport? x = some report ∧
      c.file.text = before ++ cs ∧ Text.size before = pos ∧
      (applyFixes c.file.text [report.1] true).output = before ++ after ∧
      (Token.skip pos after).newline =
        ((Token.skip pos cs).newline || (x.removedComments c.file).any (·.breaksLine c.file)) := by
  have hstart : At c.file.text x.span.lo (Token.skip pos cs).rest :=
    hnext ▸ (Token.skip_standsIn hat).rest
  have hne : (Token.skip pos cs).rest ≠ [] := by
    intro hnil
    have hsize := hstart.size_eq
    have hlt := hstands.lo_lt_size hstarts
    rw [hnil, Text.size_nil] at hsize
    omega
  -- The text is cut after the gap before the chain and at the end of the chain.
  obtain ⟨gap, hcs, hline, g, hskip, hgline⟩ := Token.exists_skipped hne
  obtain ⟨removed, tail, hremoved, hhi⟩ := hstands.lo.exists_piece hstands.hi hstands.forward
  have hrest := hstart.unique hremoved
  obtain ⟨before, htext, hsize⟩ := hat
  have hparts : c.file.text = before ++ gap ++ (removed ++ tail) := by
    rw [htext, hcs, hrest, List.append_assoc]
  have hlo : x.span.lo = Text.size (before ++ gap) := by
    have hwhole : At c.file.text (Text.size (before ++ gap)) (removed ++ tail) :=
      ⟨before ++ gap, hparts, rfl⟩
    have heq := hremoved.size_eq.symm.trans hwhole.size_eq
    omega
  obtain ⟨region, hregion, hrange⟩ := exists_region? hstands.lo hstands.hi
  have hreport := c.chainReport?_eq x
  rw [diagnosticOf?_chain (Chain.replacement?_eq hcomments hstands.seatsTerminal
    hstands.terminal_forward hstands.steps) hregion, Option.map_some] at hreport
  have hfixed := output_applyFixes_diagnostic hparts ((congrArg Span.lo hrange).trans hlo)
    ((congrArg Span.hi hrange).trans (by rw [hhi, hlo])) (x.movedText c.file ++
      spliceFrom c.file.text x.terminal.span.hi x.terminal.span.lo x.insertions) x.verdict
  -- The comments are skipped after the gap, up to the first character that is kept.
  have hsits : ∀ m ∈ x.removedComments c.file, m.SitsIn c.file.text := fun m hm ↦
    hcomments m (List.mem_filter.1 hm).1
  obtain ⟨g', hmoved, hmovedLine⟩ := Comment.exists_skipped_flatMap hsits hslashed g
  refine ⟨_, before, gap ++ (x.movedText c.file ++ (spliceFrom c.file.text x.terminal.span.hi
    x.terminal.span.lo x.insertions ++ tail)), hreport, htext, hsize, ?_, ?_⟩
  · simpa only [List.append_assoc] using hfixed
  · rw [hskip, Chain.movedText, hmoved,
      Token.newline_skipFrom_of_startsIn (hstands.startsIn_kept hstarts), hmovedLine, hgline, hline]

open Outcome (dropMark markSize)
open SourceFile (ofText)

/-- A chain of a file without a byte-order mark that is the next thing after `return`, `throw` or
`yield` stands on the line of that word. After its fix, what is kept of it stands on the line of the
word exactly if none of the comments that are moved ends a line. If one does, then no program
that is read from the fixed text has a `return`, `throw` or `yield` with an argument there. -/
theorem moved_comments_separate_exit {name : String} {text rest : List Char} {program n e : Node}
    {style : ChainStyle} {word : String} (h : (ofText name text).program? = some program)
    (hwhole : program.Whole) (hmark : markSize text = 0) (hc : c.file = ofText name text)
    (hn : n ∈ program.preorder) (hstyle : runStyle? n = some style)
    (hx : x ∈ (c.finder style).find (n.flatten style))
    (hslashed : ∀ m ∈ x.removedComments c.file, m.IsSlashed c.file)
    (hstarts : Token.StartsIn (c.file.slice x.terminal.span)) (he : e ∈ program.preorder)
    (hword : e.exitWord? = some word) (hrest : At text e.span.lo (word.toList ++ rest))
    (hnext : (Token.skip (e.span.lo + Text.size word.toList) rest).pos = x.span.lo) :
    (Token.skip (e.span.lo + Text.size word.toList) rest).newline = false ∧
      ∃ report after, c.chainReport? x = some report ∧
        At (applyFixes text [report.1] true).output e.span.lo (word.toList ++ after) ∧
        (Token.skip (e.span.lo + Text.size word.toList) after).newline =
          (x.removedComments c.file).any (·.breaksLine c.file) ∧
        ((x.removedComments c.file).any (·.breaksLine c.file) = true →
          ∀ name' program',
            (ofText name' (applyFixes text [report.1] true).output).program? = some program' →
              program'.Whole → ∀ m ∈ program'.preorder, m.span.lo = e.span.lo →
                m.exitWord? = none) := by
  have hdrop : dropMark text = text := Outcome.dropMark_eq_of_markSize hmark
  have htext : c.file.text = text := by rw [hc]; rfl
  have hseats : c.file.Seats program := hc ▸ SourceFile.seats_of_parse h hwhole hmark
  have hcomments : ∀ m ∈ c.file.comments, m.SitsIn c.file.text :=
    hc ▸ SourceFile.sitsIn_of_mem_comments hmark
  have hline : (Token.skip (e.span.lo + Text.size word.toList) rest).newline = false := by
    obtain ⟨rest', hat, hline⟩ := (hseats e he).keepsLine hword
    rw [htext] at hat
    rwa [List.append_cancel_left (hrest.unique hat)]
  obtain ⟨first, -, -, hstands⟩ := exists_standsIn hseats hn hstyle hx
  obtain ⟨report, before, after, hreport, hbefore, hsize, hfixed, hnewline⟩ :=
    newline_before_fixed hstands hcomments hslashed hstarts (htext ▸ hrest.append) hnext
  obtain ⟨start, hstart, hstartSize⟩ := hrest
  rw [htext] at hbefore hfixed
  obtain rfl : before = start ++ word.toList := by
    rw [hstart, ← List.append_assoc] at hbefore
    exact (List.append_cancel_right hbefore).symm
  rw [hline, Bool.false_or] at hnewline
  have hafter : At (applyFixes text [report.1] true).output e.span.lo (word.toList ++ after) :=
    ⟨start, by rw [hfixed, List.append_assoc], hstartSize⟩
  refine ⟨hline, report, after, hreport, hafter, hnewline,
    fun hbreaks name' program' h' hwhole' m hm hlo ↦ ?_⟩
  by_contra hexit
  obtain ⟨word', hword'⟩ := Option.ne_none_iff_exists'.1 hexit
  have hmarkless : dropMark (applyFixes text [report.1] true).output =
      (applyFixes text [report.1] true).output := by
    rw [hfixed]
    rw [hbefore] at hdrop
    refine Outcome.dropMark_append_of_append ?_ hdrop
    have hletters : ∀ w ∈ ["return", "throw", "yield"], w.toList ≠ [] := by decide
    intro hnil
    exact hletters word (Node.exitWord?_mem hword) (List.append_eq_nil_iff.1 hnil).2
  obtain ⟨rest', hat, hkeeps⟩ := (Grammar.sits_of_parse h' hwhole' m hm).keepsLine hword'
  rw [hmarkless, hlo] at hat
  obtain ⟨rfl, rfl⟩ := Text.exitWord_unique (Node.exitWord?_mem hword) (Node.exitWord?_mem hword')
    hafter hat
  rw [hlo, hnewline, hbreaks] at hkeeps
  cases hkeeps

def commentedReturn : SourceFile :=
  .ofText "a.ts" "function f() \x7b return foo != null && // c\n foo.bar; \x7d".toList

def returningProgram : Node :=
  commentedReturn.program?.get (by decide +kernel)

/-- The comment ends the line of the word, so that the fixed function returns nothing. -/
theorem commented_return_separated :
    commentedReturn.program? = some returningProgram ∧ returningProgram.Whole ∧
      (∃ e ∈ returningProgram.preorder, e.span.lo = 15 ∧ e.exitWord? = some "return") ∧
      ∀ name program,
        (ofText name "function f() \x7b return // c\nfoo?.bar; \x7d".toList).program? =
            some program →
          program.Whole → ∀ m ∈ program.preorder, m.span.lo = 15 → m.exitWord? = none := by
  have hprogram : commentedReturn.program? = some returningProgram := (Option.some_get _).symm
  obtain ⟨hwhole, e, he, hlo, hword, n, hn, hstyle, x, hx, hspan, hslashed, hstarts, hbreaks,
      report, hreport, hfixed⟩ :
      returningProgram.Whole ∧
      ∃ e ∈ returningProgram.preorder, e.span.lo = 15 ∧ e.exitWord? = some "return" ∧
        ∃ n ∈ returningProgram.preorder, runStyle? n = some .and ∧
          ∃ x ∈ (Context.finder ⟨commentedReturn, .untyped, {}⟩ .and).find (n.flatten .and),
            x.span.lo = 22 ∧
            (∀ m ∈ x.removedComments commentedReturn, m.IsSlashed commentedReturn) ∧
            Token.StartsIn (commentedReturn.slice x.terminal.span) ∧
            (x.removedComments commentedReturn).any (·.breaksLine commentedReturn) = true ∧
            ∃ report ∈ Context.chainReport? ⟨commentedReturn, .untyped, {}⟩ x,
              (applyFixes commentedReturn.text [report.1] true).output =
                "function f() \x7b return // c\nfoo?.bar; \x7d".toList := by
    decide +kernel
  have hrest : At commentedReturn.text e.span.lo
      ("return".toList ++ " foo != null && // c\n foo.bar; \x7d".toList) :=
    ⟨"function f() \x7b ".toList, by decide +kernel, by rw [hlo]; decide +kernel⟩
  have hnext : (Token.skip (e.span.lo + Text.size "return".toList)
      " foo != null && // c\n foo.bar; \x7d".toList).pos = x.span.lo := by
    rw [hlo, hspan]
    decide +kernel
  obtain ⟨-, report', after, hreport', -, -, hlost⟩ := moved_comments_separate_exit
    (c := ⟨commentedReturn, .untyped, {}⟩) hprogram hwhole (by decide +kernel) rfl hn hstyle hx
    hslashed hstarts he hword hrest hnext
  refine ⟨hprogram, hwhole, ⟨e, he, hlo, hword⟩, fun name program h hw m hm hm' ↦ ?_⟩
  obtain rfl : report = report' := Option.some.inj (Eq.trans hreport.symm hreport')
  rw [hlo] at hlost
  exact hlost hbreaks name program (hfixed.symm ▸ h) hw m hm hm'

end PreferOptionalChain

end OptionalChain
