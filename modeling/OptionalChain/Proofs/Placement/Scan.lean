import OptionalChain.Proofs.FixSplicing
import OptionalChain.Proofs.Compaction

/-!
# Places of tokens and comments

Scanning from a place of a text stays at places of that text: blanks, comments and the token after
them are cut between characters. A comment that was skipped is found again where its span says.
-/

namespace OptionalChain

namespace Text

/-- From byte `pos` on the text goes on as `cs`. -/
def At (text : List Char) (pos : Nat) (cs : List Char) : Prop :=
  ∃ before, text = before ++ cs ∧ size before = pos

/-- The text can be cut at the offset. -/
def Boundary (text : List Char) (pos : Nat) : Prop :=
  ∃ cs, At text pos cs

variable {text w cs ds : List Char} {pos : Nat}

theorem At.boundary (h : At text pos cs) : Boundary text pos :=
  ⟨cs, h⟩

theorem At.start (text : List Char) : At text 0 text :=
  ⟨[], rfl, rfl⟩

theorem At.append (h : At text pos (w ++ cs)) : At text (pos + size w) cs := by
  obtain ⟨before, rfl, rfl⟩ := h
  exact ⟨before ++ w, by rw [List.append_assoc], size_append before w⟩

theorem At.drop (h : At text pos cs) (n : Nat) : At text (pos + size (cs.take n)) (cs.drop n) :=
  At.append (by rwa [List.take_append_drop])

theorem At.tail {c : Char} (h : At text pos (c :: cs)) : At text (pos + c.utf8Size) cs := by
  have hcut : At text (pos + size [c]) cs := h.append
  simpa using hcut

/-- The text from a place on is known by the place. -/
theorem At.unique (h : At text pos cs) (h' : At text pos ds) : cs = ds := by
  obtain ⟨before, rfl, rfl⟩ := h
  obtain ⟨before', heq, hsize⟩ := h'
  obtain ⟨piece, rfl, rfl⟩ := exists_eq_append heq (by omega)
  rw [size_append] at hsize
  obtain rfl : piece = [] := eq_nil_of_size_eq_zero (by omega)
  rw [List.nil_append]

theorem At.size_eq (h : At text pos cs) : size text = pos + size cs := by
  obtain ⟨before, rfl, rfl⟩ := h
  exact size_append before cs

theorem At.size_boundary (h : At text pos cs) : Boundary text (pos + size cs) :=
  ⟨[], At.append (by rwa [List.append_nil])⟩

theorem Boundary.zero (text : List Char) : Boundary text 0 :=
  (At.start text).boundary

theorem Boundary.le_size (h : Boundary text pos) : pos ≤ size text := by
  obtain ⟨cs, h⟩ := h
  rw [h.size_eq]
  exact Nat.le_add_right _ _

theorem boundary_iff : Boundary text pos ↔ isBoundary pos text = true := by
  rw [isBoundary_iff]
  constructor
  · rintro ⟨cs, before, h⟩
    exact ⟨before, cs, h⟩
  · rintro ⟨before, cs, h⟩
    exact ⟨cs, before, h⟩

/-- Between two boundaries in order there is a piece of the text. -/
theorem Boundary.exists_piece {lo hi : Nat} (hlo : Boundary text lo) (hhi : Boundary text hi)
    (h : lo ≤ hi) : ∃ piece rest, At text lo (piece ++ rest) ∧ hi = lo + size piece := by
  obtain ⟨cs, before, rfl, rfl⟩ := hlo
  obtain ⟨piece, rest, rfl, rfl⟩ := Text.exists_piece (boundary_iff.1 hhi) h
  exact ⟨piece, rest, ⟨before, rfl, rfl⟩, rfl⟩

/-- A piece of the text is what its ends cut out. -/
theorem At.slice? {piece rest : List Char} (h : At text pos (piece ++ rest)) :
    Text.slice? pos (pos + size piece) text = some piece := by
  obtain ⟨before, rfl, rfl⟩ := h
  exact slice?_append before piece rest

end Text

open Text (At Boundary)

namespace Comment

/-- Whether the text closes a block comment with its last two characters and not before; `star`
says that an asterisk stands before it. -/
def closesBlock : Bool → List Char → Bool
  | _, [] => false
  | star, c :: cs => if star && c == '/' then cs.isEmpty else closesBlock (c == '*') cs

/-- Whether the text is one block comment. -/
def isBlock : List Char → Bool
  | '/' :: '*' :: cs => closesBlock false cs
  | _ => false

/-- Whether the text can be that of a comment: a block comment is closed at its end, and all others
stay on their line. -/
def isText : CommentStyle → List Char → Bool
  | .line, cs => cs.all (!Token.isLineEnd ·)
  | .block, cs => isBlock cs

/-- The comment is found at its span. -/
def SitsIn (text : List Char) (m : Comment) : Prop :=
  ∃ piece rest, At text m.span.lo (piece ++ rest) ∧
    m.span.hi = m.span.lo + Text.size piece ∧ isText m.style piece = true

end Comment

/-- The end of the text or a punctuator. -/
def TokenForm.isMark : TokenForm → Bool
  | .endOfText | .punct _ => true
  | _ => false

/-- A number, a string or what is no token. -/
def TokenForm.isValue : TokenForm → Bool
  | .number _ | .bigint _ | .string _ | .invalid _ => true
  | _ => false

theorem TokenForm.isMark_of_isValue {form : TokenForm} (h : form.isValue = true) :
    form.isMark = false := by
  cases form with
  | number | bigint | string | invalid => rfl
  | endOfText | punct | word => cases h

namespace Token

variable {text cs : List Char} {pos : Nat}

/-- What a mode says of the text: the comment that is open started at its place, and it goes on
with `cs` at byte `pos`. -/
def SkipMode.StandsAt (text : List Char) (pos : Nat) (cs : List Char) : SkipMode → Prop
  | .blanks => At text pos cs
  | .lineComment lo =>
    ∃ w, At text lo (w ++ cs) ∧ pos = lo + Text.size w ∧ w.all (!isLineEnd ·) = true
  | .blockComment lo star =>
    ∃ w, At text lo (w ++ cs) ∧ pos = lo + Text.size w ∧
      ∀ rest, Comment.isBlock (w ++ rest) = Comment.closesBlock star rest

@[simp] theorem Gap.settled_pos (g : Gap) : g.settled.pos = g.pos := by
  unfold settled
  split <;> rfl

@[simp] theorem Gap.settled_comments (g : Gap) : g.settled.comments = g.comments := by
  unfold settled
  split <;> rfl

/-- What was skipped ends at a place of the text, and the comments in it are found there. -/
structure Gap.StandsIn (text : List Char) (lo : Nat) (g : Gap) : Prop where
  rest : At text g.pos g.rest
  le : lo ≤ g.pos
  comments : ∀ m ∈ g.comments, m.SitsIn text

theorem Gap.StandsIn.mono {lo lo' : Nat} {g : Gap} (h : g.StandsIn text lo') (hle : lo ≤ lo') :
    g.StandsIn text lo :=
  ⟨h.rest, Nat.le_trans hle h.le, h.comments⟩

theorem Gap.standsIn_settled {g : Gap} (hat : At text g.pos cs)
    (hg : ∀ m ∈ g.comments, m.SitsIn text) :
    Gap.StandsIn text g.pos { g.settled with rest := cs } where
  rest := by simpa using hat
  le := by simp
  comments := by simpa using hg

theorem SkipMode.StandsAt.line_sitsIn {lo : Nat}
    (h : (SkipMode.lineComment lo).StandsAt text pos cs) :
    Comment.SitsIn text ⟨.line, ⟨lo, pos⟩⟩ := by
  obtain ⟨w, hat, hpos, hall⟩ := h
  exact ⟨w, cs, hat, hpos, hall⟩

theorem SkipMode.StandsAt.block_sitsIn {lo : Nat} {c : Char}
    (h : (SkipMode.blockComment lo true).StandsAt text pos (c :: cs)) (hc : c = '/') :
    Comment.SitsIn text ⟨.block, ⟨lo, pos + c.utf8Size⟩⟩ := by
  obtain ⟨w, hat, rfl, hcloses⟩ := h
  refine ⟨w ++ [c], cs, by simpa using hat, ?_, ?_⟩
  · simp [Nat.add_assoc]
  · rw [Comment.isText, hcloses, hc]
    rfl

theorem SkipMode.StandsAt.line_cons {lo : Nat} {c : Char}
    (h : (SkipMode.lineComment lo).StandsAt text pos (c :: cs)) (hc : isLineEnd c = false) :
    (SkipMode.lineComment lo).StandsAt text (pos + c.utf8Size) cs := by
  obtain ⟨w, hat, rfl, hall⟩ := h
  refine ⟨w ++ [c], by simpa using hat, by simp [Nat.add_assoc], ?_⟩
  rw [List.all_append, hall]
  simp [hc]

theorem SkipMode.StandsAt.block_cons {lo : Nat} {star : Bool} {c : Char}
    (h : (SkipMode.blockComment lo star).StandsAt text pos (c :: cs))
    (hc : (star && c == '/') = false) :
    (SkipMode.blockComment lo (c == '*')).StandsAt text (pos + c.utf8Size) cs := by
  obtain ⟨w, hat, rfl, hcloses⟩ := h
  refine ⟨w ++ [c], by simpa using hat, by simp [Nat.add_assoc], fun rest ↦ ?_⟩
  rw [List.append_assoc, hcloses, List.singleton_append, Comment.closesBlock, hc]
  rfl

/-- The place after the open comment. -/
theorem SkipMode.StandsAt.at_pos {mode : SkipMode} (h : mode.StandsAt text pos cs) :
    At text pos cs := by
  cases mode with
  | blanks => exact h
  | lineComment lo =>
    obtain ⟨w, hat, rfl, -⟩ := h
    exact hat.append
  | blockComment lo star =>
    obtain ⟨w, hat, rfl, -⟩ := h
    exact hat.append

theorem forall_mem_closing {g : Gap} {style : CommentStyle} {lo : Nat}
    (hg : ∀ m ∈ g.comments, m.SitsIn text) (hm : Comment.SitsIn text ⟨style, ⟨lo, g.pos⟩⟩) :
    ∀ m ∈ (g.closing style lo).comments, m.SitsIn text := by
  intro m hmem
  obtain hmem | hmem := List.mem_append.1 hmem
  · exact hg m hmem
  · rwa [List.mem_singleton.1 hmem]

/-- Skipping goes on to a place of the text. -/
theorem skipFrom_standsIn (mode : SkipMode) (g : Gap) (cs : List Char)
    (hmode : mode.StandsAt text g.pos cs) (hg : ∀ m ∈ g.comments, m.SitsIn text) :
    (skipFrom mode g cs).StandsIn text g.pos := by
  -- Each case of the recursion moves the gap over the characters that it takes off the text.
  fun_induction skipFrom mode g cs with
  | case1 g => exact Gap.standsIn_settled hmode hg
  | case2 lo g =>
    exact Gap.standsIn_settled (g := g.closing .line lo) hmode.at_pos
      (forall_mem_closing hg hmode.line_sitsIn)
  | case3 lo star g =>
    exact Gap.standsIn_settled
      (g := { g with faults := g.faults ++ [⟨⟨g.pos, g.pos⟩, .unterminatedComment⟩] })
      hmode.at_pos hg
  | case4 g cs ih =>
    exact (ih ⟨['/', '/'], hmode, rfl, by decide⟩ hg).mono (Nat.le_add_right _ _)
  | case5 g cs ih =>
    exact (ih ⟨['/', '*'], hmode, rfl, fun rest ↦ rfl⟩ hg).mono (Nat.le_add_right _ _)
  | case6 g cs ih =>
    have hat : At text (g.pos + 1) ('!' :: '-' :: '-' :: cs) := At.tail hmode
    refine (ih ⟨['!', '-', '-'], hat, rfl, by decide⟩ ?_).mono (Nat.le_add_right _ _)
    simpa [Gap.pastOpening] using hg
  | case7 g cs hfirst ih =>
    have hat : At text (g.pos + Text.size ['-', '-', '>']) cs := At.append hmode
    refine (ih ⟨[], hat, ?_, rfl⟩ ?_).mono ?_
    · simp [Gap.pastClosing]
    · simpa [Gap.pastClosing] using hg
    · simp [Gap.pastClosing]
  | case8 g cs hfirst => exact Gap.standsIn_settled hmode hg
  | case9 g c cs _ _ _ _ hspace ih =>
    exact (ih (At.tail hmode) hg).mono (Nat.le_add_right _ _)
  | case10 g c cs _ _ _ _ hspace => exact Gap.standsIn_settled hmode hg
  | case11 lo g c cs hend ih =>
    exact (ih (At.tail hmode.at_pos) (forall_mem_closing hg hmode.line_sitsIn)).mono
      (Nat.le_add_right _ _)
  | case12 lo g c cs hend ih =>
    exact (ih (hmode.line_cons (by simpa using hend)) hg).mono (Nat.le_add_right _ _)
  | case13 lo star g c cs hclose ih =>
    obtain ⟨rfl, hc⟩ : star = true ∧ c = '/' := by simpa using hclose
    exact (ih (At.tail hmode.at_pos) (forall_mem_closing hg (hmode.block_sitsIn hc))).mono
      (Nat.le_add_right _ _)
  | case14 lo star g c cs hclose ih =>
    exact (ih (hmode.block_cons (by simpa using hclose)) hg).mono (Nat.le_add_right _ _)

theorem skip_standsIn (hat : At text pos cs) : (skip pos cs).StandsIn text pos :=
  skipFrom_standsIn .blanks { rest := cs, pos, first := pos == 0 } cs hat (by simp)

/-! ## Forms of tokens -/

theorem isMark_wordLexeme (cs : List Char) : (wordLexeme cs).form.isMark = false := by
  unfold wordLexeme
  dsimp only
  split
  · rfl
  · split <;> rfl

theorem isValue_numberEnd (value : Number.Magnitude) (stop : Nat) (rest : List Char)
    (faults : List SyntaxError) : (numberEnd value stop rest faults).form.isValue = true := by
  unfold numberEnd
  split <;> rfl

theorem isValue_decimalRest (whole : DigitRun) (faults : List SyntaxError) :
    (decimalRest whole faults).form.isValue = true := by
  unfold decimalRest
  dsimp only
  split
  · rfl
  · exact isValue_numberEnd _ _ _ _

theorem isValue_octalNumber (r : DigitRun) : (octalNumber r).form.isValue = true := by
  unfold octalNumber
  dsimp only
  split <;> exact isValue_numberEnd _ _ _ _

theorem isValue_decimalNumber (cs : List Char) : (decimalNumber cs).form.isValue = true := by
  unfold decimalNumber
  generalize (if cs.head? = some '.' then ({ stop := 0, rest := cs } : DigitRun)
    else digitRun 10 none 0 cs) = whole
  dsimp only
  split
  · rfl
  · split
    · split
      · exact isValue_decimalRest _ _
      · exact isValue_octalNumber _
    · exact isValue_decimalRest _ _

theorem isValue_basedNumber (base : Nat) (cs : List Char) :
    (basedNumber base cs).form.isValue = true := by
  unfold basedNumber
  dsimp only
  split
  · rfl
  · split
    · rfl
    · exact isValue_numberEnd _ _ _ _

theorem isValue_numberLexeme (cs : List Char) : (numberLexeme cs).form.isValue = true := by
  unfold numberLexeme
  split
  · repeat' split
    all_goals first | exact isValue_basedNumber _ _ | exact isValue_decimalNumber _
  · exact isValue_decimalNumber _

theorem isValue_of_append_eq_error {s : StringRead} {e : Escape} {x : Lexeme}
    (h : s.append e = .error x) : x.form.isValue = true := by
  unfold StringRead.append at h
  dsimp only at h
  split at h
  · cases h
    rfl
  · cases h

theorem isValue_stringFrom (q : Char) (fuel : Nat) (s : StringRead) (cs : List Char) :
    (stringFrom q fuel s cs).form.isValue = true := by
  fun_induction stringFrom q fuel s cs with
  | case1 => rfl
  | case2 => rfl
  | case3 => rfl
  | case4 => rfl
  | case5 => exact isValue_of_append_eq_error (by assumption)
  | case6 => assumption
  | case7 => assumption

theorem lexeme_cons (c : Char) (rest : List Char) :
    lexeme (c :: rest) =
      if Text.isIdentStart c || c = '\\' then wordLexeme (c :: rest)
      else if c.isDigit || (c = '.' && rest.head?.any Char.isDigit) then numberLexeme (c :: rest)
      else if c = '"' ∨ c = '\'' then stringLexeme c rest
      else if c = '\x60' then templateLexeme (c :: rest)
      else
        match punctuator? (c :: rest) with
        | some (p, taken) => ⟨.punct p, taken, []⟩
        | none => ⟨.invalid ⟨⟨0, 0⟩, .strayCharacter c⟩, 1, []⟩ :=
  rfl

/-- What a token of a given form starts with: text that is no punctuator gives neither a mark nor
the end. -/
theorem lexeme_eq_mark (h : (lexeme cs).form.isMark = true) :
    cs = [] ∧ (lexeme cs).form = .endOfText ∨ lexeme cs = ⟨.punct .backtick, 1, []⟩ ∨
      ∃ p n, punctuator? cs = some (p, n) ∧ lexeme cs = ⟨.punct p, n, []⟩ := by
  cases cs with
  | nil => exact .inl ⟨rfl, rfl⟩
  | cons c rest =>
    have hword := isMark_wordLexeme (c :: rest)
    have hnumber := TokenForm.isMark_of_isValue (isValue_numberLexeme (c :: rest))
    have hstring := TokenForm.isMark_of_isValue (isValue_stringFrom c (rest.length + 1) {} rest)
    right
    rw [lexeme_cons] at h ⊢
    split at h
    · rw [hword] at h
      cases h
    split at h
    · rw [hnumber] at h
      cases h
    split at h
    · rw [stringLexeme, hstring] at h
      cases h
    split at h
    · rename_i h1 h2 h3 h4
      rw [if_neg h1, if_neg h2, if_neg h3, if_pos h4]
      unfold templateLexeme at h ⊢
      split
      · exact .inl rfl
      · rename_i hchunk
        rw [hchunk] at h
        cases h
    · rename_i h1 h2 h3 h4
      rw [if_neg h1, if_neg h2, if_neg h3, if_neg h4]
      split
      · rename_i p n hp
        exact .inr ⟨p, n, hp, rfl⟩
      · rename_i hp
        rw [hp] at h
        cases h

/-- A word without escapes is spelled by its text. -/
theorem take_wordFrom {fuel : Nat} {first : Bool} {pos : Nat} {cs : List Char}
    (hplain : (wordFrom fuel first pos cs).escaped = false)
    (herror : (wordFrom fuel first pos cs).error? = none) :
    cs.take (wordFrom fuel first pos cs).taken = (wordFrom fuel first pos cs).name := by
  fun_induction wordFrom fuel first pos cs with
  | case1 | case6 | case7 => rfl
  | case2 | case4 => cases herror
  | case3 => cases hplain
  | case5 fuel first pos c rest _ _ _ r ih =>
    have hrest : rest.take r.taken = r.name := ih hplain herror
    rw [Nat.add_comm, List.take_succ_cons, hrest]

theorem take_wordLexeme {name : String} (h : (wordLexeme cs).form = .word name false) :
    cs.take (wordLexeme cs).taken = name.toList := by
  let window := cs.takeWhile isWordPart
  let r := wordFrom window.length true 0 window
  have htaken : (wordLexeme cs).taken = r.taken := by
    simp only [wordLexeme]
    split
    · rfl
    · split <;> rfl
  obtain ⟨herror, hname, hplain⟩ : r.error? = none ∧ String.ofList r.name = name ∧
      r.escaped = false := by
    simp only [wordLexeme] at h
    split at h
    · cases h
    · rename_i herror
      split at h
      · cases h
      · injection h with hname hplain
        exact ⟨herror, hname, hplain⟩
  have hle : r.taken ≤ window.length := taken_wordFrom_le _ _ _ _ herror
  have hwindow : cs.take r.taken = window.take r.taken := by
    rw [← List.takeWhile_append_dropWhile (p := isWordPart) (l := cs)]
    exact List.take_append_of_le_length hle
  rw [htaken, hwindow, take_wordFrom hplain herror, ← hname, String.toList_ofList]

/-- A word that is written without escapes stands in the text as it is. -/
theorem take_lexeme_of_word {name : String} (h : (lexeme cs).form = .word name false) :
    cs.take (lexeme cs).taken = name.toList := by
  cases cs with
  | nil => cases h
  | cons c rest =>
    have hnumber := isValue_numberLexeme (c :: rest)
    have hstring := isValue_stringFrom c (rest.length + 1) {} rest
    rw [lexeme_cons] at h ⊢
    split at h
    · rename_i hstart
      rw [if_pos hstart]
      exact take_wordLexeme h
    split at h
    · rw [h] at hnumber
      cases hnumber
    split at h
    · rw [stringLexeme] at h
      rw [h] at hstring
      cases hstring
    split at h
    · unfold templateLexeme at h
      split at h <;> cases h
    · split at h <;> cases h

theorem eq_nil_of_endOfText (h : (lexeme cs).form = .endOfText) : cs = [] := by
  have hmark : (lexeme cs).form.isMark = true := by rw [h]; rfl
  obtain ⟨hnil, -⟩ | heq | ⟨p, n, -, heq⟩ := lexeme_eq_mark hmark
  · exact hnil
  · rw [heq] at h
    cases h
  · rw [heq] at h
    cases h

/-- A mark has text. -/
theorem taken_pos_of_punct {p : Punct} (h : (lexeme cs).form = .punct p) :
    0 < (lexeme cs).taken := by
  have hmark : (lexeme cs).form.isMark = true := by rw [h]; rfl
  obtain ⟨-, hend⟩ | heq | ⟨q, n, hq, heq⟩ := lexeme_eq_mark hmark
  · rw [h] at hend
    cases hend
  · rw [heq]
    exact Nat.one_pos
  · rw [heq]
    obtain ⟨⟨t, q⟩, hfind, hpair⟩ := Option.map_eq_some_iff.1 hq
    have hmem := List.mem_of_find?_eq_some hfind
    have hnonempty : ∀ e ∈ punctuators, 0 < e.1.length := by decide
    dsimp only at hpair
    split at hpair
    · cases hpair
      exact Nat.one_pos
    · cases hpair
      exact hnonempty _ hmem

/-- The first character of a punctuator that has only one spelling. -/
theorem head?_of_punct {p : Punct} {c : Char} (h : (lexeme cs).form = .punct p)
    (hp : p ≠ .backtick ∧ p ≠ .question)
    (hc : ∀ e ∈ punctuators, e.2 = p → e.1.head? = some c) : cs.head? = some c := by
  have hmark : (lexeme cs).form.isMark = true := by rw [h]; rfl
  obtain ⟨-, hend⟩ | heq | ⟨q, n, hq, heq⟩ := lexeme_eq_mark hmark
  · rw [h] at hend
    cases hend
  · rw [heq] at h
    cases h
    exact absurd rfl hp.1
  · rw [heq] at h
    cases h
    obtain ⟨⟨t, q⟩, hfind, heq⟩ := Option.map_eq_some_iff.1 hq
    have hmem := List.mem_of_find?_eq_some hfind
    have hstart := List.find?_some hfind
    obtain ⟨rest, rfl⟩ := List.isPrefixOf_iff_prefix.1 hstart
    dsimp only at heq
    split at heq
    · cases heq
      exact absurd rfl hp.2
    · cases heq
      rw [List.head?_append, hc _ hmem rfl]
      rfl

theorem head?_of_rbrace (h : (lexeme cs).form = .punct .rbrace) : cs.head? = some '}' :=
  head?_of_punct h (by decide) (by decide)

theorem head?_of_div (h : (lexeme cs).form = .punct (.op .div)) : cs.head? = some '/' :=
  head?_of_punct h (by decide) (by decide)

/-! ## Tokens -/

theorem placed_eq_endOfText {form : TokenForm} :
    placed pos form = .endOfText ↔ form = .endOfText := by
  cases form <;> simp [placed]

/-- The token after a place, the text that starts at it and the text after it. -/
structure Scanned.StandsIn (text : List Char) (lo : Nat) (x : Scanned) : Prop where
  le : lo ≤ x.token.span.lo
  at_lo : At text x.token.span.lo x.text
  at_hi : At text x.token.span.hi x.rest
  form : x.token.form = placed x.token.span.lo (lexeme x.text).form
  hi : x.token.span.hi = x.token.span.lo + Text.size (x.text.take (lexeme x.text).taken)
  comments : ∀ m ∈ x.comments, m.SitsIn text

theorem scan_standsIn (hat : At text pos cs) : (scan pos cs).StandsIn text pos :=
  have hskip := skip_standsIn hat
  { le := hskip.le
    at_lo := hskip.rest
    at_hi := hskip.rest.drop _
    form := rfl
    hi := rfl
    comments := hskip.comments }

end Token

end OptionalChain
