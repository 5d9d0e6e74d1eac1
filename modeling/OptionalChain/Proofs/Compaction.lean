import OptionalChain.Proofs.Lexemes

/-!
# Compact text is the text of the tokens

Compaction reads text character by character. On text that the scanner reads without a fault, it
leaves the tokens one after the other, without the optional markers and the non-null assertions.
This fails where the two take a comment or a question mark differently: such text has no plain
tokens.
-/

namespace OptionalChain

/-! ## Gaps -/

namespace Token

/-- What the text skipped so far has opened, for compaction. -/
def SkipMode.mode : SkipMode → Access.Mode
  | .blanks => .code
  | .lineComment _ => .lineComment
  | .blockComment _ star => .blockComment star

theorem faults_settled_ne_nil {g : Gap} (h : g.faults ≠ [] ∨ g.legacy? ≠ none) :
    g.settled.faults ≠ [] := by
  rw [Gap.settled]
  split
  next => simp
  next hnone => simpa [hnone] using h

/-- A fault stays, and an open `<!--` ends as one. -/
theorem faults_skipFrom_ne_nil (mode : SkipMode) (g : Gap) (cs : List Char)
    (h : g.faults ≠ [] ∨ g.legacy? ≠ none) : (skipFrom mode g cs).faults ≠ [] := by
  fun_induction skipFrom mode g cs with
  | case1 | case2 | case8 | case10 => exact faults_settled_ne_nil h
  | case3 lo star g faults =>
    have hfaults : faults ≠ [] := by simp [faults]
    exact faults_settled_ne_nil (.inl hfaults)
  | case6 g cs ih => exact ih (by simp [Gap.pastOpening])
  | case7 g cs _ ih => exact ih (by simp [Gap.pastClosing])
  | case4 | case5 | case9 | case11 | case12 | case13 | case14 => simp_all [Gap.past, Gap.closing]

end Token

namespace Access

/-- Whether a comment starts here. -/
def opensComment : List Char → Bool
  | '/' :: '/' :: _ | '/' :: '*' :: _ => true
  | _ => false

/-- Whether the lines of skipped text end with `\n` or `\r\n`, and no byte-order mark stands in it.
Compaction knows no other line ends, and keeps the mark. -/
def isPlainGap : List Char → Bool
  | [] => true
  | c :: cs =>
    (c == '\n' || c == '\r' && cs.head? == some '\n' ||
      !Token.isLineEnd c && c.toNat != 0xFEFF) && isPlainGap cs

theorem opensComment_eq_false {c : Char} {cs : List Char}
    (hline : ∀ tail, c = '/' → cs = '/' :: tail → False)
    (hblock : ∀ tail, c = '/' → cs = '*' :: tail → False) : opensComment (c :: cs) = false := by
  rw [opensComment.eq_def]
  split
  next tail heq =>
    obtain ⟨rfl, rfl⟩ := List.cons.inj heq
    exact (hline tail rfl rfl).elim
  next tail heq =>
    obtain ⟨rfl, rfl⟩ := List.cons.inj heq
    exact (hblock tail rfl rfl).elim
  next => rfl

theorem opensComment_skipFrom (mode : Token.SkipMode) (g : Token.Gap) (cs : List Char) :
    opensComment (Token.skipFrom mode g cs).rest = false := by
  fun_induction Token.skipFrom mode g cs with
  | case1 | case2 | case3 | case8 => simp [opensComment]
  | case10 g c cs hline hblock => exact opensComment_eq_false hline hblock
  | case4 | case5 | case6 | case7 | case9 | case11 | case12 | case13 | case14 => assumption

theorem compactFrom_blank {c : Char} (h : Text.isBlank c = true) (cs : List Char) :
    compactFrom .code (c :: cs) = compactFrom .code cs := by
  have hne {d : Char} (hd : Text.isBlank d = false) : c ≠ d := by
    rintro rfl
    exact absurd h (by simp [hd])
  have hslash : c ≠ '/' := hne (by decide)
  have hquestion : c ≠ '?' := hne (by decide)
  have hbang : c ≠ '!' := hne (by decide)
  have hquote : isQuote c = false := by
    simp [isQuote, hne (by decide : Text.isBlank '\'' = false),
      hne (by decide : Text.isBlank '"' = false), hne (by decide : Text.isBlank '\x60' = false)]
  simp [compactFrom, hslash, hquestion, hbang, hquote, h]

/-- Text before `rest` that leaves nothing in compact text when it is a plain gap. -/
def Skips (mode : Mode) (cs rest : List Char) : Prop :=
  ∃ s, cs = s ++ rest ∧ (isPlainGap s = true → compactFrom mode cs = compactFrom .code rest)

theorem Skips.cons {m₁ m₂ : Mode} {c : Char} {cs rest : List Char} (h : Skips m₂ cs rest)
    (hstep : ∀ s, cs = s ++ rest → isPlainGap (c :: s) = true →
      compactFrom m₁ (c :: cs) = compactFrom m₂ cs) : Skips m₁ (c :: cs) rest := by
  obtain ⟨s, hs, hcompact⟩ := h
  refine ⟨c :: s, by rw [hs, List.cons_append], fun hplain ↦ ?_⟩
  have htail : isPlainGap s = true := by
    rw [isPlainGap, Bool.and_eq_true] at hplain
    exact hplain.2
  rw [hstep s hs hplain, hcompact htail]

/-- A line comment ends for both at the same line break, if it is `\n` or `\r\n`. -/
theorem compactFrom_lineEnd {c : Char} (hc : Token.isLineEnd c = true) {s rest : List Char}
    (h : isPlainGap (c :: s) = true) :
    compactFrom .lineComment (c :: (s ++ rest)) = compactFrom .code (s ++ rest) := by
  simp only [isPlainGap, hc, Bool.not_true, Bool.false_and, Bool.or_false, Bool.and_eq_true,
    Bool.or_eq_true, beq_iff_eq] at h
  rcases h.1 with rfl | ⟨rfl, hhead⟩
  · simp [compactFrom]
  · cases s with
    | nil => simp at hhead
    | cons d s =>
      obtain rfl : d = '\n' := by simpa using hhead
      rw [List.cons_append, compactFrom_blank (by decide)]
      simp [compactFrom]

theorem isBlank_of_isPlainGap {c : Char} {s : List Char} (hc : Token.isSpace c = true)
    (h : isPlainGap (c :: s) = true) : Text.isBlank c = true := by
  rw [Token.isSpace, Bool.or_eq_true, beq_iff_eq] at hc
  rcases hc with hblank | hmark
  · exact hblank
  · obtain rfl : c = '\uFEFF' := by
      rw [← Char.ofNat_toNat c, hmark]
    simp [isPlainGap] at h

/-- Skipped text leaves nothing in compact text. -/
theorem skips_skipFrom (mode : Token.SkipMode) (g : Token.Gap) (cs : List Char)
    (h : (Token.skipFrom mode g cs).faults = []) :
    Skips mode.mode cs (Token.skipFrom mode g cs).rest := by
  fun_induction Token.skipFrom mode g cs with
  | case1 | case2 | case8 | case10 =>
    exact ⟨[], rfl, fun _ ↦ by simp [Token.SkipMode.mode, compactFrom]⟩
  | case3 lo star g faults =>
    have hfaults : faults ≠ [] := by simp [faults]
    exact absurd h (Token.faults_settled_ne_nil (.inl hfaults))
  | case6 g cs =>
    exact absurd h (Token.faults_skipFrom_ne_nil _ _ _ (by simp [Token.Gap.pastOpening]))
  | case7 g cs =>
    exact absurd h (Token.faults_skipFrom_ne_nil _ _ _ (by simp [Token.Gap.pastClosing]))
  | case4 g cs ih =>
    obtain ⟨s, hs, hcompact⟩ := ih h
    refine ⟨'/' :: '/' :: s, congrArg ('/' :: '/' :: ·) hs, fun hplain ↦ ?_⟩
    simp only [Token.SkipMode.mode, compactFrom]
    exact hcompact (by simpa [isPlainGap, Token.isLineEnd] using hplain)
  | case5 g cs ih =>
    obtain ⟨s, hs, hcompact⟩ := ih h
    refine ⟨'/' :: '*' :: s, congrArg ('/' :: '*' :: ·) hs, fun hplain ↦ ?_⟩
    simp only [Token.SkipMode.mode, compactFrom]
    exact hcompact (by simpa [isPlainGap, Token.isLineEnd] using hplain)
  | case9 g c cs _ _ _ _ hspace ih =>
    apply (ih h).cons
    intro s _ hplain
    exact compactFrom_blank (isBlank_of_isPlainGap hspace hplain) cs
  | case11 lo g c cs hend ih =>
    apply (ih h).cons
    intro s hs hplain
    rw [hs]
    exact compactFrom_lineEnd hend hplain
  | case12 lo g c cs hend ih =>
    apply (ih h).cons
    intro s hs hplain
    have hne : c ≠ '\n' := by
      rintro rfl
      exact absurd hend (by decide)
    simp [Token.SkipMode.mode, compactFrom, hne]
  | case13 lo star g c cs hend ih =>
    apply (ih h).cons
    intro s hs hplain
    simp [Token.SkipMode.mode, compactFrom, hend]
  | case14 lo star g c cs hend ih =>
    apply (ih h).cons
    intro s hs hplain
    simp [Token.SkipMode.mode, compactFrom, hend]

theorem take_length_sub {s rest cs : List Char} (h : cs = s ++ rest) :
    cs.take (cs.length - rest.length) = s := by
  rw [h, List.length_append, Nat.add_sub_cancel]
  exact List.take_left

theorem compact_skip {pos : Nat} {cs : List Char} (hfaults : (Token.skip pos cs).faults = [])
    (hplain : isPlainGap (cs.take (cs.length - (Token.skip pos cs).rest.length)) = true) :
    compact cs = compact (Token.skip pos cs).rest := by
  obtain ⟨s, hs, hcompact⟩ := skips_skipFrom .blanks _ cs hfaults
  have htake : cs.take (cs.length - (Token.skip pos cs).rest.length) = s := take_length_sub hs
  exact hcompact (htake ▸ hplain)

/-! ## Punctuators -/

/-- A token as it is written, and the text after it. -/
structure Written where
  text : List Char
  after : List Char

namespace Written

/-- Whether the token ends with a question mark that compaction takes for an optional marker,
because a point follows. -/
def isSwallowed (w : Written) : Bool :=
  w.text.getLast? == some '?' && w.after.head? == some '.'

/-- What is left of the token without optional markers and non-null assertions. -/
def bare? (w : Written) : Option (List Char) :=
  if w.text = ['?', '.'] then if opensBracket w.after then none else some ['.']
  else if w.text = ['!'] ∧ endsAssertion w.after = true then none
  else some w.text

theorem bare?_eq_some {w : Written} (hquestion : w.text.head? ≠ some '?')
    (hbang : w.text.head? ≠ some '!') : w.bare? = some w.text := by
  have hmarker : w.text ≠ ['?', '.'] := by
    intro h
    simp [h] at hquestion
  have hassertion : w.text ≠ ['!'] := by
    intro h
    simp [h] at hbang
  simp [bare?, hmarker, hassertion]

end Written

/-- What is left of a token stands before what is left of the text after it. -/
def Leaves (w : Written) : Prop :=
  compactFrom .code (w.text ++ w.after) = w.bare?.getD [] ++ compactFrom .code w.after

/-- Kept text is a token of its own unless it is a marker or an assertion. -/
theorem leaves_of_kept {cs rest : List Char} {n : Nat} (h : Kept .code .code n cs rest)
    (hquestion : cs.head? ≠ some '?') (hbang : cs.head? ≠ some '!') :
    Leaves ⟨cs.take n, cs.drop n⟩ := by
  have hhead (c : Char) (hc : cs.head? ≠ some c) : (cs.take n).head? ≠ some c := by
    cases cs with
    | nil => simp
    | cons d cs => cases n <;> simp_all
  rw [Leaves, Written.bare?_eq_some (hhead _ hquestion) (hhead _ hbang)]
  rw [List.take_append_drop, h.drop_eq]
  exact h.compactFrom_eq

theorem exists_punctuator {cs : List Char} {p : Punct} {n : Nat}
    (h : Token.punctuator? cs = some (p, n)) :
    ∃ t tail, cs = t ++ tail ∧ t.length = n ∧ t ∈ Token.punctuators.map Prod.fst := by
  obtain ⟨⟨t, p'⟩, hfind, hp⟩ := Option.map_eq_some_iff.1 h
  have hmem := List.mem_of_find?_eq_some hfind
  obtain ⟨tail, rfl⟩ : t <+: cs := by simpa using List.find?_some hfind
  dsimp only at hp
  split at hp
  next hdigit =>
    have hmarker : ∀ e ∈ Token.punctuators, e.2 = .questionDot → e.1 = ['?', '.'] := by decide
    obtain rfl : t = ['?', '.'] := hmarker _ hmem hdigit.1
    obtain ⟨-, rfl⟩ := Prod.mk.inj hp
    exact ⟨['?'], '.' :: tail, rfl, rfl, by decide⟩
  next =>
    obtain ⟨-, rfl⟩ := Prod.mk.inj hp
    exact ⟨t, tail, rfl, rfl, List.mem_map_of_mem hmem⟩

/-- The punctuators with a character that compaction acts on. -/
def activePunctuators : List (List Char) :=
  [['!', '=', '='], ['?', '?', '='], ['!', '='], ['?', '?'], ['?', '.'], ['/', '='], ['?'], ['!'],
    ['\x60'], ['/']]

theorem leaves_of_inert {t tail : List Char} (h : t.all isInert = true) : Leaves ⟨t, tail⟩ := by
  have hhead (c : Char) (hc : isInert c = false) : t.head? ≠ some c := by
    intro heq
    have hinert := List.all_eq_true.1 h c (List.mem_of_mem_head? heq)
    exact absurd hinert (by simp [hc])
  rw [Leaves, Written.bare?_eq_some (hhead '?' (by decide)) (hhead '!' (by decide))]
  exact compactFrom_code_append h tail

theorem compactFrom_question {cs : List Char} (h : cs.head? ≠ some '.') :
    compactFrom .code ('?' :: cs) = '?' :: compactFrom .code cs := by
  cases cs with
  | nil => decide
  | cons d cs =>
    have hpoint : d ≠ '.' := by simpa using h
    simp [compactFrom, hpoint, isQuote, Text.isBlank]

theorem compactFrom_slash {cs : List Char} (h : opensComment ('/' :: cs) = false) :
    compactFrom .code ('/' :: cs) = '/' :: compactFrom .code cs := by
  cases cs with
  | nil => decide
  | cons d cs =>
    have hline : d ≠ '/' := by
      rintro rfl
      simp [opensComment] at h
    have hblock : d ≠ '*' := by
      rintro rfl
      simp [opensComment] at h
    simp [compactFrom, hline, hblock, isQuote, Text.isBlank]

theorem compactFrom_bang (cs : List Char) : compactFrom .code ('!' :: cs) =
    if endsAssertion cs then compactFrom .code cs else '!' :: compactFrom .code cs := by
  simp [compactFrom, isQuote, Text.isBlank]

theorem leaves_punctuator {t tail : List Char} (ht : t ∈ Token.punctuators.map Prod.fst)
    (hquote : t ≠ ['\x60']) (hcomment : opensComment (t ++ tail) = false)
    (hswallowed : Written.isSwallowed ⟨t, tail⟩ = false) : Leaves ⟨t, tail⟩ := by
  have hclass : ∀ t ∈ Token.punctuators.map Prod.fst,
      t.all isInert = true ∨ t ∈ activePunctuators := by decide
  have hequals (cs : List Char) : compactFrom .code ('=' :: cs) = '=' :: compactFrom .code cs :=
    compactFrom_code_cons (by decide) cs
  rcases hclass t ht with hinert | hactive
  · exact leaves_of_inert hinert
  · simp only [activePunctuators, List.mem_cons, List.not_mem_nil, or_false] at hactive
    simp only [Leaves]
    rcases hactive with rfl | rfl | rfl | rfl | rfl | rfl | rfl | rfl | rfl | rfl
    · simp [Written.bare?, compactFrom_bang, endsAssertion, hequals]
    · simp only [List.cons_append, List.nil_append]
      rw [compactFrom_question (by simp), compactFrom_question (by simp), hequals]
      simp [Written.bare?]
    · simp [Written.bare?, compactFrom_bang, endsAssertion, hequals]
    · have hpoint : tail.head? ≠ some '.' := by simpa [Written.isSwallowed] using hswallowed
      simp only [List.cons_append, List.nil_append]
      rw [compactFrom_question (by simp), compactFrom_question hpoint]
      simp [Written.bare?]
    · simp only [Written.bare?, List.cons_append, List.nil_append, compactFrom]
      split <;> simp
    · simp [Written.bare?, compactFrom_slash, opensComment, hequals]
    · have hpoint : tail.head? ≠ some '.' := by simpa [Written.isSwallowed] using hswallowed
      simp [Written.bare?, compactFrom_question, hpoint]
    · simp only [Written.bare?, List.cons_append, List.nil_append, compactFrom_bang]
      split <;> simp_all
    · exact absurd rfl hquote
    · simp only [List.cons_append, List.nil_append] at hcomment ⊢
      rw [compactFrom_slash hcomment]
      simp [Written.bare?]

/-! ## Tokens -/

/-- The token that the text starts with, unless it has a fault. A template is one token, up to its
next mark. -/
def token? : List Char → Option Written
  | '\x60' :: cs =>
    (Token.pastMark? cs).map fun rest =>
      ⟨'\x60' :: cs.take (cs.length - rest.length), rest⟩
  | cs =>
    let x := Token.lexeme cs
    if x.isSound then some ⟨cs.take x.taken, cs.drop x.taken⟩ else none

/-- Each token that the scanner reads without a fault leaves its text. -/
theorem leaves_lexeme {cs : List Char} {x : Token.Lexeme} (hx : Token.lexeme cs = x)
    (hsound : x.isSound = true) (hquote : cs.head? ≠ some '\x60')
    (hcomment : opensComment cs = false)
    (hswallowed : Written.isSwallowed ⟨cs.take x.taken, cs.drop x.taken⟩ = false) :
    Leaves ⟨cs.take x.taken, cs.drop x.taken⟩ := by
  rw [Token.lexeme.eq_def] at hx
  split at hx
  next =>
    simp [Leaves, Written.bare?, compactFrom]
  next c rest =>
    have hkept (hquestion : c ≠ '?') (hbang : c ≠ '!')
        (h : ∃ after, Kept .code .code x.taken (c :: rest) after) :
        Leaves ⟨(c :: rest).take x.taken, (c :: rest).drop x.taken⟩ := by
      obtain ⟨after, hafter⟩ := h
      exact leaves_of_kept hafter (by simpa using hquestion) (by simpa using hbang)
    split at hx
    next hword =>
      subst hx
      refine hkept ?_ ?_ (Token.kept_wordLexeme hsound)
      all_goals
        rintro rfl
        exact absurd hword (by decide)
    next =>
      split at hx
      next hnumber =>
        refine hkept ?_ ?_ (Token.kept_numberLexeme hx hsound)
        all_goals
          rintro rfl
          simp [Char.isDigit] at hnumber
      next =>
        split at hx
        next hstring =>
          subst hx
          refine hkept ?_ ?_ (Token.kept_stringLexeme hstring hsound)
          all_goals
            rintro rfl
            exact absurd hstring (by decide)
        next =>
          split at hx
          next hmark => simp [hmark] at hquote
          next =>
            split at hx
            next p n hpunct =>
              subst hx
              obtain ⟨t, tail, htext, rfl, ht⟩ := exists_punctuator hpunct
              rw [htext] at hquote hcomment
              simp only [htext, List.take_left, List.drop_left] at hswallowed ⊢
              refine leaves_punctuator ht ?_ hcomment hswallowed
              rintro rfl
              simp at hquote
            next => simp [← hx, Token.Lexeme.isSound] at hsound

theorem token?_eq_some {cs : List Char} {w : Written} (h : token? cs = some w) :
    w.text ++ w.after = cs ∧ (opensComment cs = false → w.isSwallowed = false → Leaves w) := by
  rw [token?.eq_def] at h
  split at h
  next tail =>
    obtain ⟨rest, hrest, rfl⟩ := Option.map_eq_some_iff.1 h
    obtain ⟨n, hkept⟩ := Token.kept_pastMark hrest
    have hmark := (Kept.quote (by decide : isQuote '\x60' = true) tail).trans hkept rfl
    have hlength : tail.length - rest.length = n := by
      rw [hkept.length_eq, Nat.add_sub_cancel]
    have htext : tail.take n ++ rest = tail := by
      rw [← hkept.drop_eq, List.take_append_drop]
    refine ⟨by simp [hlength, htext], fun _ _ ↦ ?_⟩
    have hleaves := leaves_of_kept hmark (by simp) (by simp)
    rw [hmark.drop_eq, Nat.add_comm, List.take_succ_cons] at hleaves
    rw [hlength]
    exact hleaves
  next hmark =>
    dsimp only at h
    split at h
    next hsound =>
      obtain rfl := Option.some.inj h
      refine ⟨List.take_append_drop _ _, fun hcomment hswallowed ↦ ?_⟩
      refine leaves_lexeme rfl hsound ?_ hcomment hswallowed
      intro hhead
      obtain ⟨tail, rfl⟩ := List.head?_eq_some_iff.1 hhead
      exact hmark tail rfl
    next => simp at h

/-- The tokens of the text that starts at byte `pos`, if it has no faults and compaction takes its
comments and question marks the same way. -/
def tokensFrom? : (fuel pos : Nat) → List Char → Option (List Written)
  | 0, _, _ => none
  | fuel + 1, pos, cs =>
    let g := Token.skip pos cs
    if g.faults.isEmpty && isPlainGap (cs.take (cs.length - g.rest.length)) then
      if g.rest.isEmpty then some []
      else
        (token? g.rest).bind fun w =>
          if w.isSwallowed then none
          else (tokensFrom? fuel (g.pos + Text.size w.text) w.after).map (w :: ·)
    else none

/-- Compact text is what is left of the tokens, one after the other. -/
theorem compact_eq_flatten {fuel pos : Nat} {cs : List Char} {ws : List Written}
    (h : tokensFrom? fuel pos cs = some ws) :
    compact cs = (ws.filterMap Written.bare?).flatten := by
  induction fuel generalizing pos cs ws with
  | zero => simp [tokensFrom?] at h
  | succ fuel ih =>
    rw [tokensFrom?] at h
    split at h
    next hplain =>
      rw [Bool.and_eq_true, List.isEmpty_iff] at hplain
      rw [compact_skip hplain.1 hplain.2]
      split at h
      next hend =>
        rw [List.isEmpty_iff] at hend
        simp only [Option.some.injEq] at h
        simp [← h, hend, compact, compactFrom]
      next =>
        obtain ⟨w, hw, hmore⟩ := Option.bind_eq_some_iff.1 h
        split at hmore
        next => simp at hmore
        next hswallowed =>
          obtain ⟨vs, hvs, rfl⟩ := Option.map_eq_some_iff.1 hmore
          obtain ⟨htext, hleaves⟩ := token?_eq_some hw
          have hcomment : opensComment (Token.skip pos cs).rest = false :=
            opensComment_skipFrom ..
          have hw := hleaves hcomment (by simpa using hswallowed)
          rw [← htext, compact, hw, ← compact, ih hvs]
          cases hbare : w.bare? <;> simp [hbare]
    next => simp at h

end Access

end OptionalChain
