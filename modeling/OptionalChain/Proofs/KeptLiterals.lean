import OptionalChain.Access.Path
import OptionalChain.Proofs.Compaction

/-!
# String literals in compact text

A string literal is left as it is, wherever it stands in code: what precedes it is compacted as if
the literal were not there, and so is what follows it. This holds because no quote is among the
characters that compaction looks ahead for.
-/

namespace OptionalChain

namespace Access

variable {q c : Char} {p l s w body rest : List Char}

/-! ## Literals -/

/-- Whether the backslash at the end of a text is active, given whether the one before the text is:
after an active backslash a character, also a backslash, is escaped. -/
def endsActive : Bool → List Char → Bool
  | active, [] => active
  | active, c :: w => endsActive (c == '\\' && !active) w

/-- What can stand between two quotes of a kind: each such quote in it is escaped, and the one after
it is not. -/
structure IsBody (q : Char) (w : List Char) : Prop where
  escaped : ∀ u v, w = u ++ q :: v → endsActive false u = true
  complete : endsActive false w = false

/-- Whether a text that follows an active backslash, or none, is a body. -/
def isBodyFrom (q : Char) : Bool → List Char → Bool
  | active, [] => !active
  | active, c :: w => (active || c != q) && isBodyFrom q (c == '\\' && !active) w

theorem isBodyFrom_iff (q : Char) (active : Bool) (w : List Char) :
    isBodyFrom q active w = true ↔
      (∀ u v, w = u ++ q :: v → endsActive active u = true) ∧ endsActive active w = false := by
  induction w generalizing active with
  | nil => simp [isBodyFrom, endsActive]
  | cons c w ih =>
    rw [isBodyFrom, Bool.and_eq_true, ih, endsActive, ← and_assoc]
    refine and_congr_left fun _ ↦ ⟨fun h u v huv ↦ ?_, fun h ↦ ⟨?_, fun u v huv ↦ ?_⟩⟩
    · cases u with
      | nil =>
        obtain ⟨rfl, -⟩ := List.cons.inj huv
        simpa [endsActive] using h.1
      | cons d u =>
        obtain ⟨rfl, hw⟩ := List.cons.inj huv
        exact h.2 u v hw
    · by_cases hc : c = q
      · subst hc
        simpa [endsActive] using h [] w rfl
      · simp [hc]
    · exact h (c :: u) v (by rw [huv, List.cons_append])

instance (q : Char) (w : List Char) : Decidable (IsBody q w) :=
  decidable_of_iff (isBodyFrom q false w = true)
    ((isBodyFrom_iff q false w).trans ⟨fun h ↦ ⟨h.1, h.2⟩, fun h ↦ ⟨h.1, h.2⟩⟩)

/-- A quote, a body and the same quote again. -/
inductive IsLiteral : List Char → Prop
  | mk {q : Char} {w : List Char} (hq : isQuote q = true) (hw : IsBody q w) :
    IsLiteral (q :: (w ++ [q]))

theorem ne_of_isQuote {d : Char} (hq : isQuote q = true) (hd : isQuote d = false) : q ≠ d := by
  rintro rfl
  exact absurd hq (by simp [hd])

/-- Quoted text is kept up to the first quote that is not escaped. -/
theorem compactFrom_body (hq : isQuote q = true) {active : Bool}
    (h : isBodyFrom q active w = true) (rest : List Char) :
    compactFrom (if active then .escaped q else .quoted q) (w ++ q :: rest) =
      w ++ q :: compactFrom .code rest := by
  have hbackslash : q ≠ '\\' := ne_of_isQuote hq (by decide)
  induction w generalizing active with
  | nil =>
    obtain rfl : active = false := by simpa [isBodyFrom] using h
    simp [compactFrom, hbackslash]
  | cons c w ih =>
    obtain ⟨hc, hw⟩ := Bool.and_eq_true_iff.1 h
    have hnext := ih hw
    cases active with
    | true => simpa [compactFrom] using hnext
    | false =>
      have hother : c ≠ q := by simpa using hc
      by_cases hslash : c = '\\'
      · subst hslash
        simpa [compactFrom] using hnext
      · simpa [compactFrom, hslash, hother] using hnext

theorem compactFrom_quote (hq : isQuote q = true) (cs : List Char) :
    compactFrom .code (q :: cs) = q :: compactFrom (.quoted q) cs := by
  simp [compactFrom, ne_of_isQuote hq (by decide : isQuote '/' = false),
    ne_of_isQuote hq (by decide : isQuote '?' = false), hq]

/-- A literal is kept, and what follows it is read as code. -/
theorem IsLiteral.compactFrom_append (h : IsLiteral l) (rest : List Char) :
    compactFrom .code (l ++ rest) = l ++ compactFrom .code rest := by
  obtain ⟨hq, hw⟩ := h
  have hbody := compactFrom_body hq ((isBodyFrom_iff _ _ _).2 ⟨hw.escaped, hw.complete⟩) rest
  simp only [List.cons_append, List.append_assoc, List.nil_append]
  rw [compactFrom_quote hq]
  exact congrArg _ hbody

theorem IsLiteral.compact_eq (h : IsLiteral l) : compact l = l := by
  have hkept := h.compactFrom_append []
  simpa [compact, compactFrom] using hkept

/-! ## Closed text -/

/-- Text in which every quote and every comment is closed. A comment that goes on to the end of its
line is closed by `\n`. -/
inductive Closed : List Char → Prop
  | nil : Closed []
  | plain {c : Char} {w : List Char} (hquote : isQuote c = false)
    (hcomment : opensComment (c :: w) = false) (h : Closed w) : Closed (c :: w)
  | literal {l w : List Char} (hl : IsLiteral l) (h : Closed w) : Closed (l ++ w)
  | line {body w : List Char} (hbody : '\n' ∉ body) (h : Closed w) :
    Closed ('/' :: '/' :: (body ++ '\n' :: w))
  | block {body w : List Char} (hbody : ¬['*', '/'] <:+: body) (h : Closed w) :
    Closed ('/' :: '*' :: (body ++ '*' :: '/' :: w))

theorem compactFrom_line (h : '\n' ∉ body) (rest : List Char) :
    compactFrom .lineComment (body ++ '\n' :: rest) = compactFrom .code rest := by
  induction body with
  | nil => simp [compactFrom]
  | cons c body ih =>
    obtain ⟨hc, hbody⟩ : '\n' ≠ c ∧ '\n' ∉ body := by simpa using h
    simp [compactFrom, hc.symm, ih hbody]

theorem compactFrom_block {star : Bool} (h : ¬['*', '/'] <:+: body)
    (hstar : star = true → body.head? ≠ some '/') (rest : List Char) :
    compactFrom (.blockComment star) (body ++ '*' :: '/' :: rest) = compactFrom .code rest := by
  induction body generalizing star with
  | nil => simp [compactFrom]
  | cons c body ih =>
    have hend : (star && c == '/') = false := by
      cases star <;> simp_all
    have hnext : (c == '*') = true → body.head? ≠ some '/' := by
      intro hc hhead
      obtain ⟨tail, rfl⟩ := List.head?_eq_some_iff.1 hhead
      exact h ⟨[], tail, by simp [beq_iff_eq.1 hc]⟩
    rw [List.cons_append, compactFrom, if_neg (by simp [hend])]
    exact ih (fun hin ↦ h (hin.trans (List.suffix_cons c body).isInfix)) hnext

/-! ## Code before a literal -/

/-- A marker leaves what its point leaves, before a bracket without the point. -/
theorem compactFrom_marker (cs : List Char) :
    compactFrom .code ('?' :: '.' :: cs) =
      if opensBracket cs then (compactFrom .code ('.' :: cs)).tail
      else compactFrom .code ('.' :: cs) := by
  have hpoint := compactFrom_code_cons (by decide : isInert '.' = true) cs
  rw [hpoint, List.tail_cons, compactFrom]

theorem opensBracket_cons (c : Char) (cs : List Char) :
    opensBracket (c :: cs) = (c == '[' || c == '(') := by
  by_cases hsquare : c = '['
  · simp [opensBracket, hsquare]
  · by_cases hround : c = '(' <;> simp [opensBracket, hsquare, hround]

theorem endsAssertion_cons (c : Char) (cs : List Char) :
    endsAssertion (c :: cs) = (c == '.' || c == '[' || c == ')') := by
  by_cases hpoint : c = '.'
  · simp [endsAssertion, hpoint]
  · by_cases hsquare : c = '['
    · simp [endsAssertion, hsquare]
    · by_cases hround : c = ')' <;> simp [endsAssertion, hpoint, hsquare, hround]

section LookAhead

/-! No test of the next character holds of a quote, so that a quote does the same as the end of the
text. -/

variable (hq : isQuote q = true) (w tail : List Char)

include hq

theorem opensBracket_append_quote : opensBracket (w ++ q :: tail) = opensBracket w := by
  cases w with
  | nil =>
    have hsquare := ne_of_isQuote hq (by decide : isQuote '[' = false)
    have hround := ne_of_isQuote hq (by decide : isQuote '(' = false)
    simp [opensBracket, hsquare, hround]
  | cons c w => rw [List.cons_append, opensBracket_cons, opensBracket_cons]

theorem endsAssertion_append_quote : endsAssertion (w ++ q :: tail) = endsAssertion w := by
  cases w with
  | nil =>
    have hpoint := ne_of_isQuote hq (by decide : isQuote '.' = false)
    have hsquare := ne_of_isQuote hq (by decide : isQuote '[' = false)
    have hround := ne_of_isQuote hq (by decide : isQuote ')' = false)
    simp [endsAssertion, hpoint, hsquare, hround]
  | cons c w => rw [List.cons_append, endsAssertion_cons, endsAssertion_cons]

theorem opensComment_append_quote (h : opensComment (c :: w) = false) :
    opensComment (c :: (w ++ q :: tail)) = false := by
  have hline := ne_of_isQuote hq (by decide : isQuote '/' = false)
  have hblock := ne_of_isQuote hq (by decide : isQuote '*' = false)
  refine opensComment_eq_false (fun v hc hv ↦ ?_) fun v hc hv ↦ ?_
  · cases w with
    | nil => exact hline (List.cons.inj hv).1
    | cons d w => simp [hc, (List.cons.inj hv).1, opensComment] at h
  · cases w with
    | nil => exact hblock (List.cons.inj hv).1
    | cons d w => simp [hc, (List.cons.inj hv).1, opensComment] at h

/-- One character of code, which opens no quote or comment, leaves the same before a quote. -/
theorem compactFrom_cons_append_quote (hquote : isQuote c = false)
    (hcomment : opensComment (c :: w) = false)
    (ih : compactFrom .code (w ++ q :: tail) =
      compactFrom .code w ++ compactFrom .code (q :: tail)) :
    compactFrom .code (c :: (w ++ q :: tail)) =
      compactFrom .code (c :: w) ++ compactFrom .code (q :: tail) := by
  by_cases hinert : isInert c = true
  · rw [compactFrom_code_cons hinert, compactFrom_code_cons hinert, ih, List.cons_append]
  by_cases hblank : Text.isBlank c = true
  · rw [compactFrom_blank hblank, compactFrom_blank hblank, ih]
  obtain rfl | rfl | rfl : c = '/' ∨ c = '?' ∨ c = '!' := by
    refine Decidable.byContradiction fun hother ↦ hinert ?_
    simp only [not_or] at hother
    simp [isInert, hquote, hblank, hother]
  · rw [compactFrom_slash (opensComment_append_quote hq w tail hcomment),
      compactFrom_slash hcomment, ih, List.cons_append]
  · -- A point after the question mark is read with it.
    by_cases hpoint : ∃ v, w = '.' :: v
    · obtain ⟨v, rfl⟩ := hpoint
      have hbracket := opensBracket_append_quote hq v tail
      rw [List.cons_append] at ih ⊢
      rw [compactFrom_marker, compactFrom_marker, hbracket, ih]
      split
      · rw [compactFrom_code_cons (by decide : isInert '.' = true)]
        rfl
      · rfl
    · have hhead : w.head? ≠ some '.' := fun h ↦ hpoint (List.head?_eq_some_iff.1 h)
      have hnext : (w ++ q :: tail).head? ≠ some '.' := by
        cases w with
        | nil => simpa using ne_of_isQuote hq (by decide : isQuote '.' = false)
        | cons d w => exact hhead
      rw [compactFrom_question hnext, compactFrom_question hhead, ih, List.cons_append]
  · rw [compactFrom_bang, compactFrom_bang, endsAssertion_append_quote hq, ih]
    split <;> rfl

end LookAhead

/-- Closed text is compacted by itself if a quote follows it. -/
theorem Closed.compactFrom_append (h : Closed p) (hq : isQuote q = true) (tail : List Char) :
    compactFrom .code (p ++ q :: tail) = compactFrom .code p ++ compactFrom .code (q :: tail) := by
  induction h with
  | nil => rfl
  | @plain c w hquote hcomment _ ih =>
    exact compactFrom_cons_append_quote hq w tail hquote hcomment ih
  | @literal l w hl _ ih =>
    rw [List.append_assoc, hl.compactFrom_append, hl.compactFrom_append, ih, List.append_assoc]
  | @line body w hbody _ ih =>
    simp only [List.cons_append, List.append_assoc, compactFrom]
    rw [compactFrom_line hbody, compactFrom_line hbody, ih]
  | @block body w hbody _ ih =>
    simp only [List.cons_append, List.append_assoc, compactFrom]
    rw [compactFrom_block hbody (by simp), compactFrom_block hbody (by simp), ih]

theorem Closed.compact_append_literal (hp : Closed p) (hl : IsLiteral l) (s : List Char) :
    compact (p ++ l ++ s) = compact p ++ l ++ compact s := by
  have hliteral := hl.compactFrom_append s
  obtain ⟨hq, hw⟩ := hl
  rw [List.append_assoc, List.append_assoc]
  simp only [compact]
  rw [← hliteral]
  exact hp.compactFrom_append hq _

end Access

/-! ## Keys of elements -/

namespace Step

variable {f f' : SourceFile} {optional optional' : Bool} {object object' expr expr' e e' : Node}
  {span span' : Span}

/-- The key of an access to an element is the text of the literal in brackets. -/
theorem key_ofMember_literal (h : Access.IsLiteral (f.slice e.span)) :
    (ofMember f optional object (.mk .computed span [e]) expr).key =
      '[' :: f.slice e.span ++ [']'] := by
  simp [ofMember, Node.kind, Node.children, h.compact_eq]

theorem key_eq_iff_of_literal (h : Access.IsLiteral (f.slice e.span))
    (h' : Access.IsLiteral (f'.slice e'.span)) :
    (ofMember f optional object (.mk .computed span [e]) expr).key =
        (ofMember f' optional' object' (.mk .computed span' [e']) expr').key ↔
      f.slice e.span = f'.slice e'.span := by
  rw [key_ofMember_literal h, key_ofMember_literal h']
  simp

end Step

namespace Access

/-- A literal is its own compact text. Between closed text and any other text it stands there
unchanged, and the two are compacted apart. So accesses to elements with literals as their keys have
the same key exactly if the literals are written the same. -/
theorem literals_survive_compaction :
    (∀ l, IsLiteral l → compact l = l) ∧
      (∀ p l s, Closed p → IsLiteral l → compact (p ++ l ++ s) = compact p ++ l ++ compact s) ∧
      ∀ (f f' : SourceFile) (optional optional' : Bool) (object object' expr expr' e e' : Node)
        (span span' : Span), IsLiteral (f.slice e.span) → IsLiteral (f'.slice e'.span) →
        ((Step.ofMember f optional object (.mk .computed span [e]) expr).key =
            (Step.ofMember f' optional' object' (.mk .computed span' [e']) expr').key ↔
          f.slice e.span = f'.slice e'.span) :=
  ⟨fun _ hl ↦ hl.compact_eq, fun _ _ s hp hl ↦ hp.compact_append_literal hl s,
    fun _ _ _ _ _ _ _ _ _ _ _ _ h h' ↦ Step.key_eq_iff_of_literal h h'⟩

def quotedKeys : SourceFile :=
  .ofText "a.ts" "foo['a b'] && foo['ab'].c;".toList

/-- The keys of the accesses in `quotedKeys`. -/
def spacedKey : Node := .mk (.literal (.string "a b")) ⟨4, 9⟩ []

def joinedKey : Node := .mk (.literal (.string "ab")) ⟨18, 22⟩ []

theorem closed_commented_access : Closed "foo[/* ' */".toList := by
  have hcomment : Closed ('/' :: '*' :: ([' ', '\'', ' '] ++ '*' :: '/' :: [])) :=
    .block (by decide) .nil
  exact .plain rfl rfl (.plain rfl rfl (.plain rfl rfl (.plain rfl rfl hcomment)))

/-- A literal with what looks like a comment, behind a comment with a quote. In a file, two keys
that differ by a blank inside the quotes. -/
theorem quoted_comment_kept :
    (Closed "foo[/* ' */".toList ∧ IsLiteral "'a \\' // b'".toList ∧
      compact ("foo[/* ' */".toList ++ "'a \\' // b'".toList ++ "] ?. c".toList) =
        "foo['a \\' // b'].c".toList) ∧
    (quotedKeys.program?.map fun n ↦ (n.preorder.filter (·.kind == .computed)).map fun m ↦
      (m.span, m.children.map fun k ↦ (k.kind, k.span))) =
        some [(⟨3, 10⟩, [(spacedKey.kind, spacedKey.span)]),
          (⟨17, 23⟩, [(joinedKey.kind, joinedKey.span)])] ∧
    ∀ object object' expr expr' : Node,
      (Step.ofMember quotedKeys false object (.mk .computed ⟨3, 10⟩ [spacedKey]) expr).key ≠
        (Step.ofMember quotedKeys false object' (.mk .computed ⟨17, 23⟩ [joinedKey])
          expr').key := by
  obtain ⟨-, happend, hkeys⟩ := literals_survive_compaction
  have hliteral : IsLiteral "'a \\' // b'".toList :=
    .mk (w := ['a', ' ', '\\', '\'', ' ', '/', '/', ' ', 'b']) rfl (by decide)
  have hcompact : compact "foo[/* ' */".toList = "foo[".toList ∧
      compact "] ?. c".toList = "].c".toList := by
    decide +kernel
  have hspaced : quotedKeys.slice spacedKey.span = ['\'', 'a', ' ', 'b', '\''] := by
    decide +kernel
  have hjoined : quotedKeys.slice joinedKey.span = ['\'', 'a', 'b', '\''] := by
    decide +kernel
  refine ⟨⟨closed_commented_access, hliteral, ?_⟩, by decide +kernel, fun _ _ _ _ ↦ ?_⟩
  · rw [happend _ _ _ closed_commented_access hliteral, hcompact.1, hcompact.2]
    rfl
  · rw [Ne, hkeys _ _ _ _ _ _ _ _ _ _ _ _
      (by rw [hspaced]; exact .mk (w := ['a', ' ', 'b']) rfl (by decide))
      (by rw [hjoined]; exact .mk (w := ['a', 'b']) rfl (by decide)), hspaced, hjoined]
    decide

end Access

end OptionalChain
