import Mathlib.Order.Basic
import OptionalChain.Proofs.Placement.Comments

/-!
# Cursors in a text

A cursor stands in a text if its token, the end of the token before it and the comments it has met
lie at places of the text, in this order. Every parser moves from such a cursor to a later one:
`Runs` states this of a parser together with what its result is, and there is a rule for each way to
put parsers together.
-/

namespace OptionalChain

open Text (At Boundary)

/-- The span is that of a word of the text that spells the name. -/
def Span.Spells (text : List Char) (s : Span) (name : String) : Prop :=
  ∃ cs escaped, At text s.lo cs ∧ (Token.lexeme cs).form = .word name escaped ∧
    s.hi = s.lo + Text.size (cs.take (Token.lexeme cs).taken)

/-- The word stands at the offset, and what follows it stands on its line. -/
def Text.KeepsLine (text : List Char) (lo : Nat) (word : String) : Prop :=
  ∃ rest, At text lo (word.toList ++ rest) ∧
    (Token.skip (lo + Text.size word.toList) rest).newline = false

namespace Grammar

/-- Where a cursor stands in the text. One that is stuck has lost the text after its token. -/
structure Cursor.StandsIn (text : List Char) (c : Cursor) : Prop where
  lo : Boundary text c.token.span.lo
  hi : Boundary text c.token.span.hi
  prevEnd : Boundary text c.prevEnd
  forward : c.token.span.lo ≤ c.token.span.hi
  at_lo : c.text = [] ∨ At text c.token.span.lo c.text
  at_hi : c.stuck = false → c.rest = [] ∨ At text c.token.span.hi c.rest
  prevEnd_le : c.stuck = false → c.prevEnd ≤ c.token.span.lo
  prevEnd_le_hi : c.prevEnd ≤ c.token.span.hi
  form : (∃ e, c.token.form = .invalid e) ∨
    c.token.form = .endOfText ∧ c.token.span.lo = c.prevEnd ∨
    c.token.form ≠ .endOfText ∧ c.token.form = (Token.lexeme c.text).form ∧
      c.token.span.hi = c.token.span.lo + Text.size (c.text.take (Token.lexeme c.text).taken)
  stuck : c.stuck = true → (∃ e, c.token.form = .invalid e) ∧ c.text.head? = some '/'
  comments : ∀ m ∈ c.comments ++ c.listed, m.SitsIn text
  inOrder : ∃ stop, Comment.InOrder 0 stop c.comments
  outside : Comment.Outside c.comments c.prevEnd
  before : c.token.form ≠ .endOfText → ∀ m ∈ c.comments, m.span.hi ≤ c.token.span.lo
  here : c.token.form ≠ .endOfText → At text c.token.span.lo c.text
  fresh : (Token.skip c.token.span.lo c.text).comments = []
  scanned : c.stuck = false → c.token.form ≠ .endOfText →
    ∀ cs, At text c.prevEnd cs → (Token.scan c.prevEnd cs).token = c.token
  text_nil : c.token.form = .endOfText → c.text = []
  rest_nil : c.token.form = .endOfText → c.rest = []
  hi_eq_lo : c.token.form = .endOfText → c.token.span.hi = c.token.span.lo
  listed_eq : c.token.form = .endOfText → c.listed = c.comments

/-- A cursor that stands in the text. -/
@[ext] structure Place (text : List Char) where
  cursor : Cursor
  standsIn : cursor.StandsIn text

namespace Place

variable {text : List Char}

/-- Where the token starts. -/
abbrev lo (c : Place text) : Nat := c.cursor.token.span.lo

/-- Where the token ends. -/
abbrev hi (c : Place text) : Nat := c.cursor.token.span.hi

/-- Where the token before ends. -/
abbrev prevEnd (c : Place text) : Nat := c.cursor.prevEnd

abbrev stuck (c : Place text) : Bool := c.cursor.stuck

/-- The errors that were noted. -/
abbrev errors (c : Place text) : List SyntaxError := c.cursor.errors

/-- The comments that were met. -/
abbrev comments (c : Place text) : List Comment := c.cursor.comments

/-- The place `d` is not before `c`. What was met in between was met after the start of the token
at `c`. -/
structure Precedes (c d : Place text) : Prop where
  lo : c.lo ≤ d.lo
  prevEnd : c.prevEnd ≤ d.prevEnd
  free : d.stuck = false → c.stuck = false
  errors : d.errors = [] → c.errors = []
  comments : ∃ new, d.comments = c.comments ++ new ∧ ∀ m ∈ new, c.lo < m.span.lo
  ended : c.cursor.token.form = .endOfText →
    d.cursor.token.form = .endOfText ∧ d.comments = c.comments

instance : LE (Place text) := ⟨Precedes⟩

variable {c d : Place text}

theorem lo_le (h : c ≤ d) : c.lo ≤ d.lo := h.lo

theorem prevEnd_le (h : c ≤ d) : c.prevEnd ≤ d.prevEnd := h.prevEnd

theorem free_of_le (h : c ≤ d) (hd : d.stuck = false) : c.stuck = false := h.free hd

theorem errors_of_le (h : c ≤ d) (hd : d.errors = []) : c.errors = [] := h.errors hd

instance : Preorder (Place text) where
  le_refl c := ⟨Nat.le_refl _, Nat.le_refl _, id, id, ⟨[], by simp⟩, fun h ↦ ⟨h, rfl⟩⟩
  le_trans c d e h h' := by
    refine ⟨Nat.le_trans h.lo h'.lo, Nat.le_trans h.prevEnd h'.prevEnd,
      fun he ↦ h.free (h'.free he), fun he ↦ h.errors (h'.errors he), ?_, fun hend ↦ ?_⟩
    · obtain ⟨new, heq, hnew⟩ := h.comments
      obtain ⟨new', heq', hnew'⟩ := h'.comments
      refine ⟨new ++ new', by rw [heq', heq, List.append_assoc], ?_⟩
      exact List.forall_mem_append.2
        ⟨hnew, fun m hm ↦ Nat.lt_of_le_of_lt h.lo (hnew' m hm)⟩
    · obtain ⟨hd, heq⟩ := h.ended hend
      obtain ⟨he, heq'⟩ := h'.ended hd
      exact ⟨he, heq'.trans heq⟩

/-- An offset that is inside no comment at a place and not after its token is inside none later. -/
theorem outside_of_le {pos : Nat} (h : c ≤ d) (hpos : pos ≤ c.lo + 1)
    (hout : Comment.Outside c.comments pos) : Comment.Outside d.comments pos := by
  obtain ⟨new, heq, hnew⟩ := h.comments
  rw [heq]
  exact hout.append fun m hm ↦ .inr (Nat.le_trans hpos (hnew m hm))

/-- The two places differ only in what was noted there. -/
structure SameSpot (c d : Place text) : Prop where
  token : c.cursor.token = d.cursor.token
  prevEnd : c.prevEnd = d.prevEnd
  stuck : c.stuck = d.stuck
  comments : c.comments = d.comments

theorem SameSpot.lo (h : c.SameSpot d) : c.lo = d.lo := congrArg (·.span.lo) h.token

theorem SameSpot.refl (c : Place text) : c.SameSpot c :=
  ⟨rfl, rfl, rfl, rfl⟩

theorem SameSpot.trans {e : Place text} (h : c.SameSpot d) (h' : d.SameSpot e) : c.SameSpot e :=
  ⟨h.token.trans h'.token, h.prevEnd.trans h'.prevEnd, h.stuck.trans h'.stuck,
    h.comments.trans h'.comments⟩

/-- A place after another one stays so with other notes. -/
theorem SameSpot.le_of_le {b : Place text} (h : c.SameSpot d) (hle : b ≤ c)
    (herrors : d.errors = [] → b.errors = []) : b ≤ d where
  lo := h.lo ▸ hle.lo
  prevEnd := h.prevEnd ▸ hle.prevEnd
  free hd := hle.free (h.stuck.trans hd)
  errors := herrors
  comments := h.comments ▸ hle.comments
  ended := h.token ▸ h.comments ▸ hle.ended

theorem SameSpot.le (h : c.SameSpot d) (herrors : d.errors = [] → c.errors = []) : c ≤ d :=
  h.le_of_le (le_refl c) herrors

/-- The token at `c` was taken before `d`. -/
structure Past (c d : Place text) : Prop where
  le : c ≤ d
  lo_le : c.lo ≤ d.prevEnd

theorem Past.mono {e : Place text} (h : c.Past d) (hle : d ≤ e) : c.Past e :=
  ⟨h.le.trans hle, Nat.le_trans h.lo_le (prevEnd_le hle)⟩

theorem Past.of_le {b : Place text} (h : c.Past d) (hle : b ≤ c) : b.Past d :=
  ⟨hle.trans h.le, Nat.le_trans (Place.lo_le hle) h.lo_le⟩

theorem prevEnd_le_lo (c : Place text) (hfree : c.stuck = false) : c.prevEnd ≤ c.lo :=
  c.standsIn.prevEnd_le hfree

theorem lo_le_hi (c : Place text) : c.lo ≤ c.hi :=
  c.standsIn.forward

theorem free_of_form (c : Place text) (h : ∀ e, c.cursor.token.form ≠ .invalid e) :
    c.stuck = false := by
  by_contra hstuck
  obtain ⟨⟨e, he⟩, -⟩ := c.standsIn.stuck (by simpa using hstuck)
  exact h e he

theorem free_of_head (c : Place text) {a : Char} (h : c.cursor.text.head? = some a)
    (ha : a ≠ '/') : c.stuck = false := by
  by_contra hstuck
  obtain ⟨-, hhead⟩ := c.standsIn.stuck (by simpa using hstuck)
  rw [h] at hhead
  exact ha (Option.some.inj hhead)

/-- A token that is a word spells its name. -/
theorem spells (c : Place text) {name : String} {escaped : Bool}
    (h : c.cursor.token.form = .word name escaped) : c.cursor.token.span.Spells text name := by
  obtain ⟨e, he⟩ | ⟨hend, -⟩ | ⟨-, hform, hhi⟩ := c.standsIn.form
  · rw [h] at he
    cases he
  · rw [h] at hend
    cases hend
  · rw [h] at hform
    obtain hnil | hat := c.standsIn.at_lo
    · rw [hnil] at hform
      cases hform
    · exact ⟨_, escaped, hat, hform.symm, hhi⟩

/-- A mark that the lexer has read. -/
theorem lexeme_of_punct (c : Place text) {q : Punct} (h : c.cursor.token.form = .punct q) :
    (Token.lexeme c.cursor.text).form = .punct q ∧
      c.hi = c.lo + Text.size (c.cursor.text.take (Token.lexeme c.cursor.text).taken) := by
  obtain ⟨e, he⟩ | ⟨he, -⟩ | ⟨-, he, hhi⟩ := c.standsIn.form
  · rw [h] at he
    cases he
  · rw [h] at he
    cases he
  · exact ⟨he.symm.trans h, hhi⟩

/-- A mark ends after its start. -/
theorem lo_lt_hi (c : Place text) {q : Punct} (h : c.cursor.token.form = .punct q) :
    c.lo < c.hi := by
  obtain ⟨hform, hhi⟩ := c.lexeme_of_punct h
  have htaken := Token.taken_pos_of_punct hform
  cases htext : c.cursor.text with
  | nil =>
    rw [htext] at hform
    cases hform
  | cons a rest =>
    obtain ⟨n, hn⟩ := Nat.exists_eq_succ_of_ne_zero (Nat.pos_iff_ne_zero.1 htaken)
    rw [hhi, hn, htext, List.take_succ_cons, Text.size_cons]
    have ha := Char.utf8Size_pos a
    omega

end Place

/-! ## Moving -/

namespace Cursor

variable {text : List Char} {c : Cursor} {pos : Nat} {cs : List Char}

theorem comments_goto (c : Cursor) (pos : Nat) (cs : List Char) :
    (c.goto pos cs).comments = c.comments ++ (Token.scan pos cs).comments := by
  simp only [goto]
  split
  · rename_i hempty
    rw [List.isEmpty_iff.1 hempty, List.append_nil]
  · rfl

/-- The end of the text stands where the last token ended. -/
theorem standsIn_of_ended (htoken : c.token = ⟨.endOfText, ⟨c.prevEnd, c.prevEnd⟩, true⟩)
    (htext : c.text = []) (hrest : c.rest = []) (hlisted : c.listed = c.comments)
    (hprev : Boundary text c.prevEnd) (hcomments : ∀ m ∈ c.comments, m.SitsIn text)
    (horder : ∃ stop, Comment.InOrder 0 stop c.comments)
    (hout : Comment.Outside c.comments c.prevEnd) (hstuck : c.stuck = false) :
    c.StandsIn text where
  lo := by rw [htoken]; exact hprev
  hi := by rw [htoken]; exact hprev
  prevEnd := hprev
  forward := Nat.le_of_eq (by rw [htoken])
  at_lo := .inl htext
  at_hi _ := .inl hrest
  prevEnd_le _ := Nat.le_of_eq (by rw [htoken])
  prevEnd_le_hi := Nat.le_of_eq (by rw [htoken])
  form := .inr (.inl (by rw [htoken]; exact ⟨rfl, rfl⟩))
  stuck h := by rw [hstuck] at h; cases h
  comments := by rw [hlisted]; exact List.forall_mem_append.2 ⟨hcomments, hcomments⟩
  inOrder := horder
  outside := hout
  before h := absurd (by rw [htoken]) h
  here h := absurd (by rw [htoken]) h
  fresh := by rw [htext]; exact Token.skip_nil_comments _
  scanned _ h := absurd (by rw [htoken]) h
  text_nil _ := htext
  rest_nil _ := hrest
  hi_eq_lo _ := by rw [htoken]
  listed_eq _ := hlisted

theorem standsIn_goto_nil (hprev : Boundary text c.prevEnd)
    (hcomments : ∀ m ∈ c.comments ++ c.listed, m.SitsIn text)
    (horder : ∃ stop, Comment.InOrder 0 stop c.comments)
    (hout : Comment.Outside c.comments c.prevEnd) (hstuck : c.stuck = false) :
    (c.goto pos []).StandsIn text :=
  standsIn_of_ended rfl rfl rfl rfl hprev (fun m hm ↦ hcomments m (List.mem_append_left _ hm))
    horder hout hstuck

theorem listed_goto (c : Cursor) (pos : Nat) (cs : List Char) : (c.goto pos cs).listed =
    if (Token.scan pos cs).token.form == .endOfText then (c.goto pos cs).comments
    else c.listed := rfl

theorem sitsIn_goto (hat : At text pos cs)
    (hcomments : ∀ m ∈ c.comments ++ c.listed, m.SitsIn text) :
    ∀ m ∈ (c.goto pos cs).comments ++ (c.goto pos cs).listed, m.SitsIn text := by
  have hmet : ∀ m ∈ (c.goto pos cs).comments, m.SitsIn text := by
    rw [comments_goto]
    exact List.forall_mem_append.2 ⟨fun m hm ↦ hcomments m (List.mem_append_left _ hm),
      (Token.scan_standsIn hat).comments⟩
  refine List.forall_mem_append.2 ⟨hmet, fun m hm ↦ ?_⟩
  rw [listed_goto] at hm
  split at hm
  · exact hmet m hm
  · exact hcomments m (List.mem_append_right _ hm)

/-- The comments on the way to a token stand after those that were met before. -/
theorem inOrder_goto (hat : At text pos cs) (horder : Comment.InOrder 0 pos c.comments) :
    Comment.InOrder 0 (Token.scan pos cs).token.span.lo (c.goto pos cs).comments ∧
      Comment.Outside (c.goto pos cs).comments pos := by
  have hnew : Comment.InOrder pos (Token.scan pos cs).token.span.lo (Token.scan pos cs).comments :=
    Token.skip_inOrder pos cs
  rw [comments_goto]
  exact ⟨horder.append hnew (Nat.zero_le _) (Token.scan_standsIn hat).le,
    (horder.outside_hi (Nat.le_refl _)).append (hnew.outside_lo (Nat.le_refl _))⟩

/-- Moving on from the end of the last token. -/
theorem standsIn_goto (hat : At text c.prevEnd cs)
    (hcomments : ∀ m ∈ c.comments ++ c.listed, m.SitsIn text)
    (horder : Comment.InOrder 0 c.prevEnd c.comments) (hstuck : c.stuck = false) :
    (c.goto c.prevEnd cs).StandsIn text := by
  have hprev := hat.boundary
  have hscan := Token.scan_standsIn hat
  have hall := sitsIn_goto hat hcomments
  obtain ⟨horder', hout⟩ := inOrder_goto hat horder
  by_cases hend : (Token.scan c.prevEnd cs).token.form = .endOfText
  · -- The token stands right after the last one, and nothing follows.
    have htoken : (c.goto c.prevEnd cs).token = ⟨.endOfText, ⟨c.prevEnd, c.prevEnd⟩, true⟩ := by
      simp [goto, placed, hend]
    have hnil : (Token.scan c.prevEnd cs).text = [] :=
      Token.eq_nil_of_endOfText (Token.placed_eq_endOfText.1 (hscan.form ▸ hend))
    have hrest : (Token.scan c.prevEnd cs).rest = [] := by
      have : (Token.scan c.prevEnd cs).rest = (Token.scan c.prevEnd cs).text.drop _ := rfl
      rw [this, hnil, List.drop_nil]
    have hlisted : (c.goto c.prevEnd cs).listed = (c.goto c.prevEnd cs).comments :=
      (listed_goto ..).trans (if_pos (by rw [hend]; rfl))
    exact standsIn_of_ended htoken hnil hrest hlisted hprev
      (fun m hm ↦ hall m (List.mem_append_left _ hm)) ⟨_, horder'⟩ hout hstuck
  · have htoken : (c.goto c.prevEnd cs).token = (Token.scan c.prevEnd cs).token := by
      simp [goto, placed, hend]
    have hform : (∃ e, (Token.scan c.prevEnd cs).token.form = .invalid e) ∨
        (Token.scan c.prevEnd cs).token.form =
          (Token.lexeme (Token.scan c.prevEnd cs).text).form := by
      rw [hscan.form]
      cases (Token.lexeme (Token.scan c.prevEnd cs).text).form with
      | invalid e => exact .inl ⟨_, rfl⟩
      | _ => exact .inr rfl
    exact
      { lo := by rw [htoken]; exact hscan.at_lo.boundary
        hi := by rw [htoken]; exact hscan.at_hi.boundary
        prevEnd := hprev
        forward := by rw [htoken, hscan.hi]; exact Nat.le_add_right _ _
        at_lo := .inr (by rw [htoken]; exact hscan.at_lo)
        at_hi := fun _ ↦ .inr (by rw [htoken]; exact hscan.at_hi)
        prevEnd_le := fun _ ↦ by rw [htoken]; exact hscan.le
        prevEnd_le_hi := by
          have hlo := hscan.le
          have hhi := hscan.hi
          rw [htoken]
          change c.prevEnd ≤ _
          omega
        form := by
          rw [htoken]
          obtain hinvalid | hread := hform
          · exact .inl hinvalid
          · exact .inr (.inr ⟨hend, hread, hscan.hi⟩)
        stuck := fun h ↦ by
          have hc : c.stuck = true := h
          rw [hstuck] at hc
          cases hc
        comments := hall
        inOrder := ⟨_, horder'⟩
        outside := hout
        before := fun _ m hm ↦ by rw [htoken]; exact (horder'.bounds m hm).2.2
        here := fun _ ↦ by rw [htoken]; exact hscan.at_lo
        fresh := by rw [htoken]; exact Token.comments_skip_skip c.prevEnd cs
        scanned := fun _ _ cs' hat' ↦ by rw [htoken, hat.unique hat']; rfl
        text_nil := fun h ↦ absurd (htoken ▸ h) hend
        rest_nil := fun h ↦ absurd (htoken ▸ h) hend
        hi_eq_lo := fun h ↦ absurd (htoken ▸ h) hend
        listed_eq := fun h ↦ absurd (htoken ▸ h) hend }

/-- A move only adds errors. -/
theorem errors_of_goto (h : (c.goto pos cs).errors = []) : c.errors = [] := by
  simp only [goto] at h
  split at h
  · exact h
  · exact (List.append_eq_nil_iff.1 h).1

/-- The token after a move does not start before the place that was asked for, unless the text ends
there. -/
theorem le_lo_goto (hat : cs = [] ∨ At text pos cs) :
    min c.prevEnd pos ≤ (c.goto pos cs).token.span.lo := by
  have htoken : (c.goto pos cs).token = c.placed (Token.scan pos cs).token := rfl
  rw [htoken, placed]
  split
  · exact Nat.min_le_left _ _
  · obtain rfl | hat := hat
    · contradiction
    · exact Nat.le_trans (Nat.min_le_right _ _) (Token.scan_standsIn hat).le

end Cursor

namespace Place

variable {text : List Char} {c d : Place text} {lo stop : Nat} {cs : List Char}

/-- The same place with other notes: what a cursor has collected does not change where it stands. -/
theorem exists_noted (c : Place text) {listed : List Comment} (errors : List SyntaxError)
    (hlisted : ∀ m ∈ listed, m.SitsIn text)
    (hend : c.cursor.token.form = .endOfText → listed = c.comments) :
    ∃ d : Place text, d.cursor = { c.cursor with listed, errors } ∧ c.SameSpot d := by
  refine ⟨⟨{ c.cursor with listed, errors }, { c.standsIn with
    comments := fun m hm ↦ ?_
    listed_eq := hend }⟩, rfl,
    ⟨rfl, rfl, rfl, rfl⟩⟩
  obtain hm | hm := List.mem_append.1 hm
  · exact c.standsIn.comments m (List.mem_append_left _ hm)
  · exact hlisted m hm

/-- The same place with other errors. -/
theorem exists_noted_errors (c : Place text) (errors : List SyntaxError) :
    ∃ d : Place text, d.cursor = { c.cursor with errors } ∧ c.SameSpot d :=
  c.exists_noted errors (fun m hm ↦ c.standsIn.comments m (List.mem_append_right _ hm))
    c.standsIn.listed_eq

/-- Before a token that was met, the comments stand in order. -/
theorem inOrder_comments (c : Place text) (h : c.cursor.token.form ≠ .endOfText) :
    Comment.InOrder 0 c.lo c.comments := by
  obtain ⟨stop, horder⟩ := c.standsIn.inOrder
  refine ⟨fun m hm ↦ ?_, horder.sorted⟩
  exact ⟨Nat.zero_le _, (horder.bounds m hm).2.1, c.standsIn.before h m hm⟩

theorem outside_lo (c : Place text) : Comment.Outside c.comments c.lo := by
  by_cases hend : c.cursor.token.form = .endOfText
  · obtain ⟨e, he⟩ | ⟨-, hlo⟩ | ⟨hne, -⟩ := c.standsIn.form
    · rw [hend] at he
      cases he
    · rw [lo, hlo]
      exact c.standsIn.outside
    · exact absurd hend hne
  · exact (c.inOrder_comments hend).outside_hi (Nat.le_refl _)

/-- The next token after a boundary of the text that is not before the current token. No comment
that was met by then lies around an offset in between. -/
theorem exists_goto (c : Place text) (hfree : c.stuck = false) (hat : cs = [] ∨ At text stop cs)
    (hstop : Boundary text stop) (hle : c.lo ≤ stop)
    (hend : c.cursor.token.form = .endOfText → cs = [] ∧ stop = c.lo) :
    ∃ d : Place text, d.cursor = { c.cursor with prevEnd := stop }.goto stop cs ∧ c ≤ d ∧
      d.prevEnd = stop ∧
      ∀ pos, c.lo ≤ pos → pos ≤ stop → Comment.Outside d.comments pos := by
  have hold : ∀ pos, c.lo ≤ pos → pos ≤ stop → Comment.Outside c.comments pos := by
    intro pos hlo hpos
    by_cases hform : c.cursor.token.form = .endOfText
    · obtain rfl : pos = c.lo := Nat.le_antisymm ((hend hform).2 ▸ hpos) hlo
      exact c.outside_lo
    · exact (c.inOrder_comments hform).outside_hi hlo
  have hstands : ({ c.cursor with prevEnd := stop }.goto stop cs).StandsIn text := by
    obtain rfl | hat := hat
    · exact Cursor.standsIn_goto_nil hstop c.standsIn.comments c.standsIn.inOrder
        (hold stop hle (Nat.le_refl _)) hfree
    · by_cases hform : c.cursor.token.form = .endOfText
      · rw [(hend hform).1]
        exact Cursor.standsIn_goto_nil hstop c.standsIn.comments c.standsIn.inOrder
          (hold stop hle (Nat.le_refl _)) hfree
      · exact Cursor.standsIn_goto (c := { c.cursor with prevEnd := stop }) hat c.standsIn.comments
          ((c.inOrder_comments hform).mono (Nat.le_refl _) hle) hfree
  have hlo : min stop stop ≤ ({ c.cursor with prevEnd := stop }.goto stop cs).token.span.lo :=
    Cursor.le_lo_goto (c := { c.cursor with prevEnd := stop }) hat
  rw [Nat.min_self] at hlo
  have hcomments : ({ c.cursor with prevEnd := stop }.goto stop cs).comments =
      c.comments ++ (Token.scan stop cs).comments := Cursor.comments_goto _ _ _
  have hnew : Comment.InOrder stop (Token.scan stop cs).token.span.lo
      (Token.scan stop cs).comments := Token.skip_inOrder stop cs
  -- Where the token at `c` starts no comment does, so that new ones start after it.
  have hafter : ∀ m ∈ (Token.scan stop cs).comments, c.lo < m.span.lo := by
    intro m hm
    refine Nat.lt_of_le_of_ne (Nat.le_trans hle (hnew.bounds m hm).1) fun heq ↦ ?_
    obtain rfl : c.lo = stop := Nat.le_antisymm hle (heq ▸ (hnew.bounds m hm).1)
    obtain rfl | hat := hat
    · cases hm
    · by_cases hform : c.cursor.token.form = .endOfText
      · rw [(hend hform).1] at hm
        cases hm
      · have hfresh := c.standsIn.fresh
        rw [(c.standsIn.here hform).unique hat] at hfresh
        have hnone : (Token.scan c.lo cs).comments = [] := hfresh
        rw [hnone] at hm
        cases hm
  refine ⟨⟨_, hstands⟩, rfl, ⟨Nat.le_trans hle hlo, Nat.le_trans (c.prevEnd_le_lo hfree) hle,
    fun _ ↦ hfree, Cursor.errors_of_goto, ⟨_, hcomments, hafter⟩, fun hform ↦ ?_⟩, rfl,
    fun pos hpos hpos' ↦ ?_⟩
  · obtain ⟨rfl, -⟩ := hend hform
    exact ⟨rfl, rfl⟩
  · rw [Place.comments, hcomments]
    exact (hold pos hpos hpos').append (hnew.outside_lo hpos')

/-- Where the token is taken. -/
theorem exists_advance (c : Place text) :
    ∃ d : Place text, d.cursor = c.cursor.advance ∧ c ≤ d ∧ d.prevEnd = c.hi := by
  by_cases hstuck : c.stuck = true
  · have hadvance : c.cursor.advance = { c.cursor with prevEnd := c.hi } := by
      simp only [Cursor.advance]
      rw [if_pos hstuck]
    rw [hadvance]
    have hle := c.standsIn.prevEnd_le_hi
    obtain ⟨⟨e, hinvalid⟩, -⟩ := c.standsIn.stuck hstuck
    have hform : c.cursor.token.form ≠ .endOfText := by simp [hinvalid]
    refine ⟨⟨{ c.cursor with prevEnd := c.hi }, { c.standsIn with
      prevEnd := c.standsIn.hi
      prevEnd_le := fun h ↦ ?_
      prevEnd_le_hi := Nat.le_refl _
      form := .inl ⟨e, hinvalid⟩
      outside := (c.inOrder_comments hform).outside_hi c.lo_le_hi
      scanned := fun h ↦ ?_ }⟩, rfl, ⟨Nat.le_refl _, hle, id, id, ⟨[], by simp⟩, ?_⟩, rfl⟩
    · exact absurd (h : c.stuck = false) (by simp [hstuck])
    · exact absurd (h : c.stuck = false) (by simp [hstuck])
    · exact fun h ↦ absurd h hform
  · have hfree : c.stuck = false := by simpa using hstuck
    have hadvance :
        c.cursor.advance = { c.cursor with prevEnd := c.hi }.goto c.hi c.cursor.rest := by
      simp only [Cursor.advance]
      rw [if_neg hstuck]
    rw [hadvance]
    obtain ⟨d, hd, hle, hprev, -⟩ := c.exists_goto hfree (c.standsIn.at_hi hfree) c.standsIn.hi
      c.standsIn.forward fun hform ↦ ⟨c.standsIn.rest_nil hform, c.standsIn.hi_eq_lo hform⟩
    exact ⟨d, hd, hle, hprev⟩

/-- Where the next token is on the line of a word, the word keeps it there. -/
theorem keepsLine {word : String} (hform : c.cursor.token.form = .word word false)
    (hd : d.cursor = c.cursor.advance) (hline : d.cursor.token.newline = false) :
    Text.KeepsLine text c.lo word := by
  have hfree : c.stuck = false := c.free_of_form fun e he ↦ by
    rw [hform] at he
    cases he
  obtain ⟨hat, hlexeme, hhi⟩ : At text c.lo c.cursor.text ∧
      (Token.lexeme c.cursor.text).form = .word word false ∧
      c.hi = c.lo + Text.size (c.cursor.text.take (Token.lexeme c.cursor.text).taken) := by
    obtain ⟨e, he⟩ | ⟨hend, -⟩ | ⟨-, hread, hhi⟩ := c.standsIn.form
    · rw [hform] at he
      cases he
    · rw [hform] at hend
      cases hend
    · rw [hform] at hread
      refine ⟨c.standsIn.at_lo.resolve_left fun hnil ↦ ?_, hread.symm, hhi⟩
      rw [hnil] at hread
      cases hread
  have hword := Token.take_lexeme_of_word hlexeme
  have hafter : At text c.hi (c.cursor.text.drop (Token.lexeme c.cursor.text).taken) :=
    hhi ▸ hat.drop _
  have hadvance : d.cursor.token =
      { c.cursor with prevEnd := c.hi }.placed (Token.scan c.hi c.cursor.rest).token := by
    rw [hd]
    simp only [Cursor.advance]
    rw [if_neg (by simp [hfree])]
    rfl
  rw [hadvance, Cursor.placed] at hline
  split at hline
  · cases hline
  rename_i hend
  have hrest : c.cursor.rest = c.cursor.text.drop (Token.lexeme c.cursor.text).taken := by
    obtain hnil | hat := c.standsIn.at_hi hfree
    · rw [hnil] at hend
      exact absurd rfl hend
    · exact hat.unique hafter
  refine ⟨c.cursor.rest, ?_, ?_⟩
  · rwa [hrest, ← hword, List.take_append_drop]
  · rw [← hword, ← hhi]
    exact hline

/-- A node may start at `lo`, which is not after the token. -/
structure Opens (c : Place text) (lo : Nat) : Prop where
  boundary : Boundary text lo
  le : lo ≤ c.lo
  outside : Comment.Outside c.comments lo

/-- A node that starts at `lo` has text, since a token after `lo` was taken. -/
structure Passed (c : Place text) (lo : Nat) : Prop where
  boundary : Boundary text lo
  le : lo ≤ c.prevEnd
  outside : c.stuck = false → Comment.Outside c.comments lo

/-- A node may end at `hi`, which is not after the token, or right behind it where the token is the
last one of the node and of one character. -/
structure Closes (c : Place text) (hi : Nat) : Prop where
  boundary : Boundary text hi
  le : hi ≤ c.lo + 1
  outside : Comment.Outside c.comments hi

/-- The token after an offset, if it is a valid one, is as said, and a node may start with it. -/
def Meets (c : Place text) (pos : Nat) (Q : Token → Prop) : Prop :=
  ∀ cs, At text pos cs → (∃ e, (Token.scan pos cs).token.form = .invalid e) ∨
    Q (Token.scan pos cs).token ∧ c.Opens (Token.scan pos cs).token.span.lo

/-- The token at the place comes after the offset, with no valid one in between. -/
def Follows (c : Place text) (pos : Nat) : Prop :=
  c.stuck = false →
    pos = c.prevEnd ∨ ∀ cs, At text pos cs → ∃ e, (Token.scan pos cs).token.form = .invalid e

theorem opens_lo (c : Place text) : c.Opens c.lo :=
  ⟨c.standsIn.lo, Nat.le_refl _, c.outside_lo⟩

theorem Opens.mono (h : c.Opens lo) (hle : c ≤ d) : d.Opens lo :=
  ⟨h.boundary, Nat.le_trans h.le (lo_le hle),
    outside_of_le hle (Nat.le_trans h.le (Nat.le_succ _)) h.outside⟩

theorem Passed.opens (h : c.Passed lo) (hfree : c.stuck = false) : c.Opens lo :=
  ⟨h.boundary, Nat.le_trans h.le (c.prevEnd_le_lo hfree), h.outside hfree⟩

theorem Passed.mono (h : c.Passed lo) (hle : c ≤ d) : d.Passed lo :=
  ⟨h.boundary, Nat.le_trans h.le (prevEnd_le hle), fun hfree ↦
    ((h.opens (free_of_le hle hfree)).mono hle).outside⟩

theorem Opens.passed (h : c.Opens lo) (hpast : c.Past d) : d.Passed lo :=
  ⟨h.boundary, Nat.le_trans h.le hpast.lo_le, fun _ ↦ (h.mono hpast.le).outside⟩

theorem Closes.mono {hi : Nat} (h : c.Closes hi) (hle : c ≤ d) : d.Closes hi :=
  ⟨h.boundary, Nat.le_trans h.le (Nat.succ_le_succ (lo_le hle)), outside_of_le hle h.le h.outside⟩

theorem closes_prevEnd (c : Place text) (hfree : c.stuck = false) : c.Closes c.prevEnd :=
  ⟨c.standsIn.prevEnd, Nat.le_trans (c.prevEnd_le_lo hfree) (Nat.le_succ _), c.standsIn.outside⟩

theorem Opens.of_sameSpot (h : c.Opens lo) (hspot : c.SameSpot d) : d.Opens lo :=
  ⟨h.boundary, hspot.lo ▸ h.le, hspot.comments ▸ h.outside⟩

theorem Closes.of_sameSpot {hi : Nat} (h : c.Closes hi) (hspot : c.SameSpot d) : d.Closes hi :=
  ⟨h.boundary, hspot.lo ▸ h.le, hspot.comments ▸ h.outside⟩

theorem Meets.imp {pos : Nat} {Q : Token → Prop} (h : c.Meets pos Q)
    (hopens : ∀ lo, c.Opens lo → d.Opens lo) : d.Meets pos Q :=
  fun cs hat ↦ (h cs hat).imp_right fun ht ↦ ⟨ht.1, hopens _ ht.2⟩

theorem Meets.mono {pos : Nat} {Q R : Token → Prop} (h : c.Meets pos Q) (hQ : ∀ t, Q t → R t) :
    c.Meets pos R :=
  fun cs hat ↦ (h cs hat).imp_right fun ht ↦ ⟨hQ _ ht.1, ht.2⟩

theorem closes_of_prevEnd {hi : Nat} (h : c.prevEnd = hi) (hfree : c.stuck = false) :
    c.Closes hi := by
  rw [← h]
  exact c.closes_prevEnd hfree

theorem follows_of_prevEnd {hi : Nat} (h : c.prevEnd = hi) : c.Follows hi :=
  fun _ ↦ .inl h.symm

theorem Follows.of_sameSpot {pos : Nat} (h : c.Follows pos) (hspot : c.SameSpot d) :
    d.Follows pos :=
  fun hfree ↦ hspot.prevEnd ▸ h (hspot.stuck.trans hfree)

/-- After an invalid token, no valid one stands in between. -/
theorem Follows.of_invalid {pos : Nat} (h : c.Follows pos) (hle : c ≤ d)
    (hinvalid : ∃ e, c.cursor.token.form = .invalid e) : d.Follows pos := by
  intro hfree
  have hcfree := free_of_le hle hfree
  obtain ⟨e, he⟩ := hinvalid
  obtain rfl | hbetween := h hcfree
  · refine .inr fun cs hat ↦ ⟨e, ?_⟩
    rw [c.standsIn.scanned hcfree (by simp [he]) cs hat, he]
  · exact .inr hbetween

/-- What is known of the token at a place is known of the token after what it follows. -/
theorem Follows.meets {pos : Nat} {Q : Token → Prop} (h : c.Follows pos)
    (hfree : c.stuck = false) (hform : c.cursor.token.form ≠ .endOfText)
    (hQ : Q c.cursor.token) : c.Meets pos Q := by
  intro cs hat
  obtain rfl | hinvalid := h hfree
  · have htoken := c.standsIn.scanned hfree hform cs hat
    rw [htoken]
    exact .inr ⟨hQ, c.opens_lo⟩
  · exact .inl (hinvalid cs hat)

theorem past_of_taken (hle : c ≤ d) (h : c.hi ≤ d.prevEnd) : c.Past d :=
  ⟨hle, Nat.le_trans c.standsIn.forward h⟩

end Place

end Grammar

end OptionalChain
