import Mathlib.Data.List.TakeDrop
import OptionalChain.Proofs.Placement.Types

/-!
# Markup

Between tags the text is not divided into tokens. A reader that ends there leaves the cursor at a
bracket, and the node it gives ends after this bracket.
-/

namespace OptionalChain.Grammar

open Text (At Boundary)

variable {text : List Char} {α β : Type} {w c d : Place text} {s : Setting} {m : Parser α}
  {f : α → Parser β} {Q : α → Place text → Prop} {R : β → Place text → Prop} {lo : Nat} {p : Parts}

/-! ## Brackets -/

/-- The text goes on with a bracket that ends a tag or a container. -/
def Place.AtBracket (c : Place text) : Prop :=
  c.cursor.text.head? = some '>' ∨ c.cursor.text.head? = some '}'

namespace Place.AtBracket

variable {n : Node} {kind : Kind} {cs : List Node}

theorem free (h : c.AtBracket) : c.stuck = false := by
  obtain h | h := h
  · exact c.free_of_head h (by decide)
  · exact c.free_of_head h (by decide)

theorem exists_text (h : c.AtBracket) :
    ∃ a : Char, a.utf8Size = 1 ∧ c.cursor.text = a :: c.cursor.text.drop 1 := by
  obtain h | h := h
  · obtain ⟨rest, hrest⟩ := List.head?_eq_some_iff.1 h
    exact ⟨'>', by decide, by rw [hrest, List.drop_one, List.tail_cons]⟩
  · obtain ⟨rest, hrest⟩ := List.head?_eq_some_iff.1 h
    exact ⟨'}', by decide, by rw [hrest, List.drop_one, List.tail_cons]⟩

theorem after (h : c.AtBracket) : At text (c.lo + 1) (c.cursor.text.drop 1) := by
  obtain ⟨a, ha, htext⟩ := h.exists_text
  exact c.at_bracket htext ha

theorem not_endOfText (h : c.AtBracket) : c.cursor.token.form ≠ .endOfText := by
  intro hend
  obtain ⟨a, -, htext⟩ := h.exists_text
  rw [c.standsIn.text_nil hend] at htext
  cases htext

/-- What ends with the bracket is outside of all comments. -/
theorem closes (h : c.AtBracket) : c.Closes (c.lo + 1) :=
  ⟨h.after.boundary, Nat.le_refl _,
    (c.inOrder_comments h.not_endOfText).outside_hi (Nat.le_add_right _ _)⟩

/-- What was read before the bracket. -/
theorem holdsUpTo (h : c.AtBracket) (hn : c.Holds n) : c.HoldsUpTo (c.lo + 1) n :=
  hn.mono (le_refl c) (Nat.le_trans (c.prevEnd_le_lo h.free) (Nat.le_add_right _ _))

/-- A node that ends with the bracket. -/
theorem node (h : c.AtBracket) (hlo : c.Opens lo) (hkind : kind.isCommon = true)
    (hparts : c.HoldsAll cs) : c.HasUpTo lo (c.lo + 1) (.mk kind ⟨lo, c.lo + 1⟩ cs) :=
  has_plain (s := ⟨lo, c.lo + 1⟩) hkind (fun _ ↦ hlo) (fun _ ↦ h.closes) (Nat.le_refl _)
    (fun m hm ↦ h.holdsUpTo (hparts m hm)) fun _ _ ↦ Nat.le_trans hlo.le (Nat.le_add_right _ _)

end Place.AtBracket

theorem Runs.atGreater {f : Unit → Parser β} (hw : w ≤ c)
    (h : c.cursor.text.head? = some '>' → Runs w c s (f ()) R) :
    Runs w c s (Grammar.atGreater >>= f) R := by
  unfold Grammar.atGreater
  rw [bind_assoc, runs_get]
  split
  · rename_i htext
    exact h (by rw [htext]; rfl)
  · rw [bind_assoc, runs_isEnd]
    split
    · exact .stop (.failAtEnd hw)
    · exact .stop (.failExpected hw)

theorem Runs.atBrace {f : Unit → Parser β} (hw : w ≤ c)
    (h : c.cursor.text.head? = some '}' → Runs w c s (f ()) R) :
    Runs w c s (Grammar.atBrace >>= f) R := by
  unfold Grammar.atBrace
  rw [bind_assoc, runs_isPunct]
  split
  · exact .stop (.failExpected hw)
  · rename_i hform
    exact h (Token.head?_of_rbrace (c.lexeme_of_punct (by simpa using hform)).1)

theorem Runs.nodeToBracket {kind : Kind} {cs : List Node} {Q : Node → Place text → Prop}
    (hw : w ≤ c) (h : Q (.mk kind ⟨lo, c.lo + 1⟩ cs) c) :
    Runs w c s (Grammar.nodeToBracket lo kind cs) Q :=
  .pure (s := s) hw h

/-! ## Names -/

/-- The text from the token on goes on to a later place. -/
theorem Place.exists_within (c : Place text) (hfree : c.stuck = false) {v rest : List Char}
    (htext : c.cursor.text = v ++ rest) :
    ∃ d : Place text, d.cursor = { c.cursor with prevEnd := c.lo + Text.size v }.goto
      (c.lo + Text.size v) rest ∧ c ≤ d ∧ d.prevEnd = c.lo + Text.size v := by
  have hle : c.lo ≤ c.lo + Text.size v := Nat.le_add_right _ _
  have hend : c.cursor.token.form = .endOfText → rest = [] ∧ c.lo + Text.size v = c.lo := by
    intro hform
    rw [c.standsIn.text_nil hform] at htext
    obtain ⟨rfl, rfl⟩ := List.append_eq_nil_iff.1 htext.symm
    exact ⟨rfl, rfl⟩
  obtain ⟨hat, hstop⟩ : (rest = [] ∨ At text (c.lo + Text.size v) rest) ∧
      Boundary text (c.lo + Text.size v) := by
    obtain hnil | hat := c.standsIn.at_lo
    · rw [hnil] at htext
      obtain ⟨rfl, rfl⟩ := List.append_eq_nil_iff.1 htext.symm
      exact ⟨.inl rfl, c.standsIn.lo⟩
    · rw [htext] at hat
      exact ⟨.inr hat.append, hat.append.boundary⟩
  obtain ⟨d, hd, hcd, hprev, -⟩ := c.exists_goto hfree hat hstop hle hend
  exact ⟨d, hd, hcd, hprev⟩

theorem runs_markupWord (c : Place text) (s : Setting) :
    Runs c c s markupWord fun _ d ↦ c.Past d := by
  unfold markupWord
  rw [runs_get]
  split
  · rename_i hform
    have hfree : c.stuck = false := c.free_of_form fun e he ↦ by
      rw [hform] at he
      cases he
    rw [List.span_eq_takeWhile_dropWhile]
    obtain ⟨d, hd, hcd, hprev⟩ := c.exists_within hfree List.takeWhile_append_dropWhile.symm
    exact .set hd (.pure hcd ⟨hcd, hprev ▸ Nat.le_add_right _ _⟩)
  · exact .failAtEnd (le_refl c)
  · exact .failHere (le_refl c)

theorem runs_markupName (c : Place text) (s : Setting) :
    Runs c c s markupName fun _ d ↦ c.Past d := by
  unfold markupName
  refine .call (le_refl c) (runs_markupWord c s) fun first d _ hcd hpast ↦ ?_
  refine (runs_iterate (fun _ e ↦ c.Past e) hpast fun name e hde hpaste ↦ ?_).last hcd
    fun _ _ _ h ↦ h
  have hmore : ∀ e₁, e ≤ e₁ → ∀ g : List Char → List Char, Runs e e₁ s (do
      let w ← markupWord
      return Sum.inl (g w)) (Next (fun _ e ↦ c.Past e) fun (_ : List Char) e ↦ c.Past e) := by
    intro e₁ h₁ g
    exact .call h₁ (runs_markupWord e₁ s) fun _ e₂ h₂ he₂ _ ↦ .pure he₂ (hpaste.mono he₂)
  refine .eat (le_refl e) (fun e₁ h₁ _ _ ↦ hmore e₁ h₁ _) ?_
  exact .eat (le_refl e) (fun e₁ h₁ _ _ ↦ hmore e₁ h₁ _) (.pure (le_refl e) hpaste)

/-! ## Attributes -/

/-- The text after the blanks that follow the token. -/
theorem Place.standsIn_skip (c : Place text) (hfree : c.stuck = false)
    (hrest : (Token.skip c.hi c.cursor.rest).rest ≠ []) :
    (Token.skip c.hi c.cursor.rest).StandsIn text c.hi := by
  obtain hnil | hat := c.standsIn.at_hi hfree
  · rw [hnil] at hrest
    exact absurd rfl hrest
  · exact Token.skip_standsIn hat

theorem runs_quotedValue? (hfree : c.stuck = false) (s : Setting) :
    Runs c c s quotedValue? fun n? d ↦
      (∀ n, n? = some n → d.Has c.lo n) ∧ (n? = none → d = c) := by
  have hnone : Runs c c s (pure none) fun (n? : Option Node) d ↦
      (∀ n, n? = some n → d.Has c.lo n) ∧ (n? = none → d = c) :=
    .pure (le_refl c) ⟨by simp, fun _ ↦ rfl⟩
  unfold quotedValue?
  rw [runs_get]
  dsimp only
  split
  · rename_i q rest hgap
    refine .ite (fun hq ↦ ?_) fun _ ↦ hnone
    rw [List.span_eq_takeWhile_dropWhile]
    dsimp only
    split
    · exact .failAt (le_refl c)
    · rename_i a after hafter
      have hgap' := c.standsIn_skip hfree (by rw [hgap]; simp)
      have ha : a = q := by
        have hhead := List.head?_dropWhile_not (· != q) rest
        rw [hafter] at hhead
        simpa using hhead
      have hsize : q.utf8Size = 1 := by
        obtain rfl | rfl := hq <;> decide
      have hat : At text ((Token.skip c.hi c.cursor.rest).pos +
          Text.size (q :: (rest.takeWhile (· != q) ++ [q]))) after := by
        have hrest := hgap'.rest
        rw [hgap, ← List.takeWhile_append_dropWhile (p := (· != q)) (l := rest), hafter,
          ha] at hrest
        exact At.append (by simpa using hrest)
      rw [Text.size_cons, Text.size_append, Text.size_cons, Text.size_nil, hsize,
        show ∀ i j : Nat, i + (1 + (j + (1 + 0))) = i + 2 + j by omega] at hat
      have hle := Nat.le_trans c.lo_le_hi hgap'.le
      have hrest : c.cursor.rest ≠ [] := by
        intro hnil
        rw [hnil] at hgap
        cases hgap
      obtain ⟨d, hd, hcd, hprev, hout⟩ := c.exists_goto hfree (.inr hat) hat.boundary (by omega)
        fun hend ↦ absurd (c.standsIn.rest_nil hend) hrest
      refine .set hd (.pure hcd ⟨fun n hn ↦ ?_, by simp⟩)
      rw [← Option.some.inj hn]
      have hopens : d.stuck = false → d.Opens (Token.skip c.hi c.cursor.rest).pos := by
        intro hfree
        have hlo := d.prevEnd_le_lo hfree
        exact ⟨hgap'.rest.boundary, by omega, hout _ hle (by omega)⟩
      refine (Place.has_plain rfl hopens (Place.closes_of_prevEnd hprev)
        (Nat.le_of_eq hprev.symm) Place.holdsAll_nil fun _ _ ↦ ?_).mono (le_refl d) hle
        (Nat.le_refl _)
      exact Nat.le_trans (Nat.le_add_right _ 2) (Nat.le_add_right _ _)
  · exact hnone

section

variable (hp : Sound text p)
include hp

theorem runs_attributeValue (hfree : c.stuck = false) (s : Setting) :
    Runs c c s (attributeValue p) fun n d ↦ d.Has c.lo n := by
  unfold attributeValue
  refine .call (le_refl c) (runs_quotedValue? hfree s) fun n? c₁ h₁ _ hvalue ↦ ?_
  cases n? with
  | some n => exact .pure h₁ (hvalue.1 n rfl)
  | none =>
    refine .spend h₁ fun c₂ h₂ hc₂ _ ↦ ?_
    rw [runs_here]
    refine .eat hc₂ (fun c₃ h₃ hc₃ hpast ↦ ?_) (runs_isLess.2 ?_)
    · refine .eat hc₃ (fun c₄ _ hc₄ _ ↦ runs_spanFrom.2 (.stop (.failAt hc₄))) ?_
      refine .call hc₃ (hp .expression c₃ s) fun e c₄ h₄ hc₄ he ↦ ?_
      refine .expect hc₄ fun c₅ h₅ hc₅ _ ↦ .node hc₅ (Place.HasUpTo.from_le (c := c₂) ?_ hc₂)
      exact ((c₂.opens_lo.passed hpast).mono (h₄.trans h₅)).node rfl
        (Place.holdsAll_one (he.part h₅))
    · split
      · refine .call hc₂ (hp .markup c₂ s) fun n c₃ h₃ hc₃ ⟨hn, _⟩ ↦ ?_
        refine .call hc₃ (runs_expectGreater c₃ s) fun _ c₄ h₄ hc₄ ⟨hprev, _⟩ ↦ .pure hc₄ ?_
        exact hn.mono h₄ (Place.lo_le hc₂) (Nat.le_of_eq hprev.symm)
      · exact .failHere hc₂

theorem runs_markupAttribute (c : Place text) (s : Setting) :
    Runs c c s (markupAttribute p) fun n d ↦ d.Has c.lo n := by
  unfold markupAttribute
  rw [runs_here]
  refine .eat (le_refl c) (fun c₁ h₁ hc₁ _ ↦ runs_here.2 ?_) ?_
  · refine .expect hc₁ fun c₂ h₂ hc₂ hpast ↦ .call hc₂ (hp .assignment c₂ s)
      fun e c₃ h₃ hc₃ he ↦ ?_
    have hspread : c₃.Has c₁.lo (.mk .spread ⟨c₁.lo, c₃.prevEnd⟩ [e]) :=
      ((c₁.opens_lo.passed hpast).mono h₃).node rfl (Place.holdsAll_one he.holds)
    refine runs_nodeFrom.2 (.expect hc₃ fun c₄ h₄ hc₄ _ ↦ .pure hc₄ ?_)
    exact (hspread.of_le h₄).from_le hc₁
  · refine .call (le_refl c) (runs_markupName c s) fun _ c₁ h₁ hc₁ hpast ↦ runs_isPunct.2 ?_
    refine .choose hc₁ (Q := fun n d ↦ d.Holds n) (fun hassign ↦ ?_) (fun _ ↦ runs_noPart c₁ s)
      fun value c₂ h₂ hc₂ hvalue ↦ .node hc₂ ?_
    · have hfree : c₁.stuck = false := c₁.free_of_form fun e he ↦ by
        rw [he] at hassign
        cases hassign
      exact (runs_attributeValue hp hfree s).mono fun _ _ _ hn ↦ hn.holds
    · exact (c.opens_lo.passed (hpast.mono h₂)).node rfl (Place.holdsAll_one hvalue)

theorem runs_markupAttributes (c : Place text) (s : Setting) :
    Runs c c s (markupAttributes p) fun ns d ↦ d.HoldsAll ns := by
  unfold markupAttributes
  refine runs_iterate (fun ns d ↦ d.HoldsAll ns) Place.holdsAll_nil fun ns d _ hns ↦ ?_
  rw [runs_form, runs_get]
  split
  · exact .pure (le_refl d) hns
  · exact .pure (le_refl d) hns
  · exact .call (le_refl d) (runs_markupAttribute hp d s) fun n e hde _ hn ↦
      .pure hde (hns.append hde hn.holds)

/-! ## Children -/

theorem runs_childContainer (c : Place text) (s : Setting) :
    Runs c c s (childContainer p) fun n d ↦ d.AtBracket ∧ d.HasUpTo c.lo (d.lo + 1) n := by
  unfold childContainer
  rw [runs_here]
  refine .expect (le_refl c) fun c₁ h₁ hc₁ _ ↦ runs_isPunct.2 (.ite (fun hbrace ↦ ?_) fun _ ↦ ?_)
  · have hat : c₁.AtBracket :=
      .inr (Token.head?_of_rbrace (c₁.lexeme_of_punct (by simpa using hbrace)).1)
    exact .nodeToBracket hc₁ ⟨hat, hat.node (c.opens_lo.mono hc₁) rfl
      (Place.holdsAll_one Place.holds_absent)⟩
  have hinner : ∀ (form : JsxForm) (d : Place text), c₁ ≤ d → Runs c d s (do
      let e ← p .expression
      atBrace
      nodeToBracket c.lo (.jsx form) [e])
      fun n d ↦ d.AtBracket ∧ d.HasUpTo c.lo (d.lo + 1) n := by
    intro form d hd
    refine .call (hc₁.trans hd) (hp .expression d s) fun e d₁ _ hcd₁ he ↦ ?_
    refine .atBrace hcd₁ fun hbrace ↦ .nodeToBracket hcd₁ ⟨.inr hbrace, ?_⟩
    exact Place.AtBracket.node (.inr hbrace) (c.opens_lo.mono hcd₁) rfl
      (Place.holdsAll_one he.holds)
  exact .eat hc₁ (fun d hd _ _ ↦ hinner .spreadChild d hd) (hinner .container c₁ (le_refl c₁))

omit hp in
theorem runs_closingRest (c : Place text) (s : Setting) :
    Runs c c s closingRest fun _ d ↦ d.cursor.text.head? = some '>' := by
  unfold closingRest
  refine .expect (le_refl c) fun d _ hcd _ ↦ runs_get.2 ?_
  split
  · exact .atGreater hcd fun hhead ↦ .pure hcd hhead
  · exact .call hcd (runs_markupName d s) fun _ e _ hce _ ↦
      .atGreater hce fun hhead ↦ .pure hce hhead

omit hp in
theorem runs_closingName (c : Place text) (s : Setting) :
    Runs c c s closingName fun _ d ↦ d.cursor.text.head? = some '>' := by
  unfold closingName
  exact .eatLess (le_refl c) (fun d hcd _ _ ↦ (runs_closingRest d s).last hcd fun _ _ _ h ↦ h)
    (runs_closingRest c s)

omit hp in
theorem runs_notes (es : List SyntaxError) (c : Place text) (s : Setting) :
    Runs c c s (es.forM note) fun _ d ↦ c.SameSpot d := by
  induction es generalizing c with
  | nil => exact .pure (le_refl c) (.refl c)
  | cons e es ih =>
    refine .call (le_refl c) (runs_note c s e) fun _ d _ hcd ⟨hspot, _⟩ ↦ ?_
    exact (ih d).last hcd fun _ e _ hde ↦ hspot.trans hde

omit hp in
/-- The text after the bracket goes on to a later place, and what ends with the bracket is read. -/
theorem Place.AtBracket.exists_after (h : c.AtBracket) (hspot : c.SameSpot d) {v rest : List Char}
    (hrest : c.cursor.text.drop 1 = v ++ rest) :
    ∃ e : Place text, e.cursor = { d.cursor with prevEnd := c.lo + 1 + Text.size v }.goto
      (c.lo + 1 + Text.size v) rest ∧ d ≤ e ∧ e.prevEnd = c.lo + 1 + Text.size v ∧
      Comment.Outside e.comments (c.lo + 1) := by
  have hat := h.after
  rw [hrest] at hat
  have hlo := hspot.lo
  obtain ⟨e, he, hde, hprev, hout⟩ := d.exists_goto (hspot.stuck.symm.trans h.free)
    (.inr hat.append) hat.append.boundary (by omega)
    fun hend ↦ absurd (hspot.token ▸ hend) h.not_endOfText
  exact ⟨e, he, hde, hprev, hout _ (by omega) (Nat.le_add_right _ _)⟩

omit hp in
/-- The items before a bracket, and the text that follows it. -/
theorem Place.AtBracket.holdsAll_text (h : c.AtBracket) (hcd : c ≤ d) {v : List Char}
    (hprev : d.prevEnd = c.lo + 1 + Text.size v)
    (hout : Comment.Outside d.comments (c.lo + 1)) {ns : List Node}
    (hns : ∀ n ∈ ns, c.HoldsUpTo (c.lo + 1) n) :
    d.HoldsAll (if v.isEmpty then ns
      else ns ++ [.mk (.jsx .text) ⟨c.lo + 1, c.lo + 1 + Text.size v⟩ []]) := by
  have hle : c.lo + 1 ≤ d.prevEnd := by omega
  have hns' : d.HoldsAll ns := fun n hn ↦ (hns n hn).mono hcd hle
  split
  · exact hns'
  · exact hns'.append (le_refl d) (Place.has_plain rfl
      (fun hfree ↦ ⟨h.after.boundary, Nat.le_trans hle (d.prevEnd_le_lo hfree), hout⟩)
      (Place.closes_of_prevEnd hprev) (Nat.le_of_eq hprev.symm) Place.holdsAll_nil
      fun _ _ ↦ Nat.le_add_right _ _).holds

theorem runs_children (hat : c.AtBracket) (s : Setting) (name : List Char) :
    Runs c c s (children p name) fun ns d ↦ d.cursor.text.head? = some '>' ∧ d.HoldsAll ns := by
  unfold children
  refine runs_iterate (fun ns d ↦ d.AtBracket ∧ ∀ n ∈ ns, d.HoldsUpTo (d.lo + 1) n)
    ⟨hat, by simp⟩ fun ns d hcd ⟨hat, hns⟩ ↦ ?_
  unfold afterBracket
  rw [bind_assoc, runs_get, runs_pure]
  dsimp only
  rw [List.span_eq_takeWhile_dropWhile]
  have hrest := (List.takeWhile_append_dropWhile (p := fun a ↦ a != '<' && a != '{')
    (l := d.cursor.text.drop 1)).symm
  generalize (d.cursor.text.drop 1).takeWhile _ = words, (d.cursor.text.drop 1).dropWhile _ = rest
    at hrest ⊢
  dsimp only
  refine .call (le_refl d) (runs_notes _ d s) fun _ d₁ h₁ _ hspot ↦ ?_
  obtain ⟨e, he, hd₁e, hprev, hout⟩ := hat.exists_after hspot hrest
  have hde := h₁.trans hd₁e
  have hitems := hat.holdsAll_text hde hprev hout hns
  refine .modify he ?_
  generalize (if words.isEmpty then ns else _) = items at hitems ⊢
  -- Each item that is read ends with a bracket, where the next round starts.
  have hnext : ∀ (e₁ : Place text) (n : Node), e ≤ e₁ → e₁.AtBracket →
      e₁.HasUpTo e.lo (e₁.lo + 1) n → ∀ m ∈ items ++ [n], e₁.HoldsUpTo (e₁.lo + 1) m :=
    fun e₁ n h₁ hat₁ hn ↦ List.forall_mem_append.2 ⟨fun m hm ↦
      hat₁.holdsUpTo ((hitems.of_le h₁) m hm), fun m hm ↦ by
        rw [List.mem_singleton.1 hm]
        exact hn.holds⟩
  split
  · refine .call hde (runs_childContainer hp e s) fun n e₁ h₁ hde₁ ⟨hat₁, hn⟩ ↦ .pure hde₁ ?_
    exact ⟨hat₁, hnext e₁ n h₁ hat₁ hn⟩
  · refine runs_peek.2 (.ite (fun _ ↦ runs_here.2 ?_) fun _ ↦ ?_)
    · refine .call hde (runs_closingName e s) fun _ e₁ h₁ hde₁ hhead ↦ ?_
      refine .ite (fun _ ↦ runs_get.2 (.stop (.failAt hde₁))) fun _ ↦ ?_
      exact .pure hde₁ ⟨hhead, hitems.of_le h₁⟩
    · refine .call hde (hp .markup e s) fun n e₁ h₁ hde₁ ⟨hn, hhead⟩ ↦ .pure hde₁ ?_
      exact ⟨.inl hhead, hnext e₁ n h₁ (.inl hhead) hn⟩
  · exact .failAtEnd hde

theorem runs_markup (c : Place text) (s : Setting) :
    Runs c c s (markup p) (Goal.Reads c .markup) := by
  unfold markup
  rw [runs_here]
  refine .eatLess (le_refl c) (fun c₁ h₁ hc₁ _ ↦ runs_get.2 ?_) (.stop (.failExpected (le_refl c)))
  have hclose : ∀ (form : JsxForm) (ns : List Node) (d : Place text), c ≤ d →
      d.cursor.text.head? = some '>' → d.HoldsAll ns →
      Runs c d s (nodeToBracket c.lo (.jsx form) ns) (Goal.Reads c .markup) :=
    fun form ns d hcd hhead hns ↦ .nodeToBracket hcd
      ⟨Place.AtBracket.node (.inl hhead) (c.opens_lo.mono hcd) rfl hns, hhead⟩
  split
  · rename_i htext
    refine .call hc₁ (runs_children hp (.inl (by rw [htext]; rfl)) s [])
      fun ns d _ hcd ⟨hhead, hns⟩ ↦ ?_
    exact hclose .fragment ns d hcd hhead hns
  · refine runs_here.2 (.call hc₁ (runs_markupName c₁ s) fun name c₂ h₂ hc₂ hpast ↦ ?_)
    have hname : c₂.Has c₁.lo (.mk (.jsx .name) ⟨c₁.lo, c₂.prevEnd⟩ []) :=
      (c₁.opens_lo.passed hpast).node rfl Place.holdsAll_nil
    rw [runs_nodeFrom, runs_isTypescript]
    refine .choose hc₂ (Q := fun n d ↦ d.Holds n) (fun _ ↦ runs_typeArguments? hp c₂ s)
      (fun _ ↦ runs_noPart c₂ s) fun args c₃ h₃ hc₃ hargs ↦ ?_
    refine .call hc₃ (runs_markupAttributes hp c₃ s) fun attrs c₄ h₄ hc₄ hattrs ↦ ?_
    refine .eat hc₄ (fun c₅ h₅ hc₅ _ ↦ .atGreater hc₅ fun hhead ↦ ?_)
      (.atGreater hc₄ fun hhead ↦ ?_)
    · refine hclose .element _ c₅ hc₅ hhead (.cons (hname.part (h₃.trans (h₄.trans h₅))) ?_)
      exact (hattrs.of_le h₅).append (le_refl c₅) (hargs.of_le (h₄.trans h₅))
    · refine .call hc₄ (runs_children hp (.inl hhead) s name) fun ns d hd hcd ⟨hhead, hns⟩ ↦ ?_
      refine hclose .element _ d hcd hhead (.cons (hname.part (h₃.trans (h₄.trans hd))) ?_)
      exact List.forall_mem_append.2
        ⟨hattrs.of_le hd, Place.HoldsAll.cons (hargs.of_le (h₄.trans hd)) hns⟩

end

end OptionalChain.Grammar
