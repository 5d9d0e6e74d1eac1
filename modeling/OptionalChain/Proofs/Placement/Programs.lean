import OptionalChain.Proofs.Placement.Statements

/-!
# Programs

Declarations, imports and exports, and with them the whole grammar. A program that is read ends at
the end of the text, where no token is missing, so all its nodes sit in the text.
-/

namespace OptionalChain.Grammar

open Text (At Boundary)

variable {text : List Char} {w c d e : Place text} {s : Setting} {lo : Nat} {p : Parts}

section

variable (hp : Sound text p)
include hp

/-! ## Types and namespaces -/

omit hp in
/-- What an interface extends, which may be nothing. -/
theorem Place.holds_heritages {b : Place text} {ns : List Node} (hbc : b ≤ c)
    (hns : c.HoldsAll ns) : c.Holds (.mk (.type .heritages) ⟨b.lo, c.prevEnd⟩ ns) :=
  Place.holds_mk hns (Place.clears_of_hasTargets rfl) fun hfree _ ↦
    Place.seats_mk (b.opens_lo.mono hbc) (c.closes_prevEnd hfree) (.inl rfl) (Nat.le_refl _)
      (Node.shape_of_isPlain rfl) (Place.joins_of_isPlain rfl)

theorem runs_interface (hlo : c.Opens lo) (s : Setting) :
    Runs c c s (interface p lo) (Stated lo) := by
  unfold interface
  refine .spend (le_refl c) fun c₁ h₁ _ hpast ↦ ?_
  refine .call h₁ (runs_identifierNode c₁ s) fun name c₂ h₂ hc₂ ⟨_, hname⟩ ↦ ?_
  refine .call hc₂ (runs_typeParameters? hp c₂ s) fun params c₃ h₃ hc₃ hparams ↦ runs_here.2 ?_
  refine .eatWordThen hc₃ (Q := fun ns d ↦ d.HoldsAll ns) (fun d _ _ ↦ runs_heritageList hp d s)
    (.pure (le_refl c₃) Place.holdsAll_nil) fun parents c₄ h₄ hc₄ hparents ↦ ?_
  refine runs_nodeFrom.2 (runs_here.2 ?_)
  refine .call hc₄ (runs_memberBlock hp c₄ s) fun members c₅ h₅ hc₅ hmembers ↦ runs_nodeFrom.2 ?_
  have hlate := h₃.trans (h₄.trans h₅)
  have hbody : c₅.Has c₄.lo (.mk (.type .members) ⟨c₄.lo, c₅.prevEnd⟩ members) :=
    (c₄.opens_lo.passed hmembers.past).node rfl (hmembers.all.part (le_refl c₅))
  exact .stated rfl hc₅ (hlo.passed (hpast.mono (h₂.trans hlate))) (.cons (hname.part hlate)
    (.cons (hparams.of_le (h₄.trans h₅)) (.cons ((Place.holds_heritages h₄ hparents).of_le h₅)
      (Place.holdsAll_one hbody.holds))))

theorem runs_typeAlias (hlo : c.Opens lo) (s : Setting) :
    Runs c c s (typeAlias p lo) (Stated lo) := by
  unfold typeAlias
  refine .spend (le_refl c) fun c₁ h₁ _ hpast ↦ ?_
  refine .call h₁ (runs_identifierNode c₁ s) fun name c₂ h₂ hc₂ ⟨_, hname⟩ ↦ ?_
  refine .call hc₂ (runs_typeParameters? hp c₂ s) fun params c₃ h₃ hc₃ hparams ↦ ?_
  refine .expect hc₃ fun c₄ h₄ hc₄ _ ↦ .call hc₄ (hp.type c₄ s) fun t c₅ h₅ hc₅ ht ↦ ?_
  refine .expectSemicolon hc₅ fun c₆ h₆ hc₆ ↦ ?_
  have hlate := h₄.trans (h₅.trans h₆)
  exact .stated rfl hc₆ (hlo.passed (hpast.mono (h₂.trans (h₃.trans hlate))))
    (.cons (hname.part (h₃.trans hlate)) (.cons (hparams.of_le hlate)
      (Place.holdsAll_one (ht.part h₆))))

theorem runs_enumMember (c : Place text) (s : Setting) :
    Runs c c s (enumMember p) fun n d ↦ d.Holds n := by
  unfold enumMember
  rw [runs_here]
  refine .call (le_refl c) (runs_propertyKey hp c s) fun key c₁ h₁ _ hkey ↦ ?_
  refine .call h₁ (runs_initializer? hp c₁ s) fun value c₂ h₂ hc₂ hvalue ↦ .node hc₂ ?_
  exact ((c.opens_lo.passed (hkey.past.mono h₂)).node rfl
    (.cons (hkey.has.part h₂) (Place.holdsAll_one hvalue))).holds

theorem runs_enumMembers (c : Place text) (s : Setting) :
    Runs c c s (enumMembers p) fun ns d ↦ d.HoldsAll ns := by
  unfold enumMembers
  refine runs_iterate (fun ns d ↦ d.HoldsAll ns) Place.holdsAll_nil fun ns d _ hns ↦ ?_
  refine .eat (le_refl d) (fun e hde _ _ ↦ .pure (s := s) hde (hns.of_le hde)) ?_
  refine .call (le_refl d) (runs_enumMember hp d s) fun n e hde _ hn ↦ ?_
  have hall := hns.append hde hn
  refine .eatAny hde fun b e₁ h₁ he₁ ↦ runs_isPunct.2 ?_
  refine .ite (fun _ ↦ runs_token.2 (runs_get.2 (.emit he₁ fun e₂ h₂ he₂ ↦ ?_))) fun _ ↦ ?_
  · exact .pure he₂ (hall.of_le (h₁.trans h₂))
  · exact .pure he₁ (hall.of_le h₁)

theorem runs_enum (hlo : c.Opens lo) (s : Setting) : Runs c c s (enum p lo) (Stated lo) := by
  unfold enum
  refine .eatWordAny (le_refl c) fun _ c₁ h₁ _ ↦ .expectWord h₁ fun c₂ h₂ hc₂ hpast ↦ ?_
  refine .call hc₂ (runs_identifierNode c₂ s) fun name c₃ h₃ hc₃ ⟨_, hname⟩ ↦ ?_
  refine .expect hc₃ fun c₄ h₄ hc₄ _ ↦ .call hc₄ (runs_enumMembers hp c₄ s)
    fun ns c₅ h₅ hc₅ hns ↦ ?_
  exact .stated rfl hc₅ (hlo.passed ((hpast.of_le h₁).mono (h₃.trans (h₄.trans h₅))))
    (.cons (hname.part (h₄.trans h₅)) hns)

theorem runs_itemPart (c : Place text) (s : Setting) :
    Runs c c s (p .item) fun n d ↦ d.Holds n :=
  (hp .item c s).mono fun _ _ _ hn ↦ hn.holds

theorem runs_moduleBody (hlo : c.Passed lo) (s : Setting) :
    Runs c c s (moduleBody p lo) (Stated lo) := by
  unfold moduleBody
  refine .eat (le_refl c) (fun c₁ h₁ _ _ ↦ ?_) (.expectSemicolon (le_refl c) fun c₁ h₁ _ ↦ ?_)
  · refine .call h₁ (runs_itemsToBrace (fun d _ ↦ runs_itemPart hp d) s) fun ns c₂ _ hc₂ hns ↦ ?_
    exact .stated rfl hc₂ (hlo.mono hc₂) hns
  · exact .stated rfl h₁ (hlo.mono h₁) Place.holdsAll_nil

omit hp in
theorem runs_moduleName (c : Place text) (s : Setting) : Runs c c s moduleName Anywhere := by
  unfold moduleName
  rw [runs_form]
  split
  · exact (runs_bump c s).anywhere
  · exact .call (le_refl c) (runs_entityName c s) fun _ d _ hcd _ ↦ .pure hcd trivial

theorem runs_moduleDecl (hlo : c.Opens lo) (s : Setting) :
    Runs c c s (moduleDecl p lo) (Stated lo) := by
  unfold moduleDecl
  refine .spend (le_refl c) fun c₁ h₁ _ hpast ↦ .call h₁ (runs_moduleName c₁ s)
    fun _ c₂ h₂ hc₂ _ ↦ ?_
  exact (runs_moduleBody hp (hlo.passed (hpast.mono h₂)) s).last hc₂ fun _ _ _ hn ↦ hn

omit hp in
theorem looks_typeDecl? : Looks typeDecl? := by
  unfold typeDecl?
  refine .bind looks_isTypescript fun _ ↦ ?_
  split
  · exact .pure _
  refine .bind looks_peek fun _ ↦ .bind looks_form fun _ ↦ ?_
  split
  · exact .pure _
  · exact .pure _
  · split
    · exact .pure _
    · split <;> exact .pure _
  · exact .pure _

omit hp in
/-- A word that announces a declaration is followed by one of a few words. -/
theorem runs_typeDecl? (c : Place text) (s : Setting) :
    Runs c c s typeDecl? fun decl? d ↦ d = c ∧ (decl? = some .declare → c.stuck = false ∧
      ∃ word ∈ ambientWords, (Token.scan c.hi c.cursor.rest).token.form = .word word false) := by
  have hother : ∀ {decl? : Option TypeDecl}, decl? ≠ some .declare → Runs c c s (pure decl?)
      fun decl? d ↦ d = c ∧ (decl? = some .declare → c.stuck = false ∧
        ∃ word ∈ ambientWords, (Token.scan c.hi c.cursor.rest).token.form = .word word false) :=
    fun hne ↦ .pure (le_refl c) ⟨rfl, fun heq ↦ absurd heq hne⟩
  unfold typeDecl?
  rw [runs_isTypescript]
  refine .ite (fun _ ↦ hother nofun) fun _ ↦ runs_peek.2 (runs_form.2 ?_)
  split
  · exact hother nofun
  · exact hother nofun
  · refine .ite (fun _ ↦ hother nofun) fun _ ↦ ?_
    split
    case h_7 word hnext _ hform _ =>
      refine .pure (le_refl c) ⟨rfl, fun heq ↦ ⟨?_, word, by simpa using heq, hnext⟩⟩
      exact c.free_of_form fun e he ↦ by
        rw [hform] at he
        cases he
    all_goals exact hother nofun
  · exact hother nofun

omit hp in
/-- What is declared starts with a word that does not leave a function. -/
theorem not_isExit_of_declare {word : String} (hfree : c.stuck = false)
    (hword : word ∈ ambientWords)
    (hnext : (Token.scan c.hi c.cursor.rest).token.form = .word word false)
    (hd : d.cursor = c.cursor.advance) : ¬d.IsExit := by
  have hadvance : d.cursor.token =
      { c.cursor with prevEnd := c.hi }.placed (Token.scan c.hi c.cursor.rest).token := by
    rw [hd]
    simp only [Cursor.advance]
    rw [if_neg (by simp [hfree])]
    rfl
  have htoken : d.cursor.token.form = .word word false := by
    rw [hadvance, Cursor.placed, if_neg (by rw [hnext]; simp)]
    exact hnext
  rintro (hexit | hexit)
  all_goals
    rw [htoken] at hexit
    cases hexit
    revert hword
    decide

theorem runs_declare (hlo : c.Opens lo)
    (hexit : ∀ d : Place text, d.cursor = c.cursor.advance → ¬d.IsExit) (s : Setting) :
    Runs c c s (declare p lo) (Stated lo) := by
  unfold declare
  refine .advance (le_refl c) fun c₁ h₁ _ _ hnext ↦ .call h₁ (runs_within.2 (hp .statement c₁ _))
    fun n d _ hcd ⟨hn, hkind⟩ ↦ ?_
  have hplain : n.kind.isPlain = true := hkind.resolve_right (hexit c₁ hnext)
  refine .pure hcd ⟨⟨?_, fun herrors ↦ (hn.admits herrors).respan⟩, hplain⟩
  have hlo₁ := hlo.mono h₁
  intro hfree hwhole
  have hnWhole : n.Whole := by
    obtain ⟨kind, span, cs⟩ := n
    exact Node.whole_mk.2 (Node.whole_mk.1 hwhole)
  obtain ⟨hle, hforward, hall⟩ := hn.placed hfree hnWhole
  have hself := hall n n.self_mem_preorder
  have hspan : lo ≤ n.span.hi := Nat.le_trans hlo₁.le (Nat.le_trans hle hforward)
  refine ⟨Nat.le_refl _, hspan, fun m hm ↦ ?_⟩
  obtain rfl | ⟨k, hk, hm⟩ := Node.mem_preorder_mk.1 hm
  · exact Place.seats_mk (hlo.mono hcd) hself.closes (.inr hspan) hself.sits.hi_le
      (Node.shape_of_isPlain hplain) (Place.joins_of_isPlain hplain)
  · exact hall m (Node.preorder_subset_of_mem_children hk hm)

theorem runs_typeDeclWith (hlo : c.Opens lo) (s : Setting) {decl : TypeDecl}
    (hdecl : decl = .declare → ∀ d : Place text, d.cursor = c.cursor.advance → ¬d.IsExit) :
    Runs c c s (typeDeclWith p lo decl) (Stated lo) := by
  cases decl with
  | interface => exact runs_interface hp hlo s
  | typeAlias => exact runs_typeAlias hp hlo s
  | enum => exact runs_enum hp hlo s
  | module => exact runs_moduleDecl hp hlo s
  | global =>
    unfold typeDeclWith
    refine .spend (le_refl c) fun c₁ _ hc₁ hpast ↦ ?_
    exact (runs_moduleBody hp (hlo.passed hpast) s).last hc₁ fun _ _ _ hn ↦ hn
  | declare => exact runs_declare hp hlo (hdecl rfl) s
  | abstractClass =>
    unfold typeDeclWith
    refine .spend (le_refl c) fun c₁ h₁ _ _ ↦ ?_
    exact (runs_classWith hp (hlo.mono h₁) s rfl true).last h₁ fun _ _ _ hn ↦
      ⟨hn.1, by rw [hn.2]; rfl⟩

/-! ## Statements by their first word -/

theorem runs_functionStatement (hlo : c.Opens lo) (s : Setting) (async : Bool) :
    Runs c c s (functionWith p lo async (.statement .function) true) (Stated lo) :=
  (runs_functionWith hp hlo s async true rfl).mono fun _ _ _ hn ↦ ⟨hn.1, by rw [hn.2]; rfl⟩

theorem runs_classStatement (hlo : c.Opens lo) (s : Setting) :
    Runs c c s (classWith p lo (.statement .classDecl) true) (Stated lo) :=
  (runs_classWith hp hlo s rfl true).mono fun _ _ _ hn ↦ ⟨hn.1, by rw [hn.2]; rfl⟩

omit hp in
theorem Stated.reads {n : Node} (h : Stated c.lo n d) : Goal.statement.Reads c n d :=
  ⟨h.1, .inl h.2⟩

omit hp in
theorem Runs.reads {m : Parser Node} (h : Runs w c s m (Stated d.lo)) :
    Runs w c s m (Goal.statement.Reads d) :=
  h.mono fun _ _ _ hn ↦ hn.reads

theorem runs_keywordStatement? (c : Place text) (s : Setting) {m : Parser Node}
    (h : keywordStatement? p c.lo c.cursor.token.form = some m) :
    Runs c c s m (Goal.statement.Reads c) := by
  unfold keywordStatement? at h
  split at h
  · cases h
    exact Runs.reads (hp .block c s)
  · cases h
    refine .spend (le_refl c) fun d _ hcd hpast ↦ .reads ?_
    exact .stated rfl hcd (c.opens_lo.passed hpast) Place.holdsAll_nil
  · rename_i hform
    split at h
    all_goals cases h
    · exact (runs_choice hp c s).reads
    · exact (runs_whileLoop hp c s).reads
    · exact (runs_doLoop hp c s).reads
    · exact (runs_forLoop hp c s).reads
    · exact (runs_returning hp hform s).mono fun _ _ _ hn ↦ ⟨hn, .inr (.inl hform)⟩
    · exact (runs_throwing hp hform s).mono fun _ _ _ hn ↦ ⟨hn, .inr (.inr hform)⟩
    · exact (runs_jump c s).reads
    · exact (runs_jump c s).reads
    · exact (runs_switch hp c s).reads
    · exact (runs_trying hp c s).reads
    · exact (runs_withObject hp c s).reads
    · exact (runs_functionStatement hp c.opens_lo s false).reads
    · exact (runs_classStatement hp c.opens_lo s).reads
    · exact (runs_strayHandler hp c s c.lo).reads
    · exact (runs_strayHandler hp c s c.lo).reads
    · refine .spend (le_refl c) fun d _ hcd hpast ↦ .expectSemicolon hcd fun e hde hce ↦ .reads ?_
      exact .stated rfl hce (c.opens_lo.passed (hpast.mono hde)) Place.holdsAll_nil
  · cases h

omit hp in
theorem looks_startsAwaitResources : Looks startsAwaitResources := by
  unfold startsAwaitResources
  refine .bind looks_peekTwo fun _ ↦ .bind looks_form fun _ ↦ ?_
  split
  · exact .bind looks_isTypescript fun _ ↦ .pure _
  · exact .pure _

omit hp in
theorem looks_startsAsyncFunction : Looks startsAsyncFunction := by
  unfold startsAsyncFunction
  exact .bind looks_peek fun _ ↦ .bind (looks_isWord _) fun _ ↦ .pure _

omit hp in
theorem runs_checkModulePlace (c : Place text) (s : Setting) :
    Runs c c s checkModulePlace fun _ d ↦ d = c := by
  unfold checkModulePlace
  rw [runs_peek, runs_form]
  split
  · exact .pure (le_refl c) rfl
  · exact .pure (le_refl c) rfl
  · exact .failHere (le_refl c)
  · exact .failHere (le_refl c)
  · exact .pure (le_refl c) rfl

theorem runs_statement (c : Place text) (s : Setting) :
    Runs c c s (statement p) (Goal.statement.Reads c) := by
  unfold statement
  rw [runs_here]
  refine .bind (runs_checkModulePlace c s) fun _ d _ hd ↦ ?_
  obtain rfl := hd
  refine .bind (runs_typeDecl? d s) fun decl? d' _ hdecl ↦ ?_
  obtain ⟨hd, hdecl⟩ := hdecl
  rw [hd]
  cases decl? with
  | some decl =>
    refine Runs.reads (runs_typeDeclWith hp d.opens_lo s fun heq e he ↦ ?_)
    subst heq
    obtain ⟨hfree, word, hword, hnext⟩ := hdecl rfl
    exact not_isExit_of_declare hfree hword hnext he
  | none =>
    rw [runs_form]
    split
    · exact runs_keywordStatement? hp d s ‹_›
    refine .reads (.look looks_startsVariables (le_refl d) fun _ ↦ .ite (fun _ ↦ ?_) fun _ ↦ ?_)
    · exact runs_bindingList hp d.opens_lo s
    refine .look looks_startsResources (le_refl d) fun _ ↦ .ite (fun _ ↦ ?_) fun _ ↦ ?_
    · exact runs_resources hp d.opens_lo s
    refine .look looks_startsAwaitResources (le_refl d) fun _ ↦ .ite (fun _ ↦ ?_) fun _ ↦ ?_
    · refine .spend (le_refl d) fun e _ hde _ ↦ ?_
      exact (runs_resources hp (d.opens_lo.mono hde) s).last hde fun _ _ _ hn ↦ hn
    refine .look looks_startsAsyncFunction (le_refl d) fun _ ↦ .ite (fun _ ↦ ?_) fun _ ↦ ?_
    · refine .spend (le_refl d) fun e _ hde _ ↦ ?_
      exact (runs_functionStatement hp (d.opens_lo.mono hde) s true).last hde fun _ _ _ hn ↦ hn
    refine runs_isPunct.2 (runs_dialect.2 (.ite (fun _ ↦ ?_) fun _ ↦ ?_))
    · refine .call (le_refl d) (runs_decorators hp d s) fun _ d₁ _ h₁ _ ↦ .eatWordAny h₁
        fun _ d₂ _ h₂ ↦ ?_
      exact (runs_classStatement hp (d.opens_lo.mono h₂) s).last h₂ fun _ _ _ hn ↦ hn
    · exact runs_expressionStatement hp d s

theorem runs_bodyStatement (c : Place text) (s : Setting) :
    Runs c c s (bodyStatement p) fun n d ↦ d.Has c.lo n := by
  have hstatement : ∀ d, c ≤ d → Runs c d s (p .statement) fun n e ↦ e.Has c.lo n := fun d hcd ↦
    (hp .statement d s).last hcd fun _ _ _ hn ↦ hn.1.from_le hcd
  have hexpression : Runs c c s (expressionStatement p c.lo) fun n e ↦ e.Has c.lo n :=
    (runs_expressionStatement hp c s).mono fun _ _ _ hn ↦ hn.1
  have heither : ∀ {test : Parser Bool}, Looks test → Runs c c s (do
      if ← test then expressionStatement p c.lo else p .statement) fun n e ↦ e.Has c.lo n :=
    fun htest ↦ .look htest (le_refl c) fun _ ↦ .ite (fun _ ↦ hexpression)
      fun _ ↦ hstatement c (le_refl c)
  unfold bodyStatement
  rw [runs_here, runs_form]
  split
  · exact runs_token.2 (.emit (le_refl c) fun d hcd _ ↦ hstatement d hcd)
  · exact runs_token.2 (.emit (le_refl c) fun d hcd _ ↦ hstatement d hcd)
  · exact heither looks_startsVariables
  · exact heither looks_startsVariables
  · exact heither looks_startsAsyncFunction
  · exact hstatement c (le_refl c)

/-! ## Imports and exports -/

omit hp in
theorem runs_moduleSource (c : Place text) (s : Setting) : Runs c c s moduleSource Anywhere := by
  unfold moduleSource
  rw [runs_form]
  split
  · exact (runs_bump c s).anywhere
  · exact .failAtEnd (le_refl c)
  · exact runs_get.2 (.failHere (le_refl c))

theorem runs_importAttributes (c : Place text) (s : Setting) :
    Runs c c s (importAttributes p) Anywhere := by
  unfold importAttributes
  rw [runs_isTypescript, runs_token, runs_isWord, runs_isWord]
  split
  · refine .spend (le_refl c) fun d _ hcd _ ↦ ?_
    exact .call hcd (runs_objectLiteral hp d s) fun _ e _ hce _ ↦ .pure hce trivial
  · exact .pure (le_refl c) trivial

omit hp in
theorem runs_moduleWord (c : Place text) (s : Setting) :
    Runs c c s moduleWord fun _ d ↦ c.Past d := by
  unfold moduleWord
  rw [runs_form]
  split
  · exact .spend (le_refl c) fun d _ hcd hpast ↦ .pure hcd hpast
  · exact .call (le_refl c) (runs_anyWord c s) fun _ d _ hcd hx ↦ .pure hcd hx.past
  · exact .failAtEnd (le_refl c)
  · exact runs_get.2 (.failHere (le_refl c))

omit hp in
theorem looks_startsWord : Looks startsWord := by
  unfold startsWord
  refine .bind looks_form fun _ ↦ ?_
  split <;> exact .pure _

omit hp in
theorem runs_newName (c : Place text) (s : Setting) : Runs c c s newName Anywhere := by
  unfold newName
  refine .eatWord (le_refl c) (fun d _ hcd _ ↦ ?_) (.pure (s := s) (le_refl c) trivial)
  exact .call hcd (runs_moduleWord d s) fun _ e _ hce _ ↦ .pure hce trivial

omit hp in
theorem runs_typeSpecifierRest (c : Place text) (s : Setting) :
    Runs c c s typeSpecifierRest Anywhere := by
  unfold typeSpecifierRest
  refine .call (le_refl c) (runs_anyWord c s) fun x c₁ _ hc₁ _ ↦ .ite (fun _ ↦ ?_) fun _ ↦ ?_
  · refine .look looks_startsWord hc₁ fun _ ↦ .ite (fun _ ↦ ?_) fun _ ↦ .pure hc₁ trivial
    refine .call hc₁ (runs_anyWord c₁ s) fun y c₂ _ hc₂ _ ↦ .look looks_startsWord hc₂ fun _ ↦ ?_
    refine .ite (fun _ ↦ ?_) fun _ ↦ .pure hc₂ trivial
    exact .call hc₂ (runs_anyWord c₂ s) fun _ c₃ _ hc₃ _ ↦ .pure hc₃ trivial
  · exact .call hc₁ (runs_newName c₁ s) fun _ c₂ _ hc₂ _ ↦ .pure hc₂ trivial

omit hp in
theorem runs_specifier (c : Place text) (s : Setting) (bound : Bool) :
    Runs c c s (specifier bound) fun n d ↦ d.Has c.lo n := by
  unfold specifier
  rw [runs_here]
  refine .call (le_refl c) (runs_moduleWord c s) fun x? c₁ h₁ _ hpast ↦ ?_
  have hclose : ∀ d, c₁ ≤ d → Runs c d s (nodeFrom c.lo (.statement .importDecl) [])
      fun n e ↦ e.Has c.lo n := fun d hd ↦
    .node (h₁.trans hd) ((c.opens_lo.passed (hpast.mono hd)).node rfl Place.holdsAll_nil)
  cases x? with
  | none => exact .call h₁ (runs_newName c₁ s) fun _ d hd _ _ ↦ hclose d hd
  | some x =>
    dsimp only
    rw [runs_isTypescript]
    refine .look looks_startsWord h₁ fun _ ↦ .ite (fun _ ↦ ?_) fun _ ↦ ?_
    · exact .call h₁ (runs_typeSpecifierRest c₁ s) fun _ d hd _ _ ↦ hclose d hd
    · refine .call h₁ (runs_newName c₁ s) fun _ d hd hcd _ ↦ ?_
      exact .guard (fun _ ↦ .failAt hcd) fun _ ↦ hclose d hd

omit hp in
theorem runs_specifiers (c : Place text) (s : Setting) (bound : Bool) :
    Runs c c s (specifiers bound) Anywhere := by
  unfold specifiers
  refine .expect (le_refl c) fun d _ hcd _ ↦ ?_
  exact .call hcd (runs_openList fun e _ ↦ runs_specifier e s bound) fun _ e _ hce _ ↦
    .pure hce trivial

omit hp in
theorem runs_importEquals (c : Place text) (s : Setting) : Runs c c s importEquals Anywhere := by
  unfold importEquals
  refine .spend (le_refl c) fun c₁ _ hc₁ _ ↦ runs_isWord.2 (runs_peek.2 ?_)
  refine .ite (fun _ ↦ ?_) fun _ ↦ ?_
  · refine .spend hc₁ fun c₂ _ hc₂ _ ↦ .spend hc₂ fun c₃ _ hc₃ _ ↦ ?_
    refine .call hc₃ (runs_moduleSource c₃ s) fun _ c₄ _ hc₄ _ ↦ ?_
    exact (runs_expect c₄ s _).last hc₄ fun _ _ _ _ ↦ trivial
  · exact .call hc₁ (runs_entityName c₁ s) fun _ d _ hcd _ ↦ .pure hcd trivial

theorem runs_importNames (c : Place text) (s : Setting) : Runs c c s (importNames p) Anywhere := by
  have hsource : ∀ d, c ≤ d → Runs c d s (do
      expectWord "from"
      moduleSource
      importAttributes p) Anywhere := fun d hcd ↦
    .expectWord hcd fun d₁ _ hd₁ _ ↦ .call hd₁ (runs_moduleSource d₁ s) fun _ d₂ _ hd₂ _ ↦
      (runs_importAttributes hp d₂ s).last hd₂ fun _ _ _ _ ↦ trivial
  unfold importNames
  refine .eat (le_refl c) (fun d _ hcd _ ↦ .expectWord hcd fun d₁ _ hd₁ _ ↦ ?_) (runs_isPunct.2 ?_)
  · exact .call hd₁ (runs_boundIdentifier d₁ s false) fun _ d₂ _ hd₂ _ ↦ hsource d₂ hd₂
  · exact .when (le_refl c) (fun _ ↦ runs_specifiers c s true) fun d _ hcd ↦ hsource d hcd

theorem runs_importRest (c : Place text) (s : Setting) (named : Bool) :
    Runs c c s (importRest p named) Anywhere := by
  unfold importRest
  rw [runs_isTypescript, runs_isPunct]
  refine .ite (fun _ ↦ runs_importEquals c s) fun _ ↦ runs_isWord.2 ?_
  exact .when (le_refl c) (fun _ ↦ (runs_expect c s _).anywhere) fun d _ hcd ↦
    (runs_importNames hp d s).last hcd fun _ _ _ h ↦ h

theorem runs_importBindings (c : Place text) (s : Setting) :
    Runs c c s (importBindings p) Anywhere := by
  unfold importBindings
  rw [runs_form]
  split
  · refine .ite (fun _ ↦ runs_importRest hp c s false) fun _ ↦ ?_
    exact .call (le_refl c) (runs_boundIdentifier c s false) fun _ d _ hcd _ ↦
      (runs_importRest hp d s true).last hcd fun _ _ _ h ↦ h
  · exact runs_importRest hp c s false

theorem runs_importClause (c : Place text) (s : Setting) :
    Runs c c s (importClause p) Anywhere := by
  unfold importClause
  rw [runs_peek, runs_isWord, runs_isTypescript]
  refine .ite (fun _ ↦ ?_) fun _ ↦ runs_importBindings hp c s
  split
  · exact runs_importBindings hp c s
  · exact runs_importBindings hp c s
  · exact runs_importBindings hp c s
  · exact .spend (le_refl c) fun d _ hcd _ ↦ (runs_importBindings hp d s).last hcd fun _ _ _ h ↦ h

theorem runs_importDecl (hlo : c.Opens lo) (s : Setting) :
    Runs c c s (importDecl p lo) fun n d ↦ d.Has lo n := by
  unfold importDecl
  refine .spend (le_refl c) fun c₁ h₁ _ hpast ↦ runs_form.2 ?_
  have hclose : ∀ d, c₁ ≤ d → Runs c d s (do
      expectSemicolon
      nodeFrom lo (.statement .importDecl) []) fun n e ↦ e.Has lo n := fun d hd ↦
    .expectSemicolon (h₁.trans hd) fun e hde hce ↦
      .node hce ((hlo.passed (hpast.mono (hd.trans hde))).node rfl Place.holdsAll_nil)
  split
  · refine .spend h₁ fun c₂ h₂ hc₂ _ ↦ ?_
    exact .call hc₂ (runs_importAttributes hp c₂ s) fun _ d hd _ _ ↦ hclose d (h₂.trans hd)
  · exact .call h₁ (runs_importClause hp c₁ s) fun _ d hd _ _ ↦ hclose d hd

theorem runs_exportSource (c : Place text) (s : Setting) :
    Runs c c s (exportSource p) Anywhere := by
  have hclose : ∀ d, c ≤ d → Runs c d s expectSemicolon Anywhere := fun d hcd ↦ by
    rw [← bind_pure expectSemicolon]
    exact .expectSemicolon hcd fun _ _ hce ↦ .pure hce trivial
  unfold exportSource
  refine .eatWord (le_refl c) (fun c₁ _ hc₁ _ ↦ ?_) (hclose c (le_refl c))
  refine .call hc₁ (runs_moduleSource c₁ s) fun _ c₂ _ hc₂ _ ↦ ?_
  exact .call hc₂ (runs_importAttributes hp c₂ s) fun _ c₃ _ hc₃ _ ↦ hclose c₃ hc₃

theorem runs_defaultExport (c : Place text) (s : Setting) :
    Runs c c s (defaultExport p) fun n d ↦ d.Has c.lo n := by
  unfold defaultExport
  rw [runs_here, runs_peek]
  refine .call (le_refl c) (runs_decorators hp c s) fun _ c₁ h₁ _ _ ↦ runs_isWord.2 ?_
  have hlo := c.opens_lo.mono h₁
  refine .ite (fun _ ↦ ?_) fun _ ↦ .look looks_startsAsyncFunction h₁ fun _ ↦
    .ite (fun _ ↦ .spend h₁ fun c₂ h₂ hc₂ _ ↦ ?_) fun _ ↦ runs_isWord.2 ?_
  · exact (runs_functionWith hp hlo s false false rfl).last h₁ fun _ _ _ hn ↦ hn.1
  · exact (runs_functionWith hp (hlo.mono h₂) s true false rfl).last hc₂ fun _ _ _ hn ↦ hn.1
  refine .ite (fun _ ↦ ?_) fun _ ↦ runs_isTypescript.2 (runs_isWord.2 ?_)
  · exact (runs_classWith hp hlo s rfl false).last h₁ fun _ _ _ hn ↦ hn.1
  refine .ite (fun _ ↦ .spend h₁ fun c₂ h₂ hc₂ _ ↦ ?_) fun _ ↦
    runs_isTypescript.2 (runs_isWord.2 (.ite (fun _ ↦ ?_) fun _ ↦ ?_))
  · exact (runs_classWith hp (hlo.mono h₂) s rfl false).last hc₂ fun _ _ _ hn ↦ hn.1
  · exact (runs_interface hp hlo s).last h₁ fun _ _ _ hn ↦ hn.1
  · refine .call h₁ (hp .assignment c₁ s) fun n c₂ h₂ hc₂ hn ↦ ?_
    exact .expectSemicolon hc₂ fun c₃ h₃ hc₃ ↦ .pure hc₃ ((hn.of_le h₃).from_le h₁)

omit hp in
theorem looks_startsExported : Looks startsExported := by
  unfold startsExported
  refine .bind looks_form fun _ ↦ ?_
  split
  · exact .pure _
  · exact .pure _
  · exact .bind looks_dialect fun _ ↦ .pure _
  · exact .bind looks_startsVariables fun _ ↦ .bind looks_startsAsyncFunction fun _ ↦
      .bind looks_typeDecl? fun _ ↦ .pure _

theorem runs_exportNames (hlo : c.Passed lo) (s : Setting) :
    Runs c c s (exportNames p lo) fun n d ↦ d.Has lo n := by
  have hclose : ∀ d, c ≤ d → Runs c d s (do
      exportSource p
      nodeFrom lo (.statement .exportDecl) []) fun n e ↦ e.Has lo n := fun d hcd ↦
    .call hcd (runs_exportSource hp d s) fun _ e _ hce _ ↦
      .node hce ((hlo.mono hce).node rfl Place.holdsAll_nil)
  unfold exportNames
  refine .eat (le_refl c) (fun c₁ _ hc₁ _ ↦ runs_isWord.2 (.ite (fun _ ↦ ?_) fun _ ↦ ?_)) ?_
  · refine .expectWord hc₁ fun c₂ _ hc₂ _ ↦ .call hc₂ (runs_moduleWord c₂ s) fun _ c₃ _ hc₃ _ ↦ ?_
    exact runs_isWord.2 (.guard (fun _ ↦ .failHere hc₃) fun _ ↦ hclose c₃ hc₃)
  · exact hclose c₁ hc₁
  refine .look looks_startsExported (le_refl c) fun _ ↦ .ite (fun _ ↦ ?_) fun _ ↦ ?_
  · refine .call (le_refl c) (runs_statementPart hp c s) fun n d _ hcd hn ↦ .node hcd ?_
    exact (hlo.mono hcd).node rfl (Place.holdsAll_one hn)
  · exact .call (le_refl c) (runs_specifiers c s false) fun _ d _ hcd _ ↦ hclose d hcd

theorem runs_exportDecl (hlo : c.Opens lo) (s : Setting) :
    Runs c c s (exportDecl p lo) fun n d ↦ d.Has lo n := by
  unfold exportDecl
  refine .spend (le_refl c) fun c₁ h₁ _ hpast ↦ runs_isEnd.2 ?_
  have hpassed := hlo.passed hpast
  have hnode : ∀ (ns : List Node) (d : Place text), c₁ ≤ d → d.HoldsAll ns →
      Runs c d s (nodeFrom lo (.statement .exportDecl) ns) fun n e ↦ e.Has lo n :=
    fun ns d hd hns ↦ .node (h₁.trans hd) ((hpassed.mono hd).node rfl hns)
  refine .guard (fun _ ↦ .failAtEnd h₁) fun _ ↦ runs_peek.2 (runs_isTypescript.2 ?_)
  refine .eatWord h₁ (fun c₂ h₂ hc₂ _ ↦ ?_) ?_
  · refine .call hc₂ (runs_defaultExport hp c₂ s) fun n d hd _ hn ↦ ?_
    exact hnode [n] d (h₂.trans hd) (Place.holdsAll_one hn.holds)
  refine .eatAny h₁ fun b c₂ h₂ hc₂ ↦ .ite (fun _ ↦ ?_) fun _ ↦ runs_isWord.2 ?_
  · refine .call hc₂ (runs_expressionPart hp c₂ s) fun n c₃ h₃ hc₃ hn ↦ ?_
    exact .expectSemicolon hc₃ fun d hd _ ↦
      hnode [n] d (h₂.trans (h₃.trans hd)) (Place.holdsAll_one (hn.of_le hd))
  refine .ite (fun _ ↦ ?_) fun _ ↦ runs_isWord.2 (.ite (fun _ ↦ ?_) fun _ ↦ runs_isWord.2 ?_)
  · refine .spend hc₂ fun c₃ h₃ hc₃ _ ↦ .spend hc₃ fun c₄ h₄ hc₄ _ ↦ ?_
    refine .call hc₄ (runs_identifier c₄ s) fun _ c₅ h₅ hc₅ _ ↦ .expectSemicolon hc₅ fun d hd _ ↦ ?_
    exact hnode [] d (h₂.trans (h₃.trans (h₄.trans (h₅.trans hd)))) Place.holdsAll_nil
  · refine .call hc₂ (runs_importDecl hp (hlo.mono hc₂) s) fun n d hd _ hn ↦ ?_
    exact hnode [n] d (h₂.trans hd) (Place.holdsAll_one hn.holds)
  · exact .when hc₂ (fun _ ↦ (runs_bump c₂ s).anywhere) fun d hd hcd ↦
      (runs_exportNames hp (hpassed.mono (h₂.trans hd)) s).last hcd fun _ _ _ hn ↦ hn

theorem runs_item (c : Place text) (s : Setting) :
    Runs c c s (item p) fun n d ↦ d.Has c.lo n := by
  unfold item
  rw [runs_here, runs_peek, runs_isPunct, runs_dialect]
  refine .ite (fun _ ↦ ?_) fun _ ↦ runs_isWord.2 (.ite (fun _ ↦ ?_) fun _ ↦ runs_isWord.2 ?_)
  · refine .call (le_refl c) (runs_decorators hp c s) fun _ c₁ h₁ _ _ ↦ runs_isWord.2 ?_
    refine .ite (fun _ ↦ ?_) fun _ ↦ .eatWordAny h₁ fun _ c₂ h₂ hc₂ ↦ ?_
    · exact (runs_exportDecl hp (c.opens_lo.mono h₁) s).last h₁ fun _ _ _ hn ↦ hn
    · exact (runs_classStatement hp (c.opens_lo.mono hc₂) s).last hc₂ fun _ _ _ hn ↦ hn.1
  · exact runs_importDecl hp c.opens_lo s
  · refine .ite (fun _ ↦ runs_exportDecl hp c.opens_lo s) fun _ ↦ ?_
    exact (hp .statement c s).mono fun _ _ _ hn ↦ hn.1

/-! ## The whole grammar -/

/-- One more level of nesting. -/
theorem Sound.step : Sound text (step p) := by
  intro goal c s
  cases goal with
  | expression => exact runs_expression hp c s
  | assignment => exact runs_assignment hp c s
  | unary => exact runs_unary hp c s
  | climb left floor =>
    exact (runs_climb hp c s left floor).mono fun _ _ _ hn ↦ ⟨hn.has, hn.trails⟩
  | access => exact runs_access hp c s
  | callee => exact runs_callee hp c s
  | markup => exact runs_markup hp c s
  | binding => exact runs_binding hp c s
  | type => exact (runs_type hp c s).mono fun _ _ _ hn ↦ ⟨hn.has, hn.isType⟩
  | statement => exact runs_statement hp c s
  | body => exact runs_bodyStatement hp c s
  | item => exact runs_item hp c s
  | block => exact runs_blockStatement hp c s

end

theorem sound_run (text : List Char) (depth : Nat) : Sound text (run depth) := by
  induction depth with
  | zero => exact fun _ c _ ↦ .failAtEnd (le_refl c)
  | succ depth ih => exact ih.step

theorem Cursor.exists_start (typescript : Bool) (text : List Char) :
    ∃ c : Place text, c.cursor = Cursor.start typescript text := by
  unfold Cursor.start
  dsimp only
  split
  · rename_i rest
    rw [List.span_eq_takeWhile_dropWhile]
    have hat : At ('#' :: '!' :: rest) (0 + Text.size (List.takeWhile (!Token.isLineEnd ·)
        ('#' :: '!' :: rest))) (List.dropWhile (!Token.isLineEnd ·) ('#' :: '!' :: rest)) :=
      At.append ⟨[], List.takeWhile_append_dropWhile.symm, rfl⟩
    rw [Nat.zero_add] at hat
    exact ⟨⟨_, Cursor.standsIn_goto hat (by simp) Comment.inOrder_nil rfl⟩, rfl⟩
  · exact ⟨⟨_, Cursor.standsIn_goto ⟨[], rfl, rfl⟩ (by simp) Comment.inOrder_nil rfl⟩, rfl⟩

/-- At the end of the text the token stands where the last one ended. -/
theorem Place.lo_eq_of_end (c : Place text) (h : c.cursor.token.form = .endOfText) :
    c.lo = c.prevEnd := by
  obtain ⟨e, he⟩ | ⟨-, hlo⟩ | ⟨hne, -⟩ := c.standsIn.form
  · rw [h] at he
    cases he
  · exact hlo
  · exact absurd h hne

/-- A program is read to the end of the text. -/
theorem runs_program (hp : Sound text p) (c : Place text) (s : Setting) :
    Runs c c s (program p) fun n d ↦ d.cursor.token.form = .endOfText ∧ d.Holds n := by
  unfold program
  rw [runs_here]
  refine .call (le_refl c) (Q := fun ns d ↦ d.cursor.token.form = .endOfText ∧ d.HoldsAll ns)
    (runs_iterate (fun ns d ↦ d.HoldsAll ns) Place.holdsAll_nil fun ns d _ hns ↦ ?_)
    fun ns d _ hcd ⟨hform, hns⟩ ↦ .node hcd ?_
  · refine runs_isEnd.2 (.ite (fun hend ↦ ?_) fun _ ↦ ?_)
    · exact .pure (le_refl d) ⟨by simpa using hend, hns⟩
    · exact .call (le_refl d) (runs_itemPart hp d s) fun n e hde _ hn ↦
        .pure hde (hns.append hde hn)
  · have hle : c.lo ≤ d.prevEnd := by
      rw [← d.lo_eq_of_end hform]
      exact Place.lo_le hcd
    have hpassed : d.Passed c.lo := c.opens_lo.passed ⟨hcd, hle⟩
    exact ⟨hform, (hpassed.node rfl hns).holds⟩

/-- Where the reading of a text ended, and what was read. -/
theorem exists_place_parse (dialect : Dialect) (text : List Char) :
    ∃ d : Place text, (parse dialect text).comments = d.cursor.listed ∧
      ∀ n, (parse dialect text).program? = some n →
        (parse dialect text).errors = d.errors ∧ d.cursor.token.form = .endOfText ∧
          d.Holds n := by
  obtain ⟨c, hc⟩ := Cursor.exists_start dialect.typescript text
  have hruns : Ends c (fun n d ↦ d.cursor.token.form = .endOfText ∧ d.Holds n)
      (ReaderT.run (program (run (depthPerChar * (text.length + 2))))
        { dialect, budget := text.length + 2, size := Text.size text } c.cursor) :=
    runs_program (sound_run text (depthPerChar * (text.length + 2))) c _
  unfold parse
  rw [← hc]
  dsimp only
  split
  · rename_i n c' heq
    rw [heq] at hruns
    obtain ⟨d, rfl, -, hd⟩ := hruns
    exact ⟨d, rfl, fun m hm ↦ ⟨rfl, Option.some.inj hm ▸ hd⟩⟩
  · rename_i e c' heq
    rw [heq] at hruns
    obtain ⟨d, rfl, -⟩ := hruns
    exact ⟨d, rfl, by simp⟩

/-- All nodes of a program without a missing operand sit in its text, seen from its end, where all
comments were met. -/
theorem exists_seats_of_parse {dialect : Dialect} {n : Node}
    (h : (parse dialect text).program? = some n) (hwhole : n.Whole) :
    ∃ d : Place text, (parse dialect text).comments = d.comments ∧
      ∀ m ∈ n.preorder, d.Seats (Text.size text) m := by
  obtain ⟨d, hcomments, hd⟩ := exists_place_parse dialect text
  obtain ⟨-, hform, hholds⟩ := hd n h
  have hfree : d.stuck = false := d.free_of_form (by simp [hform])
  refine ⟨d, hcomments.trans (d.standsIn.listed_eq hform), fun m hm ↦ ?_⟩
  exact (hholds.lies hfree hwhole m hm).mono (le_refl d) d.standsIn.prevEnd.le_size

theorem sits_of_parse {dialect : Dialect} {n : Node} (h : (parse dialect text).program? = some n)
    (hwhole : n.Whole) : ∀ m ∈ n.preorder, m.Sits text (Text.size text) := by
  obtain ⟨d, -, hseats⟩ := exists_seats_of_parse h hwhole
  exact fun m hm ↦ (hseats m hm).sits

/-- A program that was read without errors is admissible. -/
theorem admissible_of_parse {dialect : Dialect} {n : Node}
    (h : (parse dialect text).program? = some n) (herrors : (parse dialect text).errors = []) :
    n.Admissible := by
  obtain ⟨d, -, hd⟩ := exists_place_parse dialect text
  obtain ⟨heq, -, hholds⟩ := hd n h
  exact hholds.admits (heq ▸ herrors)

theorem sitsIn_of_parse {dialect : Dialect} {m : Comment} (h : m ∈ (parse dialect text).comments) :
    m.SitsIn text := by
  obtain ⟨d, hd, -⟩ := exists_place_parse dialect text
  rw [hd] at h
  exact d.standsIn.comments m (List.mem_append_right _ h)

end OptionalChain.Grammar
