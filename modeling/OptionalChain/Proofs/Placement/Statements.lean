import OptionalChain.Proofs.Placement.Expressions

/-!
# Statements

A statement ends with its semicolon, so each one is a node that is closed where the last token
ended, around the parts that were read on the way.
-/

namespace OptionalChain.Grammar

open Text (At Boundary)

variable {text : List Char} {w c d e : Place text} {s : Setting} {lo : Nat} {p : Parts}

/-- A statement that was read from `lo` on. -/
def Stated (lo : Nat) (n : Node) (d : Place text) : Prop :=
  d.Has lo n ∧ n.kind.isPlain = true

theorem Stated.of_le {n : Node} (h : Stated lo n d) (hde : d ≤ e) : Stated lo n e :=
  ⟨h.1.of_le hde, h.2⟩

theorem Place.Passed.stated {kind : Kind} {cs : List Node} (h : c.Passed lo)
    (hkind : kind.isCommon = true) (hparts : c.HoldsAll cs) :
    Stated lo (.mk kind ⟨lo, c.prevEnd⟩ cs) c :=
  ⟨h.node hkind hparts, Kind.isPlain_of_isCommon hkind⟩

theorem Runs.stated {kind : Kind} {cs : List Node} (hkind : kind.isCommon = true) (hw : w ≤ c)
    (hlo : c.Passed lo) (hparts : c.HoldsAll cs) :
    Runs w c s (nodeFrom lo kind cs) (Stated lo) :=
  .node hw (hlo.stated hkind hparts)

section

variable (hp : Sound text p)
include hp

/-! ## Blocks -/

omit hp in
theorem runs_itemsToBrace {goal : Goal}
    (hgoal : ∀ d, c ≤ d → ∀ s, Runs d d s (p goal) fun n e ↦ e.Holds n) (s : Setting) :
    Runs c c s (itemsToBrace p goal) fun ns d ↦ d.HoldsAll ns := by
  unfold itemsToBrace
  refine runs_iterate (fun ns d ↦ d.HoldsAll ns) Place.holdsAll_nil fun ns d hcd hns ↦ ?_
  refine .eat (le_refl d) (fun e hde _ _ ↦ .pure (s := s) hde (hns.of_le hde)) (runs_token.2 ?_)
  refine .ite (fun _ ↦ runs_get.2 (.emit (le_refl d) fun e hde _ ↦ .pure hde (hns.of_le hde)))
    fun _ ↦ ?_
  exact .call (le_refl d) (hgoal d hcd s) fun n e hde _ hn ↦ .pure hde (hns.append hde hn)

theorem runs_statementPart (c : Place text) (s : Setting) :
    Runs c c s (p .statement) fun n d ↦ d.Holds n :=
  (hp .statement c s).mono fun _ _ _ hn ↦ hn.1.holds

theorem runs_bodyPart (c : Place text) (s : Setting) :
    Runs c c s (p .body) fun n d ↦ d.Holds n :=
  (hp .body c s).mono fun _ _ _ hn ↦ hn.holds

theorem runs_expressionPart (c : Place text) (s : Setting) :
    Runs c c s (p .expression) fun n d ↦ d.Holds n :=
  (hp .expression c s).mono fun _ _ _ hn ↦ hn.holds

theorem runs_blockPart (c : Place text) (s : Setting) :
    Runs c c s (p .block) fun n d ↦ d.Holds n :=
  (runs_block hp c s).mono fun _ _ _ hn ↦ hn.holds

theorem runs_blockStatement (c : Place text) (s : Setting) :
    Runs c c s (block p) (Stated c.lo) := by
  unfold block
  rw [runs_here]
  refine .expect (le_refl c) fun c₁ _ hc₁ hpast ↦ .call hc₁ (runs_within.2 (runs_itemsToBrace
    (fun d _ ↦ runs_statementPart hp d) _)) fun ns d hd hcd hns ↦ ?_
  exact .stated rfl hcd (c.opens_lo.passed (hpast.mono hd)) hns

theorem runs_condition (c : Place text) (s : Setting) :
    Runs c c s (condition p) fun n d ↦ c.Past d ∧ d.Holds n := by
  unfold condition
  refine .expect (le_refl c) fun c₁ h₁ hc₁ hpast ↦ ?_
  refine .call hc₁ (runs_within.2 (runs_expressionPart hp c₁ _)) fun n c₂ h₂ hc₂ hn ↦ ?_
  exact .expect hc₂ fun c₃ h₃ hc₃ _ ↦ .pure hc₃ ⟨hpast.mono (h₂.trans h₃), hn.of_le h₃⟩

/-! ## Variables -/

omit hp in
theorem runs_verify {Q : Node → Place text → Prop} {n : Node} (hQ : Lasting Q) (hn : Q n c)
    (s : Setting) : Runs c c s (verify n) Q := by
  unfold verify
  refine .call (le_refl c) (runs_forM (le_refl c) fun span _ d _ ↦ runs_emit d s span _)
    fun _ d hcd _ _ ↦ .pure hcd (hQ n c d hcd hn)

omit hp in
theorem runs_eatDefinite (c : Place text) (s : Setting) (pattern : Node) :
    Runs c c s (eatDefinite pattern) Anywhere := by
  unfold eatDefinite
  rw [runs_isTypescript]
  split
  · exact .eatAny (le_refl c) fun _ d _ hcd ↦ .pure hcd trivial
  · exact .pure (le_refl c) trivial

omit hp in
theorem looks_startsEach : Looks startsEach := by
  unfold startsEach
  exact .bind (looks_isWord _) fun _ ↦ .bind (looks_isWord _) fun _ ↦ .pure _

omit hp in
theorem runs_checkNoValue (c : Place text) (s : Setting) (binder : Binder) (inHead : Bool)
    (bare : Node) (span : Span) : Runs c c s (checkNoValue binder inHead bare span) Anywhere := by
  unfold checkNoValue
  rw [runs_read]
  split
  · exact .pure (le_refl c) trivial
  split
  · exact runs_emit c s _ _
  split
  · exact .failAt (le_refl c)
  · exact .pure (le_refl c) trivial

theorem runs_declarator (c : Place text) (s : Setting) (binder : Binder) (inHead : Bool) :
    Runs c c s (declarator p binder inHead) fun n d ↦ d.Holds n := by
  unfold declarator
  rw [runs_here]
  refine .call (le_refl c) (runs_barePattern hp c s _) fun bare c₁ h₁ _ ⟨hbare, hform⟩ ↦ ?_
  refine .call h₁ (runs_eatDefinite c₁ s bare) fun _ c₂ h₂ hc₂ _ ↦ runs_isTypescript.2 ?_
  refine .choose hc₂ (Q := fun n d ↦ d.Holds n ∧ n.isStep = false)
    (fun _ ↦ runs_annotationType? hp c₂ s) (fun _ ↦ .pure (le_refl c₂) ⟨Place.holds_absent, rfl⟩)
    fun type c₃ h₃ hc₃ ⟨htype, hstep⟩ ↦ runs_spanFrom.2 ?_
  have hpattern : c₃.Has c.lo (annotated bare false type) :=
    (has_annotated (hbare.of_le (h₂.trans h₃)) hform htype hstep).1
  have hclose : ∀ (value : Node) (d : Place text), c₃ ≤ d → d.Holds value → Runs c d s
      (nodeFrom c.lo (.statement .declarator) [annotated bare false type, value])
      fun n e ↦ e.Holds n := fun value d hd hvalue ↦ by
    have hpattern := hpattern.of_le hd
    have hcd := hc₃.trans hd
    exact .node hcd (hpattern.node List.mem_cons_self (c.opens_lo.mono hcd) rfl
      (.cons hpattern.holds (Place.holdsAll_one hvalue))).holds
  refine .look looks_startsEach hc₃ fun _ ↦ ?_
  split
  · exact hclose _ c₃ (le_refl c₃) Place.holds_absent
  refine .eat hc₃ (fun c₄ h₄ hc₄ _ ↦ ?_) ?_
  · refine .call hc₄ (runs_valuePart hp c₄ s) fun value c₅ h₅ hc₅ hvalue ↦ ?_
    refine .call hc₅ (runs_verify (Q := fun n d ↦ d.Holds n) (fun _ _ _ hle hn ↦ hn.of_le hle)
      hvalue s) fun value c₆ h₆ hc₆ hvalue ↦ ?_
    exact hclose value c₆ (h₄.trans (h₅.trans h₆)) hvalue
  · refine .call hc₃ (runs_checkNoValue c₃ s _ _ _ _) fun _ c₄ h₄ _ _ ↦ ?_
    exact hclose _ c₄ h₄ Place.holds_absent

theorem runs_declarators (c : Place text) (s : Setting) (binder : Binder) (inHead : Bool)
    (word : Span) :
    Runs c c s (declarators p binder inHead word) fun ns d ↦ d.HoldsAll ns := by
  unfold declarators
  refine runs_iterate (fun ns d ↦ d.HoldsAll ns) Place.holdsAll_nil fun ns d _ hns ↦ ?_
  rw [runs_isPunct, runs_isEnd]
  refine .ite (fun _ ↦ runs_get.2 (.emit (le_refl d) fun e hde _ ↦ .pure hde (hns.of_le hde)))
    fun _ ↦ ?_
  refine .call (le_refl d) (runs_declarator hp d s binder inHead) fun n e hde _ hn ↦ ?_
  have hall := hns.append hde hn
  refine .eat hde (fun e₁ h₁ he₁ _ ↦ .pure (s := s) he₁ ?_) (.pure (s := s) hde hall)
  exact hall.of_le h₁

theorem runs_endDeclaration (c : Place text) (s : Setting) :
    Runs c c s (endDeclaration p) Anywhere := by
  unfold endDeclaration
  refine .eatSemicolon (le_refl c) fun ended d _ hcd ↦ ?_
  cases ended with
  | true => exact .pure hcd trivial
  | false =>
    refine runs_token.2 (.emit hcd fun c₁ _ hc₁ ↦ ?_)
    refine .call hc₁ (Q := Anywhere) (.tryCatch ?_ fun _ e he ↦ .pure he trivial)
      fun _ c₂ _ hc₂ _ ↦ ?_
    · rw [map_eq_pure_bind]
      exact .call (le_refl c₁) (hp .expression c₁ s) fun _ e he _ _ ↦ .pure he trivial
    refine (runs_iterate (Q := Anywhere) Anywhere trivial fun _ e _ _ ↦ ?_).last hc₂
      fun _ _ _ _ ↦ trivial
    refine .eatSemicolon (le_refl e) fun done e₁ _ he₁ ↦ ?_
    cases done with
    | true => exact .pure he₁ trivial
    | false =>
      refine .spend he₁ fun e₂ _ he₂ _ ↦ runs_form.2 ?_
      split <;> exact .pure he₂ trivial

omit hp in
theorem runs_binder (c : Place text) (s : Setting) : Runs c c s binder fun _ d ↦ c.Past d := by
  unfold binder
  rw [runs_token]
  refine .spend (le_refl c) fun d _ hcd hpast ↦ ?_
  split <;> exact .pure hcd hpast

theorem runs_bindingList (hlo : c.Opens lo) (s : Setting) :
    Runs c c s (bindingList p lo) (Stated lo) := by
  unfold bindingList
  rw [runs_token]
  refine .call (le_refl c) (runs_binder c s) fun b c₁ h₁ _ hpast ↦ ?_
  refine .call h₁ (runs_declarators hp c₁ s b false _) fun ns c₂ h₂ hc₂ hns ↦ ?_
  refine .call hc₂ (runs_endDeclaration hp c₂ s) fun _ c₃ h₃ hc₃ _ ↦ ?_
  exact .stated rfl hc₃ (hlo.passed (hpast.mono (h₂.trans h₃))) (hns.of_le h₃)

theorem runs_headVariables (c : Place text) (s : Setting) :
    Runs c c s (headVariables p c.lo) fun n d ↦ d.Holds n ∧ n.core.inChain = false := by
  unfold headVariables
  rw [runs_token]
  refine .call (le_refl c) (runs_binder c s) fun b c₁ h₁ _ hpast ↦ ?_
  refine .call h₁ (runs_within.2 (runs_declarators hp c₁ _ b true _)) fun ns c₂ h₂ hc₂ hns ↦ ?_
  exact .node hc₂ ⟨((c.opens_lo.passed (hpast.mono h₂)).node rfl hns).holds, rfl⟩

omit hp in
theorem looks_startsVariables : Looks startsVariables := by
  unfold startsVariables
  refine .bind looks_form fun _ ↦ .bind looks_peek fun _ ↦ ?_
  split
  · exact .pure _
  · exact .bind looks_isTypescript fun _ ↦ .pure _
  all_goals exact .pure _

omit hp in
theorem looks_startsResources : Looks startsResources := by
  unfold startsResources
  refine .bind looks_peek fun _ ↦ .bind looks_form fun _ ↦ ?_
  split
  · exact .bind looks_isTypescript fun _ ↦ .pure _
  · exact .pure _

theorem runs_resources (hlo : c.Opens lo) (s : Setting) :
    Runs c c s (resources p lo) (Stated lo) := by
  unfold resources
  rw [runs_token]
  refine .spend (le_refl c) fun c₁ h₁ _ hpast ↦ ?_
  refine .call h₁ (runs_declarators hp c₁ s _ false _) fun ns c₂ h₂ hc₂ hns ↦ ?_
  refine .call hc₂ (runs_endDeclaration hp c₂ s) fun _ c₃ h₃ hc₃ _ ↦ ?_
  exact .stated rfl hc₃ (hlo.passed (hpast.mono (h₂.trans h₃))) (hns.of_le h₃)

/-! ## Control flow -/

theorem runs_choice (c : Place text) (s : Setting) : Runs c c s (choice p c.lo) (Stated c.lo) := by
  unfold choice
  refine .spend (le_refl c) fun c₁ h₁ _ hpast ↦ ?_
  refine .call h₁ (runs_condition hp c₁ s) fun test c₂ h₂ hc₂ ⟨_, htest⟩ ↦ ?_
  refine .call hc₂ (runs_bodyPart hp c₂ s) fun yes c₃ h₃ hc₃ hyes ↦ ?_
  refine .eatWordThen hc₃ (Q := fun n d ↦ d.Holds n) (fun d _ _ ↦ runs_bodyPart hp d s)
    (runs_noPart c₃ s) fun no c₄ h₄ hc₄ hno ↦ ?_
  exact .stated rfl hc₄ (c.opens_lo.passed (hpast.mono (h₂.trans (h₃.trans h₄))))
    (.cons (htest.of_le (h₃.trans h₄)) (.cons (hyes.of_le h₄) (Place.holdsAll_one hno)))

theorem runs_loopBody (c : Place text) (s : Setting) :
    Runs c c s (loopBody p) fun n d ↦ d.Holds n :=
  runs_within.2 (runs_bodyPart hp c _)

theorem runs_whileLoop (c : Place text) (s : Setting) :
    Runs c c s (whileLoop p c.lo) (Stated c.lo) := by
  unfold whileLoop
  refine .spend (le_refl c) fun c₁ h₁ _ hpast ↦ ?_
  refine .call h₁ (runs_condition hp c₁ s) fun test c₂ h₂ hc₂ ⟨_, htest⟩ ↦ ?_
  refine .call hc₂ (runs_loopBody hp c₂ s) fun body c₃ h₃ hc₃ hbody ↦ ?_
  exact .stated rfl hc₃ (c.opens_lo.passed (hpast.mono (h₂.trans h₃)))
    (.cons (htest.of_le h₃) (Place.holdsAll_one hbody))

theorem runs_doLoop (c : Place text) (s : Setting) : Runs c c s (doLoop p c.lo) (Stated c.lo) := by
  unfold doLoop
  refine .spend (le_refl c) fun c₁ h₁ _ hpast ↦ ?_
  refine .call h₁ (runs_loopBody hp c₁ s) fun body c₂ h₂ hc₂ hbody ↦ ?_
  refine .expectWord hc₂ fun c₃ h₃ hc₃ _ ↦ ?_
  refine .call hc₃ (runs_condition hp c₃ s) fun test c₄ h₄ hc₄ ⟨_, htest⟩ ↦ ?_
  refine .eatAny hc₄ fun _ c₅ h₅ hc₅ ↦ ?_
  have hlate := h₃.trans (h₄.trans h₅)
  exact .stated rfl hc₅ (c.opens_lo.passed (hpast.mono (h₂.trans hlate)))
    (.cons (htest.of_le h₅) (Place.holdsAll_one (hbody.of_le hlate)))

theorem runs_optionalUntil (c : Place text) (s : Setting) (close : Punct) :
    Runs c c s (optionalUntil p close) fun n d ↦ d.Holds n := by
  unfold optionalUntil
  rw [runs_isPunct]
  split
  · exact .pure (le_refl c) Place.holds_absent
  · exact runs_expressionPart hp c s

theorem runs_forRest {start : Node} (hlo : c.Passed lo) (hstart : c.Holds start) (s : Setting) :
    Runs c c s (forRest p lo start) (Stated lo) := by
  unfold forRest
  refine .call (le_refl c) (runs_optionalUntil hp c s _) fun test c₁ h₁ _ htest ↦ ?_
  refine .expect h₁ fun c₂ h₂ hc₂ _ ↦ ?_
  refine .call hc₂ (runs_optionalUntil hp c₂ s _) fun update c₃ h₃ hc₃ hupdate ↦ ?_
  refine .expect hc₃ fun c₄ h₄ hc₄ _ ↦ ?_
  refine .call hc₄ (runs_loopBody hp c₄ s) fun body c₅ h₅ hc₅ hbody ↦ ?_
  exact .stated rfl hc₅ (hlo.mono hc₅) (.cons (hstart.of_le hc₅)
    (.cons (htest.of_le (h₂.trans (h₃.trans (h₄.trans h₅))))
      (.cons (hupdate.of_le (h₄.trans h₅)) (Place.holdsAll_one hbody))))

theorem runs_eachRest {target : Node} (hlo : c.Passed lo) (htarget : c.Holds target)
    (hspares : Spares target c) (s : Setting) : Runs c c s (eachRest p lo target) (Stated lo) := by
  have hclose : ∀ (form : StatementForm) (subject : Node) (d : Place text),
      form = .forInLoop ∨ form = .forOfLoop → c ≤ d → d.Holds subject → Runs c d s (do
        expect .rparen
        let body ← loopBody p
        nodeFrom lo (.statement form) [target, subject, body]) (Stated lo) := by
    intro form subject d hform hcd hsubject
    refine .expect hcd fun c₁ h₁ hc₁ _ ↦ ?_
    refine .call hc₁ (runs_loopBody hp c₁ s) fun body c₂ h₂ hc₂ hbody ↦ ?_
    have hplain : (Kind.statement form).isPlain = true := by obtain rfl | rfl := hform <;> rfl
    have hclears : c₂.Clears
        (.mk (.statement form) ⟨lo, c₂.prevEnd⟩ [target, subject, body]) := by
      obtain rfl | rfl := hform <;>
        exact Place.clears_of_core rfl fun herrors ↦ hspares (Place.errors_of_le hc₂ herrors)
    exact .node hc₂ ⟨(hlo.mono hc₂).shaped (Node.shape_of_isPlain hplain)
      (Node.stepBase?_eq_none hplain) hclears (.cons (htarget.of_le hc₂)
        (.cons (hsubject.of_le (h₁.trans h₂)) (Place.holdsAll_one hbody))), hplain⟩
  unfold eachRest
  refine .eatWord (le_refl c) (fun c₁ h₁ hc₁ _ ↦ ?_) (.expectWord (le_refl c) fun c₁ h₁ hc₁ _ ↦ ?_)
  · exact .call hc₁ (runs_valuePart hp c₁ s) fun subject d _ hcd hsubject ↦
      hclose _ subject d (.inr rfl) hcd hsubject
  · exact .call hc₁ (runs_expressionPart hp c₁ s) fun subject d _ hcd hsubject ↦
      hclose _ subject d (.inl rfl) hcd hsubject

omit hp in
theorem runs_checkHead (c : Place text) (s : Setting) (start : Node) :
    Runs c c s (checkHead start) Anywhere := by
  unfold checkHead
  split
  · split
    · refine .when (le_refl c) (fun _ ↦ runs_emit c s _ _) fun d _ hcd ↦ runs_isTypescript.2 ?_
      split
      · exact (runs_emit d s _ _).last hcd fun _ _ _ _ ↦ trivial
      · exact .pure hcd trivial
    · exact .pure (le_refl c) trivial
  · exact .pure (le_refl c) trivial
  · exact runs_forM (le_refl c) fun n _ d _ ↦ runs_emit d s _ _

omit hp in
theorem runs_eachTarget {start : Node} (hstart : c.Has lo start) (s : Setting) :
    Runs c c s (eachTarget start) fun n d ↦ d.Has lo n ∧ Spares n d := by
  unfold eachTarget
  refine .call (le_refl c) (runs_assignmentTarget hstart s) fun target d hcd _ htarget ↦ ?_
  rw [runs_isTypescript, runs_isWord]
  have hemit : Runs c d s (do
      emit target.span .loopPattern
      return target) fun n e ↦ e.Has lo n ∧ Spares n e :=
    .emit hcd fun e hde hce ↦ .pure hce ⟨htarget.1.of_le hde, fun herrors ↦
      htarget.2 (Place.errors_of_le hde herrors)⟩
  split
  · split
    · exact hemit
    · exact hemit
    · exact .pure hcd htarget
  · exact .pure hcd htarget

omit hp in
theorem runs_namedResource (hlo : c.Opens lo) (s : Setting) :
    Runs c c s (namedResource lo) fun n d ↦ d.Holds n ∧ n.core.inChain = false := by
  unfold namedResource
  refine .call (le_refl c) (runs_boundIdentifier c s false) fun x d _ hcd hx ↦
    runs_nodeFrom.2 (.node hcd ⟨?_, rfl⟩)
  have hname : d.Has c.lo (.mk (.pattern (.name x.1 false)) x.2 [.absent]) :=
    hx.has (.inr (.inr ⟨false, rfl⟩)) (Place.holdsAll_one Place.holds_absent)
  have hpassed := hlo.passed hx.past
  have hdecl : d.Has lo (.mk (.statement .declarator) ⟨lo, d.prevEnd⟩ _) :=
    hpassed.node rfl (.cons hname.holds (Place.holdsAll_one Place.holds_absent))
  exact (hpassed.node rfl (Place.holdsAll_one hdecl.holds)).holds

omit hp in
theorem runs_headResource? (hlo : c.Opens lo) (s : Setting) (start : Node) :
    Runs c c s (headResource? lo start)
      fun n? d ↦ ∀ n, n? = some n → d.Holds n ∧ n.core.inChain = false := by
  have hname (found : Bool) : Runs c c s (do
      if found then return some (← namedResource lo) else return none)
      fun n? d ↦ ∀ n, n? = some n → d.Holds n ∧ n.core.inChain = false := by
    cases found with
    | false => exact .pure (le_refl c) (by simp)
    | true =>
      exact .call (le_refl c) (runs_namedResource hlo s) fun n d _ hcd hn ↦
        .pure hcd fun m hm ↦ Option.some.inj hm ▸ hn
  unfold headResource?
  rw [runs_peek, runs_form]
  split
  · exact hname _
  · exact hname _
  · exact .pure (le_refl c) (by simp)

theorem runs_forHead (hlo : c.Passed lo) (s : Setting) :
    Runs c c s (forHead p lo) (Stated lo) := by
  unfold forHead
  rw [runs_here]
  refine .look looks_startsVariables (le_refl c) fun _ ↦ ?_
  split
  · refine .call (le_refl c) (runs_headVariables hp c s) fun start c₁ h₁ _ ⟨hstart, hchain⟩ ↦ ?_
    refine .look looks_startsEach h₁ fun _ ↦ ?_
    split
    · refine .call h₁ (runs_checkHead c₁ s start) fun _ c₂ h₂ hc₂ _ ↦ ?_
      exact (runs_eachRest hp (hlo.mono hc₂) (hstart.of_le h₂) (fun _ ↦ hchain) s).last hc₂
        fun _ _ _ hn ↦ hn
    · refine .expect h₁ fun c₂ h₂ hc₂ _ ↦ ?_
      exact (runs_forRest hp (hlo.mono hc₂) (hstart.of_le h₂) s).last hc₂ fun _ _ _ hn ↦ hn
  refine .eat (le_refl c) (fun c₁ h₁ _ _ ↦ ?_) ?_
  · exact (runs_forRest hp (hlo.mono h₁) Place.holds_absent s).last h₁ fun _ _ _ hn ↦ hn
  refine .call (le_refl c) (runs_within.2 (hp .expression c _)) fun start c₁ h₁ hc₁ hstart ↦ ?_
  refine .call h₁ (runs_headResource? (c.opens_lo.mono h₁) s start) fun n? c₂ h₂ hc₂ hn ↦ ?_
  have hstart : c₂.Has c.lo start := hstart.of_le h₂
  cases n? with
  | some n =>
    obtain ⟨hn, hchain⟩ := hn n rfl
    exact (runs_eachRest hp (hlo.mono hc₂) hn (fun _ ↦ hchain) s).last hc₂ fun _ _ _ hn ↦ hn
  | none =>
    refine .look looks_startsEach hc₂ fun _ ↦ ?_
    split
    · refine .call hc₂ (runs_eachTarget hstart s) fun target c₃ _ hc₃ htarget ↦ ?_
      exact (runs_eachRest hp (hlo.mono hc₃) htarget.1.holds htarget.2 s).last hc₃
        fun _ _ _ hn ↦ hn
    · refine .expect hc₂ fun c₃ h₃ hc₃ _ ↦ ?_
      refine .call hc₃ (runs_verify (Q := fun n d ↦ d.Holds n) (fun _ _ _ hle hn ↦ hn.of_le hle)
        (hstart.part h₃) s) fun start c₄ _ hc₄ hstart ↦ ?_
      exact (runs_forRest hp (hlo.mono hc₄) hstart s).last hc₄ fun _ _ _ hn ↦ hn

theorem runs_forLoop (c : Place text) (s : Setting) :
    Runs c c s (forLoop p c.lo) (Stated c.lo) := by
  unfold forLoop
  refine .spend (le_refl c) fun c₁ h₁ _ hpast ↦ runs_token.2 ?_
  refine .eatWordAny h₁ fun awaited c₂ h₂ hc₂ ↦ .expect hc₂ fun c₃ h₃ hc₃ _ ↦ ?_
  refine .call hc₃ (runs_forHead hp (c.opens_lo.passed (hpast.mono (h₂.trans h₃))) s)
    fun n d _ hcd hn ↦ ?_
  split
  · exact .pure hcd hn
  · exact .guard (fun _ ↦ .failAt hcd) fun _ ↦ .pure hcd hn

theorem runs_returning (hform : c.cursor.token.form = .word "return" false) (s : Setting) :
    Runs c c s (returning p c.lo) fun n d ↦ d.Has c.lo n := by
  unfold returning
  refine .advance (le_refl c) fun c₁ h₁ _ hpast hnext ↦ ?_
  have hclose : ∀ (value : Node) (d : Place text), c₁ ≤ d →
      (value.isAbsent = true ∨ Text.KeepsLine text c.lo "return") → d.Holds value → Runs c d s (do
      let n ← nodeFrom c.lo (.statement .returning) [value]
      if !(← read).inFunction then
        emit n.span .returnOutside
      return n) fun n d ↦ d.Has c.lo n := by
    intro value d hd hline hvalue
    have hn : d.Has c.lo (.mk (.statement .returning) ⟨c.lo, d.prevEnd⟩ [value]) :=
      (c.opens_lo.passed (hpast.mono hd)).shaped hline rfl (Place.clears_of_hasTargets rfl)
        (Place.holdsAll_one hvalue)
    refine runs_nodeFrom.2 (runs_read.2 ?_)
    exact .when (h₁.trans hd) (fun _ ↦ runs_emit d s _ _) fun e hde hce ↦ .pure hce (hn.of_le hde)
  refine .endStatement h₁ (fun d hd _ ↦ hclose _ d hd (.inl rfl) Place.holds_absent) fun hline ↦ ?_
  have hkeeps := Place.keepsLine hform hnext hline
  refine .call h₁ (runs_expressionPart hp c₁ s) fun value d hd hcd hvalue ↦ ?_
  exact .expectSemicolon hcd fun e hde _ ↦
    hclose value e (hd.trans hde) (.inr hkeeps) (hvalue.of_le hde)

theorem runs_throwing (hform : c.cursor.token.form = .word "throw" false) (s : Setting) :
    Runs c c s (throwing p c.lo) fun n d ↦ d.Has c.lo n := by
  unfold throwing
  refine .advance (le_refl c) fun c₁ h₁ _ hpast hnext ↦ runs_token.2 ?_
  refine .guard (fun _ ↦ .failHere h₁) fun hline ↦ ?_
  have hkeeps := Place.keepsLine hform hnext (by simpa using hline)
  refine .call h₁ (runs_expressionPart hp c₁ s) fun n c₂ h₂ hc₂ hn ↦ ?_
  refine .expectSemicolon hc₂ fun c₃ h₃ hc₃ ↦ .node hc₃ ?_
  exact (c.opens_lo.passed (hpast.mono (h₂.trans h₃))).shaped hkeeps rfl
    (Place.clears_of_hasTargets rfl) (Place.holdsAll_one (hn.of_le h₃))

omit hp in
theorem runs_checkJump (c : Place text) (s : Setting) (span : Span) (isBreak : Bool)
    (label : Option String) : Runs c c s (checkJump span isBreak label) Anywhere := by
  have hdone : Runs c c s (pure ()) Anywhere := .pure (le_refl c) trivial
  unfold checkJump
  rw [runs_read]
  refine .ite (fun _ ↦ .ite (fun _ ↦ runs_emit c s _ _) fun _ ↦ .ite (fun _ ↦ runs_emit c s _ _)
    fun _ ↦ hdone) fun _ ↦ .ite (fun _ ↦ runs_emit c s _ _) fun _ ↦ ?_
  exact .ite (fun _ ↦ runs_emit c s _ _) fun _ ↦ hdone

omit hp in
theorem runs_jump (c : Place text) (s : Setting) : Runs c c s (jump c.lo) (Stated c.lo) := by
  unfold jump
  rw [runs_isWord]
  refine .spend (le_refl c) fun c₁ h₁ _ hpast ↦ ?_
  have hrest : ∀ (label : Option String) (d : Place text), c₁ ≤ d → Runs c d s (do
      let n ← nodeFrom c.lo (.statement .jump) []
      checkJump n.span (c.cursor.token.form == .word "break" false) label
      return n) (Stated c.lo) := fun label d hd ↦ by
    refine runs_nodeFrom.2 (.call (h₁.trans hd) (runs_checkJump d s _ _ _) fun _ e hde hce _ ↦ ?_)
    exact .pure hce (((c.opens_lo.passed (hpast.mono hd)).stated rfl Place.holdsAll_nil).of_le hde)
  refine .eatSemicolon h₁ fun ended c₂ h₂ hc₂ ↦ ?_
  cases ended with
  | true => exact hrest none c₂ h₂
  | false =>
    refine .call hc₂ (runs_identifier c₂ s) fun x c₃ h₃ hc₃ _ ↦ ?_
    exact .expectSemicolon hc₃ fun c₄ h₄ _ ↦ hrest (some x.1) c₄ (h₂.trans (h₃.trans h₄))

theorem runs_caseRest (hlo : c.Opens lo) {test : Node} (htest : c.Holds test) (s : Setting) :
    Runs c c s (caseRest p lo test) fun n d ↦ d.Holds n := by
  unfold caseRest
  refine .expect (le_refl c) fun c₁ h₁ hc₁ hpast ↦ .call hc₁ (Q := fun ns e ↦ e.HoldsAll ns) ?_
    fun ns e he hce hns ↦ .node hce ?_
  · refine runs_iterate (fun ns e ↦ e.HoldsAll ns) Place.holdsAll_nil fun ns e _ hns ↦ ?_
    rw [runs_isWord, runs_isWord, runs_isPunct, runs_isEnd]
    split
    · exact .pure (le_refl e) hns
    · exact .call (le_refl e) (runs_statementPart hp e s) fun n e₁ h₁ _ hn ↦
        .pure h₁ (hns.append h₁ hn)
  · exact ((hlo.passed (hpast.mono he)).node rfl (.cons (htest.of_le (h₁.trans he)) hns)).holds

theorem runs_switchCase (c : Place text) (s : Setting) (hasDefault : Bool) :
    Runs c c s (switchCase p hasDefault) fun n d ↦ d.Holds n := by
  unfold switchCase
  rw [runs_here]
  refine .eatWord (le_refl c) (fun c₁ h₁ _ _ ↦ ?_) (.expectWord (le_refl c) fun c₁ _ hc₁ _ ↦ ?_)
  · exact .guard (fun _ ↦ .failHere h₁) fun _ ↦
      (runs_caseRest hp (c.opens_lo.mono h₁) Place.holds_absent s).last h₁ fun _ _ _ h ↦ h
  · exact .call hc₁ (runs_expressionPart hp c₁ s) fun test d _ hcd htest ↦
      (runs_caseRest hp (c.opens_lo.mono hcd) htest s).last hcd fun _ _ _ h ↦ h

theorem runs_switch (c : Place text) (s : Setting) :
    Runs c c s (switch p c.lo) (Stated c.lo) := by
  unfold switch
  refine .spend (le_refl c) fun c₁ h₁ _ hpast ↦ ?_
  refine .call h₁ (runs_condition hp c₁ s) fun subject c₂ h₂ hc₂ ⟨_, hsubject⟩ ↦ ?_
  refine .expect hc₂ fun c₃ h₃ hc₃ _ ↦ .call hc₃ (Q := fun ns d ↦ d.HoldsAll ns)
    (runs_within.2 ?_) fun ns c₄ h₄ hc₄ hns ↦ .expect hc₄ fun c₅ h₅ hc₅ _ ↦ ?_
  · refine runs_iterate (fun ns d ↦ d.HoldsAll ns) Place.holdsAll_nil fun ns d _ hns ↦ ?_
    rw [runs_isWord, runs_isWord]
    split
    · exact .call (le_refl d) (runs_switchCase hp d _ _) fun n e hde _ hn ↦
        .pure hde (hns.append hde hn)
    · exact .pure (le_refl d) hns
  · have hlate := h₃.trans (h₄.trans h₅)
    exact .stated rfl hc₅ (c.opens_lo.passed (hpast.mono (h₂.trans hlate)))
      (.cons (hsubject.of_le hlate) (hns.of_le h₅))

theorem runs_handler (c : Place text) (s : Setting) :
    Runs c c s (handler p) fun n d ↦ d.Holds n := by
  unfold handler
  rw [runs_here]
  refine .eatWord (le_refl c) (fun c₁ h₁ _ hpast ↦ ?_)
    (.pure (s := s) (le_refl c) Place.holds_absent)
  have hclose : ∀ (param : Node) (d : Place text), c₁ ≤ d → d.Holds param → Runs c d s (do
      let body ← p .block
      nodeFrom c.lo (.statement .handler) [param, body]) fun n d ↦ d.Holds n := by
    intro param d hd hparam
    refine .call (h₁.trans hd) (runs_blockPart hp d s) fun body e hde hce hbody ↦ .node hce ?_
    exact ((c.opens_lo.passed (hpast.mono (hd.trans hde))).node rfl
      (.cons (hparam.of_le hde) (Place.holdsAll_one hbody))).holds
  refine .eat h₁ (fun c₂ h₂ hc₂ _ ↦ ?_) (hclose _ c₁ (le_refl c₁) Place.holds_absent)
  refine .call hc₂ (hp.binding c₂ s) fun param d hd hcd hparam ↦ ?_
  exact .expect hcd fun e hde _ _ ↦ hclose param e (h₂.trans (hd.trans hde)) (hparam.part hde)

theorem runs_finalizer (c : Place text) (s : Setting) :
    Runs c c s (finalizer p) fun n d ↦ d.Holds n := by
  unfold finalizer
  exact .eatWord (le_refl c) (fun d hcd _ _ ↦ (runs_blockPart hp d s).last hcd fun _ _ _ hn ↦ hn)
    (.pure (s := s) (le_refl c) Place.holds_absent)

theorem runs_strayHandler (c : Place text) (s : Setting) (lo : Nat) :
    Runs c c s (strayHandler p lo) (Stated lo) := by
  unfold strayHandler
  rw [runs_token]
  refine .emit (le_refl c) fun c₁ _ hc₁ ↦ ?_
  refine .call hc₁ (Q := Anywhere) (.tryCatch ?_ fun _ d hd ↦ .pure hd trivial)
    fun _ c₂ _ hc₂ _ ↦ ?_
  · exact .call (le_refl c₁) (runs_handler hp c₁ s) fun _ d hd _ _ ↦ .pure hd trivial
  refine .call hc₂ (Q := Anywhere) (.tryCatch ?_ fun _ d hd ↦ .pure hd trivial)
    fun _ c₃ _ hc₃ _ ↦ ?_
  · exact .call (le_refl c₂) (runs_finalizer hp c₂ s) fun _ d hd _ _ ↦ .pure hd trivial
  refine .pure hc₃ ⟨⟨fun _ hwhole ↦ ?_, ?_⟩, rfl⟩
  · exact absurd (hwhole.of_mem List.mem_cons_self) (Node.not_whole_invalid _ _)
  · exact (Place.clears_of_hasTargets rfl).admits
      (List.forall_mem_singleton.2 (Place.admits_leaf rfl))

theorem runs_trying (c : Place text) (s : Setting) :
    Runs c c s (trying p c.lo) (Stated c.lo) := by
  unfold trying
  refine .spend (le_refl c) fun c₁ h₁ _ hpast ↦ ?_
  refine .call h₁ (runs_blockPart hp c₁ s) fun body c₂ h₂ hc₂ hbody ↦ runs_here.2 ?_
  refine .call hc₂ (runs_handler hp c₂ s) fun caught c₃ h₃ hc₃ hcaught ↦ ?_
  refine .call hc₃ (runs_finalizer hp c₃ s) fun last c₄ h₄ hc₄ hlast ↦ ?_
  refine .when hc₄ (fun _ ↦ runs_emit c₄ s _ _) fun c₅ h₅ hc₅ ↦ ?_
  have hlate := h₃.trans (h₄.trans h₅)
  exact .stated rfl hc₅ (c.opens_lo.passed (hpast.mono (h₂.trans hlate))) (.cons (hbody.of_le hlate)
    (.cons (hcaught.of_le (h₄.trans h₅)) (Place.holdsAll_one (hlast.of_le h₅))))

theorem runs_withObject (c : Place text) (s : Setting) :
    Runs c c s (withObject p c.lo) (Stated c.lo) := by
  unfold withObject
  rw [runs_token]
  refine .emit (le_refl c) fun c₁ h₁ _ ↦ .spend h₁ fun c₂ h₂ hc₂ hpast ↦ ?_
  refine .call hc₂ (runs_condition hp c₂ s) fun subject c₃ h₃ hc₃ ⟨_, hsubject⟩ ↦ ?_
  refine .call hc₃ (runs_bodyPart hp c₃ s) fun body c₄ h₄ hc₄ hbody ↦ ?_
  exact .stated rfl hc₄ (c.opens_lo.passed ((hpast.of_le h₁).mono (h₃.trans h₄)))
    (.cons (hsubject.of_le h₄) (Place.holdsAll_one hbody))

/-! ## Expression statements -/

theorem runs_labeledBody (c : Place text) (s : Setting) :
    Runs c c s (labeledBody p) fun n d ↦ d.Holds n := by
  unfold labeledBody
  rw [runs_isWord]
  split
  · rw [runs_peek]
    refine .call (le_refl c) (runs_statementPart hp c s) fun f c₁ h₁ _ hf ↦ ?_
    refine .emit h₁ fun c₂ h₂ hc₂ ↦ .when hc₂ (fun _ ↦ runs_emit c₂ s _ _) fun c₃ h₃ hc₃ ↦ ?_
    exact .pure hc₃ (hf.of_le (h₂.trans h₃))
  · exact runs_bodyPart hp c s

theorem runs_labeled (hlo : c.Passed lo) (s : Setting) (name : String) (span : Span) :
    Runs c c s (labeled p lo name span) (Stated lo) := by
  unfold labeled
  rw [runs_read]
  refine .call (le_refl c) (runs_within.2 (runs_labeledBody hp c _)) fun body c₁ h₁ _ hbody ↦ ?_
  refine .call h₁ (runs_forM (le_refl c₁) fun _ _ d _ ↦ runs_emit d s _ _) fun _ c₂ h₂ hc₂ _ ↦ ?_
  exact .stated rfl hc₂ (hlo.mono hc₂) (Place.holdsAll_one (hbody.of_le h₂))

theorem runs_expressionStatement_ending {n : Node} (hn : c.Has lo n) (hlo : c.Opens lo)
    (s : Setting) :
    Runs c c s (expressionStatement.ending p lo n) (Stated lo) := by
  have hclose : ∀ (m : Node) (d : Place text), c ≤ d → d.Has lo m →
      Runs c d s (nodeFrom lo (.statement .expression) [m]) (Stated lo) := fun m d hcd hm ↦
    .node hcd ⟨hm.node List.mem_cons_self (hlo.mono hcd) rfl (Place.holdsAll_one hm.holds), rfl⟩
  unfold expressionStatement.ending
  refine .eatSemicolon (le_refl c) fun ended d hcd _ ↦ ?_
  cases ended with
  | true => exact hclose n d hcd (hn.of_le hcd)
  | false =>
    refine runs_token.2 ?_
    split
    · refine .emit hcd fun e hde hce ↦ ?_
      refine .call hce (hp (.climb n 0) e s) fun m e₁ h₁ he₁ hm ↦ ?_
      exact hclose m e₁ he₁ (hm.1 lo (hn.of_le hce))
    · exact .failHere hcd

theorem runs_expressionStatement (c : Place text) (s : Setting) :
    Runs c c s (expressionStatement p c.lo) (Stated c.lo) := by
  unfold expressionStatement
  refine .call (le_refl c) (hp .expression c s) fun n c₁ h₁ _ hn ↦ ?_
  have hending : ∀ (m : Node) (d : Place text), c ≤ d → d.Has c.lo m →
      Runs c d s (expressionStatement.ending p c.lo m) (Stated c.lo) := fun m d hcd hm ↦
    (runs_expressionStatement_ending hp hm (c.opens_lo.mono hcd) s).last hcd fun _ _ _ h ↦ h
  split
  · refine .eat h₁ (fun c₂ h₂ hc₂ hpast ↦ ?_) (hending n c₁ h₁ hn)
    exact (runs_labeled hp (c.opens_lo.passed (hpast.of_le h₁)) s _ _).last hc₂ fun _ _ _ h ↦ h
  · refine .call h₁ (runs_verify (Q := fun n d ↦ d.Has c.lo n) (fun _ _ _ hle hn ↦ hn.of_le hle)
      hn s) fun m d _ hcd hm ↦ hending m d hcd hm

end

end OptionalChain.Grammar
