import OptionalChain.Proofs.Placement.Operands

/-!
# Expressions

Operands that start with a word, accesses and calls, operators and assignments. Each step after an
operand gives a node that starts where the operand does, so what holds of one step holds of all.
-/

namespace OptionalChain.Grammar

open Text (At Boundary)

variable {text : List Char} {w c d e : Place text} {s : Setting} {lo : Nat} {p : Parts}

theorem runs_leaf {kind : Kind} (hkind : kind.isCommon = true) (c : Place text) (s : Setting) :
    Runs c c s (leaf kind) fun n d ↦ d.HasLast c.lo n := by
  unfold leaf
  rw [runs_token]
  exact .bump (le_refl c) fun d _ hcd hprev ↦
    .pure hcd ⟨Place.has_leaf hkind hcd hprev, Place.trails_of_prevEnd hprev⟩

section

variable (hp : Sound text p)
include hp

/-! ## Words that start an operand -/

theorem runs_asyncOperand_reference (hlo : c.Opens lo) (hc : lo ≤ c.lo) (s : Setting) :
    Runs c c s (asyncOperand.reference p lo) fun n d ↦ d.HasLast lo n := by
  unfold asyncOperand.reference
  rw [runs_peek]
  split
  · exact (runs_shortArrow hp hlo s false).mono fun _ _ _ hn ↦ hn.1.last hn.2 rfl
  · exact (runs_identifierNode_last c s).mono fun _ _ _ hn ↦
      ⟨hn.has.mono (le_refl _) hc (Nat.le_refl _), hn.trails⟩

theorem runs_asyncOperand_arrowOr (c : Place text) (s : Setting) (generic : Bool) :
    Runs c c s (asyncOperand.arrowOr p c.lo generic) fun n d ↦ d.HasLast c.lo n := by
  unfold asyncOperand.arrowOr
  rw [runs_get]
  refine .spend (le_refl c) fun c₁ _ hc₁ _ ↦ ?_
  refine .call hc₁ (runs_arrow? hp (c.opens_lo.mono hc₁) s true generic) fun n? c₂ _ hc₂ hn ↦ ?_
  cases n? with
  | some n =>
    obtain ⟨hn, hkind⟩ := hn n rfl
    dsimp only
    split
    · exact .pure hc₂ (hn.last hkind rfl)
    · exact (runs_arrowEnd hp hn hkind s).last hc₂ fun _ _ _ hm ↦ hm
  | none =>
    refine .rewind (le_refl c) hc₂ fun d hcd _ ↦ ?_
    exact (runs_identifierNode_last d s).last hcd fun _ _ _ hn ↦ ⟨hn.has.from_le hcd, hn.trails⟩

theorem runs_asyncOperand (c : Place text) (s : Setting) :
    Runs c c s (asyncOperand p) fun n d ↦ d.HasLast c.lo n := by
  have href : Runs c c s (asyncOperand.reference p c.lo) fun n d ↦ d.HasLast c.lo n :=
    runs_asyncOperand_reference hp c.opens_lo (Nat.le_refl _) s
  unfold asyncOperand
  rw [runs_here]
  refine runs_peekTwo fun t ↦ ?_
  dsimp only
  split
  · exact href
  split
  · refine .spend (le_refl c) fun d _ hcd _ ↦ ?_
    exact (runs_functionWith hp (c.opens_lo.mono hcd) s true false rfl).last hcd
      fun _ _ _ hn ↦ hn.1.last hn.2 rfl
  · refine .spend (le_refl c) fun d _ hcd _ ↦ ?_
    exact (runs_shortArrow hp (c.opens_lo.mono hcd) s true).last hcd
      fun _ _ _ hn ↦ hn.1.last hn.2 rfl
  · exact runs_asyncOperand_arrowOr hp c s false
  · rw [runs_isTypescript]
    split
    · exact runs_asyncOperand_arrowOr hp c s true
    · exact href
  · exact href

/-- A word that is called. -/
theorem runs_wordCall {kind : Kind} {b : Place text} (hkind : kind.isCommon = true)
    (hpath : kind.onPath = false) (hbc : b ≤ c) (hprev : c.prevEnd = b.hi) (s : Setting) :
    Runs c c s (do
      let args ← arguments p
      nodeFrom b.lo (.call false) [.mk kind b.cursor.token.span [], args, .absent])
      fun n d ↦ d.HasLast b.lo n := by
  refine .call (le_refl c) (runs_arguments hp c s) fun args d _ hcd ⟨_, hargs⟩ ↦
    .node hcd ⟨?_, Place.trails_of_prevEnd rfl⟩
  exact (Place.has_leaf hkind hbc hprev).call (le_refl c) hargs hcd (.inl rfl)
    fun h ↦ absurd (hpath.symm.trans h) Bool.false_ne_true

theorem runs_importOperand (c : Place text) (s : Setting) :
    Runs c c s (importOperand p) fun n d ↦ d.HasLast c.lo n := by
  unfold importOperand
  rw [runs_here, runs_token]
  refine .bump (le_refl c) fun c₁ h₁ hc₁ hprev ↦ ?_
  have hpast : c.Past c₁ := Place.past_of_taken hc₁ (Nat.le_of_eq hprev.symm)
  refine .eat hc₁ (fun c₂ h₂ hc₂ _ ↦ ?_) (runs_isPunct.2 ?_)
  · refine .call hc₂ (runs_anyWord c₂ s) fun _ c₃ h₃ hc₃ _ ↦ ?_
    refine .ite (fun _ ↦ runs_get.2 (.stop (.failHere hc₃))) fun _ ↦
      .node hc₃ ⟨?_, Place.trails_of_prevEnd rfl⟩
    exact (c.opens_lo.passed (hpast.mono (h₂.trans h₃))).node rfl Place.holdsAll_nil
  · split
    · exact (runs_wordCall hp rfl rfl hc₁ hprev s).last hc₁ fun _ _ _ hn ↦ hn
    · exact runs_get.2 (.failHere hc₁)

omit hp in
theorem runs_superOperand_checkSuper (c : Place text) (s : Setting) (span : Span) :
    Runs c c s (superOperand.checkSuper span) Anywhere := by
  unfold superOperand.checkSuper
  rw [runs_isTypescript, runs_read]
  split
  · exact .failAt (le_refl c)
  · exact .pure (le_refl c) trivial

theorem runs_superOperand (c : Place text) (s : Setting) :
    Runs c c s (superOperand p) fun n d ↦ d.HasLast c.lo n := by
  unfold superOperand
  rw [runs_here, runs_token]
  refine .bump (le_refl c) fun c₁ h₁ hc₁ hprev ↦ runs_isPunct.2 ?_
  have hpassed : c₁.Passed c.lo :=
    c.opens_lo.passed (Place.past_of_taken hc₁ (Nat.le_of_eq hprev.symm))
  split
  · exact (runs_wordCall hp rfl rfl hc₁ hprev s).last hc₁ fun _ _ _ hn ↦ hn
  refine .eat hc₁ (fun c₂ h₂ hc₂ _ ↦ ?_) (runs_isPunct.2 ?_)
  · refine .call hc₂ (runs_anyWord c₂ s) fun x c₃ h₃ hc₃ hx ↦ ?_
    refine .call hc₃ (runs_superOperand_checkSuper c₃ s _) fun _ c₄ h₄ hc₄ _ ↦
      .node hc₄ ⟨?_, Place.trails_of_prevEnd rfl⟩
    have hname := (hx.of_le h₄).has (.inr (.inl rfl)) Place.holdsAll_nil
    exact (hpassed.mono (h₂.trans (h₃.trans h₄))).node rfl (Place.holdsAll_one hname.holds)
  split
  · refine runs_here.2 (.spend hc₁ fun c₂ h₂ hc₂ hpast ↦ ?_)
    refine .call hc₂ (runs_within.2 (hp .expression c₂ _)) fun n c₃ h₃ hc₃ hn ↦ ?_
    refine .expect hc₃ fun c₄ h₄ hc₄ _ ↦ runs_nodeFrom.2 ?_
    refine .call hc₄ (runs_superOperand_checkSuper c₄ s _) fun _ c₅ h₅ hc₅ _ ↦
      .node hc₅ ⟨?_, Place.trails_of_prevEnd rfl⟩
    have hkey : c₄.Has c₁.lo (.mk .computed ⟨c₁.lo, c₄.prevEnd⟩ [n]) :=
      ((c₁.opens_lo.passed hpast).mono (h₃.trans h₄)).node rfl (Place.holdsAll_one (hn.part h₄))
    exact (hpassed.mono (h₂.trans (h₃.trans (h₄.trans h₅)))).node rfl
      (Place.holdsAll_one (hkey.part h₅))
  · exact .failHere hc₁

/-- The arguments of `new`, after its operand and its type arguments. -/
theorem runs_newArguments {callee typeArgs : Node} (hpassed : c.Passed lo)
    (hcallee : c.Holds callee) (hchain : callee.isStep = true → callee.inChain = false)
    (htypeArgs : c.Holds typeArgs) (s : Setting) :
    Runs c c s (do
      let args ← if ← isPunct .lparen then arguments p else pure .absent
      nodeFrom lo .new [callee, args, typeArgs]) fun n d ↦ d.HasLast lo n := by
  rw [runs_isPunct]
  refine .choose (le_refl c) (Q := fun n d ↦ d.Holds n)
    (fun _ ↦ (runs_arguments hp c s).mono fun _ _ _ hn ↦ hn.2.holds) (fun _ ↦ runs_noPart c s)
    fun args d hcd _ hargs ↦ .node hcd ⟨?_, Place.trails_of_prevEnd rfl⟩
  exact (hpassed.mono hcd).shaped (Node.shape_of_isPlain rfl) rfl
    (Place.clears_of_steps rfl fun _ ↦ by simpa using hchain)
    (.cons (hcallee.of_le hcd) (.cons hargs (Place.holdsAll_one (htypeArgs.of_le hcd))))

/-- What follows the operand of `new`. -/
theorem runs_newRest {callee : Node} (hpassed : c.Passed lo) (hcallee : c.Holds callee)
    (hchain : callee.isStep = true → callee.inChain = false) (s : Setting) :
    Runs c c s (do
      let typeArgs ← if (← isTypescript) && (← isLess) then
          match ← speculate (do
            let a ← typeArguments p
            if (← isPunct .lparen) then return a
            failExpected "(") with
          | some a => pure a
          | none => pure Node.absent
        else pure .absent
      let args ← if ← isPunct .lparen then arguments p else pure .absent
      nodeFrom lo .new [callee, args, typeArgs]) fun n d ↦ d.HasLast lo n := by
  have hclose : ∀ (typeArgs : Node) (d : Place text), c ≤ d → d.Holds typeArgs → Runs c d s (do
      let args ← if ← isPunct .lparen then arguments p else pure .absent
      nodeFrom lo .new [callee, args, typeArgs]) fun n d ↦ d.HasLast lo n := fun _ _ hcd htypeArgs ↦
    (runs_newArguments hp (hpassed.mono hcd) (hcallee.of_le hcd) hchain htypeArgs s).last hcd
      fun _ _ _ hn ↦ hn
  rw [runs_isTypescript, runs_isLess]
  refine .ite (fun _ ↦ ?_) fun _ ↦ hclose _ c (le_refl c) Place.holds_absent
  refine .speculate (le_refl c) survives_isType ?_ (fun a d hcd _ ha ↦ hclose a d hcd ha)
    fun d hcd _ ↦ hclose _ d hcd Place.holds_absent
  refine .call (le_refl c) (runs_typeArguments hp c s) fun a d hcd _ ⟨_, ha⟩ ↦ runs_isPunct.2 ?_
  split
  · exact .pure hcd ⟨ha.has.holds.lies, ha.isType⟩
  · exact .failExpected hcd

theorem runs_creation (c : Place text) (s : Setting) :
    Runs c c s (creation p) fun n d ↦ d.HasLast c.lo n := by
  unfold creation
  rw [runs_here]
  refine .expectWord (le_refl c) fun c₁ h₁ hc₁ hpast ↦ .eat hc₁ (fun c₂ h₂ hc₂ _ ↦ ?_) ?_
  · refine .eatWord hc₂ (fun c₃ h₃ hc₃ _ ↦ runs_nodeFrom.2 ?_) (runs_get.2 (.stop (.failHere hc₂)))
    have hn : c₃.HasLast c.lo (.mk .metaProperty ⟨c.lo, c₃.prevEnd⟩ []) :=
      ⟨(c.opens_lo.passed (hpast.mono (h₂.trans h₃))).node rfl Place.holdsAll_nil,
        Place.trails_of_prevEnd rfl⟩
    rw [runs_read]
    exact .whenKeeping hc₃ hn (fun _ ↦ runs_emit_last hn s _ _) fun d _ hcd hn ↦ .pure hcd hn
  · refine .call hc₁ (hp .callee c₁ s) fun callee c₂ h₂ hc₂ hcallee ↦ ?_
    have hrest (hchain : callee.isStep = true → callee.inChain = false) :=
      (runs_newRest hp (c.opens_lo.passed (hpast.mono h₂)) hcallee.holds hchain s).last hc₂
        fun _ _ _ hn ↦ hn
    split
    · exact .guard (fun _ ↦ .failAt hc₂) fun hfree ↦ hrest fun _ ↦ eq_false_of_ne_true hfree
    · exact .guard (fun _ ↦ .failAt hc₂) fun hfree ↦ hrest fun _ ↦ eq_false_of_ne_true hfree
    · rename_i hmember hcall
      refine hrest fun hstep ↦ ?_
      unfold Node.isStep at hstep
      split at hstep
      · exact absurd ‹_› (hmember _)
      · exact absurd ‹_› (hcall _)
      · cases hstep

theorem runs_primary_name (c : Place text) (s : Setting) :
    Runs c c s (primary.name p c.lo) fun n d ↦ d.HasLast c.lo n := by
  unfold primary.name
  rw [runs_peek]
  split
  · exact (runs_shortArrow hp c.opens_lo s false).mono fun _ _ _ hn ↦ hn.1.last hn.2 rfl
  · exact runs_identifierNode_last c s

theorem runs_primary (c : Place text) (s : Setting) :
    Runs c c s (primary p) fun n d ↦ d.HasLast c.lo n := by
  have hfree : (∀ e, c.cursor.token.form ≠ .invalid e) → c.stuck = false := c.free_of_form
  unfold primary
  rw [runs_token]
  dsimp only
  split
  · exact runs_leaf rfl c s
  · exact runs_leaf rfl c s
  · exact runs_leaf rfl c s
  · rename_i hform
    exact (runs_templateLiteral hp (hfree (by simp [hform])) s false).mono fun _ _ _ hn ↦
      hn.1.last hn.2 rfl
  · exact runs_parenOperand hp c s
  · exact (runs_arrayLiteral hp c s).mono fun _ _ _ hn ↦ hn.1.last hn.2 rfl
  · exact (runs_objectLiteral hp c s).mono fun _ _ _ hn ↦ hn.1.last hn.2 rfl
  · rename_i hform
    exact (runs_regexLiteral (hfree (by simp [hform]))
      (Token.head?_of_div (c.lexeme_of_punct hform).1) s).mono fun _ _ _ hn ↦ hn.1.last hn.2 rfl
  · rename_i hform
    rw [runs_get]
    refine .ite (fun hhead ↦ ?_) fun _ ↦ .failHere (le_refl c)
    exact (runs_regexLiteral (hfree (by simp [hform])) (by simpa using hhead) s).mono
      fun _ _ _ hn ↦ hn.1.last hn.2 rfl
  · refine .spend (le_refl c) fun c₁ h₁ hc₁ hpast ↦ ?_
    refine .call hc₁ (runs_anyWord c₁ s) fun _ c₂ h₂ hc₂ _ ↦
      .node hc₂ ⟨?_, Place.trails_of_prevEnd rfl⟩
    exact (c.opens_lo.passed (hpast.mono h₂)).node rfl Place.holdsAll_nil
  · rw [runs_dialect]
    split
    · refine .call (le_refl c) (runs_decorators hp c s) fun _ c₁ h₁ _ _ ↦ runs_here.2 ?_
      exact (runs_classWith hp c₁.opens_lo s rfl false).last h₁ fun _ _ _ hn ↦
        (hn.1.from_le h₁).last hn.2 rfl
    · exact .failHere (le_refl c)
  · exact runs_asyncOperand hp c s
  · split
    · exact runs_leaf rfl c s
    · exact runs_leaf rfl c s
    · exact runs_leaf rfl c s
    · exact runs_leaf rfl c s
    · exact (runs_functionWith hp c.opens_lo s false false rfl).mono fun _ _ _ hn ↦
        hn.1.last hn.2 rfl
    · exact (runs_classWith hp c.opens_lo s rfl false).mono fun _ _ _ hn ↦ hn.1.last hn.2 rfl
    · exact runs_creation hp c s
    · exact runs_importOperand hp c s
    · exact runs_superOperand hp c s
    · split
      · exact .failHere (le_refl c)
      · exact runs_primary_name hp c s
  · exact runs_primary_name hp c s
  · exact .failHere (le_refl c)

/-! ## Accesses and calls -/

theorem runs_computedKey (c : Place text) (s : Setting) :
    Runs c c s (computedKey p) fun n d ↦
      d.Has c.lo n ∧ c.lo < d.prevEnd ∧ n.kind = .computed ∧ n.span.lo = c.lo := by
  unfold computedKey
  rw [runs_here]
  refine .call (le_refl c) ((runs_expect c s .lbrack).and (runs_expect_lt c s .lbrack))
    fun _ c₁ h₁ hc₁ ⟨hpast, hlt⟩ ↦ ?_
  refine .call hc₁ (runs_asValue (hp .expression c₁) s) fun n c₂ h₂ hc₂ hn ↦ ?_
  refine .expect hc₂ fun c₃ h₃ hc₃ _ ↦
    .node hc₃ ⟨?_, Nat.lt_of_lt_of_le hlt (Place.prevEnd_le (h₂.trans h₃)), rfl, rfl⟩
  exact ((c.opens_lo.passed hpast).mono (h₂.trans h₃)).node rfl (Place.holdsAll_one (hn.part h₃))

omit hp in
theorem runs_dottedKey (c : Place text) (s : Setting) :
    Runs c c s dottedKey fun n d ↦ d.Has c.lo n ∧ n.kind.isDotted = true := by
  unfold dottedKey
  rw [runs_isPunct]
  split
  · exact (runs_privateName c s).mono fun _ _ _ hn ↦ hn.2
  · refine .call (le_refl c) (runs_anyWord c s) fun x d _ hcd hx ↦ .pure hcd ⟨?_, rfl⟩
    exact hx.has (.inr (.inl rfl)) Place.holdsAll_nil

omit hp in
theorem looks_endsTypeArguments : Looks endsTypeArguments := by
  unfold endsTypeArguments
  apply looks_token.bind
  intro t
  split <;> exact .pure _

variable {base : Node}

/-- The node has no targets, and the errors of its base are all that count in it. -/
structure Extends (base n : Node) : Prop where
  targets : n.targets = []
  parts : ∀ m ∈ n.reviewedParts, m = base ∨ m.IsType

omit hp in
theorem Extends.admits {n : Node} (h : Extends base n) (hbase : c.Admits base) : c.Admits n := by
  refine fun herrors ↦ .intro (by simp [h.targets]) fun m hm ↦ ?_
  obtain rfl | htype := h.parts m hm
  · exact hbase herrors
  · exact htype.admissible

omit hp in
theorem Extends.clears {n : Node} (h : Extends base n) : c.Clears n := by
  simp [Place.Clears, h.targets]

theorem runs_typeArgumentStep (hbase : c.HasLast lo base)
    (hform : c.cursor.token.form = .punct (.op .lt) ∨ c.cursor.token.form = .punct (.op .shl))
    (s : Setting) (calls : Bool) :
    Runs c c s (typeArgumentStep p calls base) fun n d ↦ d.HasLast lo n ∧ Extends base n := by
  unfold typeArgumentStep
  refine .call (le_refl c) (runs_typeArguments hp c s) fun args c₁ h₁ _ hread ↦ ?_
  obtain ⟨hlo, hargs⟩ := hread
  have hpresent : args.isAbsent = false := hargs.isType.isAbsent
  rw [runs_isPunct]
  split
  · refine .call h₁ (runs_arguments hp c₁ s) fun values c₂ h₂ hc₂ hread ↦ .node hc₂ ?_
    obtain ⟨hlt, hvalues⟩ := hread
    refine ⟨⟨hbase.has.call h₁ hvalues h₂ (.inr ⟨c, le_refl c, h₁, hargs.has⟩) fun hpath ↦ ?_,
      Place.trails_of_prevEnd rfl⟩, rfl,
      by simp [Node.reviewedParts, Node.kind, Node.children, hpresent]⟩
    obtain ⟨q, hq⟩ : ∃ q, c.cursor.token.form = .punct q := hform.elim (⟨_, ·⟩) (⟨_, ·⟩)
    refine hbase.trails.meets hpath hq hc₂ ⟨Nat.lt_of_le_of_lt (Place.lo_le h₁) hlt, ?_⟩
    rw [if_neg (by simp [hpresent])]
    exact ⟨hform, hlo.symm⟩
  rw [runs_isPunct]
  refine .ite (fun htick ↦ ?_) fun _ ↦ ?_
  · have hfree : c₁.stuck = false := c₁.free_of_form fun e he ↦ by
      rw [he] at htick
      cases htick
    refine .call h₁ (runs_templateLiteral hp hfree s true) fun t c₂ h₂ hc₂ ht ↦ .node hc₂ ?_
    have hbase := hbase.has.of_le hc₂
    have hextends : Extends base
        (.mk .taggedTemplate ⟨base.span.lo, c₂.prevEnd⟩ [base, args, t]) :=
      ⟨by simp [Node.targets, Node.kind, Node.children, hpresent],
        by simp [Node.reviewedParts, Node.kind, Node.children, hpresent]⟩
    exact ⟨⟨hbase.grow List.mem_cons_self (.cons hbase.holds (.cons (hargs.has.part h₂)
      (Place.holdsAll_one ht.1.holds))) hextends.clears (fun _ _ ↦ trivial)
      fun _ _ ↦ Place.joins_of_isPlain rfl, Place.trails_of_prevEnd rfl⟩, hextends⟩
  · refine .look looks_endsTypeArguments h₁ fun _ ↦ ?_
    split
    · refine .node h₁ ?_
      have hbase := hbase.has.of_le h₁
      have hextends : Extends base (.mk .instantiation ⟨base.span.lo, c₁.prevEnd⟩ [base, args]) :=
        ⟨rfl, by simp [Node.reviewedParts, Node.kind, Node.children, hargs.isType]⟩
      exact ⟨⟨hbase.grow List.mem_cons_self
        (.cons hbase.holds (Place.holdsAll_one hargs.has.holds)) hextends.clears
        (fun _ _ ↦ trivial) fun _ _ ↦ Place.joins_of_isPlain rfl,
        Place.trails_of_prevEnd rfl⟩, hextends⟩
    · exact .failHere h₁

theorem runs_optionalStep (hbase : c.Has lo base)
    (hmeets : base.kind.onPath = true →
      c.Meets base.span.hi fun t ↦ t.form = .punct .questionDot ∧ t.span.hi ≤ c.prevEnd)
    (s : Setting) : Runs c c s (optionalStep p base) fun n d ↦ d.HasLast lo n := by
  have hlater (d : Place text) (hcd : c ≤ d) (hpath : base.kind.onPath = true) :
      d.Meets base.span.hi fun t ↦ t.form = .punct .questionDot ∧ t.span.hi ≤ d.prevEnd :=
    ((hmeets hpath).imp fun _ hlo ↦ hlo.mono hcd).mono fun _ ht ↦
      ⟨ht.1, Nat.le_trans ht.2 (Place.prevEnd_le hcd)⟩
  have hgeneric : Runs c c s (do
      let args ← typeArguments p
      let values ← arguments p
      nodeFrom base.span.lo (.call true) [base, values, args]) fun n d ↦ d.HasLast lo n := by
    refine .call (le_refl c) (runs_typeArguments hp c s) fun args c₁ h₁ _ ⟨_, hargs⟩ ↦ ?_
    refine .call h₁ (runs_arguments hp c₁ s) fun values c₂ h₂ hc₂ ⟨_, hvalues⟩ ↦
      .node hc₂ ⟨?_, Place.trails_of_prevEnd rfl⟩
    exact hbase.call h₁ hvalues h₂ (.inr ⟨c, le_refl c, h₁, hargs.has⟩) (hlater c₂ hc₂)
  unfold optionalStep
  rw [runs_form]
  split
  · refine .call (le_refl c) (runs_arguments hp c s) fun values d _ hcd ⟨_, hvalues⟩ ↦
      .node hcd ⟨?_, Place.trails_of_prevEnd rfl⟩
    exact hbase.call (le_refl c) hvalues hcd (.inl rfl) (hlater d hcd)
  · exact hgeneric
  · exact hgeneric
  · refine .call (le_refl c) (runs_computedKey hp c s) fun key d _ hcd ⟨hkey, _⟩ ↦
      .node hcd ⟨?_, Place.trails_of_prevEnd rfl⟩
    exact hbase.member (le_refl c) hkey hcd fun _ _ ↦ hlater d hcd
  · exact .failHere (le_refl c)
  · refine .call (le_refl c) (runs_dottedKey c s) fun key d _ hcd ⟨hkey, _⟩ ↦
      .node hcd ⟨?_, Place.trails_of_prevEnd rfl⟩
    exact hbase.member (le_refl c) hkey hcd fun _ _ ↦ hlater d hcd

/-- A template after an operand. -/
theorem runs_taggedStep (hbase : d.Has lo base) (hform : d.cursor.token.form = .punct .backtick)
    (s : Setting) {span : Span} :
    Runs d d s (do
      if base.inChain then
        emit span .optionalTemplate
      let template ← templateLiteral p true
      return Sum.inl (← nodeFrom base.span.lo .taggedTemplate [base, .absent, template]))
      (Next (fun n e ↦ e.HasLast lo n) fun (n : Node) e ↦ e.Has lo n) := by
  have hvalid : ∀ e, d.cursor.token.form ≠ .invalid e := by simp [hform]
  have hclose : ∀ d₁, d ≤ d₁ → d₁.stuck = false → (d₁.errors = [] → base.inChain = false) →
      Runs d d₁ s (do
        let template ← templateLiteral p true
        return Sum.inl (← nodeFrom base.span.lo .taggedTemplate [base, .absent, template]))
        (Next (fun n e ↦ e.HasLast lo n) fun (n : Node) e ↦ e.Has lo n) := by
    intro d₁ h₁ hfree hchain
    refine .call h₁ (runs_templateLiteral hp hfree s true) fun t e he hde ⟨ht, _⟩ ↦
      runs_nodeFrom.2 (.pure hde ⟨?_, Place.trails_of_prevEnd rfl⟩)
    have hbase := hbase.of_le hde
    have htag : e.Clears (.mk .taggedTemplate ⟨base.span.lo, e.prevEnd⟩ [base, .absent, t]) :=
      fun herrors _ hm ↦ List.mem_singleton.1 hm ▸ hchain (Place.errors_of_le he herrors)
    exact hbase.grow List.mem_cons_self (.cons hbase.holds (.cons Place.holds_absent
      (Place.holdsAll_one ht.holds))) htag (fun _ _ ↦ trivial) fun _ _ ↦ Place.joins_of_isPlain rfl
  split
  · refine .call (le_refl d) (runs_emit_of_form hvalid s span _) fun _ d₁ h₁ _ hback ↦ ?_
    exact hclose d₁ h₁ (hback.1.stuck ▸ d.free_of_form hvalid) fun herrors ↦
      absurd herrors hback.2
  · rename_i hchain
    exact hclose d (le_refl d) (d.free_of_form hvalid) fun _ ↦ eq_false_of_ne_true hchain

/-- Type arguments after an operand, if they turn out to be some. -/
theorem runs_genericStep (hbase : d.HasLast lo base)
    (hform : d.cursor.token.form = .punct (.op .lt) ∨ d.cursor.token.form = .punct (.op .shl))
    (s : Setting) (calls : Bool) :
    Runs d d s (do
      if ← isTypescript then
        match ← speculate (typeArgumentStep p calls base) with
        | some n => return .inl n
        | none => return .inr base
      else
        return .inr base)
      (Next (fun n e ↦ e.HasLast lo n) fun (n : Node) e ↦ e.Has lo n) := by
  rw [runs_isTypescript]
  split
  · refine .speculate (le_refl d) (P := fun n e ↦ (e.Admits n → e.HasLast lo n) ∧ Extends base n)
      (fun n _ _ hspot hn ↦ ⟨hn.1.of_sameSpot hspot, hn.2⟩)
      (runs_typeArgumentStep hp hbase hform s calls) (fun n e hde _ hn ↦ .pure hde ?_)
      fun e hde _ ↦ .pure hde (hbase.has.of_le hde)
    exact hn.1 (hn.2.admits (hbase.has.admits.of_le hde))
  · exact .pure (le_refl d) hbase.has

theorem runs_steps (hbase : c.HasLast lo base) (s : Setting) (calls : Bool) :
    Runs c c s (steps p calls base) fun n d ↦ d.Has lo n := by
  unfold steps
  refine runs_iterate (fun n d ↦ d.HasLast lo n) hbase fun base d _ hbase ↦ ?_
  rw [runs_token]
  have hstop : Runs d d s (pure (.inr base))
      (Next (fun n e ↦ e.HasLast lo n) fun n e ↦ e.Has lo n) := .pure (le_refl d) hbase.has
  dsimp only
  split
  · rw [runs_isTypescript]
    split
    · refine .spend (le_refl d) fun e hde _ _ ↦
        runs_nodeFrom.2 (.pure hde ⟨?_, Place.trails_of_prevEnd rfl⟩)
      have hbase := hbase.has.of_le hde
      exact hbase.grow List.mem_cons_self (Place.holdsAll_one hbase.holds)
        (Place.clears_of_hasTargets rfl) (fun hfree hwhole ↦
          ⟨rfl, (hbase.sits hfree (hwhole base List.mem_cons_self)).hi_le⟩)
        fun _ _ ↦ Place.joins_of_stepBase? rfl
    · exact hstop
  · rename_i hform
    refine .bump (le_refl d) fun d₁ h₁ _ hprev ↦ ?_
    have hmeets (hpath : base.kind.onPath = true) :
        d₁.Meets base.span.hi fun t ↦ t.form = .punct .questionDot ∧ t.span.hi ≤ d₁.prevEnd :=
      hbase.trails.meets hpath hform h₁ ⟨hform, Nat.le_of_eq hprev.symm⟩
    exact .call h₁ (runs_optionalStep hp (hbase.has.of_le h₁) hmeets s)
      fun n e _ hde hn ↦ .pure hde hn
  · rename_i hform
    refine .bump (le_refl d) fun d₁ h₁ _ hprev ↦ ?_
    refine .call h₁ (runs_dottedKey d₁ s) fun key e h₂ hde ⟨hkey, hkind⟩ ↦
      runs_nodeFrom.2 (.pure hde ⟨?_, Place.trails_of_prevEnd rfl⟩)
    refine hbase.has.member h₁ hkey h₂ fun hfree hwhole hpath ↦
      hbase.trails.meets hpath hform hde ⟨?_, ?_, ?_⟩
    · calc d.lo
        _ < d.hi := d.lo_lt_hi hform
        _ = d₁.prevEnd := hprev.symm
        _ ≤ e.prevEnd := Place.prevEnd_le h₂
    · exact Nat.le_trans (Place.lo_le h₁) (hkey.placed hfree hwhole).1
    · rw [if_pos hkind]
      exact hform
  · rename_i hform
    refine .call (le_refl d) (runs_computedKey hp d s) fun key e hde _ ⟨hkey, hlt, hkind, hlo⟩ ↦
      runs_nodeFrom.2 (.pure hde ⟨?_, Place.trails_of_prevEnd rfl⟩)
    refine hbase.has.member (le_refl d) hkey hde fun _ _ hpath ↦
      hbase.trails.meets hpath hform hde ⟨hlt, Nat.le_of_eq hlo.symm, ?_⟩
    rw [if_neg (by simp [hkind, Kind.isDotted])]
    exact ⟨hform, hlo.symm⟩
  · rename_i hform
    split
    · refine .call (le_refl d) (runs_arguments hp d s) fun values e hde _ ⟨hlt, hvalues⟩ ↦
        runs_nodeFrom.2 (.pure hde ⟨?_, Place.trails_of_prevEnd rfl⟩)
      exact hbase.has.call (le_refl d) hvalues hde (.inl rfl) fun hpath ↦
        hbase.trails.meets hpath hform hde ⟨hlt, hform⟩
    · exact hstop
  · rename_i hform
    exact runs_taggedStep hp hbase.has hform s
  · rename_i hform
    exact runs_genericStep hp hbase (.inl hform) s calls
  · rename_i hform
    exact runs_genericStep hp hbase (.inr hform) s calls
  · exact hstop

theorem runs_access (c : Place text) (s : Setting) :
    Runs c c s (access p) fun n d ↦ d.Has c.lo n := by
  unfold access
  rw [runs_dialect, runs_isLess]
  split
  · refine .call (le_refl c) (hp .markup c s) fun n d hcd _ ⟨hn, _⟩ ↦ ?_
    refine .call hcd (runs_expectGreater d s) fun _ e hde hce ⟨hprev, _⟩ ↦ .pure hce ?_
    exact hn.mono hde (Nat.le_refl _) (Nat.le_of_eq hprev.symm)
  · refine .call (le_refl c) (runs_primary hp c s) fun base d hcd _ hbase ↦ ?_
    split
    · exact .pure hcd hbase.has
    · exact (runs_steps hp hbase s true).last hcd fun _ _ _ hn ↦ hn

theorem runs_callee (c : Place text) (s : Setting) :
    Runs c c s (callee p) fun n d ↦ d.Has c.lo n := by
  unfold callee
  refine .call (le_refl c) (runs_primary hp c s) fun base d hcd _ hbase ↦ ?_
  exact (runs_steps hp hbase s false).last hcd fun _ _ _ hn ↦ hn

/-! ## Operators -/

omit hp in
theorem runs_checkDeletedType (c : Place text) (s : Setting) (arg : Node) :
    Runs c c s (checkDeletedType arg) Anywhere := by
  unfold checkDeletedType
  rw [runs_isTypescript]
  split
  · dsimp only
    split
    · exact .pure (le_refl c) trivial
    · exact (runs_emit c s _ _).mono fun _ _ _ _ ↦ trivial
  · exact .pure (le_refl c) trivial

omit hp in
theorem runs_checkDeleted (c : Place text) (s : Setting) (arg : Node) :
    Runs c c s (checkDeleted arg) Anywhere := by
  unfold checkDeleted
  split
  · exact .emit (le_refl c) fun d hcd _ ↦
      (runs_checkDeletedType d s arg).last hcd fun _ _ _ h ↦ h
  · exact runs_checkDeletedType c s arg

omit hp in
/-- An operator in front of its operand. -/
theorem Place.HasUpTo.unary {arg : Node} (harg : d.Has c.lo arg) (hcd : c ≤ d) (op : UnaryOp) :
    d.Has c.lo (.mk (.unary op) ⟨c.lo, arg.span.hi⟩ [arg]) := by
  apply Place.has_mk (Place.holdsAll_one harg.holds) (Place.clears_of_hasTargets rfl)
  intro hfree hwhole
  have hargWhole := hwhole arg (List.mem_singleton_self arg)
  have hseats := harg.seats hfree hargWhole
  obtain ⟨hlo, hforward, -⟩ := harg.placed hfree hargWhole
  have hle := Nat.le_trans hlo hforward
  exact ⟨Nat.le_refl _, hle, Place.seats_mk (c.opens_lo.mono hcd) hseats.closes (.inr hle)
    hseats.sits.hi_le ⟨hlo, rfl⟩ (Place.joins_of_stepBase? rfl)⟩

theorem runs_unaryWith (c : Place text) (s : Setting) (op : UnaryOp) :
    Runs c c s (unaryWith p c.lo op) fun n d ↦ d.Has c.lo n := by
  unfold unaryWith
  refine .spend (le_refl c) fun c₁ h₁ _ _ ↦ runs_here.2 ?_
  refine .call h₁ (Q := fun n d ↦ d.Has c₁.lo n) (.tryCatch (hp .unary c₁ s) fun error d hd ↦ ?_)
    fun arg c₂ h₂ hc₂ harg ↦ ?_
  · exact .call hd (runs_recover d s error) fun _ e _ hde _ ↦ .pure hde (Place.has_invalid _)
  · have hn : c₂.Has c.lo _ := (harg.from_le h₁).unary hc₂ op
    exact .when hc₂ (fun _ ↦ runs_checkDeleted c₂ s arg) fun d hd hcd ↦ .pure hcd (hn.of_le hd)

omit hp in
theorem looks_awaitsNothing : Looks awaiting.awaitsNothing := by
  unfold awaiting.awaitsNothing
  apply looks_token.bind
  intro t
  split <;> exact .pure _

theorem runs_awaiting (hform : c.cursor.token.form = .word "await" false) (s : Setting) :
    Runs c c s (awaiting p c.lo) fun n d ↦ d.Has c.lo n := by
  unfold awaiting
  rw [runs_token, runs_read]
  refine .bump (le_refl c) fun c₁ h₁ _ hprev ↦ runs_isPunct.2 ?_
  have hnamed := named_of_taken hform h₁ hprev
  refine .guard (fun _ ↦ .failHere h₁) fun _ ↦ .look looks_awaitsNothing h₁ fun _ ↦ ?_
  refine .ite (fun _ ↦ .emit h₁ fun d hd hcd ↦ .pure hcd ?_) fun _ ↦ ?_
  · exact (hnamed.of_le hd).has (.inl rfl) Place.holdsAll_nil
  · refine .when h₁ (fun _ ↦ runs_emit c₁ s _ _) fun c₂ h₂ hc₂ ↦ ?_
    refine .call hc₂ (hp .unary c₂ s) fun arg d hd hcd harg ↦ .node hcd ?_
    exact (c.opens_lo.passed (hnamed.past.mono (h₂.trans hd))).node rfl
      (Place.holdsAll_one harg.holds)

theorem runs_angleRest (hcd : c ≤ d) (s : Setting) :
    Runs c d s (angleRest p c.lo) fun n e ↦ e.Has c.lo n := by
  unfold angleRest
  refine .eatWord hcd (fun c₁ h₁ hc₁ _ ↦ ?_) ?_
  · refine .expectGreater hc₁ fun c₂ h₂ hc₂ hpast ↦ ?_
    refine .call hc₂ (hp .unary c₂ s) fun n c₃ h₃ hc₃ hn ↦ .node hc₃ ?_
    exact (c.opens_lo.passed ((hpast.of_le hc₁).mono h₃)).node rfl (Place.holdsAll_one hn.holds)
  · refine .call hcd (hp.type d s) fun t c₁ h₁ hc₁ ht ↦ ?_
    refine .expectGreater hc₁ fun c₂ h₂ hc₂ hpast ↦ ?_
    refine .call hc₂ (hp .unary c₂ s) fun n c₃ h₃ hc₃ hn ↦ .node hc₃ ?_
    exact (c.opens_lo.passed ((hpast.of_le hc₁).mono h₃)).node rfl
      (.cons hn.holds (Place.holdsAll_one (ht.part (h₂.trans h₃))))

theorem runs_angleAssertion (c : Place text) (s : Setting) :
    Runs c c s (angleAssertion p c.lo) fun n d ↦ d.Has c.lo n := by
  unfold angleAssertion
  exact .eatLess (le_refl c) (fun _ hcd _ _ ↦ runs_angleRest hp hcd s)
    (runs_angleRest hp (le_refl c) s)

theorem runs_unary (c : Place text) (s : Setting) :
    Runs c c s (unary p) fun n d ↦ d.Has c.lo n := by
  unfold unary
  rw [runs_token, runs_dialect, runs_isLess]
  split
  · exact runs_angleAssertion hp c s
  split
  · exact runs_unaryWith hp c s _
  have hchange : Runs c c s (do
      bump
      let arg ← p .unary
      checkChanged true arg
      nodeFrom c.lo .update [arg]) fun n d ↦ d.Has c.lo n := by
    refine .spend (le_refl c) fun c₁ h₁ _ hpast ↦ ?_
    refine .call h₁ (hp .unary c₁ s) fun arg c₂ h₂ hc₂ harg ↦ ?_
    refine .call hc₂ (runs_checkChanged c₂ s true arg) fun _ c₃ h₃ hc₃ hspares ↦ .node hc₃ ?_
    exact (c.opens_lo.passed (hpast.mono (h₂.trans h₃))).shaped (Node.shape_of_isPlain rfl) rfl
      (Place.clears_of_core rfl hspares) (Place.holdsAll_one (harg.part h₃))
  split
  · exact hchange
  · exact hchange
  · exact runs_awaiting hp ‹_› s
  · refine .call (le_refl c) (hp .access c s) fun n c₁ h₁ _ hn ↦ ?_
    split
    · exact .pure h₁ hn
    · rw [runs_token]
      split
      · refine .call h₁ (runs_checkChanged c₁ s true n) fun _ c₂ h₂ hc₂ hspares ↦ ?_
        refine .spend hc₂ fun c₃ h₃ hc₃ hpast ↦ .node hc₃ ?_
        exact (c.opens_lo.passed (hpast.of_le hc₂)).shaped (Node.shape_of_isPlain rfl) rfl
          (Place.clears_of_core rfl fun herrors ↦ hspares (Place.errors_of_le h₃ herrors))
          (Place.holdsAll_one (hn.part (h₂.trans h₃)))
      · exact .pure h₁ hn

omit hp in
theorem looks_binaryOp? : Looks binaryOp? := by
  unfold binaryOp?
  apply looks_form.bind
  intro t
  split
  · exact .pure _
  · exact .bind looks_read fun _ ↦ .pure _
  · exact .pure _
  · exact .pure _

/-- A node that starts where the operand does that it was made of, and that was read last if the
operand was. -/
structure Grows (c : Place text) (left n : Node) (d : Place text) : Prop where
  has : ∀ lo, c.Has lo left → d.Has lo n
  trails : c.Trails left → d.Trails n

omit hp in
theorem Grows.refl (c : Place text) (left : Node) : Grows c left left c :=
  ⟨fun _ ↦ id, id⟩

omit hp in
theorem Grows.trans {left n m : Node} (h : Grows c left n d) (h' : Grows d n m e) :
    Grows c left m e :=
  ⟨fun lo hleft ↦ h'.has lo (h.has lo hleft), fun hleft ↦ h'.trails (h.trails hleft)⟩

omit hp in
theorem Grows.of_le {left n : Node} (h : Grows c left n d) (hde : d ≤ e)
    (hkind : n.kind.onPath = false) : Grows c left n e :=
  ⟨fun lo hleft ↦ (h.has lo hleft).of_le hde, fun _ ↦ Place.trails_of_onPath hkind⟩

omit hp in
theorem Grows.node {left n : Node} {kind : Kind} {cs : List Node} (h : Grows c left n d)
    (hde : d ≤ e) (hkind : kind.isCommon = true) (hn : n ∈ cs)
    (hparts : ∀ m ∈ cs, m = n ∨ e.Holds m) :
    Grows c left (.mk kind ⟨n.span.lo, e.prevEnd⟩ cs) e := by
  refine ⟨fun lo hleft ↦ ?_, fun _ ↦ Place.trails_of_prevEnd rfl⟩
  have hbase := (h.has lo hleft).of_le hde
  have hplain := Kind.isPlain_of_isCommon hkind
  refine hbase.grow hn (fun m hm ↦ ?_)
    (Place.clears_of_hasTargets (Kind.hasTargets_of_isCommon hkind))
    (fun _ _ ↦ Node.shape_of_isPlain hplain) fun _ _ ↦ Place.joins_of_isPlain hplain
  obtain rfl | hm := hparts m hm
  · exact hbase.holds
  · exact hm

theorem runs_assertions (c : Place text) (s : Setting) (floor : Nat) (left : Node) :
    Runs c c s (assertions p floor left) (Grows c left) := by
  unfold assertions
  refine runs_iterate (Grows c left) (.refl c left) fun n d _ hn ↦ ?_
  have hstop : Runs d d s (pure (.inr n)) (Next (Grows c left) (Grows c left)) :=
    .pure (le_refl d) hn
  have htyped : ∀ (kind : Kind) (e : Place text), kind.isCommon = true → d ≤ e → Runs d e s (do
      let t ← p .type
      return .inl (← nodeFrom n.span.lo kind [n, t])) (Next (Grows c left) (Grows c left)) := by
    intro kind e hkind hde
    refine .call hde (hp.type e s) fun t e₁ h₁ he₁ ht ↦ runs_nodeFrom.2 (.pure he₁ ?_)
    exact hn.node he₁ hkind List.mem_cons_self (by simpa using .inr ht.holds)
  have hsatisfies : Runs d d s (do
      if ← isWord "satisfies" then
        bump
        let t ← p .type
        return .inl (← nodeFrom n.span.lo .satisfies [n, t])
      return .inr n) (Next (Grows c left) (Grows c left)) := by
    rw [runs_isWord]
    split
    · exact .spend (le_refl d) fun e hde _ _ ↦ htyped _ e rfl hde
    · exact hstop
  rw [runs_isTypescript, runs_token]
  split
  · exact hstop
  rw [runs_isWord]
  refine .ite (fun _ ↦ .spend (le_refl d) fun e hde _ _ ↦ ?_) fun _ ↦ hsatisfies
  refine .eatWord hde (fun e₁ h₁ he₁ _ ↦ runs_nodeFrom.2 (.pure he₁ ?_)) (htyped _ e rfl hde)
  exact hn.node he₁ rfl List.mem_cons_self (by simp)

omit hp in
/-- An operator between two operands. -/
theorem Place.HasUpTo.binary {left right : Node} (hleft : c.Has lo left) (hcd : c ≤ d)
    (hright : e.Has d.lo right) (hde : d ≤ e) (op : BinaryOp) :
    e.Has lo (.mk (.binary op) (left.span.upTo right.span) [left, right]) := by
  have hleft' := hleft.of_le (hcd.trans hde)
  apply Place.has_mk (Place.HoldsAll.cons hleft'.holds (Place.holdsAll_one hright.holds))
    (Place.clears_of_hasTargets rfl)
  intro hfree hwhole
  obtain ⟨hleftWhole, hrightWhole⟩ : left.Whole ∧ right.Whole := by simpa using hwhole
  have horder := hleft.hi_le hcd hright hde hfree hleftWhole hrightWhole
  have hleftPlace := hleft'.placed hfree hleftWhole
  have hrightPlace := hright.placed hfree hrightWhole
  have hrightSeats := hright.seats hfree hrightWhole
  have hle : left.span.lo ≤ right.span.hi := by omega
  exact ⟨hleftPlace.1, hle, Place.seats_mk (hleft'.seats hfree hleftWhole).opens hrightSeats.closes
    (.inr hle) hrightSeats.sits.hi_le ⟨rfl, hleftPlace.2.1, horder, hrightPlace.2.1, rfl⟩
    (Place.joins_of_stepBase? rfl)⟩

theorem runs_climbOnce (c : Place text) (s : Setting) (floor : Nat) (left : Node) :
    Runs c c s (climbOnce p floor left) fun r d ↦ Grows c left r.1 d := by
  unfold climbOnce
  refine .call (le_refl c) (runs_assertions hp c s floor left) fun n c₁ h₁ _ hn ↦ ?_
  refine .look looks_binaryOp? h₁ fun op? ↦ ?_
  cases op? with
  | none => exact .pure h₁ hn
  | some op =>
    dsimp only
    split
    · exact .pure h₁ hn
    refine .spend h₁ fun c₂ h₂ hc₂ _ ↦ .guard (fun _ ↦ .failHere hc₂) fun _ ↦ ?_
    refine .call hc₂ (hp .unary c₂ s) fun first c₃ h₃ hc₃ hfirst ↦ ?_
    refine .call hc₃ (hp (.climb first _) c₃ s) fun right c₄ h₄ hc₄ hright ↦ ?_
    have hright : c₄.Has c₂.lo right := hright.1 c₂.lo hfirst
    have hclose : ∀ d, c₄ ≤ d → Runs c d s
        (pure (Node.binary op (n.span.upTo right.span) n right, true))
        fun r d ↦ Grows c left r.1 d := fun d hd ↦ .pure (hc₄.trans hd) ⟨fun lo hleft ↦
      ((hn.has lo hleft).binary h₂ hright (h₃.trans h₄) op).of_le hd,
      fun _ ↦ Place.trails_of_onPath rfl⟩
    refine .ite (fun _ ↦ ?_) fun _ ↦ hclose c₄ (le_refl c₄)
    refine .when hc₄ (fun _ ↦ runs_emit c₄ s _ _) fun c₅ h₅ hc₅ ↦ ?_
    exact .when hc₅ (fun _ ↦ runs_emit c₅ s _ _) fun c₆ h₆ _ ↦ hclose c₆ (h₅.trans h₆)

omit hp in
theorem onPath_of_hasNullishLeft {n : Node} (h : hasNullishLeft n = true) :
    n.kind.onPath = false := by
  unfold hasNullishLeft at h
  split at h
  · rfl
  · rfl
  · cases h

theorem runs_climb (c : Place text) (s : Setting) (left : Node) (floor : Nat) :
    Runs c c s (climb p left floor) (Grows c left) := by
  unfold climb
  refine runs_iterate (Grows c left) (.refl c left) fun n d _ hn ↦ ?_
  refine .call (le_refl d) (runs_climbOnce hp d s floor n) fun r e hde _ hr ↦ ?_
  have hnext : Grows c left r.1 e := hn.trans hr
  obtain ⟨m, more⟩ := r
  have hclose : ∀ e₁, d ≤ e₁ → Grows c left m e₁ → Runs d e₁ s
      (pure (if more then Sum.inl m else Sum.inr m)) (Next (Grows c left) (Grows c left)) := by
    intro e₁ he₁ hnext
    refine .pure he₁ ?_
    split <;> exact hnext
  refine .ite (fun hnullish ↦ ?_) fun _ ↦ hclose e hde hnext
  exact .call hde (runs_emit e s _ _) fun _ e₁ h₁ he₁ _ ↦
    hclose e₁ he₁ (hnext.of_le h₁ (onPath_of_hasNullishLeft hnullish))

theorem runs_binary (c : Place text) (s : Setting) :
    Runs c c s (binary p) fun n d ↦ d.Has c.lo n := by
  unfold binary
  refine .call (le_refl c) (Q := fun n d ↦ d.Has c.lo n) (.tryCatch (hp .unary c s)
    fun error d hcd ↦ ?_) fun left d hcd _ hleft ↦ ?_
  · refine .rejectInvalid hcd (runs_token.2 (.look looks_binaryOp? hcd fun op? ↦ ?_))
    split
    · exact .emit hcd fun e _ hce ↦ .pure hce (Place.has_invalid _)
    · split
      · exact .failAtEnd hcd
      · exact .throw hcd
  · split
    · exact .pure hcd hleft
    · exact (hp (.climb left 0) d s).last hcd fun _ _ _ hn ↦ hn.1 c.lo hleft

theorem runs_conditional (c : Place text) (s : Setting) :
    Runs c c s (conditional p) fun n d ↦ d.Has c.lo n := by
  unfold conditional
  rw [runs_here]
  refine .call (le_refl c) (runs_binary hp c s) fun test c₁ h₁ _ htest ↦ ?_
  split
  · exact .pure h₁ htest
  refine .eat h₁ (fun c₂ h₂ hc₂ hpast ↦ ?_) (.pure (s := s) h₁ htest)
  refine .call hc₂ (runs_within.2 (hp .assignment c₂ _)) fun yes c₃ h₃ hc₃ hyes ↦ ?_
  refine .expect hc₃ fun c₄ h₄ hc₄ _ ↦ ?_
  refine .call hc₄ (runs_within.2 (hp .assignment c₄ _)) fun no c₅ h₅ hc₅ hno ↦ .node hc₅ ?_
  have hlate := h₃.trans (h₄.trans h₅)
  exact (c.opens_lo.passed ((hpast.of_le h₁).mono hlate)).node rfl
    (.cons (htest.part (h₂.trans hlate)) (.cons (hyes.part (h₄.trans h₅))
      (Place.holdsAll_one hno.holds)))

/-! ## Assignments -/

omit hp in
theorem looks_yieldsNothing : Looks yieldsNothing := by
  unfold yieldsNothing
  apply looks_token.bind
  intro t
  split
  · exact .pure _
  · split <;> exact .pure _

omit hp in
theorem yieldsNothing_of_newline {c : Cursor} (hline : c.token.newline = true) (s : Setting) :
    yieldsNothing s c = .ok true c := by
  unfold yieldsNothing
  change (if c.token.newline then pure true else _ : Parser Bool) s c = _
  rw [if_pos hline]
  rfl

omit hp in
theorem newline_of_yieldsNothing {c c' : Cursor} {s : Setting}
    (h : yieldsNothing s c = .ok false c') : c.token.newline = false := by
  cases hline : c.token.newline with
  | false => rfl
  | true =>
    rw [yieldsNothing_of_newline hline] at h
    cases h

theorem runs_yielding (hform : c.cursor.token.form = .word "yield" false) (s : Setting) :
    Runs c c s (yielding p) fun n d ↦ d.Has c.lo n := by
  unfold yielding
  rw [runs_here]
  refine .advance (le_refl c) fun c₁ h₁ _ hpast hnext ↦ .lookAt looks_yieldsNothing h₁
    fun nothing hnothing ↦ ?_
  have hpassed := c.opens_lo.passed hpast
  cases nothing with
  | true => exact .node h₁ (hpassed.shaped (.inl rfl) rfl (Place.clears_of_hasTargets rfl)
      (Place.holdsAll_one Place.holds_absent))
  | false =>
    have hline := Place.keepsLine hform hnext (newline_of_yieldsNothing hnothing)
    refine .eatAny h₁ fun _ c₂ h₂ hc₂ ↦ ?_
    refine .call hc₂ (hp .assignment c₂ s) fun n c₃ h₃ hc₃ hn ↦ .node hc₃ ?_
    exact (hpassed.mono (h₂.trans h₃)).shaped (.inr hline) rfl (Place.clears_of_hasTargets rfl)
      (Place.holdsAll_one hn.holds)

theorem runs_assignmentBase (c : Place text) (s : Setting) :
    Runs c c s (assignmentBase p) fun n d ↦ d.Has c.lo n := by
  unfold assignmentBase
  rw [runs_read, runs_isWord]
  split
  · rename_i hyield
    exact runs_yielding hp (by simpa using (Bool.and_eq_true_iff.1 hyield).2) s
  refine .rejectInvalid (le_refl c) (runs_here.2 ?_)
  refine .call (le_refl c) (runs_conditional hp c s) fun left c₁ h₁ _ hleft ↦ ?_
  split
  · exact .pure h₁ hleft
  have hvalue : ∀ (target : Node) (d : Place text), c ≤ d → d.Has c.lo target → Spares target d →
      Runs c d s (do
        bump
        let value ← p .assignment
        nodeFrom c.lo .assign [target, value]) fun n d ↦ d.Has c.lo n := by
    intro target d hcd htarget hspares
    refine .spend hcd fun d₁ h₁ hcd₁ hpast ↦ ?_
    refine .call hcd₁ (hp .assignment d₁ s) fun value d₂ h₂ hcd₂ hvalue ↦ .node hcd₂ ?_
    exact (c.opens_lo.passed ((hpast.of_le hcd).mono h₂)).shaped (Node.shape_of_isPlain rfl) rfl
      (Place.clears_of_core rfl fun herrors ↦ hspares (Place.errors_of_le (h₁.trans h₂) herrors))
      (.cons (htarget.part (h₁.trans h₂)) (Place.holdsAll_one hvalue.holds))
  rw [runs_form]
  split
  · refine .call h₁ (runs_assignmentTarget hleft s) fun target d _ hcd htarget ↦ ?_
    exact hvalue target d hcd htarget.1 htarget.2
  · refine .call h₁ (runs_checkChanged c₁ s false left) fun _ d hd hcd hspares ↦ ?_
    exact .guard (fun _ ↦ .failAt hcd) fun _ ↦ hvalue left d hcd (hleft.of_le hd) hspares
  · exact .pure h₁ hleft

theorem runs_arrowOrBase (hlo : c.Opens lo) (hle : lo ≤ c.lo) (s : Setting) :
    Runs c c s (do
      match ← arrow? p lo false true with
      | some n => return n
      | none => assignmentBase p) fun n d ↦ d.Has lo n := by
  refine .call (le_refl c) (runs_arrow? hp hlo s false true) fun n? d _ hcd hn ↦ ?_
  cases n? with
  | some n => exact .pure hcd (hn n rfl).1
  | none =>
    exact (runs_assignmentBase hp d s).last hcd fun _ e _ hn ↦
      (hn.from_le hcd).mono (le_refl e) hle (Nat.le_refl _)

theorem runs_assignment (c : Place text) (s : Setting) :
    Runs c c s (assignment p) fun n d ↦ d.Has c.lo n := by
  unfold assignment
  rw [runs_dialect, runs_isLess]
  split
  · rw [runs_here]
    split
    · refine .attempt (le_refl c) (runs_assignmentBase hp c s) (fun n d _ hcd hn ↦ .pure hcd hn)
        fun d hcd _ ↦ ?_
      exact (runs_arrowOrBase hp (c.opens_lo.mono hcd) (Place.lo_le hcd) s).last hcd
        fun _ _ _ hn ↦ hn
    · exact runs_arrowOrBase hp c.opens_lo (Nat.le_refl _) s
  · exact runs_assignmentBase hp c s

theorem runs_expression (c : Place text) (s : Setting) :
    Runs c c s (expression p) fun n d ↦ d.Has c.lo n := by
  unfold expression
  rw [runs_here]
  refine .call (le_refl c) (hp .assignment c s) fun first c₁ h₁ hc₁ hfirst ↦ runs_isPunct.2 ?_
  split
  · refine .call h₁ (runs_iterate (Q := fun ns d ↦ first ∈ ns ∧ d.HasAll c.lo ns)
      (fun ns d ↦ first ∈ ns ∧ d.HasAll c.lo ns) ?_ fun ns d hd ⟨hmem, hns⟩ ↦ ?_)
      fun ns d hd hcd ⟨hmem, hns⟩ ↦ .node hcd ?_
    · exact ⟨List.mem_singleton_self first, fun n hn ↦ by rwa [List.mem_singleton.1 hn]⟩
    · refine .eat (le_refl d) (fun d₁ h₁ _ _ ↦ ?_) (.pure (s := s) (le_refl d) ⟨hmem, hns⟩)
      refine .call h₁ (hp .assignment d₁ s) fun n e h₂ hde hn ↦ .pure hde ?_
      exact ⟨List.mem_append_left _ hmem,
        (hns.of_le h₁).append h₂ (hn.from_le (hc₁.trans (hd.trans h₁)))⟩
    · exact (hns first hmem).node hmem (c.opens_lo.mono hcd) rfl (hns.part (le_refl d))
  · exact .pure h₁ hfirst

end

end OptionalChain.Grammar
