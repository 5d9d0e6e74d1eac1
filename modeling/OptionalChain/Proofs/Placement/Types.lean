import OptionalChain.Proofs.Placement.Names

/-!
# Places of types

The nodes of the type language sit in the text that they were read from.
-/

namespace OptionalChain.Grammar

open Text (At Boundary)

variable {text : List Char} {w c d : Place text} {s : Setting} {lo : Nat}

/-- The token is the first word of a statement that leaves a function. -/
def Place.IsExit (c : Place text) : Prop :=
  c.cursor.token.form = .word "return" false ∨ c.cursor.token.form = .word "throw" false

/-- What the parser for a goal has read when it was started at `c`. Operators after an operand give
a node that starts no later than the operand did, and that was read last if the operand was. Markup
is left at the bracket that ends it. -/
def Goal.Reads (c : Place text) : Goal → Node → Place text → Prop
  | .climb left _, n, d => (∀ lo, c.Has lo left → d.Has lo n) ∧ (c.Trails left → d.Trails n)
  | .markup, n, d => d.HasUpTo c.lo (d.lo + 1) n ∧ d.cursor.text.head? = some '>'
  | .statement, n, d => d.Has c.lo n ∧ (n.kind.isPlain = true ∨ c.IsExit)
  | .block, n, d => d.Has c.lo n ∧ n.kind.isPlain = true
  | .type, n, d => d.Has c.lo n ∧ n.IsType
  | .binding, n, d => d.Has c.lo n ∧ n.IsPattern
  | _, n, d => d.Has c.lo n

/-- The parsers for all goals read nodes that sit in the text. -/
def Sound (text : List Char) (p : Parts) : Prop :=
  ∀ goal (c : Place text) (s : Setting), Runs c c s (p goal) (goal.Reads c)

variable {p : Parts}

theorem Sound.type (hp : Sound text p) (c : Place text) (s : Setting) :
    Runs c c s (p .type) fun n d ↦ d.Has c.lo n :=
  (hp .type c s).mono fun _ _ _ hn ↦ hn.1

theorem Sound.binding (hp : Sound text p) (c : Place text) (s : Setting) :
    Runs c c s (p .binding) fun n d ↦ d.Has c.lo n :=
  (hp .binding c s).mono fun _ _ _ hn ↦ hn.1

/-- A type that starts at `lo` or later was read. -/
structure Typed (lo : Nat) (n : Node) (d : Place text) : Prop where
  has : d.Has lo n
  isType : n.IsType

theorem Typed.of_le {n : Node} (h : Typed lo n c) (hcd : c ≤ d) : Typed lo n d :=
  ⟨h.has.of_le hcd, h.isType⟩

theorem Typed.from_le {n : Node} {b : Place text} (h : Typed c.lo n d) (hbc : b ≤ c) :
    Typed b.lo n d :=
  ⟨h.has.from_le hbc, h.isType⟩

/-- The errors in a type do not matter to what is kept of it. -/
theorem survives_isType :
    Survives (fun n (d : Place text) ↦ d.LiesUpTo d.prevEnd n ∧ n.IsType) fun n d ↦ d.Holds n :=
  fun _ _ _ hspot hn ↦ ⟨hn.1.of_sameSpot hspot, Place.admits_of_isType hn.2⟩

/-- A type that ends with the last token. -/
theorem Place.Passed.type {form : TypeForm} {cs : List Node} (h : c.Passed lo)
    (hparts : c.HoldsAll cs) : Typed lo (.mk (.type form) ⟨lo, c.prevEnd⟩ cs) c :=
  ⟨h.node rfl hparts, form, rfl⟩

/-! ## Names, arguments and parameters -/

theorem runs_entityName_more (fuel : Nat) (c : Place text) (qualified : Bool) :
    Runs c c s (entityName.more fuel qualified) Anywhere := by
  induction fuel generalizing c qualified with
  | zero => exact .pure (le_refl c) trivial
  | succ fuel ih =>
    unfold entityName.more
    refine .eat (le_refl c) (fun d _ hcd _ ↦ ?_) (.pure (le_refl c) trivial)
    refine .call hcd (runs_anyWord d s) fun _ e _ hce _ ↦ ?_
    exact (ih e true).last hce fun _ _ _ _ ↦ trivial

theorem runs_entityName (c : Place text) (s : Setting) :
    Runs c c s entityName fun n d ↦ c.Past d ∧ d.Has c.lo n := by
  unfold entityName
  rw [runs_here]
  refine .call (le_refl c) (runs_anyWord c s) fun x d _ hcd hx ↦ ?_
  rw [runs_budget]
  refine .call hcd (runs_entityName_more s.budget d false) fun qualified e hde hce _ ↦ ?_
  have hpast := hx.past.mono hde
  split
  · exact .node hce ⟨hpast, (c.opens_lo.passed hpast).node rfl Place.holdsAll_nil⟩
  · exact .pure hce ⟨hpast, ((hx.of_le hde).has (.inl rfl) Place.holdsAll_nil)⟩

section

variable (hp : Sound text p)

include hp

theorem runs_typesUntilGreater (c : Place text) (s : Setting) :
    Runs c c s (typesUntilGreater p) (Listed c) := by
  unfold typesUntilGreater
  refine runs_iterate (fun ns d ↦ d.HasAll c.lo ns) Place.hasAll_nil fun ns d hcd hns ↦ ?_
  rw [runs_get]
  split
  · exact .expectGreater (le_refl d) fun e hde _ hpast ↦
      .pure hde ⟨hpast.of_le hcd, hns.of_le hde⟩
  · refine .call (le_refl d) (hp.type d s) fun n e hde _ hn ↦ ?_
    have hall := hns.append hde (hn.from_le hcd)
    refine .eat hde (fun e' hee' hde' _ ↦ .pure hde' (hall.of_le hee')) ?_
    exact .expectGreater hde fun e' hee' hde' hpast ↦
      .pure hde' ⟨hpast.of_le (hcd.trans hde), hall.of_le hee'⟩

theorem runs_typeArguments (c : Place text) (s : Setting) :
    Runs c c s (typeArguments p) fun n d ↦ n.span.lo = c.lo ∧ Typed c.lo n d := by
  unfold typeArguments
  rw [runs_here]
  refine .eatLess (le_refl c) (fun d _ hcd hpast ↦ ?_) (.stop (.failExpected (le_refl c)))
  refine .call hcd (runs_typesUntilGreater hp d _) fun ns e hde hce hns ↦ ?_
  have hnode : Typed c.lo (.mk (.type .arguments) ⟨c.lo, e.prevEnd⟩ ns) e :=
    ((c.opens_lo.passed hpast).mono hde).type (hns.all.part (le_refl e))
  rw [runs_nodeFrom]
  refine .when hce (fun _ ↦ runs_emit e s _ _) fun e' hee' hce' ↦ ?_
  exact .pure hce' ⟨rfl, hnode.of_le hee'⟩

theorem runs_typeArguments? (c : Place text) (s : Setting) :
    Runs c c s (typeArguments? p) fun n d ↦ d.Holds n := by
  unfold typeArguments?
  rw [runs_isLess, runs_token]
  split
  · exact (runs_typeArguments hp c s).mono fun n d _ hn ↦ hn.2.has.holds
  · exact .pure (le_refl c) Place.holds_absent

omit hp in
theorem runs_typeParameter_skip (modifiers : List String) (fuel : Nat) (c : Place text) :
    Runs c c s (typeParameter.skip modifiers fuel) Anywhere := by
  induction fuel generalizing c with
  | zero => exact .pure (le_refl c) trivial
  | succ fuel ih =>
    unfold typeParameter.skip
    rw [runs_form, runs_peek]
    split
    · refine .look (.bind looks_peek fun _ ↦ .pure _) (le_refl c) fun _ ↦ ?_
      split
      · exact .spend (le_refl c) fun d _ hcd _ ↦ (ih d).last hcd fun _ _ _ _ ↦ trivial
      · exact .pure (le_refl c) trivial
    · exact .pure (le_refl c) trivial

/-- A type after a word or mark, if it stands there. -/
theorem runs_typePart (c : Place text) (s : Setting) :
    Runs c c s (p .type) fun n d ↦ d.Holds n :=
  (hp.type c s).mono fun _ _ _ hn ↦ hn.holds

omit hp in
theorem runs_noPart (c : Place text) (s : Setting) :
    Runs c c s (pure Node.absent) fun n d ↦ d.Holds n :=
  .pure (le_refl c) Place.holds_absent

theorem runs_typeParameter (c : Place text) (s : Setting) :
    Runs c c s (typeParameter p) fun n d ↦ d.Has c.lo n := by
  unfold typeParameter
  rw [runs_here]
  refine .call (le_refl c) (runs_typeParameter_skip _ 3 c) fun _ c₁ h₁ _ _ ↦ ?_
  refine .call h₁ (runs_anyWord c₁ s) fun _ c₂ _ hc₂ hx ↦ ?_
  refine .eatWordThen hc₂ (fun d _ _ ↦ runs_typePart hp d s) (runs_noPart c₂ s)
    fun bound c₃ h₃ hc₃ hbound ↦ ?_
  refine .eatThen hc₃ (fun d _ _ ↦ runs_typePart hp d s) (runs_noPart c₃ s)
    fun fallback c₄ h₄ hc₄ hfallback ↦ .node hc₄ ?_
  exact ((c.opens_lo.mono h₁).passed (hx.past.mono (h₃.trans h₄))).node rfl
    (.cons (hbound.of_le h₄) (Place.holdsAll_one hfallback))

theorem runs_typeParameters (c : Place text) (s : Setting) :
    Runs c c s (typeParameters p) fun n d ↦ c.Past d ∧ d.Has c.lo n := by
  unfold typeParameters
  rw [runs_here]
  refine .eatLess (le_refl c) (fun d _ hcd hpast ↦ ?_) (.stop (.failExpected (le_refl c)))
  refine .call hcd (Q := Listed d) ?_ fun ns e hde hce hns ↦ .node hce ?_
  · refine runs_iterate (fun ns e ↦ e.HasAll d.lo ns) Place.hasAll_nil fun ns e hde hns ↦ ?_
    rw [runs_get]
    split
    · exact .expectGreater (le_refl e) fun e' hee' _ hpast ↦
        .pure hee' ⟨hpast.of_le hde, hns.of_le hee'⟩
    · refine .call (le_refl e) (runs_typeParameter hp e s) fun n e' hee' _ hn ↦ ?_
      have hall := hns.append hee' (hn.from_le hde)
      refine .eat hee' (fun e'' hee'' he'' _ ↦ .pure he'' (hall.of_le hee'')) ?_
      exact .expectGreater hee' fun e'' hee'' he'' hpast ↦
        .pure he'' ⟨hpast.of_le (hde.trans hee'), hall.of_le hee''⟩
  · exact ⟨hpast.mono hde, ((c.opens_lo.passed hpast).mono hde).node rfl (hns.all.part (le_refl e))⟩

theorem runs_typeParameters? (c : Place text) (s : Setting) :
    Runs c c s (typeParameters? p) fun n d ↦ d.Holds n := by
  unfold typeParameters?
  rw [runs_isTypescript, runs_isLess]
  split
  · exact (runs_typeParameters hp c s).mono fun n d _ hn ↦ hn.2.holds
  · exact .pure (le_refl c) Place.holds_absent

theorem runs_signatureParameter (c : Place text) (s : Setting) :
    Runs c c s (signatureParameter p) fun n d ↦ d.Has c.lo n := by
  unfold signatureParameter
  rw [runs_here]
  refine .eat (le_refl c) (fun d _ hcd hpast ↦ ?_) (hp.binding c s)
  refine .call hcd (hp .binding d s) fun n e hde hce ⟨hn, hpattern⟩ ↦ .node hce ?_
  exact ((c.opens_lo.passed hpast).mono hde).shaped (Node.shape_of_isPlain rfl) rfl
    (Place.clears_of_steps rfl fun _ ↦ by simp [hpattern.isStep]) (Place.holdsAll_one hn.holds)

theorem runs_signatureParameters (c : Place text) (s : Setting) :
    Runs c c s (signatureParameters p) fun n d ↦ c.Past d ∧ d.Has c.lo n := by
  unfold signatureParameters
  rw [runs_here]
  refine .expect (le_refl c) fun d _ hcd hpast ↦ ?_
  refine .call hcd (runs_openList fun e _ ↦ runs_signatureParameter hp e s) fun ns e hde hce hns ↦
    .node hce ⟨hpast.mono hde, ?_⟩
  exact ((c.opens_lo.passed hpast).mono hde).node rfl (hns.all.part (le_refl e))

/-- A type after the words of a predicate. -/
theorem runs_predicate (hlo : c.Passed lo) (s : Setting) :
    Runs c c s (do
      let t ← p .type
      nodeFrom lo (.type .predicate) [t]) fun n d ↦ d.Has lo n := by
  refine .call (le_refl c) (hp.type c s) fun t d hcd _ ht ↦ .node hcd ?_
  exact (hlo.mono hcd).node rfl (Place.holdsAll_one ht.holds)

theorem runs_returnType (c : Place text) (s : Setting) :
    Runs c c s (returnType p) fun n d ↦ d.Has c.lo n := by
  unfold returnType
  rw [runs_here]
  refine runs_peekTwo fun t ↦ ?_
  rw [runs_form]
  have htype : Runs c c s (p .type) fun n d ↦ d.Has c.lo n := hp.type c s
  have hafter : ∀ d, c ≤ d → c.Past d → Runs c d s (do
      bump
      let t ← p .type
      nodeFrom c.lo (.type .predicate) [t]) fun n e ↦ e.Has c.lo n := fun d hcd hpast ↦
    .spend hcd fun e hde hce _ ↦
      (runs_predicate hp (c.opens_lo.passed (hpast.mono hde)) s).last hce fun _ _ _ h ↦ h
  split
  · split
    · exact htype
    · exact .spend (le_refl c) fun d _ hcd hpast ↦ .spend hcd fun e hde hce _ ↦
        hafter e hce (hpast.mono hde)
  · split
    · split
      · exact .spend (le_refl c) fun d _ hcd hpast ↦ hafter d hcd hpast
      · exact htype
    · refine .spend (le_refl c) fun d _ hcd hpast ↦ .spend hcd fun e hde hce _ ↦ .node hce ?_
      exact (c.opens_lo.passed (hpast.mono hde)).node rfl Place.holdsAll_nil
  · split
    · exact htype
    · exact .spend (le_refl c) fun d _ hcd hpast ↦ hafter d hcd hpast
  · exact htype

theorem runs_annotationType? (c : Place text) (s : Setting) :
    Runs c c s (annotation? p) fun n d ↦ d.Holds n ∧ n.isStep = false := by
  unfold annotation?
  rw [runs_isTypescript, runs_isPunct]
  split
  · exact .spend (le_refl c) fun d _ hcd _ ↦ (hp .type d _).last hcd fun _ _ _ hn ↦
      ⟨hn.1.holds, hn.2.isStep⟩
  · exact .pure (le_refl c) ⟨Place.holds_absent, rfl⟩

theorem runs_annotation? (c : Place text) (s : Setting) :
    Runs c c s (annotation? p) fun n d ↦ d.Holds n :=
  (runs_annotationType? hp c s).mono fun _ _ _ hn ↦ hn.1

theorem runs_returnAnnotation? (c : Place text) (s : Setting) :
    Runs c c s (returnAnnotation? p) fun n d ↦ d.Holds n := by
  unfold returnAnnotation?
  rw [runs_isTypescript, runs_isPunct]
  split
  · exact .spend (le_refl c) fun d _ hcd _ ↦
      (runs_returnType hp d _).last hcd fun _ _ _ hn ↦ hn.holds
  · exact .pure (le_refl c) Place.holds_absent

/-! ## Members -/

omit hp in
/-- A property name. One that is a word was read as that word. -/
structure Keyed (c : Place text) (n : Node) (d : Place text) : Prop where
  past : c.Past d
  has : d.Has c.lo n
  named : ∀ name escaped, c.cursor.token.form = .word name escaped →
    Named c (name, c.cursor.token.span) d

theorem runs_propertyKey (c : Place text) (s : Setting) :
    Runs c c s (propertyKey p) (Keyed c) := by
  unfold propertyKey
  rw [runs_token]
  have hleaf : ∀ kind : Kind, kind.isCommon = true →
      (∀ name escaped, c.cursor.token.form ≠ .word name escaped) → Runs c c s (do
        bump
        return .mk kind c.cursor.token.span []) (Keyed c) := fun kind hkind hform ↦
    .bump (le_refl c) fun d _ hcd hprev ↦ .pure hcd
      ⟨Place.past_of_taken hcd (Nat.le_of_eq hprev.symm),
        Place.has_leaf hkind hcd hprev, fun _ _ h ↦ absurd h (hform _ _)⟩
  split
  · rename_i name escaped hform
    refine .bump (le_refl c) fun d _ hcd hprev ↦ .pure hcd ?_
    have hx := named_of_taken hform hcd hprev
    exact ⟨hx.past, hx.has (.inr (.inl rfl)) Place.holdsAll_nil,
      fun _ _ h ↦ named_of_taken h hcd hprev⟩
  · rename_i hform
    exact hleaf _ rfl (by simp [hform])
  · rename_i hform
    exact hleaf _ rfl (by simp [hform])
  · rename_i hform
    exact hleaf _ rfl (by simp [hform])
  · rename_i hform
    refine .spend (le_refl c) fun d _ hcd hpast ↦ ?_
    refine .call hcd (hp .assignment d _) fun e c₂ h₂ hc₂ he ↦ .expect hc₂ fun c₃ h₃ hc₃ _ ↦ ?_
    refine .node hc₃ ⟨hpast.mono (h₂.trans h₃), ?_, by simp [hform]⟩
    exact ((c.opens_lo.passed hpast).mono (h₂.trans h₃)).node rfl (Place.holdsAll_one (he.part h₃))
  · rename_i hform
    exact (runs_privateName c s).mono fun n d _ h ↦ ⟨h.1, h.2.1, by simp [hform]⟩
  · exact .failAtEnd (le_refl c)
  · exact .failHere (le_refl c)

omit hp in
theorem Runs.memberSeparator {β : Type} {R : β → Place text → Prop} {f : Unit → Parser β}
    (hw : w ≤ c) (h : ∀ d, c ≤ d → w ≤ d → Runs w d s (f ()) R) :
    Runs w c s (Grammar.memberSeparator >>= f) R := by
  unfold Grammar.memberSeparator
  rw [bind_assoc]
  exact .eat hw (fun d hcd hwd _ ↦ h d hcd hwd) (.expectSemicolon hw h)

omit hp in
theorem looks_startsIndex : Looks startsIndex := by
  refine .bind looks_form fun _ ↦ .bind looks_peekTwo fun _ ↦ ?_
  split
  · split <;> exact .pure _
  · exact .pure _

theorem runs_indexSignature (hlo : c.Opens lo) (s : Setting) :
    Runs c c s (indexSignature p lo) fun n d ↦
      d.Has lo n ∧ n.kind = .type .index ∧ ∀ m ∈ n.children, d.Admits m := by
  unfold indexSignature
  refine .expect (le_refl c) fun c₁ h₁ hc₁ hpast ↦ ?_
  refine .call hc₁ (runs_anyWord c₁ s) fun _ c₂ h₂ hc₂ _ ↦ .expect hc₂ fun c₃ h₃ hc₃ _ ↦ ?_
  refine .call hc₃ (hp.type c₃ s) fun key c₄ h₄ hc₄ hkey ↦ .expect hc₄ fun c₅ h₅ hc₅ _ ↦ ?_
  refine .call hc₅ (runs_annotation? hp c₅ s) fun type c₆ h₆ hc₆ htype ↦ ?_
  refine .memberSeparator hc₆ fun c₇ h₇ hc₇ ↦ .node hc₇ ?_
  have hlate : c₁ ≤ c₇ := h₂.trans (h₃.trans (h₄.trans (h₅.trans (h₆.trans h₇))))
  have hparts : c₇.HoldsAll [key, type] :=
    .cons (hkey.part (h₅.trans (h₆.trans h₇))) (Place.holdsAll_one (htype.of_le h₇))
  exact ⟨(hlo.passed (hpast.mono hlate)).node rfl hparts, rfl, fun m hm ↦ (hparts m hm).admits⟩

theorem runs_signature (hlo : c.Opens lo) (kind : TypeForm) (s : Setting) :
    Runs c c s (signature p lo kind) fun n d ↦ d.Has lo n := by
  unfold signature
  refine .call (le_refl c) (runs_typeParameters? hp c s) fun typeParams c₁ h₁ hc₁ htypeParams ↦ ?_
  refine .call hc₁ (runs_signatureParameters hp c₁ s) fun params c₂ h₂ hc₂ hparams ↦ ?_
  refine .call hc₂ (runs_returnAnnotation? hp c₂ s) fun result c₃ h₃ hc₃ hresult ↦ ?_
  refine .memberSeparator hc₃ fun c₄ h₄ hc₄ ↦ .node hc₄ ?_
  exact ((hlo.mono h₁).passed (hparams.1.mono (h₃.trans h₄))).node rfl
    (.cons (hparams.2.part (h₃.trans h₄)) (.cons (hresult.of_le h₄)
      (Place.holdsAll_one (htypeParams.of_le (h₂.trans (h₃.trans h₄))))))

theorem runs_namedMember (hlo : c.Opens lo) (s : Setting) :
    Runs c c s (namedMember p lo) fun n d ↦ d.Has lo n := by
  unfold namedMember
  rw [runs_peek, runs_isWord]
  split
  · refine .spend (le_refl c) fun c₁ h₁ hc₁ hpast ↦ ?_
    refine .call hc₁ (runs_propertyKey hp c₁ s) fun key c₂ h₂ hc₂ hkey ↦ ?_
    refine .call hc₂ (runs_signatureParameters hp c₂ s) fun _ c₃ h₃ hc₃ _ ↦ ?_
    refine .call hc₃ (runs_annotation? hp c₃ s) fun result c₄ h₄ hc₄ hresult ↦ ?_
    refine .memberSeparator hc₄ fun c₅ h₅ hc₅ ↦ .node hc₅ ?_
    have hlate : c₂ ≤ c₅ := h₃.trans (h₄.trans h₅)
    exact (hlo.passed (hpast.mono (h₂.trans hlate))).node rfl
      (.cons (hkey.has.part hlate) (Place.holdsAll_one (hresult.of_le h₅)))
  rw [runs_isWord]
  split
  · refine .spend (le_refl c) fun c₁ h₁ hc₁ hpast ↦ ?_
    refine .call hc₁ (runs_propertyKey hp c₁ s) fun key c₂ h₂ hc₂ hkey ↦ ?_
    refine .call hc₂ (runs_signatureParameters hp c₂ s) fun params c₃ h₃ hc₃ hparams ↦ ?_
    refine .call hc₃ (runs_annotation? hp c₃ s) fun _ c₄ h₄ hc₄ _ ↦ ?_
    refine .memberSeparator hc₄ fun c₅ h₅ hc₅ ↦ .node hc₅ ?_
    have hlate : c₂ ≤ c₅ := h₃.trans (h₄.trans h₅)
    exact (hlo.passed (hpast.mono (h₂.trans hlate))).node rfl
      (.cons (hkey.has.part hlate) (Place.holdsAll_one (hparams.2.part (h₄.trans h₅))))
  · refine .call (le_refl c) (runs_propertyKey hp c s) fun key c₁ h₁ hc₁ hkey ↦ ?_
    refine .eatAny hc₁ fun optional c₂ h₂ hc₂ ↦ ?_
    rw [runs_isPunct, runs_isLess]
    split
    · refine .call hc₂ (runs_typeParameters? hp c₂ s) fun typeParams c₃ h₃ hc₃ htypeParams ↦ ?_
      refine .call hc₃ (runs_signatureParameters hp c₃ s) fun params c₄ h₄ hc₄ hparams ↦ ?_
      refine .call hc₄ (runs_returnAnnotation? hp c₄ s) fun result c₅ h₅ hc₅ hresult ↦ ?_
      refine .memberSeparator hc₅ fun c₆ h₆ hc₆ ↦ .node hc₆ ?_
      have hlate : c₃ ≤ c₆ := h₄.trans (h₅.trans h₆)
      have hkeyLate : c₁ ≤ c₆ := h₂.trans (h₃.trans hlate)
      exact (hlo.passed (hkey.past.mono hkeyLate)).node rfl
        (.cons (hkey.has.part hkeyLate) (.cons (hparams.2.part (h₅.trans h₆))
          (.cons (hresult.of_le h₆) (Place.holdsAll_one (htypeParams.of_le hlate)))))
    · refine .call hc₂ (runs_annotation? hp c₂ s) fun type c₃ h₃ hc₃ htype ↦ ?_
      refine .memberSeparator hc₃ fun c₄ h₄ hc₄ ↦ .node hc₄ ?_
      have hlate : c₁ ≤ c₄ := h₂.trans (h₃.trans h₄)
      exact (hlo.passed (hkey.past.mono hlate)).node rfl
        (.cons (hkey.has.part hlate) (Place.holdsAll_one (htype.of_le h₄)))

theorem runs_typeMember (c : Place text) (s : Setting) :
    Runs c c s (typeMember p) fun n d ↦ d.Has c.lo n := by
  unfold typeMember
  rw [runs_here, runs_peek, runs_isPunct, runs_isLess]
  split
  · exact runs_signature hp c.opens_lo _ s
  rw [runs_isWord]
  split
  · exact .spend (le_refl c) fun d hcd hwd _ ↦
      (runs_signature hp (c.opens_lo.mono hcd) _ s).last hwd fun _ _ _ hn ↦ hn
  rw [runs_isWord]
  refine .when (le_refl c) (fun _ ↦ (runs_bump c s).anywhere) fun d hcd hwd ↦ ?_
  refine .look looks_startsIndex hwd fun _ ↦ ?_
  split
  · exact (runs_indexSignature hp (c.opens_lo.mono hcd) s).last hwd fun _ _ _ hn ↦ hn.1
  · exact (runs_namedMember hp (c.opens_lo.mono hcd) s).last hwd fun _ _ _ hn ↦ hn

theorem runs_memberBlock (c : Place text) (s : Setting) :
    Runs c c s (memberBlock p) (Listed c) := by
  unfold memberBlock
  refine .expect (le_refl c) fun d _ hcd hpast ↦ (runs_iterate
    (fun ns e ↦ e.HasAll c.lo ns) Place.hasAll_nil fun ns e hde hns ↦ ?_).last hcd
    fun ns e hde (hns : e.HasAll c.lo ns) ↦ ⟨hpast.mono hde, hns⟩
  refine .eat (le_refl e) (fun e' hee' _ _ ↦ .pure hee' (hns.of_le hee')) ?_
  refine .call (le_refl e) (runs_typeMember hp e s) fun n e' hee' _ hn ↦ .pure hee' ?_
  exact hns.append hee' (hn.from_le (hcd.trans hde))

/-! ## Types proper -/

omit hp in
theorem runs_followsParameter (c : Place text) (s : Setting) :
    Runs c c s followsParameter Anywhere := by
  unfold followsParameter
  rw [runs_form]
  split
  · exact .pure (le_refl c) trivial
  · exact .pure (le_refl c) trivial
  · exact .pure (le_refl c) trivial
  · exact .pure (le_refl c) trivial
  · exact .spend (le_refl c) fun d _ hcd _ ↦ .pure (s := s) hcd trivial
  · exact .pure (le_refl c) trivial

theorem runs_startsFunctionType (c : Place text) (s : Setting) :
    Runs c c s (startsFunctionType p) Anywhere := by
  unfold startsFunctionType
  refine .expect (le_refl c) fun d _ hcd _ ↦ ?_
  rw [runs_isPunct, runs_isPunct]
  split
  · exact .pure hcd trivial
  rw [runs_form]
  have hrest (e : Place text) (hce : c ≤ e) :=
    (runs_followsParameter e s).last hce fun _ _ _ h ↦ h
  dsimp only
  split
  · exact .spend hcd fun e _ hce _ ↦ hrest e hce
  · exact .call hcd (hp.binding d s) fun _ e _ hce _ ↦ hrest e hce
  · exact .call hcd (hp.binding d s) fun _ e _ hce _ ↦ hrest e hce
  · exact .stop (.failHere hcd)

theorem runs_functionType (hlo : c.Opens lo) (kind : TypeForm) (s : Setting) :
    Runs c c s (functionType p lo kind) (Typed lo) := by
  unfold functionType
  refine .call (le_refl c) (runs_typeParameters? hp c s) fun typeParams c₁ h₁ hc₁ htypeParams ↦ ?_
  refine .call hc₁ (runs_signatureParameters hp c₁ s) fun params c₂ h₂ hc₂ hparams ↦ ?_
  refine .expect hc₂ fun c₃ h₃ hc₃ _ ↦ ?_
  refine .call hc₃ (runs_returnType hp c₃ s) fun result c₄ h₄ hc₄ hresult ↦ .node hc₄ ?_
  exact ((hlo.mono h₁).passed (hparams.1.mono (h₃.trans h₄))).type
    (.cons (hparams.2.part (h₃.trans h₄)) (.cons hresult.holds
      (Place.holdsAll_one (htypeParams.of_le (h₂.trans (h₃.trans h₄))))))

omit hp in
theorem runs_mappedHead (c : Place text) (s : Setting) :
    Runs c c s mappedHead fun _ d ↦ c.Past d := by
  unfold mappedHead
  refine .expect (le_refl c) fun d _ hcd hpast ↦ ?_
  have hrest : ∀ e, d ≤ e → Runs c e s (do
      expect .lbrack
      let _ ← anyWord
      expectWord "in") fun _ d ↦ c.Past d := fun e hde ↦ by
    refine .expect (hcd.trans hde) fun e₁ h₁ hc₁ _ ↦ ?_
    refine .call hc₁ (runs_anyWord e₁ s) fun _ e₂ h₂ hc₂ _ ↦ ?_
    exact (runs_expectWord e₂ s "in").last hc₂ fun _ e₃ h₃ _ ↦
      hpast.mono (hde.trans (h₁.trans (h₂.trans h₃)))
  rw [runs_isPunct, runs_isPunct]
  dsimp only
  split
  · exact .spend hcd fun e hde hce _ ↦ .expectWord hce fun e' hee' _ _ ↦ hrest e' (hde.trans hee')
  rw [runs_isWord, runs_peek]
  split
  · exact .spend hcd fun e hde _ _ ↦ hrest e hde
  · exact hrest d (le_refl d)

theorem runs_mappedRest (hlo : c.Opens lo) (s : Setting) :
    Runs c c s (mappedRest p lo) (Typed lo) := by
  unfold mappedRest
  refine .call (le_refl c) (hp.type c s) fun domain c₁ h₁ hc₁ hdomain ↦ ?_
  refine .eatWordThen hc₁ (fun d _ _ ↦ runs_typePart hp d s) (runs_noPart c₁ s)
    fun rename c₂ h₂ hc₂ hrename ↦ .expect hc₂ fun c₃ h₃ hc₃ hpast ↦ ?_
  have hrest : ∀ d, c₃ ≤ d → Runs c d s (do
      let type ← annotation? p
      let _ ← eatSemicolon
      expect .rbrace
      nodeFrom lo (.type .other) [domain, rename, type]) (Typed lo) := fun d hd ↦ by
    refine .call (hc₃.trans hd) (runs_annotation? hp d s) fun type c₄ h₄ hc₄ htype ↦ ?_
    refine .eatSemicolon hc₄ fun _ c₅ h₅ hc₅ ↦ .expect hc₅ fun c₆ h₆ hc₆ _ ↦ .node hc₆ ?_
    have hlate : c₃ ≤ c₆ := hd.trans (h₄.trans (h₅.trans h₆))
    exact ((hlo.mono (h₁.trans h₂)).passed (hpast.mono hlate)).type
      (.cons (hdomain.part (h₂.trans (h₃.trans hlate))) (.cons (hrename.of_le (h₃.trans hlate))
        (Place.holdsAll_one (htype.of_le (h₅.trans h₆)))))
  rw [runs_isPunct, runs_isPunct]
  dsimp only
  split
  · exact .spend hc₃ fun d hd hcd _ ↦ .expect hcd fun e hde _ _ ↦ hrest e (hd.trans hde)
  · exact .eatAny hc₃ fun _ d hd _ ↦ hrest d hd

omit hp in
theorem runs_tupleLabel (c : Place text) (s : Setting) : Runs c c s tupleLabel Anywhere := by
  unfold tupleLabel
  refine .eatAny (le_refl c) fun _ d _ hcd ↦ ?_
  refine .call hcd (runs_anyWord d s) fun _ e _ hce _ ↦ .eatAny hce fun _ e' _ hce' ↦ ?_
  exact (runs_expect e' s _).last hce' fun _ _ _ _ ↦ trivial

theorem runs_elementType (hcd : c ≤ d) (s : Setting) :
    Runs c d s (elementType p c.lo) fun n e ↦ e.Has c.lo n := by
  have hwrap {e : Place text} {n : Node} (hce : c ≤ e) (hn : e.Has c.lo n) (form : TypeForm)
      (hform : (Kind.type form).isCommon = true) :
      e.Has c.lo (.mk (.type form) ⟨c.lo, e.prevEnd⟩ [n]) :=
    hn.node (List.mem_singleton_self n) (c.opens_lo.mono hce) hform (Place.holdsAll_one hn.holds)
  unfold elementType
  refine .eat hcd (fun d₁ h₁ hd₁ _ ↦ ?_) ?_
  · refine .call hd₁ (hp.type d₁ s) fun t d₂ h₂ hd₂ ht ↦ runs_nodeFrom.2 ?_
    exact .node hd₂ (hwrap hd₂ (hwrap hd₂ (ht.from_le hd₁) _ rfl) _ rfl)
  · refine .call hcd (hp.type d s) fun t d₁ h₁ hd₁ ht ↦ .eat hd₁ (fun d₂ h₂ hd₂ _ ↦ ?_) ?_
    · exact .node (s := s) hd₂ (hwrap hd₂ (hwrap hd₂ ((ht.from_le hcd).of_le h₂) _ rfl) _ rfl)
    · exact .node hd₁ (hwrap hd₁ (ht.from_le hcd) _ rfl)

theorem runs_tupleElement (c : Place text) (s : Setting) :
    Runs c c s (tupleElement p) fun n d ↦ d.Has c.lo n := by
  unfold tupleElement
  rw [runs_here]
  exact .speculate (le_refl c) (fun _ _ _ _ _ ↦ trivial) (runs_tupleLabel c s)
    (fun _ _ hcd _ _ ↦ runs_elementType hp hcd s) fun _ hcd _ ↦ runs_elementType hp hcd s

theorem runs_tupleType (hlo : c.Opens lo) (s : Setting) :
    Runs c c s (tupleType p lo) (Typed lo) := by
  unfold tupleType
  refine .expect (le_refl c) fun d _ hcd hpast ↦ ?_
  refine .call hcd (runs_commaList fun e _ ↦ runs_tupleElement hp e s) fun ns e hde hce hns ↦ ?_
  rw [runs_nodeFrom]
  refine .guard (fun _ ↦ .failAt hce) fun _ ↦ .pure hce ?_
  exact (hlo.passed (hpast.mono hde)).type (hns.all.part (le_refl e))

theorem runs_importTypeRest {b : Place text} (hlo : b.Passed lo) (hwb : w ≤ b) (hbc : b ≤ c)
    (s : Setting) : Runs w c s (importTypeRest p lo) (Typed lo) := by
  unfold importTypeRest
  refine .expect (hwb.trans hbc) fun c₁ h₁ hw₁ _ ↦ ?_
  refine .eatWhen hw₁ (fun d _ ↦ (runs_entityName d s).anywhere) fun c₂ h₂ hw₂ ↦ ?_
  refine .call hw₂ (runs_typeArguments? hp c₂ s) fun args c₃ h₃ hw₃ hargs ↦ .node hw₃ ?_
  exact (hlo.mono (hbc.trans (h₁.trans (h₂.trans h₃)))).type (Place.holdsAll_one hargs)

theorem runs_importType (hlo : c.Opens lo) (s : Setting) :
    Runs c c s (importType p lo) (Typed lo) := by
  unfold importType
  refine .expectWord (le_refl c) fun c₁ h₁ hc₁ hpast ↦ .expect hc₁ fun c₂ h₂ hc₂ _ ↦ ?_
  refine .call hc₂ (hp.type c₂ s) fun _ c₃ h₃ hc₃ _ ↦ ?_
  have hrest : ∀ d, c₁ ≤ d → Runs c d s _ (Typed lo) := fun d hd ↦
    runs_importTypeRest hp (hlo.passed hpast) hc₁ hd s
  have hlate : c₁ ≤ c₃ := h₂.trans h₃
  refine .eat hc₃ (fun c₄ h₄ hc₄ _ ↦ runs_isPunct.2 ?_) (hrest c₃ hlate)
  dsimp only
  split
  · refine .call hc₄ (hp .assignment c₄ s) fun _ c₅ h₅ hc₅ _ ↦ .eatAny hc₅ fun _ c₆ h₆ _ ↦ ?_
    exact hrest c₆ (hlate.trans (h₄.trans (h₅.trans h₆)))
  · exact hrest c₄ (hlate.trans h₄)

omit hp in
theorem runs_literalType (c : Place text) (s : Setting) (value : Literal) :
    Runs c c s (literalType c.cursor.token value) (Typed c.lo) := by
  unfold literalType
  exact .bump (le_refl c) fun d _ hcd hprev ↦
    .pure hcd ⟨Place.has_leaf rfl hcd hprev, _, rfl⟩

theorem runs_wordType_reference (c : Place text) (s : Setting) :
    Runs c c s (wordType.reference p c.lo) (Typed c.lo) := by
  unfold wordType.reference
  refine .call (le_refl c) (runs_entityName c s) fun name c₁ h₁ hc₁ hname ↦ ?_
  refine .call hc₁ (runs_typeArguments? hp c₁ s) fun args c₂ h₂ hc₂ hargs ↦ .node hc₂ ?_
  exact (c.opens_lo.passed (hname.1.mono h₂)).type
    (.cons (hname.2.part h₂) (Place.holdsAll_one hargs))

omit hp in
/-- A word that is a type of its own. -/
theorem runs_wordLeaf (c : Place text) (s : Setting) (kind : TypeForm) :
    Runs c c s (do
      bump
      nodeFrom c.lo (.type kind) []) (Typed c.lo) :=
  .spend (le_refl c) fun _ _ hcd hpast ↦
    .node hcd ((c.opens_lo.passed hpast).type Place.holdsAll_nil)

theorem runs_wordType (c : Place text) (s : Setting) (word : String) :
    Runs c c s (wordType p c.lo word) (Typed c.lo) := by
  unfold wordType
  rw [runs_peek]
  split
  · exact runs_literalType c s _
  · exact runs_literalType c s _
  · exact runs_wordLeaf c s _
  · refine .spend (le_refl c) fun c₁ h₁ hc₁ hpast ↦ ?_
    rw [runs_isWord]
    refine .choose hc₁ (Q := fun n d ↦ d.Holds n) (fun _ ↦ ?_) (fun _ ↦ ?_)
      fun target c₂ h₂ hc₂ htarget ↦ ?_
    · exact (runs_importType hp c₁.opens_lo s).mono fun _ _ _ hn ↦ hn.has.holds
    · exact (runs_entityName c₁ s).mono fun _ _ _ hn ↦ hn.2.holds
    · refine .call hc₂ (runs_typeArguments? hp c₂ s) fun args c₃ h₃ hc₃ hargs ↦ .node hc₃ ?_
      exact (c.opens_lo.passed (hpast.mono (h₂.trans h₃))).type
        (.cons (htarget.of_le h₃) (Place.holdsAll_one hargs))
  · exact runs_importType hp c.opens_lo s
  · split
    · split
      · exact runs_wordType_reference hp c s
      · exact runs_wordLeaf c s _
    · exact runs_wordType_reference hp c s

omit hp in
/-- A number after a minus sign. -/
theorem runs_negativeLeaf {b : Place text} (hlo : b.Passed lo) (hwb : w ≤ b) (hbc : b ≤ c)
    (s : Setting) (value : Literal) :
    Runs w c s (do
      bump
      nodeFrom lo (.type (.literal value)) []) (Typed lo) :=
  .spend (hwb.trans hbc) fun _ h hw _ ↦
    .node hw ((hlo.mono (hbc.trans h)).type Place.holdsAll_nil)

theorem runs_primaryType (c : Place text) (s : Setting) :
    Runs c c s (primaryType p) (Typed c.lo) := by
  unfold primaryType
  refine .rejectInvalid (le_refl c) ?_
  rw [runs_token]
  dsimp only
  split
  · exact runs_wordType hp c s _
  · exact runs_literalType c s _
  · exact runs_literalType c s _
  · exact runs_literalType c s _
  · refine .spend (le_refl c) fun d _ hcd hpast ↦ ?_
    rw [runs_token]
    split
    · exact runs_negativeLeaf (c.opens_lo.passed hpast) hcd (le_refl d) s _
    · exact runs_negativeLeaf (c.opens_lo.passed hpast) hcd (le_refl d) s _
    · exact .failExpected hcd
  · rename_i hform
    have hfree : c.stuck = false := c.free_of_form fun e he ↦ by
      rw [hform] at he
      cases he
    refine .call (le_refl c) (runs_templateParts hfree fun d _ ↦ hp.type d s)
      fun ns d _ hcd hns ↦ .node hcd ?_
    exact (c.opens_lo.passed hns.past).type (hns.all.part (le_refl d))
  · refine .speculate (le_refl c) (fun _ _ _ _ _ ↦ trivial) (runs_mappedHead c s).anywhere
      (fun _ d hcd hwd _ ↦ ?_) fun d hcd hwd ↦ ?_
    · exact (runs_mappedRest hp (c.opens_lo.mono hcd) s).last hwd fun _ _ _ hn ↦ hn
    · refine .call hwd (runs_memberBlock hp d s) fun ns e hde hwe hns ↦ .node hwe ?_
      exact ((c.opens_lo.mono hcd).passed hns.past).type (hns.all.part (le_refl e))
  · exact runs_tupleType hp c.opens_lo s
  · refine .spend (le_refl c) fun c₁ _ hc₁ hpast ↦ ?_
    refine .call hc₁ (hp.type c₁ _) fun inner c₂ h₂ hc₂ hinner ↦ .expect hc₂ fun c₃ h₃ hc₃ _ ↦ ?_
    exact .node hc₃ ((c.opens_lo.passed (hpast.mono (h₂.trans h₃))).type
      (Place.holdsAll_one (hinner.part h₃)))
  · exact .failAtEnd (le_refl c)
  · exact .failHere (le_refl c)

theorem runs_suffixedType (c : Place text) (s : Setting) :
    Runs c c s (suffixedType p) (Typed c.lo) := by
  unfold suffixedType
  rw [runs_here]
  refine .call (le_refl c) (runs_primaryType hp c s) fun first c₁ h₁ hc₁ hfirst ↦ ?_
  refine (runs_iterate (Typed c.lo) hfirst fun t d hd ht ↦ ?_).last hc₁ fun _ _ _ h ↦ h
  rw [runs_isPunct, runs_token]
  split
  · refine .spend (le_refl d) fun d₁ h₁ _ _ ↦ .eat h₁ (fun d₂ h₂ hd₂ _ ↦ ?_) ?_
    · have ht := ht.has.of_le hd₂
      exact .pure (s := s) hd₂ ⟨ht.node (List.mem_singleton_self t)
        (c.opens_lo.mono (hc₁.trans (hd.trans hd₂))) rfl (Place.holdsAll_one ht.holds), _, rfl⟩
    · refine .call h₁ (hp.type d₁ s) fun index d₂ h₂ hd₂ hindex ↦ .expect hd₂ fun d₃ h₃ hd₃ _ ↦ ?_
      have ht := ht.has.of_le hd₃
      exact .pure (s := s) hd₃ ⟨ht.node List.mem_cons_self
        (c.opens_lo.mono (hc₁.trans (hd.trans hd₃))) rfl
        (.cons ht.holds (Place.holdsAll_one (hindex.part h₃))), _, rfl⟩
  · exact .pure (le_refl d) ht

theorem runs_inferBound (c : Place text) (s : Setting) :
    Runs c c s (inferBound p) fun n d ↦ d.LiesUpTo d.prevEnd n ∧ n.IsType := by
  unfold inferBound
  refine .expectWord (le_refl c) fun d _ hcd _ ↦ ?_
  refine .call hcd (hp .type d _) fun t e _ hce ht ↦ ?_
  rw [runs_isPunct, runs_read]
  exact .guard (fun _ ↦ .failHere hce) fun _ ↦ .pure hce ⟨ht.1.holds.lies, ht.2⟩

theorem runs_operatorType (fuel : Nat) (c : Place text) :
    Runs c c s (operatorType p fuel) (Typed c.lo) := by
  induction fuel generalizing c with
  | zero => exact runs_suffixedType hp c s
  | succ fuel ih =>
    unfold operatorType
    rw [runs_here, runs_form, runs_peek]
    split
    · split
      · split
        · refine .spend (le_refl c) fun d _ hcd hpast ↦ ?_
          refine .call hcd (ih d) fun t e hde hce ht ↦ .node hce ?_
          exact (c.opens_lo.passed (hpast.mono hde)).type (Place.holdsAll_one ht.has.holds)
        · exact runs_suffixedType hp c s
      · split
        · refine .spend (le_refl c) fun d _ hcd hpast ↦ ?_
          refine .call hcd (runs_anyWord d s) fun _ d₁ h₁ hc₁ _ ↦ ?_
          refine .speculate hc₁ survives_isType (runs_inferBound hp d₁ s)
            (fun t d₂ h₂ hc₂ ht ↦ .node hc₂ ?_) fun d₂ h₂ hc₂ ↦ .node hc₂ ?_
          · exact (c.opens_lo.passed (hpast.mono (h₁.trans h₂))).type (Place.holdsAll_one ht)
          · exact (c.opens_lo.passed (hpast.mono (h₁.trans h₂))).type Place.holdsAll_nil
        · exact runs_suffixedType hp c s
    · exact runs_suffixedType hp c s

omit hp in
theorem runs_joinedType {part : Parser Node} (op : BinaryOp) (form : TypeForm)
    (hpart : ∀ d : Place text, Runs d d s part (Typed d.lo)) (c : Place text) :
    Runs c c s (joinedType op form part) (Typed c.lo) := by
  unfold joinedType
  rw [runs_here]
  refine .eatAny (le_refl c) fun leading c₁ h₁ hc₁ ↦ ?_
  refine .call hc₁ (hpart c₁) fun first c₂ h₂ hc₂ hfirst ↦ ?_
  have hfirst := hfirst.from_le h₁
  refine .call hc₂ (Q := fun ns d ↦ first ∈ ns ∧ d.HasAll c.lo ns) ?_
    fun ns c₃ h₃ hc₃ ⟨hmem, hns⟩ ↦ ?_
  · refine runs_iterate (fun ns d ↦ first ∈ ns ∧ d.HasAll c.lo ns)
      ⟨List.mem_singleton_self first, fun n hn ↦ ?_⟩ fun ns d hd ⟨hmem, hns⟩ ↦ ?_
    · rw [List.mem_singleton.1 hn]
      exact hfirst.has
    · refine .eat (le_refl d) (fun e hde _ _ ↦ ?_) (.pure (le_refl d) ⟨hmem, hns⟩)
      refine .call hde (hpart e) fun n e' hee' hde' hn ↦ .pure hde' ?_
      exact ⟨List.mem_append_left _ hmem,
        hns.append hde' (hn.has.from_le (hc₂.trans (hd.trans hde)))⟩
  · split
    · exact .node hc₃ ⟨(hns first hmem).node hmem (c.opens_lo.mono hc₃) rfl
        (hns.part (le_refl c₃)), _, rfl⟩
    · exact .pure hc₃ (hfirst.of_le h₃)

theorem runs_unionType (c : Place text) (s : Setting) :
    Runs c c s (unionType p) (Typed c.lo) := by
  unfold unionType
  rw [runs_budget]
  exact runs_joinedType _ _ (fun d ↦ runs_joinedType _ _ (runs_operatorType hp _) d) c

theorem runs_plainType (c : Place text) (s : Setting) :
    Runs c c s (plainType p) (Typed c.lo) := by
  unfold plainType
  have hfunction : ∀ (kind : TypeForm) (d : Place text), c ≤ d →
      Runs c d s (functionType p c.lo kind) (Typed c.lo) := fun kind d hcd ↦
    (runs_functionType hp (c.opens_lo.mono hcd) kind s).last hcd fun _ _ _ hn ↦ hn
  rw [runs_here, runs_peek, runs_isWord]
  split
  · exact .spend (le_refl c) fun d _ hcd _ ↦ hfunction _ d hcd
  rw [runs_isWord]
  split
  · exact .spend (le_refl c) fun d _ hcd _ ↦ .spend hcd fun e _ hce _ ↦ hfunction _ e hce
  rw [runs_isLess]
  split
  · exact hfunction _ c (le_refl c)
  rw [runs_isPunct]
  refine .ahead (le_refl c) (runs_startsFunctionType hp c s) fun answer d hcd _ ↦ ?_
  split
  · exact hfunction _ d hcd
  · exact (runs_unionType hp d s).last hcd fun _ _ _ hn ↦ hn.from_le hcd

theorem runs_type (c : Place text) (s : Setting) :
    Runs c c s (type p) (Typed c.lo) := by
  unfold type
  rw [runs_here]
  refine .call (le_refl c) (runs_plainType hp c s) fun t c₁ h₁ hc₁ ht ↦ ?_
  rw [runs_read, runs_isWord, runs_token]
  split
  · refine .spend hc₁ fun c₂ h₂ hc₂ _ ↦ ?_
    refine .call hc₂ (runs_plainType hp c₂ _) fun bound c₃ h₃ hc₃ hbound ↦ ?_
    refine .expect hc₃ fun c₄ h₄ hc₄ _ ↦ .call hc₄ (hp.type c₄ s) fun yes c₅ h₅ hc₅ hyes ↦ ?_
    refine .expect hc₅ fun c₆ h₆ hc₆ _ ↦ .call hc₆ (hp.type c₆ s) fun no c₇ h₇ hc₇ hno ↦ ?_
    have hlate : c₃ ≤ c₇ := h₄.trans (h₅.trans (h₆.trans h₇))
    have ht := ht.has.of_le (h₂.trans (h₃.trans hlate))
    exact .node hc₇ ⟨ht.node List.mem_cons_self (c.opens_lo.mono hc₇) rfl (.cons ht.holds
      (.cons (hbound.has.part hlate) (.cons (hyes.part (h₆.trans h₇))
        (Place.holdsAll_one hno.holds)))), _, rfl⟩
  · exact .pure hc₁ ht

end

end OptionalChain.Grammar
