import OptionalChain.Proofs.Placement.Patterns

/-!
# Places of functions and classes

Parameters, bodies and members sit in the text that they were read from.
-/

namespace OptionalChain.Grammar

open Text (At Boundary)

variable {text : List Char} {w c d : Place text} {s : Setting} {lo stop : Nat} {p : Parts}

section

variable (hp : Sound text p)

include hp

theorem runs_decorators (c : Place text) (s : Setting) : Runs c c s (decorators p) Anywhere := by
  unfold decorators
  rw [runs_dialect]
  split
  · refine runs_iterate (fun _ _ ↦ True) trivial fun ns d _ _ ↦ runs_here.2 ?_
    refine .eat (le_refl d) (fun e _ hde _ ↦ ?_) (.pure (s := s) (le_refl d) trivial)
    exact .call hde (hp .access e s) fun _ e' _ hde' _ ↦ .pure (s := s) hde' trivial
  · exact .pure (le_refl c) trivial

omit hp in
theorem runs_parameterModifiers (fuel : Nat) (c : Place text) :
    Runs c c s (parameterModifiers fuel) Anywhere := by
  induction fuel generalizing c with
  | zero => exact .pure (le_refl c) trivial
  | succ fuel ih =>
    unfold parameterModifiers
    rw [runs_form, runs_peek]
    split
    · rw [runs_isTypescript]
      refine .ite (fun _ ↦ .spend (le_refl c) fun d _ hcd _ ↦ ?_) fun _ ↦ .pure (le_refl c) trivial
      exact .call hcd (ih d) fun _ e _ hce _ ↦ .pure hce trivial
    · exact .pure (le_refl c) trivial

theorem runs_parameter (c : Place text) (s : Setting) (properties : Bool) :
    Runs c c s (parameter p properties) fun n d ↦ d.Has c.lo n := by
  unfold parameter
  refine .call (le_refl c) (runs_decorators hp c s) fun _ c₁ h₁ _ _ ↦ runs_here.2 ?_
  refine .choose h₁ (fun _ ↦ runs_parameterModifiers 4 c₁)
    (fun _ ↦ .pure (le_refl c₁) trivial) fun isProperty c₂ h₂ hc₂ _ ↦ runs_isPunct.2 ?_
  refine .choose hc₂ (Q := fun n d ↦ d.Has c₁.lo n) (fun _ ↦ ?_) (fun _ ↦ ?_)
    fun n c₃ h₃ hc₃ hn ↦ ?_
  · exact (runs_restBinding hp c₂ s).mono fun _ _ _ hn ↦ hn.1.from_le h₂
  · exact (runs_bindingElement hp c₂ s).mono fun _ _ _ hn ↦ hn.1.from_le h₂
  · split
    · exact .node hc₃ ((hn.node (List.mem_singleton_self n) (c₁.opens_lo.mono (h₂.trans h₃)) rfl
        (Place.holdsAll_one hn.holds)).from_le h₁)
    · exact .pure hc₃ (hn.from_le h₁)

theorem runs_parameters (c : Place text) (s : Setting) (properties : Bool) :
    Runs c c s (parameters p properties) fun n d ↦
      c.Past d ∧ d.Has c.lo n ∧ n.kind = .parameters := by
  unfold parameters
  rw [runs_here]
  refine .expect (le_refl c) fun d _ hcd hpast ↦ .call hcd
    (Q := fun ns e ↦ d.Past e ∧ e.HoldsAll ns) ?_
    fun ns e hde hce hns ↦ .node hce ⟨hpast.mono hde, ?_, rfl⟩
  · refine runs_iterate (fun x e ↦ e.HoldsAll x.1) Place.holdsAll_nil fun x e hde hns ↦ ?_
    refine .endsList (le_refl e) (fun e₁ h₁ _ hpast ↦ ?_) ?_
    · exact .pure (s := s) h₁ ⟨hpast.of_le hde, hns.of_le h₁⟩
    · refine runs_nextItem (Q := fun ns e ↦ e.HoldsAll ns) (fun h hns ↦ hns.of_le h)
        (fun _ d hns ↦ ?_) hde hns _ _ _
      exact (runs_parameter hp d s properties).mono fun _ _ h hn ↦ hns.append h hn.holds
  · exact (c.opens_lo.passed (hpast.mono hde)).node rfl hns.2

theorem runs_block (c : Place text) (s : Setting) :
    Runs c c s (p .block) fun n d ↦ d.Has c.lo n :=
  (hp .block c s).mono fun _ _ _ hn ↦ hn.1

theorem runs_bracedBody (c : Place text) (s : Setting) :
    Runs c c s (bracedBody p) fun n d ↦ d.Has c.lo n := by
  unfold bracedBody
  rw [runs_token, runs_read]
  refine .when (le_refl c) (fun _ ↦ runs_emit c s _ _) fun d hcd _ ↦ ?_
  exact (runs_block hp d s).last hcd fun _ _ _ hn ↦ hn.from_le hcd

theorem runs_bodyOrNone (c : Place text) (s : Setting) :
    Runs c c s (bodyOrNone p) fun n d ↦ d.Holds n := by
  unfold bodyOrNone
  have hblock : ∀ d, c ≤ d → Runs c d s (p .block) fun n e ↦ e.Holds n := fun d hcd ↦
    (runs_block hp d s).last hcd fun _ _ _ hn ↦ hn.holds
  rw [runs_isPunct]
  split
  · exact (runs_bracedBody hp c s).mono fun _ _ _ hn ↦ hn.holds
  rw [runs_isTypescript]
  split
  · refine .eatSemicolon (le_refl c) fun ended d _ hcd ↦ ?_
    split
    · exact .pure hcd Place.holds_absent
    · exact hblock d hcd
  · exact hblock c (le_refl c)

/-- A function from its parameters to its body, with the places of all its parts. -/
structure IsFunction (lo : Nat) (n : Node) (d : Place text) : Prop where
  passed : d.Passed lo
  exists_parts : ∃ stop params body typeParams result,
    n = .mk .function ⟨lo, stop⟩ [params, body, typeParams, result] ∧
      (d.stuck = false → d.Closes stop) ∧ lo ≤ stop ∧ stop ≤ d.prevEnd ∧ params.kind = .parameters ∧
      d.HoldsAll [params, body, typeParams, result]

omit hp in
/-- A node with the span of a function. -/
theorem IsFunction.hasOf {f : Node} (h : IsFunction lo f d) {kind : Kind} {cs : List Node}
    (hkind : kind.isCommon = true) (hparts : d.HoldsTogether cs) :
    d.Has lo (.mk kind f.span cs) := by
  obtain ⟨stop, params, body, typeParams, result, rfl, hstop, hle, hprev, -, -⟩ := h.exists_parts
  refine Place.has_of_parts
    (fun hfree hwhole ↦ ⟨Nat.le_refl _, hle, ?_, hparts.lie hfree hwhole⟩) ?_
  · have hplain := Kind.isPlain_of_isCommon hkind
    exact Place.seats_mk (h.passed.opens hfree) (hstop hfree) (.inr hle) hprev
      (Node.shape_of_isPlain hplain) (Place.joins_of_isPlain hplain)
  · exact (Place.clears_of_hasTargets (Kind.hasTargets_of_isCommon hkind)).admits hparts.admits

omit hp in
theorem IsFunction.has {f : Node} (h : IsFunction lo f d) {kind : Kind} {cs : List Node}
    (hkind : kind.isCommon = true) (hparts : d.HoldsAll cs) : d.Has lo (.mk kind f.span cs) :=
  h.hasOf hkind hparts.together

omit hp in
theorem IsFunction.self {f : Node} (h : IsFunction lo f d) : d.Has lo f := by
  obtain ⟨stop, params, body, typeParams, result, rfl, -, -, -, -, hall⟩ := h.exists_parts
  exact h.has rfl hall

omit hp in
theorem IsFunction.of_le {f : Node} {e : Place text} (h : IsFunction lo f d) (hde : d ≤ e) :
    IsFunction lo f e := by
  obtain ⟨stop, params, body, typeParams, result, heq, hstop, hle, hprev, hkind, hall⟩ :=
    h.exists_parts
  exact ⟨h.passed.mono hde, stop, params, body, typeParams, result, heq,
    fun hfree ↦ (hstop (Place.free_of_le hde hfree)).mono hde, hle,
    Nat.le_trans hprev (Place.prevEnd_le hde), hkind, hall.of_le hde⟩

theorem runs_functionChecked (hlo : c.Opens lo) (s : Setting) (async generator : Bool)
    {check : Node → Parser Unit} (hcheck : ∀ n (d : Place text) s, Runs d d s (check n) Anywhere) :
    Runs c c s (functionChecked p lo async generator check) (IsFunction lo) := by
  unfold functionChecked
  rw [runs_within]
  refine .call (le_refl c) (runs_typeParameters? hp c _) fun typeParams c₁ h₁ hc₁ htypeParams ↦ ?_
  refine .call hc₁ (runs_parameters hp c₁ _ false) fun params c₂ h₂ hc₂ ⟨hpast, hparams, hkind⟩ ↦ ?_
  refine .call hc₂ (hcheck params c₂ _) fun _ c₃ h₃ hc₃ _ ↦ ?_
  refine .call hc₃ (runs_returnAnnotation? hp c₃ _) fun result c₄ h₄ hc₄ hresult ↦ ?_
  refine .call hc₄ (runs_bodyOrNone hp c₄ _) fun body c₅ h₅ hc₅ hbody ↦ .node hc₅ ?_
  have hlate : c₂ ≤ c₅ := h₃.trans (h₄.trans h₅)
  have hpassed := (hlo.mono h₁).passed (hpast.mono hlate)
  exact ⟨hpassed, _, params, body, typeParams, result, rfl, c₅.closes_prevEnd, hpassed.le,
    Nat.le_refl _, hkind, .cons (hparams.part hlate) (.cons hbody
      (.cons (htypeParams.of_le (h₂.trans hlate)) (Place.holdsAll_one (hresult.of_le h₅))))⟩

theorem runs_functionRest (hlo : c.Opens lo) (s : Setting) (async generator : Bool) :
    Runs c c s (functionRest p lo async generator) (IsFunction lo) :=
  runs_functionChecked hp hlo s async generator fun _ d _ ↦ .pure (le_refl d) trivial

omit hp in
theorem runs_checkGetter (key params : Node) (d : Place text) (s : Setting) :
    Runs d d s (checkGetter key params) Anywhere := by
  unfold checkGetter
  split
  · exact runs_emit d s _ _
  · exact .pure (le_refl d) trivial

omit hp in
theorem runs_checkSetter (key params : Node) (d : Place text) (s : Setting) :
    Runs d d s (checkSetter key params) Anywhere := by
  unfold checkSetter
  split
  · exact runs_emit d s _ _
  · exact .pure (le_refl d) trivial

theorem runs_functionWith (hlo : c.Opens lo) (s : Setting) (async : Bool) {kind : Kind}
    (needsName : Bool) (hkind : kind.isCommon = true) :
    Runs c c s (functionWith p lo async kind needsName) fun n d ↦ d.Has lo n ∧ n.kind = kind := by
  unfold functionWith
  refine .expectWord (le_refl c) fun c₁ h₁ hc₁ _ ↦ .eatAny hc₁ fun generator c₂ h₂ hc₂ ↦ ?_
  have hrest : ∀ (name : Node) (d : Place text), c₂ ≤ d → d.Holds name → Runs c d s (do
      let f ← within ({ · with directSuper := false }) (functionRest p lo async generator)
      return .mk kind f.span [name, f]) fun n d ↦ d.Has lo n ∧ n.kind = kind :=
    fun name d hd hname ↦ by
      refine .call (hc₂.trans hd) (runs_functionRest hp (hlo.mono (hc₂.trans hd)) _ async generator)
        fun f e hde hce hf ↦ .pure hce ⟨hf.has hkind ?_, rfl⟩
      exact .cons (hname.of_le hde) (Place.holdsAll_one hf.self.holds)
  have hname : ∀ lexical, Runs c₂ c₂ s (boundIdentifierNode lexical) fun n d ↦ d.Holds n :=
    fun lexical ↦ (runs_boundIdentifierNode c₂ s lexical).mono fun _ _ _ hn ↦ hn.2.holds
  rw [runs_form]
  dsimp only
  split
  · exact .call hc₂ (hname false) fun name d hd _ hn ↦ hrest name d hd hn
  · split
    · exact .call hc₂ (hname false) fun name d hd _ hn ↦ hrest name d hd hn
    · exact hrest .absent c₂ (le_refl c₂) Place.holds_absent

/-! ## Classes -/

omit hp in
theorem runs_modifiersFrom (fuel : Nat) (m : Modifiers) (c : Place text) :
    Runs c c s (modifiersFrom fuel m) Anywhere := by
  induction fuel generalizing c m with
  | zero => exact .pure (le_refl c) trivial
  | succ fuel ih =>
    unfold modifiersFrom
    have hmore : ∀ m, Runs c c s (do
        bump
        modifiersFrom fuel m) Anywhere := fun m ↦
      .spend (le_refl c) fun d _ hcd _ ↦ (ih m d).last hcd fun _ _ _ _ ↦ trivial
    rw [runs_peek, runs_form]
    split
    · split
      · exact hmore _
      rw [runs_isTypescript]
      split
      · exact hmore _
      rw [runs_isTypescript]
      split
      · exact hmore _
      · exact .pure (le_refl c) trivial
    · exact .pure (le_refl c) trivial

theorem runs_fieldRest {key : Node} (hlo : c.Passed lo) (hkey : c.Holds key) (s : Setting)
    (m : Modifiers) (optional : Bool) :
    Runs c c s (fieldRest p lo m key optional) fun n d ↦ d.Has lo n := by
  unfold fieldRest
  refine .call (le_refl c) (runs_annotation? hp c s) fun type c₁ h₁ hc₁ htype ↦ ?_
  refine .eatThen hc₁ (Q := fun n d ↦ d.Holds n) (fun d _ _ ↦ runs_valuePart hp d _)
    (runs_noPart c₁ s) fun value c₂ h₂ hc₂ hvalue ↦ .eatSemicolon hc₂ fun ended c₃ h₃ hc₃ ↦ ?_
  have hclose : ∀ d, c₃ ≤ d → Runs c d s (nodeFrom lo (.classMember
      (if m.accessor then .accessor else .field m.isStatic optional)) [key, value, type])
      fun n e ↦ e.Has lo n := fun d hd ↦ by
    have hlate : c₂ ≤ d := h₃.trans hd
    exact .node (hc₃.trans hd) ((hlo.mono (hc₂.trans hlate)).node rfl
      (.cons (hkey.of_le (hc₂.trans hlate)) (.cons (hvalue.of_le hlate)
        (Place.holdsAll_one (htype.of_le (h₂.trans hlate))))))
  cases ended with
  | true => exact hclose c₃ (le_refl c₃)
  | false => exact runs_token.2 (.emit hc₃ fun d hd _ ↦ hclose d hd)

omit hp in
theorem runs_accessorCheck (kind : MethodKind) (key params : Node) (d : Place text) (s : Setting) :
    Runs d d s (accessorCheck kind key params) Anywhere := by
  cases kind with
  | plain => exact .pure (le_refl d) trivial
  | getter => exact runs_checkGetter key params d s
  | setter => exact runs_checkSetter key params d s

theorem runs_methodRest {key : Node} (hlo : c.Opens lo) (hkey : c.Holds key) (s : Setting)
    (m : Modifiers) (kind : MethodKind) (async generator : Bool) :
    Runs c c s (methodRest p lo m kind async generator key) fun n d ↦ d.Has lo n := by
  unfold methodRest
  refine .call (le_refl c) (runs_functionChecked hp hlo s async generator
    (runs_accessorCheck kind key)) fun f d _ hcd hf ↦ .pure hcd ?_
  exact hf.has rfl (.cons (hkey.of_le hcd) (Place.holdsAll_one hf.self.holds))

theorem runs_constructorRest (hlo : c.Opens lo) (s : Setting) :
    Runs c c s (constructorRest p lo) fun n d ↦ d.Has lo n := by
  unfold constructorRest
  rw [runs_within]
  refine .call (le_refl c) (runs_parameters hp c _ true) fun params c₁ h₁ hc₁ hparams ↦ ?_
  refine .call hc₁ (runs_returnAnnotation? hp c₁ _) fun _ c₂ h₂ hc₂ _ ↦ ?_
  refine .call hc₂ (runs_bodyOrNone hp c₂ _) fun body c₃ h₃ hc₃ hbody ↦ .node hc₃ ?_
  exact (hlo.passed (hparams.1.mono (h₂.trans h₃))).node rfl
    (.cons (hparams.2.1.part (h₂.trans h₃)) (Place.holdsAll_one hbody))

theorem runs_memberNamed (hlo : c.Opens lo) (s : Setting) (m : Modifiers) (kind : MethodKind)
    (async generator : Bool) :
    Runs c c s (memberNamed p lo m kind async generator) fun n d ↦ d.Has lo n := by
  unfold memberNamed
  refine .call (le_refl c) (runs_propertyKey hp c s) fun key c₁ h₁ hc₁ hkey ↦ ?_
  rw [runs_isTypescript]
  refine .choose hc₁ (Q := Anywhere) (fun _ ↦ ?_) (fun _ ↦ .pure (le_refl c₁) trivial)
    fun optional c₂ h₂ hc₂ _ ↦ ?_
  · rw [← bind_pure (eat .question)]
    exact .eatAny (le_refl c₁) fun _ d _ hd ↦ .pure hd trivial
  rw [runs_isTypescript, runs_isPunct]
  refine .when hc₂ (fun _ ↦ (runs_bump c₂ s).anywhere) fun c₃ h₃ hc₃ ↦ ?_
  have hlate : c₁ ≤ c₃ := h₂.trans h₃
  rw [runs_isPunct, runs_isLess]
  split
  · split
    · exact (runs_constructorRest hp (hlo.mono hc₃) s).last hc₃ fun _ _ _ hn ↦ hn
    · exact (runs_methodRest hp (hlo.mono hc₃) (hkey.has.part hlate) s m kind async
        generator).last hc₃ fun _ _ _ hn ↦ hn
  · exact (runs_fieldRest hp (hlo.passed (hkey.past.mono hlate)) (hkey.has.part hlate) s m
      optional).last hc₃ fun _ _ _ hn ↦ hn

theorem runs_classMember (c : Place text) (s : Setting) :
    Runs c c s (classMember p) fun n d ↦ d.Has c.lo n := by
  unfold classMember
  rw [runs_here]
  refine .call (le_refl c) (runs_decorators hp c s) fun _ c₁ _ hc₁ _ ↦ ?_
  refine .call hc₁ (runs_modifiersFrom 6 {} c₁) fun m c₂ _ hc₂ _ ↦ ?_
  have hnamed : ∀ (kind : MethodKind) (async generator : Bool) (d : Place text), c ≤ d →
      Runs c d s (memberNamed p c.lo m kind async generator) fun n e ↦ e.Has c.lo n :=
    fun kind async generator d hcd ↦ (runs_memberNamed hp (c.opens_lo.mono hcd) s m kind async
      generator).last hcd fun _ _ _ hn ↦ hn
  rw [runs_isPunct]
  split
  · refine .call hc₂ (runs_block hp c₂ _) fun body c₃ _ hc₃ hbody ↦ .node hc₃ ?_
    have hbody := hbody.from_le hc₂
    exact hbody.node (List.mem_singleton_self body) (c.opens_lo.mono hc₃) rfl
      (Place.holdsAll_one hbody.holds)
  rw [runs_isTypescript]
  refine .look looks_startsIndex hc₂ fun _ ↦ ?_
  split
  · refine .call hc₂ (runs_indexSignature hp (c.opens_lo.mono hc₂) s) fun n c₃ _ hc₃
      ⟨hn, hkind, hparts⟩ ↦ .pure hc₃ ?_
    obtain ⟨kind, span, children⟩ := n
    obtain rfl : kind = .type .index := hkind
    exact hn.recast (by simp) rfl hparts
  rw [runs_peek, runs_isWord]
  split
  · exact .spend hc₂ fun d _ hcd _ ↦ .eatAny hcd fun _ e _ hce ↦ hnamed _ _ _ e hce
  refine .eat hc₂ (fun d _ hcd _ ↦ hnamed _ _ _ d hcd) (runs_isWord.2 ?_)
  split
  · exact .spend hc₂ fun d _ hcd _ ↦ hnamed _ _ _ d hcd
  rw [runs_isWord]
  split
  · exact .spend hc₂ fun d _ hcd _ ↦ hnamed _ _ _ d hcd
  · exact hnamed _ _ _ c₂ hc₂

theorem runs_classMembers (c : Place text) (s : Setting) :
    Runs c c s (classMembers p) fun n d ↦ c.Past d ∧ d.Has c.lo n := by
  unfold classMembers
  rw [runs_here]
  refine .expect (le_refl c) fun d _ hcd hpast ↦ .call hcd (Q := fun ns e ↦ e.HoldsAll ns) ?_
    fun ns e hde hce hns ↦ .node hce ⟨hpast.mono hde, ?_⟩
  · refine runs_iterate (fun ns e ↦ e.HoldsAll ns) Place.holdsAll_nil fun ns e hde hns ↦ ?_
    refine .eat (le_refl e) (fun e₁ h₁ _ _ ↦ .pure (s := s) h₁ (hns.of_le h₁))
      (.eat (le_refl e) (fun e₁ h₁ _ _ ↦ .pure (s := s) h₁ (hns.of_le h₁)) (runs_isEnd.2 ?_))
    split
    · exact runs_token.2 (runs_get.2 (.emit (le_refl e) fun e₁ h₁ _ ↦
        .pure h₁ (hns.of_le h₁)))
    refine .call (le_refl e) (runs_classMember hp e s) fun m e₁ h₁ _ hm ↦ ?_
    exact .when h₁ (fun _ ↦ runs_emit e₁ s _ _) fun e₂ h₂ he₂ ↦
      .pure he₂ (hns.append he₂ (hm.part h₂))
  · exact (c.opens_lo.passed (hpast.mono hde)).node rfl hns

theorem runs_heritage (c : Place text) (s : Setting) :
    Runs c c s (heritage p) fun n d ↦ d.Holds n := by
  unfold heritage
  rw [runs_here]
  refine .call (le_refl c) (hp .access c s) fun e d _ hcd (he : d.Has c.lo e) ↦ ?_
  split
  · rename_i span inner args
    refine .node hcd ⟨fun hfree hwhole ↦ ?_, Place.admits_of_isType ⟨_, rfl⟩⟩
    have hinst : (Node.mk .instantiation span [inner, args]).Whole :=
      Node.whole_mk.2 ⟨by simp, fun m hm ↦ hwhole.of_mem hm⟩
    have hpassed : d.Passed c.lo :=
      ⟨c.standsIn.lo, he.le hfree hinst, fun _ ↦ (c.opens_lo.mono hcd).outside⟩
    exact (hpassed.nodeOf rfl (he.holds.parts (by simp) rfl)).holds.lies hfree hwhole
  · refine .call hcd (runs_typeArguments? hp d s) fun args d₁ h₁ hc₁ hargs ↦ .node hc₁ ?_
    have he := he.of_le h₁
    exact (he.node List.mem_cons_self (c.opens_lo.mono hc₁) rfl
      (.cons he.holds (Place.holdsAll_one hargs))).holds

theorem runs_heritageList (c : Place text) (s : Setting) :
    Runs c c s (heritageList p) fun ns d ↦ d.HoldsAll ns := by
  unfold heritageList
  refine .call (le_refl c) (runs_heritage hp c s) fun first d _ hcd hfirst ↦ ?_
  refine (runs_iterate (fun ns e ↦ e.HoldsAll ns) (Place.holdsAll_one hfirst)
    fun ns e _ hns ↦ ?_).last hcd fun _ _ _ h ↦ h
  refine .eat (le_refl e) (fun e₁ h₁ _ _ ↦ ?_) (.pure (s := s) (le_refl e) hns)
  refine .call h₁ (runs_heritage hp e₁ s) fun n e₂ h₂ he₂ hn ↦ .pure (s := s) he₂ ?_
  exact (hns.of_le h₁).append h₂ hn

theorem runs_classBody (hlo : c.Opens lo) (hcd : c ≤ d) {params parent args : Node}
    (hparams : d.Holds params) (hparent : d.HoldsTogether [parent, args]) (s : Setting) :
    Runs c d s (classBody p lo params parent args) fun n e ↦ c.Past e ∧ e.Has lo n := by
  unfold classBody
  rw [runs_isTypescript]
  refine .eatWordAny hcd fun _ d₁ h₁ hcd₁ ↦ .choose hcd₁ (Q := fun ns e ↦ e.HoldsAll ns)
    (fun _ ↦ runs_heritageList hp d₁ s) (fun _ ↦ .pure (le_refl d₁) Place.holdsAll_nil)
    fun interfaces d₂ h₂ hcd₂ hinterfaces ↦ ?_
  refine runs_within.2 (.call hcd₂ (runs_classMembers hp d₂ _) fun members d₃ h₃ hcd₃
    ⟨hpast, hmembers⟩ ↦ .node hcd₃ ⟨hpast.of_le hcd₂, ?_⟩)
  have hlate : d ≤ d₃ := h₁.trans (h₂.trans h₃)
  have hparts : d₃.HoldsAll ([members, params] ++ interfaces) :=
    .cons hmembers.holds (.cons (hparams.of_le hlate) (hinterfaces.of_le h₃))
  refine (hlo.passed (hpast.of_le hcd₂)).nodeOf rfl
    (((hparent.of_le hlate).append hparts.together).of_perm ?_)
  exact .trans (.cons _ (.swap ..)) (.trans (.swap ..) (.cons _ (.cons _ (.swap ..))))

theorem runs_classRest (hlo : c.Opens lo) (s : Setting) :
    Runs c c s (classRest p lo) fun n d ↦ c.Past d ∧ d.Has lo n := by
  unfold classRest
  refine .call (le_refl c) (runs_typeParameters? hp c s) fun params c₁ _ hc₁ hparams ↦ ?_
  refine .eatWord hc₁ (fun c₂ h₂ hc₂ _ ↦ .call hc₂ (hp .access c₂ s) fun e c₃ h₃ hc₃ he ↦ ?_) ?_
  · have hparams := hparams.of_le (h₂.trans h₃)
    split
    · exact runs_classBody hp hlo hc₃ hparams (he.holds.parts (by simp) rfl) s
    · rw [runs_isTypescript]
      refine .choose hc₃ (Q := fun n d ↦ d.Holds n) (fun _ ↦ runs_typeArguments? hp c₃ s)
        (fun _ ↦ runs_noPart c₃ s) fun args c₄ h₄ hc₄ hargs ↦ ?_
      exact runs_classBody hp hlo hc₄ (hparams.of_le h₄)
        (Place.HoldsAll.together (.cons (he.part h₄) (Place.holdsAll_one hargs))) s
  · exact runs_classBody hp hlo hc₁ hparams
      (Place.HoldsAll.together (.cons Place.holds_absent (Place.holdsAll_one Place.holds_absent))) s

theorem runs_classWith (hlo : c.Opens lo) (s : Setting) {kind : Kind} (hkind : kind.isCommon = true)
    (needsName : Bool) :
    Runs c c s (classWith p lo kind needsName) fun n d ↦ d.Has lo n ∧ n.kind = kind := by
  unfold classWith
  refine .expectWord (le_refl c) fun c₁ _ hc₁ _ ↦ runs_form.2 ?_
  have hrest : ∀ (name : Node) (d : Place text), c ≤ d → d.Holds name → Runs c d s (do
      let body ← classRest p lo
      return .mk kind body.span [name, body]) fun n d ↦ d.Has lo n ∧ n.kind = kind := by
    intro name d hd hname
    refine .call hd (runs_classRest hp (hlo.mono hd) s) fun body e hde hce ⟨hpast, hbody⟩ ↦
      .pure hce ⟨hbody.around (List.mem_cons_of_mem _ (List.mem_singleton_self body)) hkind ?_, rfl⟩
    exact .cons (hname.of_le hde) (Place.holdsAll_one hbody.holds)
  have hnamed : Runs c c₁ s (do
      let name ← boundIdentifierNode true
      let body ← classRest p lo
      return .mk kind body.span [name, body]) fun n d ↦ d.Has lo n ∧ n.kind = kind :=
    .call hc₁ (runs_boundIdentifierNode c₁ s true) fun name d _ hd hname ↦
      hrest name d hd hname.2.holds
  split
  · split
    · exact hrest _ c₁ hc₁ Place.holds_absent
    · exact hnamed
  · split
    · exact hnamed
    · exact hrest _ c₁ hc₁ Place.holds_absent

end

end OptionalChain.Grammar
