import OptionalChain.Proofs.Placement.Functions
import OptionalChain.Proofs.Placement.Markup

/-!
# Operands

Arrow functions, literals, what stands in parentheses, and the other operands of expressions. Two
nodes that are read one after the other do not overlap, which gives the nodes made of them a shape.
-/

namespace OptionalChain.Grammar

open Text (At Boundary)

variable {text : List Char} {w c d e : Place text} {s : Setting} {lo : Nat} {p : Parts}

/-! ## Nodes with a shape -/

namespace Place

variable {n base key args typeArgs : Node}

/-- What was read before a place ends before what is read from there on. -/
theorem HasUpTo.hi_le (hbase : c.Has lo base) (hcd : c ≤ d) (hkey : e.Has d.lo key) (hde : d ≤ e)
    (hfree : e.stuck = false) (hwhole : base.Whole) (hwhole' : key.Whole) :
    base.span.hi ≤ key.span.lo := by
  have hdfree := free_of_le hde hfree
  calc base.span.hi
    _ ≤ c.prevEnd := (hbase.sits (free_of_le hcd hdfree) hwhole).hi_le
    _ ≤ d.prevEnd := prevEnd_le hcd
    _ ≤ d.lo := d.prevEnd_le_lo hdfree
    _ ≤ key.span.lo := (hkey.placed hfree hwhole').1

/-- A node with a base at its start that ends with the last token. -/
theorem HasUpTo.grow {kind : Kind} {cs : List Node} (hbase : c.Has lo base) (hn : base ∈ cs)
    (hparts : c.HoldsAll cs) (htargets : c.Clears (.mk kind ⟨base.span.lo, c.prevEnd⟩ cs))
    (hshape : c.stuck = false → (∀ m ∈ cs, m.Whole) →
      (Node.mk kind ⟨base.span.lo, c.prevEnd⟩ cs).Shape text)
    (hjoins : c.stuck = false → (∀ m ∈ cs, m.Whole) →
      c.Joins (.mk kind ⟨base.span.lo, c.prevEnd⟩ cs)) :
    c.Has lo (.mk kind ⟨base.span.lo, c.prevEnd⟩ cs) := by
  apply has_mk hparts htargets
  intro hfree hwhole
  have hseats := hbase.seats hfree (hwhole base hn)
  obtain ⟨hlo, hforward, -⟩ := hbase.placed hfree (hwhole base hn)
  have hle := Nat.le_trans hforward hseats.sits.hi_le
  exact ⟨hlo, hle, seats_mk hseats.opens (c.closes_prevEnd hfree) (.inr hle) (Nat.le_refl _)
    (hshape hfree hwhole) (hjoins hfree hwhole)⟩

/-- An access, if its token stands between its object and its key. -/
theorem HasUpTo.member {optional : Bool} (hbase : c.Has lo base) (hcd : c ≤ d)
    (hkey : e.Has d.lo key) (hde : d ≤ e)
    (hmeets : e.stuck = false → key.Whole → base.kind.onPath = true → e.Meets base.span.hi
      (Node.StepsWith (.mk (.member optional) ⟨base.span.lo, e.prevEnd⟩ [base, key]))) :
    e.Has lo (.mk (.member optional) ⟨base.span.lo, e.prevEnd⟩ [base, key]) := by
  have hbase' := hbase.of_le (hcd.trans hde)
  have hkeyWhole (hwhole : ∀ m ∈ [base, key], m.Whole) : key.Whole :=
    hwhole key (List.mem_cons_of_mem _ (List.mem_singleton_self key))
  refine hbase'.grow List.mem_cons_self (.cons hbase'.holds (holdsAll_one hkey.holds))
    (clears_of_hasTargets rfl) (fun hfree hwhole ↦ ?_)
    fun hfree hwhole ↦ ⟨trivial, fun n hn hpath ↦ ?_⟩
  · exact ⟨rfl,
      hbase.hi_le hcd hkey hde hfree (hwhole base List.mem_cons_self) (hkeyWhole hwhole),
      (hkey.placed hfree (hkeyWhole hwhole)).2.1, (hkey.sits hfree (hkeyWhole hwhole)).hi_le⟩
  · obtain rfl : base = n := Option.some.inj hn
    exact hmeets hfree (hkeyWhole hwhole) hpath

/-- A call, with type arguments between its callee and its arguments or without any. -/
theorem HasUpTo.call {optional : Bool} (hbase : c.Has lo base) (hcd : c ≤ d)
    (hargs : e.Has d.lo args) (hde : d ≤ e)
    (htype : typeArgs = .absent ∨ ∃ c₁, c ≤ c₁ ∧ c₁ ≤ d ∧ d.Has c₁.lo typeArgs)
    (hmeets : base.kind.onPath = true → e.Meets base.span.hi (Node.StepsWith
      (.mk (.call optional) ⟨base.span.lo, e.prevEnd⟩ [base, args, typeArgs]))) :
    e.Has lo (.mk (.call optional) ⟨base.span.lo, e.prevEnd⟩ [base, args, typeArgs]) := by
  have hbase' := hbase.of_le (hcd.trans hde)
  have htype' : e.Holds typeArgs := by
    obtain rfl | ⟨c₁, -, -, htype⟩ := htype
    · exact holds_absent
    · exact htype.part hde
  refine hbase'.grow List.mem_cons_self
    (.cons hbase'.holds (.cons hargs.holds (holdsAll_one htype'))) (clears_of_hasTargets rfl)
    (fun hfree hwhole ↦ ?_) fun hfree hwhole ↦ ⟨⟨?_, ?_⟩, fun n hn hpath ↦ ?_⟩
  all_goals
    have hparts : base.Whole ∧ args.Whole ∧ typeArgs.Whole := by simpa using hwhole
    obtain ⟨hbaseWhole, hargsWhole, htypeWhole⟩ := hparts
  · refine ⟨rfl, hbase.hi_le hcd hargs hde hfree hbaseWhole hargsWhole,
      (hargs.sits hfree hargsWhole).hi_le, ?_⟩
    obtain rfl | ⟨c₁, hc₁, hd, htype⟩ := htype
    · exact .inl rfl
    · exact .inr ⟨hbase.hi_le hc₁ htype hd (free_of_le hde hfree) hbaseWhole htypeWhole,
        htype.hi_le (le_refl d) hargs hde hfree htypeWhole hargsWhole⟩
  · exact (hbase'.sits hfree hbaseWhole).hi_le
  · obtain rfl | ⟨c₁, -, -, htype⟩ := htype
    · exact Nat.zero_le _
    · have htype := htype.of_le hde
      exact Nat.le_trans (htype.placed hfree htypeWhole).2.1 (htype.sits hfree htypeWhole).hi_le
  · obtain rfl : base = n := Option.some.inj hn
    exact hmeets hpath

/-- An argument around a value that starts no earlier. -/
theorem HasUpTo.argument {span : Span} (hn : c.Has lo n) (hlo : c.Opens lo)
    (hspan : span = n.span ∨ span = ⟨lo, c.prevEnd⟩) (spread : Bool) :
    c.Has lo (.mk (.argument spread) span [n]) := by
  apply has_mk (holdsAll_one hn.holds) (clears_of_hasTargets rfl)
  intro hfree hwhole
  have hnWhole := hwhole n (List.mem_singleton_self n)
  have hseats := hn.seats hfree hnWhole
  obtain ⟨hle, hforward, -⟩ := hn.placed hfree hnWhole
  obtain rfl | rfl := hspan
  · exact ⟨hle, hforward, seats_mk hseats.opens hseats.closes (.inr hforward) hseats.sits.hi_le
      ⟨Nat.le_refl _, Nat.le_refl _⟩ (joins_of_stepBase? rfl)⟩
  · have hall : lo ≤ c.prevEnd := hn.le hfree hnWhole
    exact ⟨Nat.le_refl _, hall, seats_mk hlo (c.closes_prevEnd hfree) (.inr hall) (Nat.le_refl _)
      ⟨hle, hseats.sits.hi_le⟩ (joins_of_stepBase? rfl)⟩

end Place

section

variable (hp : Sound text p)
include hp

/-! ## Arrow functions -/

/-- The parts of an arrow function in front of its body. -/
def ArrowHead.parts (h : ArrowHead) : List Node :=
  [h.params, h.typeParams, h.result]

omit hp in
theorem runs_arrowMark (c : Place text) (s : Setting) :
    Runs c c s arrowMark fun _ d ↦ c.Past d := by
  unfold arrowMark
  rw [runs_token]
  exact .guard (fun _ ↦ .failExpected (le_refl c)) fun _ ↦ runs_expect c s .arrow

theorem runs_arrowHead (c : Place text) (s : Setting) (generic : Bool) :
    Runs c c s (arrowHead p generic) fun h d ↦ c.Past d ∧ d.HoldsAll h.parts := by
  unfold arrowHead
  refine .choose (le_refl c) (Q := fun n d ↦ d.Holds n)
    (fun _ ↦ (runs_typeParameters hp c s).mono fun _ _ _ hn ↦ hn.2.holds)
    (fun _ ↦ runs_noPart c s) fun typeParams c₁ h₁ hc₁ htypeParams ↦ ?_
  refine .call hc₁ (runs_within.2 (runs_parameters hp c₁ _ false))
    fun params c₂ h₂ hc₂ ⟨_, hparams, _⟩ ↦ ?_
  refine .call hc₂ (runs_returnAnnotation? hp c₂ s) fun result c₃ h₃ hc₃ hresult ↦ ?_
  refine .call hc₃ (runs_arrowMark c₃ s) fun _ c₄ h₄ hc₄ hpast ↦ .pure hc₄ ⟨hpast.of_le hc₃, ?_⟩
  exact .cons (hparams.part (h₃.trans h₄)) (.cons (htypeParams.of_le (h₂.trans (h₃.trans h₄)))
    (Place.holdsAll_one (hresult.of_le h₄)))

theorem runs_arrowBody {h : ArrowHead} (hlo : c.Passed lo) (hhead : c.HoldsAll h.parts)
    (s : Setting) (async : Bool) :
    Runs c c s (arrowBody p lo async h) fun n d ↦ d.Has lo n ∧ n.kind = .arrow := by
  unfold arrowBody
  rw [runs_within, runs_isPunct]
  refine .choose (le_refl c) (Q := fun n d ↦ d.Has c.lo n) (fun _ ↦ runs_bracedBody hp c _)
    (fun _ ↦ hp .assignment c _) fun body d hcd _ hbody ↦ .node hcd ⟨?_, rfl⟩
  apply (hlo.mono hcd).node rfl
  have hparts := hhead.of_le hcd
  exact .cons (hparts _ List.mem_cons_self) (.cons hbody.holds
    fun n hn ↦ hparts n (List.mem_cons_of_mem _ hn))

theorem runs_arrow? (hlo : c.Opens lo) (s : Setting) (async generic : Bool) :
    Runs c c s (arrow? p lo async generic) fun n? d ↦
      ∀ n, n? = some n → d.Has lo n ∧ n.kind = .arrow := by
  unfold arrow?
  rw [runs_get]
  refine .attempt (le_refl c) (runs_within.2 (runs_arrowHead hp c _ generic))
    (fun h d _ hcd ⟨hpast, hhead⟩ ↦ ?_) fun d _ hcd ↦ .pure hcd (by simp)
  have hlod : d.Passed lo := hlo.passed hpast
  dsimp only
  rw [runs_read]
  split
  · refine .attempt hcd (Q := fun n e ↦ e.Has lo n ∧ n.kind = .arrow) ?_
      (fun n e _ hce hn ↦ ?_) fun e _ hce ↦ ?_
    · refine .call (le_refl d) (runs_arrowBody hp hlod hhead s async) fun n e hde _ hn ↦
        runs_isPunct.2 (.guard (fun _ ↦ .failExpected hde) fun _ ↦ .pure hde hn)
    · exact .pure hce fun m hm ↦ by rwa [← Option.some.inj hm]
    · exact .rewind (le_refl c) hce fun d hcd _ ↦ .pure hcd (by simp)
  · refine .call hcd (runs_arrowBody hp hlod hhead s async) fun n e _ hce hn ↦ .pure hce ?_
    exact fun m hm ↦ by rwa [← Option.some.inj hm]

theorem runs_shortArrow (hlo : c.Opens lo) (s : Setting) (async : Bool) :
    Runs c c s (shortArrow p lo async) fun n d ↦ d.Has lo n ∧ n.kind = .arrow := by
  unfold shortArrow
  refine .call (le_refl c) (runs_within.2 (runs_identifier c _)) fun x d _ hcd hx ↦ ?_
  refine .call hcd (runs_arrowMark d s) fun _ e hde hce hpast ↦ ?_
  have hname : e.Has c.lo (.mk (.pattern (.name x.1 false)) x.2 [.absent]) :=
    (hx.of_le hde).has (.inr (.inr ⟨false, rfl⟩)) (Place.holdsAll_one Place.holds_absent)
  have hparams :
      e.Has c.lo (.mk .parameters x.2 [.mk (.pattern (.name x.1 false)) x.2 [.absent]]) :=
    hname.around (List.mem_singleton_self _) rfl (Place.holdsAll_one hname.holds)
  refine (runs_arrowBody hp (hlo.passed (hpast.of_le hcd)) ?_ s async).last hce fun _ _ _ hn ↦ hn
  exact .cons hparams.holds (.cons Place.holds_absent (Place.holdsAll_one Place.holds_absent))

/-! ## Arguments and arrays -/

omit hp in
theorem runs_asValue {m : Parser Node} {Q : Node → Place text → Prop}
    (h : ∀ s, Runs c c s m Q) (s : Setting) : Runs c c s (asValue m) Q :=
  runs_within.2 (h _)

theorem runs_argument (c : Place text) (s : Setting) :
    Runs c c s (argument p) fun n d ↦
      d.Has c.lo n ∧ d.Has c.lo (argumentValue n) ∧ n.isStep = false := by
  unfold argument
  rw [runs_here]
  refine .eat (le_refl c) (fun c₁ h₁ hc₁ _ ↦ ?_) ?_
  · refine .call hc₁ (runs_asValue (hp .assignment c₁) s) fun e d hd hcd he ↦ .node hcd ?_
    have he : d.Has c.lo e := he.from_le hc₁
    exact ⟨he.argument (c.opens_lo.mono hcd) (.inr rfl) true, he, rfl⟩
  · refine .call (le_refl c) (runs_asValue (hp .assignment c) s) fun e d _ hcd he ↦ .pure hcd ?_
    exact ⟨he.argument (c.opens_lo.mono hcd) (.inl rfl) false, he, rfl⟩

theorem runs_arguments (c : Place text) (s : Setting) :
    Runs c c s (arguments p) fun n d ↦ c.lo < d.prevEnd ∧ d.Has c.lo n := by
  unfold arguments
  rw [runs_here]
  refine .call (le_refl c) ((runs_expect c s .lparen).and (runs_expect_lt c s .lparen))
    fun _ d _ hcd ⟨hpast, hlt⟩ ↦ .call hcd (Q := fun ns e ↦ e.HoldsAll ns) ?_
    fun ns e hde hce hns ↦ .node hce ⟨Nat.lt_of_lt_of_le hlt (Place.prevEnd_le hde),
      (c.opens_lo.passed (hpast.mono hde)).node rfl hns⟩
  refine runs_iterate (fun ns e ↦ e.HoldsAll ns) Place.holdsAll_nil fun ns e hde hns ↦ ?_
  refine .endsList (le_refl e) (fun e₁ h₁ _ _ ↦ .pure h₁ (hns.of_le h₁)) ?_
  refine .call (le_refl e) (runs_argument hp e s) fun n e₁ h₁ _ hn ↦ ?_
  have hall := hns.append h₁ hn.1.holds
  refine .endsList h₁ (fun e₂ h₂ he₂ _ ↦ .pure he₂ (hall.of_le h₂)) ?_
  exact .expect h₁ fun e₂ h₂ he₂ _ ↦ .pure he₂ (hall.of_le h₂)

theorem runs_arrayLiteral (c : Place text) (s : Setting) :
    Runs c c s (arrayLiteral p) fun n d ↦ d.Has c.lo n ∧ n.kind = .array := by
  unfold arrayLiteral
  rw [runs_here]
  refine .expect (le_refl c) fun d _ hcd hpast ↦ .call hcd (Q := fun ns e ↦ e.HoldsElements ns) ?_
    fun ns e hde hce hns ↦ .node hce ⟨(c.opens_lo.passed (hpast.mono hde)).shaped
      (Node.shape_of_isPlain rfl) rfl (hns.clears rfl) hns.all, rfl⟩
  refine runs_iterate (fun ns e ↦ e.HoldsElements ns) ⟨Place.holdsAll_nil, by simp⟩
    fun ns e hde hns ↦ ?_
  refine .endsList (le_refl e) (fun e₁ h₁ _ _ ↦ .pure h₁ (hns.of_le h₁)) ?_
  refine .eat (le_refl e)
    (fun e₁ h₁ _ _ ↦ .pure (s := s) h₁ (hns.append h₁ Place.holds_absent rfl)) ?_
  refine .call (le_refl e) (runs_argument hp e s) fun n e₁ h₁ _ hn ↦ ?_
  have hall := hns.append h₁ hn.1.holds hn.2.2
  refine .eat h₁ (fun e₂ h₂ he₂ _ ↦ .pure (s := s) he₂ (hall.of_le h₂)) ?_
  exact .expect h₁ fun e₂ h₂ he₂ _ ↦ .pure he₂ (hall.of_le h₂)

/-! ## Objects -/

theorem runs_methodRestOf (hlo : c.Opens lo) (s : Setting) (async generator : Bool)
    {check : Node → Parser Unit} (hcheck : ∀ n (d : Place text) s, Runs d d s (check n) Anywhere) :
    Runs c c s (methodRestOf p lo async generator check) (IsFunction lo) :=
  runs_within.2 (runs_functionChecked hp hlo _ async generator hcheck)

theorem runs_plainMethod {key : Node} (hlo : c.Opens lo) (hkey : c.Holds key) (s : Setting)
    (async generator : Bool) :
    Runs c c s (plainMethod p lo async generator key) fun n d ↦ d.Has lo n := by
  unfold plainMethod
  refine .call (le_refl c) (runs_methodRestOf hp hlo s async generator
    fun _ d _ ↦ .pure (le_refl d) trivial) fun f d _ hcd hf ↦ .pure hcd ?_
  exact hf.has rfl (.cons (hkey.of_le hcd) (Place.holdsAll_one hf.self.holds))

theorem runs_getterOf {key : Node} (hlo : c.Opens lo) (hkey : c.Holds key) (s : Setting) :
    Runs c c s (getterOf p lo key) fun n d ↦ d.Has lo n := by
  unfold getterOf
  refine .call (le_refl c) (runs_methodRestOf hp hlo s false false (runs_checkGetter key))
    fun f d _ hcd hf ↦ ?_
  have hkey := hkey.of_le hcd
  obtain ⟨stop, params, body, typeParams, result, rfl, -, -, -, -, hall⟩ := hf.exists_parts
  refine .pure hcd (hf.has rfl (.cons hkey (.cons (hall result ?_)
    (Place.holdsAll_one (hall body ?_)))))
  · simp
  · simp

theorem runs_setterOf {key : Node} (hlo : c.Opens lo) (hkey : c.Holds key) (s : Setting) :
    Runs c c s (setterOf p lo key) fun n d ↦ d.Has lo n := by
  unfold setterOf
  refine .call (le_refl c) (runs_methodRestOf hp hlo s false false (runs_checkSetter key))
    fun f d _ hcd hf ↦ ?_
  obtain ⟨stop, params, body, typeParams, result, rfl, -, -, -, hkind, hall⟩ := hf.exists_parts
  refine .when hcd (fun _ ↦ runs_emit d s _ _) fun e hde hce ↦ .pure hce ?_
  obtain ⟨kind, span, items⟩ := params
  obtain rfl : kind = .parameters := hkind
  have hall := hall.of_le hde
  have hitems : e.HoldsTogether items := (hall _ List.mem_cons_self).parts (by simp) rfl
  have hothers : e.HoldsTogether [key, body] :=
    Place.HoldsAll.together (.cons (hkey.of_le hce) (Place.holdsAll_one (hall body (by simp))))
  refine (hf.of_le hde).hasOf rfl ((hothers.append hitems).of_perm (.cons key ?_))
  exact (List.perm_append_singleton body items).symm

omit hp in
theorem looks_followsKey (named : Bool) : Looks (followsKey named) := by
  unfold followsKey
  apply looks_form.bind
  intro t
  split <;> exact .pure _

theorem runs_shorthandOf {b : Place text} {name : String} {span : Span} (hlo : b.Opens lo)
    (hname : Named b (name, span) c) (s : Setting) :
    Runs c c s (shorthandOf p lo name span) fun n d ↦ d.Has lo n := by
  unfold shorthandOf
  refine .call (le_refl c) (runs_checkShorthand c s name span) fun _ c₁ h₁ _ _ ↦ ?_
  have hident : c₁.Has b.lo (.mk (.ident name) span []) :=
    (hname.of_le h₁).has (.inl rfl) Place.holdsAll_nil
  refine .eat h₁ (fun c₂ h₂ hc₂ _ ↦ ?_) (.pure (s := s) h₁ ?_)
  · refine .call hc₂ (runs_asValue (hp .assignment c₂) s) fun value c₃ h₃ hc₃ hvalue ↦ .node hc₃ ?_
    exact (hlo.passed (hname.past.mono hc₃)).node rfl
      (.cons (hident.part (h₂.trans h₃)) (Place.holdsAll_one hvalue.holds))
  · exact (hident.around (List.mem_singleton_self _) rfl (Place.holdsAll_one hident.holds)).mono
      (le_refl c₁) hlo.le (Nat.le_refl _)

theorem runs_propertyByWord {b : Place text} {name : String} {span : Span} (hlo : b.Opens lo)
    (hbc : b ≤ c) (hname : Named b (name, span) c) (s : Setting) :
    Runs c c s (propertyByWord p lo name span) fun n d ↦ d.Has lo n := by
  have hlo' := hlo.mono hbc
  have hshort := runs_shorthandOf hp hlo hname s
  unfold propertyByWord
  rw [runs_form]
  split
  · exact hshort
  · exact hshort
  · exact hshort
  · split
    · refine .call (le_refl c) (runs_propertyKey hp c s) fun key d hcd _ hkey ↦ ?_
      exact (runs_getterOf hp (hlo'.mono hcd) hkey.has.holds s).last hcd fun _ _ _ hn ↦ hn
    · refine .call (le_refl c) (runs_propertyKey hp c s) fun key d hcd _ hkey ↦ ?_
      exact (runs_setterOf hp (hlo'.mono hcd) hkey.has.holds s).last hcd fun _ _ _ hn ↦ hn
    · refine .eatAny (le_refl c) fun generator d hcd _ ↦ ?_
      refine .call hcd (runs_propertyKey hp d s) fun key e _ hce hkey ↦ ?_
      exact (runs_plainMethod hp (hlo'.mono hce) hkey.has.holds s true generator).last hce
        fun _ _ _ hn ↦ hn
    · exact runs_get.2 (runs_isTypescript.2 (.failHere (le_refl c)))

theorem runs_propertyOfWord {b : Place text} {name : String} {span : Span} (hlo : b.Opens lo)
    (hbc : b ≤ c) (hname : Named b (name, span) c) (s : Setting) :
    Runs c c s (propertyOfWord p lo name span) fun n d ↦ d.Has lo n := by
  unfold propertyOfWord
  rw [runs_isPunct]
  refine .ite (fun _ ↦ runs_token.2 ?_) fun _ ↦ runs_propertyByWord hp hlo hbc hname s
  refine .spend (le_refl c) fun d _ hcd _ ↦ .emit hcd fun e _ hce ↦ ?_
  exact (runs_propertyByWord hp hlo (hbc.trans hce) (hname.of_le hce) s).last hce fun _ _ _ hn ↦ hn

omit hp in
theorem runs_eatAccessModifier (c : Place text) (s : Setting) :
    Runs c c s eatAccessModifier Anywhere := by
  have htake : ∀ b : Bool, Runs c c s (do if b then bump) Anywhere := by
    intro b
    cases b with
    | true => exact (runs_bump c s).anywhere
    | false => exact .pure (le_refl c) trivial
  unfold eatAccessModifier
  rw [runs_peek, runs_form]
  split
  · exact htake _
  · exact htake _
  · exact htake _
  · exact .pure (le_refl c) trivial

theorem runs_propertyNamed (hlo : c.Opens lo) (s : Setting) :
    Runs c c s (propertyNamed p lo) fun n d ↦ d.Has lo n := by
  unfold propertyNamed
  rw [runs_token]
  refine .call (le_refl c) (runs_propertyKey hp c s) fun key c₁ h₁ _ hkey ↦ ?_
  rw [runs_isTypescript]
  refine .look (looks_followsKey _) h₁ fun _ ↦ ?_
  have hpassed := hlo.passed hkey.past
  split
  · refine runs_token.2 (.emit h₁ fun c₂ h₂ hc₂ ↦ runs_spanFrom.2 (.pure hc₂ ?_))
    refine ⟨fun _ hwhole ↦ ?_, ?_⟩
    · exact absurd (hwhole.of_mem (List.mem_cons_of_mem _ List.mem_cons_self))
        (Node.not_whole_invalid _ _)
    · refine (Place.clears_of_hasTargets rfl).admits (List.forall_mem_cons.2
        ⟨(hkey.has.part h₂).admits, List.forall_mem_singleton.2 ?_⟩)
      exact Place.admits_leaf rfl
  refine .eat h₁ (fun c₂ h₂ hc₂ _ ↦ ?_) (runs_isPunct.2 (runs_isPunct.2 ?_))
  · refine .call hc₂ (runs_asValue (hp .assignment c₂) s) fun value c₃ h₃ hc₃ hvalue ↦ .node hc₃ ?_
    exact (hpassed.mono (h₂.trans h₃)).node rfl
      (.cons (hkey.has.part (h₂.trans h₃)) (Place.holdsAll_one hvalue.holds))
  split
  · exact (runs_plainMethod hp (hlo.mono h₁) hkey.has.holds s false false).last h₁ fun _ _ _ hn ↦ hn
  · split
    · rename_i name escaped hform
      exact (runs_propertyOfWord hp hlo h₁ (hkey.named name escaped hform) s).last h₁
        fun _ _ _ hn ↦ hn
    · exact runs_get.2 (.failHere h₁)

theorem runs_objectProperty (c : Place text) (s : Setting) :
    Runs c c s (objectProperty p) fun n d ↦ d.Has c.lo n := by
  unfold objectProperty
  rw [runs_here]
  refine .eat (le_refl c) (fun c₁ h₁ hc₁ hpast ↦ ?_) (.eat (le_refl c) (fun c₁ h₁ hc₁ _ ↦ ?_) ?_)
  · refine .call hc₁ (runs_asValue (hp .assignment c₁) s) fun e c₂ h₂ hc₂ he ↦ .node hc₂ ?_
    exact ((c.opens_lo.passed hpast).mono h₂).node rfl (Place.holdsAll_one he.holds)
  · refine .call hc₁ (runs_propertyKey hp c₁ s) fun key c₂ h₂ hc₂ hkey ↦ ?_
    exact (runs_plainMethod hp (c.opens_lo.mono hc₂) hkey.has.holds s false true).last hc₂
      fun _ _ _ hn ↦ hn
  · refine .call (le_refl c) (runs_eatAccessModifier c s) fun _ c₁ h₁ hc₁ _ ↦ ?_
    exact (runs_propertyNamed hp (c.opens_lo.mono h₁) s).last h₁ fun _ _ _ hn ↦ hn

theorem runs_objectLiteral (c : Place text) (s : Setting) :
    Runs c c s (objectLiteral p) fun n d ↦ d.Has c.lo n ∧ n.kind = .object := by
  unfold objectLiteral
  rw [runs_here]
  refine .expect (le_refl c) fun c₁ h₁ hc₁ hpast ↦ ?_
  refine .call hc₁ (runs_commaList fun d _ ↦ runs_objectProperty hp d s) fun ns c₂ h₂ hc₂ hns ↦
    .node hc₂ ⟨?_, rfl⟩
  exact ((c.opens_lo.passed hpast).mono h₂).node rfl (hns.all.part (le_refl c₂))

/-! ## Templates and regular expressions -/

theorem runs_templateLiteral (hfree : c.stuck = false) (s : Setting) (tagged : Bool) :
    Runs c c s (templateLiteral p tagged) fun n d ↦ d.Has c.lo n ∧ n.kind = .template := by
  unfold templateLiteral
  rw [runs_here]
  refine .call (le_refl c) (runs_templateParts hfree fun d _ ↦
    runs_asValue (hp .expression d) s) fun ns d _ hcd hns ↦ .node hcd ⟨?_, rfl⟩
  exact (c.opens_lo.passed hns.past).node rfl (hns.all.part (le_refl d))

omit hp in
theorem exists_append_of_regexBody {cs rest : List Char} {inClass : Bool}
    (h : Token.regexBody inClass cs = some rest) : ∃ v, cs = v ++ rest := by
  fun_induction Token.regexBody inClass cs with
  | case1 => cases h
  | case2 => cases h
  | case3 _ a cs _ ih =>
    obtain ⟨v, rfl⟩ := ih h
    exact ⟨'\\' :: a :: v, rfl⟩
  | case4 => cases h
  | case5 _ cs _ _ ih =>
    obtain ⟨v, rfl⟩ := ih h
    exact ⟨'[' :: v, rfl⟩
  | case6 _ cs _ _ _ ih =>
    obtain ⟨v, rfl⟩ := ih h
    exact ⟨']' :: v, rfl⟩
  | case7 _ a =>
    cases h
    exact ⟨[a], rfl⟩
  | case8 _ a cs _ _ _ _ _ ih =>
    obtain ⟨v, rfl⟩ := ih h
    exact ⟨a :: v, rfl⟩

omit hp in
theorem regexFlags_append (cs : List Char) : (regexFlags cs).1 ++ (regexFlags cs).2 = cs := by
  unfold regexFlags
  split
  · rw [List.span_eq_takeWhile_dropWhile, List.takeWhile_append_dropWhile]
  · rfl

omit hp in
theorem runs_checkFlags (c : Place text) (s : Setting) (span : Span) (flags : List Char) :
    Runs c c s (checkFlags span flags) Anywhere := by
  unfold checkFlags
  refine .when (le_refl c) (fun _ ↦ runs_emit c s _ _) fun d hcd _ ↦ ?_
  split
  · exact (runs_emit d s _ _).last hcd fun _ _ _ _ ↦ trivial
  · exact .pure hcd trivial

omit hp in
/-- The token is taken for the start of a regular expression that does not end. -/
theorem Place.exists_stuck (c : Place text) (hfree : c.stuck = false)
    (hhead : c.cursor.text.head? = some '/') (v : List Char) (hv : v <+: c.cursor.text)
    (error : SyntaxError) :
    ∃ d : Place text, d.cursor = { c.cursor with
      token := ⟨.invalid error, ⟨c.lo, c.lo + Text.size v⟩, c.cursor.token.newline⟩
      stuck := true } ∧ c ≤ d := by
  have hstop : Boundary text (c.lo + Text.size v) := by
    obtain ⟨rest, hrest⟩ := hv
    obtain hnil | hat := c.standsIn.at_lo
    · rw [hnil] at hhead
      cases hhead
    · rw [← hrest] at hat
      exact hat.append.boundary
  have hform : c.cursor.token.form ≠ .endOfText := fun hend ↦ by
    rw [c.standsIn.text_nil hend] at hhead
    cases hhead
  have hle : c.lo ≤ c.lo + Text.size v := Nat.le_add_right _ _
  have hstands : Cursor.StandsIn text { c.cursor with
      token := ⟨.invalid error, ⟨c.lo, c.lo + Text.size v⟩, c.cursor.token.newline⟩
      stuck := true } :=
    { lo := c.standsIn.lo
      hi := hstop
      prevEnd := c.standsIn.prevEnd
      forward := hle
      at_lo := c.standsIn.at_lo
      at_hi := fun h ↦ by cases h
      prevEnd_le := fun h ↦ by cases h
      prevEnd_le_hi := Nat.le_trans (c.prevEnd_le_lo hfree) hle
      form := .inl ⟨error, rfl⟩
      stuck := fun _ ↦ ⟨⟨error, rfl⟩, hhead⟩
      comments := c.standsIn.comments
      inOrder := c.standsIn.inOrder
      outside := c.standsIn.outside
      before := fun _ ↦ c.standsIn.before hform
      here := fun _ ↦ c.standsIn.here hform
      fresh := c.standsIn.fresh
      scanned := fun h ↦ by cases h
      text_nil := fun h ↦ by cases h
      rest_nil := fun h ↦ by cases h
      hi_eq_lo := fun h ↦ by cases h
      listed_eq := fun h ↦ by cases h }
  exact ⟨⟨_, hstands⟩, rfl, ⟨Nat.le_refl _, Nat.le_refl _, fun _ ↦ hfree, id, ⟨[], by simp⟩,
    fun h ↦ absurd h hform⟩⟩

omit hp in
theorem runs_regexLiteral (hfree : c.stuck = false) (hhead : c.cursor.text.head? = some '/')
    (s : Setting) :
    Runs c c s regexLiteral fun n d ↦ d.Has c.lo n ∧ n.kind = .literal .regex := by
  unfold regexLiteral
  rw [runs_get]
  dsimp only
  split
  · obtain ⟨d, hd, hcd⟩ := c.exists_stuck hfree hhead _ (List.takeWhile_prefix (!Token.isLineEnd ·))
      ⟨⟨c.lo, c.lo + Text.size (c.cursor.text.takeWhile (!Token.isLineEnd ·))⟩, .unterminatedRegex⟩
    exact .set hd (.failHere hcd)
  · rename_i after hbody
    obtain ⟨tail, htail⟩ := List.head?_eq_some_iff.1 hhead
    obtain ⟨v, hv⟩ := exists_append_of_regexBody hbody
    have htext : c.cursor.text = ('/' :: v ++ (regexFlags after).1) ++ (regexFlags after).2 := by
      rw [List.append_assoc, regexFlags_append, List.cons_append, ← hv, htail]
      rfl
    have hstop : Text.size c.cursor.text - Text.size (regexFlags after).2 =
        Text.size ('/' :: v ++ (regexFlags after).1) := by
      rw [htext, Text.size_append, Nat.add_sub_cancel]
    rw [hstop]
    obtain ⟨d, hd, hcd, hprev⟩ := c.exists_within hfree htext
    refine .set hd (.call hcd (runs_checkFlags d s _ _) fun _ e hde hce _ ↦ .pure hce ⟨?_, rfl⟩)
    have hlit : d.Has c.lo (.mk (.literal .regex) ⟨c.lo, d.prevEnd⟩ []) :=
      Place.has_plain (s := ⟨c.lo, d.prevEnd⟩) rfl (fun _ ↦ c.opens_lo.mono hcd) d.closes_prevEnd
        (Nat.le_refl _) Place.holdsAll_nil
        fun _ _ ↦ by rw [hprev]; exact Nat.le_add_right _ _
    rw [hprev] at hlit
    exact hlit.of_le hde

/-! ## Parentheses -/

omit hp in
theorem Place.HasUpTo.paren {n : Node} (hn : c.Has lo n) (hlo : c.Passed lo) :
    c.Has lo (.mk .paren ⟨lo, c.prevEnd⟩ [n]) := by
  apply Place.has_mk (Place.holdsAll_one hn.holds) (Place.clears_of_hasTargets rfl)
  intro hfree hwhole
  have hnWhole := hwhole n (List.mem_singleton_self n)
  exact ⟨Nat.le_refl _, hlo.le, Place.seats_mk (hlo.opens hfree) (c.closes_prevEnd hfree)
    (.inr hlo.le) (Nat.le_refl _) ⟨(hn.placed hfree hnWhole).1, (hn.sits hfree hnWhole).hi_le⟩
    (Place.joins_of_stepBase? rfl)⟩

/-- The nodes stand in the text one after the other. -/
def Place.InOrder (c : Place text) (ns : List Node) : Prop :=
  ns.Pairwise fun n m ↦ c.stuck = false → n.Whole → m.Whole → n.span.hi ≤ m.span.lo

omit hp in
theorem Place.InOrder.of_le {ns : List Node} (h : c.InOrder ns) (hcd : c ≤ d) : d.InOrder ns :=
  h.imp fun hle hfree ↦ hle (Place.free_of_le hcd hfree)

omit hp in
/-- One more node after those that were read. -/
theorem Place.InOrder.append {ns : List Node} {n : Node} (h : c.InOrder ns) (hns : c.HasAll lo ns)
    (hcd : c ≤ d) (hn : e.Has d.lo n) (hde : d ≤ e) : e.InOrder (ns ++ [n]) := by
  apply List.pairwise_append.2
  refine ⟨h.of_le (hcd.trans hde), List.pairwise_singleton _ _,
    fun a ha b hb hfree hwhole hwhole' ↦ ?_⟩
  obtain rfl := List.mem_singleton.1 hb
  exact (hns a ha).hi_le hcd hn hde hfree hwhole hwhole'

omit hp in
/-- Nodes in order, as one sequence. -/
theorem Place.HasAll.sequence {first : Node} {rest : List Node} (hns : c.HasAll lo (first :: rest))
    (horder : c.InOrder (first :: rest)) :
    c.Has lo (.mk .sequence (first.span.upTo (rest.getLastD first).span) (first :: rest)) := by
  apply Place.has_mk (fun m hm ↦ (hns m hm).holds) (Place.clears_of_hasTargets rfl)
  intro hfree hwhole
  have hlast : rest.getLastD first ∈ first :: rest := List.getLastD_mem_cons
  generalize rest.getLastD first = last at hlast ⊢
  have hfirstWhole := hwhole first List.mem_cons_self
  have hlastSeats := (hns last hlast).seats hfree (hwhole last hlast)
  have hfirst := (hns first List.mem_cons_self).placed hfree hfirstWhole
  have hle : first.span.lo ≤ last.span.hi := by
    obtain rfl | hrest := List.mem_cons.1 hlast
    · exact hfirst.2.1
    · calc first.span.lo
        _ ≤ first.span.hi := hfirst.2.1
        _ ≤ last.span.lo := (List.pairwise_cons.1 horder).1 last hrest hfree hfirstWhole
            (hwhole last hlast)
        _ ≤ last.span.hi := ((hns last hlast).placed hfree (hwhole last hlast)).2.1
  exact ⟨hfirst.1, hle, Place.seats_mk
    ((hns first List.mem_cons_self).seats hfree hfirstWhole).opens hlastSeats.closes (.inr hle)
    hlastSeats.sits.hi_le (Node.shape_of_isPlain rfl) (Place.joins_of_isPlain rfl)⟩

omit hp in
theorem looks_isOptionalName : Looks parenItem.isOptionalName := by
  unfold parenItem.isOptionalName
  refine .bind looks_peekTwo fun _ ↦ .bind looks_form fun _ ↦ ?_
  split
  · exact .bind looks_isTypescript fun _ ↦ .pure _
  · exact .pure _

theorem runs_parenItem_typed (c : Place text) (s : Setting) (n : Node) :
    Runs c c s (parenItem.typed p n) fun item _ ↦ item.1 = n := by
  unfold parenItem.typed
  refine .call (le_refl c) (runs_annotation? hp c s) fun _ c₁ _ hc₁ _ ↦ ?_
  exact .call hc₁ (runs_initializer? hp c₁ s) fun _ c₂ _ hc₂ _ ↦ .pure hc₂ rfl

theorem runs_parenItem (c : Place text) (s : Setting) :
    Runs c c s (parenItem p) fun item d ↦ d.Has c.lo (argumentValue item.1) := by
  unfold parenItem
  refine .look looks_isOptionalName (le_refl c) fun _ ↦ ?_
  split
  · unfold identifierNode
    rw [bind_assoc]
    refine .call (le_refl c) (runs_identifier c s) fun x c₁ h₁ _ hx ↦ ?_
    refine runs_pure.2 (.spend h₁ fun c₂ h₂ hc₂ _ ↦ ?_)
    refine (runs_parenItem_typed hp c₂ s _).last hc₂ fun item d hd hn ↦ ?_
    rw [hn]
    exact (hx.of_le (h₂.trans hd)).has (.inl rfl) Place.holdsAll_nil
  · refine .call (le_refl c) (runs_argument hp c s) fun n c₁ h₁ _ ⟨_, hn, _⟩ ↦ ?_
    rw [runs_isTypescript, runs_isPunct]
    split
    · refine (runs_parenItem_typed hp c₁ s n).last h₁ fun item d hd heq ↦ ?_
      rw [heq]
      exact hn.of_le hd
    · exact .pure h₁ hn

/-- The values of items in parentheses. -/
def itemValues (items : List (Node × Bool)) : List Node :=
  items.map fun item ↦ argumentValue item.1

theorem runs_parenItems (c : Place text) (s : Setting) :
    Runs c c s (parenItems p) fun items d ↦
      c.Past d ∧ d.HasAll c.lo (itemValues items) ∧ d.InOrder (itemValues items) := by
  unfold parenItems
  refine .expect (le_refl c) fun d _ hcd hpast ↦ ?_
  have hnil : d.HasAll c.lo (itemValues []) ∧ d.InOrder (itemValues []) :=
    ⟨Place.hasAll_nil, List.Pairwise.nil⟩
  refine (runs_iterate
    (fun items e ↦ e.HasAll c.lo (itemValues items) ∧ e.InOrder (itemValues items))
    hnil fun items e hde ⟨hns, horder⟩ ↦ ?_).last hcd fun items e hde h ↦ ⟨hpast.mono hde, h⟩
  have hce := hcd.trans hde
  refine .endsList (le_refl e) (fun e₁ h₁ _ _ ↦ .pure h₁ ⟨hns.of_le h₁, horder.of_le h₁⟩) ?_
  refine .call (le_refl e) (runs_parenItem hp e s) fun item e₁ h₁ _ hitem ↦ ?_
  have hall : e₁.HasAll c.lo (itemValues (items ++ [item])) ∧
      e₁.InOrder (itemValues (items ++ [item])) := by
    simp only [itemValues, List.map_append, List.map_cons, List.map_nil]
    exact ⟨hns.append h₁ (hitem.from_le hce), horder.append hns (le_refl e) hitem h₁⟩
  refine .eat h₁ (fun e₂ h₂ he₂ _ ↦ .pure (s := s) he₂ ⟨hall.1.of_le h₂, hall.2.of_le h₂⟩) ?_
  exact .expect h₁ fun e₂ h₂ he₂ _ ↦ .pure he₂ ⟨hall.1.of_le h₂, hall.2.of_le h₂⟩

omit hp in
theorem runs_parameterPattern {n : Node} (hn : c.Has lo n) (s : Setting) :
    Runs c c s (do
      match elementPattern? n with
      | some pattern => return pattern
      | none => failAt n.span .notPattern) fun m d ↦ d.Has lo m := by
  split
  · rename_i pattern hpattern
    exact .pure (le_refl c) (has_elementPattern? hpattern hn)
  · exact .failAt (le_refl c)

omit hp in
theorem runs_forcedParameter {n : Node} (hn : c.Has lo (argumentValue n)) (s : Setting) :
    Runs c c s (forcedParameter n) fun m d ↦ d.Has lo m := by
  unfold forcedParameter
  dsimp only
  split
  · exact .emit (le_refl c) fun d hcd _ ↦ .pure hcd (Place.has_invalid _)
  · exact runs_parameterPattern hn s
  · exact runs_parameterPattern hn s
  · exact runs_parameterPattern hn s
  · exact runs_parameterPattern hn s
  · exact .failAt (le_refl c)

theorem runs_forcedArrow {items : List (Node × Bool)} (hlo : c.Passed lo)
    (hitems : c.HasAll lo (itemValues items)) (s : Setting) :
    Runs c c s (forcedArrow p lo (items.map (·.1))) fun n d ↦ d.Has lo n ∧ n.kind = .arrow := by
  unfold forcedArrow
  rw [runs_token]
  refine .ite (fun _ ↦ runs_spanFrom.2 (.stop (.failAt (le_refl c)))) fun _ ↦ runs_spanFrom.2 ?_
  refine .expect (le_refl c) fun c₁ h₁ _ _ ↦ ?_
  refine .call h₁ (runs_mapM (P := fun _ m d ↦ d.Has lo m) (fun _ _ _ _ hde hm ↦ hm.of_le hde)
    fun n hn d hd ↦ ?_) fun params c₂ h₂ hc₂ hparams ↦ ?_
  · obtain ⟨item, hitem, rfl⟩ := List.mem_map.1 hn
    have hvalue := hitems _ (List.mem_map_of_mem hitem)
    exact runs_forcedParameter (hvalue.of_le (h₁.trans hd)) s
  · have hall : c₂.HoldsAll params := by
      generalize items.map (·.1) = ns at hparams
      induction hparams with
      | nil => exact Place.holdsAll_nil
      | cons hm _ ih => exact .cons hm.holds ih
    have hnode : c₂.Has lo (.mk .parameters ⟨lo, c.prevEnd⟩ params) :=
      Place.has_plain (s := ⟨lo, c.prevEnd⟩) rfl (fun hfree ↦ (hlo.mono hc₂).opens hfree)
        (fun hfree ↦ (c.closes_prevEnd (Place.free_of_le hc₂ hfree)).mono hc₂)
        (Place.prevEnd_le hc₂) hall fun _ _ ↦ hlo.le
    refine (runs_arrowBody hp (hlo.mono hc₂) ?_ s false).last hc₂ fun _ _ _ hn ↦ hn
    exact .cons hnode.holds (.cons Place.holds_absent (Place.holdsAll_one Place.holds_absent))

omit hp in
theorem runs_checkShorthandValues (c : Place text) (s : Setting) (n : Node) :
    Runs c c s (checkShorthandValues n) Anywhere := by
  unfold checkShorthandValues
  split
  · refine runs_forM (le_refl c) fun m _ d _ ↦ ?_
    split
    · exact runs_emit d s _ _
    · exact .pure (le_refl d) trivial
  · exact .pure (le_refl c) trivial

omit hp in
theorem runs_parenValue (c : Place text) (s : Setting) (n : Node) :
    Runs c c s (parenValue n) fun m d ↦ argumentValue n = m ∧ d = c := by
  unfold parenValue
  split
  · exact .failAt (le_refl c)
  · exact .pure (le_refl c) ⟨rfl, rfl⟩

omit hp in
/-- The values in parentheses are taken from what was read. -/
theorem runs_parenValues (c : Place text) (s : Setting) (items : List (Node × Bool)) :
    Runs c c s (items.mapM fun item ↦ parenValue item.1) fun values d ↦
      values = itemValues items ∧ d = c := by
  induction items with
  | nil => exact .pure (le_refl c) ⟨rfl, rfl⟩
  | cons item items ih =>
    rw [List.mapM_cons]
    refine .bind (runs_parenValue c s item.1) fun value d _ hvalue ↦ ?_
    obtain ⟨rfl, rfl⟩ := hvalue
    refine .bind ih fun values e hde hvalues ↦ ?_
    obtain ⟨rfl, rfl⟩ := hvalues
    exact .pure hde ⟨rfl, rfl⟩

theorem runs_parenthesized (c : Place text) (s : Setting) :
    Runs c c s (parenthesized p) fun n d ↦ d.HasLast c.lo n := by
  unfold parenthesized
  rw [runs_here]
  refine .call (le_refl c) (runs_within.2 (runs_parenItems hp c _))
    fun items c₁ h₁ _ ⟨hpast, hitems, horder⟩ ↦ ?_
  have hlo := c.opens_lo.passed hpast
  rw [runs_isPunct]
  split
  · exact (runs_forcedArrow hp hlo hitems s).last h₁ fun _ _ _ hn ↦
      hn.1.last hn.2 rfl
  · refine .call h₁ (runs_forM (le_refl c₁) fun item _ d _ ↦ runs_checkShorthandValues d s _)
      fun _ c₂ h₂ hc₂ _ ↦ runs_spanFrom.2 ?_
    refine .call hc₂ (runs_parenValues c₂ s items) fun values c₃ _ hc₃ hvalues ↦ ?_
    obtain ⟨rfl, rfl⟩ := hvalues
    have hns := hitems.of_le h₂
    have horder := horder.of_le h₂
    generalize itemValues items = values at hns horder ⊢
    split
    · exact .failAt hc₃
    · exact .pure hc₃ ⟨(hns _ (List.mem_singleton_self _)).paren (hlo.mono h₂),
        Place.trails_of_prevEnd rfl⟩
    · exact .pure hc₃ ⟨(hns.sequence horder).paren (hlo.mono h₂), Place.trails_of_prevEnd rfl⟩

theorem runs_arrowEnd {n : Node} (hn : c.Has lo n) (hkind : n.kind = .arrow) (s : Setting) :
    Runs c c s (arrowEnd p n) fun m d ↦ d.HasLast lo m := by
  have hjoined : Runs c c s (arrowEnd.joined p n) fun m d ↦ d.HasLast lo m := by
    unfold arrowEnd.joined
    refine runs_token.2 (.emit (le_refl c) fun d hcd _ ↦ ?_)
    refine .call hcd (hp (.climb n 0) d s) fun m e hde hce hm ↦ runs_isPunct.2 ?_
    have hlast : e.HasLast lo m :=
      ⟨hm.1 lo (hn.of_le hcd), hm.2 (Place.trails_of_onPath (by rw [hkind]; rfl))⟩
    refine .ite (fun _ ↦ runs_token.2 ?_) fun _ ↦ .pure hce hlast
    exact .call hce (runs_emit_last hlast s _ _) fun _ e₁ _ he₁ hlast ↦ .pure he₁ hlast
  unfold arrowEnd
  split
  · rw [runs_form]
    split
    · exact hjoined
    · exact hjoined
    · exact hjoined
    · exact .pure (le_refl c) (hn.last hkind rfl)
  · exact .pure (le_refl c) (hn.last hkind rfl)

theorem runs_parenOperand (c : Place text) (s : Setting) :
    Runs c c s (parenOperand p) fun n d ↦ d.HasLast c.lo n := by
  unfold parenOperand
  rw [runs_here]
  refine .call (le_refl c) (runs_arrow? hp c.opens_lo s false false) fun n? d _ hcd hn ↦ ?_
  cases n? with
  | some n =>
    obtain ⟨hn, hkind⟩ := hn n rfl
    exact (runs_arrowEnd hp hn hkind s).last hcd fun _ _ _ hm ↦ hm
  | none =>
    exact (runs_parenthesized hp d s).last hcd fun _ _ _ hm ↦ ⟨hm.1.from_le hcd, hm.2⟩

end

end OptionalChain.Grammar
