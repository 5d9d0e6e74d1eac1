import OptionalChain.Proofs.Placement.Types

/-!
# Places of patterns

Patterns sit in the text that they were read from, and so do expressions that are read again as
patterns.
-/

namespace OptionalChain.Grammar

open Text (At Boundary)

variable {text : List Char} {w c d : Place text} {s : Setting} {lo stop : Nat} {p : Parts}

section

variable (hp : Sound text p)

include hp

/-- An assigned value as a part. -/
theorem runs_valuePart (c : Place text) (s : Setting) :
    Runs c c s (p .assignment) fun n d ↦ d.Holds n :=
  (hp .assignment c s).mono fun _ _ _ hn ↦ hn.holds

theorem runs_initializer? (c : Place text) (s : Setting) :
    Runs c c s (initializer? p) fun n d ↦ d.Holds n := by
  unfold initializer?
  refine .eat (le_refl c) (fun d _ hcd _ ↦ ?_) (.pure (le_refl c) Place.holds_absent)
  exact (runs_valuePart hp d s).last hcd fun _ _ _ hn ↦ hn

theorem runs_withDefault {pattern : Node} (hlo : c.Opens lo) (hpattern : c.Has lo pattern)
    (hform : pattern.IsPattern) (s : Setting) :
    Runs c c s (withDefault p lo pattern) fun n d ↦ d.Has lo n ∧ n.IsPattern := by
  unfold withDefault
  refine .eat (le_refl c) (fun d _ hcd _ ↦ ?_) (.pure (le_refl c) ⟨hpattern, hform⟩)
  refine .call hcd (hp .assignment d _) fun value e hde hce hvalue ↦ .node hce ⟨?_, _, rfl⟩
  have hpattern := hpattern.of_le hce
  refine Place.has_mk (Place.HoldsAll.cons hpattern.holds (Place.holdsAll_one hvalue.holds))
    (Place.clears_of_core rfl fun _ ↦ hform.inChain_core) fun hfree hwhole ↦ ?_
  have hle := hpattern.le hfree (hwhole pattern List.mem_cons_self)
  exact ⟨Nat.le_refl _, hle, Place.seats_mk (hlo.mono hce) (e.closes_prevEnd hfree) (.inr hle)
    (Nat.le_refl _) (Node.shape_of_isPlain rfl) (Place.joins_of_isPlain rfl)⟩

theorem runs_bindingElement (c : Place text) (s : Setting) :
    Runs c c s (bindingElement p) fun n d ↦ d.Has c.lo n ∧ n.IsPattern := by
  unfold bindingElement
  rw [runs_here]
  refine .call (le_refl c) (hp .binding c s) fun b d _ hcd ⟨hb, hform⟩ ↦ ?_
  exact (runs_withDefault hp (c.opens_lo.mono hcd) hb hform s).last hcd fun _ _ _ hn ↦ hn

omit hp in
/-- A name and its annotation sit where the annotated name did. -/
theorem seats_detachAnnotation {n : Node} (h : c.HasUpTo lo stop n) (hfree : c.stuck = false)
    (hname : ( detachAnnotation n).1.Whole) (htype : ( detachAnnotation n).2.Whole) :
    ∀ k ∈ [( detachAnnotation n).1, ( detachAnnotation n).2], ∀ m ∈ k.preorder, c.Seats stop m := by
  unfold detachAnnotation at hname htype ⊢
  split at hname
  · rename_i name optional span type
    have hwhole : (Node.mk (.pattern (.name name optional)) span [type]).Whole :=
      Node.whole_mk.2 ⟨by simp, by simpa using htype⟩
    have hall := (h.placed hfree hwhole).2.2
    have hself := hall _ (Node.self_mem_preorder _)
    intro k hk m hm
    obtain rfl | hk := List.mem_cons.1 hk
    · obtain rfl | ⟨k', hk', hm⟩ := Node.mem_preorder_mk.1 hm
      · exact Place.seats_mk hself.opens hself.closes hself.sits.forward hself.sits.hi_le
          hself.sits.shape (Place.joins_of_stepBase? rfl)
      · rw [List.mem_singleton.1 hk'] at hm
        exact Place.seats_absent m hm
    · rw [List.mem_singleton.1 hk] at hm
      exact hall m (Node.mem_preorder_mk.2 (.inr ⟨type, List.mem_singleton_self type, hm⟩))
  · intro k hk m hm
    obtain rfl | hk := List.mem_cons.1 hk
    · exact (h.placed hfree hname).2.2 m hm
    · rw [List.mem_singleton.1 hk] at hm
      exact Place.seats_absent m hm

omit hp in
theorem admits_detachAnnotation {n : Node} (h : c.Admits n) :
    ∀ k ∈ [( detachAnnotation n).1, ( detachAnnotation n).2], c.Admits k := by
  have habsent : c.Admits .absent := Place.admits_leaf rfl
  unfold detachAnnotation
  split
  · rename_i name optional span type
    refine List.forall_mem_cons.2 ⟨?_, List.forall_mem_singleton.2 fun herrors ↦ ?_⟩
    · exact (Place.clears_of_hasTargets rfl).admits (List.forall_mem_singleton.2 habsent)
    · exact (h herrors).parts type (List.mem_singleton_self type)
  · exact List.forall_mem_cons.2 ⟨h, List.forall_mem_singleton.2 habsent⟩

omit hp in
theorem isPattern_detachAnnotation {n : Node} (h : n.IsPattern) :
    ( detachAnnotation n).1.IsPattern := by
  unfold detachAnnotation
  split
  · exact ⟨_, rfl⟩
  · exact h

theorem runs_restBinding (c : Place text) (s : Setting) :
    Runs c c s (restBinding p) fun n d ↦ d.Has c.lo n ∧ n.IsPattern := by
  unfold restBinding
  rw [runs_here]
  refine .expect (le_refl c) fun d _ hcd hpast ↦ ?_
  refine .call hcd (hp .binding d s) fun b e hde hce ⟨hb, hform⟩ ↦ .node hce ⟨?_, _, rfl⟩
  have hpassed := (c.opens_lo.passed hpast).mono hde
  have hclears : e.Clears (.mk (.pattern .rest) ⟨c.lo, e.prevEnd⟩
      [( detachAnnotation b).1, ( detachAnnotation b).2]) :=
    Place.clears_of_steps rfl fun _ ↦ by simp [( isPattern_detachAnnotation hform).isStep]
  refine Place.has_of_parts (fun hfree hwhole ↦ ⟨Nat.le_refl _, hpassed.le, ?_, ?_⟩)
    (hclears.admits ( admits_detachAnnotation hb.admits))
  · exact Place.seats_mk (hpassed.opens hfree) (e.closes_prevEnd hfree) (.inr hpassed.le)
      (Nat.le_refl _) (Node.shape_of_isPlain rfl) (Place.joins_of_isPlain rfl)
  · exact seats_detachAnnotation hb hfree (hwhole _ List.mem_cons_self)
      (hwhole _ (List.mem_cons_of_mem _ (List.mem_singleton_self _)))

omit hp in
theorem runs_checkShorthand (c : Place text) (s : Setting) (name : String) (span : Span) :
    Runs c c s (checkShorthand name span) Anywhere := by
  unfold checkShorthand
  split
  · exact runs_emit c s _ _
  · exact .pure (le_refl c) trivial

/-- The elements of an array were read, and none of them is an access. -/
structure Place.HoldsElements (c : Place text) (ns : List Node) : Prop where
  all : c.HoldsAll ns
  steps : ∀ n ∈ ns, n.isStep = false

omit hp in
theorem Place.HoldsElements.of_le {ns : List Node} (h : c.HoldsElements ns) (hcd : c ≤ d) :
    d.HoldsElements ns :=
  ⟨h.all.of_le hcd, h.steps⟩

omit hp in
theorem Place.HoldsElements.append {ns : List Node} {n : Node} (h : c.HoldsElements ns)
    (hcd : c ≤ d) (hn : d.Holds n) (hstep : n.isStep = false) : d.HoldsElements (ns ++ [n]) :=
  ⟨h.all.append hcd hn, List.forall_mem_append.2 ⟨h.steps, List.forall_mem_singleton.2 hstep⟩⟩

omit hp in
theorem Place.HoldsElements.clears {n : Node} {ns : List Node} (h : c.HoldsElements ns)
    (htargets : n.targets = ns.filter Node.isStep) : c.Clears n :=
  Place.clears_of_steps htargets fun _ m hm hstep ↦ by
    rw [h.steps m hm] at hstep
    cases hstep

omit hp in
/-- One item after those that were read. -/
theorem runs_nextItem {Q : List Node → Place text → Prop} {item : Bool → Parser Node}
    {ns : List Node} (hmono : ∀ {ns d e}, d ≤ e → Q ns d → Q ns e) (hitem : ∀ isRest d, Q ns d →
      Runs d d s (item isRest) fun n e ↦ Q (ns ++ [n]) e) (hcd : c ≤ d) (hns : Q ns d)
    (close : Punct) (fault : Fault) (rest? : Option Span) :
    Runs d d s (nextItem close fault item ns rest?)
      (Next (fun x e ↦ Q x.1 e) fun ns e ↦ c.Past e ∧ Q ns e) := by
  unfold nextItem
  refine .call (le_refl d) (Q := Anywhere) ?_ fun _ d₁ h₁ _ _ ↦ runs_isPunct.2 ?_
  · cases rest? with
    | none => exact .pure (le_refl d) trivial
    | some span => exact runs_emit d s span fault
  refine .call h₁ (hitem _ d₁ (hmono h₁ hns)) fun n d₂ _ hd₂ hall ↦ ?_
  refine .eat hd₂ (fun d₃ h₃ hd₃ hpast ↦ .pure (s := s) hd₃ ⟨?_, hmono h₃ hall⟩) ?_
  · exact hpast.of_le (hcd.trans hd₂)
  refine runs_token.2 (.expect hd₂ fun d₃ h₃ hd₃ _ ↦ runs_isPunct.2 ?_)
  exact .when hd₃ (fun _ ↦ runs_emit d₃ s _ _) fun d₄ h₄ hd₄ ↦
    .pure hd₄ (hmono (h₃.trans h₄) hall)

theorem runs_arrayPattern (c : Place text) (s : Setting) :
    Runs c c s (arrayPattern p) fun ns d ↦ c.Past d ∧ d.HoldsElements ns := by
  unfold arrayPattern
  refine .expect (le_refl c) fun d _ hcd _ ↦ ?_
  refine (runs_iterate (fun x e ↦ e.HoldsElements x.1) ⟨Place.holdsAll_nil, by simp⟩
    fun x e hde hns ↦ ?_).last hcd fun _ _ _ h ↦ h
  have hce := hcd.trans hde
  refine .endsList (le_refl e) (fun e₁ h₁ _ hpast ↦ ?_) (.eat (le_refl e) (fun e₁ h₁ _ _ ↦ ?_) ?_)
  · exact .pure (s := s) h₁ ⟨hpast.of_le hce, hns.of_le h₁⟩
  · exact .pure (s := s) h₁ (hns.append h₁ Place.holds_absent rfl)
  · refine runs_nextItem (Q := fun ns e ↦ e.HoldsElements ns) (fun h hns ↦ hns.of_le h)
      (fun isRest d hns ↦ ?_) hce hns _ _ _
    refine .ite (fun _ ↦ ?_) fun _ ↦ ?_
    · exact (runs_restBinding hp d s).mono fun _ _ h hn ↦ hns.append h hn.1.holds hn.2.isStep
    · exact (runs_bindingElement hp d s).mono fun _ _ h hn ↦ hns.append h hn.1.holds hn.2.isStep

theorem runs_patternProperty (c : Place text) (s : Setting) :
    Runs c c s (patternProperty p) fun n d ↦ d.Has c.lo n := by
  unfold patternProperty
  rw [runs_here, runs_isPunct]
  split
  · exact (runs_restBinding hp c s).mono fun _ _ _ hn ↦ hn.1
  rw [runs_token]
  refine .call (le_refl c) (runs_propertyKey hp c s) fun key c₁ h₁ hc₁ hkey ↦ ?_
  refine .eat hc₁ (fun c₂ h₂ hc₂ _ ↦ ?_) ?_
  · refine .call hc₂ (runs_bindingElement hp c₂ s) fun value c₃ h₃ hc₃ ⟨hvalue, hform⟩ ↦
      .node hc₃ ?_
    exact (c.opens_lo.passed (hkey.past.mono (h₂.trans h₃))).shaped (Node.shape_of_isPlain rfl) rfl
      (Place.clears_of_steps rfl fun _ ↦ by simp [hform.isStep])
      (.cons (hkey.has.part (h₂.trans h₃)) (Place.holdsAll_one hvalue.holds))
  rw [if_neg Bool.false_ne_true]
  split
  · rename_i name escaped hform
    have hnamed := hkey.named name escaped hform
    have hclose : ∀ (value : Node) (e : Place text), c₁ ≤ e → e.Holds value →
        Runs c e s (nodeFrom c.lo (.pattern .shorthand)
          [.mk (.pattern (.name name false)) c.cursor.token.span [.absent], value])
          fun n d ↦ d.Has c.lo n := fun value e he hvalue ↦ by
      refine .node (hc₁.trans he) ((c.opens_lo.passed (hnamed.past.mono he)).node rfl (.cons ?_
        (Place.holdsAll_one hvalue)))
      exact ((hnamed.of_le he).has (.inr (.inr ⟨false, rfl⟩))
        (Place.holdsAll_one Place.holds_absent)).holds
    refine .eat hc₁ (fun c₂ h₂ hc₂ _ ↦ ?_) ?_
    · exact .call hc₂ (runs_valuePart hp c₂ _) fun value c₃ h₃ _ hvalue ↦
        hclose value c₃ (h₂.trans h₃) hvalue
    · exact .call hc₁ (runs_checkShorthand c₁ s _ _) fun _ c₂ h₂ _ _ ↦
        hclose .absent c₂ h₂ Place.holds_absent
  · exact .failHere hc₁

/-- A pattern without an annotation. -/
def IsBare (n : Node) : Prop :=
  n.kind = .pattern .array ∨ n.kind = .pattern .object ∨
    ∃ name span, n = .mk (.pattern (.name name false)) span [.absent]

theorem runs_barePattern (c : Place text) (s : Setting) (lexical : Bool) :
    Runs c c s (barePattern p lexical) fun n d ↦ d.Has c.lo n ∧ IsBare n := by
  unfold barePattern
  refine .rejectInvalid (le_refl c) ?_
  rw [runs_here, runs_form]
  split
  · refine .call (le_refl c) (runs_arrayPattern hp c s) fun ns d _ hcd hns ↦
      .node hcd ⟨?_, .inl rfl⟩
    exact (c.opens_lo.passed hns.1).shaped (Node.shape_of_isPlain rfl) rfl
      (hns.2.clears rfl) hns.2.all
  · refine .spend (le_refl c) fun d _ hcd hpast ↦ ?_
    refine .call hcd (runs_commaList fun e _ ↦ runs_patternProperty hp e s) fun ns e hde hce hns ↦
      .node hce ⟨?_, .inr (.inl rfl)⟩
    exact (c.opens_lo.passed (hpast.mono hde)).node rfl (hns.all.part (le_refl e))
  · refine .call (le_refl c) (runs_boundIdentifier c s lexical) fun x d _ hcd hx ↦
      .pure hcd ⟨?_, .inr (.inr ⟨x.1, x.2, rfl⟩)⟩
    exact hx.has (.inr (.inr ⟨false, rfl⟩)) (Place.holdsAll_one Place.holds_absent)
  · exact .failAtEnd (le_refl c)
  · exact .failHere (le_refl c)

omit hp in
/-- An array or object pattern with its annotation. -/
theorem has_annotated_mk {kind : Kind} {span : Span} {children : List Node} {type : Node}
    (hkind : kind = .pattern .array ∨ kind = .pattern .object)
    (hn : c.HasUpTo lo stop (.mk kind span children)) (htype : c.HoldsUpTo stop type)
    (hstep : type.isStep = false) :
    c.HasUpTo lo stop (.mk kind span (children ++ type.present?.toList)) := by
  have hpresent : ∀ k ∈ type.present?.toList, k = type := by
    intro k hk
    have hsome : type.present? = some k := Option.mem_toList.1 hk
    unfold Node.present? at hsome
    split at hsome
    · cases hsome
    · exact (Option.some.inj hsome).symm
  constructor
  · intro hfree hwhole
    obtain ⟨hvalid, hparts⟩ := Node.whole_mk.1 hwhole
    have hold : (Node.mk kind span children).Whole :=
      Node.whole_mk.2 ⟨hvalid, fun m hm ↦ hparts m (List.mem_append_left _ hm)⟩
    obtain ⟨hlo, hforward, hall⟩ := hn.placed hfree hold
    have hself := hall _ (Node.self_mem_preorder _)
    have hplain : kind.isPlain = true := by obtain rfl | rfl := hkind <;> rfl
    refine ⟨hlo, hforward, fun m hm ↦ ?_⟩
    obtain rfl | ⟨k, hk, hmk⟩ := Node.mem_preorder_mk.1 hm
    · exact hself.recast (by obtain rfl | rfl := hkind <;> simp) hplain
    obtain hk' | hk' := List.mem_append.1 hk
    · exact hall m (Node.mem_preorder_mk.2 (.inr ⟨k, hk', hmk⟩))
    · obtain rfl := hpresent k hk'
      exact htype.lies hfree (hparts k hk) m hmk
  · intro herrors
    have hold := hn.admits herrors
    have htargets : ∀ t ∈ (Node.mk kind span (children ++ type.present?.toList)).targets,
        t.inChain = false := by
      obtain rfl | rfl := hkind
      · intro t ht
        obtain ⟨ht, hstep'⟩ := List.mem_filter.1 ht
        obtain ht | ht := List.mem_append.1 ht
        · exact hold.targets t (List.mem_filter.2 ⟨ht, hstep'⟩)
        · rw [hpresent t ht, hstep] at hstep'
          cases hstep'
      · exact fun t ht ↦ by cases ht
    have hparts : ∀ m ∈ children, m.Admissible := by
      obtain rfl | rfl := hkind <;> exact hold.parts
    refine .mk htargets (List.forall_mem_append.2 ⟨hparts, fun m hm ↦ ?_⟩)
    rw [hpresent m hm]
    exact htype.admits herrors

omit hp in
/-- A pattern with its annotation sits where the pattern did. -/
theorem has_annotated {n type : Node} {optional : Bool} (hn : c.HasUpTo lo stop n)
    (hbare : IsBare n) (htype : c.HoldsUpTo stop type) (hstep : type.isStep = false) :
    c.HasUpTo lo stop (annotated n optional type) ∧ (annotated n optional type).IsPattern := by
  obtain ⟨kind, span, children⟩ := n
  obtain hkind | hkind | ⟨name, span, hname⟩ := hbare
  · obtain rfl : kind = .pattern .array := hkind
    exact ⟨has_annotated_mk (.inl rfl) hn htype hstep, _, rfl⟩
  · obtain rfl : kind = .pattern .object := hkind
    exact ⟨has_annotated_mk (.inr rfl) hn htype hstep, _, rfl⟩
  · cases hname
    refine ⟨Place.has_of_parts (fun hfree hwhole ↦ ?_) ?_, _, rfl⟩
    · have hold : (Node.mk (.pattern (.name name false)) span [.absent]).Whole :=
        Node.whole_mk.2 ⟨by simp, by simp [Node.absent, Node.whole_mk]⟩
      obtain ⟨hlo, hforward, hall⟩ := hn.placed hfree hold
      have hself := hall _ (Node.self_mem_preorder _)
      refine ⟨hlo, hforward, Place.seats_mk hself.opens hself.closes (.inr hforward)
        hself.sits.hi_le hself.sits.shape (Place.joins_of_stepBase? rfl), fun k hk ↦ ?_⟩
      exact List.mem_singleton.1 hk ▸ htype.lies hfree (hwhole type (List.mem_singleton_self type))
    · exact (Place.clears_of_hasTargets rfl).admits (List.forall_mem_singleton.2 htype.admits)

omit hp in
theorem IsBare.isPattern {n : Node} (h : IsBare n) : n.IsPattern := by
  obtain hkind | hkind | ⟨name, span, rfl⟩ := h
  · exact ⟨_, hkind⟩
  · exact ⟨_, hkind⟩
  · exact ⟨_, rfl⟩

theorem runs_binding (c : Place text) (s : Setting) :
    Runs c c s (binding p) fun n d ↦ d.Has c.lo n ∧ n.IsPattern := by
  unfold binding
  refine .call (le_refl c) (runs_barePattern hp c s false) fun n c₁ _ hc₁ ⟨hn, hbare⟩ ↦ ?_
  rw [runs_isTypescript]
  split
  · refine .eatAny hc₁ fun optional c₂ h₂ hc₂ ↦ ?_
    refine .call hc₂ (runs_annotationType? hp c₂ s) fun type c₃ h₃ hc₃ ⟨htype, hstep⟩ ↦ .pure hc₃ ?_
    exact has_annotated (hn.of_le (h₂.trans h₃)) hbare htype hstep
  · exact .pure hc₁ ⟨hn, hbare.isPattern⟩

end

/-! ## Assignment targets -/

/-- Nodes read again: they are whole only if the first ones were, they sit where those did, and
they are admissible if those were. -/
structure Reshapes (text : List Char) (ns ns' : List Node) : Prop where
  whole : (∀ m ∈ ns', m.Whole) → ∀ m ∈ ns, m.Whole
  seats : ∀ (c : Place text) stop, (∀ n ∈ ns, ∀ m ∈ n.preorder, c.Seats stop m) →
    ∀ n ∈ ns', ∀ m ∈ n.preorder, c.Seats stop m
  admissible : (∀ n ∈ ns, n.Admissible) → ∀ n ∈ ns', n.Admissible

namespace Reshapes

variable {n n' e e' : Node} {ns ns' : List Node} {kind kind' : Kind} {span : Span}

theorem refl (ns : List Node) : Reshapes text ns ns :=
  ⟨id, fun _ _ h ↦ h, id⟩

theorem cons (h : Reshapes text [n] [n']) (hs : Reshapes text ns ns') :
    Reshapes text (n :: ns) (n' :: ns') where
  whole hwhole := by
    obtain ⟨hn, hns⟩ := List.forall_mem_cons.1 hwhole
    exact List.forall_mem_cons.2
      ⟨h.whole (by simpa using hn) n (List.mem_singleton_self n), hs.whole hns⟩
  seats c stop hseats := by
    obtain ⟨hn, hns⟩ := List.forall_mem_cons.1 hseats
    exact List.forall_mem_cons.2
      ⟨h.seats c stop (by simpa using hn) n' (List.mem_singleton_self n'), hs.seats c stop hns⟩
  admissible hns := by
    obtain ⟨hn, hns⟩ := List.forall_mem_cons.1 hns
    exact List.forall_mem_cons.2
      ⟨h.admissible (by simpa using hn) n' (List.mem_singleton_self n'), hs.admissible hns⟩

/-- A node of another kind with the same span. -/
theorem node (h : Reshapes text ns ns') (hkind : kind ≠ .invalid ∧ kind ≠ .type .heritages)
    (hkind' : kind'.isPlain = true) (hparts : (Node.mk kind span ns).reviewedParts = ns)
    (htargets : (Node.mk kind span ns).Admissible →
      ∀ t ∈ (Node.mk kind' span ns').targets, t.inChain = false) :
    Reshapes text [.mk kind span ns] [.mk kind' span ns'] where
  whole hwhole := by
    have hnew := hwhole _ (List.mem_singleton_self _)
    intro m hm
    rw [List.mem_singleton.1 hm]
    exact Node.whole_mk.2 ⟨hkind.1, h.whole fun k hk ↦ hnew.of_mem hk⟩
  seats c stop hseats := by
    have hold := hseats _ (List.mem_singleton_self _)
    have hself := hold _ (Node.self_mem_preorder _)
    intro k hk m hm
    rw [List.mem_singleton.1 hk] at hm
    obtain rfl | ⟨k, hk, hm⟩ := Node.mem_preorder_mk.1 hm
    · exact hself.recast hkind.2 hkind'
    · exact h.seats c stop
        (fun n hn m hm ↦ hold m (Node.mem_preorder_mk.2 (.inr ⟨n, hn, hm⟩))) k hk m hm
  admissible hns := by
    have hold := hns _ (List.mem_singleton_self _)
    have hall : ∀ m ∈ ns, m.Admissible := hparts ▸ hold.parts
    exact List.forall_mem_singleton.2 (.mk (htargets hold) (h.admissible hall))

/-- A part in place of the node that has no other. -/
theorem part (h : Reshapes text [e] [e']) (hkind : kind ≠ .invalid)
    (hparts : (Node.mk kind span [e]).reviewedParts = [e]) :
    Reshapes text [.mk kind span [e]] [e'] where
  whole hwhole := by
    intro m hm
    rw [List.mem_singleton.1 hm]
    exact Node.whole_mk.2 ⟨hkind, h.whole hwhole⟩
  seats c stop hseats := h.seats c stop fun n hn m hm ↦
    hseats _ (List.mem_singleton_self _) m (Node.mem_preorder_mk.2 (.inr ⟨n, hn, hm⟩))
  admissible hns := h.admissible (hparts ▸ (hns _ (List.mem_singleton_self _)).parts)

/-- A part that is not written is added at the end. -/
theorem concat_absent (h : Reshapes text ns ns') : Reshapes text ns (ns' ++ [.absent]) where
  whole hwhole := h.whole fun m hm ↦ hwhole m (List.mem_append_left _ hm)
  seats c stop hseats n hn m hm := by
    obtain hn | hn := List.mem_append.1 hn
    · exact h.seats c stop hseats n hn m hm
    · rw [List.mem_singleton.1 hn] at hm
      exact Place.seats_absent m hm
  admissible hns := List.forall_mem_append.2 ⟨h.admissible hns,
    List.forall_mem_singleton.2 (.mk_of_hasTargets rfl fun _ hm ↦ by cases hm)⟩

theorem has {c : Place text} (h : Reshapes text [n] [n']) (hspan : n'.span = n.span)
    (hn : c.HasUpTo lo stop n) : c.HasUpTo lo stop n' where
  placed hfree hwhole := by
    have hold := h.whole (by simpa using hwhole) n (List.mem_singleton_self n)
    obtain ⟨hlo, hforward, hall⟩ := hn.placed hfree hold
    rw [hspan]
    exact ⟨hlo, hforward, h.seats c stop (by simpa using hall) n' (List.mem_singleton_self n')⟩
  admits herrors :=
    h.admissible (by simpa using hn.admits herrors) n' (List.mem_singleton_self n')

/-- An access that is read as a pattern is not part of an optional chain. -/
theorem inChain_of_elementPattern? (h : elementPattern? e = some e') (hstep : e'.isStep = true) :
    e'.inChain = false := by
  unfold elementPattern? at h
  split at h
  · obtain ⟨items, -, rfl⟩ := Option.map_eq_some_iff.1 h
    cases hstep
  · obtain ⟨items, -, rfl⟩ := Option.map_eq_some_iff.1 h
    cases hstep
  · cases h
    cases hstep
  · split at h
    -- Accesses and calls are checked; all other kinds are no accesses.
    iterate 2
      · split at h
        · cases h
        · rename_i hchain
          cases h
          exact eq_false_of_ne_true hchain
    all_goals
      rename_i hkind
      cases h
      try
        rw [Node.isStep, hkind] at hstep
        cases hstep

theorem inChain_of_mem_arrayElements? (h : arrayElements? ns = some ns')
    (hns : ∀ n ∈ ns, n.isStep = true → n.inChain = false) :
    ∀ t ∈ ns', t.isStep = true → t.inChain = false := by
  induction ns generalizing ns' with
  | nil =>
    rw [arrayElements?] at h
    cases h
    simp
  | cons n ns ih =>
    obtain ⟨hn, htail⟩ := List.forall_mem_cons.1 hns
    unfold arrayElements? at h
    split at h
    · cases ‹_ = []›
    · rename_i spread span e rest heq
      cases heq
      obtain ⟨e', he', h⟩ := Option.bind_eq_some_iff.1 h
      obtain ⟨rest', hrest', h⟩ := Option.bind_eq_some_iff.1 h
      cases h
      refine List.forall_mem_cons.2 ⟨fun hstep ↦ ?_, ih hrest' htail⟩
      cases spread with
      | true => cases hstep
      | false => exact inChain_of_elementPattern? he' hstep
    · rename_i heq
      cases heq
      obtain ⟨rest', hrest', h⟩ := Option.bind_eq_some_iff.1 h
      cases h
      exact List.forall_mem_cons.2 ⟨hn, ih hrest' htail⟩

/-- The elements of an array, if each of its parts reshapes. -/
theorem arrayElements (hns : ∀ n ∈ ns, ∀ m ∈ n.preorder, ∀ m', elementPattern? m = some m' →
      Reshapes text [m] [m']) (h : arrayElements? ns = some ns') : Reshapes text ns ns' := by
  induction ns generalizing ns' with
  | nil =>
    rw [arrayElements?] at h
    cases h
    exact .refl []
  | cons n ns ih =>
    obtain ⟨hn, htail⟩ := List.forall_mem_cons.1 hns
    unfold arrayElements? at h
    split at h
    · cases ‹_ = []›
    · rename_i spread span e rest heq
      cases heq
      obtain ⟨e', he', h⟩ := Option.bind_eq_some_iff.1 h
      obtain ⟨rest', hrest', h⟩ := Option.bind_eq_some_iff.1 h
      cases h
      have hpart := hn e (Node.mem_preorder_mk.2 (.inr ⟨e, List.mem_singleton_self e,
        e.self_mem_preorder⟩)) e' he'
      refine .cons ?_ (ih htail hrest')
      split
      · refine .node hpart.concat_absent (by simp) rfl rfl fun _ t ht ↦ ?_
        obtain ⟨ht, hstep⟩ := List.mem_filter.1 ht
        obtain rfl := List.mem_singleton.1 ht
        exact inChain_of_elementPattern? he' hstep
      · exact .part hpart (by simp) rfl
    · rename_i heq
      cases heq
      obtain ⟨rest', hrest', h⟩ := Option.bind_eq_some_iff.1 h
      cases h
      exact .cons (.refl _) (ih htail hrest')

/-- The properties of an object, if each of its parts reshapes. -/
theorem objectElements (hns : ∀ n ∈ ns, ∀ m ∈ n.preorder, ∀ m', elementPattern? m = some m' →
      Reshapes text [m] [m']) (h : objectElements? ns = some ns') : Reshapes text ns ns' := by
  induction ns generalizing ns' with
  | nil =>
    rw [objectElements?] at h
    cases h
    exact .refl []
  | cons n ns ih =>
    obtain ⟨hn, htail⟩ := List.forall_mem_cons.1 hns
    have hpart : ∀ e ∈ n.children, ∀ e', elementPattern? e = some e' → Reshapes text [e] [e'] :=
      fun e he ↦ hn e (Node.preorder_subset_of_mem_children he e.self_mem_preorder)
    unfold objectElements? at h
    split at h
    · cases ‹_ = []›
    · rename_i span key value rest heq
      cases heq
      obtain ⟨value', hvalue', h⟩ := Option.bind_eq_some_iff.1 h
      obtain ⟨rest', hrest', h⟩ := Option.bind_eq_some_iff.1 h
      cases h
      have hvalue :=
        hpart value (List.mem_cons_of_mem _ (List.mem_singleton_self value)) value' hvalue'
      refine .cons (.node (.cons (.refl [key]) hvalue) (by simp) rfl rfl fun _ t ht ↦ ?_)
        (ih htail hrest')
      obtain ⟨ht, hstep⟩ := List.mem_filter.1 ht
      obtain rfl := List.mem_singleton.1 ht
      exact inChain_of_elementPattern? hvalue' hstep
    · rename_i span name rest heq
      cases heq
      obtain ⟨rest', hrest', h⟩ := Option.bind_eq_some_iff.1 h
      cases h
      exact .cons (.node (concat_absent (.refl [name])) (by simp) rfl rfl fun _ t ht ↦ by cases ht)
        (ih htail hrest')
    · rename_i span name value rest heq
      cases heq
      obtain ⟨rest', hrest', h⟩ := Option.bind_eq_some_iff.1 h
      cases h
      exact .cons (.node (.refl [name, value]) (by simp) rfl rfl fun _ t ht ↦ by cases ht)
        (ih htail hrest')
    · rename_i span e rest heq
      cases heq
      obtain ⟨e', he', h⟩ := Option.bind_eq_some_iff.1 h
      obtain ⟨rest', hrest', h⟩ := Option.bind_eq_some_iff.1 h
      cases h
      have he := hpart e (List.mem_singleton_self e) e' he'
      refine .cons (.node he.concat_absent (by simp) rfl rfl fun _ t ht ↦ ?_) (ih htail hrest')
      obtain ⟨ht, hstep⟩ := List.mem_filter.1 ht
      obtain rfl := List.mem_singleton.1 ht
      exact inChain_of_elementPattern? he' hstep
    · cases h

theorem elementPattern (n : Node) :
    ∀ m ∈ n.preorder, ∀ m', elementPattern? m = some m' → Reshapes text [m] [m'] := by
  induction n using Node.induction_parts with
  | step kind span children ih =>
    intro m hm m' h
    obtain rfl | ⟨k, hk, hm⟩ := Node.mem_preorder_mk.1 hm
    · unfold elementPattern? at h
      split at h
      · rename_i heq
        cases heq
        obtain ⟨items, hitems, rfl⟩ := Option.map_eq_some_iff.1 h
        refine .node (.arrayElements ih hitems) (by simp) rfl rfl fun hold t ht ↦ ?_
        obtain ⟨ht, hstep⟩ := List.mem_filter.1 ht
        exact inChain_of_mem_arrayElements? hitems
          (fun n hn hstep ↦ hold.targets n (List.mem_filter.2 ⟨hn, hstep⟩)) t ht hstep
      · rename_i heq
        cases heq
        obtain ⟨items, hitems, rfl⟩ := Option.map_eq_some_iff.1 h
        exact .node (.objectElements ih hitems) (by simp) rfl rfl fun _ t ht ↦ by cases ht
      · rename_i heq
        cases heq
        cases h
        exact .node (.refl _) (by simp) rfl rfl fun hold ↦ hold.targets
      · obtain rfl : Node.mk kind span children = m' := by
          split at h <;> first
            | exact Option.some.inj h
            | split at h <;> first
              | exact Option.some.inj h
              | cases h
            | cases h
        exact .refl _
    · exact ih k hk m hm m' h

end Reshapes

theorem span_elementPattern? {n n' : Node} (h : elementPattern? n = some n') :
    n'.span = n.span := by
  unfold elementPattern? at h
  split at h
  · obtain ⟨items, -, rfl⟩ := Option.map_eq_some_iff.1 h
    rfl
  · obtain ⟨items, -, rfl⟩ := Option.map_eq_some_iff.1 h
    rfl
  · cases h
    rfl
  · split at h <;> first
      | exact (Option.some.inj h) ▸ rfl
      | split at h <;> first
        | exact (Option.some.inj h) ▸ rfl
        | cases h
      | cases h

theorem has_elementPattern? {n n' : Node} (h : elementPattern? n = some n')
    (hn : c.HasUpTo lo stop n) : c.HasUpTo lo stop n' :=
  (Reshapes.elementPattern n n n.self_mem_preorder n' h).has (span_elementPattern? h) hn

/-- What a value can be assigned to is not part of an optional chain. -/
theorem inChain_core_of_isSimpleTarget {n : Node} (h : isSimpleTarget n = true) :
    n.core.inChain = false := by
  fun_induction isSimpleTarget n with
  | case1 name span children => rfl
  | case2 optional span object key =>
    change (Node.member optional span object key).inChain = false
    simpa using h
  | case3 span children => rfl
  | case4 span e ih => exact ih h
  | case5 span e ih => exact ih h
  | case6 span e type ih => exact ih h
  | case7 span e type ih => exact ih h
  | case8 span e type ih => exact ih h
  | case9 span e type ih => exact ih h
  | case10 => cases h

theorem inChain_core_of_isFixedName {n : Node} (h : isFixedName n = true) :
    n.core.inChain = false := by
  obtain ⟨kind, span, children⟩ := n
  cases kind with
  | ident name => rfl
  | _ => cases h

theorem inChain_core_of_isUncheckedTarget {n : Node} (h : isUncheckedTarget n = true) :
    n.core.inChain = false := by
  fun_induction isUncheckedTarget n with
  | case1 span e ih => exact ih h
  | case2 n _ value hkind =>
    obtain ⟨kind, span, children⟩ := n
    obtain rfl : kind = .literal value := hkind
    rfl
  | case3 n _ optional hkind =>
    obtain ⟨kind, span, children⟩ := n
    obtain rfl : kind = .call optional := hkind
    change (Node.mk (.call optional) span children).inChain = false
    simpa using h
  | case4 n _ op hkind =>
    obtain ⟨kind, span, children⟩ := n
    obtain rfl : kind = .binary op := hkind
    rfl
  | case5 => cases h

theorem isPattern_of_elementPattern? {n n' : Node} (hkind : n.kind = .array ∨ n.kind = .object)
    (h : elementPattern? n = some n') : n'.IsPattern := by
  unfold elementPattern? at h
  split at h
  · obtain ⟨items, -, rfl⟩ := Option.map_eq_some_iff.1 h
    exact ⟨_, rfl⟩
  · obtain ⟨items, -, rfl⟩ := Option.map_eq_some_iff.1 h
    exact ⟨_, rfl⟩
  · cases h
    exact ⟨_, rfl⟩
  · obtain hkind | hkind := hkind <;> simp [hkind] at h

/-- Where no error was noted, what is assigned to is not part of an optional chain. -/
abbrev Spares (n : Node) (d : Place text) : Prop :=
  d.errors = [] → n.core.inChain = false

theorem spares_of_noted {n : Node} (hnoted : c.errors ≠ []) (hcd : c ≤ d) : Spares n d :=
  fun herrors ↦ absurd (Place.errors_of_le hcd herrors) hnoted

theorem runs_checkTarget (c : Place text) (s : Setting) (n : Node) :
    Runs c c s (checkTarget n) fun _ d ↦ Spares n d := by
  unfold checkTarget
  split
  · exact (runs_emitted c s _ _).mono fun _ d _ hnoted ↦ spares_of_noted hnoted (le_refl d)
  · rename_i htarget
    exact .pure (le_refl c) fun _ ↦ inChain_core_of_isSimpleTarget (by simpa using htarget)

theorem runs_checkChanged (c : Place text) (s : Setting) (lenient : Bool) (n : Node) :
    Runs c c s (checkChanged lenient n) fun _ d ↦ Spares n d := by
  unfold checkChanged
  rw [runs_isTypescript]
  split
  · have hname : ∀ d, c ≤ d → Spares n d → Runs c d s
        (if isFixedName n = true then emit n.span .argumentsUse else pure ())
        fun _ e ↦ Spares n e := by
      intro d hcd hspares
      split
      · exact (runs_emit d s _ _).last hcd fun _ _ hde _ herrors ↦
          hspares (Place.errors_of_le hde herrors)
      · exact .pure hcd hspares
    refine .ite (fun _ ↦ ?_) fun hchecked ↦ ?_
    · refine .call (le_refl c) (runs_emitted c s _ _) fun _ d hcd _ hnoted ↦ ?_
      exact hname d hcd (spares_of_noted hnoted (le_refl d))
    · have htarget :
          isSimpleTarget n = true ∨ isFixedName n = true ∨ isUncheckedTarget n = true := by
        grind
      refine hname c (le_refl c) fun _ ↦ ?_
      obtain h | h | h := htarget
      · exact inChain_core_of_isSimpleTarget h
      · exact inChain_core_of_isFixedName h
      · exact inChain_core_of_isUncheckedTarget h
  · split
    · exact (runs_emitted c s _ _).mono fun _ d _ hnoted ↦ spares_of_noted hnoted (le_refl d)
    · rename_i htarget
      exact .pure (le_refl c) fun _ ↦ inChain_core_of_isSimpleTarget (by simpa using htarget)

theorem runs_targetPattern {n : Node} (hkind : n.kind = .array ∨ n.kind = .object)
    (hn : c.Has lo n) (s : Setting) :
    Runs c c s (targetPattern n) fun m d ↦ d.Has lo m ∧ Spares m d := by
  unfold targetPattern
  split
  · rename_i pattern hpattern
    exact .pure (le_refl c) ⟨has_elementPattern? hpattern hn,
      fun _ ↦ (isPattern_of_elementPattern? hkind hpattern).inChain_core⟩
  · exact .emit (le_refl c) fun d _ hcd ↦ .failAt hcd

theorem runs_assignmentTarget {n : Node} (hn : c.Has lo n) (s : Setting) :
    Runs c c s (assignmentTarget n) fun m d ↦ d.Has lo m ∧ Spares m d := by
  unfold assignmentTarget
  split
  · rename_i hkind
    exact runs_targetPattern (.inl hkind) hn s
  · rename_i hkind
    exact runs_targetPattern (.inr hkind) hn s
  · refine .call (le_refl c) (runs_checkTarget c s n) fun _ d _ hcd htarget ↦ ?_
    split
    · exact .pure hcd ⟨hn.of_le hcd, htarget⟩
    · exact .failAt hcd

end OptionalChain.Grammar
