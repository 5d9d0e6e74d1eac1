import OptionalChain.Access.Path

/-!
# Spines

The base and the steps of an expression as a relation, with a rule for each form that an access
can have. These are the bases and steps that are found, so that what holds along an access is
shown rule by rule.
-/

namespace OptionalChain

namespace Step

variable {f : SourceFile} {optional : Bool}

@[simp]
theorem expr_ofMember {object key n : Node} : (ofMember f optional object key n).expr = n := by
  unfold ofMember
  split <;> rfl

@[simp]
theorem optional_ofMember {object key n : Node} :
    (ofMember f optional object key n).optional = optional := by
  unfold ofMember
  split <;> rfl

@[simp]
theorem expr_ofCall {callee typeArgs n : Node} :
    (ofCall f optional callee typeArgs n).expr = n := by
  unfold ofCall
  dsimp only
  split <;> rfl

@[simp]
theorem optional_ofCall {callee typeArgs n : Node} :
    (ofCall f optional callee typeArgs n).optional = optional := by
  unfold ofCall
  dsimp only
  split <;> rfl

end Step

namespace AccessPath

variable {f : SourceFile} {n base : Node} {steps : List Step}

theorem base?_eq_some (h : base? f n = some base) : base = n := by
  unfold base? at h
  split at h <;> split at h <;> simp_all

theorem isBaseKind_of_base? (h : base? f n = some base) :
    isBaseKind n.kind = true ∨ n.kind = .await := by
  unfold base? at h
  split at h
  · exact .inr rfl
  · split at h
    · simp_all [Node.kind]
    · cases h

/-- A base is none of the forms that a path goes through. -/
theorem form_of_base? (h : base? f n = some base) :
    (∀ s e, n = .mk .paren s [e] → False) ∧ (∀ s e, n = .mk .nonNull s [e] → False) ∧
      (∀ optional s object key, n = .mk (.member optional) s [object, key] → False) ∧
      ∀ optional s callee args typeArgs,
        n = .mk (.call optional) s [callee, args, typeArgs] → False := by
  have hkind := isBaseKind_of_base? h
  refine ⟨?_, ?_, ?_, ?_⟩ <;> intros <;> subst n <;> simp [Node.kind, isBaseKind] at hkind

/-- The expression `n` is an access on `base` with these steps. -/
inductive Spine (f : SourceFile) : (n base : Node) → List Step → Prop where
  | base {n : Node} (h : base? f n = some n) : Spine f n n []
  | paren (span : Span) {e base : Node} {steps : List Step} (h : Spine f e base steps) :
    Spine f (.paren span e) base steps
  | nonNull (span : Span) {e base : Node} {steps : List Step} (h : Spine f e base steps) :
    Spine f (.nonNull span e) base steps
  | member (optional : Bool) (span : Span) {object key base : Node} {steps : List Step}
    (hkey : Node.anyHasEffects key.children = false) (h : Spine f object base steps) :
    Spine f (.member optional span object key) base
      (steps ++ [.ofMember f optional object key (.member optional span object key)])
  | call (optional : Bool) (span : Span) {callee args base : Node} (typeArgs : Node)
    {steps : List Step} (hcallee : isCallee callee = true)
    (hargs : Node.anyHasEffects args.children = false) (h : Spine f callee base steps) :
    Spine f (.call optional span callee args typeArgs) base
      (steps ++ [.ofCall f optional callee typeArgs (.call optional span callee args typeArgs)])

theorem spine?_base (h : base? f n = some n) : spine? f n = some (n, []) := by
  obtain ⟨hparen, hnonNull, hmember, hcall⟩ := form_of_base? h
  rw [spine?, h]
  · rfl
  all_goals assumption

/-- What is found is a spine, and every spine is found. -/
theorem spine?_eq_some_iff : spine? f n = some (base, steps) ↔ Spine f n base steps := by
  constructor
  · intro h
    fun_induction spine? f n generalizing base steps with
    | case1 span e ih => exact .paren span (ih h)
    | case2 span e ih => exact .nonNull span (ih h)
    | case3 | case5 => cases h
    | case4 optional span object key heffects ih =>
      obtain ⟨⟨b, before⟩, hobject, h⟩ := Option.bind_eq_some_iff.1 h
      cases h
      exact .member optional span (by simpa using heffects) (ih hobject)
    | case6 optional span callee args typeArgs heffects ih =>
      obtain ⟨⟨b, before⟩, hcallee, h⟩ := Option.bind_eq_some_iff.1 h
      cases h
      obtain ⟨hexpr, hargs⟩ :
          isCallee callee = true ∧ Node.anyHasEffects args.children = false := by
        simpa using heffects
      exact .call optional span typeArgs hexpr hargs (ih hcallee)
    | case7 n =>
      obtain ⟨b, hb, h⟩ := Option.map_eq_some_iff.1 h
      cases h
      obtain rfl := base?_eq_some hb
      exact .base hb
  · intro h
    induction h with
    | base h => exact spine?_base h
    | paren span _ ih => rw [Node.paren, spine?, ih]
    | nonNull span _ ih => rw [Node.nonNull, spine?, ih]
    | member optional span hkey _ ih =>
      rw [Node.member, spine?, hkey, ih]
      rfl
    | call optional span typeArgs hcallee hargs _ ih =>
      rw [Node.call, spine?, hcallee, hargs, ih]
      rfl

theorem of?_eq_some {p : AccessPath} (h : of? f n = some p) :
    Spine f n p.base p.steps ∧ p.baseKey = Access.compact (f.slice p.base.span) := by
  unfold of? at h
  obtain ⟨⟨base, steps⟩, hspine, h⟩ := Option.bind_eq_some_iff.1 h
  dsimp only at h
  split at h
  · cases h
  · cases h
    exact ⟨spine?_eq_some_iff.1 hspine, rfl⟩

/-- The expression of the whole path has the same base and steps. -/
theorem Spine.target (h : Spine f n base steps) :
    Spine f ((steps.getLast?.map (·.expr)).getD base) base steps := by
  induction h with
  | base h => exact .base h
  | paren _ _ ih | nonNull _ _ ih => exact ih
  | member optional span hkey h => simpa using Spine.member optional span hkey h
  | call optional span typeArgs hcallee hargs h =>
    simpa using Spine.call optional span typeArgs hcallee hargs h

end AccessPath

end OptionalChain
