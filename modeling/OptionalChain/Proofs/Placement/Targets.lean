import OptionalChain.Node.Basic

/-!
# Targets

What is assigned to, changed, constructed or used as a tag must not be part of an optional chain.
The errors of some parts of a program do not count, since the parser reads them only to find out
what they are. `Node.Admissible` says that all other parts have no such target.
-/

namespace OptionalChain

namespace Node

/-- A member access or a call. -/
def isStep (n : Node) : Bool :=
  match n.kind with
  | .member _ | .call _ => true
  | _ => false

/-- What is assigned to where the expression is: it may stand in parentheses and in assertions. -/
def core : Node → Node
  | .paren _ e => e.core
  | .nonNull _ e => e.core
  | .mk .asType _ [e, _] => e.core
  | .mk .satisfies _ [e, _] => e.core
  | .mk .typeAssertion _ [e, _] => e.core
  | .mk .instantiation _ [e, _] => e.core
  | n => n

/-- The expressions that must not be part of an optional chain. An array counts as a pattern,
since it may be read again as one; the elements of an expression are arguments. -/
def targets (n : Node) : List Node :=
  match n.kind, n.children with
  | .update, [e] => [e.core]
  | .assign, [target, _] => [target.core]
  | .pattern .withDefault, [target, _] => [target.core]
  | .statement .forInLoop, target :: _ => [target.core]
  | .statement .forOfLoop, target :: _ => [target.core]
  | .array, elements => elements.filter isStep
  | .pattern .array, elements => elements.filter isStep
  | .pattern .property, [_, value] => [value].filter isStep
  | .pattern .rest, e :: _ => [e].filter isStep
  | .new, callee :: _ => [callee].filter isStep
  | .taggedTemplate, [tag, typeArgs, _] => if typeArgs.isAbsent then [tag] else []
  | _, _ => []

/-- The parts of a node whose errors count. They do not count in types and after type arguments
between angle brackets, which may turn out to be comparisons. -/
def reviewedParts (n : Node) : List Node :=
  match n.kind, n.children with
  | .type _, _ => []
  | .call false, [callee, args, typeArgs] =>
    if typeArgs.isAbsent then [callee, args, typeArgs] else [callee]
  | .taggedTemplate, [tag, typeArgs, template] =>
    if typeArgs.isAbsent then [tag, typeArgs, template] else [tag]
  | _, children => children

/-- No target in the parts of the node whose errors count is part of an optional chain. -/
inductive Admissible : Node → Prop where
  | intro {n : Node} (targets : ∀ t ∈ n.targets, t.inChain = false)
      (parts : ∀ m ∈ n.reviewedParts, m.Admissible) : n.Admissible

end Node

/-- Kinds of nodes with targets. -/
def Kind.hasTargets : Kind → Bool
  | .update | .assign | .array | .new | .taggedTemplate | .pattern .withDefault | .pattern .array
  | .pattern .property | .pattern .rest | .statement .forInLoop | .statement .forOfLoop => true
  | _ => false

namespace Node

variable {n m : Node} {kind : Kind} {s : Span} {cs : List Node}

theorem Admissible.targets (h : n.Admissible) : ∀ t ∈ n.targets, t.inChain = false := by
  cases h with
  | intro htargets _ => exact htargets

theorem Admissible.parts (h : n.Admissible) : ∀ m ∈ n.reviewedParts, m.Admissible := by
  cases h with
  | intro _ hparts => exact hparts

theorem targets_eq_nil (h : kind.hasTargets = false) : (mk kind s cs).targets = [] := by
  unfold Node.targets
  split
  all_goals first
    | rfl
    | obtain rfl : kind = _ := ‹(mk kind s cs).kind = _›
      cases h

theorem reviewedParts_subset : n.reviewedParts ⊆ n.children := by
  unfold reviewedParts
  split
  · exact List.nil_subset _
  · rw [‹n.children = _›]
    split <;> simp
  · rw [‹n.children = _›]
    split <;> simp
  · exact fun _ h ↦ h

/-- A node is admissible if its targets and all of its parts are. -/
theorem Admissible.mk (htargets : ∀ t ∈ (mk kind s cs).targets, t.inChain = false)
    (hparts : ∀ m ∈ cs, m.Admissible) : (Node.mk kind s cs).Admissible :=
  .intro htargets fun m hm ↦ hparts m (reviewedParts_subset hm)

theorem Admissible.mk_of_hasTargets (h : kind.hasTargets = false)
    (hparts : ∀ m ∈ cs, m.Admissible) : (Node.mk kind s cs).Admissible :=
  .mk (by simp [targets_eq_nil h]) hparts

/-- What targets a node has does not depend on where it stands. -/
theorem Admissible.respan (h : n.Admissible) : (Node.mk n.kind s n.children).Admissible :=
  .intro h.targets h.parts

/-- The node is a type. -/
def IsType (n : Node) : Prop :=
  ∃ form, n.kind = .type form

/-- The node is a pattern. -/
def IsPattern (n : Node) : Prop :=
  ∃ form, n.kind = .pattern form

theorem IsType.admissible (h : n.IsType) : n.Admissible := by
  obtain ⟨kind, s, cs⟩ := n
  obtain ⟨form, rfl⟩ := h
  exact .intro (fun _ ht ↦ by cases ht) fun _ hm ↦ by cases hm

theorem IsType.isStep (h : n.IsType) : n.isStep = false := by
  obtain ⟨form, hform⟩ := h
  rw [Node.isStep, hform]

theorem IsType.isAbsent (h : n.IsType) : n.isAbsent = false := by
  obtain ⟨form, hform⟩ := h
  rw [Node.isAbsent, hform]

theorem IsPattern.isStep (h : n.IsPattern) : n.isStep = false := by
  obtain ⟨form, hform⟩ := h
  rw [Node.isStep, hform]

theorem IsPattern.inChain_core (h : n.IsPattern) : n.core.inChain = false := by
  obtain ⟨kind, s, cs⟩ := n
  obtain ⟨form, rfl⟩ := h
  rfl

end Node

end OptionalChain
