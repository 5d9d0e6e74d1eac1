import OptionalChain.Proofs.Evaluation
import OptionalChain.Proofs.Spines
import Mathlib.Data.List.Basic

/-!
# Evaluation along an access path

An expression with an access path has the value that a walk along the steps of the path gives,
and leaves the state as it is. Markers can be put on the steps; a walk that ends without them
ends with them in the same place, and a walk that has met a nullish value gets to the end
exactly if the step there is optional and so is every step after a closing parenthesis.
-/

namespace OptionalChain

/-! ## The steps of an expression -/

namespace Step

variable {f : SourceFile} {optional : Bool}

theorem isGrouped_ofMember {span : Span} {object key : Node} :
    (ofMember f optional object key (.member optional span object key)).isGrouped =
      object.closes := by
  simp [isGrouped, receiver?, Node.member]

theorem isGrouped_ofCall {span : Span} {callee args typeArgs : Node} :
    (ofCall f optional callee typeArgs (.call optional span callee args typeArgs)).isGrouped =
      callee.closes := by
  simp [isGrouped, receiver?, Node.call]

end Step

namespace AccessPath

def hops (p : AccessPath) : List Hop :=
  p.steps.map (·.hop)

end AccessPath

/-! ## The value of an expression with a path -/

namespace Reading

@[simp]
theorem value_close (r : Reading) (l : Link) : (r.close l).value = l.value := by
  cases r <;> rfl

@[simp]
theorem close_close (r : Reading) (l : Link) : r.close (r.close l) = r.close l := by
  cases r <;> rfl

end Reading

namespace World

variable {σ : Type} (w : World σ) (r : Reading)

theorem walk_append (s : σ) (l : Link) (hs hs' : List Hop) :
    w.walk r s l (hs ++ hs') = (w.walk r s l hs).bind (w.walk r s · hs') := by
  induction hs generalizing l with
  | nil => rfl
  | cons h hs ih =>
    rw [List.cons_append, walk, walk, Option.bind_assoc]
    exact Option.bind_congr fun l _ ↦ ih l

theorem walk_concat (s : σ) (l : Link) (hs : List Hop) (h : Hop) :
    w.walk r s l (hs ++ [h]) = (w.walk r s l hs).bind fun l ↦
      w.follow s h.optional h.kind h.key (if h.grouped then r.close l else l) := by
  rw [walk_append]
  exact Option.bind_congr fun l _ ↦ by simp [walk]

variable {f : SourceFile} {n base : Node} {steps : List Step}

/-- The chain of an access is the walk along its steps, closed if parentheses are around it. -/
theorem link_of_spine (h : AccessPath.Spine f n base steps) (s : σ) :
    w.link f r n s =
      (w.walk r s (.reached (w.base s (Access.compact (f.slice base.span))))
        (steps.map (·.hop))).map fun l ↦ (if n.closes then r.close l else l, s) := by
  induction h with
  | @base n h =>
    obtain ⟨hparen, hnonNull, hmember, hcall⟩ := AccessPath.form_of_base? h
    have hopen : n.closes = false := by rw [Node.closes] <;> assumption
    rw [link, hopen]
    · simp [leaf, h, walk]
    all_goals assumption
  | @paren span e _ _ _ ih =>
    have hclose (l : Link) : r.close (if e.closes then r.close l else l) = r.close l := by
      split <;> simp
    simp [link, ih, Node.closes, Function.comp_def, hclose]
  | nonNull span _ ih =>
    rw [Node.nonNull, link, ih]
    rfl
  | @member optional span object key base before hkey _ ih =>
    rw [Node.member, link, hkey, ih, List.map_append, List.map_singleton, walk_concat]
    cases w.walk r s (.reached (w.base s (Access.compact (f.slice base.span))))
      (before.map (·.hop)) with
    | none => rfl
    | some l =>
      have hgrouped := @Step.isGrouped_ofMember f optional span object key
      unfold Node.member at hgrouped
      simp [Step.hop, hgrouped, Node.closes, Node.member]
  | @call optional span callee args base typeArgs before hcallee hargs _ ih =>
    rw [Node.call, link, hcallee, hargs, ih, List.map_append, List.map_singleton, walk_concat]
    cases w.walk r s (.reached (w.base s (Access.compact (f.slice base.span))))
      (before.map (·.hop)) with
    | none => rfl
    | some l =>
      have hgrouped := @Step.isGrouped_ofCall f optional span callee args typeArgs
      unfold Node.call at hgrouped
      simp [Step.hop, hgrouped, Node.closes, Node.call]

theorem access_of_spine (h : AccessPath.Spine f n base steps) (s : σ) :
    w.access f r n s =
      (w.pathValue r s (Access.compact (f.slice base.span)) (steps.map (·.hop))).map (·, s) := by
  have hvalue (l : Link) : (if n.closes then r.close l else l).value = l.value := by
    split <;> simp
  rw [access, link_of_spine w r h, pathValue, Option.map_map, Option.map_map]
  exact congrArg (Option.map · _) (funext fun l ↦ congrArg (·, s) (hvalue l))

/-- The value of an expression is that of its path, and the state stays. -/
theorem access_of_path {p : AccessPath} (h : AccessPath.of? f n = some p) (s : σ) :
    w.access f r n s = (w.pathValue r s p.baseKey p.hops).map (·, s) := by
  obtain ⟨hspine, hkey⟩ := AccessPath.of?_eq_some h
  rw [hkey]
  exact w.access_of_spine r hspine s

theorem access_paren (span : Span) (e : Node) (s : σ) :
    w.access f r (.paren span e) s = w.access f r e s := by
  simp only [access, link, Option.map_map]
  exact congrArg (Option.map · _) (funext fun l ↦ by simp)

theorem eval_of_base {m : Node} (h : AccessPath.base? f n = some m) (s : σ) :
    w.eval f r n s = w.access f r n s := by
  have hkind := AccessPath.isBaseKind_of_base? h
  obtain ⟨kind, span, children⟩ := n
  cases kind <;> simp [Node.kind, AccessPath.isBaseKind] at hkind <;> simp [eval]

/-- An expression with a path is evaluated as an access. -/
theorem eval_of_spine (h : AccessPath.Spine f n base steps) (s : σ) :
    w.eval f r n s = w.access f r n s := by
  induction h with
  | base h => exact w.eval_of_base r h s
  | @paren span e _ _ _ ih =>
    rw [Node.paren, eval, ih]
    exact (w.access_paren r span e s).symm
  | nonNull | member | call => simp [eval, Node.nonNull, Node.member, Node.call]

theorem eval_of_path {p : AccessPath} (h : AccessPath.of? f n = some p) (s : σ) :
    w.eval f r n s = (w.pathValue r s p.baseKey p.hops).map (·, s) := by
  rw [w.eval_of_spine r (AccessPath.of?_eq_some h).1, w.access_of_path r h]

end World

end OptionalChain
