import Mathlib.Data.Nat.Init
import OptionalChain.Guard.Safety
import OptionalChain.Typing.Resolve

/-!
# Kinds of shapes

A shape has the kinds it was made of, in some order and without repetition. Verdicts look only at
which kinds there are.
-/

namespace OptionalChain

theorem mem_addNew {α : Type} [DecidableEq α] {xs : List α} {x y : α} :
    y ∈ addNew xs x ↔ y ∈ xs ∨ y = x := by
  unfold addNew
  split
  · rename_i hx
    exact ⟨.inl, fun h ↦ h.elim id fun h ↦ h ▸ hx⟩
  · rw [List.mem_append, List.mem_singleton]

namespace Shape

theorem mem_foldl_addNew {ks found : List TypeKind} {k : TypeKind} :
    k ∈ ks.foldl addNew found ↔ k ∈ found ∨ k ∈ ks := by
  induction ks generalizing found with
  | nil => simp
  | cons l ks ih => rw [List.foldl_cons, ih, mem_addNew, List.mem_cons, or_assoc]

@[simp]
theorem mem_ofKinds {ks : List TypeKind} {k : TypeKind} : k ∈ (ofKinds ks).kinds ↔ k ∈ ks := by
  simp [ofKinds, mem_foldl_addNew]

/-- The shapes have the same kinds. -/
def Same (s t : Shape) : Prop :=
  ∀ k, k ∈ s.kinds ↔ k ∈ t.kinds

variable {s t : Shape} (h : s.Same t)

include h

theorem Same.contains_eq (k : TypeKind) : s.kinds.contains k = t.kinds.contains k := by
  rw [Bool.eq_iff_iff, List.contains_iff_mem, List.contains_iff_mem]
  exact h k

theorem Same.mem_nonNullish_iff (k : TypeKind) : k ∈ s.nonNullish ↔ k ∈ t.nonNullish := by
  unfold nonNullish
  rw [List.mem_filter, List.mem_filter, h k]

omit h in
theorem any_eq_of_mem_iff {ks ls : List TypeKind} (h : ∀ k, k ∈ ks ↔ k ∈ ls)
    (p : TypeKind → Bool) : ks.any p = ls.any p := by
  rw [Bool.eq_iff_iff, List.any_eq_true, List.any_eq_true]
  simp only [h]

theorem Same.isExactly_eq (category : TypeCategory) :
    s.isExactly category = t.isExactly category := by
  have hempty : s.nonNullish.isEmpty = t.nonNullish.isEmpty := by
    rw [Bool.eq_iff_iff, List.isEmpty_iff, List.isEmpty_iff, List.eq_nil_iff_forall_not_mem,
      List.eq_nil_iff_forall_not_mem]
    simp only [h.mem_nonNullish_iff]
  have hall (p : TypeKind → Bool) : s.nonNullish.all p = t.nonNullish.all p := by
    rw [Bool.eq_iff_iff, List.all_eq_true, List.all_eq_true]
    simp only [h.mem_nonNullish_iff]
  cases category
  all_goals simp only [isExactly, h.contains_eq, hempty, hall]

theorem Same.judgeLevel_eq (checks : List CheckKind) (o : ChainOptions) :
    judgeLevel checks s o = judgeLevel checks t o := by
  have hcomplete : isComplete checks s = isComplete checks t := by
    unfold isComplete includesNull includesUndefined isUnconstrained
    rw [h.contains_eq, h.contains_eq, any_eq_of_mem_iff h]
  have htruthiness : judgeTruthiness s o = judgeTruthiness t o := by
    unfold judgeTruthiness includesNullish includesNull includesUndefined hasFalsyLiteral mayBeFalsy
    simp only [h.contains_eq, h.isExactly_eq, any_eq_of_mem_iff h,
      any_eq_of_mem_iff h.mem_nonNullish_iff]
  unfold judgeLevel
  rw [hcomplete, htruthiness]

end Shape

namespace Resolver

/-- The value of a name is that of the expression. -/
theorem valueWith_ident {type expr : Node → List Resolved} {widen : Bool} {name : String} {s : Span}
    {cs : List Node} (h : name ≠ "undefined") :
    valueWith type expr widen (.mk (.ident name) s cs) = expr (.mk (.ident name) s cs) := by
  rw [valueWith]
  exact fun _ hname _ ↦ h hname

end Resolver

end OptionalChain
