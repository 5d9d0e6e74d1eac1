import OptionalChain.Proofs.DepthBound
import OptionalChain.Proofs.StricterOptions
import OptionalChain.Rule.PreferOptionalChain

/-!
# Undeclared names

Nothing is known of a name that no declaration binds, of a meta property, of a member of a
superclass and of an awaited value. Every access on such a base stays unresolved, however many steps
it has and however deep it is followed, so a bare test of it may stop at any falsy value and is only
suggested to be changed. A group of checks is judged by the first of them alone, though: where the
text of another base reads the same without blanks, as that of `new A` and of `newA` does, what is
known of that base counts for both.
-/

namespace OptionalChain

/-! ## Unresolved answers -/

namespace Resolver

variable {xs : List Resolved} (h : .kind .unresolved ∈ xs)

include h

theorem unresolved_mem_orUnresolved : .kind .unresolved ∈ orUnresolved xs := by
  unfold orUnresolved
  split
  · exact List.mem_singleton_self _
  · exact h

theorem unresolved_mem_withUndefined (optional : Bool) :
    .kind .unresolved ∈ withUndefined optional xs := by
  cases optional with
  | false => exact h
  | true => exact List.mem_append_left _ h

theorem unresolved_mem_dropNullish : .kind .unresolved ∈ dropNullish xs :=
  List.mem_filter.2 ⟨h, rfl⟩

theorem unresolved_mem_callWith (type : Node → List Resolved) :
    .kind .unresolved ∈ callWith type xs :=
  unresolved_mem_orUnresolved (List.mem_flatMap.2 ⟨_, h, List.mem_singleton_self _⟩)

theorem unresolved_mem_memberWith (d : Declarations) (r : Resolver) (key : Key) :
    .kind .unresolved ∈ memberWith d r xs key := by
  refine unresolved_mem_orUnresolved (List.mem_flatMap.2 ⟨_, h, ?_⟩)
  rw [memberOne_unresolved]
  exact List.mem_singleton_self _

theorem unresolved_mem_call (d : Declarations) (n : Nat) :
    .kind .unresolved ∈ (level d n).call xs := by
  cases n with
  | zero => exact unresolved_mem_callWith h _
  | succ n => exact unresolved_mem_callWith h _

theorem unresolved_mem_member (d : Declarations) (n : Nat) (key : Key) :
    .kind .unresolved ∈ (level d n).member xs key := by
  cases n with
  | zero => exact List.mem_singleton_self _
  | succ n => exact unresolved_mem_memberWith h d _ key

end Resolver

namespace Declarations

variable (d : Declarations)

/-- However deep the expression is followed, it may be anything. -/
def Unresolved (e : Node) : Prop :=
  ∀ n, .kind .unresolved ∈ (Resolver.level d n).expr e

/-- Whether a base of the kind has no declared type: a name that is bound nowhere, a meta property,
a member of a superclass, or an awaited value. -/
def isUndeclared : Kind → Bool
  | .ident name => name != "undefined" && d.bindings.all (·.name != name)
  | .metaProperty | .superMember | .await => true
  | _ => false

variable {d} {e : Node}

theorem unresolved_of_succ
    (h : ∀ n, .kind .unresolved ∈ Resolver.exprWith d (Resolver.level d n) e) : d.Unresolved e
  | 0 => List.mem_singleton_self _
  | n + 1 => h n

theorem Unresolved.mem_shapeWithin (h : d.Unresolved e) (depth : Nat) :
    .unresolved ∈ (d.shapeWithin depth e).kinds :=
  Shape.mem_ofKinds.2 (List.mem_map.2 ⟨_, h (depth + 1), rfl⟩)

/-! ## Steps -/

theorem Unresolved.paren (h : d.Unresolved e) (s : Span) : d.Unresolved (.paren s e) :=
  unresolved_of_succ h

theorem Unresolved.nonNull (h : d.Unresolved e) (s : Span) : d.Unresolved (.nonNull s e) :=
  unresolved_of_succ fun n ↦ Resolver.unresolved_mem_dropNullish (h n)

theorem Unresolved.member (h : d.Unresolved e) (optional : Bool) (s : Span) (key : Node) :
    d.Unresolved (.member optional s e key) :=
  unresolved_of_succ fun n ↦
    Resolver.unresolved_mem_withUndefined (Resolver.unresolved_mem_member (h n) d n _) optional

theorem Unresolved.call (h : d.Unresolved e) (optional : Bool) (s : Span) (args typeArgs : Node) :
    d.Unresolved (.call optional s e args typeArgs) := by
  refine unresolved_of_succ fun n ↦ ?_
  rw [Node.call, Resolver.exprWith]
  split
  · exact Resolver.unresolved_mem_withUndefined (Resolver.unresolved_mem_call (h n) d n) optional
  · exact List.mem_singleton_self _

/-! ## Bases -/

theorem lookup_eq_none {name : String} (h : ∀ b ∈ d.bindings, b.name ≠ name) (pos : Nat) :
    d.lookup name pos = none := by
  have hvisible : (d.bindings.filter fun b ↦ b.name == name && b.scope.has pos) = [] :=
    List.filter_eq_nil_iff.2 fun b hb ↦ by simp [h b hb]
  rw [lookup, hvisible]
  rfl

theorem unresolved_of_isUndeclared (h : d.isUndeclared e.kind = true) : d.Unresolved e := by
  obtain ⟨kind, s, cs⟩ := e
  refine unresolved_of_succ fun n ↦ ?_
  cases kind
  case ident name =>
    obtain ⟨hname, hbound⟩ := Bool.and_eq_true_iff.1 h
    have hnone : d.lookup name s.lo = none :=
      lookup_eq_none (fun b hb ↦ by simpa using List.all_eq_true.1 hbound b hb) s.lo
    simp only [Resolver.exprWith, Resolver.nameWith, hnone]
    rw [if_neg (by simpa using hname)]
    exact List.mem_singleton_self _
  case metaProperty | superMember | await => exact List.mem_singleton_self _
  all_goals cases h

/-- An access on an undeclared base stays unresolved, whatever its steps are. -/
theorem unresolved_of_spine {f : SourceFile} {n base : Node} {steps : List Step}
    (h : AccessPath.Spine f n base steps) (hbase : d.isUndeclared base.kind = true) :
    d.Unresolved n := by
  induction h with
  | base => exact unresolved_of_isUndeclared hbase
  | paren span _ ih => exact (ih hbase).paren span
  | nonNull span _ ih => exact (ih hbase).nonNull span
  | @member optional span _ key _ _ _ _ ih => exact (ih hbase).member optional span key
  | @call optional span _ args _ typeArgs _ _ _ _ ih =>
    exact (ih hbase).call optional span args typeArgs

theorem unresolved_target {f : SourceFile} {n : Node} {p : AccessPath}
    (h : AccessPath.of? f n = some p) (hbase : d.isUndeclared p.base.kind = true) :
    d.Unresolved p.target :=
  unresolved_of_spine (AccessPath.of?_eq_some h).1.target hbase

end Declarations

/-! ## Verdicts -/

theorem Shape.mayBeFalsy_of_unresolved {s : Shape} (h : .unresolved ∈ s.kinds) :
    s.mayBeFalsy = true :=
  List.any_eq_true.2 ⟨.unresolved, List.mem_filter.2 ⟨h, rfl⟩, rfl⟩

theorem mayBeFalsy_of_risky {s : Shape} {o : ChainOptions} (h : judgeTruthiness s o = .risky) :
    s.mayBeFalsy = true := by
  unfold judgeTruthiness at h
  split_ifs at h
  assumption

/-- Checks that are not disqualified are safe unless one of them is a bare test of what may be
falsy. -/
theorem judgeLevel_eq_safe_iff {checks : List CheckKind} {s : Shape} {o : ChainOptions}
    (h : judgeLevel checks s o ≠ .disqualified) :
    judgeLevel checks s o = .safe ↔
      ((∃ kind ∈ checks, kind.isTruthiness = true) → s.mayBeFalsy = false) := by
  rw [← List.any_eq_true]
  unfold judgeLevel at *
  split
  · rename_i hincomplete
    rw [if_pos hincomplete] at h
    exact absurd rfl h
  · rename_i hcomplete
    rw [if_neg hcomplete] at h
    split
    · rename_i htruthiness
      rw [if_pos htruthiness] at h
      refine ⟨fun hsafe _ ↦ mayBeFalsy_of_judgeTruthiness hsafe, fun hfalsy ↦ ?_⟩
      cases hjudge : judgeTruthiness s o with
      | safe => rfl
      | risky =>
        rw [mayBeFalsy_of_risky hjudge] at hfalsy
        cases hfalsy htruthiness
      | disqualified => exact absurd hjudge h
    · rename_i hcompares
      exact iff_of_true rfl fun htruthiness ↦ absurd htruthiness hcompares

namespace PlacedChain.WellFormed

variable {b : PlacedChain} {c : ChainFinder} {operands : List Node} (h : b.WellFormed c operands)

include h

theorem groupVerdict_eq_judgeLevel {g : AccessPath} (hg : g ∈ b.chain.guards) :
    c.groupVerdict (Check.group (b.checks c operands) g) =
      judgeLevel ((Check.group (b.checks c operands) g).map (·.kind)) (c.oracle g.target)
        c.options := by
  obtain ⟨k, ks, hgroup, hpath⟩ := h.first g hg
  rw [hgroup, ChainFinder.groupVerdict, hpath]

theorem groupVerdict_eq_safe_iff {g : AccessPath} (hg : g ∈ b.chain.guards) :
    c.groupVerdict (Check.group (b.checks c operands) g) = .safe ↔
      ((∃ k ∈ b.checks c operands, k.path.sameAs g = true ∧ k.kind.isTruthiness = true) →
        (c.oracle g.target).mayBeFalsy = false) := by
  have hqualified : c.groupVerdict (Check.group (b.checks c operands) g) ≠ .disqualified := by
    intro hdisqualified
    have hworst := h.worst g hg
    rw [hdisqualified] at hworst
    cases hverdict : b.chain.verdict with
    | disqualified => exact h.qualified hverdict
    | safe | risky => simp [hverdict, Verdict.rank] at hworst
  rw [h.groupVerdict_eq_judgeLevel hg] at hqualified ⊢
  rw [judgeLevel_eq_safe_iff hqualified]
  simp only [List.mem_map, exists_exists_and_eq_and]
  simp only [Check.group, List.mem_filter, and_assoc]

/-- A chain is safe exactly if none of its guards is a bare test of what may be falsy. What a guard
may be is told by the first check on its path. -/
theorem verdict_eq_safe_iff :
    b.chain.verdict = .safe ↔ ∀ g ∈ b.chain.guards,
      (∃ k ∈ b.checks c operands, k.path.sameAs g = true ∧ k.kind.isTruthiness = true) →
        (c.oracle g.target).mayBeFalsy = false := by
  constructor
  · intro hsafe g hg
    rw [← h.groupVerdict_eq_safe_iff hg]
    have hworst := h.worst g hg
    rw [hsafe] at hworst
    cases hgroup : c.groupVerdict (Check.group (b.checks c operands) g) with
    | safe => rfl
    | risky | disqualified => simp [hgroup, Verdict.rank] at hworst
  · intro hguards
    obtain ⟨g, hg, hattained⟩ := h.attained
    rw [← hattained, h.groupVerdict_eq_safe_iff hg]
    exact hguards g hg

end PlacedChain.WellFormed

/-! ## Reports -/

namespace ChainFinder

variable {c : ChainFinder} {operands : List Node} {b : PlacedChain} (hb : b ∈ c.placed operands)

include hb

/-- A check of a chain is made on the path of one of its guards. -/
theorem exists_guard_of_mem_checks {k : Check} (hk : k ∈ b.checks c operands) :
    ∃ g ∈ b.chain.guards, k.path.sameAs g = true := by
  obtain ⟨o, ho, hcheck⟩ := List.mem_filterMap.1 hk
  obtain ⟨n, hn, rfl⟩ := List.mem_map.1 ho
  have hof : Check.of? c.file n = some k := (Option.filter_eq_some_iff.1 hcheck).1
  obtain ⟨k', hof', -, hguard⟩ :=
    (wellFormed_of_chainAt? (chainAt?_of_mem_placed hb)).made n hn
  rw [hof] at hof'
  cases hof'
  exact hguard

theorem exists_of?_of_mem_guards {g : AccessPath} (hg : g ∈ b.chain.guards) :
    ∃ e, AccessPath.of? c.file e = some g := by
  obtain ⟨parts⟩ := exists_parts (chainAt?_of_mem_placed hb)
  exact parts.exists_of?_guard hg

end ChainFinder

namespace PreferOptionalChain

variable {c : Context}

theorem Context.applicability_fix (region : Region) (replacement : List Char) (v : Verdict) :
    (c.fix region replacement v).applicability =
      if v = .safe ∨ c.options.allowUnsafeFixes then .automatic else .suggestion := by
  unfold Context.fix
  split <;> rfl

/-- Without leave for unsafe fixes, a chain with a bare test of what may be falsy is only suggested
to be changed, and every other chain is changed. -/
theorem Context.suggestion_iff_of_chainReport? (hstrict : c.options.allowUnsafeFixes = false)
    {style : ChainStyle} {operands : List Node} {b : PlacedChain} {report : Diagnostic × Event}
    (hb : b ∈ (c.finder style).placed operands) (hreport : c.chainReport? b.chain = some report) :
    report.1.fixes.map (·.applicability) = [.suggestion] ↔
      ∃ g ∈ b.chain.guards, (c.oracle g.target).mayBeFalsy = true ∧
        ∃ k ∈ b.checks (c.finder style) operands,
          k.path.sameAs g = true ∧ k.kind.isTruthiness = true := by
  have hwell := ChainFinder.wellFormed_of_chainAt? (ChainFinder.chainAt?_of_mem_placed hb)
  obtain ⟨replacement, -, hreport⟩ := Option.bind_eq_some_iff.1 hreport
  obtain ⟨region, -, hreport⟩ := Option.bind_eq_some_iff.1 hreport
  cases hreport
  calc
    _ ↔ (c.fix region replacement b.chain.verdict).applicability = .suggestion :=
      List.singleton_inj
    _ ↔ b.chain.verdict ≠ .safe := by
      rw [c.applicability_fix, hstrict]
      simp
    _ ↔ ∃ g ∈ b.chain.guards, (c.oracle g.target).mayBeFalsy = true ∧
        ∃ k ∈ b.checks (c.finder style) operands,
          k.path.sameAs g = true ∧ k.kind.isTruthiness = true := by
      rw [ne_eq, hwell.verdict_eq_safe_iff]
      simp only [not_forall, exists_prop, Bool.not_eq_false]
      exact exists_congr fun g ↦ and_congr_right fun _ ↦ and_comm

/-- An access on an undeclared base stays unresolved, whatever its steps are and however deep it is
followed. A chain is only suggested to be changed, unless unsafe fixes are allowed, exactly if it
has a bare test on the path of a guard that may be falsy. So it is with every bare test of an
undeclared base, as long as no check on a base of another kind comes first on what reads as the
same path. -/
theorem undeclared_guards_only_suggested {d : Declarations} (horacle : c.oracle = d.oracle)
    (hstrict : c.options.allowUnsafeFixes = false) :
    (∀ n p, AccessPath.of? c.file n = some p → d.isUndeclared p.base.kind = true →
        ∀ depth, .unresolved ∈ (d.shapeWithin depth p.target).kinds) ∧
      ∀ style operands,
        ((c.finder style).placed operands).map (·.chain) = (c.finder style).find operands ∧
        ∀ b ∈ (c.finder style).placed operands, ∀ report, c.chainReport? b.chain = some report →
          (report.1.fixes.map (·.applicability) = [.suggestion] ↔
            ∃ g ∈ b.chain.guards, (d.oracle g.target).mayBeFalsy = true ∧
              ∃ k ∈ b.checks (c.finder style) operands,
                k.path.sameAs g = true ∧ k.kind.isTruthiness = true) ∧
          ∀ k ∈ b.checks (c.finder style) operands, k.kind.isTruthiness = true →
            d.isUndeclared k.path.base.kind = true →
            (∀ g ∈ b.chain.guards, k.path.sameAs g = true → g.base.kind = k.path.base.kind) →
              report.1.fixes.map (·.applicability) = [.suggestion] := by
  refine ⟨fun n p hp hbase ↦ (Declarations.unresolved_target hp hbase).mem_shapeWithin,
    fun style operands ↦ ⟨(c.finder style).map_chain_placed operands, fun b hb report hreport ↦ ?_⟩⟩
  have hiff := Context.suggestion_iff_of_chainReport? hstrict hb hreport
  rw [horacle] at hiff
  refine ⟨hiff, fun k hk htruthiness hbase hkinds ↦ hiff.2 ?_⟩
  obtain ⟨g, hg, hsame⟩ := ChainFinder.exists_guard_of_mem_checks hb hk
  obtain ⟨e, he⟩ := ChainFinder.exists_of?_of_mem_guards hb hg
  have hunresolved : d.Unresolved g.target := by
    refine Declarations.unresolved_target he ?_
    rw [hkinds g hg hsame]
    exact hbase
  exact ⟨g, hg, Shape.mayBeFalsy_of_unresolved (hunresolved.mem_shapeWithin maxDepth), k, hk, hsame,
    htruthiness⟩

/-- The rule on a program, with what the program itself declares. -/
def Context.inText (text : String) : Context :=
  let f : SourceFile := .ofText "a.ts" text.toList
  ⟨f, (Declarations.ofProgram? f.program?).oracle, {}⟩

def undeclaredGuard : Context :=
  .inText "a?.b(1)! && a.b(1).c;"

/-- Both bases read `newA` without blanks. -/
def mergedBases : Context :=
  .inText "new A != null && newA && newA.b;"

/-- The test of a call on the undeclared name `a` is only suggested to be changed. The test of the
undeclared name `newA` is changed at once, because a new object is checked first. -/
theorem undeclared_guard_suggested :
    (∃ b ∈ (undeclaredGuard.finder .and).placed (undeclaredGuard.finder .and).firstRun,
      b.chain.guards.map (·.render) = ["a.b(1)".toList] ∧
        ∃ report ∈ undeclaredGuard.chainReport? b.chain,
          report.1.fixes.map (·.applicability) = [.suggestion]) ∧
      ∃ b ∈ (mergedBases.finder .and).placed (mergedBases.finder .and).firstRun,
        (∃ k ∈ b.checks (mergedBases.finder .and) (mergedBases.finder .and).firstRun,
          k.kind.isTruthiness = true ∧ k.path.base.kind = .ident "newA") ∧
        ∃ report ∈ mergedBases.chainReport? b.chain,
          report.1.fixes.map (·.applicability) = [.automatic] := by
  refine ⟨?_, by decide +kernel⟩
  obtain ⟨b, hb, hguards, hreport, k, hk, htruthiness, hbase, hkinds⟩ :
      ∃ b ∈ (undeclaredGuard.finder .and).placed (undeclaredGuard.finder .and).firstRun,
        b.chain.guards.map (·.render) = ["a.b(1)".toList] ∧
        (undeclaredGuard.chainReport? b.chain).isSome = true ∧
        ∃ k ∈ b.checks (undeclaredGuard.finder .and) (undeclaredGuard.finder .and).firstRun,
          k.kind.isTruthiness = true ∧
          (Declarations.ofProgram? undeclaredGuard.file.program?).isUndeclared
            k.path.base.kind = true ∧
          ∀ g ∈ b.chain.guards, k.path.sameAs g = true → g.base.kind = k.path.base.kind := by
    decide +kernel
  obtain ⟨-, hreports⟩ := undeclared_guards_only_suggested (c := undeclaredGuard)
    (d := Declarations.ofProgram? undeclaredGuard.file.program?) rfl rfl
  obtain ⟨report, hreport⟩ := Option.isSome_iff_exists.1 hreport
  obtain ⟨-, hsuggested⟩ :=
    (hreports .and (undeclaredGuard.finder .and).firstRun).2 b hb report hreport
  exact ⟨b, hb, hguards, report, hreport, hsuggested k hk htruthiness hbase hkinds⟩

end PreferOptionalChain

end OptionalChain
