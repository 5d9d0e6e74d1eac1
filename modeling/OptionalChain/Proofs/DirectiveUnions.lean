import OptionalChain.Engine
import OptionalChain.Proofs.PathEvaluation
import OptionalChain.Proofs.Searches

/-!
# Directives together

Directives for one line are merged as they are added, and a directive without rules stands for all
of them. What is turned off in the end is what one of the directives turns off alone, so their
order does not count, and more directives never let more through.
-/

open scoped List

namespace OptionalChain

namespace Directive

@[simp]
theorem line_merge (d e : Directive) : (d.merge e).line = d.line := by
  unfold merge
  split <;> rfl

/-- Merging neither loses a directive for all rules nor makes one of two others. -/
@[simp]
theorem disables_merge (d e : Directive) (ref : String) :
    (d.merge e).disables ref = (d.disables ref || e.disables ref) := by
  unfold merge disables disablesAll
  cases hd : d.rules <;> cases he : e.rules <;> simp [Bool.or_assoc]

theorem any_disables_merge (d e : Directive) (refs : List String) :
    refs.any (d.merge e).disables = (refs.any d.disables || refs.any e.disables) := by
  rw [Bool.eq_iff_iff]
  simp [and_or_left, exists_or]

/-- The directive is for the line and turns off one of the references. -/
def covers (d : Directive) (line : Nat) (refs : List String) : Bool :=
  d.line == line && refs.any d.disables

theorem covers_iff {d : Directive} {line : Nat} {refs : List String} :
    d.covers line refs = true ↔
      d.line = line ∧ (d.rules = [] ∧ refs ≠ [] ∨ ∃ ref ∈ refs, ref ∈ d.rules) := by
  simp only [covers, Bool.and_eq_true, beq_iff_eq, List.any_eq_true, disables, Bool.or_eq_true,
    List.isEmpty_iff, List.contains_iff_mem]
  refine and_congr_right fun _ ↦ ⟨?_, ?_⟩
  · rintro ⟨ref, href, hall | hnamed⟩
    · exact .inl ⟨hall, List.ne_nil_of_mem href⟩
    · exact .inr ⟨ref, href, hnamed⟩
  · rintro (⟨hall, hrefs⟩ | ⟨ref, href, hnamed⟩)
    · obtain ⟨ref, href⟩ := List.exists_mem_of_ne_nil refs hrefs
      exact ⟨ref, href, .inl hall⟩
    · exact ⟨ref, href, .inr hnamed⟩

end Directive

namespace Directives

/-! ## Adding -/

/-- What one more directive turns off is added to what was turned off. -/
theorem isDisabled_add (ds : Directives) (d : Directive) (line : Nat) (refs : List String) :
    (ds.add d).isDisabled line refs = (ds.isDisabled line refs || d.covers line refs) := by
  obtain ⟨entries⟩ := ds
  unfold add isDisabled Directive.covers
  induction entries with
  | nil => by_cases hline : d.line = line <;> simp [addTo, hline]
  | cons e es ih =>
    rw [addTo]
    split
    · rename_i hmerged
      by_cases hline : e.line = line
      · simp [hline, ← hmerged, Directive.any_disables_merge]
      · simp [hline, ← hmerged]
    · rename_i hother
      by_cases hline : e.line = line
      · have hd : d.line ≠ line := fun h ↦ hother (hline.trans h.symm)
        simp [hline, hd]
      · simpa [hline] using ih

theorem isDisabled_foldl_add (xs : List Directive) (ds : Directives) (line : Nat)
    (refs : List String) :
    (xs.foldl add ds).isDisabled line refs =
      (ds.isDisabled line refs || xs.any (·.covers line refs)) := by
  induction xs generalizing ds with
  | nil => simp
  | cons d xs ih => rw [List.foldl_cons, ih, isDisabled_add, List.any_cons, Bool.or_assoc]

/-- Every addition counts, and nothing else does. -/
theorem isDisabled_of_empty (xs : List Directive) (line : Nat) (refs : List String) :
    (xs.foldl add {}).isDisabled line refs = xs.any (·.covers line refs) := by
  rw [isDisabled_foldl_add]
  rfl

/-- All that the first directives turn off is turned off by the second ones. -/
def Within (ds ds' : Directives) : Prop :=
  ∀ line refs, ds.isDisabled line refs = true → ds'.isDisabled line refs = true

theorem within_of_subset {xs ys : List Directive} (h : xs ⊆ ys) :
    Within (xs.foldl add {}) (ys.foldl add {}) := by
  intro line refs hdisabled
  rw [isDisabled_of_empty, List.any_eq_true] at hdisabled ⊢
  obtain ⟨d, hd, hcovers⟩ := hdisabled
  exact ⟨d, h hd, hcovers⟩

end Directives

/-! ## The rule does not look at directives -/

section Rule

variable (f : SourceFile) (ds : Directives)

theorem AccessPath.spine?_directives (n : Node) :
    spine? { f with directives := ds } n = spine? f n := by
  fun_induction spine? f n with
  | case1 _ e ih => rw [spine?, ih]
  | case2 _ e ih => rw [spine?, ih]
  | case3 optional s object key heffects => rw [spine?, if_pos heffects]
  | case4 optional s object key heffects ih =>
    rw [spine?, if_neg heffects, ih]
    rfl
  | case5 optional s callee args typeArgs heffects => rw [spine?, if_pos heffects]
  | case6 optional s callee args typeArgs heffects ih =>
    rw [spine?, if_neg heffects, ih]
    rfl
  | case7 n => rw [spine?] <;> first | rfl | assumption

theorem AccessPath.of?_directives : of? { f with directives := ds } = of? f := by
  funext n
  unfold of?
  rw [spine?_directives]
  rfl

theorem ChainFinder.operand_directives (style : ChainStyle) (oracle : Oracle)
    (options : ChainOptions) :
    operand ⟨{ f with directives := ds }, style, oracle, options⟩ =
      operand ⟨f, style, oracle, options⟩ := by
  funext n
  unfold operand Check.of? Check.ofEquality? Check.ofPath? terminalPath? terminalOfEquality?
    terminalOfRelation?
  simp only [AccessPath.of?_directives]

variable (c : ChainFinder)

theorem ChainFinder.chainWithin_file (levels : List Level) (first : Level) (t : Nat) :
    { c with file := f }.chainWithin levels first t = c.chainWithin levels first t := by
  induction t with
  | zero => rfl
  | succ t ih =>
    rw [chainWithin, chainWithin, ih]
    rfl

/-- What was read from the operands decides, not the file they are in. -/
theorem ChainFinder.searchFrom_file (skip index : Nat) (operands : List Operand) :
    { c with file := f }.searchFrom skip index operands = c.searchFrom skip index operands := by
  have hsettle : { c with file := f }.settle = c.settle := by
    funext levels
    unfold settle
    simp only [chainWithin_file]
    rfl
  induction operands generalizing skip index with
  | nil => rfl
  | cons operand rest ih =>
    cases skip with
    | zero =>
      rw [searchFrom, searchFrom, hsettle, ih]
      rfl
    | succ skip => rw [searchFrom, searchFrom, ih]

theorem ChainFinder.search_directives (style : ChainStyle) (oracle : Oracle)
    (options : ChainOptions) :
    search ⟨{ f with directives := ds }, style, oracle, options⟩ =
      search ⟨f, style, oracle, options⟩ := by
  funext operands
  unfold search
  rw [operand_directives]
  exact searchFrom_file _ ⟨f, style, oracle, options⟩ 0 0 _

theorem PreferOptionalChain.check?_directives (options : ChainOptions) :
    check? options { f with directives := ds } = check? options f := by
  unfold check?
  dsimp only [SourceFile.program?]
  split
  · rfl
  · rename_i program _
    let c : Context := ⟨f, (Declarations.ofProgram program).oracle, options⟩
    let c' : Context := { c with file := { f with directives := ds } }
    have hsearch : ∀ style, (c'.finder style).search = (c.finder style).search := fun style ↦
      ChainFinder.search_directives f ds style c.oracle options
    have hfindings : c'.findings = c.findings := by
      funext x
      cases x with
      | run style operands =>
        simp only [Context.findings, ChainFinder.find, hsearch]
      | access n => rfl
    have hnotes : c'.notes = c.notes := by
      funext x
      cases x with
      | run style operands =>
        simp only [Context.notes, ChainFinder.find, ChainFinder.truncations, hsearch]
        rfl
      | access n => rfl
    have hmade : c'.diagnosticOf? = c.diagnosticOf? := by
      funext y
      cases y <;> rfl
    change checkProgram? c' program = checkProgram? c program
    rw [checkProgram?_eq, checkProgram?_eq, Context.searchReports?, Context.searchReports?,
      hfindings, hnotes, hmade]

end Rule

/-! ## Analysis under directives -/

/-- The rules find the same whatever directives a file has. -/
def Registry.IgnoresDirectives (r : Registry) : Prop :=
  ∀ (f : SourceFile) (ds : Directives), r.runAll? { f with directives := ds } = r.runAll? f

namespace Engine

variable (e : Engine) (f : SourceFile)

theorem ignoresDirectives_ofConfig (c : Config) : (ofConfig c).registry.IgnoresDirectives := by
  intro f ds
  have hcheck := PreferOptionalChain.check?_directives f ds c.rules.chain
  simp [Registry.runAll?, Registry.runRule?, ofConfig, Registry.register, Registry.configure,
    preferOptionalChain, hcheck]

theorem diagnosticsUnder_sublist {ds ds' : Directives} (h : ds.Within ds')
    (found : List Diagnostic) :
    e.diagnosticsUnder ds' f found <+ e.diagnosticsUnder ds f found := by
  have hlets :
      ∀ line refs, (!ds'.isDisabled line refs) = true → (!ds.isDisabled line refs) = true := by
    intro line refs hout
    by_contra hdisabled
    simp only [Bool.not_eq_true', Bool.not_eq_false] at hout hdisabled
    rw [h line refs hdisabled] at hout
    cases hout
  exact (List.monotone_filter_right _ fun _ ↦ hlets _ _).append
    (List.monotone_filter_right _ fun _ ↦ hlets _ _)

theorem length_diagnosticsUnder_le (ds : Directives) (found : List Diagnostic) :
    (e.diagnosticsUnder ds f found).length ≤ found.length + f.issues.length := by
  have hissues := List.length_filter_le (fun d ↦ !ds.isDisabled d.line [parseRuleId])
    (f.issues.map (issueDiagnostic f))
  have hfound := List.length_filter_le (fun d ↦ !ds.isDisabled d.line (e.refsOf d)) found
  rw [List.length_map] at hissues
  rw [diagnosticsUnder, List.length_append, Nat.add_comm]
  exact Nat.add_le_add hfound hissues

/-- An analysis under more directives gives a result exactly if one under fewer does, and then it
has some of the same diagnostics in the same order. -/
theorem rel_analyze?_of_within {e : Engine} (hrules : e.registry.IgnoresDirectives)
    {ds ds' : Directives} (h : ds.Within ds') (f : SourceFile) :
    Option.Rel (fun r r' : Report ↦ r.diagnostics <+ r'.diagnostics)
      (e.analyze? { f with directives := ds' }) (e.analyze? { f with directives := ds }) := by
  unfold analyze?
  rw [hrules f ds, hrules f ds']
  cases e.registry.runAll? f with
  | none => exact .none
  | some found => exact .some (e.diagnosticsUnder_sublist f h found.diagnostics)

/-- The last event of an analysis tells how many diagnostics were taken out, and together with those
that are left they are all that were found. -/
theorem exists_suppressed_add {found : Report} (h : e.registry.runAll? f = some found) :
    ∃ r suppressed, e.analyze? f = some r ∧
      r.events.getLast? = some (.analyzed f.name e.registry.size f.issues.length suppressed
        r.diagnostics.length) ∧
      suppressed + r.diagnostics.length = found.diagnostics.length + f.issues.length := by
  refine ⟨_, _, by rw [analyze?, h]; rfl, List.getLast?_concat, ?_⟩
  exact Nat.sub_add_cancel (e.length_diagnosticsUnder_le f _ _)

/-- A reference is turned off on a line exactly if one of the directives that were added is for the
line and either names no rule or names the reference. So the order of the additions does not count.
With more directives, an engine whose rules do not look at them gives a result exactly if it does
with fewer, and keeps some of the same diagnostics in the same order. Every configured engine is of
this kind. What is left and what was taken out always add up to what was found. -/
theorem directives_compose_as_union (xs : List Directive) :
    (∀ line refs, (xs.foldl Directives.add {}).isDisabled line refs = true ↔
        ∃ d ∈ xs, d.line = line ∧ (d.rules = [] ∧ refs ≠ [] ∨ ∃ ref ∈ refs, ref ∈ d.rules)) ∧
      (∀ ys, ys ~ xs → ∀ line refs, (ys.foldl Directives.add {}).isDisabled line refs =
        (xs.foldl Directives.add {}).isDisabled line refs) ∧
      (∀ e : Engine, e.registry.IgnoresDirectives → ∀ (f : SourceFile) (ys), xs ⊆ ys →
        Option.Rel (fun r r' : Report ↦ r.diagnostics <+ r'.diagnostics)
          (e.analyze? { f with directives := ys.foldl Directives.add {} })
          (e.analyze? { f with directives := xs.foldl Directives.add {} })) ∧
      (∀ c, (ofConfig c).registry.IgnoresDirectives) ∧
      ∀ (e : Engine) (f : SourceFile) (found : Report), e.registry.runAll? f = some found →
        ∃ r suppressed, e.analyze? f = some r ∧
          r.events.getLast? = some (.analyzed f.name e.registry.size f.issues.length suppressed
            r.diagnostics.length) ∧
          suppressed + r.diagnostics.length = found.diagnostics.length + f.issues.length := by
  refine ⟨fun line refs ↦ ?_, fun ys hperm line refs ↦ ?_, fun e hrules f ys hsubset ↦ ?_,
    ignoresDirectives_ofConfig, fun e f _ ↦ e.exists_suppressed_add f⟩
  · rw [Directives.isDisabled_of_empty, List.any_eq_true]
    simp only [Directive.covers_iff]
  · rw [Directives.isDisabled_of_empty, Directives.isDisabled_of_empty]
    exact hperm.any_eq
  · exact rel_analyze?_of_within hrules (Directives.within_of_subset hsubset) f

/-- A directive for all rules still counts after one for a single rule was added to its line, and
two for single rules do not make one for all. -/
theorem blanket_directive_outlasts_named :
    (List.foldl Directives.add {} [⟨1, []⟩, ⟨1, ["Q022"]⟩]).isDisabled 1 ["PARSE"] = true ∧
      (List.foldl Directives.add {} [⟨1, ["Q022"]⟩, ⟨1, ["Q023"]⟩]).isDisabled 1 ["PARSE"] = false ∧
      Option.Rel (fun r r' : Report ↦ r.diagnostics <+ r'.diagnostics)
        ((ofConfig {}).analyze? { SourceFile.ofText "a.ts" "foo && foo.bar;".toList with
          directives := List.foldl Directives.add {} [⟨2, []⟩, ⟨1, ["Q022"]⟩] })
        ((ofConfig {}).analyze? { SourceFile.ofText "a.ts" "foo && foo.bar;".toList with
          directives := List.foldl Directives.add {} [⟨2, []⟩] }) := by
  refine ⟨?_, ?_, ?_⟩
  · exact ((directives_compose_as_union _).1 1 ["PARSE"]).2
      ⟨⟨1, []⟩, List.mem_cons_self, rfl, .inl ⟨rfl, List.cons_ne_nil _ _⟩⟩
  · rw [Bool.eq_false_iff, Ne, (directives_compose_as_union _).1 1 ["PARSE"]]
    decide
  · exact (directives_compose_as_union [⟨2, []⟩]).2.2.1 (ofConfig {})
      ((directives_compose_as_union []).2.2.2.1 {}) _ _ (by simp)

end Engine

end OptionalChain
