import OptionalChain.Proofs.StricterOptions

/-!
# Chains of comparisons

Options bear on bare tests for truthiness alone. The last level of a search never becomes a guard,
whatever the verdict on it, and an operand that comes last in a run belongs to the last level of
every search that reaches it. So options make no difference to a run in which no operand but the
last may be such a test.
-/

namespace OptionalChain.ChainFinder

/-! ## The last level -/

section

variable {c c' : ChainFinder} {levels : List Level}

/-- The verdict on the last level does not count: it is where a chain ends at the latest. -/
theorem deepest_eq_findIdx (c : ChainFinder) (levels : List Level) :
    c.deepest levels = (levels.dropLast.map c.verdict).findIdx (· == .disqualified) := by
  rw [deepest, List.findIdx_map, List.dropLast_eq_take, List.findIdx_take, Nat.min_comm]
  rfl

variable (hstyle : c.style = c'.style) (h : ∀ l ∈ levels.dropLast, c.verdict l = c'.verdict l)

include h

theorem deepest_congr : c.deepest levels = c'.deepest levels := by
  rw [deepest_eq_findIdx, deepest_eq_findIdx, List.map_congr_left h]

theorem truncation?_congr : c.truncation? levels = c'.truncation? levels := by
  rw [truncation?, truncation?, deepest_congr h]

include hstyle

theorem chainWithin_congr (first : Level) {t : Nat} (ht : t < levels.length) :
    c.chainWithin levels first t = c'.chainWithin levels first t := by
  induction t with
  | zero => rfl
  | succ t ih =>
    have hverdicts :
        (levels.take (t + 1)).map c.verdict = (levels.take (t + 1)).map c'.verdict := by
      refine List.map_congr_left fun l hl ↦ h l ?_
      rw [List.dropLast_eq_take]
      exact List.take_subset_take_left _ (Nat.le_sub_one_of_lt ht) hl
    rw [chainWithin, chainWithin, ih (Nat.lt_of_succ_lt ht)]
    dsimp only
    rw [hverdicts, hstyle]

theorem settle_congr : c.settle levels = c'.settle levels := by
  unfold settle
  cases levels with
  | nil => rfl
  | cons first rest =>
    rw [← deepest_congr h]
    refine chainWithin_congr hstyle h first ?_
    unfold deepest
    rw [List.length_cons]
    omega

end

/-! ## Bare tests for truthiness -/

/-- No operand but perhaps the last makes a bare test for truthiness. -/
def ComparesBeforeLast (os : List Operand) : Prop :=
  ∀ o ∈ os.dropLast, ∀ k ∈ o.check?, k.kind.isTruthiness = false

namespace ComparesBeforeLast

variable {o : Operand} {os : List Operand} (h : ComparesBeforeLast (o :: os))

include h

theorem head (hos : os ≠ []) {k : Check} (hk : o.check? = some k) :
    k.kind.isTruthiness = false := by
  refine h o ?_ k hk
  rw [List.dropLast_cons_of_ne_nil hos]
  exact List.mem_cons_self

theorem tail : ComparesBeforeLast os := by
  cases os with
  | nil => exact List.forall_mem_nil _
  | cons o' os => exact fun o'' ho'' ↦ h o'' (List.mem_cons_of_mem o ho'')

end ComparesBeforeLast

/-- If only the last operand may test for truthiness, only the last level has such a check. -/
theorem isTruthiness_of_mem_levelsFrom {current : Level} {os : List Operand} (index : Nat)
    (hos : ComparesBeforeLast os)
    (hcurrent : os ≠ [] → ∀ kind ∈ current.checks, kind.isTruthiness = false) :
    ∀ l ∈ (levelsFrom current index os).dropLast, ∀ kind ∈ l.checks,
      kind.isTruthiness = false := by
  have hlast (current : Level) (index : Nat) (o : Operand)
      (hcurrent : ∀ kind ∈ current.checks, kind.isTruthiness = false) :
      ∀ l ∈ (current :: (lastLevel? current index o).toList).dropLast, ∀ kind ∈ l.checks,
        kind.isTruthiness = false := by
    cases lastLevel? current index o with
    | none => exact List.forall_mem_nil _
    | some last => exact List.forall_mem_singleton.2 hcurrent
  fun_induction levelsFrom current index os with
  | case1 current => exact List.forall_mem_nil _
  | case2 current index o rest k hcheck hsame ih =>
    refine ih hos.tail fun hrest ↦ List.forall_mem_append.2 ⟨?_, ?_⟩
    · exact hcurrent (List.cons_ne_nil o rest)
    · exact List.forall_mem_singleton.2 (hos.head hrest hcheck)
  | case3 current index o rest k hcheck hsame hleads ih =>
    obtain ⟨first, hfirst, -⟩ :=
      head?_levelsFrom ⟨k.path, o, index, [k.kind]⟩ (index + 1) rest
    rw [List.dropLast_cons_of_ne_nil (List.ne_nil_of_mem (List.mem_of_mem_head? hfirst))]
    refine List.forall_mem_cons.2 ⟨hcurrent (List.cons_ne_nil o rest), ih hos.tail fun hrest ↦ ?_⟩
    exact List.forall_mem_singleton.2 (hos.head hrest hcheck)
  | case4 current index o rest k hcheck hsame hleads =>
    exact hlast current index o (hcurrent (List.cons_ne_nil o rest))
  | case5 current index o rest hcheck =>
    exact hlast current index o (hcurrent (List.cons_ne_nil o rest))

theorem isTruthiness_of_mem_levelsAt {o : Operand} {os : List Operand} (index : Nat)
    (h : ComparesBeforeLast (o :: os)) :
    ∀ l ∈ (levelsAt index o os).dropLast, ∀ kind ∈ l.checks, kind.isTruthiness = false := by
  unfold levelsAt
  cases hcheck : o.check? with
  | none => exact List.forall_mem_nil _
  | some k =>
    exact isTruthiness_of_mem_levelsFrom _ h.tail fun hos ↦
      List.forall_mem_singleton.2 (h.head hos hcheck)

/-! ## Searches under different options -/

variable (c : ChainFinder)

/-- Options do not bear on a level without a bare test for truthiness. -/
theorem verdict_withOptions {l : Level} (h : ∀ kind ∈ l.checks, kind.isTruthiness = false)
    (o o' : ChainOptions) : (c.withOptions o).verdict l = (c.withOptions o').verdict l := by
  have hnone : (l.checks.any fun kind ↦ kind.isTruthiness) = false :=
    List.any_eq_false.2 fun kind hkind ↦ by simp [h kind hkind]
  unfold verdict judgeLevel
  rw [hnone]
  rfl

theorem searchFrom_withOptions {os : List Operand} (h : ComparesBeforeLast os) (skip index : Nat)
    (o o' : ChainOptions) :
    (c.withOptions o).searchFrom skip index os = (c.withOptions o').searchFrom skip index os := by
  induction os generalizing skip index with
  | nil => rfl
  | cons operand rest ih =>
    cases skip with
    | succ skip =>
      rw [searchFrom, searchFrom]
      exact ih h.tail skip (index + 1)
    | zero =>
      have hverdicts (l : Level) (hl : l ∈ (levelsAt index operand rest).dropLast) :
          (c.withOptions o).verdict l = (c.withOptions o').verdict l :=
        c.verdict_withOptions (isTruthiness_of_mem_levelsAt index h l hl) o o'
      have hstyle : (c.withOptions o).style = (c.withOptions o').style := rfl
      rw [searchFrom, searchFrom, truncation?_congr hverdicts, settle_congr hstyle hverdicts,
        ih h.tail]

/-- In a run where no operand but perhaps the last is a bare test for truthiness, all options give
the same chains with the same verdicts, and the same levels are given up. -/
theorem comparisons_ignore_options {operands : List Node}
    (h : ∀ n ∈ operands.dropLast, ∀ k ∈ Check.of? c.file n, k.kind.isTruthiness = false)
    (o o' : ChainOptions) :
    (c.withOptions o).find operands = (c.withOptions o').find operands ∧
      (c.withOptions o).truncations operands = (c.withOptions o').truncations operands := by
  have hcompares : ComparesBeforeLast (operands.map c.operand) := by
    unfold ComparesBeforeLast
    rw [← List.map_dropLast]
    exact List.forall_mem_map.2 fun n hn k hk ↦ h n hn k (Option.filter_eq_some_iff.1 hk).1
  have hsearch : (c.withOptions o).search operands = (c.withOptions o').search operands :=
    c.searchFrom_withOptions hcompares 0 0 o o'
  unfold find truncations
  rw [hsearch]
  exact ⟨rfl, rfl⟩

/-- Every value is a string, so that options may rule out bare tests. -/
def comparedStrings : ChainFinder :=
  { inText .and "a != null && a.b != null && a.b;" with oracle := fun _ ↦ ⟨[.primitive .string]⟩ }

def strictestOptions : ChainOptions :=
  { requireNullish := true, checkString := false }

/-- The last operand repeats the check on `a.b` as a bare test. Only the strict options disqualify
the level of both, and the chain ends in it all the same. -/
theorem compared_strings_ignore_options :
    (∀ n ∈ comparedStrings.firstRun.dropLast, ∀ k ∈ Check.of? comparedStrings.file n,
        k.kind.isTruthiness = false) ∧
      judgeLevel [.notNullish .loose, .truthy] ⟨[.primitive .string]⟩ {} = .risky ∧
      judgeLevel [.notNullish .loose, .truthy] ⟨[.primitive .string]⟩ strictestOptions =
        .disqualified ∧
      ((comparedStrings.withOptions {}).find comparedStrings.firstRun).map
        (fun x ↦ (x.terminalPath.render, x.verdict)) = [("a.b".toList, .safe)] ∧
      (comparedStrings.withOptions {}).find comparedStrings.firstRun =
        (comparedStrings.withOptions strictestOptions).find comparedStrings.firstRun := by
  have hcompares : ∀ n ∈ comparedStrings.firstRun.dropLast, ∀ k ∈ Check.of? comparedStrings.file n,
      k.kind.isTruthiness = false := by decide +kernel
  exact ⟨hcompares, by decide +kernel, by decide +kernel, by decide +kernel,
    (comparisons_ignore_options comparedStrings hcompares {} strictestOptions).1⟩

end OptionalChain.ChainFinder
