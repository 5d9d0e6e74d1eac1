import OptionalChain.Proofs.LongestChains
import OptionalChain.Proofs.ShortCircuit

/-!
# The chains of a run in their places

The search goes through a run from left to right and goes on after the last operand of every chain
it finds. Each chain takes a block of operands, the blocks lie one after the other, and every
operand where a chain could start lies in one of them.
-/

namespace OptionalChain

/-- A chain with the number of the operand that it starts at. -/
structure PlacedChain where
  start : Nat
  chain : Chain

/-- The number of the last operand of the chain. -/
def PlacedChain.last (b : PlacedChain) : Nat :=
  b.start + b.chain.operands - 1

namespace ChainFinder

/-! ## The search with places -/

section

variable (c : ChainFinder)

/-- The chains of the operands from number `index` on. The first `skip` operands belong to a chain
already. -/
def placedFrom (skip index : Nat) : List Operand → List PlacedChain
  | [] => []
  | operand :: rest =>
    match skip with
    | skip + 1 => placedFrom skip (index + 1) rest
    | 0 =>
      match c.settle (levelsAt index operand rest) with
      | some chain => ⟨index, chain⟩ :: placedFrom (chain.operands - 1) (index + 1) rest
      | none => placedFrom 0 (index + 1) rest

/-- The chains of a run, each with its place. -/
def placed (operands : List Node) : List PlacedChain :=
  c.placedFrom 0 0 (operands.map c.operand)

theorem map_chain_placedFrom (skip index : Nat) (os : List Operand) :
    (c.placedFrom skip index os).map (·.chain) =
      (c.searchFrom skip index os).filterMap (·.chain?) := by
  fun_induction c.placedFrom skip index os with
  | case1 => rfl
  | case2 index o rest skip ih =>
    rw [searchFrom]
    exact ih
  | case3 index o rest chain hsettle ih =>
    simpa [searchFrom, hsettle] using ih
  | case4 index o rest hsettle ih =>
    simpa [searchFrom, hsettle] using ih

theorem map_chain_placed (operands : List Node) :
    (c.placed operands).map (·.chain) = c.find operands :=
  c.map_chain_placedFrom 0 0 (operands.map c.operand)

end

variable {c : ChainFinder} {operands : List Node}

theorem chainAt?_eq_settle {index : Nat} {o : Operand} {rest : List Operand}
    (h : (operands.drop index).map c.operand = o :: rest) :
    c.chainAt? operands index = c.settle (levelsAt index o rest) := by
  rw [chainAt?, h]

theorem map_drop_succ {index : Nat} {o : Operand} {rest : List Operand}
    (h : (operands.drop index).map c.operand = o :: rest) :
    (operands.drop (index + 1)).map c.operand = rest := by
  rw [← List.tail_drop, List.map_tail, h, List.tail_cons]

/-- What is found from an operand on starts after the operands to skip, where the search gives
it. -/
theorem chainAt?_of_mem_placedFrom {skip index : Nat} {os : List Operand} {b : PlacedChain}
    (hos : (operands.drop index).map c.operand = os) (hb : b ∈ c.placedFrom skip index os) :
    index + skip ≤ b.start ∧ c.chainAt? operands b.start = some b.chain := by
  fun_induction c.placedFrom skip index os with
  | case1 => cases hb
  | case2 index o rest skip ih =>
    obtain ⟨hstart, hchain⟩ := ih (map_drop_succ hos) hb
    exact ⟨by omega, hchain⟩
  | case3 index o rest chain hsettle ih =>
    obtain rfl | hb := List.mem_cons.1 hb
    · exact ⟨Nat.le_refl _, by rw [chainAt?_eq_settle hos, hsettle]⟩
    · obtain ⟨hstart, hchain⟩ := ih (map_drop_succ hos) hb
      exact ⟨by omega, hchain⟩
  | case4 index o rest hsettle ih =>
    obtain ⟨hstart, hchain⟩ := ih (map_drop_succ hos) hb
    exact ⟨by omega, hchain⟩

theorem pairwise_placedFrom {skip index : Nat} {os : List Operand}
    (hos : (operands.drop index).map c.operand = os) :
    (c.placedFrom skip index os).Pairwise fun b b' ↦ b.last < b'.start := by
  fun_induction c.placedFrom skip index os with
  | case1 => exact .nil
  | case2 index o rest skip ih => exact ih (map_drop_succ hos)
  | case3 index o rest chain hsettle ih =>
    refine List.pairwise_cons.2 ⟨fun b hb ↦ ?_, ih (map_drop_succ hos)⟩
    have hstart := (chainAt?_of_mem_placedFrom (map_drop_succ hos) hb).1
    dsimp only [PlacedChain.last]
    omega
  | case4 index o rest hsettle ih => exact ih (map_drop_succ hos)

/-- Where the search gives a chain, it is found or its first operand was taken before. -/
theorem exists_mem_placedFrom {skip index start : Nat} {os : List Operand} {chain : Chain}
    (hos : (operands.drop index).map c.operand = os) (hstart : index + skip ≤ start)
    (hchain : c.chainAt? operands start = some chain) :
    ∃ b ∈ c.placedFrom skip index os, b.start ≤ start ∧ start ≤ b.last := by
  fun_induction c.placedFrom skip index os with
  | case1 index =>
    have hdrop : operands.drop start = [] := by
      rw [List.map_eq_nil_iff, List.drop_eq_nil_iff] at hos
      exact List.drop_eq_nil_iff.2 (by omega)
    rw [chainAt?, hdrop] at hchain
    cases hchain
  | case2 index o rest skip ih => exact ih (map_drop_succ hos) (by omega)
  | case3 index o rest found hsettle ih =>
    by_cases hinside : start < index + found.operands
    · refine ⟨⟨index, found⟩, List.mem_cons_self, by simpa using hstart, ?_⟩
      dsimp only [PlacedChain.last]
      omega
    · obtain ⟨parts⟩ := exists_parts ((chainAt?_eq_settle hos).trans hsettle)
      have htwo := parts.two_le_operands
      obtain ⟨b, hb, hplace⟩ := ih (map_drop_succ hos) (by omega)
      exact ⟨b, List.mem_cons_of_mem _ hb, hplace⟩
  | case4 index o rest hsettle ih =>
    have hne : start ≠ index := by
      rintro rfl
      rw [chainAt?_eq_settle hos, hsettle] at hchain
      cases hchain
    exact ih (map_drop_succ hos) (by omega)

theorem chainAt?_of_mem_placed {b : PlacedChain} (h : b ∈ c.placed operands) :
    c.chainAt? operands b.start = some b.chain :=
  (chainAt?_of_mem_placedFrom (by rw [List.drop_zero]) h).2

/-- The longest chains are found. -/
theorem isGreatest_of_mem_placed {b : PlacedChain} (h : b ∈ c.placed operands) :
    IsGreatest {last | c.FormsChain operands b.start last} b.last :=
  isGreatest_of_chainAt? (chainAt?_of_mem_placed h)

/-- No chain is missed: its first operand lies in the block of a chain that is found. -/
theorem exists_mem_placed {start last : Nat} (h : c.FormsChain operands start last) :
    ∃ b ∈ c.placed operands, b.start ≤ start ∧ start ≤ b.last := by
  obtain ⟨chain, hchain, -⟩ := exists_chainAt?_of_formsChain h
  exact exists_mem_placedFrom (by rw [List.drop_zero]) (Nat.zero_le start) hchain

end ChainFinder

/-! ## Well-formed chains -/

namespace Verdict

theorem max_eq_or (v w : Verdict) : v.max w = v ∨ v.max w = w := by
  unfold Verdict.max
  split
  · exact .inr rfl
  · exact .inl rfl

theorem rank_le_max (v w : Verdict) : v.rank ≤ (v.max w).rank ∧ w.rank ≤ (v.max w).rank := by
  unfold Verdict.max
  split <;> omega

theorem foldl_max_mem (vs : List Verdict) (v : Verdict) : vs.foldl .max v ∈ v :: vs := by
  induction vs generalizing v with
  | nil => exact List.mem_singleton_self v
  | cons w vs ih =>
    obtain heq | hmem := List.mem_cons.1 (ih (v.max w))
    · rw [List.foldl_cons, heq]
      obtain hv | hw := max_eq_or v w
      · rw [hv]
        exact List.mem_cons_self
      · rw [hw]
        exact List.mem_cons_of_mem v List.mem_cons_self
    · exact List.mem_cons_of_mem v (List.mem_cons_of_mem w hmem)

theorem rank_le_foldl_max (vs : List Verdict) (v : Verdict) :
    ∀ u ∈ v :: vs, u.rank ≤ (vs.foldl .max v).rank := by
  induction vs generalizing v with
  | nil =>
    intro u hu
    rw [List.mem_singleton.1 hu, List.foldl_nil]
  | cons w vs ih =>
    obtain ⟨hmax, hrest⟩ := List.forall_mem_cons.1 (ih (v.max w))
    obtain ⟨hv, hw⟩ := rank_le_max v w
    rw [List.foldl_cons]
    exact List.forall_mem_cons.2 ⟨hv.trans hmax, List.forall_mem_cons.2 ⟨hw.trans hmax, hrest⟩⟩

/-- The worst of some verdicts is one of them. -/
theorem foldl_max_safe_mem {vs : List Verdict} (h : vs ≠ []) : vs.foldl .max .safe ∈ vs := by
  obtain heq | hmem := List.mem_cons.1 (foldl_max_mem vs .safe)
  · obtain ⟨v, ws, rfl⟩ := List.exists_cons_of_ne_nil h
    have hrank := rank_le_foldl_max (v :: ws) .safe v (List.mem_cons_of_mem _ List.mem_cons_self)
    rw [heq] at hrank ⊢
    cases v with
    | safe => exact List.mem_cons_self
    | risky => cases hrank
    | disqualified => cases hrank
  · exact hmem

end Verdict

namespace PlacedChain

/-- The checks of the operands before the last one. -/
def checks (b : PlacedChain) (c : ChainFinder) (operands : List Node) : List Check :=
  c.checks (operands.extract b.start b.last)

/-- The guards of the chain get deeper, down to the path of its last operand, and are the paths of
the checks before it. The verdict is the worst of those on the groups of these checks, and every
guard ends at a step of the path. -/
structure WellFormed (b : PlacedChain) (c : ChainFinder) (operands : List Node) : Prop where
  guarded : b.chain.guards ≠ []
  deepens : (b.chain.guards ++ [b.chain.terminalPath]).IsChain fun p q ↦ p.leadsStrictly q = true
  qualified : b.chain.verdict ≠ .disqualified
  attained : ∃ g ∈ b.chain.guards,
    c.groupVerdict (Check.group (b.checks c operands) g) = b.chain.verdict
  worst : ∀ g ∈ b.chain.guards,
    (c.groupVerdict (Check.group (b.checks c operands) g)).rank ≤ b.chain.verdict.rank
  two_le : 2 ≤ b.chain.operands
  made : ∀ n ∈ operands.extract b.start b.last, ∃ k, Check.of? c.file n = some k ∧
    k.kind.continues c.style = true ∧ ∃ g ∈ b.chain.guards, k.path.sameAs g = true
  first : ∀ g ∈ b.chain.guards, ∃ k ks, Check.group (b.checks c operands) g = k :: ks ∧ k.path = g
  last : operands[b.last]? = some b.chain.terminal
  terminal : terminalPath? c.file c.style b.chain.terminal = some b.chain.terminalPath
  boundaries : b.chain.boundaries.length = b.chain.guards.length

end PlacedChain

namespace ChainFinder

variable {c : ChainFinder} {operands : List Node}

namespace Parts

variable {chain : Chain} (parts : c.Parts operands chain)

include parts

theorem length_boundaries : chain.boundaries.length = chain.guards.length := by
  rw [Chain.boundaries, List.filterMap_length_eq_length]
  intro g hg
  rw [isSome_getElem?]
  exact parts.length_guard_lt hg

/-- The verdicts on the guards are those on the groups of their checks. -/
theorem groupVerdict_guards :
    chain.guards.map (fun g ↦ c.groupVerdict
      (Check.group (c.checks (operands.take (chain.operands - 1))) g)) =
      parts.levels.map c.verdict := by
  rw [parts.guards_eq, List.map_map, parts.checks_eq]
  exact List.map_congr_left fun l hl ↦ groupVerdict_level parts.covers parts.pairwise_levels c hl

theorem exists_first {g : AccessPath} (hg : g ∈ chain.guards) :
    ∃ k ks, Check.group (c.checks (operands.take (chain.operands - 1))) g = k :: ks ∧
      k.path = g := by
  rw [parts.guards_eq] at hg
  obtain ⟨l, hl, rfl⟩ := List.mem_map.1 hg
  obtain ⟨block, hblock, hgroup⟩ := exists_group_eq parts.covers parts.pairwise_levels hl
  rw [parts.checks_eq, hgroup]
  exact hblock.exists_checksOf_eq_cons

end Parts

/-- A chain that the search gives is well-formed. -/
theorem wellFormed_of_chainAt? {b : PlacedChain}
    (h : c.chainAt? operands b.start = some b.chain) : b.WellFormed c operands := by
  obtain ⟨parts⟩ := exists_parts h
  have hforms : c.FormsChain operands b.start b.last := formsChain_of_chainAt? h
  have hchecks : b.checks c operands =
      c.checks ((operands.drop b.start).take (b.chain.operands - 1)) :=
    congrArg _ (extract_eq_take operands b.start b.chain.operands)
  have hguarded : b.chain.guards ≠ [] := by
    rw [parts.guards_eq, ne_eq, List.map_eq_nil_iff]
    exact parts.nonempty
  have hverdicts : b.chain.guards.map
      (fun g ↦ c.groupVerdict (Check.group (b.checks c operands) g)) =
        parts.levels.map c.verdict := by
    rw [hchecks]
    exact parts.groupVerdict_guards
  have hmem : b.chain.verdict ∈ parts.levels.map c.verdict := by
    rw [parts.verdict_eq]
    apply Verdict.foldl_max_safe_mem
    rw [ne_eq, List.map_eq_nil_iff]
    exact parts.nonempty
  constructor
  case guarded => exact hguarded
  case deepens => exact parts.leads
  case qualified =>
    obtain ⟨l, hl, hverdict⟩ := List.mem_map.1 hmem
    rw [← hverdict]
    exact parts.qualified l hl
  case attained =>
    rw [← hverdicts] at hmem
    exact List.mem_map.1 hmem
  case worst =>
    intro g hg
    rw [parts.verdict_eq, ← hverdicts]
    exact Verdict.rank_le_foldl_max _ _ _ (List.mem_cons_of_mem _ (List.mem_map_of_mem hg))
  case two_le => exact parts.two_le_operands
  case made =>
    intro n hn
    obtain ⟨k, hk⟩ := Option.isSome_iff_exists.1 (hforms.made n hn)
    obtain ⟨hof, hcontinues⟩ := Option.filter_eq_some_iff.1 hk
    have hmem : k ∈ b.checks c operands :=
      List.mem_filterMap.2 ⟨c.operand n, List.mem_map_of_mem hn, hk⟩
    rw [hchecks] at hmem
    exact ⟨k, hof, hcontinues, parts.exists_guard_of_mem hmem⟩
  case first =>
    rw [hchecks]
    exact fun g hg ↦ parts.exists_first hg
  case last => exact getElem?_of_chainAt? h
  case terminal => exact parts.terminal_eq
  case boundaries => exact parts.length_boundaries

/-- The chains that are found lie one after the other, and each of them is well-formed. -/
theorem found_chains_wellFormed (c : ChainFinder) (operands : List Node) :
    (c.placed operands).map (·.chain) = c.find operands ∧
      ((c.placed operands).Pairwise fun b b' ↦ b.last < b'.start) ∧
      ∀ b ∈ c.placed operands, b.WellFormed c operands :=
  ⟨c.map_chain_placed operands, pairwise_placedFrom (by rw [List.drop_zero]),
    fun _ hb ↦ wellFormed_of_chainAt? (chainAt?_of_mem_placed hb)⟩

def separateChains : ChainFinder :=
  inText .and "a && a && a.b && a.b.c && d && d.e;"

def separateChain : PlacedChain :=
  (separateChains.placed separateChains.firstRun).head (by decide +kernel)

/-- The chain takes two checks on one path, and the search goes on after its last operand. -/
theorem separate_chain_wellFormed :
    separateChain ∈ separateChains.placed separateChains.firstRun ∧
      (separateChains.placed separateChains.firstRun).map (fun b ↦ (b.start, b.last)) =
        [(0, 3), (4, 5)] ∧
      separateChain.chain.guards.map (·.render) = ["a".toList, "a.b".toList] ∧
      separateChain.WellFormed separateChains separateChains.firstRun := by
  have hmem : separateChain ∈ separateChains.placed separateChains.firstRun := List.head_mem _
  obtain ⟨hblocks, hguards⟩ :
      (separateChains.placed separateChains.firstRun).map (fun b ↦ (b.start, b.last)) =
        [(0, 3), (4, 5)] ∧
      separateChain.chain.guards.map (·.render) = ["a".toList, "a.b".toList] := by decide +kernel
  refine ⟨hmem, hblocks, hguards, ?_⟩
  exact (found_chains_wellFormed separateChains separateChains.firstRun).2.2 separateChain hmem

/-! ## Longest chains -/

/-- A chain that is found ends where the longest chain from its first operand on does, and wherever
operands form a chain, the first of them belongs to a chain that is found. -/
theorem found_chains_are_longest (c : ChainFinder) (operands : List Node) :
    (c.placed operands).map (·.chain) = c.find operands ∧
      (∀ b ∈ c.placed operands,
        IsGreatest {last | c.FormsChain operands b.start last} b.last) ∧
      ∀ start last, c.FormsChain operands start last →
        ∃ b ∈ c.placed operands, b.start ≤ start ∧ start ≤ b.last :=
  ⟨c.map_chain_placed operands, fun _ hb ↦ isGreatest_of_mem_placed hb,
    fun _ _ h ↦ exists_mem_placed h⟩

/-- Checks for truthiness are disqualified here, since no type tells that a value may be nullish. -/
def disqualifiedGuard : ChainFinder :=
  { inText .and "a != null && a.b && a.b.c && a.b.c != null && a.b.c.d;" with
    options := { requireNullish := true } }

def shortenedChain : PlacedChain :=
  (disqualifiedGuard.placed disqualifiedGuard.firstRun).head (by decide +kernel)

/-- The chain ends before the checks that are disqualified, and the second check on their path
starts a chain of its own. -/
theorem disqualified_guard_shortens_chain :
    shortenedChain ∈ disqualifiedGuard.placed disqualifiedGuard.firstRun ∧
      (shortenedChain.start, shortenedChain.last) = (0, 1) ∧
      IsGreatest {last | disqualifiedGuard.FormsChain disqualifiedGuard.firstRun
        shortenedChain.start last} shortenedChain.last ∧
      disqualifiedGuard.FormsChain disqualifiedGuard.firstRun 3 4 ∧
      ∃ b ∈ disqualifiedGuard.placed disqualifiedGuard.firstRun, b.start ≤ 3 ∧ 3 ≤ b.last := by
  have hmem : shortenedChain ∈ disqualifiedGuard.placed disqualifiedGuard.firstRun :=
    List.head_mem _
  obtain ⟨hplace, hforms⟩ : (shortenedChain.start, shortenedChain.last) = (0, 1) ∧
      disqualifiedGuard.FormsChain disqualifiedGuard.firstRun 3 4 := by decide +kernel
  obtain ⟨-, hgreatest, hcovered⟩ :=
    found_chains_are_longest disqualifiedGuard disqualifiedGuard.firstRun
  exact ⟨hmem, hplace, hgreatest shortenedChain hmem, hforms, hcovered 3 4 hforms⟩

end ChainFinder

end OptionalChain
