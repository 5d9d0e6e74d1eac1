import OptionalChain.Proofs.CheckGroups
import OptionalChain.Proofs.RewrittenChain
import Mathlib.Data.List.Flatten
import Mathlib.Order.Bounds.Defs
import Mathlib.Tactic.MkIffOfInductiveProp

/-!
# The longest chain at an operand

Which operands of a run form a chain is said without levels: checks that get deeper, of which no
group is disqualified, and a last operand on a path that is deeper still. The search at an operand
gives up levels from the first disqualified one on and then looks for a last operand backwards, and
it ends at the last operand of the longest chain that starts there.
-/

namespace OptionalChain

/-! ## Checks that can be last -/

namespace Check

variable {f : SourceFile} {k : Check} {p : AccessPath}

theorem path_eq_of_ofPath? {kind : CheckKind} {e : Node} (hcheck : ofPath? f kind e = some k)
    (hpath : AccessPath.of? f e = some p) : k.path = p := by
  rw [ofPath?, hpath, Option.map_some] at hcheck
  cases hcheck
  rfl

theorem path_eq_of_terminalOfEquality? {style : ChainStyle} {op : BinaryOp} {left right : Node}
    (hcheck : ofEquality? f op left right = some k)
    (hterminal : terminalOfEquality? f style op left right = some p) : k.path = p := by
  unfold ofEquality? at hcheck
  unfold terminalOfEquality? at hterminal
  cases hsplit : splitTypeof? left right with
  | some split =>
    simp only [hsplit] at hcheck hterminal
    split at hcheck
    · split at hterminal
      · exact path_eq_of_ofPath? hcheck hterminal
      · cases hterminal
    · cases hcheck
  | none =>
    simp only [hsplit] at hcheck hterminal
    obtain ⟨⟨e, d⟩, hcomparison, hterminal⟩ := Option.bind_eq_some_iff.1 hterminal
    rw [hcomparison, Option.bind_eq_bind, Option.bind_some] at hcheck
    obtain ⟨comparison, -, hcheck⟩ := Option.bind_eq_some_iff.1 hcheck
    dsimp only at hterminal
    split at hterminal
    · exact path_eq_of_ofPath? hcheck hterminal
    · cases hterminal

/-- An operand that makes a check and can be the last of a chain does both on one path. -/
theorem path_eq_of_terminalPath? {style : ChainStyle} {n : Node} (hcheck : of? f n = some k)
    (hterminal : terminalPath? f style n = some p) : k.path = p := by
  revert hcheck
  fun_cases of? f n with
  | case1 span e hn =>
    intro hcheck
    simp only [terminalPath?, hn] at hterminal
    split at hterminal
    · exact path_eq_of_ofPath? hcheck hterminal
    · cases hterminal
  | case2 op span left right hn hop =>
    intro hcheck
    simp only [terminalPath?, hn, hop, if_true] at hterminal
    exact path_eq_of_terminalOfEquality? hcheck hterminal
  | case3 op span left right hn hop =>
    intro hcheck
    -- An operator expression has no path.
    obtain ⟨q, hq, -⟩ := Option.map_eq_some_iff.1 hcheck
    have hkind := AccessPath.kind_of_spine (AccessPath.of?_eq_some hq).1
    simp [Node.kind, AccessPath.isBaseKind] at hkind
  | case4 hnot hbinary =>
    intro hcheck
    unfold terminalPath? at hterminal
    split at hterminal
    · rename_i hn
      exact absurd hn (hnot _ _)
    · rename_i hn
      exact absurd hn (hbinary _ _ _ _)
    · split at hterminal
      · exact path_eq_of_ofPath? hcheck hterminal
      · cases hterminal

end Check

namespace ChainFinder

/-! ## Operands that form a chain -/

variable (c : ChainFinder)

/-- The checks that the nodes make as operands. -/
def checks (nodes : List Node) : List Check :=
  checksOf (nodes.map c.operand)

/-- Operands number `start` to `last` of a run form a chain: those before the last one make checks
on paths that get deeper, no group of the checks is disqualified, and the last operand ends in a
path that is deeper still. -/
@[mk_iff]
structure FormsChain (operands : List Node) (start last : Nat) : Prop where
  lt : start < last
  made : ∀ n ∈ operands.extract start last, (c.operand n).check?.isSome = true
  deepens : (c.checks (operands.extract start last)).IsChain fun k k' ↦ k.path.leads k'.path = true
  qualified : c.Qualified (c.checks (operands.extract start last))
  ends : ∃ n ∈ operands[last]?, ∃ p ∈ terminalPath? c.file c.style n,
    ∃ k ∈ (c.checks (operands.extract start last)).getLast?, k.path.leadsStrictly p = true

instance (operands : List Node) (start last : Nat) :
    Decidable (c.FormsChain operands start last) :=
  decidable_of_iff _ (c.formsChain_iff operands start last).symm

variable {c}

/-! ## Levels of operands that form a chain -/

theorem terminalAt?_of_leadsStrictly {levels : List Level} {t : Nat} {before last : Level}
    {path : AccessPath} (hbefore : levels[t]? = some before) (hlast : levels[t + 1]? = some last)
    (hterminal : last.operand.terminal? = some path)
    (hleads : before.path.leadsStrictly path = true) :
    terminalAt? levels t = some (last, path) := by
  have hfilter : last.operand.terminal?.filter before.path.leadsStrictly = some path :=
    Option.filter_eq_some_iff.2 ⟨hterminal, hleads⟩
  simp only [terminalAt?, hbefore, hlast, hfilter, Option.bind_eq_bind, Option.bind_some,
    Option.pure_def]

/-- An operand that ends in a path deeper than the level gets the next level. -/
theorem terminalAt?_zero (current : Level) (index : Nat) {last : Operand} {p : AccessPath}
    (after : List Operand) (hterminal : last.terminal? = some p)
    (hagrees : ∀ k, last.check? = some k → k.path = p)
    (hleads : current.path.leadsStrictly p = true) :
    ∃ l, terminalAt? (levelsFrom current index (last :: after)) 0 = some (l, p) ∧
      l.index = index := by
  cases hcheck : last.check? with
  | some k =>
    obtain rfl := hagrees k hcheck
    have hnot : k.path.sameAs current.path = false := by
      rw [AccessPath.sameAs_comm]
      exact AccessPath.not_sameAs_of_leadsStrictly hleads
    have hlevels : levelsFrom current index (last :: after) =
        current :: levelsFrom ⟨k.path, last, index, [k.kind]⟩ (index + 1) after := by
      simp [levelsFrom, hcheck, hnot, hleads]
    obtain ⟨l, hl, -, hoperand, hindex⟩ :=
      head?_levelsFrom ⟨k.path, last, index, [k.kind]⟩ (index + 1) after
    rw [List.head?_eq_getElem?] at hl
    rw [hlevels]
    exact ⟨l, terminalAt?_of_leadsStrictly rfl hl (hoperand ▸ hterminal) hleads, hindex⟩
  | none =>
    have hlast : lastLevel? current index last = some ⟨p, last, index, []⟩ := by
      rw [lastLevel?, Option.filter_eq_some_iff.2 ⟨hterminal, hleads⟩, Option.map_some]
    have hlevels : levelsFrom current index (last :: after) = [current, ⟨p, last, index, []⟩] := by
      simp [levelsFrom, hcheck, hlast]
    rw [hlevels]
    exact ⟨_, terminalAt?_of_leadsStrictly rfl rfl hterminal hleads, rfl⟩

/-- A level for the last operand stands after the levels of checks that get deeper. -/
theorem exists_terminalAt? (current : Level) (index : Nat) {block : List Operand} {last : Operand}
    {p : AccessPath} (after : List Operand) (hmade : ∀ o ∈ block, o.check?.isSome = true)
    (hdeepens : (current.path :: (checksOf block).map (·.path)).Pairwise
      fun q q' ↦ q.leads q' = true)
    (hterminal : last.terminal? = some p) (hagrees : ∀ k, last.check? = some k → k.path = p)
    (hleads : ∀ q ∈ current.path :: (checksOf block).map (·.path), q.leadsStrictly p = true) :
    ∃ t l, terminalAt? (levelsFrom current index (block ++ last :: after)) t = some (l, p) ∧
      l.index = index + block.length := by
  induction block generalizing current index with
  | nil =>
    have hcurrent := hleads current.path List.mem_cons_self
    obtain ⟨l, hl, hindex⟩ := terminalAt?_zero current index after hterminal hagrees hcurrent
    exact ⟨0, l, hl, hindex⟩
  | cons o block ih =>
    obtain ⟨k, hcheck⟩ := Option.isSome_iff_exists.1 (hmade o List.mem_cons_self)
    have hchecks : checksOf (o :: block) = k :: checksOf block := List.filterMap_cons_some hcheck
    have hrest : ∀ o ∈ block, o.check?.isSome = true := fun o ho ↦
      hmade o (List.mem_cons_of_mem _ ho)
    rw [hchecks, List.map_cons] at hdeepens hleads
    have hdown : current.path.leads k.path = true :=
      (List.pairwise_cons.1 hdeepens).1 k.path List.mem_cons_self
    rw [List.cons_append, levelsFrom, hcheck, List.length_cons]
    dsimp only
    by_cases hsame : k.path.sameAs current.path = true
    · rw [if_pos hsame]
      -- The check joins the current level, whose path stays.
      have hsublist : (current.path :: (checksOf block).map (·.path)).Sublist
          (current.path :: k.path :: (checksOf block).map (·.path)) :=
        (List.sublist_cons_self _ _).cons_cons _
      obtain ⟨t, l, hl, hindex⟩ := ih { current with checks := current.checks ++ [k.kind] }
        (index + 1) hrest (hdeepens.sublist hsublist) fun q hq ↦ hleads q (hsublist.subset hq)
      exact ⟨t, l, hl, by omega⟩
    · have hstrict : current.path.leadsStrictly k.path = true := by
        obtain hsame' | hstrict := AccessPath.leads_iff_sameAs_or.1 hdown
        · rw [AccessPath.sameAs_comm] at hsame'
          exact absurd hsame' hsame
        · exact hstrict
      rw [if_neg hsame, if_pos hstrict]
      obtain ⟨t, l, hl, hindex⟩ := ih ⟨k.path, o, index, [k.kind]⟩ (index + 1) hrest
        (List.pairwise_cons.1 hdeepens).2 fun q hq ↦ hleads q (List.mem_cons_of_mem _ hq)
      exact ⟨t + 1, l, hl, by omega⟩

/-- Blocks take as many operands as their levels have checks. -/
theorem length_flatten_of_covers {levels : List Level} {blocks : List (List Operand)}
    (h : List.Forall₂ Level.Covers levels blocks) :
    blocks.flatten.length = (levels.flatMap (·.checks)).length := by
  induction h with
  | nil => rfl
  | cons hl _ ih =>
    rw [List.flatten_cons, List.length_append, ih, hl.checks.length_eq, List.flatMap_cons,
      List.length_append]

/-- Later levels start at later operands. -/
theorem index_le_of_levelsFrom {current l l' : Level} {index t t' : Nat}
    {block operands : List Operand} (hcovers : current.Covers block)
    (hindex : index = current.index + block.length) (htt' : t ≤ t')
    (hl : (levelsFrom current index operands)[t + 1]? = some l)
    (hl' : (levelsFrom current index operands)[t' + 1]? = some l') : l.index ≤ l'.index := by
  obtain ⟨blocks, -, hblocks, -, hplace⟩ := exists_blocks block hcovers hindex hl
  obtain ⟨blocks', -, hblocks', -, hplace'⟩ := exists_blocks block hcovers hindex hl'
  have hsublist : ((levelsFrom current index operands).take (t + 1)).Sublist
      ((levelsFrom current index operands).take (t' + 1)) :=
    List.take_sublist_take_left (Nat.succ_le_succ htt')
  rw [hplace, hplace', length_flatten_of_covers hblocks, length_flatten_of_covers hblocks']
  exact Nat.add_le_add_left (hsublist.flatMap (·.checks)).length_le _

theorem lt_deepest {levels : List Level} {t : Nat} {l : Level} (hl : levels[t + 1]? = some l)
    (hqualified : ∀ l ∈ levels.take (t + 1), c.verdict l ≠ .disqualified) :
    t < c.deepest levels := by
  obtain ⟨hlength, -⟩ := List.getElem?_eq_some_iff.1 hl
  have hfind : t + 1 ≤ levels.findIdx fun l ↦ c.verdict l == .disqualified :=
    List.le_findIdx_of_not hlength fun j hj ↦ by
      have hmem : levels[j] ∈ levels.take (t + 1) :=
        List.mem_take_iff_getElem.2 ⟨j, by omega, rfl⟩
      simpa using hqualified levels[j] hmem
  unfold deepest
  omega

/-- The levels before the one of an operand take the checks before it, and are qualified if these
are. -/
theorem verdict_ne_disqualified_of_qualified {current l : Level} {index t : Nat}
    {first block after : List Operand} {last : Operand} (hcovers : current.Covers first)
    (hindex : index = current.index + first.length)
    (hl : (levelsFrom current index (block ++ last :: after))[t + 1]? = some l)
    (hplace : l.index = index + block.length)
    (hqualified : c.Qualified (checksOf (first ++ block))) :
    ∀ l' ∈ (levelsFrom current index (block ++ last :: after)).take (t + 1),
      c.verdict l' ≠ .disqualified := by
  obtain ⟨blocks, after', hblocks, hsplit, hplace'⟩ := exists_blocks first hcovers hindex hl
  rw [← List.append_assoc] at hsplit
  have hflatten : first ++ block = blocks.flatten := by
    refine List.append_inj_left hsplit ?_
    rw [List.length_append]
    omega
  rw [hflatten] at hqualified
  refine (qualified_checksOf_iff hblocks ?_ c).1 hqualified
  exact AccessPath.pairwise_leadsStrictly _ ((isChain_levelsFrom _ _ _).take _)

/-- A chain ends no earlier than at a level that can be the last. -/
theorem exists_chainWithin {levels : List Level} (first : Level) {t n : Nat} {last : Level}
    {path : AccessPath} (ht : t < n) (h : terminalAt? levels t = some (last, path)) :
    ∃ chain t' last', c.chainWithin levels first n = some chain ∧ t ≤ t' ∧
      levels[t' + 1]? = some last' ∧ chain.operands = last'.index + 1 - first.index := by
  induction n with
  | zero => cases ht
  | succ n ih =>
    rw [chainWithin]
    cases hn : terminalAt? levels n with
    | some found =>
      obtain ⟨-, -, hlast, -⟩ := terminalAt?_eq_some hn
      exact ⟨_, n, found.1, rfl, Nat.le_of_lt_succ ht, hlast, rfl⟩
    | none =>
      have hne : t ≠ n := by
        rintro rfl
        rw [h] at hn
        cases hn
      exact ih (by omega)

/-! ## The chain that starts at an operand -/

variable {operands : List Node} {chain : Chain} {start : Nat}

namespace Parts

variable (parts : c.Parts operands chain)

include parts

theorem operands_sub_one :
    chain.operands - 1 = (parts.blocks.flatten.map (·.node)).length := by
  rw [parts.operands_eq, List.length_map, Nat.add_sub_cancel]

theorem take_eq : operands.take (chain.operands - 1) = parts.blocks.flatten.map (·.node) := by
  rw [parts.operands_sub_one]
  exact (congrArg (List.take _) parts.split).trans List.take_left

theorem getElem?_eq : operands[chain.operands - 1]? = some chain.terminal := by
  rw [parts.operands_sub_one]
  refine (congrArg (·[_]?) parts.split).trans ?_
  simp

theorem checks_eq :
    c.checks (operands.take (chain.operands - 1)) = checksOf parts.blocks.flatten := by
  have hmade : (parts.blocks.flatten.map (·.node)).map c.operand = parts.blocks.flatten := by
    rw [List.map_map]
    exact (List.map_congr_left fun o ho ↦ (parts.made o ho).symm).trans (List.map_id _)
  rw [checks, parts.take_eq, hmade]

theorem two_le_operands : 2 ≤ chain.operands := by
  obtain ⟨l, ls, hlevels⟩ := List.exists_cons_of_ne_nil parts.nonempty
  have hcovers := parts.covers
  rw [hlevels] at hcovers
  obtain ⟨block, blocks, hl, -, hblocks⟩ := List.forall₂_cons_left_iff.1 hcovers
  obtain ⟨rest, hblock⟩ := List.head?_eq_some_iff.1 hl.first
  rw [parts.operands_eq, hblocks, List.flatten_cons, List.length_append, hblock, List.length_cons]
  omega

theorem pairwise_levels :
    parts.levels.Pairwise fun l l' ↦ l.path.leadsStrictly l'.path = true := by
  have hguards := AccessPath.pairwise_leadsStrictly id parts.leads.left_of_append
  rw [parts.guards_eq] at hguards
  exact List.pairwise_map.1 hguards

/-- Every check of a chain is made on the path of one of its guards. -/
theorem exists_guard_of_mem {k : Check} (hk : k ∈ c.checks (operands.take (chain.operands - 1))) :
    ∃ g ∈ chain.guards, k.path.sameAs g = true := by
  rw [parts.checks_eq] at hk
  obtain ⟨l, hl, hsame⟩ := exists_level_of_mem parts.covers hk
  refine ⟨l.path, ?_, hsame⟩
  rw [parts.guards_eq]
  exact List.mem_map_of_mem hl

end Parts

theorem extract_eq_take (operands : List Node) (start n : Nat) :
    operands.extract start (start + n - 1) = (operands.drop start).take (n - 1) := by
  rw [List.extract_eq_take_drop]
  congr 1
  omega

theorem length_checks {nodes : List Node} (h : ∀ n ∈ nodes, (c.operand n).check?.isSome = true) :
    (c.checks nodes).length = nodes.length := by
  rw [checks, checksOf, List.filterMap_map, List.filterMap_length_eq_length]
  exact h

theorem getElem?_of_chainAt? (h : c.chainAt? operands start = some chain) :
    operands[start + chain.operands - 1]? = some chain.terminal := by
  obtain ⟨parts⟩ := exists_parts h
  have htwo := parts.two_le_operands
  rw [Nat.add_sub_assoc (by omega), ← List.getElem?_drop]
  exact parts.getElem?_eq

/-- A chain that the search gives is one. -/
theorem formsChain_of_chainAt? (h : c.chainAt? operands start = some chain) :
    c.FormsChain operands start (start + chain.operands - 1) := by
  obtain ⟨parts⟩ := exists_parts h
  have htwo := parts.two_le_operands
  have hextract := extract_eq_take operands start chain.operands
  have hmade : ∀ n ∈ (operands.drop start).take (chain.operands - 1),
      (c.operand n).check?.isSome = true := by
    intro n hn
    rw [parts.take_eq] at hn
    obtain ⟨o, ho, rfl⟩ := List.mem_map.1 hn
    rw [← parts.made o ho]
    exact check?_isSome_of_covers parts.covers ho
  constructor
  case lt => omega
  case made => rwa [hextract]
  case deepens =>
    rw [hextract, parts.checks_eq]
    exact (pairwise_checksOf parts.covers parts.pairwise_levels).isChain
  case qualified =>
    rw [hextract, parts.checks_eq, qualified_checksOf_iff parts.covers parts.pairwise_levels]
    exact parts.qualified
  case ends =>
    rw [hextract]
    have hne : c.checks ((operands.drop start).take (chain.operands - 1)) ≠ [] := by
      rw [← List.length_pos_iff, length_checks hmade, parts.take_eq, List.length_map]
      have hlength := parts.operands_eq
      omega
    have hmem := List.getLast_mem hne
    obtain ⟨g, hg, hsame⟩ := parts.exists_guard_of_mem hmem
    have hstrict := AccessPath.leadsStrictly_of_leads_of_leadsStrictly
      (AccessPath.leads_iff_sameAs_or.2 (.inl hsame)) (parts.leadsStrictly_terminalPath hg)
    exact ⟨chain.terminal, getElem?_of_chainAt? h, chain.terminalPath, parts.terminal_eq, _,
      List.getLast?_eq_some_getLast hne, hstrict⟩

namespace FormsChain

variable {last : Nat} (h : c.FormsChain operands start last)

include h

/-- All checks lead strictly to the path of the last operand. -/
theorem exists_terminal : ∃ n p, operands[last]? = some n ∧
    terminalPath? c.file c.style n = some p ∧
      ∀ k ∈ c.checks (operands.extract start last), k.path.leadsStrictly p = true := by
  obtain ⟨n, hn, p, hp, k, hk, hstrict⟩ := h.ends
  refine ⟨n, p, hn, hp, fun k' hk' ↦ ?_⟩
  obtain ⟨ks, hks⟩ := List.getLast?_eq_some_iff.1 hk
  have hpairwise := AccessPath.pairwise_leads _ h.deepens
  rw [hks] at hk' hpairwise
  obtain hk' | hk' := List.mem_append.1 hk'
  · have hleads := (List.pairwise_append.1 hpairwise).2.2 k' hk' k (List.mem_singleton_self k)
    exact AccessPath.leadsStrictly_of_leads_of_leadsStrictly hleads hstrict
  · rwa [List.mem_singleton.1 hk']

theorem drop_eq {n : Node} (hn : operands[last]? = some n) :
    operands.drop start = operands.extract start last ++ n :: operands.drop (last + 1) := by
  obtain ⟨hlast, rfl⟩ := List.getElem?_eq_some_iff.1 hn
  have hlt := h.lt
  have hdrop : (operands.drop start).drop (last - start) = operands.drop last := by
    rw [List.drop_drop]
    congr 1
    omega
  rw [← List.drop_eq_getElem_cons hlast, ← hdrop, List.extract_eq_take_drop, List.take_append_drop]

end FormsChain

/-- Operands whose checks get deeper and are qualified start a chain that is no shorter. -/
theorem exists_settle (start : Nat) {o last : Operand} {block : List Operand} {p : AccessPath}
    (after : List Operand) (hmade : ∀ o' ∈ o :: block, o'.check?.isSome = true)
    (hdeepens : (checksOf (o :: block)).Pairwise fun k k' ↦ k.path.leads k'.path = true)
    (hqualified : c.Qualified (checksOf (o :: block))) (hterminal : last.terminal? = some p)
    (hagrees : ∀ k, last.check? = some k → k.path = p)
    (hleads : ∀ k ∈ checksOf (o :: block), k.path.leadsStrictly p = true) :
    ∃ chain, c.settle (levelsAt start o (block ++ last :: after)) = some chain ∧
      block.length + 1 < chain.operands := by
  obtain ⟨k, hcheck⟩ := Option.isSome_iff_exists.1 (hmade o List.mem_cons_self)
  have hlevels : levelsAt start o (block ++ last :: after) =
      levelsFrom ⟨k.path, o, start, [k.kind]⟩ (start + 1) (block ++ last :: after) := by
    simp [levelsAt, hcheck]
  have hcons : (checksOf (o :: block)).map (·.path) = k.path :: (checksOf block).map (·.path) := by
    rw [checksOf, List.filterMap_cons_some hcheck]
    rfl
  have hpaths : ∀ q ∈ k.path :: (checksOf block).map (·.path), q.leadsStrictly p = true := by
    rw [← hcons]
    exact List.forall_mem_map.2 hleads
  rw [← List.pairwise_map (R := fun q q' : AccessPath ↦ q.leads q' = true), hcons] at hdeepens
  obtain ⟨t, l, hl, hindex⟩ := exists_terminalAt? ⟨k.path, o, start, [k.kind]⟩ (start + 1) after
    (fun o' ho' ↦ hmade o' (List.mem_cons_of_mem o ho')) hdeepens hterminal hagrees hpaths
  obtain ⟨-, -, hnext, -⟩ := terminalAt?_eq_some hl
  have hcovers := covers_singleton hcheck start
  have hdisqualified :=
    verdict_ne_disqualified_of_qualified hcovers rfl hnext hindex hqualified
  obtain ⟨first, hfirst, -, -, hstart⟩ :=
    head?_levelsFrom ⟨k.path, o, start, [k.kind]⟩ (start + 1) (block ++ last :: after)
  obtain ⟨chain, t', l', hchain, htt', hl', hoperands⟩ :=
    exists_chainWithin first (lt_deepest hnext hdisqualified) hl
  have hle := index_le_of_levelsFrom hcovers rfl htt' hnext hl'
  refine ⟨chain, ?_, ?_⟩
  · rw [hlevels, settle, hfirst, Option.bind_eq_bind, Option.bind_some, hchain]
  · rw [hoperands, hstart]
    dsimp only
    omega

/-- Where operands form a chain the search gives one that is no shorter. -/
theorem exists_chainAt?_of_formsChain {last : Nat} (h : c.FormsChain operands start last) :
    ∃ chain, c.chainAt? operands start = some chain ∧ last < start + chain.operands := by
  obtain ⟨n, p, hn, hp, hleads⟩ := h.exists_terminal
  have hrun := congrArg (List.map c.operand) (h.drop_eq hn)
  have hlength : (operands.extract start last).length = last - start := by
    have hlast := (List.getElem?_eq_some_iff.1 hn).1
    rw [List.extract_eq_take_drop, List.length_take, List.length_drop]
    omega
  have hlt := h.lt
  have hmade := h.made
  have hdeepens := AccessPath.pairwise_leads _ h.deepens
  have hqualified := h.qualified
  cases hblock : operands.extract start last with
  | nil =>
    rw [hblock, List.length_nil] at hlength
    omega
  | cons m ms =>
    rw [hblock] at hrun hlength hmade hdeepens hqualified hleads
    rw [List.length_cons] at hlength
    have hmade' : ∀ o ∈ (m :: ms).map c.operand, o.check?.isSome = true :=
      List.forall_mem_map.2 hmade
    have hagrees (k : Check) (hk : (c.operand n).check? = some k) : k.path = p :=
      Check.path_eq_of_terminalPath? (Option.filter_eq_some_iff.1 hk).1 hp
    obtain ⟨chain, hchain, hlonger⟩ := exists_settle start
      ((operands.drop (last + 1)).map c.operand) hmade' hdeepens hqualified hp hagrees hleads
    refine ⟨chain, ?_, ?_⟩
    · rw [chainAt?, hrun]
      simpa using hchain
    · rw [List.length_map] at hlonger
      omega

/-- The chain that the search gives at an operand is the longest one that starts there. -/
theorem isGreatest_of_chainAt? (h : c.chainAt? operands start = some chain) :
    IsGreatest {last | c.FormsChain operands start last} (start + chain.operands - 1) := by
  refine ⟨formsChain_of_chainAt? h, fun last hlast ↦ ?_⟩
  obtain ⟨chain', hchain', hlt⟩ := exists_chainAt?_of_formsChain hlast
  rw [h] at hchain'
  cases hchain'
  exact Nat.le_sub_one_of_lt hlt

end ChainFinder

end OptionalChain
