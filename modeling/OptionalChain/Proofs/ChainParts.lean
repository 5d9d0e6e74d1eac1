import OptionalChain.Guard.Chain
import OptionalChain.Proofs.Marking
import Mathlib.Data.List.Chain
import Mathlib.Data.List.Forall2

/-!
# The parts of a chain

A chain takes a block of operands: for each of its guards the checks on the path of the guard,
then the last operand. Every guard leads strictly to the next one and the last guard to the path
of the last operand, and none of the guards is disqualified.
-/

namespace OptionalChain

/-! ## Paths that lead to others -/

namespace AccessPath

/-- What the steps of the path read. -/
def places (p : AccessPath) : List (StepKind × List Char) :=
  p.steps.map fun s ↦ (s.kind, s.key)

theorem map_place_hops (p : AccessPath) : p.hops.map Hop.place = p.places := by
  simp [hops, places, Step.hop, Hop.place, Function.comp_def]

@[simp]
theorem length_places (p : AccessPath) : p.places.length = p.length := by
  simp [places, length]

@[simp]
theorem length_hops (p : AccessPath) : p.hops.length = p.length := by
  simp [hops, length]

theorem all_agrees_iff (ss ts : List Step) (h : ss.length ≤ ts.length) :
    ((ss.zip ts).all fun (s, t) ↦ s.agrees t) = true ↔
      ss.map (fun s ↦ (s.kind, s.key)) <+: ts.map fun s ↦ (s.kind, s.key) := by
  induction ss generalizing ts with
  | nil => simp
  | cons s ss ih =>
    cases ts with
    | nil => simp at h
    | cons t ts =>
      have hlength : ss.length ≤ ts.length := by simpa using h
      have hagrees : s.agrees t = true ↔ (s.kind, s.key) = (t.kind, t.key) := by
        simp [Step.agrees]
      rw [List.zip_cons_cons, List.all_cons, Bool.and_eq_true, ih ts hlength, hagrees,
        List.map_cons, List.map_cons, List.cons_prefix_cons]

theorem leads_iff {p q : AccessPath} :
    p.leads q = true ↔ p.baseKey = q.baseKey ∧ p.places <+: q.places := by
  constructor
  · intro h
    simp only [leads, Bool.and_eq_true, beq_iff_eq, decide_eq_true_eq] at h
    obtain ⟨⟨hbase, hlength⟩, hall⟩ := h
    exact ⟨hbase, (all_agrees_iff _ _ hlength).1 hall⟩
  · rintro ⟨hbase, hleading⟩
    have hlength : p.length ≤ q.length := by simpa using hleading.length_le
    simp only [leads, Bool.and_eq_true, beq_iff_eq, decide_eq_true_eq]
    exact ⟨⟨hbase, hlength⟩, (all_agrees_iff _ _ hlength).2 hleading⟩

theorem leadsStrictly_iff {p q : AccessPath} :
    p.leadsStrictly q = true ↔
      p.length < q.length ∧ p.baseKey = q.baseKey ∧ p.places <+: q.places := by
  simp [leadsStrictly, leads_iff]

theorem sameAs_iff {p q : AccessPath} :
    p.sameAs q = true ↔ p.baseKey = q.baseKey ∧ p.places = q.places := by
  simp only [sameAs, Bool.and_eq_true, beq_iff_eq, leads_iff]
  constructor
  · rintro ⟨hlength, hbase, hleading⟩
    exact ⟨hbase, hleading.eq_of_length (by simpa using hlength)⟩
  · rintro ⟨hbase, hplaces⟩
    have hlength : p.length = q.length := by simpa using congrArg List.length hplaces
    exact ⟨hlength, hbase, hplaces ▸ List.prefix_rfl⟩

theorem leadsStrictly_trans {p q o : AccessPath} (h : p.leadsStrictly q = true)
    (h' : q.leadsStrictly o = true) : p.leadsStrictly o = true := by
  rw [leadsStrictly_iff] at *
  exact ⟨h.1.trans h'.1, h.2.1.trans h'.2.1, h.2.2.trans h'.2.2⟩

theorem pairwise_leadsStrictly {α : Type} (path : α → AccessPath) {xs : List α}
    (h : xs.IsChain fun x y ↦ (path x).leadsStrictly (path y) = true) :
    xs.Pairwise fun x y ↦ (path x).leadsStrictly (path y) = true :=
  haveI : Trans (fun x y : α ↦ (path x).leadsStrictly (path y) = true)
      (fun x y ↦ (path x).leadsStrictly (path y) = true)
      (fun x y ↦ (path x).leadsStrictly (path y) = true) :=
    ⟨leadsStrictly_trans⟩
  h.pairwise

end AccessPath

/-! ## Levels and their operands -/

/-- The operands make the checks of the level, one each, and the first of them is made on the
path of the level. -/
structure Level.Covers (l : Level) (block : List Operand) : Prop where
  checks : List.Forall₂
    (fun o k ↦ ∃ p : AccessPath, o.check? = some ⟨k, p⟩ ∧ p.sameAs l.path = true) block l.checks
  first : block.head? = some l.operand
  path : ∃ k, l.operand.check? = some ⟨k, l.path⟩

namespace ChainFinder

theorem covers_singleton {o : Operand} {check : Check} (h : o.check? = some check) (index : Nat) :
    Level.Covers ⟨check.path, o, index, [check.kind]⟩ [o] where
  checks := .cons ⟨check.path, h, by simp [AccessPath.sameAs_iff]⟩ .nil
  first := rfl
  path := ⟨check.kind, h⟩

theorem covers_concat {l : Level} {block : List Operand} {o : Operand} {check : Check}
    (hl : l.Covers block) (h : o.check? = some check) (hpath : check.path.sameAs l.path = true) :
    Level.Covers { l with checks := l.checks ++ [check.kind] } (block ++ [o]) where
  checks := List.rel_append hl.checks (.cons ⟨check.path, h, hpath⟩ .nil)
  first := by simp [List.head?_append, hl.first]
  path := hl.path

theorem head?_levelsFrom (current : Level) (index : Nat) (operands : List Operand) :
    ∃ l, (levelsFrom current index operands).head? = some l ∧ l.path = current.path ∧
      l.operand = current.operand ∧ l.index = current.index := by
  fun_induction levelsFrom current index operands with
  | case1 current => exact ⟨current, rfl, rfl, rfl, rfl⟩
  | case2 current index operand rest check hcheck hsame ih =>
    obtain ⟨l, hl, hpath, hoperand, hindex⟩ := ih
    exact ⟨l, hl, hpath, hoperand, hindex⟩
  | case3 current => exact ⟨current, rfl, rfl, rfl, rfl⟩
  | case4 current => exact ⟨current, rfl, rfl, rfl, rfl⟩
  | case5 current => exact ⟨current, rfl, rfl, rfl, rfl⟩

theorem lastLevel?_eq_some {current last : Level} {index : Nat} {o : Operand}
    (h : lastLevel? current index o = some last) :
    last.operand = o ∧ last.index = index ∧ current.path.leadsStrictly last.path = true := by
  obtain ⟨path, hpath, rfl⟩ := Option.map_eq_some_iff.1 h
  exact ⟨rfl, rfl, (Option.filter_eq_some_iff.1 hpath).2⟩

/-- Every level leads strictly to the next one. -/
theorem isChain_levelsFrom (current : Level) (index : Nat) (operands : List Operand) :
    (levelsFrom current index operands).IsChain fun l l' ↦
      l.path.leadsStrictly l'.path = true := by
  have hlast (current : Level) (index : Nat) (o : Operand) :
      (current :: (lastLevel? current index o).toList).IsChain fun l l' ↦
        l.path.leadsStrictly l'.path = true := by
    cases h : lastLevel? current index o with
    | none => exact .singleton current
    | some last => exact .cons_cons (lastLevel?_eq_some h).2.2 (.singleton last)
  fun_induction levelsFrom current index operands with
  | case1 current => exact .singleton current
  | case2 current index o rest check hcheck hsame ih => exact ih
  | case3 current index o rest check hcheck hsame hleads ih =>
    obtain ⟨l, hl, hpath, -⟩ :=
      head?_levelsFrom ⟨check.path, o, index, [check.kind]⟩ (index + 1) rest
    refine List.isChain_cons.2 ⟨fun l' hl' ↦ ?_, ih⟩
    rw [hl, Option.mem_some_iff] at hl'
    rw [← hl', hpath]
    exact hleads
  | case4 current index o rest check hcheck hsame hleads => exact hlast current index o
  | case5 current index o rest hcheck => exact hlast current index o

/-- A level without checks can only stand right after the level before it. -/
theorem exists_blocks_lastLevel? {current last : Level} {index : Nat} {o : Operand} {t : Nat}
    (rest : List Operand) (block : List Operand) (hcovers : current.Covers block)
    (hindex : index = current.index + block.length)
    (hlast : (current :: (lastLevel? current index o).toList)[t + 1]? = some last) :
    ∃ blocks after,
      List.Forall₂ Level.Covers
          ((current :: (lastLevel? current index o).toList).take (t + 1)) blocks ∧
        block ++ o :: rest = blocks.flatten ++ last.operand :: after ∧
        last.index = current.index + blocks.flatten.length := by
  rw [List.getElem?_cons_succ] at hlast
  cases h : lastLevel? current index o with
  | none => simp [h] at hlast
  | some l =>
    cases t with
    | succ t => simp [h] at hlast
    | zero =>
      obtain rfl : l = last := by simpa [h] using hlast
      obtain ⟨hoperand, hplace, -⟩ := lastLevel?_eq_some h
      refine ⟨[block], rest, .cons hcovers .nil, by simp [hoperand], ?_⟩
      simp [hplace, hindex]

/-- The levels before a level take all operands before it, block after block. -/
theorem exists_blocks {current last : Level} {index : Nat} {operands : List Operand} {t : Nat}
    (block : List Operand) (hcovers : current.Covers block)
    (hindex : index = current.index + block.length)
    (hlast : (levelsFrom current index operands)[t + 1]? = some last) :
    ∃ blocks after,
      List.Forall₂ Level.Covers ((levelsFrom current index operands).take (t + 1)) blocks ∧
        block ++ operands = blocks.flatten ++ last.operand :: after ∧
        last.index = current.index + blocks.flatten.length := by
  fun_induction levelsFrom current index operands generalizing t block with
  | case1 current => simp at hlast
  | case2 current index o rest check hcheck hsame ih =>
    obtain ⟨blocks, after, hblocks, hsplit, hplace⟩ :=
      ih (block ++ [o]) (covers_concat hcovers hcheck hsame) (by simp [hindex]; omega) hlast
    exact ⟨blocks, after, hblocks, by simpa using hsplit, hplace⟩
  | case3 current index o rest check hcheck hsame hleads ih =>
    rw [List.getElem?_cons_succ] at hlast
    cases t with
    | zero =>
      obtain ⟨l, hl, -, hoperand, hplace⟩ :=
        head?_levelsFrom ⟨check.path, o, index, [check.kind]⟩ (index + 1) rest
      rw [← List.head?_eq_getElem?, hl] at hlast
      cases hlast
      refine ⟨[block], rest, .cons hcovers .nil, by simp [hoperand], ?_⟩
      simp [hplace, hindex]
    | succ t =>
      obtain ⟨blocks, after, hblocks, hsplit, hplace⟩ :=
        ih [o] (covers_singleton hcheck index) rfl hlast
      refine ⟨block :: blocks, after, .cons hcovers hblocks, ?_, ?_⟩
      · simpa using congrArg (block ++ ·) hsplit
      · simp [hplace, hindex]
        omega
  | case4 current index o rest check hcheck hsame hleads =>
    exact exists_blocks_lastLevel? rest block hcovers hindex hlast
  | case5 current index o rest hcheck =>
    exact exists_blocks_lastLevel? rest block hcovers hindex hlast

variable {c : ChainFinder}

theorem terminalAt?_eq_some {levels : List Level} {t : Nat} {last : Level} {path : AccessPath}
    (h : terminalAt? levels t = some (last, path)) :
    ∃ before, levels[t]? = some before ∧ levels[t + 1]? = some last ∧
      last.operand.terminal? = some path ∧ before.path.leadsStrictly path = true := by
  obtain ⟨before, hbefore, h⟩ := Option.bind_eq_some_iff.1 h
  obtain ⟨last', hlast, h⟩ := Option.bind_eq_some_iff.1 h
  obtain ⟨path', hpath, h⟩ := Option.bind_eq_some_iff.1 h
  cases h
  obtain ⟨hterminal, hleads⟩ := Option.filter_eq_some_iff.1 hpath
  exact ⟨before, hbefore, hlast, hterminal, hleads⟩

theorem chainWithin_eq_some {levels : List Level} {first : Level} {n : Nat} {chain : Chain}
    (h : c.chainWithin levels first n = some chain) :
    ∃ t last path, t < n ∧ terminalAt? levels t = some (last, path) ∧ chain =
      { style := c.style
        guards := (levels.take (t + 1)).map (·.path)
        terminal := last.operand.node
        terminalPath := path
        operands := last.index + 1 - first.index
        span := first.operand.node.span.upTo last.operand.node.span
        verdict := ((levels.take (t + 1)).map c.verdict).foldl .max .safe } := by
  induction n with
  | zero => cases h
  | succ n ih =>
    rw [chainWithin] at h
    split at h
    · rename_i last path hterminal
      cases h
      exact ⟨n, last, path, Nat.lt_succ_self n, hterminal, rfl⟩
    · obtain ⟨t, last, path, ht, hterminal, hchain⟩ := ih h
      exact ⟨t, last, path, Nat.lt_succ_of_lt ht, hterminal, hchain⟩

/-- Levels before the deepest one are not disqualified. -/
theorem verdict_ne_disqualified {levels : List Level} {t : Nat} (ht : t < c.deepest levels) :
    ∀ l ∈ levels.take (t + 1), c.verdict l ≠ .disqualified := by
  intro l hl
  obtain ⟨i, hi, rfl⟩ := List.mem_take_iff_getElem.1 hl
  have hfind : i < levels.findIdx fun l ↦ c.verdict l == .disqualified := by
    unfold deepest at ht
    omega
  simpa using List.not_of_lt_findIdx hfind

/-! ## Chains of a run -/

variable (c)

/-- The chain that starts at an operand of a run. -/
def chainAt? (operands : List Node) (start : Nat) : Option Chain :=
  match (operands.drop start).map c.operand with
  | [] => none
  | operand :: rest => c.settle (levelsAt start operand rest)

/-- What a chain is made of, given the operands from its start on. -/
structure Parts (operands : List Node) (chain : Chain) where
  levels : List Level
  blocks : List (List Operand)
  after : List Node
  nonempty : levels ≠ []
  covers : List.Forall₂ Level.Covers levels blocks
  made : ∀ o ∈ blocks.flatten, o = c.operand o.node
  split : operands = blocks.flatten.map (·.node) ++ chain.terminal :: after
  style_eq : chain.style = c.style
  guards_eq : chain.guards = levels.map (·.path)
  operands_eq : chain.operands = blocks.flatten.length + 1
  verdict_eq : chain.verdict = (levels.map c.verdict).foldl .max .safe
  qualified : ∀ l ∈ levels, c.verdict l ≠ .disqualified
  terminal_eq : terminalPath? c.file c.style chain.terminal = some chain.terminalPath
  leads : (chain.guards ++ [chain.terminalPath]).IsChain fun p q ↦ p.leadsStrictly q = true

variable {c} {operands : List Node} {chain : Chain}

theorem exists_settle_of_mem_searchFrom {skip index : Nat} {os : List Operand} {a : Attempt}
    (h : a ∈ c.searchFrom skip index os) (hchain : a.chain? = some chain) :
    ∃ k o rest, os.drop k = o :: rest ∧ c.settle (levelsAt (index + k) o rest) = some chain := by
  fun_induction c.searchFrom skip index os with
  | case1 => simp at h
  | case2 index o rest skip ih =>
    obtain ⟨k, o', rest', hdrop, hsettle⟩ := ih h
    rw [Nat.add_right_comm] at hsettle
    exact ⟨k + 1, o', rest', hdrop, hsettle⟩
  | case3 index o rest levels chain? skip ih =>
    obtain rfl | htail := List.mem_cons.1 h
    · exact ⟨0, o, rest, rfl, hchain⟩
    · obtain ⟨k, o', rest', hdrop, hsettle⟩ := ih htail
      rw [Nat.add_right_comm] at hsettle
      exact ⟨k + 1, o', rest', hdrop, hsettle⟩

theorem exists_chainAt? (h : chain ∈ c.find operands) :
    ∃ start, c.chainAt? operands start = some chain := by
  obtain ⟨a, ha, hchain⟩ := List.mem_filterMap.1 h
  obtain ⟨k, o, rest, hdrop, hsettle⟩ := exists_settle_of_mem_searchFrom ha hchain
  refine ⟨k, ?_⟩
  rw [chainAt?, List.map_drop, hdrop]
  simpa using hsettle

theorem eq_operand_node {o : Operand} {nodes : List Node} (h : o ∈ nodes.map c.operand) :
    o = c.operand o.node := by
  obtain ⟨n, -, rfl⟩ := List.mem_map.1 h
  rfl

theorem isChain_guards {levels : List Level} {t : Nat} {before : Level} {path : AccessPath}
    (hlevels : levels.IsChain fun l l' ↦ l.path.leadsStrictly l'.path = true)
    (hbefore : levels[t]? = some before) (hleads : before.path.leadsStrictly path = true) :
    ((levels.take (t + 1)).map (·.path) ++ [path]).IsChain
      fun p q ↦ p.leadsStrictly q = true := by
  have hguards : ((levels.take (t + 1)).map (·.path)).IsChain
      fun p q ↦ p.leadsStrictly q = true := (List.isChain_map _).2 (hlevels.take _)
  refine hguards.append (.singleton path) fun p hp q hq ↦ ?_
  have hlast : (levels.take (t + 1)).getLast? = some before := by
    rw [List.take_add_one, hbefore]
    simp
  rw [List.getLast?_map, hlast] at hp
  cases hp
  cases hq
  exact hleads

/-- A chain is made of guard levels with their blocks of operands and a last operand. -/
theorem exists_parts {start : Nat} (h : c.chainAt? operands start = some chain) :
    Nonempty (c.Parts (operands.drop start) chain) := by
  unfold chainAt? at h
  split at h
  · cases h
  · rename_i o rest hoperands
    cases hcheck : o.check? with
    | none => simp [levelsAt, hcheck, settle] at h
    | some check =>
      have hlevels : levelsAt start o rest =
          levelsFrom ⟨check.path, o, start, [check.kind]⟩ (start + 1) rest := by
        simp [levelsAt, hcheck]
      rw [hlevels] at h
      obtain ⟨first, hfirst, h⟩ := Option.bind_eq_some_iff.1 h
      obtain ⟨t, last, path, ht, hterminal, rfl⟩ := chainWithin_eq_some h
      obtain ⟨before, hbefore, hlast, hpath, hleads⟩ := terminalAt?_eq_some hterminal
      obtain ⟨l, hl, -, -, hindex⟩ :=
        head?_levelsFrom ⟨check.path, o, start, [check.kind]⟩ (start + 1) rest
      obtain rfl : l = first := by rw [hl] at hfirst; exact Option.some.inj hfirst
      obtain ⟨blocks, after, hblocks, hsplit, hplace⟩ :=
        exists_blocks [o] (covers_singleton hcheck start) rfl hlast
      have hrun : (operands.drop start).map c.operand =
          blocks.flatten ++ last.operand :: after := hoperands.trans hsplit
      have hmade (o' : Operand) (ho' : o' ∈ blocks.flatten ++ last.operand :: after) :
          o' = c.operand o'.node := eq_operand_node (hrun ▸ ho')
      refine ⟨{
        levels := (levelsFrom ⟨check.path, o, start, [check.kind]⟩ (start + 1) rest).take (t + 1)
        blocks := blocks
        after := after.map (·.node)
        nonempty := ?_
        covers := hblocks
        made := fun o' ho' ↦ hmade o' (List.mem_append_left _ ho')
        split := ?_
        style_eq := rfl
        guards_eq := rfl
        operands_eq := ?_
        verdict_eq := rfl
        qualified := verdict_ne_disqualified ht
        terminal_eq := ?_
        leads := isChain_guards (isChain_levelsFrom _ _ _) hbefore hleads }⟩
      · intro hnil
        obtain hzero | hnil := List.take_eq_nil_iff.1 hnil
        · cases hzero
        · rw [hnil] at hl
          cases hl
      · have hnodes := congrArg (List.map (·.node)) hrun
        simpa [Function.comp_def, operand] using hnodes
      · simp only [hplace, hindex]
        omega
      · rw [hmade last.operand (by simp)] at hpath
        exact hpath

end ChainFinder

end OptionalChain
