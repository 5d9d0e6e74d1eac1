import OptionalChain.Guard.Replacement
import OptionalChain.Proofs.GuardRuns

/-!
# Rewritten chains

A chain is rewritten by making the step optional where each of its guards ends. The rewritten
operand has the same path with these markers, and the replacement puts their text where they
stand. The markers that a guard is written with are not looked at.
-/

namespace OptionalChain

namespace AccessPath

/-- Whether a step of the path is written with `?.`. -/
def isOptionalAt (p : AccessPath) (i : Nat) : Bool :=
  p.steps[i]?.any (·.optional)

theorem lt_length_of_isOptionalAt {p : AccessPath} {i : Nat} (h : p.isOptionalAt i = true) :
    i < p.length := by
  by_contra hle
  rw [isOptionalAt, List.getElem?_eq_none (Nat.le_of_not_lt hle)] at h
  cases h

theorem isOptionalAt_eq_hops (p : AccessPath) (i : Nat) :
    p.isOptionalAt i = p.hops[i]?.any (·.optional) := by
  simp only [isOptionalAt, hops, List.getElem?_map]
  cases p.steps[i]? <;> rfl

end AccessPath

namespace Chain

/-- Whether a guard ends right before the step. -/
def isBoundary (c : Chain) (i : Nat) : Bool :=
  c.guards.any (·.length == i)

/-- The last operand with a marker where each guard ends. -/
def rewritten (c : Chain) (f : SourceFile) : Node :=
  c.terminal.markTerminal f c.isBoundary

/-- The path of the last operand with these markers, as an expression of its own. -/
def rewrittenPath (c : Chain) : Node :=
  c.terminalPath.target.mark c.isBoundary

def hops (c : Chain) : List Hop :=
  Hop.markAll c.isBoundary c.terminalPath.hops

/-- Every marker of a guard stands on the last operand too, or where a guard ends. -/
def KeepsMarkers (c : Chain) : Prop :=
  ∀ g ∈ c.guards, ∀ i, g.isOptionalAt i = true →
    c.terminalPath.isOptionalAt i = true ∨ c.isBoundary i = true

/-- A nullish value that a guard gets past also lets the rewritten path get to its end. -/
def Escapes (c : Chain) (r : Reading) : Prop :=
  ∀ g ∈ c.guards, ∀ j ≤ g.length, Hop.escapes r (g.hops.drop j) = true →
    Hop.escapes r (c.hops.drop j) = true

theorem isBoundary_iff {c : Chain} {i : Nat} :
    c.isBoundary i = true ↔ ∃ g ∈ c.guards, g.length = i := by
  simp [isBoundary]

instance (c : Chain) : Decidable c.KeepsMarkers :=
  decidable_of_iff (∀ g ∈ c.guards, ∀ i < g.length, g.isOptionalAt i = true →
      c.terminalPath.isOptionalAt i = true ∨ c.isBoundary i = true)
    ⟨fun h g hg i hi ↦ h g hg i (AccessPath.lt_length_of_isOptionalAt hi) hi,
      fun h g hg i _ hi ↦ h g hg i hi⟩

instance (c : Chain) (r : Reading) : Decidable (c.Escapes r) :=
  inferInstanceAs (Decidable (∀ g ∈ c.guards, ∀ j ≤ g.length, Hop.escapes r (g.hops.drop j) = true →
    Hop.escapes r (c.hops.drop j) = true))

theorem length_hops (c : Chain) : c.hops.length = c.terminalPath.length := by
  simp [hops]

end Chain

/-! ## The path of the rewritten operand -/

section

variable {f : SourceFile} {n : Node} {p : AccessPath}

theorem AccessPath.of?_of_spine {base : Node} {steps : List Step} (h : Spine f n base steps) :
    of? f n = if base.kind = .await ∧ steps = [] then none
      else some ⟨base, Access.compact (f.slice base.span), steps⟩ := by
  rw [of?, spine?_eq_some_iff.2 h, Option.bind_eq_bind, Option.bind_some]
  dsimp only
  split
  · rename_i hkind
    rw [if_pos ⟨hkind, rfl⟩]
  · rename_i hneither
    rw [if_neg fun hboth ↦ hneither hboth.1 hboth.2]

theorem AccessPath.of?_mark (m : Nat → Bool) (h : of? f n = some p) :
    ∃ q, of? f (n.mark m) = some q ∧ q.baseKey = p.baseKey ∧ q.hops = Hop.markAll m p.hops := by
  obtain ⟨hspine, hkey⟩ := of?_eq_some h
  obtain ⟨marked, hmarked, hhops⟩ := hspine.mark m
  have hnil : marked = [] ↔ p.steps = [] := by
    rw [← List.length_eq_zero_iff, ← List.length_eq_zero_iff]
    have hlength : marked.length = p.steps.length := by
      simpa using congrArg List.length hhops
    rw [hlength]
  have hbase : ¬(p.base.kind = .await ∧ p.steps = []) := by
    intro hawait
    rw [of?_of_spine hspine, if_pos hawait] at h
    cases h
  rw [← hnil] at hbase
  refine ⟨⟨p.base, p.baseKey, marked⟩, ?_, rfl, hhops⟩
  rw [of?_of_spine hmarked, if_neg hbase, hkey]

theorem AccessPath.of?_markTerminal (m : Nat → Bool) (h : of? f n = some p) :
    ∃ q, of? f (n.markTerminal f m) = some q ∧ q.baseKey = p.baseKey ∧
      q.hops = Hop.markAll m p.hops := by
  rw [Node.markTerminal_of_spine m (of?_eq_some h).1]
  exact of?_mark m h

theorem AccessPath.spine?_stripParens (f : SourceFile) (n : Node) :
    spine? f n.stripParens = spine? f n := by
  fun_induction Node.stripParens n with
  | case1 span e ih => rw [ih, spine?]
  | case2 => rfl

theorem AccessPath.of?_stripParens (f : SourceFile) (n : Node) : of? f n.stripParens = of? f n := by
  rw [of?, spine?_stripParens, of?]

/-- An expression with a path is no operator expression and no literal. -/
theorem AccessPath.kind_of_spine {base : Node} {steps : List Step} (h : Spine f n base steps) :
    n.kind = .paren ∨ n.kind = .nonNull ∨ (∃ optional, n.kind = .member optional) ∨
      (∃ optional, n.kind = .call optional) ∨ isBaseKind n.kind = true ∨ n.kind = .await := by
  cases h with
  | base h => exact .inr (.inr (.inr (.inr (isBaseKind_of_base? h))))
  | paren => exact .inl rfl
  | nonNull => exact .inr (.inl rfl)
  | member optional => exact .inr (.inr (.inl ⟨optional, rfl⟩))
  | call optional => exact .inr (.inr (.inr (.inl ⟨optional, rfl⟩)))

theorem AccessPath.kind_of_path (h : of? f n = some p) :
    n.stripParens.kind = .paren ∨ n.stripParens.kind = .nonNull ∨
      (∃ optional, n.stripParens.kind = .member optional) ∨
      (∃ optional, n.stripParens.kind = .call optional) ∨
      isBaseKind n.stripParens.kind = true ∨ n.stripParens.kind = .await := by
  rw [← of?_stripParens] at h
  exact kind_of_spine (of?_eq_some h).1

theorem terminalPath?_of_path (h : AccessPath.of? f n = some p) :
    terminalPath? f .and n = some p := by
  have hkind := AccessPath.kind_of_path h
  unfold terminalPath?
  split
  · simp [*, Node.kind, AccessPath.isBaseKind] at hkind
  · simp [*, Node.kind, AccessPath.isBaseKind] at hkind
  · simpa [AccessPath.of?_stripParens] using h

theorem typeofOperand?_of_path (h : AccessPath.of? f n = some p) : typeofOperand? n = none := by
  have hkind := AccessPath.kind_of_path h
  unfold typeofOperand?
  split
  · simp [*, Node.kind, AccessPath.isBaseKind] at hkind
  · rfl

theorem stringValue?_of_path (h : AccessPath.of? f n = some p) : stringValue? n = none := by
  have hkind := AccessPath.kind_of_path h
  unfold stringValue?
  split
  · simp [*, AccessPath.isBaseKind] at hkind
  · rfl

theorem typeofOperand?_of_string {text : String} (h : stringValue? n = some text) :
    typeofOperand? n = none := by
  unfold stringValue? at h
  unfold typeofOperand?
  split
  · rename_i hn
    simp [hn, Node.kind] at h
  · rfl

theorem splitTypeof?_left {left right e : Node} {text : String}
    (htypeof : typeofOperand? left = some e) (hstring : stringValue? right = some text) :
    splitTypeof? left right = some (e, text) := by
  simp [splitTypeof?, htypeof, hstring]

theorem splitTypeof?_right {left right e : Node} {text : String}
    (htypeof : typeofOperand? right = some e) (hstring : stringValue? left = some text) :
    splitTypeof? left right = some (e, text) := by
  simp [splitTypeof?, typeofOperand?_of_string hstring, htypeof, hstring]

/-- The side of an equality that holds the path keeps its part when it is marked. -/
theorem terminalOfEquality?_markTerminal {style : ChainStyle} {op : BinaryOp} {left right : Node}
    (m : Nat → Bool) (h : terminalOfEquality? f style op left right = some p) :
    ∃ q, (if Constant.ofNode left = .other then
        terminalOfEquality? f style op (left.markTerminal f m) right
      else terminalOfEquality? f style op left (right.markTerminal f m)) = some q ∧
      q.baseKey = p.baseKey ∧ q.hops = Hop.markAll m p.hops := by
  unfold terminalOfEquality? at h
  split at h
  · rename_i e text hsplit
    split at h
    · rename_i haccepts
      obtain ⟨q, hq, hrest⟩ := AccessPath.of?_markTerminal m h
      refine ⟨q, ?_, hrest⟩
      obtain ⟨htypeof, hstring⟩ | ⟨htypeof, hstring⟩ := splitTypeof?_eq_some hsplit
      · have hmarked := World.typeofOperand?_markTerminal (f := f) m htypeof
        rw [if_pos (Constant.ofNode_of_typeof htypeof), terminalOfEquality?,
          splitTypeof?_left hmarked hstring]
        simpa [haccepts] using hq
      · have hmarked := World.typeofOperand?_markTerminal (f := f) m htypeof
        have hleft : Constant.ofNode left ≠ .other := by simp [Constant.ofNode_of_string hstring]
        rw [if_neg hleft, terminalOfEquality?, splitTypeof?_right hmarked hstring]
        simpa [haccepts] using hq
    · cases h
  · rename_i hnone
    obtain ⟨⟨e, c⟩, hsplit, h⟩ := Option.bind_eq_some_iff.1 h
    dsimp only at h
    split at h
    · rename_i haccepts
      obtain ⟨q, hq, hrest⟩ := AccessPath.of?_markTerminal m h
      refine ⟨q, ?_, hrest⟩
      have htypeof := typeofOperand?_of_path hq
      have hstring := stringValue?_of_path hq
      have hmarked := World.ofNode_markTerminal h m
      obtain ⟨hc, ⟨rfl, hother, rfl⟩ | ⟨rfl, hother, rfl⟩⟩ := splitComparison?_eq_some hsplit
      · have hcomparison : splitComparison? (e.markTerminal f m) right =
            some (e.markTerminal f m, Constant.ofNode right) := by
          rw [splitComparison?, hmarked, hother]
          cases hright : Constant.ofNode right <;> simp_all
        rw [if_pos hother, terminalOfEquality?]
        simp [splitTypeof?, htypeof, hstring, hcomparison, haccepts, hq]
      · have hcomparison : splitComparison? left (e.markTerminal f m) =
            some (e.markTerminal f m, Constant.ofNode left) := by
          rw [splitComparison?, hmarked, hother]
          cases hleft : Constant.ofNode left <;> simp_all
        rw [if_neg hc, terminalOfEquality?]
        simp [splitTypeof?, htypeof, hstring, hcomparison, haccepts, hq]
    · cases h

theorem terminalOfRelation?_markTerminal {op : BinaryOp} {left right : Node}
    (m : Nat → Bool) (h : terminalOfRelation? f op left right = some p) :
    ∃ q, (if (AccessPath.of? f left).isSome then
        terminalOfRelation? f op (left.markTerminal f m) right
      else terminalOfRelation? f op left (right.markTerminal f m)) = some q ∧
      q.baseKey = p.baseKey ∧ q.hops = Hop.markAll m p.hops := by
  unfold terminalOfRelation? at h
  split at h
  · rename_i hleft
    cases h
    obtain ⟨q, hq, hrest⟩ := AccessPath.of?_markTerminal m hleft
    refine ⟨q, ?_, hrest⟩
    simp [hleft, terminalOfRelation?, hq]
  · rename_i hleft
    split at h
    · cases h
    · rename_i hop
      obtain ⟨q, hq, hrest⟩ := AccessPath.of?_markTerminal m h
      refine ⟨q, ?_, hrest⟩
      simpa [hleft, terminalOfRelation?, hop] using hq

theorem terminalPath?_binary (style : ChainStyle) (op : BinaryOp) (span : Span)
    (left right : Node) :
    terminalPath? f style (.binary op span left right) =
      if op.isEquality then terminalOfEquality? f style op left right
      else if style == .and && op.isRelational then terminalOfRelation? f op left right
      else if style == .and then AccessPath.of? f (.binary op span left right) else none := by
  simp [terminalPath?, Node.stripParens]

/-- The path of a marked last operand is the path with the markers. -/
theorem terminalPath?_markTerminal {style : ChainStyle} (m : Nat → Bool)
    (h : terminalPath? f style n = some p) :
    ∃ q, terminalPath? f style (n.markTerminal f m) = some q ∧ q.baseKey = p.baseKey ∧
      q.hops = Hop.markAll m p.hops := by
  have hstrip : terminalPath? f style (n.markTerminal f m) =
      terminalPath? f style (n.stripParens.markTerminal f m) := by
    rw [terminalPath?, terminalPath?, Node.stripParens_markTerminal]
  rw [hstrip]
  revert h
  fun_cases terminalPath? f style n with
  | case1 span e hn hstyle =>
    intro h
    obtain ⟨q, hq, hrest⟩ := AccessPath.of?_markTerminal m h
    refine ⟨q, ?_, hrest⟩
    rw [hn]
    simpa [Node.markTerminal, terminalPath?, Node.stripParens, hstyle] using hq
  | case2 => exact fun h ↦ by cases h
  | case3 op span left right hn hop =>
    intro h
    obtain ⟨q, hq, hrest⟩ := terminalOfEquality?_markTerminal m h
    refine ⟨q, ?_, hrest⟩
    rw [hn, Node.markTerminal, if_pos hop]
    split at hq
    · rename_i hother
      rw [if_pos hother, terminalPath?_binary, if_pos hop]
      exact hq
    · rename_i hconstant
      rw [if_neg hconstant, terminalPath?_binary, if_pos hop]
      exact hq
  | case4 op span left right hn hop hrelation =>
    intro h
    obtain ⟨q, hq, hrest⟩ := terminalOfRelation?_markTerminal m h
    refine ⟨q, ?_, hrest⟩
    have hrelational : op.isRelational = true := by simp_all
    rw [hn, Node.markTerminal, if_neg hop, if_pos hrelational]
    split at hq
    · rename_i hleft
      rw [if_pos hleft, terminalPath?_binary, if_neg hop, if_pos hrelation]
      exact hq
    · rename_i hleft
      rw [if_neg hleft, terminalPath?_binary, if_neg hop, if_pos hrelation]
      exact hq
  | case5 op span left right hn hop hrelation hstyle =>
    intro h
    -- An operator expression has no path.
    have hkind := AccessPath.kind_of_spine (AccessPath.of?_eq_some h).1
    simp [Node.kind, AccessPath.isBaseKind] at hkind
  | case6 => exact fun h ↦ by cases h
  | case7 hstyle =>
    intro h
    obtain rfl : style = .and := by simpa using hstyle
    obtain ⟨q, hq, hrest⟩ := AccessPath.of?_markTerminal m h
    exact ⟨q, terminalPath?_of_path hq, hrest⟩
  | case8 => exact fun h ↦ by cases h

end

/-! ## Chains that are found -/

theorem exists_of?_terminalPath {f : SourceFile} {style : ChainStyle} {n : Node} {p : AccessPath}
    (h : terminalPath? f style n = some p) : ∃ e, AccessPath.of? f e = some p := by
  revert h
  fun_cases terminalPath? f style n with
  | case1 span e => exact fun h ↦ ⟨e, h⟩
  | case2 => exact fun h ↦ by cases h
  | case3 op span left right =>
    intro h
    unfold terminalOfEquality? at h
    split at h
    · rename_i e text hsplit
      split at h
      · exact ⟨e, h⟩
      · cases h
    · obtain ⟨⟨e, c⟩, -, h⟩ := Option.bind_eq_some_iff.1 h
      dsimp only at h
      split at h
      · exact ⟨e, h⟩
      · cases h
  | case4 op span left right =>
    intro h
    unfold terminalOfRelation? at h
    split at h
    · rename_i hleft
      cases h
      exact ⟨left, hleft⟩
    · split at h
      · cases h
      · exact ⟨right, h⟩
  | case5 op span left right => exact fun h ↦ ⟨.binary op span left right, h⟩
  | case6 => exact fun h ↦ by cases h
  | case7 => exact fun h ↦ ⟨n.stripParens, h⟩
  | case8 => exact fun h ↦ by cases h

theorem ChainFinder.exists_of?_path {c : ChainFinder} {levels : List Level}
    {blocks : List (List Operand)} (hcovers : List.Forall₂ Level.Covers levels blocks)
    (hmade : ∀ o ∈ blocks.flatten, o = c.operand o.node) {l : Level} (hl : l ∈ levels) :
    ∃ e, AccessPath.of? c.file e = some l.path := by
  induction hcovers with
  | nil => cases hl
  | @cons l' block levels blocks hcovers hrest ih =>
    obtain rfl | htail := List.mem_cons.1 hl
    · obtain ⟨k, hk⟩ := hcovers.path
      obtain ⟨rest, rfl⟩ := List.head?_eq_some_iff.1 hcovers.first
      exact Check.exists_of?_path (c.check?_eq_some (hmade l.operand (by simp)) hk).1
    · refine ih (fun o ho ↦ hmade o ?_) htail
      rw [List.flatten_cons]
      exact List.mem_append_right block ho

namespace ChainFinder.Parts

variable {c : ChainFinder} {operands : List Node} {chain : Chain} (parts : c.Parts operands chain)

include parts

theorem leadsStrictly_terminalPath {g : AccessPath} (hg : g ∈ chain.guards) :
    g.leadsStrictly chain.terminalPath = true := by
  have hpairwise : (chain.guards ++ [chain.terminalPath]).Pairwise
      fun p q ↦ p.leadsStrictly q = true := AccessPath.pairwise_leadsStrictly id parts.leads
  exact (List.pairwise_append.1 hpairwise).2.2 g hg chain.terminalPath (by simp)

theorem exists_of?_guard {g : AccessPath} (hg : g ∈ chain.guards) :
    ∃ e, AccessPath.of? c.file e = some g := by
  rw [parts.guards_eq] at hg
  obtain ⟨l, hl, rfl⟩ := List.mem_map.1 hg
  exact exists_of?_path parts.covers parts.made hl

theorem length_guard_lt {g : AccessPath} (hg : g ∈ chain.guards) :
    g.length < chain.terminalPath.length :=
  (AccessPath.leadsStrictly_iff.1 (parts.leadsStrictly_terminalPath hg)).1

/-- The value of the rewritten path is that of the marked steps. -/
theorem access_rewrittenPath {σ : Type} (w : World σ) (r : Reading) (s : σ) :
    w.access c.file r chain.rewrittenPath s =
      (w.pathValue r s chain.terminalPath.baseKey chain.hops).map (·, s) := by
  obtain ⟨e, he⟩ := exists_of?_terminalPath parts.terminal_eq
  obtain ⟨hspine, hkey⟩ := AccessPath.of?_eq_some he
  obtain ⟨marked, hmarked, hhops⟩ := hspine.target.mark chain.isBoundary
  rw [Chain.rewrittenPath, AccessPath.target, w.access_of_spine r hmarked, hhops, hkey]
  rfl

theorem access_guard {σ : Type} (w : World σ) (r : Reading) (s : σ) {g : AccessPath}
    (hg : g ∈ chain.guards) :
    w.access c.file r g.target s = (w.pathValue r s g.baseKey g.hops).map (·, s) := by
  obtain ⟨e, he⟩ := parts.exists_of?_guard hg
  exact w.access_target r he s

/-- A step of the rewritten path is optional if it was or if a guard ends before it. -/
theorem optional_hops_iff (i : Nat) :
    chain.hops[i]?.any (·.optional) = true ↔
      chain.terminalPath.isOptionalAt i = true ∨ chain.isBoundary i = true := by
  have hstep : chain.hops[i]? = chain.terminalPath.hops[i]?.map (·.mark (chain.isBoundary i)) :=
    Hop.getElem?_markAll _ _ i
  rw [hstep, AccessPath.isOptionalAt_eq_hops]
  cases hhop : chain.terminalPath.hops[i]? with
  | some h => simp [Hop.mark]
  | none =>
    -- A guard ends inside the path, so that there is a step.
    have hlength : chain.terminalPath.length ≤ i := by simpa using hhop
    suffices chain.isBoundary i = false by simp [this]
    rw [← Bool.not_eq_true, Chain.isBoundary_iff]
    rintro ⟨g, hg, rfl⟩
    exact absurd (parts.length_guard_lt hg) (Nat.not_lt.2 hlength)

end ChainFinder.Parts

/-! ## The text of the replacement -/

theorem spliceFrom?_append (text : List Char) {stop cursor : Nat} {before : List Insertion}
    {i : Insertion} (after : List Insertion) (hbefore : ∀ b ∈ before, b.offset ≤ i.offset)
    (hcursor : cursor ≤ i.offset) (hstop : i.offset ≤ stop) :
    spliceFrom? text stop cursor (before ++ i :: after) = do
      let front ← spliceFrom? text i.offset cursor before
      let back ← spliceFrom? text stop i.offset after
      return front ++ i.text ++ back := by
  induction before generalizing cursor with
  | nil =>
    have hinside : ¬(i.offset < cursor ∨ stop < i.offset) := by omega
    rw [List.nil_append, spliceFrom?, spliceFrom?, if_neg hinside]
  | cons b before ih =>
    have hb : b.offset ≤ i.offset := hbefore b (by simp)
    have hrest : ∀ b ∈ before, b.offset ≤ i.offset := fun b hb ↦ hbefore b (by simp [hb])
    rw [List.cons_append, spliceFrom?, spliceFrom?]
    by_cases hcut : b.offset < cursor
    · rw [if_pos (.inl hcut), if_pos (.inl hcut), ih hrest hcursor]
    · have hinside : ¬(b.offset < cursor ∨ stop < b.offset) := by omega
      have hinside' : ¬(b.offset < cursor ∨ i.offset < b.offset) := by omega
      rw [if_neg hinside, if_neg hinside', ih hrest hb]
      simp [Option.bind_assoc]

namespace Chain

variable {chain : Chain}

theorem mem_insertions_iff {ins : Insertion} :
    ins ∈ chain.insertions ↔ ∃ i t, chain.terminalPath.steps[i]? = some t ∧ t.optional = false ∧
      chain.isBoundary i = true ∧ ins = ⟨t.insertAt, t.marker⟩ := by
  simp only [insertions, boundaries, List.mem_mergeSort, List.mem_map, List.mem_filter,
    List.mem_filterMap, isBoundary_iff]
  constructor
  · rintro ⟨t, ⟨⟨g, hg, ht⟩, hoptional⟩, rfl⟩
    exact ⟨g.length, t, ht, by simpa using hoptional, ⟨g, hg, rfl⟩, rfl⟩
  · rintro ⟨_, t, ht, hoptional, ⟨g, hg, rfl⟩, rfl⟩
    exact ⟨t, ⟨⟨g, hg, ht⟩, by simp [hoptional]⟩, rfl⟩

theorem pairwise_insertions : chain.insertions.Pairwise fun i j ↦ i.offset ≤ j.offset := by
  have hsorted : chain.insertions.Pairwise fun i j ↦ decide (i.offset ≤ j.offset) = true := by
    refine List.pairwise_mergeSort (fun i j k hij hjk ↦ ?_) (fun i j ↦ ?_) _
    · rw [decide_eq_true_eq] at *
      exact Nat.le_trans hij hjk
    · simpa using Nat.le_total i.offset j.offset
  exact hsorted.imp fun h ↦ by simpa using h

/-- The replacement has the text of the insertion at its offset, among the others. -/
def Shows (chain : Chain) (f : SourceFile) (ins : Insertion) : Prop :=
  ∃ before after, chain.insertions = before ++ ins :: after ∧
    ∀ text, chain.replacement? f = some text ↔ ∃ moved front back,
      (chain.removedComments f).mapM (·.relocated? f) = some moved ∧
      spliceFrom? f.text ins.offset (f.clamp chain.terminal.span.lo) before = some front ∧
      spliceFrom? f.text (f.clamp chain.terminal.span.hi) ins.offset after = some back ∧
      moved.flatten ++ (front ++ ins.text ++ back) = text

theorem shows_of_mem_insertions (f : SourceFile) {ins : Insertion} (h : ins ∈ chain.insertions)
    (hlo : f.clamp chain.terminal.span.lo ≤ ins.offset)
    (hhi : ins.offset ≤ f.clamp chain.terminal.span.hi) : chain.Shows f ins := by
  obtain ⟨before, after, hsplit⟩ := List.append_of_mem h
  refine ⟨before, after, hsplit, fun text ↦ ?_⟩
  have hpairwise := chain.pairwise_insertions
  rw [hsplit] at hpairwise
  have hbefore : ∀ b ∈ before, b.offset ≤ ins.offset := fun b hb ↦
    (List.pairwise_append.1 hpairwise).2.2 b hb ins (by simp)
  rw [replacement?, hsplit, spliceFrom?_append f.text after hbefore hlo hhi]
  simp [Option.bind_eq_some_iff]

end Chain

end OptionalChain
