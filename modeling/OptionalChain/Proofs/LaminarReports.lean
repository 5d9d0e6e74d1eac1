import OptionalChain.Proofs.PlacedChains
import OptionalChain.Proofs.Traversal

/-!
# Ranges of reports

Where spans nest, any two ranges that the rule reports lie apart or one lies in the other. A chain
spans a block of operands, and whatever is searched below its run lies within one operand, so that
it lies in the block or apart from it. Chains of one run lie apart.
-/

namespace OptionalChain

namespace Span

/-- The spans lie apart, or one of them lies in the other. -/
def Laminar (s t : Span) : Prop :=
  s.Apart t ∨ s.within t = true ∨ t.within s = true

instance (s t : Span) : Decidable (s.Laminar t) :=
  inferInstanceAs (Decidable (_ ∨ _))

variable {s t : Span}

theorem Laminar.refl (s : Span) : s.Laminar s :=
  .inr (.inl (within_refl s))

theorem Laminar.symm (h : s.Laminar t) : t.Laminar s := by
  obtain h | h | h := h
  · exact .inl h.symm
  · exact .inr (.inr h)
  · exact .inr (.inl h)

instance : Std.Symm Laminar :=
  ⟨fun _ _ h ↦ h.symm⟩

/-- Cutting spans off at the end of a text does not make them cross. -/
theorem Laminar.map_min (h : s.Laminar t) (size : Nat) :
    Laminar ⟨min s.lo size, min s.hi size⟩ ⟨min t.lo size, min t.hi size⟩ := by
  simp only [Laminar, Apart, within_iff] at *
  omega

end Span

/-- The bytes that a region takes up. -/
def Region.range (r : Region) : Span :=
  ⟨r.start, r.stop⟩

namespace Node

/-- Whether no operand of an operator ends before it starts. -/
def operandsForward : Node → Bool
  | .binary _ _ left right => left.span.lo ≤ left.span.hi && right.span.lo ≤ right.span.hi
  | _ => true

/-- The spans of the tree nest: parts lie in their node and apart from each other, the operands of
an operator stand in the order of the text, and none of them ends before it starts. -/
structure SpansNest (n : Node) : Prop where
  nests : n.Nests
  inOrder : n.InOrder
  forward : ∀ m ∈ n.preorder, m.operandsForward = true

variable {n m : Node}

theorem SpansNest.of_mem_preorder (h : n.SpansNest) (hm : m ∈ n.preorder) : m.SpansNest where
  nests := h.nests.of_mem_preorder hm
  inOrder k hk := h.inOrder k (preorder_subset_of_mem hm hk)
  forward k hk := h.forward k (preorder_subset_of_mem hm hk)

theorem mem_preorder_of_mem_children (hm : m ∈ n.children) : m ∈ n.preorder :=
  preorder_subset_of_mem_children hm m.self_mem_preorder

theorem SpansNest.forward_operands {op : BinaryOp} {s : Span} {left right : Node}
    (h : (Node.binary op s left right).SpansNest) :
    left.span.lo ≤ left.span.hi ∧ right.span.lo ≤ right.span.hi := by
  simpa [operandsForward] using h.forward _ (self_mem_preorder _)

/-- Where a node does not end before it starts, nor does any operand of the run that it holds. -/
theorem SpansNest.le_of_mem_flatten {style : ChainStyle} (h : n.SpansNest)
    (hn : n.span.lo ≤ n.span.hi) (hm : m ∈ n.flatten style) : m.span.lo ≤ m.span.hi := by
  induction n using induction_parts with
  | step kind span children ih =>
    by_cases hstyle : PreferOptionalChain.runStyle? (.mk kind span children) = some style
    · obtain ⟨s, left, right, heq⟩ := PreferOptionalChain.runStyle?_eq_some.1 hstyle
      rw [heq, PreferOptionalChain.flatten_binary] at hm
      cases heq
      have hparts := h.forward_operands
      have hpart : ∀ k ∈ [left, right], k.SpansNest := fun k hk ↦
        h.of_mem_preorder (mem_preorder_of_mem_children hk)
      obtain hm | hm := List.mem_append.1 hm
      · exact ih left (by simp) (hpart left (by simp)) hparts.1 hm
      · exact ih right (by simp) (hpart right (by simp)) hparts.2 hm
    · rw [PreferOptionalChain.flatten_eq_singleton hstyle, List.mem_singleton] at hm
      rw [hm]
      exact hn

end Node

/-! ## The span of a chain -/

/-- Operands stand one after the other, and none of them ends before it starts. -/
structure InSequence (operands : List Node) : Prop where
  pairwise : operands.Pairwise fun l r ↦ l.span.hi ≤ r.span.lo
  ordered : ∀ m ∈ operands, m.span.lo ≤ m.span.hi

theorem Node.SpansNest.inSequence {n : Node} {style : ChainStyle} (h : n.SpansNest)
    (hstyle : PreferOptionalChain.runStyle? n = some style) : InSequence (n.flatten style) where
  pairwise := (PreferOptionalChain.pairwise_flatten style h.nests h.inOrder).2
  ordered m hm := by
    obtain ⟨s, left, right, rfl⟩ := PreferOptionalChain.runStyle?_eq_some.1 hstyle
    rw [PreferOptionalChain.flatten_binary] at hm
    have hpart : ∀ k ∈ [left, right], k.SpansNest := fun k hk ↦
      h.of_mem_preorder (mem_preorder_of_mem_children hk)
    obtain hm | hm := List.mem_append.1 hm
    · exact (hpart left (by simp)).le_of_mem_flatten h.forward_operands.1 hm
    · exact (hpart right (by simp)).le_of_mem_flatten h.forward_operands.2 hm

namespace InSequence

variable {operands : List Node} {l r m : Node} {i j k : Nat}

theorem hi_le_lo (h : InSequence operands) (hl : operands[i]? = some l) (hr : operands[j]? = some r)
    (hij : i < j) : l.span.hi ≤ r.span.lo := by
  obtain ⟨hi, rfl⟩ := List.getElem?_eq_some_iff.1 hl
  obtain ⟨hj, rfl⟩ := List.getElem?_eq_some_iff.1 hr
  exact List.pairwise_iff_getElem.1 h.pairwise i j hi hj hij

/-- Operands later in the run neither start nor end before earlier ones. -/
theorem le_of_le (h : InSequence operands) (hl : operands[i]? = some l)
    (hr : operands[j]? = some r) (hij : i ≤ j) :
    l.span.lo ≤ r.span.lo ∧ l.span.hi ≤ r.span.hi := by
  obtain rfl | hlt := Nat.eq_or_lt_of_le hij
  · rw [hl] at hr
    cases hr
    exact ⟨Nat.le_refl _, Nat.le_refl _⟩
  · have hapart := h.hi_le_lo hl hr hlt
    have hleft := h.ordered l (List.mem_of_getElem? hl)
    have hright := h.ordered r (List.mem_of_getElem? hr)
    omega

/-- What lies within an operand lies in a block of operands or apart from it. -/
theorem laminar_block (h : InSequence operands) (hl : operands[i]? = some l)
    (hr : operands[j]? = some r) (hm : operands[k]? = some m) {t : Span}
    (ht : t.within m.span = true) : (l.span.upTo r.span).Laminar t := by
  rw [Span.within_iff] at ht
  simp only [Span.Laminar, Span.Apart, Span.within_iff, Span.upTo]
  rcases Nat.lt_or_ge k i with hki | hik
  · have := h.hi_le_lo hm hl hki
    omega
  · rcases Nat.lt_or_ge j k with hjk | hkj
    · have := h.hi_le_lo hr hm hjk
      omega
    · have := h.le_of_le hl hm hik
      have := h.le_of_le hm hr hkj
      omega

end InSequence

namespace ChainFinder

variable {c : ChainFinder} {operands : List Node}

theorem exists_first_of_chainAt? {start : Nat} {chain : Chain}
    (h : c.chainAt? operands start = some chain) :
    ∃ first, operands[start]? = some first ∧ chain.span = first.span.upTo chain.terminal.span := by
  unfold chainAt? at h
  split at h
  · cases h
  · rename_i o rest hoperands
    obtain ⟨first, after, hdrop, rfl, -⟩ := List.map_eq_cons_iff.1 hoperands
    refine ⟨first, by rw [← List.head?_drop, hdrop]; rfl, ?_⟩
    cases hcheck : (c.operand first).check? with
    | none => simp [levelsAt, hcheck, settle] at h
    | some check =>
      rw [levelsAt, hcheck] at h
      obtain ⟨l, hl, h⟩ := Option.bind_eq_some_iff.1 h
      obtain ⟨t, last, path, -, -, rfl⟩ := chainWithin_eq_some h
      obtain ⟨l', hl', -, hoperand, -⟩ := head?_levelsFrom
        ⟨check.path, c.operand first, start, [check.kind]⟩ (start + 1) rest
      rw [hl'] at hl
      cases hl
      rw [hoperand]
      rfl

/-- A chain spans the block of operands that it takes. -/
theorem exists_block_of_mem_placed {b : PlacedChain} (h : b ∈ c.placed operands) :
    ∃ first last, operands[b.start]? = some first ∧ operands[b.last]? = some last ∧
      b.start < b.last ∧ b.chain.span = first.span.upTo last.span := by
  have hchain := chainAt?_of_mem_placed h
  obtain ⟨first, hfirst, hspan⟩ := exists_first_of_chainAt? hchain
  have hwell := wellFormed_of_chainAt? hchain
  refine ⟨first, b.chain.terminal, hfirst, hwell.last, ?_, hspan⟩
  have htwo := hwell.two_le
  unfold PlacedChain.last
  omega

theorem exists_block_of_mem_find {chain : Chain} (h : chain ∈ c.find operands) :
    ∃ (i j : Nat) (first last : Node), operands[i]? = some first ∧ operands[j]? = some last ∧
      i < j ∧ chain.span = first.span.upTo last.span := by
  rw [← map_chain_placed] at h
  obtain ⟨b, hb, rfl⟩ := List.mem_map.1 h
  obtain ⟨first, last, hfirst, hlast, hlt, hspan⟩ := exists_block_of_mem_placed hb
  exact ⟨b.start, b.last, first, last, hfirst, hlast, hlt, hspan⟩

/-- The chains of a run lie one after the other. -/
theorem pairwise_find (h : InSequence operands) (c : ChainFinder) :
    (c.find operands).Pairwise fun x y ↦ x.span.hi ≤ y.span.lo := by
  rw [← map_chain_placed, List.pairwise_map]
  have hblocks : (c.placed operands).Pairwise fun b b' ↦ b.last < b'.start :=
    pairwise_placedFrom (by rw [List.drop_zero])
  refine hblocks.imp_of_mem fun {b b'} hb hb' hlt ↦ ?_
  obtain ⟨_, last, -, hlast, -, hspan⟩ := exists_block_of_mem_placed hb
  obtain ⟨first, _, hfirst, -, -, hspan'⟩ := exists_block_of_mem_placed hb'
  rw [hspan, hspan']
  exact h.hi_le_lo hlast hfirst hlt

end ChainFinder

namespace PreferOptionalChain

/-! ## What is reported on -/

theorem eq_of_dueSearch?_access {around : List Node} {n m : Node}
    (h : dueSearch? around n = some (.access m)) : m = n := by
  unfold dueSearch? at h
  split at h
  · cases h
  · split at h
    · split at h <;> cases h
    · split at h <;> cases h
      rfl

theorem mem_flatten_of_mem_children {style : ChainStyle} {n m k : Node}
    (hstyle : runStyle? n = some style) (hm : m ∈ n.children) (hk : k ∈ m.flatten style) :
    k ∈ n.flatten style := by
  obtain ⟨s, left, right, rfl⟩ := runStyle?_eq_some.1 hstyle
  rw [flatten_binary]
  obtain rfl | hright := List.mem_cons.1 hm
  · exact List.mem_append_left _ hk
  · obtain rfl := List.mem_singleton.1 hright
    exact List.mem_append_right _ hk

namespace Context

variable (c : Context)

/-- The spans that a search can report on. -/
def searchSpans : Search → List Span
  | .run style operands => ((c.finder style).find operands).map (·.span)
  | .access n => [n.span]

/-- The bytes of the file that a span takes up. -/
def rangeOf (s : Span) : Span :=
  ⟨c.file.clamp s.lo, c.file.clamp s.hi⟩

variable {c}

theorem range_of_region? {s : Span} {r : Region} (h : c.region? s = some r) :
    r.range = c.rangeOf s := by
  obtain ⟨first, -, h⟩ := Option.bind_eq_some_iff.1 h
  obtain ⟨last, -, h⟩ := Option.bind_eq_some_iff.1 h
  cases h
  rfl

theorem region_of_mem_fixes {region : Region} {replacement : List Char} {v : Verdict} {e : Fix}
    (h : e ∈ (c.diagnostic region replacement v).fixes) : e.region = region := by
  rw [List.mem_singleton.1 h, fix]
  split <;> rfl

/-- A diagnostic and its edits take up one span that was searched. -/
theorem exists_mem_searchSpans {x : Search} {y : Finding} {d : Diagnostic} (hy : y ∈ c.findings x)
    (h : c.diagnosticOf? y = some d) :
    ∃ s ∈ c.searchSpans x, d.region.range = c.rangeOf s ∧
      ∀ e ∈ d.fixes, e.region.range = c.rangeOf s := by
  have hmade : ∀ s region replacement v, c.region? s = some region →
      (c.diagnostic region replacement v).region.range = c.rangeOf s ∧
        ∀ e ∈ (c.diagnostic region replacement v).fixes, e.region.range = c.rangeOf s := by
    intro s region replacement v hregion
    have hrange := range_of_region? hregion
    exact ⟨hrange, fun e he ↦ by rw [region_of_mem_fixes he, hrange]⟩
  cases x with
  | run style operands =>
    obtain ⟨chain, hchain, rfl⟩ := List.mem_map.1 hy
    obtain ⟨replacement, -, h⟩ := Option.bind_eq_some_iff.1 h
    obtain ⟨region, hregion, h⟩ := Option.bind_eq_some_iff.1 h
    cases h
    exact ⟨chain.span, List.mem_map_of_mem hchain, hmade _ _ _ _ hregion⟩
  | access n =>
    obtain ⟨b, -, rfl⟩ := List.mem_map.1 hy
    obtain ⟨region, hregion, h⟩ := Option.bind_eq_some_iff.1 h
    cases h
    exact ⟨n.span, List.mem_singleton_self _, hmade _ _ _ _ hregion⟩

/-- What is reported on an operator or access lies within it. -/
theorem within_of_dueSearch? {around : List Node} {n : Node} {x : Search} (hspans : n.SpansNest)
    (hx : dueSearch? around n = some x) {s : Span} (hs : s ∈ c.searchSpans x) :
    s.within n.span = true := by
  cases x with
  | run style operands =>
    obtain ⟨-, rfl⟩ := runStyle?_of_dueSearch? hx
    obtain ⟨chain, hchain, rfl⟩ := List.mem_map.1 hs
    obtain ⟨i, j, first, last, hfirst, hlast, -, hspan⟩ :=
      ChainFinder.exists_block_of_mem_find hchain
    have hwithin := (pairwise_flatten style hspans.nests hspans.inOrder).1
    have hlo := Span.within_iff.1 (hwithin first (List.mem_of_getElem? hfirst))
    have hhi := Span.within_iff.1 (hwithin last (List.mem_of_getElem? hlast))
    rw [hspan, Span.within_iff]
    exact ⟨hlo.1, hhi.2⟩
  | access m =>
    rw [List.mem_singleton.1 hs, eq_of_dueSearch?_access hx]
    exact Span.within_refl _

/-- What is reported in a tree lies within it. -/
theorem within_of_mem_dueSearchesIn {around : List Node} {n : Node} {x : Search}
    (hspans : n.SpansNest) (hx : x ∈ dueSearchesIn around n) {s : Span}
    (hs : s ∈ c.searchSpans x) : s.within n.span = true := by
  induction n using Node.induction_parts generalizing around with
  | step kind span children ih =>
    rw [dueSearchesIn_eq, List.mem_append, Option.mem_toList] at hx
    obtain hx | hx := hx
    · exact within_of_dueSearch? hspans hx hs
    · obtain ⟨m, hm, hx⟩ := List.mem_flatMap.1 hx
      have hmem := (Node.mem_visitedParts_iff.1 hm).1
      have hpart := hspans.of_mem_preorder (Node.mem_preorder_of_mem_children hmem)
      exact Span.within_trans (ih m hmem hpart hx) (hspans.nests.parts.within m hm)

/-- What is reported in a tree where a run goes on lies within one operand of the run. -/
theorem within_operand_of_mem_dueSearchesIn {style : ChainStyle} {around : List Node} {n : Node}
    {x : Search} (hspans : n.SpansNest) (hrun : around.head?.bind runStyle? = some style)
    (hx : x ∈ dueSearchesIn around n) {s : Span} (hs : s ∈ c.searchSpans x) :
    ∃ m ∈ n.flatten style, s.within m.span = true := by
  induction n using Node.induction_parts generalizing around with
  | step kind span children ih =>
    by_cases hstyle : runStyle? (.mk kind span children) = some style
    · -- The operator belongs to the run, so that nothing is searched from it.
      have hnone : dueSearch? around (.mk kind span children) = none := by
        unfold dueSearch?
        split
        · rfl
        · rw [hstyle]
          exact if_pos hrun
      rw [dueSearchesIn_eq, hnone, Option.toList_none, List.nil_append] at hx
      obtain ⟨m, hm, hx⟩ := List.mem_flatMap.1 hx
      have hmem := (Node.mem_visitedParts_iff.1 hm).1
      have hpart := hspans.of_mem_preorder (Node.mem_preorder_of_mem_children hmem)
      obtain ⟨k, hk, hwithin⟩ := ih m hmem hpart (by rw [List.head?_cons]; exact hstyle) hx
      exact ⟨k, mem_flatten_of_mem_children hstyle hmem hk, hwithin⟩
    · rw [flatten_eq_singleton hstyle]
      exact ⟨_, List.mem_singleton_self _, within_of_mem_dueSearchesIn hspans hx hs⟩

/-! ## Two reports -/

/-- Two spans reported on one operator or access. -/
theorem laminar_of_dueSearch? {around : List Node} {n : Node} {x : Search} (hspans : n.SpansNest)
    (hx : dueSearch? around n = some x) {s t : Span} (hs : s ∈ c.searchSpans x)
    (ht : t ∈ c.searchSpans x) : s.Laminar t := by
  cases x with
  | run style operands =>
    obtain ⟨hstyle, rfl⟩ := runStyle?_of_dueSearch? hx
    have hpairwise : (c.searchSpans (.run style (n.flatten style))).Pairwise Span.Laminar :=
      List.pairwise_map.2 ((ChainFinder.pairwise_find (hspans.inSequence hstyle) _).imp
        fun hle ↦ .inl (.inl hle))
    exact hpairwise.forall_of_forall (fun s _ ↦ .refl s) hs ht
  | access m =>
    rw [List.mem_singleton.1 hs, List.mem_singleton.1 ht]
    exact .refl _

/-- A span reported on an operator or access, and one reported in a part of it. -/
theorem laminar_of_mem_part {around : List Node} {n m : Node} {x y : Search} (hspans : n.SpansNest)
    (hx : dueSearch? around n = some x) (hm : m ∈ n.visitedParts)
    (hy : y ∈ dueSearchesIn (n :: around) m) {s t : Span} (hs : s ∈ c.searchSpans x)
    (ht : t ∈ c.searchSpans y) : s.Laminar t := by
  have hmem := (Node.mem_visitedParts_iff.1 hm).1
  have hpart := hspans.of_mem_preorder (Node.mem_preorder_of_mem_children hmem)
  cases x with
  | run style operands =>
    obtain ⟨hstyle, rfl⟩ := runStyle?_of_dueSearch? hx
    obtain ⟨chain, hchain, rfl⟩ := List.mem_map.1 hs
    obtain ⟨i, j, first, last, hfirst, hlast, -, hspan⟩ :=
      ChainFinder.exists_block_of_mem_find hchain
    obtain ⟨operand, hoperand, hwithin⟩ :=
      within_operand_of_mem_dueSearchesIn hpart (by rw [List.head?_cons]; exact hstyle) hy ht
    obtain ⟨k, hk⟩ := List.mem_iff_getElem?.1 (mem_flatten_of_mem_children hstyle hmem hoperand)
    rw [hspan]
    exact (hspans.inSequence hstyle).laminar_block hfirst hlast hk hwithin
  | access k =>
    have hin := Span.within_trans (within_of_mem_dueSearchesIn hpart hy ht)
      (hspans.nests.parts.within m hm)
    rw [List.mem_singleton.1 hs, eq_of_dueSearch?_access hx]
    exact .inr (.inr hin)

/-- Any two spans reported in a tree. -/
theorem laminar_of_mem_dueSearchesIn {around : List Node} {n : Node} {x y : Search}
    (hspans : n.SpansNest) (hx : x ∈ dueSearchesIn around n) (hy : y ∈ dueSearchesIn around n)
    {s t : Span} (hs : s ∈ c.searchSpans x) (ht : t ∈ c.searchSpans y) : s.Laminar t := by
  induction n using Node.induction_parts generalizing around x y s t with
  | step kind span children ih =>
    have hparts : ∀ m ∈ (Node.mk kind span children).visitedParts, m ∈ children ∧ m.SpansNest :=
      fun m hm ↦
        have hmem := (Node.mem_visitedParts_iff.1 hm).1
        ⟨hmem, hspans.of_mem_preorder (Node.mem_preorder_of_mem_children hmem)⟩
    rw [dueSearchesIn_eq, List.mem_append, Option.mem_toList] at hx hy
    obtain hx | hx := hx <;> obtain hy | hy := hy
    · obtain rfl := Option.some.inj (hx.symm.trans hy)
      exact laminar_of_dueSearch? hspans hx hs ht
    · obtain ⟨m, hm, hy⟩ := List.mem_flatMap.1 hy
      exact laminar_of_mem_part hspans hx hm hy hs ht
    · obtain ⟨m, hm, hx⟩ := List.mem_flatMap.1 hx
      exact (laminar_of_mem_part hspans hy hm hx ht hs).symm
    · obtain ⟨l, hl, hx⟩ := List.mem_flatMap.1 hx
      obtain ⟨r, hr, hy⟩ := List.mem_flatMap.1 hy
      have hleft := within_of_mem_dueSearchesIn (hparts l hl).2 hx hs
      have hright := within_of_mem_dueSearchesIn (hparts r hr).2 hy ht
      by_cases hlr : l = r
      · subst hlr
        exact ih l (hparts l hl).1 (hparts l hl).2 hx hy hs ht
      · have : Std.Symm fun l r : Node ↦ l.span.Apart r.span := ⟨fun _ _ h ↦ h.symm⟩
        have hapart := hspans.nests.parts.apart.forall hl hr hlr
        exact .inl ((hapart.of_within hright).symm.of_within hleft).symm

end Context

/-- Where spans nest, any two diagnostics of the rule, and any two of their edits, take up ranges
that lie apart or of which one lies in the other. The chains of one run lie apart. -/
theorem reported_ranges_are_laminar {program : Node} (hspans : program.SpansNest) (c : Context) :
    (∀ r, checkProgram? c program = some r → ∀ d ∈ r.diagnostics, ∀ e ∈ r.diagnostics,
      d.region.range.Laminar e.region.range ∧
        ∀ x ∈ d.fixes, ∀ y ∈ e.fixes, x.region.range.Laminar y.region.range) ∧
      ∀ style operands, .run style operands ∈ (Trace.ofProgram program).searches →
        ((c.finder style).find operands).Pairwise fun x y ↦
          c.file.clamp x.span.hi ≤ c.file.clamp y.span.lo := by
  have hsearches := Trace.searches_ofProgram hspans.nests
  constructor
  · intro r hr d hd e he
    rw [checkProgram?_eq, hsearches] at hr
    obtain ⟨x, hx, x', hx', hd⟩ := Context.exists_finding_of_mem_diagnostics hr hd
    obtain ⟨y, hy, y', hy', he⟩ := Context.exists_finding_of_mem_diagnostics hr he
    obtain ⟨s, hs, hdregion, hdfixes⟩ := Context.exists_mem_searchSpans hx' hd
    obtain ⟨t, ht, heregion, hefixes⟩ := Context.exists_mem_searchSpans hy' he
    have hlaminar : (c.rangeOf s).Laminar (c.rangeOf t) :=
      (Context.laminar_of_mem_dueSearchesIn hspans hx hy hs ht).map_min _
    refine ⟨by rwa [hdregion, heregion], fun x hx y hy ↦ ?_⟩
    rwa [hdfixes x hx, hefixes y hy]
  · intro style operands hrun
    rw [hsearches] at hrun
    obtain ⟨⟨around, n⟩, hplace, hsearch⟩ := List.mem_filterMap.1 hrun
    obtain ⟨hstyle, rfl⟩ := runStyle?_of_dueSearch? hsearch
    have hn := hspans.of_mem_preorder (mem_preorder_of_mem_places hplace)
    refine (ChainFinder.pairwise_find (hn.inSequence hstyle) _).imp fun {x y} hle ↦ ?_
    change min x.span.hi _ ≤ min y.span.lo _
    omega

def nestedReports : Context :=
  .ofText "a != null && a.b(c != null && c.d) && e != null && e[(g ?? \x7b\x7d).h];"

def nestedProgram : Node :=
  nestedReports.file.program?.get (by decide +kernel)

/-- Two chains of one run lie apart. A chain in an argument lies in the first, and a fallback
in a key lies in the second. -/
theorem nested_reports_are_laminar :
    nestedProgram.SpansNest ∧
      (∃ r, checkProgram? nestedReports nestedProgram = some r ∧
        r.diagnostics.map (·.region.range) = [⟨0, 34⟩, ⟨38, 65⟩, ⟨17, 33⟩, ⟨53, 64⟩]) ∧
      Span.Laminar ⟨0, 34⟩ ⟨17, 33⟩ := by
  obtain ⟨hnests, horder, hforward, r, hr, hranges⟩ :
      nestedProgram.Nests ∧ nestedProgram.InOrder ∧
        (∀ m ∈ nestedProgram.preorder, m.operandsForward = true) ∧
        ∃ r ∈ checkProgram? nestedReports nestedProgram,
          r.diagnostics.map (·.region.range) = [⟨0, 34⟩, ⟨38, 65⟩, ⟨17, 33⟩, ⟨53, 64⟩] := by
    decide +kernel
  have hspans : nestedProgram.SpansNest := ⟨hnests, horder, hforward⟩
  refine ⟨hspans, ⟨r, hr, hranges⟩, ?_⟩
  have hmem : ∀ s ∈ [Span.mk 0 34, ⟨38, 65⟩, ⟨17, 33⟩, ⟨53, 64⟩],
      ∃ d ∈ r.diagnostics, d.region.range = s := fun s hs ↦ List.mem_map.1 (hranges ▸ hs)
  obtain ⟨d, hd, hdrange⟩ := hmem ⟨0, 34⟩ (by simp)
  obtain ⟨e, he, herange⟩ := hmem ⟨17, 33⟩ (by simp)
  rw [← hdrange, ← herange]
  exact ((reported_ranges_are_laminar hspans nestedReports).1 r hr d hd e he).1

end PreferOptionalChain

end OptionalChain
