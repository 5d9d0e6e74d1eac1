import OptionalChain.Proofs.NestedSpans

/-!
# Coverage of the walk

The rule knows the places where a run goes on and the regions to leave alone only by their spans.
Where spans nest, a span that a node is compared with either belongs to a node around it or lies
apart from it, so that the marks say exactly what the tree says. The walk then searches every run
once, from its outermost operator, and every member access, unless they stand in a region.
-/

namespace OptionalChain.PreferOptionalChain

namespace Trace

/-! ## Marks that a tree leaves -/

/-- Marks are only added, and those that are lie within the span. -/
structure Grows (t u : Trace) (s : Span) : Prop where
  skipped_subset : t.skipped ⊆ u.skipped
  consumed_subset : t.consumed ⊆ u.consumed
  skipped : ∀ r ∈ u.skipped, r ∈ t.skipped ∨ r.within s = true
  consumed : ∀ k ∈ u.consumed, k ∈ t.consumed ∨ k.within s = true

namespace Grows

variable {t u v : Trace} {s : Span}

theorem refl (t : Trace) (s : Span) : t.Grows t s :=
  ⟨fun _ h ↦ h, fun _ h ↦ h, fun _ h ↦ .inl h, fun _ h ↦ .inl h⟩

theorem trans (htu : t.Grows u s) (huv : u.Grows v s) : t.Grows v s where
  skipped_subset := fun _ h ↦ huv.skipped_subset (htu.skipped_subset h)
  consumed_subset := fun _ h ↦ huv.consumed_subset (htu.consumed_subset h)
  skipped r hr := (huv.skipped r hr).elim (htu.skipped r) .inr
  consumed k hk := (huv.consumed k hk).elim (htu.consumed k) .inr

theorem mono (h : t.Grows u s) {outer : Span} (hs : s.within outer = true) : t.Grows u outer where
  skipped_subset := h.skipped_subset
  consumed_subset := h.consumed_subset
  skipped r hr := (h.skipped r hr).imp_right (Span.within_trans · hs)
  consumed k hk := (h.consumed k hk).imp_right (Span.within_trans · hs)

theorem of_skip (t : Trace) (s : Span) : t.Grows (t.skip s) s where
  skipped_subset := List.subset_append_left _ _
  consumed_subset := fun _ h ↦ h
  skipped r hr := by
    obtain hr | hr := List.mem_append.1 hr
    · exact .inl hr
    · rw [List.mem_singleton.1 hr]
      exact .inr (Span.within_refl s)
  consumed := fun _ h ↦ .inl h

end Grows

variable {t : Trace} {n : Node} {style : ChainStyle}

theorem grows_visitRun {s : Span} {left right : Node}
    (hnests : (Node.binary style.op s left right).Nests) :
    t.Grows (t.visitRun style s left right) s := by
  unfold visitRun
  split
  · exact .refl t s
  · refine ⟨fun _ h ↦ h, ?_, fun _ h ↦ .inl h, fun k hk ↦ ?_⟩
    · intro k hk
      exact List.mem_append_left _ (List.mem_append_left _ hk)
    · rw [search, List.mem_append, List.mem_append, or_assoc] at hk
      refine hk.imp_right fun hnested ↦ ?_
      have hmem : k ∈ nestedSpans style (.binary style.op s left right) := by
        rw [nestedSpans_binary, List.mem_cons, List.mem_append]
        exact .inr hnested
      exact within_of_mem_nestedSpans hnests hmem

/-- A visit leaves its marks within the span of the node. -/
theorem grows_visit (hnests : n.Nests) (hook : Hook) : t.Grows (t.visit hook n) n.span := by
  unfold visit
  split
  · split
    · rename_i hstyle
      obtain rfl := ofOp?_eq_some.1 hstyle
      exact grows_visitRun hnests
    · exact .refl t _
  · split
    · exact .refl t _
    · exact ⟨fun _ h ↦ h, fun _ h ↦ h, fun _ h ↦ .inl h, fun _ h ↦ .inl h⟩
  · exact .of_skip t _
  · exact .of_skip t _
  · exact .of_skip t _
  · exact .of_skip t _
  · exact .of_skip t _
  · exact .refl t _

/-- The marks after the visit of a node itself, if it is visited. -/
def enter (t : Trace) (n : Node) : Trace :=
  match n.kind.hook? with
  | none => t
  | some hook => t.visit hook n

theorem afterVisits_of_visits_eq_nil (t : Trace) (h : n.visits = []) :
    n.afterVisits visit t = t := by
  rw [Node.afterVisits, h, List.foldl_nil]

/-- A walk enters a node and then goes through the parts in which something is visited. -/
theorem afterVisits_eq_foldl (t : Trace) (n : Node) :
    n.afterVisits visit t = n.visitedParts.foldl (Node.afterVisits visit) (t.enter n) := by
  have hparts : (fun (u : Trace) (m : Node) ↦
      if !m.visits.isEmpty then m.afterVisits visit u else u) = Node.afterVisits visit := by
    funext u m
    cases hvisits : m.visits with
    | nil => exact (afterVisits_of_visits_eq_nil u hvisits).symm
    | cons => rfl
  rw [Node.visitedParts, List.foldl_filter, hparts]
  cases n with
  | mk kind span children => exact Node.afterVisits_mk visit t kind span children

/-- What holds after a node is entered and is kept by every part holds at the end. -/
theorem afterVisits_induction (P : Trace → Prop) (henter : P (t.enter n))
    (hpart : ∀ m ∈ n.visitedParts, ∀ u, P u → P (m.afterVisits visit u)) :
    P (n.afterVisits visit t) := by
  rw [afterVisits_eq_foldl]
  generalize t.enter n = u at henter
  generalize n.visitedParts = ms at hpart
  induction ms generalizing u with
  | nil => exact henter
  | cons m ms ih =>
    obtain ⟨hm, hms⟩ := List.forall_mem_cons.1 hpart
    exact ih _ (hm u henter) hms

theorem grows_enter (t : Trace) (hnests : n.Nests) : t.Grows (t.enter n) n.span := by
  unfold enter
  split
  · exact .refl t _
  · exact grows_visit hnests _

/-- A walk through a tree leaves its marks within the span of the tree. -/
theorem grows_afterVisits (t : Trace) (hnests : n.Nests) :
    t.Grows (n.afterVisits visit t) n.span := by
  induction n using Node.induction_parts generalizing t with
  | step kind span children ih =>
    apply afterVisits_induction (t.Grows · span) (grows_enter t hnests)
    intro m hm u hu
    have hmem := (Node.mem_visitedParts_iff.1 hm).1
    exact hu.trans ((ih m hmem u (hnests.of_mem_children hmem)).mono (hnests.parts.within m hm))

/-! ## Trees in a region -/

theorem isSkipped_iff {s : Span} :
    t.isSkipped s = true ↔ ∃ r ∈ t.skipped, s.within r = true :=
  List.any_eq_true

theorem isSkipped_of_within {s outer : Span} (h : t.isSkipped outer = true)
    (hs : s.within outer = true) : t.isSkipped s = true := by
  obtain ⟨r, hr, hwithin⟩ := isSkipped_iff.1 h
  exact isSkipped_iff.2 ⟨r, hr, Span.within_trans hs hwithin⟩

theorem Grows.isSkipped {u : Trace} {s outer : Span} (hgrows : t.Grows u outer)
    (h : t.isSkipped s = true) : u.isSkipped s = true := by
  obtain ⟨r, hr, hwithin⟩ := isSkipped_iff.1 h
  exact isSkipped_iff.2 ⟨r, hgrows.skipped_subset hr, hwithin⟩

theorem searches_enter_of_isSkipped (h : t.isSkipped n.span = true) :
    (t.enter n).searches = t.searches := by
  unfold enter
  split
  · rfl
  · unfold visit
    split
    · split
      · rw [visitRun, if_pos (by rw [Bool.or_eq_true]; exact .inr h)]
      · rfl
    · rw [if_pos h]
    all_goals rfl

/-- Nothing is searched below a node whose span is skipped once it is entered. -/
theorem searches_afterVisits_of_isSkipped_enter (hnests : n.Nests)
    (h : (t.enter n).isSkipped n.span = true) :
    (n.afterVisits visit t).searches = (t.enter n).searches := by
  induction n using Node.induction_parts generalizing t with
  | step kind span children ih =>
    refine (afterVisits_induction (fun u ↦ u.isSkipped span = true ∧
      u.searches = (t.enter (.mk kind span children)).searches) ⟨h, rfl⟩ ?_).2
    rintro m hm u ⟨hu, hsearches⟩
    have hmem := (Node.mem_visitedParts_iff.1 hm).1
    have hpart := hnests.of_mem_children hmem
    have hskipped := isSkipped_of_within hu (hnests.parts.within m hm)
    have hbelow := ih m hmem hpart ((grows_enter u hpart).isSkipped hskipped)
    rw [searches_enter_of_isSkipped hskipped] at hbelow
    exact ⟨(grows_afterVisits u hpart).isSkipped hu, hbelow.trans hsearches⟩

theorem enter_of_isRegion (t : Trace) (h : isRegion n = true) : t.enter n = t.skip n.span := by
  cases n with
  | mk kind span children =>
    unfold isRegion at h
    split at h
    case h_6 => cases h
    all_goals
      rename_i hkind
      change kind = _ at hkind
      subst hkind
      rfl

/-! ## Trees outside every region -/

/-- The marks before the walk through a tree outside every region: each of them lies apart from the
tree, belongs to an operator around it, or to the run that goes on in it. -/
structure Ready (t : Trace) (around : List Node) (n : Node) : Prop where
  skipped : ∀ r ∈ t.skipped, r.Apart n.span
  consumed : ∀ k ∈ t.consumed, k.Apart n.span ∨ n.span.Inside k ∨ k ∈ continued around n
  marked : continued around n ⊆ t.consumed

variable {around : List Node}

/-- The walk through a tree that lies apart keeps the marks. -/
theorem Ready.grows {u : Trace} {s : Span} (h : t.Ready around n) (hgrows : t.Grows u s)
    (hapart : s.Apart n.span) : u.Ready around n where
  skipped r hr := by
    obtain hr | hwithin := hgrows.skipped r hr
    · exact h.skipped r hr
    · exact (hapart.symm.of_within hwithin).symm
  consumed k hk := by
    obtain hk | hwithin := hgrows.consumed k hk
    · exact h.consumed k hk
    · exact .inl (hapart.symm.of_within hwithin).symm
  marked := fun _ hk ↦ hgrows.consumed_subset (h.marked hk)

theorem Ready.isSkipped_eq_false (h : t.Ready around n) (hpos : 0 < n.span.length) :
    t.isSkipped n.span = false := by
  rw [isSkipped, List.any_eq_false]
  intro r hr
  rw [(h.skipped r hr).within_eq_false hpos]
  exact Bool.false_ne_true

/-- An operator is marked exactly if the node around it is of the same operator. -/
theorem Ready.mem_consumed_iff (h : t.Ready around n) (hpos : 0 < n.span.length)
    (hstyle : runStyle? n = some style) :
    n.span ∈ t.consumed ↔ around.head?.bind runStyle? = some style := by
  constructor
  · intro hmem
    obtain hapart | hinside | hrun := h.consumed _ hmem
    · have hself := hapart.within_eq_false hpos
      rw [Span.within_refl] at hself
      cases hself
    · exact absurd hinside.2 (Nat.lt_irrefl _)
    · obtain ⟨style', hstyle', houter, -⟩ := mem_continued_iff.1 hrun
      rw [← hstyle, hstyle', houter]
  · intro houter
    apply h.marked
    refine mem_continued_iff.2 ⟨style, hstyle, houter, ?_⟩
    obtain ⟨s, left, right, rfl⟩ := runStyle?_eq_some.1 hstyle
    rw [nestedSpans_binary]
    exact List.mem_cons_self

theorem enter_binary (t : Trace) (style : ChainStyle) (s : Span) (left right : Node) :
    t.enter (.binary style.op s left right) = t.visitRun style s left right := by
  cases style <;> rfl

/-- Entering a node that is no operator of a run, no member access and no region does nothing. -/
theorem enter_eq_self (t : Trace) (hstyle : runStyle? n = none) (hregion : isRegion n = false)
    (hmember : ∀ optional, n.kind ≠ .member optional) : t.enter n = t := by
  cases n with
  | mk kind span children =>
    cases kind with
    | binary op =>
      change t.visit .binary (.mk (.binary op) span children) = t
      unfold visit
      split
      · rename_i heq
        cases heq
        change ChainStyle.ofOp? op = none at hstyle
        rw [hstyle]
      all_goals simp_all
    | member optional => exact absurd rfl (hmember optional)
    | argument spread => cases spread <;> first | rfl | cases hregion
    | jsx form => cases form <;> first | rfl | cases hregion
    | template | spread => cases hregion
    | _ => rfl

theorem dueSearch?_of_run (hout : around.any isRegion = false) (hstyle : runStyle? n = some style) :
    dueSearch? around n = if around.head?.bind runStyle? = some style then none
      else some (.run style (n.flatten style)) := by
  rw [dueSearch?, hout, hstyle]
  rfl

/-- On entering an operator of a run outside every region, either the run goes on and nothing
happens, or the run is searched and its other operators are marked. -/
theorem Ready.enter_run {s : Span} {left right : Node}
    (h : t.Ready around (.binary style.op s left right))
    (hnests : (Node.binary style.op s left right).Nests) (hout : around.any isRegion = false) :
    (t.enter (.binary style.op s left right)).skipped = t.skipped ∧
      (t.enter (.binary style.op s left right)).searches =
        t.searches ++ (dueSearch? around (.binary style.op s left right)).toList ∧
      (∀ k ∈ (t.enter (.binary style.op s left right)).consumed,
        k ∈ t.consumed ∨ k ∈ nestedSpans style left ++ nestedSpans style right) ∧
      nestedSpans style left ++ nestedSpans style right ⊆
        (t.enter (.binary style.op s left right)).consumed := by
  have hstyle : runStyle? (.binary style.op s left right) = some style :=
    runStyle?_eq_some.2 ⟨s, left, right, rfl⟩
  have hpos : 0 < s.length := (hnests.parts.longer rfl).1
  have hskipped : t.isSkipped s = false := h.isSkipped_eq_false hpos
  have hmarked : s ∈ t.consumed ↔ _ := h.mem_consumed_iff hpos hstyle
  rw [enter_binary, visitRun, hskipped, Bool.or_false, dueSearch?_of_run hout hstyle]
  by_cases houter : around.head?.bind runStyle? = some style
  · rw [if_pos (List.contains_iff_mem.2 (hmarked.2 houter)), if_pos houter]
    refine ⟨rfl, (List.append_nil _).symm, fun _ hk ↦ .inl hk, fun k hk ↦ h.marked ?_⟩
    refine mem_continued_iff.2 ⟨style, hstyle, houter, ?_⟩
    rw [nestedSpans_binary]
    exact List.mem_cons_of_mem s hk
  · rw [if_neg (fun hmem ↦ houter (hmarked.1 (List.contains_iff_mem.1 hmem))), if_neg houter]
    refine ⟨rfl, ?_, fun k hk ↦ ?_, fun k hk ↦ ?_⟩
    · rw [flatten_binary]
      rfl
    · rwa [search, List.append_assoc, List.mem_append] at hk
    · rw [search, List.append_assoc]
      exact List.mem_append_right _ hk

/-- On entering any other node outside every region the marks stay. -/
theorem Ready.enter_other (h : t.Ready around n) (hnests : n.Nests) (hregion : isRegion n = false)
    (hout : around.any isRegion = false) (hstyle : runStyle? n = none) :
    t.enter n = { t with searches := t.searches ++ (dueSearch? around n).toList } := by
  rw [dueSearch?, hout, hstyle]
  by_cases hmember : ∃ optional, n.kind = .member optional
  · obtain ⟨optional, hkind⟩ := hmember
    cases n with
    | mk kind span children =>
      change kind = _ at hkind
      subst hkind
      have hskipped := h.isSkipped_eq_false (hnests.parts.longer rfl).1
      exact if_neg (by rw [hskipped]; exact Bool.false_ne_true)
  · rw [enter_eq_self t hstyle hregion fun optional hkind ↦ hmember ⟨optional, hkind⟩]
    dsimp only
    split
    · contradiction
    · split
      · rename_i hkind
        exact absurd ⟨_, hkind⟩ hmember
      · rw [Option.toList_none, List.append_nil]

theorem Ready.searches_enter (h : t.Ready around n) (hnests : n.Nests)
    (hregion : isRegion n = false) (hout : around.any isRegion = false) :
    (t.enter n).searches = t.searches ++ (dueSearch? around n).toList := by
  cases hstyle : runStyle? n with
  | none => rw [h.enter_other hnests hregion hout hstyle]
  | some style =>
    obtain ⟨s, left, right, rfl⟩ := runStyle?_eq_some.1 hstyle
    exact (h.enter_run hnests hout).2.1

/-- Marks that are ready for an operator of a run are ready for its operands once it is entered. -/
theorem Ready.operand {s : Span} {left right m : Node}
    (h : t.Ready around (.binary style.op s left right))
    (hnests : (Node.binary style.op s left right).Nests) (hout : around.any isRegion = false)
    (hm : m ∈ (Node.binary style.op s left right).visitedParts) :
    (t.enter (.binary style.op s left right)).Ready
      (.binary style.op s left right :: around) m := by
  have hstyle : runStyle? (.binary style.op s left right) = some style :=
    runStyle?_eq_some.2 ⟨s, left, right, rfl⟩
  have hrun : continued (.binary style.op s left right :: around) m = nestedSpans style m := by
    rw [continued, List.head?_cons, Option.bind_some, hstyle]
  have hwithin : m.span.within s = true := hnests.parts.within m hm
  obtain ⟨hmem, hvisits⟩ := Node.mem_visitedParts_iff.1 hm
  obtain ⟨hskipped, -, hconsumed, hnested⟩ := h.enter_run hnests hout
  have hbelow : ∀ k ∈ nestedSpans style left ++ nestedSpans style right,
      k.Apart m.span ∨ m.span.Inside k ∨ k ∈ nestedSpans style m := fun k hk ↦
    (apart_or_mem_nestedSpans hnests hk hmem hvisits).imp_right .inr
  refine ⟨fun r hr ↦ ?_, fun k hk ↦ ?_, fun k hk ↦ hnested ?_⟩
  · rw [hskipped] at hr
    exact (h.skipped r hr).of_within hwithin
  · rw [hrun]
    obtain hk | hk := hconsumed k hk
    · obtain hapart | hinside | houter := h.consumed k hk
      · exact .inl (hapart.of_within hwithin)
      · exact .inr (.inl (hinside.of_within hwithin))
      · obtain ⟨style', hstyle', -, hk⟩ := mem_continued_iff.1 houter
        obtain rfl : style = style' := Option.some.inj (hstyle.symm.trans hstyle')
        rw [nestedSpans_binary] at hk
        obtain rfl | hk := List.mem_cons.1 hk
        · exact .inr (.inl ((hnests.parts.longer rfl).2 m hmem))
        · exact hbelow k hk
    · exact hbelow k hk
  · rw [hrun] at hk
    obtain rfl | hlast := List.mem_cons.1 hmem
    · exact List.mem_append_left _ hk
    · obtain rfl := List.mem_singleton.1 hlast
      exact List.mem_append_right _ hk

/-- Once a node outside every region is entered, the marks are ready for its parts. -/
theorem Ready.part (h : t.Ready around n) (hnests : n.Nests) (hregion : isRegion n = false)
    (hout : around.any isRegion = false) {m : Node} (hm : m ∈ n.visitedParts) :
    (t.enter n).Ready (n :: around) m := by
  cases hstyle : runStyle? n with
  | none =>
    have hwithin := hnests.parts.within m hm
    rw [h.enter_other hnests hregion hout hstyle]
    refine ⟨fun r hr ↦ (h.skipped r hr).of_within hwithin, fun k hk ↦ ?_, fun k hk ↦ ?_⟩
    · obtain hapart | hinside | hrun := h.consumed k hk
      · exact .inl (hapart.of_within hwithin)
      · exact .inr (.inl (hinside.of_within hwithin))
      · obtain ⟨style, hsome, -⟩ := mem_continued_iff.1 hrun
        cases hstyle.symm.trans hsome
    · obtain ⟨style, -, hsome, -⟩ := mem_continued_iff.1 hk
      cases hstyle.symm.trans hsome
  | some style =>
    obtain ⟨s, left, right, rfl⟩ := runStyle?_eq_some.1 hstyle
    exact h.operand hnests hout hm

/-- A walk through parts that lie apart searches what is to be searched in each of them. -/
theorem searches_foldl {parts : List Node}
    (hpart : ∀ m ∈ parts, m.Nests ∧ ∀ u : Trace, u.Ready around m →
      (m.afterVisits visit u).searches = u.searches ++ dueSearchesIn around m)
    (hapart : parts.Pairwise fun l r ↦ l.span.Apart r.span)
    (hready : ∀ m ∈ parts, t.Ready around m) :
    (parts.foldl (Node.afterVisits visit) t).searches =
      t.searches ++ parts.flatMap (dueSearchesIn around) := by
  induction parts generalizing t with
  | nil => exact (List.append_nil _).symm
  | cons m ms ih =>
    obtain ⟨⟨hnests, hm⟩, hms⟩ := List.forall_mem_cons.1 hpart
    obtain ⟨hfirst, hrest⟩ := List.pairwise_cons.1 hapart
    obtain ⟨hmready, hmsready⟩ := List.forall_mem_cons.1 hready
    have hnext : ∀ l ∈ ms, (m.afterVisits visit t).Ready around l := fun l hl ↦
      (hmsready l hl).grows (grows_afterVisits t hnests) (hfirst l hl)
    rw [List.foldl_cons, ih hms hrest hnext, hm t hmready, List.flatMap_cons, List.append_assoc]

/-- A walk through a region searches nothing. -/
theorem searches_afterVisits_of_isRegion (hnests : n.Nests) (hregion : isRegion n = true) :
    (n.afterVisits visit t).searches = t.searches := by
  have hskipped : (t.enter n).isSkipped n.span = true := by
    rw [enter_of_isRegion t hregion]
    exact isSkipped_iff.2 ⟨n.span, List.mem_append_right _ List.mem_cons_self, Span.within_refl _⟩
  rw [searches_afterVisits_of_isSkipped_enter hnests hskipped, enter_of_isRegion t hregion]
  rfl

/-- A walk through a tree outside every region searches what is to be searched in it. -/
theorem searches_afterVisits (hnests : n.Nests) (hready : t.Ready around n)
    (hout : around.any isRegion = false) :
    (n.afterVisits visit t).searches = t.searches ++ dueSearchesIn around n := by
  induction n using Node.induction_parts generalizing t around with
  | step kind span children ih =>
    rw [dueSearchesIn_eq]
    by_cases hregion : isRegion (.mk kind span children) = true
    · have hparts : ∀ m, dueSearchesIn (.mk kind span children :: around) m = [] :=
        dueSearchesIn_of_region (by rw [List.any_cons, hregion, Bool.true_or])
      rw [searches_afterVisits_of_isRegion hnests hregion, dueSearch?_of_isRegion around hregion]
      simp [hparts]
    · have hregion := eq_false_of_ne_true hregion
      have hout' : (Node.mk kind span children :: around).any isRegion = false := by
        rw [List.any_cons, hregion, hout, Bool.or_false]
      rw [afterVisits_eq_foldl, searches_foldl ?_ hnests.parts.apart
        fun m ↦ hready.part hnests hregion hout, hready.searches_enter hnests hregion hout,
        List.append_assoc]
      intro m hm
      have hmem := (Node.mem_visitedParts_iff.1 hm).1
      have hpart := hnests.of_mem_children hmem
      exact ⟨hpart, fun u hu ↦ ih m hmem hpart hu hout'⟩

theorem ready_nil (n : Node) : Ready {} [] n where
  skipped := List.forall_mem_nil _
  consumed := List.forall_mem_nil _
  marked := List.nil_subset _

theorem searches_ofProgram {program : Node} (hnests : program.Nests) :
    (ofProgram program).searches = dueSearches program :=
  searches_afterVisits hnests (ready_nil program) rfl

end Trace

/-! ## The operands of a run -/

theorem mem_preorder_of_mem_places {around : List Node} {n : Node} {place : List Node × Node}
    (h : place ∈ n.places around) : place.2 ∈ n.preorder := by
  induction n using Node.induction_parts generalizing around with
  | step kind span children ih =>
    rw [Node.places, Node.placesAll_eq_flatMap] at h
    rw [Node.preorder, Node.preorderAll_eq_flatMap]
    obtain rfl | h := List.mem_cons.1 h
    · exact List.mem_cons_self
    · obtain ⟨m, hm, hplace⟩ := List.mem_flatMap.1 h
      exact List.mem_cons_of_mem _ (List.mem_flatMap.2 ⟨m, hm, ih m hm hplace⟩)

theorem runStyle?_of_dueSearch? {around : List Node} {n : Node} {style : ChainStyle}
    {operands : List Node} (h : dueSearch? around n = some (.run style operands)) :
    runStyle? n = some style ∧ operands = n.flatten style := by
  unfold dueSearch? at h
  split at h
  · cases h
  · split at h
    · rename_i hstyle
      split at h
      · cases h
      · cases h
        exact ⟨hstyle, rfl⟩
    · split at h <;> cases h

/-- No operand of a run is itself of its operator. -/
theorem runStyle?_ne_of_mem_flatten {style : ChainStyle} {n m : Node} (h : m ∈ n.flatten style) :
    runStyle? m ≠ some style := by
  induction n using runInduction style with
  | operand n hstyle =>
    rw [flatten_eq_singleton hstyle] at h
    rwa [List.mem_singleton.1 h]
  | operator s left right ihleft ihright =>
    rw [flatten_binary] at h
    exact (List.mem_append.1 h).elim ihleft ihright

/-- The operands of a run lie in it one after the other. -/
theorem pairwise_flatten (style : ChainStyle) {n : Node} (hnests : n.Nests) (horder : n.InOrder) :
    (∀ m ∈ n.flatten style, m.span.within n.span = true) ∧
      (n.flatten style).Pairwise fun l r ↦ l.span.hi ≤ r.span.lo := by
  induction n using runInduction style with
  | operand n hstyle =>
    rw [flatten_eq_singleton hstyle]
    exact ⟨List.forall_mem_singleton.2 (Span.within_refl _), List.pairwise_singleton _ _⟩
  | operator s left right ihleft ihright =>
    have hparts : ∀ m ∈ [left, right], m.Nests ∧ m.InOrder := fun m hm ↦
      ⟨hnests.of_mem_children hm, fun k hk ↦
        horder k (Node.preorder_subset_of_mem_children hm hk)⟩
    obtain ⟨hleft, hpleft⟩ := (hparts left (by simp)).elim ihleft
    obtain ⟨hright, hpright⟩ := (hparts right (by simp)).elim ihright
    have hwithin : ∀ m ∈ [left, right], m.span.within s = true :=
      fun m hm ↦ ((hnests.parts.longer rfl).2 m hm).1
    have hfirst : left.span.hi ≤ right.span.lo :=
      of_decide_eq_true (horder _ (Node.self_mem_preorder _))
    rw [flatten_binary]
    refine ⟨List.forall_mem_append.2 ⟨fun k hk ↦ ?_, fun k hk ↦ ?_⟩,
      List.pairwise_append.2 ⟨hpleft, hpright, fun l hl r hr ↦ ?_⟩⟩
    · exact Span.within_trans (hleft k hk) (hwithin left (by simp))
    · exact Span.within_trans (hright k hk) (hwithin right (by simp))
    · have hl := (Span.within_iff.1 (hleft l hl)).2
      have hr := (Span.within_iff.1 (hright r hr)).1
      omega

/-! ## Coverage -/

theorem of_mem_dueSearches {program : Node} (hnests : program.Nests) {style : ChainStyle}
    {operands : List Node} (h : .run style operands ∈ dueSearches program) :
    (∀ m ∈ operands, runStyle? m ≠ some style) ∧
      (program.InOrder → operands.Pairwise fun l r ↦ l.span.hi ≤ r.span.lo) := by
  obtain ⟨⟨around, n⟩, hplace, hsearch⟩ := List.mem_filterMap.1 h
  obtain ⟨-, rfl⟩ := runStyle?_of_dueSearch? hsearch
  have hn : n ∈ program.preorder := mem_preorder_of_mem_places hplace
  refine ⟨fun m ↦ runStyle?_ne_of_mem_flatten, fun horder ↦ ?_⟩
  exact (pairwise_flatten style (hnests.of_mem_preorder hn)
    fun m hm ↦ horder m (Node.preorder_subset_of_mem hn hm)).2

theorem checkProgram?_of_nests {program : Node} (hnests : program.Nests) (c : Context) :
    checkProgram? c program = c.searchReports? (dueSearches program) := by
  rw [checkProgram?_eq, Trace.searches_ofProgram hnests]

/-- The walk is stopped exactly if there is something to report whose report cannot be made. -/
theorem walk_eq_stop_iff {program : Node} (hnests : program.Nests) (c : Context) :
    program.walk (visitor c) (some {}) = .stop none ↔
      ∃ x ∈ (dueSearches program).flatMap c.findings, c.diagnosticOf? x = none := by
  rw [walk_visitor, Trace.walker, Trace.state?, Trace.searches_ofProgram hnests,
    ← mapM_eq_none_iff, Context.searchReports?]
  cases ((dueSearches program).flatMap c.findings).mapM c.diagnosticOf? <;> simp [Walker.flow]

/-- Where spans nest, the diagnostics are those of what the finder gives in the runs that are to be
searched and of the fallbacks on the accesses that are: the runs from an operator that is no operand
of the same operator, and the member accesses, each once and in the order of the walk, that do not
stand in a region. The same goes for what is noted. A run is searched with all its operands, and
these come in the order of the text if those of every operator do. All this is searched, unless a
report of it cannot be made: this stops the walk, and nothing is reported. -/
theorem walk_searches_runs_once {program : Node} (hnests : program.Nests) (c : Context) :
    (checkProgram? c program).map (·.diagnostics) =
        ((dueSearches program).flatMap fun
          | .run style operands =>
            (ChainFinder.find ⟨c.file, style, c.oracle, c.options⟩ operands).map Finding.chain
          | .access n =>
            ((Fallback.of? n).filter
              fun b ↦ b.verdict c.oracle c.options ≠ .disqualified).toList.map
                (Finding.fallback n)).mapM c.diagnosticOf? ∧
      (∀ r, checkProgram? c program = some r → r.events = (dueSearches program).flatMap c.notes) ∧
      (program.walk (visitor c) (some {}) = .stop none ↔
        ∃ x ∈ (dueSearches program).flatMap c.findings, c.diagnosticOf? x = none) ∧
      ∀ style operands, .run style operands ∈ dueSearches program →
        (∀ m ∈ operands, runStyle? m ≠ some style) ∧
          (program.InOrder → operands.Pairwise fun l r ↦ l.span.hi ≤ r.span.lo) := by
  have hcheck := checkProgram?_of_nests hnests c
  refine ⟨?_, fun r hr ↦ ?_, walk_eq_stop_iff hnests c, fun _ _ ↦ of_mem_dueSearches hnests⟩
  · rw [hcheck, Context.searchReports?, Option.map_map]
    exact congrFun Option.map_id _
  · rw [hcheck] at hr
    obtain ⟨ds, -, rfl⟩ := Option.map_eq_some_iff.1 hr
    rfl

/-- The texts of the nodes that are searched together. -/
def Search.texts (f : SourceFile) : Search → List String
  | .run _ operands => operands.map fun n ↦ String.ofList (f.slice n.span)
  | .access n => [String.ofList (f.slice n.span)]

/-- A file in which no types are known. -/
def Context.ofText (text : String) : Context :=
  ⟨.ofText "a.ts" text.toList, .untyped, {}⟩

def mixedRuns : Context :=
  .ofText "a && (b || c.d) && `$\x7be && e.f\x7d` && g != null && g.h;"

def mixedProgram : Node :=
  mixedRuns.file.program?.get (by decide +kernel)

def shiftedRuns : Context :=
  .ofText "\uFEFF (foo ?? \x7b\x7d).bar; a && a.b;"

def shiftedProgram : Node :=
  shiftedRuns.file.program?.get (by decide +kernel)

/-- The run of `&&` has five operands, the last two of which are a chain. The run in parentheses and
the access in it are searched, and nothing is in the template. After a byte-order mark the first
report cuts into the mark, which stops the walk before the run is searched. -/
theorem mixed_runs_searched_once :
    mixedProgram.Nests ∧ mixedProgram.InOrder ∧
      (dueSearches mixedProgram).map (Search.texts mixedRuns.file) =
        [["a", "(b || c.d)", "`$\x7be && e.f\x7d`", "g != null", "g.h"], ["b", "c.d"], ["c.d"],
          ["g.h"]] ∧
      ((checkProgram? mixedRuns mixedProgram).map (·.diagnostics)).map (·.map (·.suggestion?)) =
        some [some "Replace with 'g?.h'"] ∧
      shiftedProgram.Nests ∧ (dueSearches shiftedProgram).length = 3 ∧
      shiftedProgram.walk (visitor shiftedRuns) (some {}) = .stop none := by
  have hmixed : mixedProgram.Nests := by decide +kernel
  have hshifted : shiftedProgram.Nests := by decide +kernel
  obtain ⟨hdiagnostics, -⟩ := walk_searches_runs_once hmixed mixedRuns
  obtain ⟨-, -, hstop, -⟩ := walk_searches_runs_once hshifted shiftedRuns
  refine ⟨hmixed, by decide +kernel, by decide +kernel, ?_, hshifted, by decide +kernel,
    hstop.2 (mapM_eq_none_iff.1 (Option.isNone_iff_eq_none.1 (by decide +kernel)))⟩
  rw [hdiagnostics]
  decide +kernel

end OptionalChain.PreferOptionalChain
