import OptionalChain.Proofs.Searches

/-!
# Spans that nest

What a walk needs of the places of nodes: parts in which something is visited lie inside their node
and apart from each other, and an operation is longer than its parts. What the walk is then to
search is said by the tree alone: the runs of `&&` or `||` from their outermost node, and the member
accesses, that do not stand in a template, a spread or a container.
-/

namespace OptionalChain

namespace Span

/-- Neither span reaches into the other. -/
def Apart (s t : Span) : Prop :=
  s.hi ≤ t.lo ∨ t.hi ≤ s.lo

instance (s t : Span) : Decidable (s.Apart t) :=
  inferInstanceAs (Decidable (_ ∨ _))

theorem within_iff {s outer : Span} :
    s.within outer = true ↔ outer.lo ≤ s.lo ∧ s.hi ≤ outer.hi := by
  simp [within]

variable {s t u : Span}

theorem Apart.symm (h : s.Apart t) : t.Apart s :=
  Or.symm h

theorem Apart.of_within (h : s.Apart t) (hu : u.within t = true) : s.Apart u := by
  rw [within_iff] at hu
  unfold Apart at *
  omega

/-- A span that is not empty does not lie in one that it is apart from. -/
theorem Apart.within_eq_false (h : s.Apart t) (hpos : 0 < t.length) : t.within s = false := by
  rw [← Bool.not_eq_true, within_iff]
  unfold Apart length at *
  omega

/-- The span lies in `outer` and is shorter. -/
def Inside (s outer : Span) : Prop :=
  s.within outer = true ∧ s.length < outer.length

instance (s outer : Span) : Decidable (s.Inside outer) :=
  inferInstanceAs (Decidable (_ ∧ _))

theorem Inside.of_within (h : s.Inside t) (hu : u.within s = true) : u.Inside t := by
  obtain ⟨hwithin, hlength⟩ := h
  refine ⟨within_trans hu hwithin, ?_⟩
  rw [within_iff] at hu
  unfold length at *
  omega

end Span

namespace Node

/-! ## Nodes whose parts nest -/

/-- The parts in which something is visited. -/
def visitedParts (n : Node) : List Node :=
  n.children.filter fun m ↦ !m.visits.isEmpty

/-- Whether a node is an operator with two operands or a member access. -/
def isOperation (n : Node) : Bool :=
  match n.kind with
  | .binary _ | .member _ => true
  | _ => false

/-- The parts of the node lie inside it and apart from each other, and an operation is longer than
each part. A part of any other node in which nothing is visited, such as a name, may lie
anywhere. -/
structure NestsParts (n : Node) : Prop where
  within : ∀ m ∈ n.visitedParts, m.span.within n.span = true
  apart : n.visitedParts.Pairwise fun l r ↦ l.span.Apart r.span
  longer : n.isOperation = true → 0 < n.span.length ∧ ∀ m ∈ n.children, m.span.Inside n.span

theorem nestsParts_iff {n : Node} :
    n.NestsParts ↔ (∀ m ∈ n.visitedParts, m.span.within n.span = true) ∧
      (n.visitedParts.Pairwise fun l r ↦ l.span.Apart r.span) ∧
      (n.isOperation = true →
        0 < n.span.length ∧ ∀ m ∈ n.children, m.span.Inside n.span) :=
  ⟨fun h ↦ ⟨h.within, h.apart, h.longer⟩, fun h ↦ ⟨h.1, h.2.1, h.2.2⟩⟩

instance (n : Node) : Decidable n.NestsParts :=
  decidable_of_iff' _ nestsParts_iff

/-- Every node of the tree nests its parts. -/
def Nests (n : Node) : Prop :=
  ∀ m ∈ n.preorder, m.NestsParts

instance (n : Node) : Decidable n.Nests :=
  inferInstanceAs (Decidable (∀ m ∈ n.preorder, m.NestsParts))

variable {n m : Node}

theorem mem_visitedParts_iff : m ∈ n.visitedParts ↔ m ∈ n.children ∧ m.visits ≠ [] := by
  simp [visitedParts, List.mem_filter]

theorem self_mem_preorder (n : Node) : n ∈ n.preorder := by
  cases n with
  | mk kind span children => exact List.mem_cons_self

theorem preorder_subset_of_mem_children (hm : m ∈ n.children) : m.preorder ⊆ n.preorder := by
  cases n with
  | mk kind span children =>
    intro k hk
    rw [preorder, preorderAll_eq_flatMap]
    exact List.mem_cons_of_mem _ (List.mem_flatMap.2 ⟨m, hm, hk⟩)

theorem preorder_subset_of_mem (hm : m ∈ n.preorder) : m.preorder ⊆ n.preorder := by
  induction n using induction_parts with
  | step kind span children ih =>
    rw [preorder, preorderAll_eq_flatMap] at hm
    obtain rfl | hm := List.mem_cons.1 hm
    · exact fun _ hk ↦ hk
    · obtain ⟨k, hk, hmk⟩ := List.mem_flatMap.1 hm
      exact fun _ hl ↦ preorder_subset_of_mem_children hk (ih k hk hmk hl)

theorem Nests.parts (h : n.Nests) : n.NestsParts :=
  h n n.self_mem_preorder

theorem Nests.of_mem_preorder (h : n.Nests) (hm : m ∈ n.preorder) : m.Nests :=
  fun k hk ↦ h k (preorder_subset_of_mem hm hk)

theorem Nests.of_mem_children (h : n.Nests) (hm : m ∈ n.children) : m.Nests :=
  fun k hk ↦ h k (preorder_subset_of_mem_children hm hk)

theorem Nests.within_of_mem_children (h : n.Nests) (hm : m ∈ n.children) (hvisits : m.visits ≠ []) :
    m.span.within n.span = true :=
  h.parts.within m (mem_visitedParts_iff.2 ⟨hm, hvisits⟩)

/-- Whether the left operand of an operator ends before the right one starts. -/
def leftFirst : Node → Bool
  | .binary _ _ left right => left.span.hi ≤ right.span.lo
  | _ => true

/-- The operands of every operator of the tree stand in the order of the text. -/
def InOrder (n : Node) : Prop :=
  ∀ m ∈ n.preorder, m.leftFirst = true

instance (n : Node) : Decidable n.InOrder :=
  inferInstanceAs (Decidable (∀ m ∈ n.preorder, m.leftFirst = true))

theorem visits_ne_nil (h : n.kind.hook? ≠ none) : n.visits ≠ [] := by
  cases n with
  | mk kind span children =>
    obtain ⟨hook, hhook⟩ := Option.ne_none_iff_exists'.1 h
    have hkind : kind.hook? = some hook := hhook
    rw [visits_mk, hkind]
    exact List.cons_ne_nil _ _

end Node

namespace PreferOptionalChain

/-! ## Runs -/

/-- The style of a run that the node is an operator of. -/
def runStyle? : Node → Option ChainStyle
  | .binary op _ _ _ => ChainStyle.ofOp? op
  | _ => none

variable {style : ChainStyle} {n : Node}

theorem ofOp?_eq_some {op : BinaryOp} : ChainStyle.ofOp? op = some style ↔ op = style.op := by
  cases op <;> cases style <;> simp [ChainStyle.ofOp?, ChainStyle.op]

theorem runStyle?_eq_some :
    runStyle? n = some style ↔ ∃ s left right, n = .binary style.op s left right := by
  constructor
  · intro h
    unfold runStyle? at h
    split at h
    · rename_i op s left right
      rw [ofOp?_eq_some.1 h]
      exact ⟨s, left, right, rfl⟩
    · cases h
  · rintro ⟨s, left, right, rfl⟩
    exact ofOp?_eq_some.2 rfl

/-- What holds of the operands of a run and of an operator if it holds of both its sides holds of
every node. -/
theorem runInduction (style : ChainStyle) {motive : Node → Prop}
    (operand : ∀ n, runStyle? n ≠ some style → motive n)
    (operator : ∀ s left right, motive left → motive right →
      motive (.binary style.op s left right))
    (n : Node) : motive n := by
  induction n using Node.induction_parts with
  | step kind span children ih =>
    by_cases hstyle : runStyle? (.mk kind span children) = some style
    · obtain ⟨s, left, right, heq⟩ := runStyle?_eq_some.1 hstyle
      cases heq
      exact operator span left right (ih left (by simp)) (ih right (by simp))
    · exact operand _ hstyle

theorem nestedSpans_binary (style : ChainStyle) (s : Span) (left right : Node) :
    nestedSpans style (.binary style.op s left right) =
      s :: (nestedSpans style left ++ nestedSpans style right) := by
  simp [nestedSpans]

theorem nestedSpans_eq_nil (h : runStyle? n ≠ some style) : nestedSpans style n = [] := by
  unfold nestedSpans
  split
  · rename_i op s left right
    exact if_neg fun hop ↦ h (ofOp?_eq_some.2 hop)
  · rfl

theorem flatten_binary (style : ChainStyle) (s : Span) (left right : Node) :
    Node.flatten style (.binary style.op s left right) =
      left.flatten style ++ right.flatten style := by
  simp [Node.flatten]

theorem flatten_eq_singleton (h : runStyle? n ≠ some style) : n.flatten style = [n] := by
  unfold Node.flatten
  split
  · rename_i op s left right
    exact if_neg fun hop ↦ h (ofOp?_eq_some.2 hop)
  · rfl

theorem visits_ne_nil_of_mem_nestedSpans {k : Span} (h : k ∈ nestedSpans style n) :
    n.visits ≠ [] := by
  by_cases hstyle : runStyle? n = some style
  · obtain ⟨s, left, right, rfl⟩ := runStyle?_eq_some.1 hstyle
    exact Node.visits_ne_nil (Option.some_ne_none _)
  · rw [nestedSpans_eq_nil hstyle] at h
    cases h

/-- The operators of a run lie inside it. -/
theorem within_of_mem_nestedSpans (hnests : n.Nests) {k : Span} (h : k ∈ nestedSpans style n) :
    k.within n.span = true := by
  induction n using runInduction style with
  | operand n hstyle =>
    rw [nestedSpans_eq_nil hstyle] at h
    cases h
  | operator s left right ihleft ihright =>
    have hpart : ∀ m ∈ [left, right], (m.Nests → k ∈ nestedSpans style m →
        k.within m.span = true) → k ∈ nestedSpans style m → k.within s = true :=
      fun m hm ih hk ↦ Span.within_trans (ih (hnests.of_mem_children hm) hk)
        (hnests.within_of_mem_children hm (visits_ne_nil_of_mem_nestedSpans hk))
    rw [nestedSpans_binary, List.mem_cons, List.mem_append] at h
    obtain rfl | hleft | hright := h
    · exact Span.within_refl k
    · exact hpart left (by simp) ihleft hleft
    · exact hpart right (by simp) ihright hright

/-- Two parts of an operator in which something is visited lie apart. -/
theorem apart_of_nests {op : BinaryOp} {s : Span} {left right : Node}
    (hnests : (Node.binary op s left right).Nests) (hleft : left.visits ≠ [])
    (hright : right.visits ≠ []) : left.span.Apart right.span := by
  have hparts : (Node.binary op s left right).visitedParts = [left, right] := by
    simp [Node.visitedParts, Node.children, hleft, hright]
  have hapart := hnests.parts.apart
  rw [hparts] at hapart
  exact (List.pairwise_cons.1 hapart).1 right List.mem_cons_self

/-- The operators of a run below its outermost one lie apart from an operand or belong to it. -/
theorem apart_or_mem_nestedSpans {s : Span} {left right m : Node} {k : Span}
    (hnests : (Node.binary style.op s left right).Nests)
    (hk : k ∈ nestedSpans style left ++ nestedSpans style right)
    (hm : m ∈ [left, right]) (hvisits : m.visits ≠ []) :
    k.Apart m.span ∨ k ∈ nestedSpans style m := by
  have hapart : ∀ l ∈ [left, right], k ∈ nestedSpans style l → l.span.Apart m.span →
      k.Apart m.span := by
    intro l hl hk hapart
    have hwithin := within_of_mem_nestedSpans (hnests.of_mem_children hl) hk
    exact (hapart.symm.of_within hwithin).symm
  obtain hleft | hright := List.mem_append.1 hk
  · obtain rfl | hm := List.mem_cons.1 hm
    · exact .inr hleft
    · obtain rfl := List.mem_singleton.1 hm
      have hlv := visits_ne_nil_of_mem_nestedSpans hleft
      exact .inl (hapart left (by simp) hleft (apart_of_nests hnests hlv hvisits))
  · obtain rfl | hm := List.mem_cons.1 hm
    · have hrv := visits_ne_nil_of_mem_nestedSpans hright
      exact .inl (hapart right (by simp) hright (apart_of_nests hnests hvisits hrv).symm)
    · obtain rfl := List.mem_singleton.1 hm
      exact .inr hright

/-- The spans at which the run around a node goes on, from the node on. -/
def continued (around : List Node) (n : Node) : List Span :=
  match around.head?.bind runStyle? with
  | some style => nestedSpans style n
  | none => []

theorem mem_continued_iff {around : List Node} {k : Span} :
    k ∈ continued around n ↔ ∃ style, runStyle? n = some style ∧
      around.head?.bind runStyle? = some style ∧ k ∈ nestedSpans style n := by
  unfold continued
  cases around.head?.bind runStyle? with
  | none => simp
  | some outer =>
    dsimp only
    refine ⟨fun hk ↦ ⟨outer, ?_, rfl, hk⟩, ?_⟩
    · by_cases hstyle : runStyle? n = some outer
      · exact hstyle
      · rw [nestedSpans_eq_nil hstyle] at hk
        cases hk
    · rintro ⟨style, -, heq, hk⟩
      cases heq
      exact hk

/-! ## What is to be searched -/

/-- Whether the node is left alone with all that stands in it: a template, a spread argument,
element or property, or a container or spread child of markup. -/
def isRegion (n : Node) : Bool :=
  match n.kind with
  | .template | .argument true | .spread | .jsx .container | .jsx .spreadChild => true
  | _ => false

/-- What is to be searched at a node that stands in the nodes `around`, the nearest first. A run is
searched from an operator that is not an operand of the same operator. -/
def dueSearch? (around : List Node) (n : Node) : Option Search :=
  if around.any isRegion then none
  else
    match runStyle? n with
    | some style =>
      if around.head?.bind runStyle? = some style then none
      else some (.run style (n.flatten style))
    | none =>
      match n.kind with
      | .member _ => some (.access n)
      | _ => none

end PreferOptionalChain

namespace Node

mutual

/-- The node and all nodes below it, parents first, each with the nodes that it stands in. -/
def places (around : List Node) : Node → List (List Node × Node)
  | .mk kind span children =>
    (around, .mk kind span children) :: placesAll (.mk kind span children :: around) children

def placesAll (around : List Node) : List Node → List (List Node × Node)
  | [] => []
  | n :: ns => n.places around ++ placesAll around ns

end

theorem placesAll_eq_flatMap (around ns : List Node) :
    placesAll around ns = ns.flatMap (places around) := by
  induction ns with
  | nil => rfl
  | cons n ns ih => rw [placesAll, ih, List.flatMap_cons]

end Node

namespace PreferOptionalChain

/-- What is to be searched in a tree that stands in the nodes `around`. -/
def dueSearchesIn (around : List Node) (n : Node) : List Search :=
  (n.places around).filterMap fun place ↦ dueSearch? place.1 place.2

/-- What is to be searched in a program, in the order of the walk. -/
def dueSearches (program : Node) : List Search :=
  dueSearchesIn [] program

theorem dueSearchesIn_mk (around : List Node) (kind : Kind) (span : Span) (children : List Node) :
    dueSearchesIn around (.mk kind span children) =
      (dueSearch? around (.mk kind span children)).toList ++
        children.flatMap (dueSearchesIn (.mk kind span children :: around)) := by
  rw [dueSearchesIn, Node.places, Node.placesAll_eq_flatMap, List.filterMap_cons,
    List.filterMap_flatMap]
  cases dueSearch? around (.mk kind span children) <;> rfl

/-- Nothing is to be searched in a region. -/
theorem dueSearchesIn_of_region {around : List Node} (h : around.any isRegion = true) (n : Node) :
    dueSearchesIn around n = [] := by
  induction n using Node.induction_parts generalizing around with
  | step kind span children ih =>
    rw [dueSearchesIn_mk, dueSearch?, if_pos h]
    refine List.flatMap_eq_nil_iff.2 fun m hm ↦ ih m hm ?_
    rw [List.any_cons, h, Bool.or_true]

theorem hook?_ne_none_of_dueSearch? {around : List Node} {x : Search}
    (h : dueSearch? around n = some x) : n.kind.hook? ≠ none := by
  unfold dueSearch? at h
  split at h
  · cases h
  · split at h
    · rename_i style hstyle
      obtain ⟨s, left, right, rfl⟩ := runStyle?_eq_some.1 hstyle
      exact Option.some_ne_none _
    · split at h
      · rename_i hkind
        rw [hkind]
        exact Option.some_ne_none _
      · cases h

/-- Nothing is to be searched where nothing is visited. -/
theorem dueSearchesIn_of_visits_eq_nil (around : List Node) (h : n.visits = []) :
    dueSearchesIn around n = [] := by
  induction n using Node.induction_parts generalizing around with
  | step kind span children ih =>
    have hself : dueSearch? around (.mk kind span children) = none := by
      refine Option.eq_none_iff_forall_ne_some.2 fun x hx ↦ ?_
      exact Node.visits_ne_nil (hook?_ne_none_of_dueSearch? hx) h
    rw [dueSearchesIn_mk, hself]
    refine List.flatMap_eq_nil_iff.2 fun m hm ↦ ih m hm _ ?_
    exact List.eq_nil_of_subset_nil (h ▸ Node.visits_subset_of_mem hm)

/-- What is to be searched at a node comes before what is to be searched in its parts. -/
theorem dueSearchesIn_eq (around : List Node) (n : Node) :
    dueSearchesIn around n =
      (dueSearch? around n).toList ++ n.visitedParts.flatMap (dueSearchesIn (n :: around)) := by
  have hparts : ∀ ms : List Node, ms.flatMap (dueSearchesIn (n :: around)) =
      (ms.filter fun m ↦ !m.visits.isEmpty).flatMap (dueSearchesIn (n :: around)) := by
    intro ms
    induction ms with
    | nil => rfl
    | cons m ms ih =>
      rw [List.flatMap_cons, ih]
      cases hvisits : m.visits with
      | nil => simp [hvisits, dueSearchesIn_of_visits_eq_nil _ hvisits]
      | cons => simp [hvisits]
  cases n with
  | mk kind span children =>
    rw [dueSearchesIn_mk, hparts]
    rfl

theorem dueSearch?_of_isRegion (around : List Node) (h : isRegion n = true) :
    dueSearch? around n = none := by
  cases n with
  | mk kind span children =>
    unfold isRegion at h
    split at h
    case h_6 => cases h
    all_goals
      rename_i hkind
      change kind = _ at hkind
      subst hkind
      exact ite_self none

end PreferOptionalChain

end OptionalChain
