import OptionalChain.Node.Walk

/-!
# Walks as folds

A walk is a fold over the visits of the tree, in which a visit does nothing once the walk was
stopped. A visitor that never stops is shown every visit once and in order.
-/

namespace OptionalChain.Node

/-! ## Induction over a tree -/

mutual

/-- What holds of a node whenever it holds of its parts holds of every node. -/
theorem induction_parts {P : Node → Prop}
    (step : ∀ kind span children, (∀ m ∈ children, P m) → P (mk kind span children)) :
    ∀ n : Node, P n
  | .mk kind span children => step kind span children (induction_partsAll step children)

theorem induction_partsAll {P : Node → Prop}
    (step : ∀ kind span children, (∀ m ∈ children, P m) → P (mk kind span children)) :
    ∀ ns : List Node, ∀ m ∈ ns, P m
  | [] => List.forall_mem_nil P
  | n :: ns => List.forall_mem_cons.2 ⟨induction_parts step n, induction_partsAll step ns⟩

end

/-! ## The visits of a tree -/

theorem preorderAll_eq_flatMap (ns : List Node) : preorderAll ns = ns.flatMap preorder := by
  induction ns with
  | nil => rfl
  | cons n ns ih => rw [preorderAll, ih, List.flatMap_cons]

/-- A node is visited before what stands below it. -/
theorem visits_mk (kind : Kind) (span : Span) (children : List Node) :
    (mk kind span children).visits =
      (kind.hook?.map fun hook ↦ (hook, mk kind span children)).toList ++
        children.flatMap visits := by
  have hkind : (mk kind span children).kind = kind := rfl
  rw [visits, preorder, preorderAll_eq_flatMap, List.filterMap_cons, List.filterMap_flatMap, hkind]
  cases kind.hook? <;> rfl

theorem visits_subset_of_mem {kind : Kind} {span : Span} {children : List Node} {n : Node}
    (hn : n ∈ children) : n.visits ⊆ (mk kind span children).visits := by
  intro v hv
  rw [visits_mk]
  exact List.mem_append_right _ (List.mem_flatMap.2 ⟨n, hn, hv⟩)

/-! ## Folds -/

variable {σ : Type} (step : Hook → Node → σ → σ)

/-- The state after every visit of a tree. -/
def afterVisits (s : σ) (n : Node) : σ :=
  n.visits.foldl (fun s v ↦ step v.1 v.2 s) s

theorem afterVisits_mk (s : σ) (kind : Kind) (span : Span) (children : List Node) :
    afterVisits step s (mk kind span children) =
      children.foldl (afterVisits step)
        (match kind.hook? with
          | none => s
          | some hook => step hook (mk kind span children) s) := by
  rw [afterVisits, visits_mk, List.foldl_append, List.foldl_flatMap]
  cases kind.hook? <;> rfl

end OptionalChain.Node

/-! ## Walks -/

namespace OptionalChain

variable {σ : Type}

namespace Walker

variable (visit : Visitor σ)

/-- The visitor is shown one more node, unless it has asked to stop. -/
def next (w : Walker σ) (v : Hook × Node) : Walker σ :=
  if w.stopped then w
  else
    match visit v.1 v.2 w.state with
    | .stop s => ⟨s, true⟩
    | .go s => { w with state := s }

theorem foldl_next_of_stopped {w : Walker σ} (h : w.stopped = true) (vs : List (Hook × Node)) :
    vs.foldl (next visit) w = w := by
  induction vs with
  | nil => rfl
  | cons v vs ih => rw [List.foldl_cons, next, if_pos h, ih]

end Walker

namespace Node

mutual

/-- A stopped walk that comes back to parents and goes on to their other parts shows nothing there,
so it is a fold over the visits. -/
theorem walkFrom_eq_foldl (visit : Visitor σ) : ∀ (n : Node) (w : Walker σ),
    n.walkFrom visit w = n.visits.foldl (Walker.next visit) w
  | .mk kind span children, w => by
    rw [visits_mk, List.foldl_append, walkFrom]
    cases kind.hook? with
    | none => exact walkAllFrom_eq_foldl visit children w
    | some hook =>
      rw [Option.map_some, Option.toList_some, List.foldl_cons, List.foldl_nil, Walker.next]
      by_cases hstopped : w.stopped = true
      · simp only [if_pos hstopped]
        exact (Walker.foldl_next_of_stopped visit hstopped _).symm
      · simp only [if_neg hstopped]
        cases visit hook (mk kind span children) w.state with
        | stop s => exact (Walker.foldl_next_of_stopped visit rfl _).symm
        | go s => exact walkAllFrom_eq_foldl visit children { w with state := s }

theorem walkAllFrom_eq_foldl (visit : Visitor σ) : ∀ (ns : List Node) (w : Walker σ),
    walkAllFrom visit ns w = (ns.flatMap visits).foldl (Walker.next visit) w
  | [], w => rfl
  | n :: ns, w => by
    rw [walkAllFrom, walkFrom_eq_foldl visit n w, walkAllFrom_eq_foldl visit ns,
      List.flatMap_cons, List.foldl_append]

end

theorem walk_eq_foldl (visit : Visitor σ) (n : Node) (s : σ) :
    n.walk visit s = (n.visits.foldl (Walker.next visit) { state := s }).flow := by
  rw [walk, walkFrom_eq_foldl]

end Node

end OptionalChain
