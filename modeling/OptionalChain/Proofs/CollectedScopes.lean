import Mathlib.Data.List.Nodup
import Mathlib.Data.List.Pairwise
import OptionalChain.Proofs.NestedSpans

/-!
# Scopes by their spans

A binding is kept with the span of the function, constructor or block around it, and a name is
looked up by the shortest span that reaches over its position. Where the spans that reach over a
position are those of the nodes around it, each shorter than the next, this finds the nearest node
around the position that has a binding of the name.
-/

namespace OptionalChain

/-! ## Names of patterns -/

/-- A name and where it is written. -/
abbrev Site := String × Nat

def Binding.site (b : Binding) : Site := (b.name, b.pos)

namespace Node

mutual

/-- The names that a pattern binds. -/
def patternSites : Node → List Site
  | mk (.pattern (.name x _)) span _ => [(x, span.lo)]
  | mk (.pattern .withDefault) _ [inner, _] => inner.patternSites
  | mk (.pattern .shorthand) _ (mk (.pattern (.name x _)) span _ :: _) => [(x, span.lo)]
  | mk (.pattern .property) _ [_, inner] => inner.patternSites
  | mk (.pattern .rest) _ (inner :: _) => inner.patternSites
  | mk (.pattern .array) _ items | mk (.pattern .object) _ items => patternSitesAll items
  | _ => []

def patternSitesAll : List Node → List Site
  | [] => []
  | n :: ns => n.patternSites ++ patternSitesAll ns

end

def parameterSites : Node → List Site
  | mk (.classMember .parameterProperty) _ [n] => n.patternSites
  | n => n.patternSites

def declaratorSites : Node → List Site
  | mk (.statement .declarator) _ [pattern, _] => pattern.patternSites
  | _ => []

/-- The bindings are those of the names, in the scope. -/
def BindsIn (scope : Span) (bs : List Binding) (sites : List Site) : Prop :=
  bs.map (fun b ↦ (b.site, b.scope)) = sites.map (·, scope)

theorem BindsIn.append {scope : Span} {bs bs' : List Binding} {sites sites' : List Site}
    (h : BindsIn scope bs sites) (h' : BindsIn scope bs' sites') :
    BindsIn scope (bs ++ bs') (sites ++ sites') := by
  unfold BindsIn at *
  rw [List.map_append, List.map_append, h, h']

theorem BindsIn.flatMap {scope : Span} {f : Node → List Binding} {g : Node → List Site}
    (ns : List Node) (h : ∀ n ∈ ns, BindsIn scope (f n) (g n)) :
    BindsIn scope (ns.flatMap f) (ns.flatMap g) := by
  induction ns with
  | nil => rfl
  | cons n ns ih =>
    obtain ⟨hn, hns⟩ := List.forall_mem_cons.1 h
    exact hn.append (ih hns)

theorem BindsIn.mem_iff {scope : Span} {bs : List Binding} {sites : List Site}
    (h : BindsIn scope bs sites) {site : Site} : site ∈ bs.map (·.site) ↔ site ∈ sites := by
  have hsites : bs.map (·.site) = sites := by
    have := congrArg (List.map Prod.fst) h
    simpa [Function.comp_def] using this
  rw [hsites]

theorem BindsIn.scope_eq {scope : Span} {bs : List Binding} {sites : List Site}
    (h : BindsIn scope bs sites) {b : Binding} (hb : b ∈ bs) : b.scope = scope := by
  have hmem := List.mem_map_of_mem (f := fun b : Binding ↦ (b.site, b.scope)) hb
  rw [h] at hmem
  obtain ⟨site, -, heq⟩ := List.mem_map.1 hmem
  exact (congrArg Prod.snd heq).symm

theorem bindsIn_bindingsAll {scope : Span} (ns : List Node)
    (h : ∀ n ∈ ns, ∀ value widen, BindsIn scope (bindings scope value widen n) n.patternSites) :
    BindsIn scope (bindingsAll scope ns) (patternSitesAll ns) := by
  induction ns with
  | nil => rfl
  | cons n ns ih =>
    obtain ⟨hn, hns⟩ := List.forall_mem_cons.1 h
    rw [bindingsAll, patternSitesAll]
    exact (hn .absent true).append (ih hns)

theorem bindsIn_bindings (scope : Span) (value : Node) (widen : Bool) (n : Node) :
    BindsIn scope (bindings scope value widen n) n.patternSites := by
  induction n using induction_parts generalizing value widen with
  | step kind s cs ih =>
    cases kind
    case pattern form =>
      cases form
      case name => rfl
      case withDefault =>
        rcases cs with _ | ⟨inner, _ | ⟨fallback, _ | ⟨_, _⟩⟩⟩
        all_goals try rfl
        exact ih inner List.mem_cons_self fallback true
      case shorthand =>
        obtain _ | ⟨⟨kind, _, _⟩, _⟩ := cs
        · rfl
        cases kind
        case pattern form =>
          cases form
          all_goals rfl
        all_goals rfl
      case property =>
        rcases cs with _ | ⟨_, _ | ⟨inner, _ | ⟨_, _⟩⟩⟩
        all_goals try rfl
        exact ih inner (List.mem_cons_of_mem _ List.mem_cons_self) .absent true
      case rest =>
        obtain _ | ⟨inner, _⟩ := cs
        · rfl
        · exact ih inner List.mem_cons_self .absent true
      case array | object => exact bindsIn_bindingsAll cs fun n hn value widen ↦ ih n hn value widen
    all_goals rfl

theorem bindsIn_parameterBindings (scope : Span) (n : Node) :
    BindsIn scope (n.parameterBindings scope) n.parameterSites := by
  fun_cases parameterBindings scope n
  · exact bindsIn_bindings scope .absent true _
  · rw [parameterSites]
    · exact bindsIn_bindings scope .absent true n
    · assumption

theorem bindsIn_declaratorBindings (scope : Span) (widen : Bool) (n : Node) :
    BindsIn scope (n.declaratorBindings scope widen) n.declaratorSites := by
  fun_cases declaratorBindings scope widen n
  · exact bindsIn_bindings scope _ widen _
  · rw [declaratorSites]
    · rfl
    · assumption

/-! ## The bindings of a scope -/

def nameSites (n : Node) : List Site :=
  n.identName?.toList.map (·, n.span.lo)

end Node

/-- Whether what is declared inside is kept with the span of the node. -/
def Kind.isFrame : Kind → Bool
  | .function | .arrow | .classMember .constructor | .statement .block => true
  | _ => false

def Fact.binding? : Fact → Option Binding
  | .binding b => some b
  | _ => none

namespace Node

/-- The names that a node declares itself. -/
def ownSites : Kind → List Node → List Site
  | .statement (.bindings _), decls => decls.flatMap declaratorSites
  | .statement .function, [name, _] | .statement .classDecl, [name, _] => name.nameSites
  | .function, params :: _ | .arrow, params :: _ | .classMember .constructor, params :: _ =>
    params.children.flatMap parameterSites
  | _, _ => []

/-- The bindings that a node declares itself. -/
def ownBindings (scope : Span) (kind : Kind) (span : Span) (cs : List Node) : List Binding :=
  (ownFacts scope kind span cs).filterMap Fact.binding?

mutual

/-- The bindings that a node adds to the scope it stands in. -/
def collected (scope : Span) : Node → List Binding
  | mk kind span cs =>
    if kind.isFrame then []
    else ownBindings scope kind span cs ++ if kind.isClosed then [] else collectedAll scope cs

def collectedAll (scope : Span) : List Node → List Binding
  | [] => []
  | n :: ns => n.collected scope ++ collectedAll scope ns

end

/-- Whether the node has bindings of its own: a frame, or the program. -/
def isScope (n : Node) : Bool :=
  n.kind.isFrame || n.kind = .statement .program

/-- The span that the bindings of a scope are kept with. -/
def scopeSpan (n : Node) : Span :=
  if n.kind.isFrame then n.span else programScope

/-- The bindings of a scope. -/
def introduced (n : Node) : List Binding :=
  if n.isScope then
    ownBindings n.scopeSpan n.kind n.span n.children ++ collectedAll n.scopeSpan n.children
  else []

/-- Whether the scope has a binding of the name. -/
def collects (x : String) (n : Node) : Bool :=
  n.introduced.any (·.name == x)

mutual

/-- The nodes that are searched for declarations. -/
def searched : Node → List Node
  | mk kind span cs => mk kind span cs :: if kind.isClosed then [] else searchedAll cs

def searchedAll : List Node → List Node
  | [] => []
  | n :: ns => n.searched ++ searchedAll ns

end

theorem collectedAll_eq_flatMap (scope : Span) (ns : List Node) :
    collectedAll scope ns = ns.flatMap (collected scope) := by
  induction ns with
  | nil => rfl
  | cons n ns ih => rw [collectedAll, ih, List.flatMap_cons]

theorem searchedAll_eq_flatMap (ns : List Node) : searchedAll ns = ns.flatMap searched := by
  induction ns with
  | nil => rfl
  | cons n ns ih => rw [searchedAll, ih, List.flatMap_cons]

theorem factsAll_eq_flatMap (scope : Span) (ns : List Node) :
    factsAll scope ns = ns.flatMap (facts scope) := by
  induction ns with
  | nil => rfl
  | cons n ns ih => rw [factsAll, ih, List.flatMap_cons]

variable {scope : Span} {kind : Kind} {span : Span} {cs : List Node} {n m : Node} {b : Binding}

theorem not_isClosed_of_isFrame (h : kind.isFrame = true) : kind.isClosed = false := by
  cases kind
  case classMember form => rfl
  case statement form => cases form <;> first | rfl | cases h
  all_goals first | rfl | cases h

theorem scopeInside_eq :
    scopeInside scope kind span = if kind.isFrame then span else scope := by
  cases kind
  case classMember form => cases form <;> rfl
  case statement form => cases form <;> rfl
  all_goals rfl

theorem filterMap_map_binding (bs : List Binding) :
    (bs.map Fact.binding).filterMap Fact.binding? = bs := by
  rw [List.filterMap_map]
  exact List.filterMap_some

theorem bindsIn_named (name : Node) (declared : Declared) :
    BindsIn scope ((name.identName?.toList.map fun x ↦
      Fact.binding ⟨x, scope, name.span.lo, declared⟩).filterMap Fact.binding?) name.nameSites := by
  unfold nameSites
  cases name.identName? <;> rfl

theorem bindsIn_parameters (params : Node) :
    BindsIn span (((params.children.flatMap (parameterBindings span)).map
      Fact.binding).filterMap Fact.binding?) (params.children.flatMap parameterSites) := by
  rw [filterMap_map_binding]
  exact .flatMap params.children fun n _ ↦ bindsIn_parameterBindings span n

/-- A frame declares its parameters, and these in its own scope. -/
theorem bindsIn_ownBindings :
    BindsIn (if kind.isFrame then span else scope) (ownBindings scope kind span cs)
      (ownSites kind cs) := by
  unfold ownBindings
  cases kind
  case function | arrow =>
    obtain _ | ⟨params, _⟩ := cs
    · rfl
    · exact bindsIn_parameters params
  case classMember form =>
    cases form
    case constructor =>
      obtain _ | ⟨params, _⟩ := cs
      · rfl
      · exact bindsIn_parameters params
    all_goals rfl
  case classExpr =>
    rcases cs with _ | ⟨_, _ | ⟨_, _ | ⟨_, _⟩⟩⟩
    all_goals rfl
  case statement form =>
    cases form
    case bindings constant =>
      change BindsIn scope (((cs.flatMap (declaratorBindings scope !constant)).map
        Fact.binding).filterMap Fact.binding?) (cs.flatMap declaratorSites)
      rw [filterMap_map_binding]
      exact .flatMap cs fun n _ ↦ bindsIn_declaratorBindings scope _ n
    case function =>
      rcases cs with _ | ⟨name, _ | ⟨f, _ | ⟨_, _⟩⟩⟩
      all_goals try rfl
      exact bindsIn_named name _
    case classDecl =>
      rcases cs with _ | ⟨name, _ | ⟨body, _ | ⟨_, _⟩⟩⟩
      all_goals try rfl
      change BindsIn scope ((_ ++ [Fact.classDef _ _ _]).filterMap Fact.binding?) name.nameSites
      rw [List.filterMap_append]
      change BindsIn scope (_ ++ []) _
      rw [List.append_nil]
      exact bindsIn_named name .classObject
    case interface =>
      rcases cs with _ | ⟨name, _ | ⟨_, _ | ⟨_, _ | ⟨_, _ | ⟨_, _⟩⟩⟩⟩⟩
      all_goals try rfl
      simp only [ownFacts]
      cases name.identName? <;> rfl
    case typeAlias =>
      rcases cs with _ | ⟨name, _ | ⟨_, _ | ⟨_, _ | ⟨_, _⟩⟩⟩⟩
      all_goals try rfl
      simp only [ownFacts]
      cases name.identName? <;> rfl
    all_goals rfl
  all_goals rfl

theorem ownBindings_of_isFrame (h : kind.isFrame = true) (scope : Span) :
    ownBindings scope kind span cs = ownBindings span kind span cs := by
  cases kind
  case function | arrow => cases cs <;> rfl
  case classMember form =>
    cases form
    case constructor => cases cs <;> rfl
    all_goals cases h
  case statement form =>
    cases form
    case block => rfl
    all_goals cases h
  all_goals cases h

/-! ## All bindings of a program -/

theorem scope_of_mem_collected (h : b ∈ n.collected scope) : b.scope = scope := by
  induction n using induction_parts with
  | step kind span cs ih =>
    rw [collected] at h
    split at h
    · cases h
    rename_i hframe
    obtain h | h := List.mem_append.1 h
    · have hscope := bindsIn_ownBindings.scope_eq h
      rwa [if_neg hframe] at hscope
    · split at h
      · cases h
      · rw [collectedAll_eq_flatMap] at h
        obtain ⟨m, hm, h⟩ := List.mem_flatMap.1 h
        exact ih m hm h

theorem scope_of_mem_introduced (h : b ∈ n.introduced) : b.scope = n.scopeSpan := by
  obtain ⟨kind, span, cs⟩ := n
  unfold introduced at h
  split at h
  · obtain h | h := List.mem_append.1 h
    · have hscope := bindsIn_ownBindings.scope_eq h
      change b.scope = if kind.isFrame then span else programScope
      change b.scope = if kind.isFrame then span else (mk kind span cs).scopeSpan at hscope
      rw [hscope]
      split
      · rfl
      · rename_i hframe
        exact if_neg hframe
    · rw [collectedAll_eq_flatMap] at h
      obtain ⟨m, -, h⟩ := List.mem_flatMap.1 h
      exact scope_of_mem_collected h
  · cases h

theorem introduced_of_isFrame (h : kind.isFrame = true) :
    (mk kind span cs).introduced = ownBindings span kind span cs ++ collectedAll span cs := by
  have hscope : (mk kind span cs).isScope = true := Bool.or_eq_true_iff.2 (.inl h)
  have hspan : (mk kind span cs).scopeSpan = span := if_pos h
  rw [introduced, if_pos hscope, hspan]
  rfl

/-- A binding in the scope of the program, or in that of a frame among the nodes. -/
def BoundAmong (b : Binding) (outer : List Binding) (ns : List Node) : Prop :=
  b ∈ outer ∨ ∃ m ∈ ns, m.kind.isFrame = true ∧ b ∈ m.introduced

theorem boundAmong_flatMap {f : Node → List Binding} {g : Node → List Node} (ns : List Node) :
    BoundAmong b (ns.flatMap f) (ns.flatMap g) ↔ ∃ n ∈ ns, BoundAmong b (f n) (g n) := by
  simp only [BoundAmong, List.mem_flatMap]
  constructor
  · rintro (⟨n, hn, hb⟩ | ⟨m, ⟨n, hn, hm⟩, hframe, hb⟩)
    · exact ⟨n, hn, .inl hb⟩
    · exact ⟨n, hn, .inr ⟨m, hm, hframe, hb⟩⟩
  · rintro ⟨n, hn, hb | ⟨m, hm, hframe, hb⟩⟩
    · exact .inl ⟨n, hn, hb⟩
    · exact .inr ⟨m, ⟨n, hn, hm⟩, hframe, hb⟩

theorem boundAmong_cons {outer : List Binding} {ns : List Node} :
    BoundAmong b outer (n :: ns) ↔
      n.kind.isFrame = true ∧ b ∈ n.introduced ∨ BoundAmong b outer ns := by
  unfold BoundAmong
  rw [← or_assoc, or_comm (b := b ∈ outer), or_assoc]
  simp

/-- The bindings that are found below a node are those it adds to the scope around it and those of
the frames in it. -/
theorem mem_bindings_facts (scope : Span) (n : Node) :
    b ∈ (n.facts scope).filterMap Fact.binding? ↔
      BoundAmong b (n.collected scope) n.searched := by
  induction n using induction_parts generalizing scope with
  | step kind span cs ih =>
    have hparts (scope : Span) : b ∈ (factsAll scope cs).filterMap Fact.binding? ↔
        BoundAmong b (collectedAll scope cs) (searchedAll cs) := by
      rw [factsAll_eq_flatMap, collectedAll_eq_flatMap, searchedAll_eq_flatMap,
        boundAmong_flatMap, List.filterMap_flatMap, List.mem_flatMap]
      exact exists_congr fun n ↦ and_congr_right fun hn ↦ ih n hn scope
    rw [facts, List.filterMap_append, List.mem_append, scopeInside_eq, collected, searched]
    change b ∈ ownBindings scope kind span cs ∨ _ ↔ _
    have hkind : (mk kind span cs).kind = kind := rfl
    by_cases hframe : kind.isFrame = true
    · have hclosed : ¬kind.isClosed = true := by simp [not_isClosed_of_isFrame hframe]
      rw [if_pos hframe, if_pos hframe, if_neg hclosed, if_neg hclosed, hparts, boundAmong_cons,
        introduced_of_isFrame hframe, ownBindings_of_isFrame hframe scope]
      simp [BoundAmong, hkind, hframe, or_assoc]
    · rw [if_neg hframe, if_neg hframe, boundAmong_cons]
      by_cases hclosed : kind.isClosed = true
      · simp [hclosed, hframe, BoundAmong, hkind]
      · rw [if_neg hclosed, if_neg hclosed, if_neg hclosed, hparts]
        simp [BoundAmong, hkind, hframe, or_assoc]

/-- No scope of the list stands in a closed node. -/
def Opened (around : List Node) : Prop :=
  around.Pairwise fun n m ↦ n.isScope = true → m.kind.isClosed = false

instance (around : List Node) : Decidable (Opened around) :=
  inferInstanceAs (Decidable (List.Pairwise _ _))

/-- The scopes around a place that are not in a closed node are searched. -/
theorem exists_inner_of_mem_places {around : List Node} {place : List Node × Node}
    (h : place ∈ n.places around) :
    ∃ inner, place.1 = inner ++ around ∧
      (Opened place.1 → ∀ m ∈ inner, m.isScope = true → m ∈ n.searched) := by
  induction n using induction_parts generalizing around with
  | step kind span cs ih =>
    rw [places, placesAll_eq_flatMap] at h
    obtain rfl | h := List.mem_cons.1 h
    · exact ⟨[], rfl, fun _ ↦ List.forall_mem_nil _⟩
    obtain ⟨k, hk, h⟩ := List.mem_flatMap.1 h
    obtain ⟨inner, heq, hmem⟩ := ih k hk h
    refine ⟨inner ++ [mk kind span cs], by simp [heq], fun hopen m hm hscope ↦ ?_⟩
    rw [searched]
    obtain hm | hm := List.mem_append.1 hm
    · have hclosed : kind.isClosed = false := by
        have hpairs := hopen
        unfold Opened at hpairs
        rw [heq] at hpairs
        exact (List.pairwise_append.1 hpairs).2.2 m hm _ List.mem_cons_self hscope
      rw [hclosed, if_neg Bool.false_ne_true, searchedAll_eq_flatMap]
      exact List.mem_cons_of_mem _ (List.mem_flatMap.2 ⟨k, hk, hmem hopen m hm hscope⟩)
    · rw [List.mem_singleton.1 hm]
      exact List.mem_cons_self

/-- Only the node itself has nothing around it. -/
theorem eq_or_mem_of_mem_places {place : List Node × Node} (h : place ∈ n.places []) :
    place = ([], n) ∨ n ∈ place.1 := by
  obtain ⟨kind, span, cs⟩ := n
  rw [places, placesAll_eq_flatMap] at h
  obtain rfl | h := List.mem_cons.1 h
  · exact .inl rfl
  · obtain ⟨k, -, h⟩ := List.mem_flatMap.1 h
    obtain ⟨inner, heq, -⟩ := exists_inner_of_mem_places h
    rw [heq]
    exact .inr (List.mem_append_right _ List.mem_cons_self)

theorem searched_subset_preorder (n : Node) : n.searched ⊆ n.preorder := by
  induction n using induction_parts with
  | step kind span cs ih =>
    rw [searched, preorder, preorderAll_eq_flatMap]
    refine List.cons_subset_cons _ fun m hm ↦ ?_
    split at hm
    · cases hm
    · rw [searchedAll_eq_flatMap] at hm
      obtain ⟨k, hk, hm⟩ := List.mem_flatMap.1 hm
      exact List.mem_flatMap.2 ⟨k, hk, ih k hk hm⟩

end Node

/-! ## Lookup -/

namespace Declarations

variable {d : Declarations} {x : String} {pos : Nat} {b : Binding}

/-- The binding is one of the name and reaches over the position. -/
def Reaches (d : Declarations) (x : String) (pos : Nat) (b : Binding) : Prop :=
  b ∈ d.bindings ∧ b.name = x ∧ b.scope.has pos = true

theorem not_reaches_of_lookup (h : d.lookup x pos = none) (b : Binding) : ¬d.Reaches x pos b := by
  rintro ⟨hb, hname, hpos⟩
  unfold lookup at h
  extract_lets visible at h
  have hvisible : b ∈ visible := List.mem_filter.2 ⟨hb, by simp [hname, hpos]⟩
  split at h
  · rename_i hmin
    rw [List.min?_eq_none_iff, List.map_eq_nil_iff] at hmin
    rw [hmin] at hvisible
    cases hvisible
  · rename_i least hmin
    -- A binding with the least scope is near.
    obtain ⟨hmem, -⟩ := List.min?_eq_some_iff.1 hmin
    obtain ⟨c, hc, hlength⟩ := List.mem_map.1 hmem
    extract_lets near at h
    have hnear : c ∈ near := List.mem_filter.2 ⟨hc, by simp [hlength]⟩
    rw [Option.orElse_eq_orElse, Option.orElse_eq_or, Option.or_eq_none_iff,
      List.head?_eq_none_iff] at h
    rw [h.2] at hnear
    cases hnear

/-- What is found has the shortest scope. -/
theorem reaches_of_lookup (h : d.lookup x pos = some b) :
    d.Reaches x pos b ∧ ∀ c, d.Reaches x pos c → b.scope.length ≤ c.scope.length := by
  unfold lookup at h
  extract_lets visible at h
  split at h
  · cases h
  rename_i least hmin
  extract_lets near at h
  have hnear : b ∈ near := by
    rw [Option.orElse_eq_orElse, Option.orElse_eq_or, Option.or_eq_some_iff] at h
    obtain h | ⟨-, h⟩ := h
    · exact List.mem_of_mem_filter (List.mem_of_getLast? h)
    · exact List.mem_of_mem_head? h
  obtain ⟨hvisible, hlength⟩ := List.mem_filter.1 hnear
  obtain ⟨hb, hreach⟩ := List.mem_filter.1 hvisible
  obtain ⟨hname, hpos⟩ := Bool.and_eq_true_iff.1 hreach
  refine ⟨⟨hb, eq_of_beq hname, hpos⟩, fun c ⟨hc, hcname, hcpos⟩ ↦ ?_⟩
  have hcvisible : c ∈ visible := List.mem_filter.2 ⟨hc, by simp [hcname, hcpos]⟩
  rw [eq_of_beq hlength]
  exact (List.min?_eq_some_iff.1 hmin).2 _ (List.mem_map_of_mem hcvisible)

end Declarations

/-! ## The nearest scope -/

namespace Node

/-- The position lies in the scopes of `around`, the nearest first, each shorter than the next, and
in no other frame of the program. -/
structure Framed (program : Node) (around : List Node) (pos : Nat) : Prop where
  opened : Opened around
  reached : ∀ n ∈ around, n.isScope = true → n.scopeSpan.has pos = true
  shorter : around.Pairwise fun n m ↦
    n.isScope = true → m.isScope = true → n.scopeSpan.length < m.scopeSpan.length
  only : ∀ m ∈ program.preorder, m.kind.isFrame = true → m.span.has pos = true →
    ∃ n ∈ around, n.kind.isFrame = true ∧ n.span = m.span
  distinct : ((program.preorder.filter (·.kind.isFrame)).map span).Nodup

theorem framed_iff {program : Node} {around : List Node} {pos : Nat} :
    program.Framed around pos ↔ Opened around ∧
      (∀ n ∈ around, n.isScope = true → n.scopeSpan.has pos = true) ∧
      (around.Pairwise fun n m ↦
        n.isScope = true → m.isScope = true → n.scopeSpan.length < m.scopeSpan.length) ∧
      (∀ m ∈ program.preorder, m.kind.isFrame = true → m.span.has pos = true →
        ∃ n ∈ around, n.kind.isFrame = true ∧ n.span = m.span) ∧
      ((program.preorder.filter (·.kind.isFrame)).map span).Nodup :=
  ⟨fun h ↦ ⟨h.opened, h.reached, h.shorter, h.only, h.distinct⟩,
    fun h ↦ ⟨h.1, h.2.1, h.2.2.1, h.2.2.2.1, h.2.2.2.2⟩⟩

instance (program : Node) (around : List Node) (pos : Nat) :
    Decidable (program.Framed around pos) :=
  decidable_of_iff' _ framed_iff

variable {program : Node} {place : List Node × Node} {pos : Nat} {x : String} {n m : Node}
  {b : Binding}

theorem isScope_of_isFrame (h : n.kind.isFrame = true) : n.isScope = true :=
  Bool.or_eq_true_iff.2 (.inl h)

/-- Scopes that lie in each other differ in length. -/
theorem Framed.eq_of_length_eq {around : List Node} (h : program.Framed around pos)
    (hn : n ∈ around) (hm : m ∈ around) (hn' : n.isScope = true) (hm' : m.isScope = true)
    (hlength : n.scopeSpan.length = m.scopeSpan.length) : n = m := by
  by_contra hne
  have : Std.Symm fun n m : Node ↦ n.isScope = true → m.isScope = true →
      n.scopeSpan.length ≠ m.scopeSpan.length := ⟨fun _ _ h hm hn ↦ (h hn hm).symm⟩
  have hpairs : around.Pairwise fun n m ↦ n.isScope = true → m.isScope = true →
      n.scopeSpan.length ≠ m.scopeSpan.length :=
    h.shorter.imp fun h hn hm ↦ Nat.ne_of_lt (h hn hm)
  exact hpairs.forall hn hm hne hn' hm' hlength

theorem isScope_of_mem_introduced (h : b ∈ n.introduced) : n.isScope = true := by
  by_contra hscope
  rw [introduced, if_neg hscope] at h
  cases h

theorem collects_iff : n.collects x = true ↔ ∃ b ∈ n.introduced, b.name = x := by
  simp [collects]

theorem introduced_program (h : program.kind = .statement .program) :
    program.introduced = program.collected programScope := by
  obtain ⟨kind, span, cs⟩ := program
  cases h
  rfl

section Around

variable {around : List Node} (hroot : program.kind = .statement .program)
  (hself : program ∈ around) (hsearched : ∀ n ∈ around, n.isScope = true → n ∈ program.searched)
  (hframed : program.Framed around pos)

include hroot hself hsearched hframed

/-- The bindings that reach over the position are those of the scopes around it. -/
theorem reaches_iff :
    (Declarations.ofProgram program).Reaches x pos b ↔
      ∃ n ∈ around, b ∈ n.introduced ∧ b.name = x := by
  have hbindings : b ∈ (Declarations.ofProgram program).bindings ↔
      BoundAmong b program.introduced program.searched := by
    rw [introduced_program hroot]
    exact mem_bindings_facts programScope program
  have hframe_mem {n : Node} (h : n ∈ program.searched) (hframe : n.kind.isFrame = true) :
      n ∈ program.preorder.filter (·.kind.isFrame) :=
    List.mem_filter.2 ⟨searched_subset_preorder program h, hframe⟩
  constructor
  · rintro ⟨hb, hname, hpos⟩
    obtain hb | ⟨m, hm, hframe, hb⟩ := hbindings.1 hb
    · exact ⟨program, hself, hb, hname⟩
    have hspan : m.scopeSpan = m.span := if_pos hframe
    rw [scope_of_mem_introduced hb, hspan] at hpos
    obtain ⟨n, hn, hframe', heq⟩ :=
      hframed.only m (searched_subset_preorder program hm) hframe hpos
    have hnm : n = m := List.inj_on_of_nodup_map hframed.distinct
      (hframe_mem (hsearched n hn (isScope_of_isFrame hframe')) hframe') (hframe_mem hm hframe) heq
    exact ⟨n, hn, hnm ▸ hb, hname⟩
  · rintro ⟨n, hn, hb, hname⟩
    have hscope := isScope_of_mem_introduced hb
    refine ⟨hbindings.2 ?_, hname, scope_of_mem_introduced hb ▸ hframed.reached n hn hscope⟩
    by_cases hframe : n.kind.isFrame = true
    · exact .inr ⟨n, hsearched n hn hscope, hframe, hb⟩
    · have hframe' : ¬program.kind.isFrame = true := by simp [hroot, Kind.isFrame]
      have hspan : n.scopeSpan = program.scopeSpan := (if_neg hframe).trans (if_neg hframe').symm
      have hscope' : program.isScope = true := by simp [isScope, hroot]
      have hprogram : n = program :=
        hframed.eq_of_length_eq hn hself hscope hscope' (congrArg Span.length hspan)
      exact .inl (hprogram ▸ hb)

/-- The nearest scope around the position that has a binding of the name tells what is found. -/
theorem rel_lookup :
    Option.Rel (fun n b ↦ b ∈ n.introduced ∧ b.name = x) (around.find? (collects x))
      ((Declarations.ofProgram program).lookup x pos) := by
  have hreaches {b : Binding} := reaches_iff (x := x) (b := b) hroot hself hsearched hframed
  cases hfind : around.find? (collects x) with
  | none =>
    rw [List.find?_eq_none] at hfind
    cases hlookup : (Declarations.ofProgram program).lookup x pos with
    | none => exact .none
    | some b =>
      obtain ⟨n, hn, hb⟩ := hreaches.1 (Declarations.reaches_of_lookup hlookup).1
      exact (hfind n hn (collects_iff.2 ⟨b, hb⟩)).elim
  | some n =>
    obtain ⟨hn, nearer, farther, rfl, hnearer⟩ := List.find?_eq_some_iff_append.1 hfind
    obtain ⟨c, hc⟩ := collects_iff.1 hn
    have hreach := hreaches.2 ⟨n, by simp, hc⟩
    cases hlookup : (Declarations.ofProgram program).lookup x pos with
    | none => exact (Declarations.not_reaches_of_lookup hlookup c hreach).elim
    | some b =>
      obtain ⟨hb, hleast⟩ := Declarations.reaches_of_lookup hlookup
      obtain ⟨m, hm, hmb⟩ := hreaches.1 hb
      have hlength := hleast c hreach
      rw [scope_of_mem_introduced hmb.1, scope_of_mem_introduced hc.1] at hlength
      -- A scope farther out would be longer, and the nearer ones do not have the name.
      obtain hm | hm := List.mem_append.1 hm
      · have := hnearer m hm
        simp [collects_iff.2 ⟨b, hmb⟩] at this
      obtain rfl | hm := List.mem_cons.1 hm
      · exact .some hmb
      · have hpairs := (List.pairwise_append.1 hframed.shorter).2.1
        have hlt := List.rel_of_pairwise_cons hpairs hm (isScope_of_mem_introduced hc.1)
          (isScope_of_mem_introduced hmb.1)
        omega

end Around

end Node

end OptionalChain
