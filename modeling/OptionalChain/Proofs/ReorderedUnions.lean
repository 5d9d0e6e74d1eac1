import Mathlib.Data.List.Forall2
import OptionalChain.Typing.Declaration

/-!
# Unions in another order

Two programs are compared that differ only in the order of the members of their unions. Every node
has its counterpart, with the same kind and span, and so has everything that is declared.
-/

open scoped List Relator

namespace OptionalChain

/-! ## Lists without their order -/

/-- Every element of each list has a related one in the other. -/
structure Matches {α β : Type} (R : α → β → Prop) (xs : List α) (ys : List β) : Prop where
  left : ∀ x ∈ xs, ∃ y ∈ ys, R x y
  right : ∀ y ∈ ys, ∃ x ∈ xs, R x y

namespace Matches

variable {α β γ δ : Type} {R : α → β → Prop} {S : γ → δ → Prop}
  {xs xs' : List α} {ys ys' : List β}

theorem nil : Matches R [] [] :=
  ⟨fun _ hx ↦ absurd hx List.not_mem_nil, fun _ hy ↦ absurd hy List.not_mem_nil⟩

theorem append (h : Matches R xs ys) (h' : Matches R xs' ys') :
    Matches R (xs ++ xs') (ys ++ ys') := by
  constructor
  · intro x hx
    obtain hx | hx := List.mem_append.1 hx
    · obtain ⟨y, hy, hxy⟩ := h.left x hx
      exact ⟨y, List.mem_append_left _ hy, hxy⟩
    · obtain ⟨y, hy, hxy⟩ := h'.left x hx
      exact ⟨y, List.mem_append_right _ hy, hxy⟩
  · intro y hy
    obtain hy | hy := List.mem_append.1 hy
    · obtain ⟨x, hx, hxy⟩ := h.right y hy
      exact ⟨x, List.mem_append_left _ hx, hxy⟩
    · obtain ⟨x, hx, hxy⟩ := h'.right y hy
      exact ⟨x, List.mem_append_right _ hx, hxy⟩

theorem singleton {x : α} {y : β} (h : R x y) : Matches R [x] [y] :=
  ⟨fun _ hx ↦ ⟨y, List.mem_singleton_self y, List.mem_singleton.1 hx ▸ h⟩,
    fun _ hy ↦ ⟨x, List.mem_singleton_self x, List.mem_singleton.1 hy ▸ h⟩⟩

theorem of_forall₂ (h : List.Forall₂ R xs ys) : Matches R xs ys := by
  induction h with
  | nil => exact nil
  | cons hxy _ ih => exact (singleton hxy).append ih

theorem of_perm (h : Matches R xs ys) (hperm : ys ~ ys') : Matches R xs ys' := by
  constructor
  · intro x hx
    obtain ⟨y, hy, hxy⟩ := h.left x hx
    exact ⟨y, hperm.subset hy, hxy⟩
  · intro y hy
    exact h.right y (hperm.symm.subset hy)

theorem flatMap (h : Matches R xs ys) {f : α → List γ} {g : β → List δ}
    (hfg : (R ⇒ Matches S) f g) : Matches S (xs.flatMap f) (ys.flatMap g) := by
  constructor
  · intro z hz
    obtain ⟨x, hx, hz⟩ := List.mem_flatMap.1 hz
    obtain ⟨y, hy, hxy⟩ := h.left x hx
    obtain ⟨w, hw, hzw⟩ := (hfg hxy).left z hz
    exact ⟨w, List.mem_flatMap.2 ⟨y, hy, hw⟩, hzw⟩
  · intro w hw
    obtain ⟨y, hy, hw⟩ := List.mem_flatMap.1 hw
    obtain ⟨x, hx, hxy⟩ := h.right y hy
    obtain ⟨z, hz, hzw⟩ := (hfg hxy).right w hw
    exact ⟨z, List.mem_flatMap.2 ⟨x, hx, hz⟩, hzw⟩

theorem filter (h : Matches R xs ys) {p : α → Bool} {q : β → Bool} (hpq : (R ⇒ Eq) p q) :
    Matches R (xs.filter p) (ys.filter q) := by
  constructor
  · intro x hx
    obtain ⟨hx, hp⟩ := List.mem_filter.1 hx
    obtain ⟨y, hy, hxy⟩ := h.left x hx
    exact ⟨y, List.mem_filter.2 ⟨hy, hpq hxy ▸ hp⟩, hxy⟩
  · intro y hy
    obtain ⟨hy, hq⟩ := List.mem_filter.1 hy
    obtain ⟨x, hx, hxy⟩ := h.right y hy
    exact ⟨x, List.mem_filter.2 ⟨hx, (hpq hxy).symm ▸ hq⟩, hxy⟩

theorem isEmpty_eq (h : Matches R xs ys) : xs.isEmpty = ys.isEmpty := by
  rw [Bool.eq_iff_iff, List.isEmpty_iff, List.isEmpty_iff]
  constructor
  · rintro rfl
    exact List.eq_nil_iff_forall_not_mem.2 fun y hy ↦ by
      obtain ⟨_, hx, _⟩ := h.right y hy
      cases hx
  · rintro rfl
    exact List.eq_nil_iff_forall_not_mem.2 fun x hx ↦ by
      obtain ⟨_, hy, _⟩ := h.left x hx
      cases hy

theorem mem_map_iff (h : Matches R xs ys) {f : α → γ} {g : β → γ} (hfg : (R ⇒ Eq) f g) (z : γ) :
    z ∈ xs.map f ↔ z ∈ ys.map g := by
  rw [List.mem_map, List.mem_map]
  constructor
  · rintro ⟨x, hx, rfl⟩
    obtain ⟨y, hy, hxy⟩ := h.left x hx
    exact ⟨y, hy, (hfg hxy).symm⟩
  · rintro ⟨y, hy, rfl⟩
    obtain ⟨x, hx, hxy⟩ := h.right y hy
    exact ⟨x, hx, hfg hxy⟩

end Matches

/-- The first answer of related lists. -/
theorem rel_findSome? {α β γ δ : Type} {R : α → β → Prop} {S : γ → δ → Prop} {xs : List α}
    {ys : List β} (h : List.Forall₂ R xs ys) {f : α → Option γ} {g : β → Option δ}
    (hfg : (R ⇒ Option.Rel S) f g) : Option.Rel S (xs.findSome? f) (ys.findSome? g) := by
  induction h with
  | nil => exact .none
  | cons hxy _ ih =>
    rw [List.findSome?_cons, List.findSome?_cons]
    have hfirst := hfg hxy
    revert hfirst
    generalize f _ = fx, g _ = gy
    rintro (hzw | _)
    · exact .some hzw
    · exact ih

theorem rel_orElse {α β : Type} {R : α → β → Prop} {x x' : Option α} {y y' : Option β}
    (h : Option.Rel R x y) (h' : Option.Rel R x' y') : Option.Rel R (x <|> x') (y <|> y') := by
  cases h with
  | none => simpa using h'
  | some hxy => simpa using Option.Rel.some hxy

theorem rel_find? {α β : Type} {R : α → β → Prop} {xs : List α} {ys : List β}
    (h : List.Forall₂ R xs ys) {p : α → Bool} {q : β → Bool} (hpq : (R ⇒ Eq) p q) :
    Option.Rel R (xs.find? p) (ys.find? q) := by
  induction h with
  | nil => exact .none
  | @cons x y _ _ hxy _ ih =>
    rw [List.find?_cons, List.find?_cons, hpq hxy]
    split
    · exact .some hxy
    · exact ih

theorem rel_head? {α β : Type} {R : α → β → Prop} {xs : List α} {ys : List β}
    (h : List.Forall₂ R xs ys) : Option.Rel R xs.head? ys.head? := by
  cases h with
  | nil => exact .none
  | cons hxy _ => exact .some hxy

theorem rel_getElem? {α β : Type} {R : α → β → Prop} {xs : List α} {ys : List β}
    (h : List.Forall₂ R xs ys) (i : Nat) : Option.Rel R xs[i]? ys[i]? := by
  induction h generalizing i with
  | nil => exact .none
  | cons hxy _ ih =>
    cases i with
    | zero => exact .some hxy
    | succ i => exact ih i

theorem rel_getLast? {α β : Type} {R : α → β → Prop} {xs : List α} {ys : List β}
    (h : List.Forall₂ R xs ys) : Option.Rel R xs.getLast? ys.getLast? := by
  rw [List.getLast?_eq_head?_reverse, List.getLast?_eq_head?_reverse]
  exact rel_head? (List.rel_reverse h)

theorem rel_lookup {α β : Type} {R : α → β → Prop} {xs : List (String × α)} {ys : List (String × β)}
    (h : List.Forall₂ (fun p q ↦ p.1 = q.1 ∧ R p.2 q.2) xs ys) (key : String) :
    Option.Rel R (xs.lookup key) (ys.lookup key) := by
  induction h with
  | nil => exact .none
  | @cons p q _ _ hpq _ ih =>
    obtain ⟨k, x⟩ := p
    obtain ⟨_, y⟩ := q
    obtain ⟨rfl, hxy⟩ : k = _ ∧ R x y := hpq
    rw [List.lookup_cons, List.lookup_cons]
    cases key == k with
    | true => exact .some hxy
    | false => exact ih

theorem map_eq_of_rel {α β γ : Type} {R : α → β → Prop} {xs : List α} {ys : List β}
    (h : List.Forall₂ R xs ys) {f : α → γ} {g : β → γ} (hfg : (R ⇒ Eq) f g) :
    xs.map f = ys.map g := by
  rw [← List.forall₂_eq_eq_eq]
  exact List.rel_map hfg h

theorem rel_map {α β γ δ : Type} {R : α → β → Prop} {S : γ → δ → Prop} {x : Option α}
    {y : Option β} (h : Option.Rel R x y) {f : α → γ} {g : β → δ} (hfg : (R ⇒ S) f g) :
    Option.Rel S (x.map f) (y.map g) := by
  cases h with
  | none => exact .none
  | some hxy => exact .some (hfg hxy)

/-! ## Nodes -/

namespace Node

/-- The children that only hold a list of others, with the kind that is expected there. -/
def listParts : Kind → List Node → List (Node × Kind)
  | .function, params :: _ | .arrow, params :: _ | .classMember .constructor, params :: _ =>
    [(params, .parameters)]
  | .statement .classDecl, [_, body] | .classExpr, [_, body] => [(body, .classBody)]
  | .classBody, members :: _ => [(members, .classMembers)]
  | .statement .interface, [_, _, heritages, body] =>
    [(heritages, .type .heritages), (body, .type .members)]
  | .type .heritages, parents => parents.map (·, .type .heritage)
  | .type .reference, _ :: rest => (rest.filter (!·.isAbsent)).map (·, .type .arguments)
  | _, _ => []

/-- Where a list is expected, there is one and no union. -/
def HoldsLists (kind : Kind) (cs : List Node) : Prop :=
  ∀ part ∈ listParts kind cs, part.1.kind = part.2

instance (kind : Kind) (cs : List Node) : Decidable (HoldsLists kind cs) :=
  inferInstanceAs (Decidable (∀ part ∈ listParts kind cs, _))

theorem HoldsLists.kind_eq {kind k : Kind} {cs : List Node} {part : Node} (h : HoldsLists kind cs)
    (hpart : (part, k) ∈ listParts kind cs) : part.kind = k :=
  h (part, k) hpart

/-- The same node but for the order of the members of unions in it. -/
inductive Reorders : Node → Node → Prop where
  | node {kind : Kind} {s : Span} {cs ds : List Node} (lists : HoldsLists kind cs)
      (parts : List.Forall₂ Reorders cs ds) : Reorders (mk kind s cs) (mk kind s ds)
  | union {s : Span} {cs ds es : List Node} (parts : List.Forall₂ Reorders cs ds)
      (order : ds ~ es) :
    Reorders (mk (.type .union) s cs) (mk (.type .union) s es)

variable {n m : Node}

theorem Reorders.kind_eq (h : n.Reorders m) : n.kind = m.kind := by
  cases h <;> rfl

theorem Reorders.span_eq (h : n.Reorders m) : n.span = m.span := by
  cases h <;> rfl

theorem Reorders.parts_of_kind {kind : Kind} (h : n.Reorders m) (hkind : n.kind = kind)
    (hunion : kind ≠ .type .union := by decide) : List.Forall₂ Reorders n.children m.children := by
  cases h with
  | node _ parts => exact parts
  | union => exact absurd hkind.symm hunion

theorem Reorders.absent : Node.absent.Reorders .absent :=
  .node (List.forall_mem_nil _) .nil

/-- Induction on the pair of nodes; of unions nothing is asked but that they are related. -/
@[elab_as_elim]
theorem Reorders.induction {P : Node → Node → Prop}
    (node : ∀ kind s cs ds, HoldsLists kind cs → List.Forall₂ Reorders cs ds →
      List.Forall₂ P cs ds → P (mk kind s cs) (mk kind s ds))
    (union : ∀ s cs es, (mk (.type .union) s cs).Reorders (mk (.type .union) s es) →
      P (mk (.type .union) s cs) (mk (.type .union) s es)) {n m : Node} (h : n.Reorders m) :
    P n m := by
  refine @Reorders.rec (fun n m _ ↦ P n m) (fun cs ds _ ↦ List.Forall₂ P cs ds) ?_ ?_ .nil
    (fun _ _ hc hcs ↦ .cons hc hcs) n m h
  · exact fun lists parts hparts ↦ node _ _ _ _ lists parts hparts
  · exact fun parts order _ ↦ union _ _ _ (.union parts order)

theorem Reorders.rel_present? (h : n.Reorders m) : Option.Rel Reorders n.present? m.present? := by
  unfold present? isAbsent
  rw [h.kind_eq]
  split
  · exact .none
  · exact .some h

theorem Reorders.identName?_eq (h : n.Reorders m) : n.identName? = m.identName? := by
  unfold identName?
  rw [h.kind_eq]

theorem Reorders.keyName?_eq (h : n.Reorders m) : n.keyName? = m.keyName? := by
  unfold keyName?
  rw [h.kind_eq]

theorem Reorders.memberName?_eq (h : n.Reorders m) : n.memberName? = m.memberName? := by
  unfold memberName?
  rw [h.kind_eq, h.keyName?_eq]

theorem Reorders.functionResult (h : n.Reorders m) :
    n.functionResult.Reorders m.functionResult := by
  cases h with
  | union => exact .absent
  | @node kind s cs ds lists parts =>
    cases kind
    case function | arrow =>
      rcases parts with _ | ⟨_, _ | ⟨_, _ | ⟨_, _ | ⟨hresult, _ | _⟩⟩⟩⟩
      all_goals first | exact .absent | exact hresult
    case functionExpr =>
      rcases parts with _ | ⟨_, _ | ⟨hfunction, rest⟩⟩
      all_goals try exact .absent
      cases hfunction with
      | union => cases rest <;> exact .absent
      | @node kind s cs ds lists parts =>
        cases kind
        case function =>
          rcases parts with _ | ⟨_, _ | ⟨_, _ | ⟨_, _ | ⟨hresult, _ | _⟩⟩⟩⟩ <;> cases rest
          all_goals first | exact .absent | exact hresult
        all_goals cases rest <;> exact .absent
    all_goals exact .absent

end Node

/-! ## What is declared -/

inductive Declared.Reorders : Declared → Declared → Prop where
  | annotated {t t' : Node} (optional : Bool) (type : t.Reorders t') :
    Reorders (.annotated t optional) (.annotated t' optional)
  | initialized {v v' : Node} (widen : Bool) (value : v.Reorders v') :
    Reorders (.initialized v widen) (.initialized v' widen)
  | function {t t' : Node} (result : t.Reorders t') : Reorders (.function t) (.function t')
  | classObject : Reorders .classObject .classObject
  | untyped : Reorders .untyped .untyped

structure Binding.Reorders (b c : Binding) : Prop where
  name : b.name = c.name
  scope : b.scope = c.scope
  pos : b.pos = c.pos
  declared : b.declared.Reorders c.declared

/-- Properties with one name that are declared alike. -/
def ReordersMember (p q : String × Declared) : Prop :=
  p.1 = q.1 ∧ p.2.Reorders q.2

structure ClassInfo.Reorders (c d : ClassInfo) : Prop where
  members : List.Forall₂ ReordersMember c.members d.members
  parent : c.parent? = d.parent?

structure Interface.Reorders (i j : Interface) : Prop where
  name : i.name = j.name
  members : List.Forall₂ Node.Reorders i.members j.members
  parents : i.parents = j.parents

inductive Fact.Reorders : Fact → Fact → Prop where
  | binding {b c : Binding} (h : b.Reorders c) : Reorders (.binding b) (.binding c)
  | named {t t' : Node} (name : String) (h : t.Reorders t') :
    Reorders (.named name t) (.named name t')
  | interface {i j : Interface} (h : i.Reorders j) : Reorders (.interface i) (.interface j)
  | classDef {c d : ClassInfo} (name? : Option String) (s : Span) (h : c.Reorders d) :
    Reorders (.classDef name? s c) (.classDef name? s d)

theorem Declared.Reorders.ofParts {t t' v v' : Node} (ht : t.Reorders t') (hv : v.Reorders v')
    (optional widen : Bool) :
    (Declared.ofParts t v optional widen).Reorders (.ofParts t' v' optional widen) := by
  have htype := ht.rel_present?
  have hvalue := hv.rel_present?
  unfold Declared.ofParts
  generalize t.present? = type, t'.present? = type' at htype ⊢
  generalize v.present? = value, v'.present? = value' at hvalue ⊢
  cases htype with
  | some ht => exact .annotated optional ht
  | none =>
    cases hvalue with
    | some hv => exact .initialized widen hv
    | none => exact .untyped

namespace Node

theorem rel_headD {cs ds : List Node} (h : List.Forall₂ Reorders cs ds) :
    (cs.headD absent).Reorders (ds.headD absent) := by
  cases h with
  | nil => exact .absent
  | cons hc _ => exact hc

/-- The bindings of the two nodes are related whatever values are bound. -/
def BindsAlike (scope : Span) (n m : Node) : Prop :=
  ∀ {v v' : Node} (widen : Bool), v.Reorders v' →
    List.Forall₂ Binding.Reorders (bindings scope v widen n) (bindings scope v' widen m)

theorem rel_bindingsAll {scope : Span} {cs ds : List Node}
    (h : List.Forall₂ (BindsAlike scope) cs ds) :
    List.Forall₂ Binding.Reorders (bindingsAll scope cs) (bindingsAll scope ds) := by
  induction h with
  | nil =>
    rw [bindingsAll]
    exact .nil
  | cons hc _ ih =>
    rw [bindingsAll, bindingsAll]
    exact List.rel_append (hc true (.absent)) ih

theorem Reorders.bindsAlike (scope : Span) {n m : Node} (h : n.Reorders m) :
    n.BindsAlike scope m := by
  refine h.induction (P := BindsAlike scope) (fun kind s cs ds lists parts ih v v' widen hv ↦ ?_)
    fun s cs es _ v v' widen _ ↦ .nil
  cases kind
  case pattern form =>
    cases form
    case name name optional =>
      exact .cons ⟨rfl, rfl, rfl, .ofParts (rel_headD parts) hv optional widen⟩ .nil
    case withDefault =>
      rcases parts with _ | ⟨_, _ | ⟨hfallback, _ | _⟩⟩
      all_goals try exact .nil
      obtain _ | ⟨hinner, -⟩ := ih
      exact hinner true hfallback
    case shorthand =>
      obtain _ | ⟨hname, _⟩ := parts
      · exact .nil
      cases hname with
      | union => exact .nil
      | @node kind s cs ds lists parts =>
        cases kind
        case pattern form _ =>
          cases form
          case name => exact .cons ⟨rfl, rfl, rfl, .untyped⟩ .nil
          all_goals exact .nil
        all_goals exact .nil
    case property =>
      rcases parts with _ | ⟨_, _ | ⟨_, _ | _⟩⟩
      all_goals try exact .nil
      obtain _ | ⟨-, _ | ⟨hinner, -⟩⟩ := ih
      exact hinner true (.absent)
    case rest =>
      obtain _ | ⟨hinner, _⟩ := ih
      · exact .nil
      exact hinner true (.absent)
    case array | object => exact rel_bindingsAll ih
  all_goals exact .nil

theorem Reorders.rel_parameterBindings (scope : Span) {n m : Node} (h : n.Reorders m) :
    List.Forall₂ Binding.Reorders (parameterBindings scope n) (parameterBindings scope m) := by
  have hself := h.bindsAlike scope true (.absent)
  cases h with
  | union => exact hself
  | @node kind s cs ds lists parts =>
    cases kind
    case classMember form =>
      cases form
      case parameterProperty =>
        rcases parts with _ | ⟨hinner, _ | _⟩
        · exact hself
        · exact hinner.bindsAlike scope true (.absent)
        · exact hself
      all_goals exact hself
    all_goals exact hself

theorem Reorders.rel_declaratorBindings (scope : Span) (widen : Bool) {n m : Node}
    (h : n.Reorders m) :
    List.Forall₂ Binding.Reorders (declaratorBindings scope widen n)
      (declaratorBindings scope widen m) := by
  cases h with
  | union => exact .nil
  | @node kind s cs ds lists parts =>
    cases kind
    case statement form =>
      cases form
      case declarator =>
        rcases parts with _ | ⟨hpattern, _ | ⟨hvalue, _ | _⟩⟩
        all_goals try exact .nil
        exact hpattern.bindsAlike scope widen hvalue
      all_goals exact .nil
    all_goals exact .nil

/-! ## Classes -/

theorem rel_ofMethod (kind : MethodKind) {t t' : Node} (h : t.Reorders t') :
    (Declared.ofMethod kind t).Reorders (.ofMethod kind t') := by
  cases kind with
  | getter => exact .ofParts h (.absent) false true
  | plain | setter => exact .function h

theorem Reorders.rel_propertyParameter? {n m : Node} (h : n.Reorders m) :
    Option.Rel ReordersMember n.propertyParameter? m.propertyParameter? := by
  cases h with
  | union => exact .none
  | @node kind s cs ds lists parts =>
    clear lists
    cases kind
    case classMember form =>
      cases form
      case parameterProperty =>
        obtain _ | ⟨hinner, rest⟩ := parts
        · exact .none
        cases hinner with
        | union => exact .none
        | @node kind s cs ds lists parts =>
          clear lists
          cases kind
          case pattern form =>
            cases form
            case name name optional =>
              cases rest
              · exact .some ⟨rfl, .ofParts (rel_headD parts) (.absent) optional true⟩
              · exact .none
            case withDefault =>
              obtain _ | ⟨hinner, fallback⟩ := parts
              · exact .none
              cases hinner with
              | union => exact .none
              | @node kind s cs ds lists parts =>
                clear lists
                cases kind
                case pattern form =>
                  cases form
                  case name name optional =>
                    rcases fallback with _ | ⟨_, _ | _⟩ <;> cases rest
                    all_goals try exact .none
                    exact .some ⟨rfl, .ofParts (rel_headD parts) (.absent) optional true⟩
                  all_goals exact .none
                all_goals exact .none
            all_goals exact .none
          all_goals exact .none
      all_goals exact .none
    all_goals exact .none

theorem rel_keyed {key key' : Node} (hkey : key.Reorders key') {d d' : Declared}
    (hd : d.Reorders d') :
    List.Forall₂ ReordersMember (key.memberName?.toList.map (·, d))
      (key'.memberName?.toList.map (·, d')) := by
  rw [hkey.memberName?_eq]
  cases key'.memberName? with
  | none => exact .nil
  | some name => exact .cons ⟨rfl, hd⟩ .nil

theorem Reorders.rel_instanceMembers {n m : Node} (h : n.Reorders m) :
    List.Forall₂ ReordersMember n.instanceMembers m.instanceMembers := by
  cases h with
  | union => exact .nil
  | @node kind s cs ds lists parts =>
    cases kind
    case classMember form =>
      cases form
      case field isStatic optional =>
        cases isStatic
        · rcases parts with _ | ⟨hkey, _ | ⟨hvalue, _ | ⟨htype, _ | _⟩⟩⟩
          all_goals try exact .nil
          exact rel_keyed hkey (.ofParts htype hvalue optional true)
        · exact .nil
      case method isStatic kind =>
        cases isStatic
        · rcases parts with _ | ⟨hkey, _ | ⟨hfunction, _ | _⟩⟩
          all_goals try exact .nil
          exact rel_keyed hkey (rel_ofMethod kind hfunction.functionResult)
        · exact .nil
      case constructor =>
        rcases parts with _ | ⟨hparams, _ | ⟨_, _ | _⟩⟩
        all_goals try exact .nil
        exact List.rel_filterMap (fun _ _ h ↦ h.rel_propertyParameter?)
          (hparams.parts_of_kind (lists.kind_eq List.mem_cons_self))
      all_goals exact .nil
    all_goals exact .nil

theorem Reorders.classInfo {n m : Node} (h : n.Reorders m) (hkind : n.kind = .classBody) :
    n.classInfo.Reorders m.classInfo := by
  cases h with
  | union => cases hkind
  | node lists parts =>
    obtain rfl := hkind
    rcases parts with _ | ⟨hmembers, _ | ⟨hparent, _⟩⟩
    · exact ⟨.nil, rfl⟩
    · exact ⟨.nil, rfl⟩
    · have hparts := hmembers.parts_of_kind (lists.kind_eq List.mem_cons_self)
      refine ⟨List.rel_reverse (List.rel_flatMap hparts ?_), hparent.identName?_eq⟩
      exact fun _ _ h ↦ h.rel_instanceMembers

theorem identName?_head_eq {cs ds : List Node} (h : List.Forall₂ Reorders cs ds) :
    cs.head?.bind identName? = ds.head?.bind identName? := by
  cases h with
  | nil => rfl
  | cons hname _ => exact hname.identName?_eq

theorem Reorders.heritageNames_eq {n m : Node} (h : n.Reorders m)
    (hkind : n.kind = .type .heritages) : n.heritageNames = m.heritageNames := by
  cases h with
  | union => cases hkind
  | node lists parts =>
    obtain rfl := hkind
    rw [heritageNames, heritageNames, Node.children, Node.children]
    induction parts with
    | nil => rfl
    | cons hparent _ ih =>
      have hkind := lists.kind_eq List.mem_cons_self
      have hrest : HoldsLists (.type .heritages) _ := fun part hpart ↦
        lists part (List.mem_cons_of_mem _ hpart)
      rw [List.filterMap_cons, List.filterMap_cons, ih hrest,
        identName?_head_eq (hparent.parts_of_kind hkind)]

/-! ## Programs -/

theorem rel_named {name name' : Node} (h : name.Reorders name') {f g : String → Fact}
    (hfg : ∀ x, (f x).Reorders (g x)) :
    List.Forall₂ Fact.Reorders (name.identName?.toList.map f) (name'.identName?.toList.map g) := by
  rw [h.identName?_eq]
  cases name'.identName? with
  | none => exact .nil
  | some x => exact .cons (hfg x) .nil

theorem rel_bound {bs cs : List Binding} (h : List.Forall₂ Binding.Reorders bs cs) :
    List.Forall₂ Fact.Reorders (bs.map .binding) (cs.map .binding) :=
  List.rel_map (fun _ _ h ↦ .binding h) h

theorem Reorders.rel_classDef {name name' body body' : Node} (hname : name.Reorders name')
    (hbody : body.Reorders body') (hkind : body.kind = .classBody) :
    (Fact.classDef name.identName? body.span body.classInfo).Reorders
      (.classDef name'.identName? body'.span body'.classInfo) := by
  rw [hname.identName?_eq, hbody.span_eq]
  exact .classDef _ _ (hbody.classInfo hkind)

theorem Reorders.rel_ownFacts (scope : Span) {kind : Kind} {s : Span} {cs ds : List Node}
    (lists : HoldsLists kind cs) (parts : List.Forall₂ Reorders cs ds) :
    List.Forall₂ Fact.Reorders (ownFacts scope kind s cs) (ownFacts scope kind s ds) := by
  cases kind
  case function | arrow =>
    obtain _ | ⟨hparams, _⟩ := parts
    · exact .nil
    exact rel_bound (List.rel_flatMap (hparams.parts_of_kind (lists.kind_eq List.mem_cons_self))
      fun _ _ h ↦ h.rel_parameterBindings s)
  case classMember form =>
    cases form
    case constructor =>
      obtain _ | ⟨hparams, _⟩ := parts
      · exact .nil
      exact rel_bound (List.rel_flatMap (hparams.parts_of_kind (lists.kind_eq List.mem_cons_self))
        fun _ _ h ↦ h.rel_parameterBindings s)
    all_goals exact .nil
  case classExpr =>
    rcases parts with _ | ⟨hname, _ | ⟨hbody, _ | _⟩⟩
    all_goals try exact .nil
    exact .cons (rel_classDef hname hbody (lists.kind_eq List.mem_cons_self)) .nil
  case statement form =>
    cases form
    case bindings constant =>
      exact rel_bound (List.rel_flatMap parts fun _ _ h ↦ h.rel_declaratorBindings scope _)
    case function =>
      rcases parts with _ | ⟨hname, _ | ⟨hfunction, _ | _⟩⟩
      all_goals try exact .nil
      exact rel_named hname fun x ↦
        .binding ⟨rfl, rfl, congrArg Span.lo hname.span_eq, .function hfunction.functionResult⟩
    case classDecl =>
      rcases parts with _ | ⟨hname, _ | ⟨hbody, _ | _⟩⟩
      all_goals try exact .nil
      have hclass := rel_classDef hname hbody (lists.kind_eq List.mem_cons_self)
      refine List.rel_append (rel_named hname fun x ↦ ?_) (.cons hclass .nil)
      exact .binding ⟨rfl, rfl, congrArg Span.lo hname.span_eq, .classObject⟩
    case interface =>
      rcases parts with _ | ⟨hname, _ | ⟨_, _ | ⟨hparents, _ | ⟨hbody, _ | _⟩⟩⟩⟩
      all_goals try exact .nil
      have hbodyKind := lists.kind_eq (List.mem_cons_of_mem _ List.mem_cons_self)
      refine rel_named hname fun x ↦ .interface ⟨rfl, hbody.parts_of_kind hbodyKind, ?_⟩
      exact hparents.heritageNames_eq (lists.kind_eq List.mem_cons_self)
    case typeAlias =>
      rcases parts with _ | ⟨hname, _ | ⟨_, _ | ⟨htype, _ | _⟩⟩⟩
      all_goals try exact .nil
      exact rel_named hname fun x ↦ .named x htype
    all_goals exact .nil
  all_goals exact .nil

theorem rel_factsAll {cs ds : List Node}
    (h : List.Forall₂
      (fun n m ↦ ∀ scope, List.Forall₂ Fact.Reorders (n.facts scope) (m.facts scope)) cs ds)
    (scope : Span) :
    List.Forall₂ Fact.Reorders (factsAll scope cs) (factsAll scope ds) := by
  induction h with
  | nil =>
    rw [factsAll]
    exact .nil
  | cons hc _ ih =>
    rw [factsAll, factsAll]
    exact List.rel_append (hc scope) ih

/-- Related programs declare related things in the same order. -/
theorem Reorders.rel_facts {n m : Node} (h : n.Reorders m) (scope : Span) :
    List.Forall₂ Fact.Reorders (n.facts scope) (m.facts scope) := by
  refine h.induction
    (P := fun n m ↦ ∀ scope, List.Forall₂ Fact.Reorders (n.facts scope) (m.facts scope))
    (fun kind s cs ds lists parts ih scope ↦ ?_) (fun s cs es _ scope ↦ ?_) scope
  · rw [facts, facts]
    refine List.rel_append (rel_ownFacts scope lists parts) ?_
    split
    · exact .nil
    · exact rel_factsAll ih _
  · rw [facts, facts]
    exact .nil

end Node

namespace Declarations

structure Reorders (d e : Declarations) : Prop where
  bindings : List.Forall₂ Binding.Reorders d.bindings e.bindings
  aliases : List.Forall₂ (fun p q ↦ p.1 = q.1 ∧ p.2.Reorders q.2) d.aliases e.aliases
  interfaces : List.Forall₂ Interface.Reorders d.interfaces e.interfaces
  classes : List.Forall₂ (fun p q ↦ p.1 = q.1 ∧ p.2.1 = q.2.1 ∧ p.2.2.Reorders q.2.2)
    d.classes e.classes

variable {d e : Declarations}

theorem reorders_ofFacts {xs ys : List Fact} (h : List.Forall₂ Fact.Reorders xs ys) :
    (ofFacts xs).Reorders (ofFacts ys) where
  bindings := List.rel_filterMap (fun _ _ h ↦ by cases h <;> constructor; assumption) h
  aliases := List.rel_reverse (List.rel_filterMap
    (fun _ _ h ↦ by cases h <;> constructor; exact ⟨rfl, ‹_›⟩) h)
  interfaces := List.rel_filterMap (fun _ _ h ↦ by cases h <;> constructor; assumption) h
  classes := List.rel_filterMap (fun _ _ h ↦ by cases h <;> constructor; exact ⟨rfl, rfl, ‹_›⟩) h

theorem reorders_ofProgram {p q : Node} (h : p.Reorders q) : (ofProgram p).Reorders (ofProgram q) :=
  reorders_ofFacts (h.rel_facts programScope)

/-! ## Looking things up -/

theorem enclosingClass?_eq (d : Declarations) (pos : Nat) :
    d.enclosingClass? pos =
      ((d.classes.filter (·.2.1.has pos)).map (·.2.1.length)).min?.bind fun least ↦
        ((d.classes.filter (·.2.1.has pos)).find? (·.2.1.length == least)).map (·.2.2) := by
  unfold enclosingClass?
  dsimp only
  split <;> rename_i hleast
  · rw [show List.min? _ = none from hleast]
    rfl
  · rw [show List.min? _ = some _ from hleast]
    rfl

namespace Reorders

theorem lookup (h : d.Reorders e) (name : String) (pos : Nat) :
    Option.Rel Binding.Reorders (d.lookup name pos) (e.lookup name pos) := by
  have hvisible := List.rel_filter (p := fun b ↦ b.name == name && b.scope.has pos)
    (q := fun b ↦ b.name == name && b.scope.has pos)
    (fun _ _ hb ↦ by simp only [hb.name, hb.scope]) h.bindings
  have hlengths := map_eq_of_rel hvisible (f := (·.scope.length)) (g := (·.scope.length))
    fun _ _ hb ↦ congrArg Span.length hb.scope
  unfold Declarations.lookup
  dsimp only
  rw [hlengths]
  split
  · exact .none
  · rename_i innermost _
    have hnear := List.rel_filter (p := (·.scope.length == innermost))
      (q := (·.scope.length == innermost)) (fun _ _ hb ↦ by simp only [hb.scope]) hvisible
    refine rel_orElse (rel_getLast? (List.rel_filter ?_ hnear)) (rel_head? hnear)
    exact fun _ _ hb ↦ by simp only [hb.pos]

theorem alias? (h : d.Reorders e) (name : String) :
    Option.Rel Node.Reorders (d.alias? name) (e.alias? name) :=
  rel_lookup h.aliases name

theorem class? (h : d.Reorders e) (name : String) :
    Option.Rel ClassInfo.Reorders (d.class? name) (e.class? name) := by
  refine rel_map (rel_find? (List.rel_reverse h.classes) ?_) fun _ _ hc ↦ hc.2.2
  rintro ⟨_, _, _⟩ ⟨_, _, _⟩ ⟨rfl, -, -⟩
  rfl

theorem enclosingClass? (h : d.Reorders e) (pos : Nat) :
    Option.Rel ClassInfo.Reorders (d.enclosingClass? pos) (e.enclosingClass? pos) := by
  have haround := List.rel_filter (p := fun c ↦ c.2.1.has pos) (q := fun c ↦ c.2.1.has pos)
    (fun _ _ hc ↦ by simp only [hc.2.1]) h.classes
  have hlengths := map_eq_of_rel haround (f := (·.2.1.length)) (g := (·.2.1.length))
    fun _ _ hc ↦ congrArg Span.length hc.2.1
  have hfound (least : Nat) := rel_find? haround (p := (·.2.1.length == least))
    (q := (·.2.1.length == least)) fun _ _ hc ↦ congrArg (Span.length · == least) hc.2.1
  rw [enclosingClass?_eq, enclosingClass?_eq, hlengths]
  cases ((e.classes.filter (·.2.1.has pos)).map (·.2.1.length)).min? with
  | none => exact .none
  | some least => exact rel_map (hfound least) fun _ _ hc ↦ hc.2.2

theorem interfacesNamed (h : d.Reorders e) (name : String) :
    List.Forall₂ Interface.Reorders (d.interfacesNamed name) (e.interfacesNamed name) :=
  List.rel_filter (fun _ _ hi ↦ by simp only [hi.name]) h.interfaces

end Reorders

end Declarations

end OptionalChain
