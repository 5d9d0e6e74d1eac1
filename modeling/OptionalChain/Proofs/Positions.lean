import Mathlib.Data.List.Forall2
import OptionalChain.Proofs.NestedSpans
import OptionalChain.Proofs.Placement.Targets

/-!
# Positions

Where a part stands in a program decides whether it may be an optional access. A position is handed
down from a node to its parts: what is assigned to stays a target inside parentheses and assertions,
and the base of an access that must not be optional must not be optional either. A program is
admissible exactly if every part is what its position asks for, so a part that is replaced has to
be looked at in its own position only.
-/

namespace OptionalChain

/-! ## Parts by their path -/

namespace Node

/-- The part that a path of indices leads to. -/
def at? : List Nat → Node → Option Node
  | [], n => some n
  | i :: path, n => n.children[i]?.bind (at? path)

theorem at?_cons {kind : Kind} {s : Span} {cs : List Node} {i : Nat} {path : List Nat} {n : Node} :
    (mk kind s cs).at? (i :: path) = some n ↔ ∃ c, cs[i]? = some c ∧ c.at? path = some n :=
  Option.bind_eq_some_iff

/-- The parts that paths lead to are the nodes of the tree. -/
theorem mem_preorder_iff {n m : Node} : m ∈ n.preorder ↔ ∃ path, n.at? path = some m := by
  induction n using induction_parts with
  | step kind s cs ih =>
    rw [preorder, preorderAll_eq_flatMap, List.mem_cons, List.mem_flatMap]
    constructor
    · rintro (rfl | ⟨c, hc, hm⟩)
      · exact ⟨[], rfl⟩
      · obtain ⟨path, hpath⟩ := (ih c hc).1 hm
        obtain ⟨i, hi⟩ := List.mem_iff_getElem?.1 hc
        exact ⟨i :: path, at?_cons.2 ⟨c, hi, hpath⟩⟩
    · rintro ⟨path, hpath⟩
      cases path with
      | nil => exact .inl (Option.some.inj hpath).symm
      | cons i path =>
        obtain ⟨c, hc, hm⟩ := at?_cons.1 hpath
        have hmem := List.mem_of_getElem? hc
        exact .inr ⟨c, hmem, (ih c hmem).2 ⟨path, hm⟩⟩

/-- Puts a node in the place that a path leads to. -/
def replaceAt : Node → List Nat → Node → Node
  | _, [], new => new
  | .mk kind s cs, i :: path, new =>
    match cs[i]? with
    | some c => .mk kind s (cs.set i (c.replaceAt path new))
    | none => .mk kind s cs

/-- An access or a call that is written with `?.`. -/
def isOptionalStep (n : Node) : Bool :=
  match n.kind, n.children.length with
  | .member true, 2 | .call true, 3 => true
  | _, _ => false

end Node

/-! ## Positions of parts -/

/-- Where a part of a program stands. -/
inductive Position where
  /-- Errors do not count here. -/
  | unchecked
  | free
  /-- A value is given to what stands here, inside any parentheses and assertions. -/
  | target
  /-- An access that stands here is given a value or is constructed. -/
  | element
  /-- The base of an access at such a position, or the tag of a template. -/
  | base
deriving DecidableEq, Repr

/-- What a node asks of its parts wherever it stands. The list tells which parts are absent. -/
def Kind.positions (kind : Kind) (absent : List Bool) : List Position :=
  match kind, absent with
  | .type _, parts => parts.map fun _ => .unchecked
  | .call false, [_, _, false] => [.free, .unchecked, .unchecked]
  | .taggedTemplate, [_, false, _] => [.free, .unchecked, .unchecked]
  | .taggedTemplate, [_, true, _] => [.base, .free, .free]
  | .update, [_] => [.target]
  | .assign, [_, _] | .pattern .withDefault, [_, _] => [.target, .free]
  | .statement .forInLoop, _ :: parts | .statement .forOfLoop, _ :: parts =>
    .target :: parts.map fun _ => .free
  | .array, parts | .pattern .array, parts => parts.map fun _ => .element
  | .pattern .property, [_, _] => [.free, .element]
  | .pattern .rest, _ :: parts | .new, _ :: parts => .element :: parts.map fun _ => .free
  | _, parts => parts.map fun _ => .free

namespace Position

/-- No optional access may stand here. -/
def isRestricted : Position → Bool
  | unchecked | free => false
  | target | element | base => true

/-- The position that the first part of a node has from the position of the node. -/
def handedOn (r : Position) (kind : Kind) (parts : Nat) : Option Position :=
  match kind, parts with
  | .paren, 1 | .asType, 2 | .satisfies, 2 | .typeAssertion, 2 | .instantiation, 2 =>
    if r = target then some target else none
  | .nonNull, 1 => if r = target ∨ r = base then some r else none
  | .member _, 2 | .call _, 3 => if r.isRestricted then some base else none
  | _, _ => none

/-- The positions of the parts of a node that stands at `r`. -/
def ofParts (r : Position) (kind : Kind) (absent : List Bool) : List Position :=
  if r = unchecked then absent.map fun _ => unchecked
  else
    match r.handedOn kind absent.length with
    | some q => (kind.positions absent).set 0 q
    | none => kind.positions absent

/-- The node is no optional access where the position forbids one. -/
def Spares : Position → Node → Prop
  | unchecked, _ | free, _ => True
  | target, n => n.core.inChain = false
  | element, n => n.isStep = true → n.inChain = false
  | base, n => n.inChain = false

/-- The node is what the position asks for. -/
def Accepts (r : Position) (n : Node) : Prop :=
  r ≠ unchecked → r.Spares n ∧ n.Admissible

variable {r : Position} {n : Node}

@[simp] theorem accepts_unchecked : unchecked.Accepts n ↔ True := by
  simp [Accepts]

@[simp] theorem accepts_free : free.Accepts n ↔ n.Admissible := by
  simp [Accepts, Spares]

@[simp] theorem accepts_target :
    target.Accepts n ↔ n.core.inChain = false ∧ n.Admissible := by
  simp [Accepts, Spares]

@[simp] theorem accepts_element :
    element.Accepts n ↔ (n.isStep = true → n.inChain = false) ∧ n.Admissible := by
  simp [Accepts, Spares]

@[simp] theorem accepts_base : base.Accepts n ↔ n.inChain = false ∧ n.Admissible := by
  simp [Accepts, Spares]

end Position

namespace Node

variable {kind : Kind} {s : Span} {cs : List Node} {n : Node}

theorem admissible_iff : n.Admissible ↔
    (∀ t ∈ n.targets, t.inChain = false) ∧ ∀ m ∈ n.reviewedParts, m.Admissible :=
  ⟨fun h ↦ ⟨h.targets, h.parts⟩, fun h ↦ .intro h.1 h.2⟩

/-- A node is admissible exactly if its parts are what it asks for. -/
theorem admissible_mk : (mk kind s cs).Admissible ↔
    List.Forall₂ Position.Accepts (kind.positions (cs.map isAbsent)) cs := by
  rw [admissible_iff]
  unfold targets reviewedParts Kind.positions
  dsimp only [Node.kind, children]
  cases kind with
  | update => rcases cs with _ | ⟨e, _ | ⟨_, _⟩⟩ <;> simp [List.forall₂_same]
  | assign =>
    rcases cs with _ | ⟨target, _ | ⟨value, _ | ⟨_, _⟩⟩⟩ <;> simp [List.forall₂_same, and_assoc]
  | new => cases cs <;> simp [List.forall₂_same, and_assoc]
  | array => simp [List.forall₂_same, forall_and]
  | taggedTemplate =>
    rcases cs with _ | ⟨tag, _ | ⟨typeArgs, _ | ⟨template, _ | ⟨_, _⟩⟩⟩⟩ <;>
      simp [List.forall₂_same]
    cases typeArgs.isAbsent <;> simp [and_assoc]
  | call optional =>
    cases optional with
    | true => simp [List.forall₂_same]
    | false =>
      rcases cs with _ | ⟨callee, _ | ⟨args, _ | ⟨typeArgs, _ | ⟨_, _⟩⟩⟩⟩ <;>
        simp [List.forall₂_same]
      cases typeArgs.isAbsent <;> simp
  | pattern form =>
    cases form with
    | withDefault =>
      rcases cs with _ | ⟨target, _ | ⟨value, _ | ⟨_, _⟩⟩⟩ <;> simp [List.forall₂_same, and_assoc]
    | property =>
      rcases cs with _ | ⟨key, _ | ⟨value, _ | ⟨_, _⟩⟩⟩ <;>
        simp [List.forall₂_same, and_left_comm]
    | array => simp [List.forall₂_same, forall_and]
    | rest => cases cs <;> simp [List.forall₂_same, and_assoc]
    | _ => simp [List.forall₂_same]
  | statement form =>
    cases form with
    | forInLoop => cases cs <;> simp [List.forall₂_same, and_assoc]
    | forOfLoop => cases cs <;> simp [List.forall₂_same, and_assoc]
    | _ => simp [List.forall₂_same]
  | _ => simp [List.forall₂_same]

end Node

namespace Position

variable {r q : Position} {kind : Kind} {s : Span} {cs : List Node}

theorem core_eq_of_handedOn (h : target.handedOn kind cs.length = none) :
    (Node.mk kind s cs).core = .mk kind s cs := by
  unfold Node.core
  split <;> first
    | rfl
    | rename_i heq
      cases heq
      cases h

theorem inChain_of_handedOn (h : base.handedOn kind cs.length = none) :
    (Node.mk kind s cs).inChain = false := by
  unfold Node.inChain
  split <;> first
    | rfl
    | rename_i heq
      cases heq
      cases h

theorem inChain_of_isStep (h : element.handedOn kind cs.length = none)
    (hstep : (Node.mk kind s cs).isStep = true) : (Node.mk kind s cs).inChain = false := by
  unfold Node.inChain
  split
  · rename_i heq
    cases heq
    cases h
  · rename_i heq
    cases heq
    cases h
  · rename_i heq
    cases heq
    cases hstep
  · rfl

theorem handedOn_base_of_target (h : target.handedOn kind cs.length = none) :
    base.handedOn kind cs.length = none := by
  unfold handedOn at h ⊢
  split at h <;> first
    | rfl
    | cases h

theorem isOptionalStep_of_handedOn (hr : r.isRestricted = true)
    (h : r.handedOn kind cs.length = none) : (Node.mk kind s cs).isOptionalStep = false := by
  unfold Node.isOptionalStep
  split
  · rename_i hkind hlength
    obtain rfl : kind = .member true := hkind
    rw [show cs.length = 2 from hlength, handedOn, if_pos hr] at h
    cases h
  · rename_i hkind hlength
    obtain rfl : kind = .call true := hkind
    rw [show cs.length = 3 from hlength, handedOn, if_pos hr] at h
    cases h
  · rfl

/-- A node that hands nothing on is no optional access. -/
theorem spares_of_handedOn_none (h : r.handedOn kind cs.length = none) :
    r.Spares (.mk kind s cs) := by
  cases r with
  | unchecked => trivial
  | free => trivial
  | target =>
    change (Node.mk kind s cs).core.inChain = false
    rw [core_eq_of_handedOn h]
    exact inChain_of_handedOn (handedOn_base_of_target h)
  | element => exact inChain_of_isStep h
  | base => exact inChain_of_handedOn h

theorem spares_step (hr : r.isRestricted = true) {n : Node} (hcore : n.core = n)
    (hstep : n.isStep = true) : r.Spares n ↔ n.inChain = false := by
  cases r with
  | unchecked => cases hr
  | free => cases hr
  | target => simp [Spares, hcore]
  | element => simp [Spares, hstep]
  | base => rfl

theorem isRestricted_of_handedOn {parts : Nat} (h : r.handedOn kind parts = some q) :
    r.isRestricted = true ∧ q.isRestricted = true := by
  unfold handedOn at h
  split at h
  iterate 5
    · obtain ⟨rfl, rfl⟩ : r = target ∧ target = q := by simpa using h
      exact ⟨rfl, rfl⟩
  · obtain ⟨rfl | rfl, rfl⟩ : (r = target ∨ r = base) ∧ r = q := by simpa using h
    · exact ⟨rfl, rfl⟩
    · exact ⟨rfl, rfl⟩
  iterate 2
    · obtain ⟨hr, rfl⟩ : r.isRestricted = true ∧ base = q := by simpa using h
      exact ⟨hr, rfl⟩
  · cases h

/-- A node that hands its position on is no optional access there if its first part is none, and it
asks nothing else of that part. -/
theorem exists_of_handedOn_some (h : r.handedOn kind cs.length = some q) :
    ∃ e rest ps, cs = e :: rest ∧ kind.positions (cs.map Node.isAbsent) = free :: ps ∧
      (r.Spares (.mk kind s cs) ↔ (Node.mk kind s cs).isOptionalStep = false ∧ q.Spares e) := by
  obtain ⟨hr, -⟩ := isRestricted_of_handedOn h
  unfold handedOn at h
  split at h
  · rename_i hlength
    obtain ⟨e, rfl⟩ := List.length_eq_one_iff.1 hlength
    obtain ⟨rfl, rfl⟩ : r = target ∧ target = q := by simpa using h
    exact ⟨e, [], [], rfl, rfl, by simp [Spares, Node.core, Node.isOptionalStep, Node.kind]⟩
  iterate 4
    · rename_i hlength
      obtain ⟨e, type, rfl⟩ := List.length_eq_two.1 hlength
      obtain ⟨rfl, rfl⟩ : r = target ∧ target = q := by simpa using h
      exact ⟨e, [type], [free], rfl, rfl,
        by simp [Spares, Node.core, Node.isOptionalStep, Node.kind]⟩
  · rename_i hlength
    obtain ⟨e, rfl⟩ := List.length_eq_one_iff.1 hlength
    refine ⟨e, [], [], rfl, rfl, ?_⟩
    obtain ⟨rfl | rfl, rfl⟩ : (r = target ∨ r = base) ∧ r = q := by simpa using h
    · simp [Spares, Node.core, Node.isOptionalStep, Node.kind]
    · simp [Spares, Node.inChain, Node.isOptionalStep, Node.kind]
  · rename_i optional hlength
    obtain ⟨e, key, rfl⟩ := List.length_eq_two.1 hlength
    obtain rfl : base = q := by simpa [hr] using h
    refine ⟨e, [key], [free], rfl, rfl, (spares_step hr rfl rfl).trans ?_⟩
    cases optional <;> simp [Spares, Node.inChain, Node.isOptionalStep, Node.kind, Node.children]
  · rename_i optional hlength
    obtain ⟨e, args, typeArgs, rfl⟩ := List.length_eq_three.1 hlength
    obtain rfl : base = q := by simpa [hr] using h
    have hspares : (Node.mk (.call optional) s [e, args, typeArgs]).inChain = false ↔
        (Node.mk (.call optional) s [e, args, typeArgs]).isOptionalStep = false ∧
          base.Spares e := by
      cases optional <;> simp [Spares, Node.inChain, Node.isOptionalStep, Node.kind, Node.children]
    refine ⟨e, [args, typeArgs],
      (Kind.positions (.call optional) ([e, args, typeArgs].map Node.isAbsent)).tail, rfl, ?_,
      (spares_step hr rfl rfl).trans hspares⟩
    cases optional <;> cases hargs : typeArgs.isAbsent <;> simp [Kind.positions, hargs]
  · cases h

theorem accepts_iff {n : Node} (hr : r ≠ unchecked) : r.Accepts n ↔ r.Spares n ∧ n.Admissible :=
  ⟨fun h ↦ h hr, fun h _ ↦ h⟩

/-- A node is what a position asks for exactly if it is no optional access where none may stand and
its parts are what their positions ask for. -/
theorem accepts_mk : r.Accepts (.mk kind s cs) ↔
    (r.isRestricted = true → (Node.mk kind s cs).isOptionalStep = false) ∧
      List.Forall₂ Accepts (r.ofParts kind (cs.map Node.isAbsent)) cs := by
  by_cases hr : r = unchecked
  · subst hr
    simp [ofParts, isRestricted, List.forall₂_same]
  rw [accepts_iff hr, ofParts, if_neg hr, List.length_map, Node.admissible_mk]
  cases h : r.handedOn kind cs.length with
  | none =>
    rw [and_iff_right (spares_of_handedOn_none h)]
    exact (and_iff_right fun hrestricted ↦ isOptionalStep_of_handedOn hrestricted h).symm
  | some q =>
    obtain ⟨hrestricted, hq⟩ := isRestricted_of_handedOn h
    have hne : q ≠ unchecked := by
      rintro rfl
      cases hq
    obtain ⟨e, rest, ps, rfl, hps, hspares⟩ := exists_of_handedOn_some (s := s) h
    rw [hspares, hps]
    simp [hrestricted, accepts_iff hne, and_assoc]

end Position

/-! ## Replacing a part -/

theorem forall₂_set_iff {α β : Type} {R : α → β → Prop} {xs : List α} {ys : List β} {x : α} {y : β}
    {i : Nat} (h : List.Forall₂ R xs ys) (hx : xs[i]? = some x) :
    List.Forall₂ R xs (ys.set i y) ↔ R x y := by
  induction h generalizing i with
  | nil => cases hx
  | cons hab hrest ih =>
    cases i with
    | zero =>
      obtain rfl := Option.some.inj hx
      simp [hrest]
    | succ i => simpa [hab] using ih hx

theorem exists_getElem?_of_forall₂ {α β : Type} {R : α → β → Prop} {xs : List α} {ys : List β}
    {y : β} {i : Nat} (h : List.Forall₂ R xs ys) (hy : ys[i]? = some y) :
    ∃ x, xs[i]? = some x ∧ R x y := by
  induction h generalizing i with
  | nil => cases hy
  | cons hab hrest ih =>
    cases i with
    | zero =>
      obtain rfl := Option.some.inj hy
      exact ⟨_, rfl, hab⟩
    | succ i => exact ih hy

namespace Node

/-- The positions of the node's parts, where the node itself stands at `r`. -/
def positions (r : Position) (n : Node) : List Position :=
  r.ofParts n.kind (n.children.map isAbsent)

/-- The position that a path leads to from a node that stands at `r`. -/
def positionFrom (r : Position) : List Nat → Node → Position
  | [], _ => r
  | i :: path, n =>
    match (n.positions r)[i]?, n.children[i]? with
    | some q, some c => positionFrom q path c
    | _, _ => .unchecked

/-- The position that a path leads to in a program. -/
def position (path : List Nat) (program : Node) : Position :=
  program.positionFrom .free path

variable {r q : Position} {n old new c : Node} {path : List Nat} {kind : Kind} {s : Span}
  {cs : List Node} {i : Nat}

theorem replaceAt_cons (h : cs[i]? = some c) :
    (mk kind s cs).replaceAt (i :: path) new = mk kind s (cs.set i (c.replaceAt path new)) := by
  rw [replaceAt, h]

theorem isAbsent_replaceAt (hold : n.at? path = some old) (h : new.isAbsent = old.isAbsent) :
    (n.replaceAt path new).isAbsent = n.isAbsent := by
  cases path with
  | nil =>
    obtain rfl : n = old := Option.some.inj hold
    exact h
  | cons i path =>
    obtain ⟨kind, s, cs⟩ := n
    obtain ⟨c, hc, -⟩ := at?_cons.1 hold
    rw [replaceAt_cons hc]
    rfl

theorem map_isAbsent_set (hc : cs[i]? = some c) {c' : Node} (h : c'.isAbsent = c.isAbsent) :
    (cs.set i c').map isAbsent = cs.map isAbsent := by
  induction cs generalizing i with
  | nil => rfl
  | cons a cs ih =>
    cases i with
    | zero =>
      obtain rfl := Option.some.inj hc
      simp [h]
    | succ i => simpa using ih hc

theorem positionFrom_cons {ps : List Position} (hps : r.ofParts kind (cs.map isAbsent) = ps)
    (hq : ps[i]? = some q) (hc : cs[i]? = some c) :
    (mk kind s cs).positionFrom r (i :: path) = c.positionFrom q path := by
  subst hps
  have hq' : ((mk kind s cs).positions r)[i]? = some q := hq
  have hc' : (mk kind s cs).children[i]? = some c := hc
  rw [positionFrom, hq', hc']

/-- A part that is replaced is looked at in its own position only. -/
theorem accepts_replaceAt (hn : r.Accepts n) (hold : n.at? path = some old)
    (habsent : new.isAbsent = old.isAbsent)
    (hnew : ∀ q : Position, q.Accepts old → (q.Accepts new ↔ q.isRestricted = false)) :
    r.Accepts (n.replaceAt path new) ↔ (n.positionFrom r path).isRestricted = false := by
  induction path generalizing r n with
  | nil =>
    obtain rfl : n = old := Option.some.inj hold
    exact hnew r hn
  | cons i path ih =>
    obtain ⟨kind, s, cs⟩ := n
    obtain ⟨c, hc, hold⟩ := at?_cons.1 hold
    obtain ⟨hself, hparts⟩ := Position.accepts_mk.1 hn
    obtain ⟨q, hq, hcq⟩ := exists_getElem?_of_forall₂ hparts hc
    have hoptional : (mk kind s (cs.set i (c.replaceAt path new))).isOptionalStep =
        (mk kind s cs).isOptionalStep := by
      unfold isOptionalStep children Node.kind
      rw [List.length_set]
    rw [replaceAt_cons hc, Position.accepts_mk,
      map_isAbsent_set hc (isAbsent_replaceAt hold habsent), forall₂_set_iff hparts hq, hoptional,
      and_iff_right hself, positionFrom_cons rfl hq hc]
    exact ih hcq hold

end Node

end OptionalChain
