import OptionalChain.Proofs.Shapes
import OptionalChain.Proofs.Walks

/-!
# Answers within a depth

What lies too deep is unresolved, and resolution carries that on, except in three places: an
intersection looks for primitives among its parts and leaves out the others, a member of an
intersection leaves out the parts that do not tell it, and the parents of an interface are tried one
after the other until one has the member. A resolver that keeps what these leave out never gives a
definite answer that a deeper one does not give. So the bound is safe for every expression for which
nothing unresolved is left out.
-/

namespace OptionalChain

namespace Resolver

/-! ## Keeping what is unresolved -/

/-- The unresolved parts of an intersection, which its type leaves out. -/
def leftOutOfType (r : Resolver) : Node → List Resolved
  | .mk (.type .intersection) _ parts => (parts.flatMap r.type).filter (·.isUnresolved)
  | _ => []

/-- The unresolved answers of the parts of an intersection, which its member leaves out. -/
def leftOutOfMember (r : Resolver) (key : Key) : Resolved → List Resolved
  | .intersection parts =>
    (parts.flatMap fun t ↦ r.member (r.type t) key).filter (·.isUnresolved)
  | _ => []

/-- The level above `r`, with all that is left out. -/
def keepingAbove (d : Declarations) (r : Resolver) : Resolver :=
  { above d r with
    type := fun t ↦ typeWith d r t ++ r.leftOutOfType t
    member := fun target key ↦ memberWith d r target key ++ target.flatMap (r.leftOutOfMember key) }

/-- Below level zero interfaces and classes may have any member. -/
def keepingBottom : Resolver :=
  { bottom with
    interface := fun _ _ ↦ some unresolved
    ofClass := fun _ _ ↦ some unresolved }

def keepingLevel (d : Declarations) : Nat → Resolver
  | 0 => keepingBottom
  | n + 1 => keepingAbove d (keepingLevel d n)

/-! ## Agreement -/

/-- The second answer is unresolved or the same. -/
def Agrees (xs ys : List Resolved) : Prop :=
  .kind .unresolved ∈ ys ∨ xs = ys

/-- The same for members that are perhaps not found. What is unresolved counts as found. -/
def AgreesFound (x? y? : Option (List Resolved)) : Prop :=
  (∃ ys, y? = some ys ∧ .kind .unresolved ∈ ys) ∨ x? = y?

section Lists

variable {xs ys xs' ys' : List Resolved}

theorem Agrees.refl (xs : List Resolved) : Agrees xs xs :=
  .inr rfl

theorem agrees_unresolved (xs : List Resolved) : Agrees xs unresolved :=
  .inl (List.mem_singleton_self _)

theorem Agrees.append (h : Agrees xs ys) (h' : Agrees xs' ys') :
    Agrees (xs ++ xs') (ys ++ ys') := by
  obtain hout | rfl := h
  · exact .inl (List.mem_append_left _ hout)
  obtain hout | rfl := h'
  · exact .inl (List.mem_append_right _ hout)
  · exact .refl _

theorem agrees_flatMap {α : Type} {f g : α → List Resolved} (as : List α)
    (h : ∀ a ∈ as, Agrees (f a) (g a)) : Agrees (as.flatMap f) (as.flatMap g) := by
  induction as with
  | nil => exact .refl []
  | cons a as ih =>
    obtain ⟨ha, has⟩ := List.forall_mem_cons.1 h
    exact ha.append (ih has)

/-- What follows from answers agrees if the unresolved answer stays unresolved. -/
theorem Agrees.flatMap (h : Agrees xs ys) {f g : Resolved → List Resolved}
    (hout : .kind .unresolved ∈ g (.kind .unresolved)) (hfg : ∀ x ∈ ys, Agrees (f x) (g x)) :
    Agrees (xs.flatMap f) (ys.flatMap g) := by
  obtain hlost | rfl := h
  · exact .inl (List.mem_flatMap.2 ⟨_, hlost, hout⟩)
  · exact agrees_flatMap xs hfg

theorem Agrees.orUnresolved (h : Agrees xs ys) : Agrees (orUnresolved xs) (orUnresolved ys) := by
  obtain hout | rfl := h
  · left
    unfold Resolver.orUnresolved
    split
    · exact List.mem_singleton_self _
    · exact hout
  · exact .refl _

theorem Agrees.withUndefined (optional : Bool) (h : Agrees xs ys) :
    Agrees (withUndefined optional xs) (withUndefined optional ys) := by
  cases optional with
  | false => exact h
  | true => exact h.append (.refl _)

theorem Agrees.dropNullish (h : Agrees xs ys) : Agrees (dropNullish xs) (dropNullish ys) := by
  obtain hout | rfl := h
  · exact .inl (List.mem_filter.2 ⟨hout, rfl⟩)
  · exact .refl _

variable {x? y? x'? y'? : Option (List Resolved)}

theorem AgreesFound.refl (x? : Option (List Resolved)) : AgreesFound x? x? :=
  .inr rfl

theorem Agrees.found (h : Agrees xs ys) : AgreesFound (some xs) (some ys) := by
  obtain hout | rfl := h
  · exact .inl ⟨ys, rfl, hout⟩
  · exact .refl _

theorem AgreesFound.getD (h : AgreesFound x? y?) :
    Agrees (x?.getD unresolved) (y?.getD unresolved) := by
  obtain ⟨ys, rfl, hout⟩ | rfl := h
  · exact .inl hout
  · exact .refl _

theorem AgreesFound.orElse (h : AgreesFound x? y?) (h' : AgreesFound x'? y'?) :
    AgreesFound (x? <|> x'?) (y? <|> y'?) := by
  obtain ⟨ys, rfl, hout⟩ | rfl := h
  · exact .inl ⟨ys, rfl, hout⟩
  · cases x? with
    | none => simpa using h'
    | some xs => exact .refl _

theorem agreesFound_findSome? {α : Type} {f g : α → Option (List Resolved)} (as : List α)
    (h : ∀ a, AgreesFound (f a) (g a)) : AgreesFound (as.findSome? f) (as.findSome? g) := by
  induction as with
  | nil => exact .refl none
  | cons a as ih =>
    have hfirst := (h a).orElse ih
    rw [List.findSome?_cons, List.findSome?_cons]
    cases hf : f a <;> cases hg : g a <;> simpa [hf, hg] using hfirst

end Lists

/-! ## One level -/

/-- The answers of the second resolver are unresolved or those of the first. -/
structure Covers (r q : Resolver) : Prop where
  type : ∀ t, Agrees (r.type t) (q.type t)
  expr : ∀ e, Agrees (r.expr e) (q.expr e)
  declared : ∀ x, Agrees (r.declared x) (q.declared x)
  init : ∀ i widen, Agrees (r.init i widen) (q.init i widen)
  call : ∀ {xs ys}, Agrees xs ys → Agrees (r.call xs) (q.call ys)
  member : ∀ {xs ys} key, Agrees xs ys → Agrees (r.member xs key) (q.member ys key)
  interface : ∀ name key, AgreesFound (r.interface name key) (q.interface name key)
  ofClass : ∀ info key, AgreesFound (r.ofClass info key) (q.ofClass info key)

section Steps

variable {type type' expr expr' : Node → List Resolved}
  (htype : ∀ t, Agrees (type t) (type' t)) (hexpr : ∀ e, Agrees (expr e) (expr' e))

include htype

theorem agrees_typeOr (t : Node) : Agrees (typeOr type t) (typeOr type' t) := by
  unfold typeOr
  split
  · exact htype _
  · exact .refl _

include hexpr

theorem agrees_valueWith (widen : Bool) (n : Node) :
    Agrees (valueWith type expr widen n) (valueWith type' expr' widen n) := by
  induction n using Node.induction_parts with
  | step kind s cs ih =>
    cases kind
    case paren | constAssertion =>
      rcases cs with _ | ⟨e, _ | ⟨_, _⟩⟩
      · exact .refl _
      · exact ih e (List.mem_singleton_self e)
      · exact .refl _
    case ident name =>
      by_cases hname : name = "undefined"
      · subst hname
        exact .refl _
      · rw [valueWith_ident hname, valueWith_ident hname]
        exact hexpr _
    case asType | typeAssertion =>
      rcases cs with _ | ⟨_, _ | ⟨t, _ | ⟨_, _⟩⟩⟩
      all_goals try exact .refl _
      exact htype t
    case thisRef | member | call | nonNull | satisfies => exact hexpr _
    all_goals exact .refl _

theorem agrees_initWith (i : Initial) (widen : Bool) :
    Agrees (initWith type expr i widen) (initWith type' expr' i widen) := by
  cases i with
  | value n => exact agrees_valueWith htype hexpr widen n
  | reference n => exact hexpr n

omit hexpr

theorem agrees_declaredWith {init init' : Initial → Bool → List Resolved}
    (hinit : ∀ i widen, Agrees (init i widen) (init' i widen)) (x : Declared) :
    Agrees (declaredWith type init x) (declaredWith type' init' x) := by
  cases x with
  | annotated t optional => exact (htype t).withUndefined optional
  | initialized value widen => exact hinit _ widen
  | function | classObject | untyped => exact .refl _

theorem agrees_callWith {xs ys : List Resolved} (h : Agrees xs ys) :
    Agrees (callWith type xs) (callWith type' ys) := by
  refine Agrees.orUnresolved (h.flatMap (List.mem_singleton_self _) fun x _ ↦ ?_)
  cases x with
  | function result => exact agrees_typeOr htype result
  | members elements =>
    simp only [callOne]
    split
    · exact htype _
    · exact .refl _
  | kind k => cases k <;> exact .refl _
  | interface | intersection | array | tuple | record | instanceOf | object => exact .refl _

theorem agreesFound_namedElement? (name : String) (n : Node) :
    AgreesFound (namedElement? type name n) (namedElement? type' name n) := by
  unfold namedElement?
  split
  · split
    · exact ((agrees_typeOr htype _).withUndefined _).found
    · exact .refl none
  · exact .refl _
  · split
    · exact (agrees_typeOr htype _).found
    · exact .refl none
  · exact .refl none

theorem agreesFound_indexElement? (n : Node) :
    AgreesFound (indexElement? type n) (indexElement? type' n) := by
  unfold indexElement?
  split
  · exact (agrees_typeOr htype _).found
  · exact .refl none

theorem agreesFound_element? (elements : List Node) (key : Key) :
    AgreesFound (element? type elements key) (element? type' elements key) := by
  have hindex := agreesFound_findSome? elements (agreesFound_indexElement? htype)
  cases key with
  | name name =>
    have hnamed := agreesFound_findSome? elements (agreesFound_namedElement? htype name)
    exact hnamed.orElse hindex
  | index | dynamic => exact (AgreesFound.refl none).orElse hindex

theorem agrees_memberOfArray (t? : Option Node) (key : Key) :
    Agrees (memberOfArray type t? key) (memberOfArray type' t? key) := by
  cases key with
  | name => exact .refl _
  | index | dynamic =>
    cases t? with
    | none => exact .refl _
    | some t => exact htype t

theorem agrees_tupleType (n : Node) : Agrees (tupleType type n) (tupleType type' n) := by
  unfold tupleType
  split
  · exact htype _
  · exact .refl _

theorem agrees_memberOfTuple (elements : List Node) (key : Key) :
    Agrees (memberOfTuple type elements key) (memberOfTuple type' elements key) := by
  cases key with
  | name => exact .refl _
  | index value =>
    simp only [memberOfTuple]
    split
    · exact agrees_tupleType htype _
    · exact .refl _
  | dynamic => exact agrees_flatMap elements fun e _ ↦ agrees_tupleType htype e

theorem agrees_builtinType (name : String) (args : List Node) :
    Agrees (builtinType type name args) (builtinType type' name args) := by
  unfold builtinType
  split
  all_goals try exact .refl _
  · split
    · exact (htype _).dropNullish
    · exact .refl _
  · split
    · exact htype _
    · exact .refl _

end Steps

theorem not_mem_of_leftOut {xs : List Resolved} (h : xs.filter (·.isUnresolved) = []) :
    .kind .unresolved ∉ xs := by
  intro hmem
  have hout : .kind .unresolved ∈ xs.filter (·.isUnresolved) := List.mem_filter.2 ⟨hmem, rfl⟩
  rw [h] at hout
  cases hout

theorem mem_of_leftOut {xs : List Resolved} (h : ∀ x ∈ xs, x.isUnresolved = true) (hne : xs ≠ []) :
    .kind .unresolved ∈ xs := by
  obtain ⟨x, hx⟩ := List.exists_mem_of_ne_nil xs hne
  have hkind := h x hx
  unfold Resolved.isUnresolved at hkind
  split at hkind
  · exact hx
  · cases hkind

theorem isUnresolved_leftOutOfType (r : Resolver) (t : Node) :
    ∀ x ∈ r.leftOutOfType t, x.isUnresolved = true := by
  unfold leftOutOfType
  split
  · exact fun x hx ↦ (List.mem_filter.1 hx).2
  · exact List.forall_mem_nil _

theorem isUnresolved_leftOutOfMember (r : Resolver) (key : Key) (x : Resolved) :
    ∀ y ∈ r.leftOutOfMember key x, y.isUnresolved = true := by
  unfold leftOutOfMember
  split
  · exact fun y hy ↦ (List.mem_filter.1 hy).2
  · exact List.forall_mem_nil _

theorem memberOne_unresolved {d : Declarations} (r : Resolver) (key : Key) :
    memberOne d r key (.kind .unresolved) = unresolved := by
  change memberOfPrimitive .unresolved key = unresolved
  unfold memberOfPrimitive
  split <;> rfl

section Level

variable {d : Declarations} {r q : Resolver} (h : r.Covers q)

include h

theorem agreesFound_interfaceWith (name : String) (key : Key) :
    AgreesFound (interfaceWith d r name key) (interfaceWith d q name key) := by
  have hown (i : Interface) := agreesFound_element? h.type i.members key
  exact (agreesFound_findSome? (d.interfacesNamed name) hown).orElse
    (agreesFound_findSome? _ fun parent ↦ h.interface parent key)

theorem agreesFound_classWith (info : ClassInfo) (key : Key) :
    AgreesFound (classWith d r info key) (classWith d q info key) := by
  cases key with
  | index | dynamic => exact .refl none
  | name name =>
    simp only [classWith]
    split
    · exact (h.declared _).found
    · cases info.parent?.bind d.class? with
      | none => exact .refl none
      | some parent => exact h.ofClass parent _

theorem agreesFound_propertyValue? (name : String) (n : Node) :
    AgreesFound (propertyValue? r name n) (propertyValue? q name n) := by
  unfold propertyValue?
  split
  · split
    · exact (h.init _ true).found
    · exact .refl none
  · split
    · exact (h.init _ true).found
    · exact .refl none
  · exact .refl _
  · exact .refl none

/-- A member agrees if no part of an intersection is left out. -/
theorem agrees_memberOne (key : Key) (x : Resolved) (hkept : q.leftOutOfMember key x = []) :
    Agrees (memberOne d r key x) (memberOne d q key x) := by
  cases x with
  | kind k => cases k <;> exact .refl _
  | function => exact .refl _
  | members elements => exact (agreesFound_element? h.type elements key).getD
  | interface name => exact (agreesFound_interfaceWith h name key).getD
  | intersection parts =>
    have hparts := agrees_flatMap parts fun t _ ↦ h.member key (h.type t)
    obtain hout | heq := hparts
    · exact (not_mem_of_leftOut hkept hout).elim
    · right
      simp only [memberOne, heq]
  | array t? => exact agrees_memberOfArray h.type t? key
  | tuple elements => exact agrees_memberOfTuple h.type elements key
  | record value => exact h.type value
  | instanceOf info => exact (agreesFound_classWith h info key).getD
  | object properties =>
    cases key with
    | name name => exact (agreesFound_findSome? properties (agreesFound_propertyValue? h name)).getD
    | index | dynamic => exact .refl _

theorem agrees_keeping_member {xs ys : List Resolved} (key : Key) (hxs : Agrees xs ys) :
    Agrees (memberWith d r xs key)
      (memberWith d q ys key ++ ys.flatMap (q.leftOutOfMember key)) := by
  by_cases hkept : ys.flatMap (q.leftOutOfMember key) = []
  · rw [hkept, List.append_nil]
    refine Agrees.orUnresolved (hxs.flatMap ?_ fun x hx ↦ ?_)
    · rw [memberOne_unresolved]
      exact List.mem_singleton_self _
    · exact agrees_memberOne h key x (List.flatMap_eq_nil_iff.1 hkept x hx)
  · refine .inl (List.mem_append_right _ (mem_of_leftOut (fun y hy ↦ ?_) hkept))
    obtain ⟨x, -, hy⟩ := List.mem_flatMap.1 hy
    exact isUnresolved_leftOutOfMember q key x y hy

theorem agrees_referenceWith (name : String) (args : List Node) :
    Agrees (referenceWith d r name args) (referenceWith d q name args) := by
  unfold referenceWith
  split
  · exact h.type _
  · split
    · exact .refl _
    · split
      · exact .refl _
      · exact agrees_builtinType h.type name args

/-- A type agrees if no part of an intersection is left out. -/
theorem agrees_typeWith (t : Node) (hkept : q.leftOutOfType t = []) :
    Agrees (typeWith d r t) (typeWith d q t) := by
  obtain ⟨kind, s, cs⟩ := t
  cases kind
  case type form =>
    cases form
    case union => exact agrees_flatMap cs fun t _ ↦ h.type t
    case intersection =>
      obtain hout | heq := agrees_flatMap cs fun t _ ↦ h.type t
      · exact (not_mem_of_leftOut hkept hout).elim
      · right
        simp only [typeWith, intersectionWith, heq]
    case paren =>
      rcases cs with _ | ⟨t, _ | ⟨_, _⟩⟩
      · exact .refl _
      · exact h.type t
      · exact .refl _
    case optional =>
      rcases cs with _ | ⟨t, _ | ⟨_, _⟩⟩
      · exact .refl _
      · exact (h.type t).withUndefined true
      · exact .refl _
    case reference =>
      obtain _ | ⟨name, rest⟩ := cs
      · exact .refl _
      simp only [typeWith]
      split
      · exact agrees_referenceWith h _ _
      · exact .refl _
    case query =>
      obtain _ | ⟨name, rest⟩ := cs
      · exact .refl _
      simp only [typeWith]
      split
      · exact h.declared _
      · exact .refl _
    case operator op =>
      cases op
      case readonly =>
        rcases cs with _ | ⟨t, _ | ⟨_, _⟩⟩
        · exact .refl _
        · exact h.type t
        · exact .refl _
      all_goals exact .refl _
    case array =>
      rcases cs with _ | ⟨t, _ | ⟨_, _⟩⟩
      all_goals exact .refl _
    case function =>
      rcases cs with _ | ⟨_, _ | ⟨result, _ | ⟨_, _ | ⟨_, _⟩⟩⟩⟩
      all_goals exact .refl _
    all_goals exact .refl _
  all_goals exact .refl _

theorem agrees_keeping_type (t : Node) :
    Agrees (typeWith d r t) (typeWith d q t ++ q.leftOutOfType t) := by
  by_cases hkept : q.leftOutOfType t = []
  · rw [hkept, List.append_nil]
    exact agrees_typeWith h t hkept
  · exact .inl (List.mem_append_right _ (mem_of_leftOut (isUnresolved_leftOutOfType q t) hkept))

theorem agrees_exprWith (e : Node) : Agrees (exprWith d r e) (exprWith d q e) := by
  obtain ⟨kind, s, cs⟩ := e
  cases kind
  case ident name =>
    simp only [exprWith, nameWith]
    split
    · exact h.declared _
    · exact .refl _
  case paren =>
    rcases cs with _ | ⟨inner, _ | ⟨_, _⟩⟩
    · exact .refl _
    · exact h.expr inner
    · exact .refl _
  case nonNull =>
    rcases cs with _ | ⟨inner, _ | ⟨_, _⟩⟩
    · exact .refl _
    · exact (h.expr inner).dropNullish
    · exact .refl _
  case member optional =>
    rcases cs with _ | ⟨object, _ | ⟨key, _ | ⟨_, _⟩⟩⟩
    all_goals try exact .refl _
    exact (h.member _ (h.expr object)).withUndefined optional
  case call optional =>
    rcases cs with _ | ⟨callee, _ | ⟨_, _ | ⟨_, _ | ⟨_, _⟩⟩⟩⟩
    all_goals try exact .refl _
    simp only [exprWith]
    split
    · exact (h.call (h.expr callee)).withUndefined optional
    · exact .refl _
  case asType | typeAssertion =>
    rcases cs with _ | ⟨_, _ | ⟨t, _ | ⟨_, _⟩⟩⟩
    all_goals try exact .refl _
    exact h.type t
  case satisfies | constAssertion =>
    obtain _ | ⟨inner, _⟩ := cs
    · exact .refl _
    · exact h.expr inner
  case new =>
    obtain _ | ⟨callee, _⟩ := cs
    all_goals exact .refl _
  all_goals exact .refl _

/-- One level up, answers still agree once nothing is left out. -/
theorem Covers.above : (above d r).Covers (keepingAbove d q) where
  type := agrees_keeping_type h
  expr := agrees_exprWith h
  declared := agrees_declaredWith h.type h.init
  init := agrees_initWith h.type h.expr
  call := agrees_callWith h.type
  member := agrees_keeping_member h
  interface := agreesFound_interfaceWith h
  ofClass := agreesFound_classWith h

end Level

/-! ## All levels -/

theorem agrees_bottom_init (d : Declarations) (n : Nat) (i : Initial) (widen : Bool) :
    Agrees ((level d n).init i widen) (bottom.init i widen) := by
  cases n with
  | zero => exact .refl _
  | succ n =>
    exact agrees_initWith (fun _ ↦ agrees_unresolved _) (fun _ ↦ agrees_unresolved _) i widen

theorem agrees_bottom_declared (d : Declarations) (n : Nat) (x : Declared) :
    Agrees ((level d n).declared x) (bottom.declared x) := by
  cases n with
  | zero => exact .refl _
  | succ n => exact agrees_declaredWith (fun _ ↦ agrees_unresolved _) (agrees_bottom_init d n) x

theorem agrees_bottom_call (d : Declarations) (n : Nat) {xs ys : List Resolved}
    (h : Agrees xs ys) : Agrees ((level d n).call xs) (bottom.call ys) := by
  cases n with
  | zero => exact agrees_callWith (fun _ ↦ .refl _) h
  | succ n => exact agrees_callWith (fun _ ↦ agrees_unresolved _) h

theorem covers_keepingBottom (d : Declarations) (n : Nat) : (level d n).Covers keepingBottom where
  type _ := agrees_unresolved _
  expr _ := agrees_unresolved _
  declared := agrees_bottom_declared d n
  init := agrees_bottom_init d n
  call := agrees_bottom_call d n
  member _ _ := agrees_unresolved _
  interface _ _ := .inl ⟨unresolved, rfl, List.mem_singleton_self _⟩
  ofClass _ _ := .inl ⟨unresolved, rfl, List.mem_singleton_self _⟩

/-- Every level agrees with all lower ones that keep what is left out. -/
theorem covers_keepingLevel (d : Declarations) {n m : Nat} (h : n ≤ m) :
    (level d m).Covers (keepingLevel d n) := by
  induction n generalizing m with
  | zero => exact covers_keepingBottom d m
  | succ n ih =>
    obtain ⟨m, rfl⟩ := Nat.exists_eq_add_of_le' (Nat.one_le_of_lt h)
    exact (ih (Nat.le_of_succ_le_succ h)).above

end Resolver

namespace Declarations

/-- Whether what is unresolved within the depth is left out of the shape. -/
def dropsUnresolved (d : Declarations) (depth : Nat) (e : Node) : Bool :=
  ((Resolver.keepingLevel d (depth + 1)).expr e).any (·.isUnresolved) &&
    !(d.shapeWithin depth e).kinds.contains .unresolved

variable {d : Declarations} {n m : Nat} {e : Node}

theorem unresolved_mem_shapeWithin (hkept : d.dropsUnresolved n e = false)
    (hout : .kind .unresolved ∈ (Resolver.keepingLevel d (n + 1)).expr e) :
    .unresolved ∈ (d.shapeWithin n e).kinds := by
  have hany : ((Resolver.keepingLevel d (n + 1)).expr e).any (·.isUnresolved) = true :=
    List.any_eq_true.2 ⟨_, hout, rfl⟩
  simpa [dropsUnresolved, hany] using hkept

/-- The answers within two depths differ only if the first is unresolved. -/
theorem shapeWithin_eq_or_unresolved (h : n ≤ m) (hkept : d.dropsUnresolved n e = false) :
    .unresolved ∈ (d.shapeWithin n e).kinds ∨ d.shapeWithin m e = d.shapeWithin n e := by
  obtain hout | heq := (Resolver.covers_keepingLevel d (Nat.le_refl (n + 1))).expr e
  · exact .inl (unresolved_mem_shapeWithin hkept hout)
  obtain hout | heq' := (Resolver.covers_keepingLevel d (Nat.succ_le_succ h)).expr e
  · exact .inl (unresolved_mem_shapeWithin hkept hout)
  · right
    rw [shapeWithin, shapeWithin, heq, heq']

/-- Unless something unresolved is left out, what an expression may be when more steps are followed
is told within the depth, or the answer there is unresolved. So nothing else looks like an
object. -/
theorem depth_bound_is_conservative (d : Declarations) (e : Node) {n m : Nat} (h : n ≤ m)
    (hkept : d.dropsUnresolved n e = false) :
    (∀ k ∈ (d.shapeWithin m e).kinds,
        k ∈ (d.shapeWithin n e).kinds ∨ .unresolved ∈ (d.shapeWithin n e).kinds) ∧
      ((d.shapeWithin n e).kinds = [.object] → (d.shapeWithin m e).kinds = [.object]) := by
  obtain hout | heq := shapeWithin_eq_or_unresolved h hkept
  · refine ⟨fun _ _ ↦ .inr hout, fun hobject ↦ ?_⟩
    rw [hobject] at hout
    cases List.mem_singleton.1 hout
  · rw [heq]
    exact ⟨fun _ hk ↦ .inl hk, id⟩

/-- A program that declares `x` with a type in so many parentheses and uses it. -/
def parenthesized (count : Nat) (type : String) : SourceFile :=
  .ofText "a.ts" ("let x: ".toList ++ List.replicate count '(' ++ type.toList ++
    List.replicate count ')' ++ ";\nx;".toList)

def deepString : Node :=
  (parenthesized 20 "string").program?.get (by decide +kernel)

def deepIntersection : Node :=
  (parenthesized 14 "string & \x7b\x7d").program?.get (by decide +kernel)

/-- A string type that lies too deep is unresolved. An intersection whose parts lie just too deep
loses its string, and is no longer told from an object: here something is left out. -/
theorem deep_types_resolved_later :
    (∃ e ∈ deepString.preorder,
      (Declarations.ofProgram deepString).dropsUnresolved maxDepth e = false ∧
        .primitive .string ∈ ((Declarations.ofProgram deepString).shapeWithin 24 e).kinds ∧
        (.primitive .string ∈ ((Declarations.ofProgram deepString).oracle e).kinds ∨
          .unresolved ∈ ((Declarations.ofProgram deepString).oracle e).kinds)) ∧
      ∃ e ∈ deepIntersection.preorder,
        (Declarations.ofProgram deepIntersection).dropsUnresolved maxDepth e = true ∧
          ((Declarations.ofProgram deepIntersection).oracle e).kinds = [.object] ∧
          ((Declarations.ofProgram deepIntersection).shapeWithin 17 e).kinds =
            [.primitive .string] := by
  refine ⟨?_, by decide +kernel⟩
  obtain ⟨e, he, hkept, hstring⟩ :
      ∃ e ∈ deepString.preorder,
        (Declarations.ofProgram deepString).dropsUnresolved maxDepth e = false ∧
          .primitive .string ∈ ((Declarations.ofProgram deepString).shapeWithin 24 e).kinds := by
    decide +kernel
  have hshapes := depth_bound_is_conservative _ e (by decide : maxDepth ≤ 24) hkept
  exact ⟨e, he, hkept, hstring, hshapes.1 _ hstring⟩

end Declarations

end OptionalChain
