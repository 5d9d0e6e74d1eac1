import OptionalChain.Proofs.NestedSpans
import OptionalChain.Proofs.ReorderedUnions
import OptionalChain.Proofs.Shapes

/-!
# The order of union members does not count

Resolution follows related declarations to related answers, level by level, and a shape that has the
same kinds gets the same verdict. So programs that differ in the order of the members of their
unions are judged alike.
-/

open scoped Relator

namespace OptionalChain

/-! ## Answers -/

inductive Resolved.Reorders : Resolved → Resolved → Prop where
  | kind (k : TypeKind) : Reorders (.kind k) (.kind k)
  | members {es fs : List Node} (h : List.Forall₂ Node.Reorders es fs) :
    Reorders (.members es) (.members fs)
  | interface (name : String) : Reorders (.interface name) (.interface name)
  | intersection {ts us : List Node} (h : List.Forall₂ Node.Reorders ts us) :
    Reorders (.intersection ts) (.intersection us)
  | array {t? u? : Option Node} (h : Option.Rel Node.Reorders t? u?) :
    Reorders (.array t?) (.array u?)
  | tuple {es fs : List Node} (h : List.Forall₂ Node.Reorders es fs) :
    Reorders (.tuple es) (.tuple fs)
  | record {t u : Node} (h : t.Reorders u) : Reorders (.record t) (.record u)
  | function {t u : Node} (h : t.Reorders u) : Reorders (.function t) (.function u)
  | instanceOf {c d : ClassInfo} (h : c.Reorders d) : Reorders (.instanceOf c) (.instanceOf d)
  | object {ps qs : List Node} (h : List.Forall₂ Node.Reorders ps qs) :
    Reorders (.object ps) (.object qs)

namespace Resolved.Reorders

variable {x y : Resolved}

theorem toKind_eq (h : x.Reorders y) : x.toKind = y.toKind := by
  cases h <;> rfl

theorem isNullish_eq (h : x.Reorders y) : x.isNullish = y.isNullish := by
  cases h <;> rfl

theorem isPrimitive_eq (h : x.Reorders y) : x.isPrimitive = y.isPrimitive := by
  cases h <;> rfl

theorem isUnresolved_eq (h : x.Reorders y) : x.isUnresolved = y.isUnresolved := by
  cases h <;> rfl

end Resolved.Reorders

inductive Initial.Reorders : Initial → Initial → Prop where
  | value {n m : Node} (h : n.Reorders m) : Reorders (.value n) (.value m)
  | reference {n m : Node} (h : n.Reorders m) : Reorders (.reference n) (.reference m)

theorem Node.Reorders.key_eq {n m : Node} (h : n.Reorders m) : Key.ofNode n = Key.ofNode m := by
  cases h with
  | union => rfl
  | @node kind s cs ds lists parts =>
    clear lists
    cases kind
    case computed =>
      obtain _ | ⟨hinner, rest⟩ := parts
      · rfl
      cases hinner with
      | union => cases rest <;> rfl
      | @node kind s cs ds lists parts =>
        clear lists
        cases kind
        case literal value => cases value <;> cases rest <;> rfl
        all_goals cases rest <;> rfl
    all_goals rfl

/-- The same answers, up to order and repetition. -/
abbrev Alike : List Resolved → List Resolved → Prop :=
  Matches Resolved.Reorders

namespace Resolver

/-- Related questions get related answers. -/
structure Reorders (r q : Resolver) : Prop where
  type : (Node.Reorders ⇒ Alike) r.type q.type
  expr : (Node.Reorders ⇒ Alike) r.expr q.expr
  declared : (Declared.Reorders ⇒ Alike) r.declared q.declared
  init : ∀ widen, (Initial.Reorders ⇒ Alike) (r.init · widen) (q.init · widen)
  call : (Alike ⇒ Alike) r.call q.call
  member : ∀ key, (Alike ⇒ Alike) (r.member · key) (q.member · key)
  interface : ∀ name key, Option.Rel Alike (r.interface name key) (q.interface name key)
  ofClass : ∀ key, (ClassInfo.Reorders ⇒ Option.Rel Alike) (r.ofClass · key) (q.ofClass · key)

variable {xs ys : List Resolved}

theorem alike_kind (k : TypeKind) : Alike [.kind k] [.kind k] :=
  .singleton (.kind k)

theorem alike_unresolved : Alike unresolved unresolved :=
  alike_kind .unresolved

theorem rel_orUnresolved (h : Alike xs ys) : Alike (orUnresolved xs) (orUnresolved ys) := by
  unfold orUnresolved
  rw [h.isEmpty_eq]
  split
  · exact alike_unresolved
  · exact h

theorem rel_withUndefined (optional : Bool) (h : Alike xs ys) :
    Alike (withUndefined optional xs) (withUndefined optional ys) := by
  cases optional with
  | false => exact h
  | true => exact h.append (alike_kind .undefined)

theorem rel_dropNullish (h : Alike xs ys) : Alike (dropNullish xs) (dropNullish ys) :=
  h.filter fun _ _ hxy ↦ congrArg (!·) hxy.isNullish_eq

theorem rel_getD {o p : Option (List Resolved)} (h : Option.Rel Alike o p) :
    Alike (o.getD unresolved) (p.getD unresolved) := by
  cases h with
  | none => exact alike_unresolved
  | some hxs => exact hxs

theorem alike_memberOfPrimitive (k : TypeKind) (key : Key) :
    Alike (memberOfPrimitive k key) (memberOfPrimitive k key) := by
  unfold memberOfPrimitive
  split
  · split
    · exact alike_kind _
    · exact alike_unresolved
  · split
    · exact alike_kind _
    · exact alike_unresolved
  · exact alike_unresolved

theorem rel_ite (p : Prop) [Decidable p] {xs' ys' : List Resolved} (h : Alike xs ys)
    (h' : Alike xs' ys') : Alike (if p then xs else xs') (if p then ys else ys') := by
  split
  · exact h
  · exact h'

section Steps

variable {type type' expr expr' : Node → List Resolved} (htype : (Node.Reorders ⇒ Alike) type type')
  (hexpr : (Node.Reorders ⇒ Alike) expr expr')

include htype

theorem rel_typeOr : (Node.Reorders ⇒ Alike) (typeOr type) (typeOr type') := by
  intro n m h
  have hpresent := h.rel_present?
  unfold typeOr
  generalize n.present? = t?, m.present? = u? at hpresent ⊢
  cases hpresent with
  | none => exact alike_unresolved
  | some ht => exact htype ht

/-! ## Declared names and initial values -/

include hexpr

theorem rel_valueWith (widen : Bool) :
    (Node.Reorders ⇒ Alike) (valueWith type expr widen) (valueWith type' expr' widen) := by
  intro n m h
  refine h.induction
    (P := fun n m ↦ Alike (valueWith type expr widen n) (valueWith type' expr' widen m))
    (fun kind s cs ds lists parts ih ↦ ?_) fun s cs es _ ↦ alike_kind _
  have hself := hexpr (Node.Reorders.node (s := s) lists parts)
  cases kind
  case paren | constAssertion =>
    rcases ih with _ | ⟨hinner, _ | _⟩
    · exact alike_kind _
    · exact hinner
    · exact alike_kind _
  case ident name =>
    by_cases hname : name = "undefined"
    · subst hname
      exact alike_kind _
    · rw [valueWith_ident hname, valueWith_ident hname]
      exact hself
  case object => exact .singleton (.object parts)
  case arrow | functionExpr =>
    exact .singleton (.function (Node.Reorders.functionResult (.node lists parts)))
  case array => exact .singleton (.array .none)
  case asType | typeAssertion =>
    rcases parts with _ | ⟨_, _ | ⟨ht, _ | _⟩⟩
    · exact alike_kind _
    · exact alike_kind _
    · exact htype ht
    · exact alike_kind _
  case thisRef | member | call | nonNull | satisfies => exact hself
  all_goals exact alike_kind _

theorem rel_initWith (widen : Bool) :
    (Initial.Reorders ⇒ Alike) (initWith type expr · widen) (initWith type' expr' · widen) := by
  intro i j h
  cases h with
  | value h => exact rel_valueWith htype hexpr widen h
  | reference h => exact hexpr h

omit hexpr

theorem rel_declaredWith {init init' : Initial → Bool → List Resolved}
    (hinit : ∀ widen, (Initial.Reorders ⇒ Alike) (init · widen) (init' · widen)) :
    (Declared.Reorders ⇒ Alike) (declaredWith type init) (declaredWith type' init') := by
  intro x y h
  cases h with
  | annotated optional ht => exact rel_withUndefined optional (htype ht)
  | initialized widen hv => exact hinit widen (.value hv)
  | function h => exact .singleton (.function h)
  | classObject => exact alike_kind .object
  | untyped => exact alike_unresolved

/-! ## Calls and members -/

omit htype in
theorem rel_callSignature? {es fs : List Node} (h : List.Forall₂ Node.Reorders es fs) :
    Option.Rel Node.Reorders (callSignature? es) (callSignature? fs) := by
  refine rel_findSome? h fun n m h ↦ ?_
  cases h with
  | union => exact .none
  | @node kind s cs ds lists parts =>
    clear lists
    cases kind
    case type form =>
      cases form
      case callSignature =>
        rcases parts with _ | ⟨_, _ | ⟨hresult, _ | ⟨_, _ | _⟩⟩⟩
        all_goals try exact .none
        exact hresult.rel_present?
      all_goals exact .none
    all_goals exact .none

theorem rel_callWith : (Alike ⇒ Alike) (callWith type) (callWith type') := by
  intro xs ys h
  refine rel_orUnresolved (h.flatMap fun x y hxy ↦ ?_)
  cases hxy with
  | kind k =>
    cases k
    case null | undefined => exact .nil
    case any => exact alike_kind .any
    all_goals exact alike_unresolved
  | function h => exact rel_typeOr htype h
  | @members es fs h =>
    have hsignature := rel_callSignature? h
    simp only [callOne]
    generalize callSignature? es = t?, callSignature? fs = u? at hsignature ⊢
    cases hsignature with
    | none => exact alike_unresolved
    | some ht => exact htype ht
  | interface | intersection | array | tuple | record | instanceOf | object =>
    exact alike_unresolved

omit htype in
theorem rel_ifNamed (name : String) {key key' : Node} (hkey : key.Reorders key')
    (h : Alike xs ys) :
    Option.Rel Alike (if key.keyName? == some name then some xs else none)
      (if key'.keyName? == some name then some ys else none) := by
  rw [hkey.keyName?_eq]
  split
  · exact .some h
  · exact .none

theorem rel_namedElement? (name : String) :
    (Node.Reorders ⇒ Option.Rel Alike) (namedElement? type name) (namedElement? type' name) := by
  intro n m h
  cases h with
  | union => exact .none
  | @node kind s cs ds lists parts =>
    clear lists
    cases kind
    case type form =>
      cases form
      case property optional =>
        rcases parts with _ | ⟨hkey, _ | ⟨ht, _ | _⟩⟩
        all_goals try exact .none
        exact rel_ifNamed name hkey (rel_withUndefined optional (rel_typeOr htype ht))
      case method optional =>
        rcases parts with _ | ⟨hkey, _ | ⟨_, _ | ⟨hresult, _ | ⟨_, _ | _⟩⟩⟩⟩
        all_goals try exact .none
        exact rel_ifNamed name hkey (rel_withUndefined optional (.singleton (.function hresult)))
      case getter =>
        rcases parts with _ | ⟨hkey, _ | ⟨hresult, _ | _⟩⟩
        all_goals try exact .none
        exact rel_ifNamed name hkey (rel_typeOr htype hresult)
      all_goals exact .none
    all_goals exact .none

theorem rel_indexElement? :
    (Node.Reorders ⇒ Option.Rel Alike) (indexElement? type) (indexElement? type') := by
  intro n m h
  cases h with
  | union => exact .none
  | @node kind s cs ds lists parts =>
    clear lists
    cases kind
    case type form =>
      cases form
      case index =>
        rcases parts with _ | ⟨_, _ | ⟨ht, _ | _⟩⟩
        all_goals try exact .none
        exact .some (rel_typeOr htype ht)
      all_goals exact .none
    all_goals exact .none

theorem rel_element? (key : Key) {es fs : List Node} (h : List.Forall₂ Node.Reorders es fs) :
    Option.Rel Alike (element? type es key) (element? type' fs key) := by
  have hindex := rel_findSome? h (rel_indexElement? htype)
  cases key with
  | name name => exact rel_orElse (rel_findSome? h (rel_namedElement? htype name)) hindex
  | index | dynamic => exact rel_orElse .none hindex

theorem rel_memberOfArray (key : Key) {t? u? : Option Node} (h : Option.Rel Node.Reorders t? u?) :
    Alike (memberOfArray type t? key) (memberOfArray type' u? key) := by
  cases key with
  | name name => exact rel_ite _ (alike_kind _) alike_unresolved
  | index | dynamic =>
    cases h with
    | none => exact alike_unresolved
    | some ht => exact htype ht

theorem rel_tupleType : (Node.Reorders ⇒ Alike) (tupleType type) (tupleType type') := by
  intro n m h
  cases h with
  | union => exact alike_unresolved
  | @node kind s cs ds lists parts =>
    clear lists
    cases kind
    case type form =>
      cases form
      case tupleElement =>
        rcases parts with _ | ⟨ht, _ | _⟩
        · exact alike_unresolved
        · exact htype ht
        · exact alike_unresolved
      all_goals exact alike_unresolved
    all_goals exact alike_unresolved

theorem rel_memberOfTuple (key : Key) {es fs : List Node} (h : List.Forall₂ Node.Reorders es fs) :
    Alike (memberOfTuple type es key) (memberOfTuple type' fs key) := by
  cases key with
  | name name => exact rel_ite _ (alike_kind _) alike_unresolved
  | index value =>
    have helement : Option.Rel Node.Reorders (value.toNat?.bind (es[·]?))
        (value.toNat?.bind (fs[·]?)) := by
      cases value.toNat? with
      | none => exact .none
      | some i => exact rel_getElem? h i
    simp only [memberOfTuple]
    generalize value.toNat?.bind (es[·]?) = e?, value.toNat?.bind (fs[·]?) = f? at helement ⊢
    cases helement with
    | none => exact alike_kind .undefined
    | some h => exact rel_tupleType htype h
  | dynamic => exact (Matches.of_forall₂ h).flatMap (rel_tupleType htype)

end Steps

/-! ## One level -/

section Level

variable {d e : Declarations} {r q : Resolver} (hd : d.Reorders e) (hr : r.Reorders q)

include hd hr

theorem rel_interfaceWith (name : String) (key : Key) :
    Option.Rel Alike (interfaceWith d r name key) (interfaceWith e q name key) := by
  have hall := hd.interfacesNamed name
  refine rel_orElse (rel_findSome? hall fun _ _ hi ↦ rel_element? hr.type key hi.members) ?_
  have hparents : (d.interfacesNamed name).flatMap (·.parents) =
      (e.interfacesNamed name).flatMap (·.parents) := by
    rw [List.flatMap_def, List.flatMap_def, map_eq_of_rel hall fun _ _ hi ↦ hi.parents]
  rw [hparents]
  exact rel_findSome? (List.forall₂_same.2 fun _ _ ↦ rfl) fun _ _ h ↦ h ▸ hr.interface _ key

theorem rel_classWith (key : Key) :
    (ClassInfo.Reorders ⇒ Option.Rel Alike) (classWith d r · key) (classWith e q · key) := by
  intro x y h
  cases key with
  | index | dynamic => exact .none
  | name name =>
    have hmember := rel_lookup h.members name
    unfold classWith
    dsimp only
    generalize x.members.lookup name = m?, y.members.lookup name = n? at hmember ⊢
    cases hmember with
    | some h => exact .some (hr.declared h)
    | none =>
      rw [h.parent]
      cases y.parent? with
      | none => exact .none
      | some parent =>
        have hclass := hd.class? parent
        rw [Option.bind_some, Option.bind_some]
        generalize d.class? parent = c?, e.class? parent = d? at hclass ⊢
        cases hclass with
        | none => exact .none
        | some h => exact hr.ofClass _ h

omit hd in
theorem rel_propertyValue? (name : String) :
    (Node.Reorders ⇒ Option.Rel Alike) (propertyValue? r name) (propertyValue? q name) := by
  intro n m h
  cases h with
  | union => exact .none
  | @node kind s cs ds lists parts =>
    clear lists
    cases kind
    case property =>
      rcases parts with _ | ⟨hkey, _ | ⟨hvalue, _ | _⟩⟩
      all_goals try exact .none
      exact rel_ifNamed name hkey (hr.init true (.value hvalue))
    case shorthand =>
      rcases parts with _ | ⟨hident, _ | _⟩
      all_goals try exact .none
      simp only [propertyValue?]
      rw [hident.identName?_eq]
      split
      · exact .some (hr.init true (.reference hident))
      · exact .none
    case method =>
      rcases parts with _ | ⟨hkey, _ | ⟨hfunction, _ | _⟩⟩
      all_goals try exact .none
      exact rel_ifNamed name hkey (.singleton (.function hfunction.functionResult))
    all_goals exact .none

theorem rel_memberOne (key : Key) :
    (Resolved.Reorders ⇒ Alike) (memberOne d r key) (memberOne e q key) := by
  intro x y h
  cases h with
  | kind k =>
    cases k
    case null | undefined => exact .nil
    case any => exact alike_kind .any
    all_goals exact alike_memberOfPrimitive _ key
  | function => exact alike_unresolved
  | members h => exact rel_getD (rel_element? hr.type key h)
  | interface name => exact rel_getD (rel_interfaceWith hd hr name key)
  | intersection h =>
    refine rel_orUnresolved (Matches.filter ?_ fun _ _ hxy ↦ congrArg (!·) hxy.isUnresolved_eq)
    exact (Matches.of_forall₂ h).flatMap fun _ _ ht ↦ hr.member key (hr.type ht)
  | array h => exact rel_memberOfArray hr.type key h
  | tuple h => exact rel_memberOfTuple hr.type key h
  | record h => exact hr.type h
  | instanceOf h => exact rel_getD (rel_classWith hd hr key h)
  | object h =>
    cases key with
    | name name => exact rel_getD (rel_findSome? h (rel_propertyValue? hr name))
    | index | dynamic => exact alike_unresolved

theorem rel_memberWith (key : Key) :
    (Alike ⇒ Alike) (memberWith d r · key) (memberWith e q · key) :=
  fun _ _ h ↦ rel_orUnresolved (h.flatMap (rel_memberOne hd hr key))

/-! ## Types and expressions -/

omit hd in
theorem rel_builtinType (name : String) {as bs : List Node} (h : List.Forall₂ Node.Reorders as bs) :
    Alike (builtinType r.type name as) (builtinType q.type name bs) := by
  have hfirst := rel_head? h
  have hsecond := rel_getElem? h 1
  unfold builtinType
  generalize as.head? = a?, bs.head? = b? at hfirst ⊢
  generalize as[1]? = a'?, bs[1]? = b'? at hsecond ⊢
  split
  case h_1 | h_2 => exact .singleton (.array hfirst)
  case h_3 =>
    cases hsecond with
    | none => exact alike_kind .object
    | some ht => exact .singleton (.record ht)
  case h_4 =>
    cases hfirst with
    | none => exact alike_unresolved
    | some ht => exact rel_dropNullish (hr.type ht)
  case h_5 =>
    cases hfirst with
    | none => exact alike_unresolved
    | some ht => exact hr.type ht
  all_goals first | exact alike_kind .object | exact alike_unresolved

theorem rel_referenceWith (name : String) {as bs : List Node}
    (h : List.Forall₂ Node.Reorders as bs) :
    Alike (referenceWith d r name as) (referenceWith e q name bs) := by
  have halias := hd.alias? name
  have hclass := hd.class? name
  have hinterfaces : (d.interfacesNamed name).isEmpty = (e.interfacesNamed name).isEmpty :=
    (Matches.of_forall₂ (hd.interfacesNamed name)).isEmpty_eq
  unfold referenceWith
  rw [hinterfaces]
  generalize d.alias? name = t?, e.alias? name = u? at halias ⊢
  generalize d.class? name = c?, e.class? name = c'? at hclass ⊢
  cases halias with
  | some ht => exact hr.type ht
  | none =>
    refine rel_ite _ (.singleton (.interface name)) ?_
    cases hclass with
    | some hc => exact .singleton (.instanceOf hc)
    | none => exact rel_builtinType hr name h

omit hd in
theorem rel_intersectionWith {ts us : List Node} (h : List.Forall₂ Node.Reorders ts us) :
    Alike (intersectionWith r.type ts) (intersectionWith q.type us) := by
  have hprimitives := ((Matches.of_forall₂ h).flatMap hr.type).filter
    fun _ _ hxy ↦ hxy.isPrimitive_eq
  unfold intersectionWith
  dsimp only
  rw [hprimitives.isEmpty_eq]
  split
  · exact .singleton (.intersection h)
  · exact hprimitives

omit hr in
theorem rel_boundName {name name' : Node} (hname : name.Reorders name') (pos : Nat) :
    Option.Rel Binding.Reorders (name.identName?.bind (d.lookup · pos))
      (name'.identName?.bind (e.lookup · pos)) := by
  rw [hname.identName?_eq]
  cases name'.identName? with
  | none => exact .none
  | some x => exact hd.lookup x pos

omit hd hr in
theorem ne_union_of_holdsLists {name : Node} {rest : List Node}
    (h : Node.HoldsLists (.type .reference) (name :: rest)) :
    ∀ args ∈ rest, args.kind ≠ .type .union := by
  intro args hargs hunion
  have habsent : args.isAbsent = false := by
    unfold Node.isAbsent
    rw [hunion]
  have hpart : (args, Kind.type .arguments) ∈ Node.listParts (.type .reference) (name :: rest) :=
    List.mem_map.2 ⟨args, List.mem_filter.2 ⟨hargs, congrArg (!·) habsent⟩, rfl⟩
  cases hunion.symm.trans (h.kind_eq hpart)

omit hd hr in
theorem rel_typeArguments {as bs : List Node}
    (hkinds : ∀ args ∈ as, args.kind ≠ .type .union) (h : List.Forall₂ Node.Reorders as bs) :
    List.Forall₂ Node.Reorders (as.flatMap Node.children) (bs.flatMap Node.children) := by
  induction h with
  | nil => exact .nil
  | cons hargs _ ih =>
    obtain ⟨hkind, hkinds⟩ := List.forall_mem_cons.1 hkinds
    rw [List.flatMap_cons, List.flatMap_cons]
    exact List.rel_append (hargs.parts_of_kind rfl hkind) (ih hkinds)

theorem rel_typeWith : (Node.Reorders ⇒ Alike) (typeWith d r) (typeWith e q) := by
  intro n m h
  cases h with
  | union parts order => exact ((Matches.of_forall₂ parts).of_perm order).flatMap hr.type
  | @node kind s cs ds lists parts =>
    cases kind
    case type form =>
      cases form
      case keyword k =>
        cases k
        case never => exact .nil
        all_goals exact alike_kind _
      case literal | template | constructor | predicate => exact alike_kind _
      case union => exact (Matches.of_forall₂ parts).flatMap hr.type
      case intersection => exact rel_intersectionWith hr parts
      case paren =>
        rcases parts with _ | ⟨ht, _ | _⟩
        · exact alike_unresolved
        · exact hr.type ht
        · exact alike_unresolved
      case members => exact .singleton (.members parts)
      case array =>
        rcases parts with _ | ⟨ht, _ | _⟩
        · exact alike_unresolved
        · exact .singleton (.array (.some ht))
        · exact alike_unresolved
      case tuple => exact .singleton (.tuple parts)
      case optional =>
        rcases parts with _ | ⟨ht, _ | _⟩
        · exact alike_unresolved
        · exact rel_withUndefined true (hr.type ht)
        · exact alike_unresolved
      case function =>
        rcases parts with _ | ⟨_, _ | ⟨hresult, _ | ⟨_, _ | _⟩⟩⟩
        all_goals try exact alike_unresolved
        exact .singleton (.function hresult)
      case reference =>
        obtain _ | @⟨name, name', rest, rest', hname, hrest⟩ := parts
        · exact alike_unresolved
        simp only [typeWith]
        rw [hname.identName?_eq]
        cases name'.identName? with
        | none => exact alike_unresolved
        | some x =>
          have hargs := rel_typeArguments (ne_union_of_holdsLists lists) hrest
          exact rel_referenceWith hd hr x hargs
      case query =>
        obtain _ | @⟨name, name', rest, rest', hname, hrest⟩ := parts
        · exact alike_unresolved
        have hbound := rel_boundName hd hname s.lo
        simp only [typeWith]
        generalize name.identName?.bind (d.lookup · s.lo) = b?,
          name'.identName?.bind (e.lookup · s.lo) = c? at hbound ⊢
        cases hbound with
        | none => exact alike_unresolved
        | some hb => exact hr.declared hb.declared
      case operator op =>
        cases op
        case readonly =>
          rcases parts with _ | ⟨ht, _ | _⟩
          · exact alike_unresolved
          · exact hr.type ht
          · exact alike_unresolved
        case unique => exact alike_kind _
        case keyof => exact alike_unresolved
      all_goals exact alike_unresolved
    all_goals exact alike_unresolved

theorem rel_nameWith (name : String) (pos : Nat) :
    Alike (nameWith d r name pos) (nameWith e q name pos) := by
  have hbound := hd.lookup name pos
  unfold nameWith
  generalize d.lookup name pos = b?, e.lookup name pos = c? at hbound ⊢
  cases hbound with
  | some hb => exact hr.declared hb.declared
  | none => exact rel_ite _ (alike_kind _) alike_unresolved

omit hr in
theorem rel_newWith {callee callee' : Node} (h : callee.Reorders callee') :
    Alike (newWith d callee) (newWith e callee') := by
  have hclass : Option.Rel ClassInfo.Reorders (callee.identName?.bind d.class?)
      (callee'.identName?.bind e.class?) := by
    rw [h.identName?_eq]
    cases callee'.identName? with
    | none => exact .none
    | some x => exact hd.class? x
  unfold newWith
  generalize callee.identName?.bind d.class? = c?,
    callee'.identName?.bind e.class? = c'? at hclass ⊢
  cases hclass with
  | none => exact alike_kind .object
  | some hc => exact .singleton (.instanceOf hc)

omit hd hr in
theorem isCallable_eq {n m : Node} (h : n.Reorders m) : isCallable n = isCallable m := by
  unfold isCallable
  rw [h.kind_eq]

theorem rel_exprWith : (Node.Reorders ⇒ Alike) (exprWith d r) (exprWith e q) := by
  intro n m h
  cases h with
  | union => exact alike_unresolved
  | @node kind s cs ds lists parts =>
    cases kind
    case ident name => exact rel_nameWith hd hr name s.lo
    case thisRef =>
      have hclass := hd.enclosingClass? s.lo
      simp only [exprWith]
      generalize d.enclosingClass? s.lo = c?, e.enclosingClass? s.lo = c'? at hclass ⊢
      cases hclass with
      | none => exact alike_unresolved
      | some hc => exact .singleton (.instanceOf hc)
    case paren =>
      rcases parts with _ | ⟨hinner, _ | _⟩
      · exact alike_unresolved
      · exact hr.expr hinner
      · exact alike_unresolved
    case nonNull =>
      rcases parts with _ | ⟨hinner, _ | _⟩
      · exact alike_unresolved
      · exact rel_dropNullish (hr.expr hinner)
      · exact alike_unresolved
    case member optional =>
      rcases parts with _ | ⟨hobject, _ | ⟨hkey, _ | _⟩⟩
      all_goals try exact alike_unresolved
      refine rel_withUndefined optional ?_
      rw [hkey.key_eq]
      exact hr.member _ (hr.expr hobject)
    case call optional =>
      rcases parts with _ | ⟨hcallee, _ | ⟨_, _ | ⟨_, _ | _⟩⟩⟩
      all_goals try exact alike_unresolved
      simp only [exprWith]
      rw [isCallable_eq hcallee]
      exact rel_ite _ (rel_withUndefined optional (hr.call (hr.expr hcallee))) alike_unresolved
    case asType | typeAssertion =>
      rcases parts with _ | ⟨_, _ | ⟨ht, _ | _⟩⟩
      all_goals try exact alike_unresolved
      exact hr.type ht
    case satisfies | constAssertion =>
      obtain _ | ⟨hinner, _⟩ := parts
      · exact alike_unresolved
      · exact hr.expr hinner
    case new =>
      obtain _ | ⟨hcallee, _⟩ := parts
      · exact alike_unresolved
      · exact rel_newWith hd hcallee
    case literal | template | unary | object | classExpr => exact alike_kind _
    case array => exact .singleton (.array .none)
    case arrow | functionExpr =>
      exact .singleton (.function (Node.Reorders.functionResult (.node lists parts)))
    all_goals exact alike_unresolved

/-- One level up, related questions still get related answers. -/
theorem Reorders.above : (above d r).Reorders (above e q) where
  type := rel_typeWith hd hr
  expr := rel_exprWith hd hr
  declared := rel_declaredWith hr.type hr.init
  init := rel_initWith hr.type hr.expr
  call := rel_callWith hr.type
  member := rel_memberWith hd hr
  interface := rel_interfaceWith hd hr
  ofClass := rel_classWith hd hr

end Level

theorem reorders_bottom : bottom.Reorders bottom where
  type _ _ _ := alike_unresolved
  expr _ _ _ := alike_unresolved
  declared := rel_declaredWith (fun _ _ _ ↦ alike_unresolved)
    (rel_initWith (fun _ _ _ ↦ alike_unresolved) fun _ _ _ ↦ alike_unresolved)
  init := rel_initWith (fun _ _ _ ↦ alike_unresolved) fun _ _ _ ↦ alike_unresolved
  call := rel_callWith fun _ _ _ ↦ alike_unresolved
  member _ _ _ _ := alike_unresolved
  interface _ _ := .none
  ofClass _ _ _ _ := .none

theorem reorders_level {d e : Declarations} (hd : d.Reorders e) (n : Nat) :
    (level d n).Reorders (level e n) := by
  induction n with
  | zero => exact reorders_bottom
  | succ n ih => exact .above hd ih

end Resolver

/-! ## Programs -/

theorem Declarations.Reorders.same_shapeWithin {d d' : Declarations} (hd : d.Reorders d')
    (depth : Nat) {e e' : Node} (he : e.Reorders e') :
    (d.shapeWithin depth e).Same (d'.shapeWithin depth e') := by
  intro k
  rw [shapeWithin, shapeWithin, Shape.mem_ofKinds, Shape.mem_ofKinds]
  exact ((Resolver.reorders_level hd (depth + 1)).expr he).mem_map_iff (fun _ _ h ↦ h.toKind_eq) k

/-- If a program is obtained from another by permuting the members of unions in it, then an
expression has the same kinds as its counterpart, and all checks on it get the same verdict. -/
theorem union_order_is_irrelevant {program program' e e' : Node}
    (hprogram : program.Reorders program') (he : e.Reorders e') :
    (∀ k, k ∈ ((Declarations.ofProgram program).oracle e).kinds ↔
        k ∈ ((Declarations.ofProgram program').oracle e').kinds) ∧
      ∀ checks options, judgeLevel checks ((Declarations.ofProgram program).oracle e) options =
        judgeLevel checks ((Declarations.ofProgram program').oracle e') options := by
  have hsame := (Declarations.reorders_ofProgram hprogram).same_shapeWithin maxDepth he
  exact ⟨hsame, hsame.judgeLevel_eq⟩

/-! ## All unions reversed -/

namespace Node

mutual

/-- The node with the members of every union in the opposite order. -/
def reverseUnions : Node → Node
  | mk kind s cs =>
    let parts := reverseUnionsAll cs
    mk kind s (if kind = .type .union then parts.reverse else parts)

def reverseUnionsAll : List Node → List Node
  | [] => []
  | n :: ns => n.reverseUnions :: reverseUnionsAll ns

end

mutual

theorem reorders_reverseUnions : (n : Node) →
    (∀ m ∈ n.preorder, HoldsLists m.kind m.children) → n.Reorders n.reverseUnions
  | mk kind s cs, h => by
    have hparts := reorders_reverseUnionsAll cs fun m hm ↦ h m (List.mem_cons_of_mem _ hm)
    rw [reverseUnions]
    split
    · rename_i hunion
      subst hunion
      exact .union hparts (List.reverse_perm _).symm
    · exact .node (h _ List.mem_cons_self) hparts

theorem reorders_reverseUnionsAll : (ns : List Node) →
    (∀ m ∈ preorderAll ns, HoldsLists m.kind m.children) →
      List.Forall₂ Reorders ns (reverseUnionsAll ns)
  | [], _ => .nil
  | n :: ns, h =>
    .cons (reorders_reverseUnions n fun m hm ↦ h m (List.mem_append_left _ hm))
      (reorders_reverseUnionsAll ns fun m hm ↦ h m (List.mem_append_right _ hm))

end

end Node

def unionProgram : Node :=
  (SourceFile.ofText "a.ts"
    "type T = string | null;\nlet x: \x7b a: T | 0 \x7d;\nx.a;".toList).program?.get
      (by decide +kernel)

/-- The kinds of `x.a` come in the opposite order, and every check on it gets the same verdict. -/
theorem reversed_unions_judged_alike :
    ∃ e ∈ unionProgram.preorder,
      ((Declarations.ofProgram unionProgram).oracle e).kinds =
          [.primitive .string, .null, .literal .number true] ∧
        ((Declarations.ofProgram unionProgram.reverseUnions).oracle e.reverseUnions).kinds =
          [.literal .number true, .null, .primitive .string] ∧
        ∀ checks options,
          judgeLevel checks ((Declarations.ofProgram unionProgram).oracle e) options =
            judgeLevel checks
              ((Declarations.ofProgram unionProgram.reverseUnions).oracle e.reverseUnions)
              options := by
  obtain ⟨hlists, e, he, hkinds, hreversed⟩ :
      (∀ m ∈ unionProgram.preorder, Node.HoldsLists m.kind m.children) ∧
      ∃ e ∈ unionProgram.preorder,
        ((Declarations.ofProgram unionProgram).oracle e).kinds =
            [.primitive .string, .null, .literal .number true] ∧
          ((Declarations.ofProgram unionProgram.reverseUnions).oracle e.reverseUnions).kinds =
            [.literal .number true, .null, .primitive .string] := by
    decide +kernel
  have hpart : e.Reorders e.reverseUnions :=
    e.reorders_reverseUnions fun m hm ↦ hlists m (Node.preorder_subset_of_mem he hm)
  exact ⟨e, he, hkinds, hreversed,
    (union_order_is_irrelevant (unionProgram.reorders_reverseUnions hlists) hpart).2⟩

end OptionalChain
