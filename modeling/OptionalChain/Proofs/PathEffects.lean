import OptionalChain.Proofs.Placement.Cuts

/-!
# Effects in paths

An update, an assignment or a `yield` that stands in the base, a key or an argument of an access
makes it no path. Nested functions are left out, since their code is not run with the access, and so
are the type arguments of calls, which are never run: an effect that is written in a path stands in
the type arguments of one of its calls. The same holds of the guards of a chain, which a
replacement takes away, and of the path of its last operand, which is kept.
-/

namespace OptionalChain

namespace Kind

/-- Whether a node of the kind is an effect. -/
def isEffect : Kind → Bool
  | .update | .assign | .yield => true
  | _ => false

/-- Whether the parts of a node of the kind are code that runs later. -/
def isDelayed : Kind → Bool
  | .function | .arrow => true
  | _ => false

end Kind

namespace Node

/-! ## Nodes outside functions -/

mutual

/-- The node and all nodes below it that are not in a function nested in it, parents first. -/
def exposed : Node → List Node
  | mk kind span children =>
    mk kind span children :: if kind.isDelayed then [] else exposedAll children

def exposedAll : List Node → List Node
  | [] => []
  | n :: ns => exposed n ++ exposedAll ns

end

variable {n m : Node} {kind : Kind} {span : Span} {children ns : List Node}

theorem exposedAll_eq_flatMap (ns : List Node) : exposedAll ns = ns.flatMap exposed := by
  induction ns with
  | nil => rfl
  | cons n ns ih => rw [exposedAll, ih, List.flatMap_cons]

/-- The effects that are written in the node outside the functions nested in it. -/
def effects (n : Node) : List Node :=
  n.exposed.filter (·.kind.isEffect)

/-- What is no effect itself and no function has the effects of its parts. -/
theorem effects_eq_flatMap (kind : Kind) (span : Span) (children : List Node)
    (heffect : kind.isEffect = false) (hdelayed : kind.isDelayed = false) :
    (mk kind span children).effects = children.flatMap effects := by
  rw [effects, exposed, List.filter_cons_of_neg (by simp [Node.kind, heffect]), hdelayed,
    if_neg Bool.false_ne_true, exposedAll_eq_flatMap, List.filter_flatMap]
  rfl

@[simp]
theorem effects_paren (s : Span) (e : Node) : (mk .paren s [e]).effects = e.effects := by
  simp [effects_eq_flatMap .paren s [e] rfl rfl]

@[simp]
theorem effects_nonNull (s : Span) (e : Node) : (mk .nonNull s [e]).effects = e.effects := by
  simp [effects_eq_flatMap .nonNull s [e] rfl rfl]

@[simp]
theorem effects_unary (op : UnaryOp) (s : Span) (e : Node) :
    (mk (.unary op) s [e]).effects = e.effects := by
  simp [effects_eq_flatMap (.unary op) s [e] rfl rfl]

@[simp]
theorem effects_binary (op : BinaryOp) (s : Span) (left right : Node) :
    (mk (.binary op) s [left, right]).effects = left.effects ++ right.effects := by
  simp [effects_eq_flatMap (.binary op) s [left, right] rfl rfl]

@[simp]
theorem effects_member (optional : Bool) (s : Span) (object key : Node) :
    (mk (.member optional) s [object, key]).effects = object.effects ++ key.effects := by
  simp [effects_eq_flatMap (.member optional) s [object, key] rfl rfl]

@[simp]
theorem effects_call (optional : Bool) (s : Span) (callee args typeArgs : Node) :
    (mk (.call optional) s [callee, args, typeArgs]).effects =
      callee.effects ++ (args.effects ++ typeArgs.effects) := by
  simp [effects_eq_flatMap (.call optional) s [callee, args, typeArgs] rfl rfl]

@[simp]
theorem effects_stripParens (n : Node) : n.stripParens.effects = n.effects := by
  fun_induction stripParens n with
  | case1 s e ih => rw [ih, effects_paren]
  | case2 => rfl

theorem anyHasEffects_eq_any (ns : List Node) : anyHasEffects ns = ns.any hasEffects := by
  induction ns with
  | nil => rfl
  | cons n ns ih => rw [anyHasEffects, ih, List.any_cons]

theorem hasEffects_mk (kind : Kind) (span : Span) (children : List Node) :
    (mk kind span children).hasEffects =
      (kind.isEffect || !kind.isDelayed && children.any hasEffects) := by
  cases kind <;> simp [hasEffects, Kind.isEffect, Kind.isDelayed, anyHasEffects_eq_any]

/-- The test for effects misses none that is written in the node. -/
theorem effects_eq_nil (h : n.hasEffects = false) : n.effects = [] := by
  induction n using induction_parts with
  | step kind span children ih =>
    rw [hasEffects_mk, Bool.or_eq_false_iff] at h
    obtain ⟨heffect, hparts⟩ := h
    cases hdelayed : kind.isDelayed with
    | true => simp [effects, exposed, hdelayed, Node.kind, heffect]
    | false =>
      have hall : children.any hasEffects = false := by simpa [hdelayed] using hparts
      rw [effects_eq_flatMap kind span children heffect hdelayed, List.flatMap_eq_nil_iff]
      exact fun m hm ↦ ih m hm (by simpa using List.any_eq_false.1 hall m hm)

theorem flatMap_effects_eq_nil (h : anyHasEffects ns = false) : ns.flatMap effects = [] := by
  rw [anyHasEffects_eq_any] at h
  rw [List.flatMap_eq_nil_iff]
  exact fun m hm ↦ effects_eq_nil (by simpa using List.any_eq_false.1 h m hm)

/-! ## Parts of nodes -/

/-- Whether the parts of a node are of the kinds that belong to it: an access has a key, a call has
arguments, names and literals have no parts. -/
def hasOwnParts : Node → Bool
  | member _ _ _ key =>
    match key.kind with
    | .name _ | .privateName _ | .computed => true
    | _ => false
  | call _ _ _ args _ => args.kind == .arguments
  | mk (.ident _) _ children | mk (.literal _) _ children => children.isEmpty
  | _ => true

/-- All nodes of the tree have parts of their own kinds. -/
def Proper (n : Node) : Prop :=
  ∀ m ∈ n.preorder, m.hasOwnParts = true

instance (n : Node) : Decidable n.Proper :=
  inferInstanceAs (Decidable (∀ m ∈ n.preorder, m.hasOwnParts = true))

theorem Proper.of_mem_preorder (h : n.Proper) (hm : m ∈ n.preorder) : m.Proper :=
  fun k hk ↦ h k (preorder_subset_of_mem hm hk)

theorem Proper.of_mem (h : (mk kind span children).Proper) (hm : m ∈ children) : m.Proper :=
  h.of_mem_preorder (mem_preorder_of_mem_children hm)

theorem Proper.stripParens (h : n.Proper) : n.stripParens.Proper :=
  h.of_mem_preorder n.stripParens_mem_preorder

/-- A key has no effects if what stands in its brackets has none. -/
theorem Proper.effects_key {optional : Bool} {object key : Node}
    (h : (member optional span object key).Proper) (hkey : anyHasEffects key.children = false) :
    key.effects = [] := by
  have hkind := h _ (self_mem_preorder _)
  obtain ⟨kind, keySpan, children⟩ := key
  rw [← flatMap_effects_eq_nil hkey]
  unfold hasOwnParts at hkind
  cases kind with
  | name text => exact effects_eq_flatMap _ _ _ rfl rfl
  | privateName text => exact effects_eq_flatMap _ _ _ rfl rfl
  | computed => exact effects_eq_flatMap _ _ _ rfl rfl
  | _ => cases hkind

theorem Proper.effects_args {optional : Bool} {callee args typeArgs : Node}
    (h : (call optional span callee args typeArgs).Proper)
    (hargs : anyHasEffects args.children = false) : args.effects = [] := by
  have hkind : args.kind = .arguments := by simpa [hasOwnParts] using h _ (self_mem_preorder _)
  obtain ⟨kind, argsSpan, children⟩ := args
  obtain rfl : kind = .arguments := hkind
  rw [← flatMap_effects_eq_nil hargs]
  exact effects_eq_flatMap _ _ _ rfl rfl

end Node

/-! ## Paths -/

/-- The type arguments of the step, if it is a call. -/
def Step.typeArgs? (s : Step) : Option Node :=
  match s.expr with
  | .call _ _ _ _ typeArgs => some typeArgs
  | _ => none

namespace AccessPath

/-- The type arguments of all calls of the path. -/
def typeArguments (p : AccessPath) : List Node :=
  p.steps.filterMap (·.typeArgs?)

/-- Every effect that is written in the node is written in type arguments of a call of the path. -/
def Confines (p : AccessPath) (n : Node) : Prop :=
  n.effects ⊆ p.typeArguments.flatMap Node.effects

variable {f : SourceFile} {n base : Node} {steps : List Step}

theorem effects_of_base? (h : base? f n = some base) : n.effects = [] := by
  unfold base? at h
  split at h
  · rename_i s e
    split at h
    · cases h
    · rename_i heffects
      rw [Node.effects_eq_flatMap .await s [e] rfl rfl]
      simpa using Node.effects_eq_nil (by simpa using heffects)
  · split at h
    · rename_i hbase
      simp only [Bool.and_eq_true, Bool.not_eq_true'] at hbase
      exact Node.effects_eq_nil hbase.2
    · cases h

theorem effects_of_spine (hn : n.Proper) (h : Spine f n base steps) :
    n.effects ⊆ (steps.filterMap (·.typeArgs?)).flatMap Node.effects := by
  induction h with
  | base h =>
    rw [effects_of_base? h]
    exact List.nil_subset _
  | paren span _ ih =>
    rw [Node.paren, Node.effects_paren]
    exact ih (hn.of_mem (by simp))
  | nonNull span _ ih =>
    rw [Node.nonNull, Node.effects_nonNull]
    exact ih (hn.of_mem (by simp))
  | member optional span hkey _ ih =>
    rw [Node.member, Node.effects_member, hn.effects_key hkey, List.append_nil,
      List.filterMap_append, List.flatMap_append]
    exact List.subset_append_of_subset_left _ (ih (hn.of_mem (by simp)))
  | @call optional span callee args _ typeArgs _ _ hargs _ ih =>
    have htypeArgs : (Step.ofCall f optional callee typeArgs
        (.mk (.call optional) span [callee, args, typeArgs])).typeArgs? = some typeArgs := by
      rw [Step.typeArgs?, Step.expr_ofCall]
    rw [Node.call, Node.effects_call, hn.effects_args hargs, List.nil_append,
      List.filterMap_append, List.flatMap_append, List.filterMap_cons_some htypeArgs,
      List.filterMap_nil, List.flatMap_singleton]
    exact List.append_subset.2 ⟨List.subset_append_of_subset_left _
      (ih (hn.of_mem (by simp))), List.subset_append_right _ _⟩

/-- The effects of an access are in the type arguments of its calls. -/
theorem confines_of_of? {p : AccessPath} (hn : n.Proper) (h : of? f n = some p) : p.Confines n :=
  effects_of_spine hn (of?_eq_some h).1

end AccessPath

/-! ## Operands -/

section

variable {f : SourceFile} {n left right e : Node}

theorem Node.Proper.effects_ident {name : String} {span : Span} {children : List Node}
    (h : (Node.mk (.ident name) span children).Proper) :
    (Node.mk (.ident name) span children).effects = [] := by
  obtain rfl : children = [] := by simpa [hasOwnParts] using h _ (self_mem_preorder _)
  exact effects_eq_flatMap _ _ _ rfl rfl

theorem Node.Proper.effects_literal (hn : n.Proper) (h : n.kind.isLiteral = true) :
    n.effects = [] := by
  obtain ⟨kind, span, children⟩ := n
  cases kind with
  | literal value =>
    obtain rfl : children = [] := by simpa [hasOwnParts] using hn _ (self_mem_preorder _)
    exact effects_eq_flatMap _ _ _ rfl rfl
  | _ => cases h

theorem Kind.isLiteral_of_isNumeric {kind : Kind} (h : kind.isNumeric = true) :
    kind.isLiteral = true := by
  cases kind with
  | literal => rfl
  | _ => cases h

/-- A constant has no effects. -/
theorem Constant.effects_eq_nil (hn : n.Proper) (h : ofNode n ≠ .other) : n.effects = [] := by
  have hproper := hn.stripParens
  rw [← Node.effects_stripParens]
  revert h hproper
  fun_cases ofNode n with
  | case1 s e hnode hliteral =>
    rw [hnode, Node.effects_unary]
    exact fun _ hproper ↦ (hproper.of_mem (by simp)).effects_literal hliteral
  | case3 s e hnode hnumeric =>
    rw [hnode, Node.effects_unary]
    exact fun _ hproper ↦
      (hproper.of_mem (by simp)).effects_literal (Kind.isLiteral_of_isNumeric hnumeric)
  | case5 s children hnode =>
    rw [hnode]
    exact fun _ hproper ↦ hproper.effects_literal rfl
  | case6 value s children _ hnode =>
    rw [hnode]
    exact fun _ hproper ↦ hproper.effects_literal rfl
  | case7 s children hnode =>
    rw [hnode]
    exact fun _ hproper ↦ hproper.effects_ident
  | case8 s hnode =>
    rw [hnode]
    exact fun _ _ ↦ Node.effects_eq_flatMap _ _ _ rfl rfl
  | case2 | case4 | case9 => exact fun h ↦ absurd rfl h

theorem effects_of_typeofOperand? (hn : n.Proper) (h : typeofOperand? n = some e) :
    n.effects = e.effects ∧ e.Proper := by
  have hproper := hn.stripParens
  rw [← Node.effects_stripParens]
  unfold typeofOperand? at h
  split at h
  · rename_i s e' hnode
    cases h
    rw [hnode] at hproper ⊢
    exact ⟨Node.effects_unary _ _ _, hproper.of_mem (by simp)⟩
  · cases h

theorem effects_of_stringValue? {text : String} (hn : n.Proper) (h : stringValue? n = some text) :
    n.effects = [] :=
  Constant.effects_eq_nil hn (by rw [Constant.ofNode_of_string h]; decide)

/-- The effects of a comparison are those of the operand that is compared. -/
theorem effects_of_splitTypeof? {text : String} (hleft : left.Proper) (hright : right.Proper)
    (h : splitTypeof? left right = some (e, text)) :
    left.effects ++ right.effects = e.effects ∧ e.Proper := by
  obtain ⟨htypeof, hstring⟩ | ⟨htypeof, hstring⟩ := splitTypeof?_eq_some h
  · obtain ⟨heffects, he⟩ := effects_of_typeofOperand? hleft htypeof
    rw [effects_of_stringValue? hright hstring, heffects, List.append_nil]
    exact ⟨rfl, he⟩
  · obtain ⟨heffects, he⟩ := effects_of_typeofOperand? hright htypeof
    rw [effects_of_stringValue? hleft hstring, heffects, List.nil_append]
    exact ⟨rfl, he⟩

theorem effects_of_splitComparison? {c : Constant} (hleft : left.Proper) (hright : right.Proper)
    (h : splitComparison? left right = some (e, c)) :
    left.effects ++ right.effects = e.effects ∧ e.Proper := by
  obtain ⟨hc, ⟨rfl, -, hconstant⟩ | ⟨rfl, -, hconstant⟩⟩ := splitComparison?_eq_some h
  · rw [Constant.effects_eq_nil hright (hconstant ▸ hc), List.append_nil]
    exact ⟨rfl, hleft⟩
  · rw [Constant.effects_eq_nil hleft (hconstant ▸ hc), List.nil_append]
    exact ⟨rfl, hright⟩

end

namespace Check

variable {f : SourceFile} {n e : Node} {check : Check}

theorem confines_of_ofPath? {kind : CheckKind} (he : e.Proper) (h : ofPath? f kind e = some check)
    (heffects : n.effects = e.effects) : check.path.Confines n := by
  obtain ⟨p, hp, rfl⟩ := Option.map_eq_some_iff.1 h
  rw [AccessPath.Confines, heffects]
  exact AccessPath.confines_of_of? he hp

/-- The effects of an operand that makes a check are in the type arguments of its path. -/
theorem confines_of_of? (hn : n.Proper) (h : of? f n = some check) : check.path.Confines n := by
  have hproper := hn.stripParens
  have hstrip := (Node.effects_stripParens n).symm
  revert h
  fun_cases of? f n with
  | case1 s e hnode =>
    rw [hnode] at hproper hstrip
    exact fun h ↦ confines_of_ofPath? (hproper.of_mem (by simp)) h
      (hstrip.trans (Node.effects_unary _ _ _))
  | case2 op s left right hnode hop =>
    rw [hnode] at hproper hstrip
    rw [Node.effects_binary] at hstrip
    have hleft : left.Proper := hproper.of_mem (by simp)
    have hright : right.Proper := hproper.of_mem (by simp)
    intro h
    unfold ofEquality? at h
    split at h
    · rename_i e text hsplit
      obtain ⟨heffects, he⟩ := effects_of_splitTypeof? hleft hright hsplit
      split at h
      · exact confines_of_ofPath? he h (hstrip.trans heffects)
      · cases h
    · obtain ⟨⟨e, c⟩, hsplit, h⟩ := Option.bind_eq_some_iff.1 h
      obtain ⟨comparison, -, h⟩ := Option.bind_eq_some_iff.1 h
      obtain ⟨heffects, he⟩ := effects_of_splitComparison? hleft hright hsplit
      exact confines_of_ofPath? he h (hstrip.trans heffects)
  | case3 op s left right hnode hop =>
    rw [hnode] at hproper hstrip
    exact fun h ↦ confines_of_ofPath? hproper h hstrip
  | case4 => exact fun h ↦ confines_of_ofPath? hproper h hstrip

end Check

/-! ## Chains -/

namespace ChainFinder

/-- Every effect that is written in an access with a path, outside the functions nested in it,
stands in the type arguments of a call of the path. So do the effects of each operand that a chain
takes away, and those of the access in its last operand that is kept. -/
theorem paths_confine_effects (c : ChainFinder) :
    (∀ n p, n.Proper → AccessPath.of? c.file n = some p → p.Confines n) ∧
      ∀ operands : List Node, (∀ n ∈ operands, n.Proper) → ∀ b ∈ c.placed operands,
        (∀ n ∈ operands.extract b.start b.last,
          ∃ check, Check.of? c.file n = some check ∧ check.path.Confines n) ∧
        ∃ e, b.chain.terminal.Surrounds e ∧ AccessPath.of? c.file e = some b.chain.terminalPath ∧
          b.chain.terminalPath.Confines e := by
  refine ⟨fun n p hn h ↦ AccessPath.confines_of_of? hn h, fun operands hproper b hb ↦ ?_⟩
  have hb := wellFormed_of_chainAt? (chainAt?_of_mem_placed hb)
  refine ⟨fun n hn ↦ ?_, ?_⟩
  · have hmem : n ∈ operands := List.mem_of_mem_drop (List.mem_of_mem_take hn)
    obtain ⟨check, hcheck, -⟩ := hb.made n hn
    exact ⟨check, hcheck, Check.confines_of_of? (hproper n hmem) hcheck⟩
  · obtain ⟨e, he, hpath⟩ := exists_path_of_terminalPath? hb.terminal
    have hterminal : b.chain.terminal.Proper := hproper _ (List.mem_of_getElem? hb.last)
    exact ⟨e, he, hpath,
      AccessPath.confines_of_of? (hterminal.of_mem_preorder he.mem_preorder) hpath⟩

def delayedEffects : ChainFinder :=
  inText .and "foo[i + 1](() => i++) != null && foo[i + 1](() => i++).bar;"

def delayedEffectsChain : PlacedChain :=
  (delayedEffects.placed delayedEffects.firstRun).head (by decide +kernel)

/-- The only effects are in functions, so that nothing is taken away or kept with one. -/
theorem delayed_effects_confined :
    (∀ n ∈ delayedEffects.firstRun, n.Proper) ∧
      delayedEffectsChain ∈ delayedEffects.placed delayedEffects.firstRun ∧
      (delayedEffectsChain.start, delayedEffectsChain.last) = (0, 1) ∧
      (∀ n ∈ delayedEffects.firstRun.extract delayedEffectsChain.start delayedEffectsChain.last,
        ∃ check, Check.of? delayedEffects.file n = some check ∧ check.path.Confines n) ∧
      ∃ e, AccessPath.of? delayedEffects.file e = some delayedEffectsChain.chain.terminalPath ∧
        e.effects = [] := by
  have hmem : delayedEffectsChain ∈ delayedEffects.placed delayedEffects.firstRun :=
    List.head_mem _
  obtain ⟨hproper, hplace, htypes⟩ : (∀ n ∈ delayedEffects.firstRun, n.Proper) ∧
      (delayedEffectsChain.start, delayedEffectsChain.last) = (0, 1) ∧
      (delayedEffectsChain.chain.terminalPath.typeArguments.flatMap Node.effects).length = 0 := by
    decide +kernel
  obtain ⟨-, hchains⟩ := paths_confine_effects delayedEffects
  obtain ⟨hguards, e, -, hpath, hterminal⟩ := hchains _ hproper delayedEffectsChain hmem
  refine ⟨hproper, hmem, hplace, hguards, e, hpath, ?_⟩
  rw [AccessPath.Confines, List.length_eq_zero_iff.1 htypes] at hterminal
  exact List.subset_nil.1 hterminal

def typedEffects : ChainFinder :=
  inText .and "foo<\x7b[i++]: T\x7d>(1) != null && foo<\x7b[i++]: T\x7d>(1).bar;"

/-- An update in type arguments does not keep a call from being a path: the guard that it is written
in is taken away. -/
theorem typed_guard_taken_away :
    ∃ b ∈ typedEffects.placed typedEffects.firstRun, b.chain.verdict = .safe ∧
      b.chain.replacement? typedEffects.file = some "foo<\x7b[i++]: T\x7d>(1)?.bar".toList ∧
      ∃ n ∈ typedEffects.firstRun.extract b.start b.last,
        n.effects.map (·.kind) = [.update] ∧
        ∃ e ∈ n.children, (AccessPath.of? typedEffects.file e).isSome = true ∧
          e.effects.map (·.kind) = [.update] := by
  decide +kernel

end ChainFinder

end OptionalChain
