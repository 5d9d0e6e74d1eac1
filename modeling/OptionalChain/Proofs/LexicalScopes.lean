import OptionalChain.Proofs.CollectedScopes

/-!
# Scopes of the language

Functions, blocks, the heads of loops, the bodies of `switch`, `catch` clauses, namespaces and the
names of function and class expressions each have a scope, and a name belongs to the nearest scope
around it that declares it. Some of these scopes are not kept apart when bindings are collected, and
some declarations are not collected at all. For every name that is declared in no such way, lookup
finds a declaration of the scope that the name belongs to.
-/

namespace OptionalChain

/-- Whether the construct has a scope in the language. -/
def Kind.opensScope : Kind → Bool
  | .function | .arrow | .functionExpr | .classExpr | .setter | .classMember .constructor
  | .statement .block | .statement .moduleBlock | .statement .handler | .statement .switch
  | .statement .forLoop | .statement .forInLoop | .statement .forOfLoop => true
  | _ => false

/-- Whether a `var` in the construct is not known outside. -/
def Kind.keepsVars : Kind → Bool
  | .function | .arrow | .getter | .setter | .classMember .constructor | .classMember .staticBlock
  | .statement .moduleBlock => true
  | _ => false

namespace Node

/-! ## Declarations of a scope -/

/-- The names that a node declares in the scope around it. Only declarations of JavaScript and
enumerations count: names of namespaces and of `import x = y` are left out. -/
def sitesOutside : Kind → List Node → List Site
  | .statement (.bindings _), decls | .statement .resources, decls => decls.flatMap declaratorSites
  | .statement .function, [name, _] | .statement .classDecl, [name, _] => name.nameSites
  | .statement .enum, name :: _ => name.nameSites
  | _, _ => []

/-- The names that a node declares in its own scope. -/
def sitesInside : Kind → List Node → List Site
  | .function, params :: _ | .arrow, params :: _ | .classMember .constructor, params :: _ =>
    params.children.flatMap parameterSites
  | .setter, _ :: params => params.flatMap parameterSites
  | .statement .handler, param :: _ => param.patternSites
  | .functionExpr, name :: _ | .classExpr, name :: _ => name.nameSites
  | _, _ => []

mutual

/-- The declarations that a node adds to the scope it stands in. -/
def declaredSites : Node → List Site
  | mk kind _ cs =>
    sitesOutside kind cs ++ if kind.opensScope || kind.isClosed then [] else declaredSitesAll cs

def declaredSitesAll : List Node → List Site
  | [] => []
  | n :: ns => n.declaredSites ++ declaredSitesAll ns

end

variable (isVar : Node → Bool)

mutual

/-- The names of the `var` declarations in a node that are known around it. -/
def hoistedSites : Node → List Site
  | mk kind span cs =>
    (if isVar (mk kind span cs) then sitesOutside kind cs else []) ++
      if kind.keepsVars || kind.isClosed then [] else hoistedSitesAll cs

def hoistedSitesAll : List Node → List Site
  | [] => []
  | n :: ns => hoistedSites n ++ hoistedSitesAll ns

end

/-- What nested `var` declarations add to a scope. Those in the body of a function are declared in
the body, and its parameters do not see them. -/
def sitesBelow (kind : Kind) (cs : List Node) : List Site :=
  if kind.keepsVars && kind ≠ .statement .moduleBlock then [] else hoistedSitesAll isVar cs

/-- The declarations of a scope. -/
def scopeSites : Node → List Site
  | mk kind _ cs => sitesInside kind cs ++ declaredSitesAll cs ++ sitesBelow isVar kind cs

/-- Whether the node is a scope that declares the name. -/
def binds (x : String) (n : Node) : Bool :=
  (n.kind.opensScope || n.kind = .statement .program) && (n.scopeSites isVar).any (·.1 == x)

/-- Whether the node declares the name in a way that is not seen: in a scope that is not kept apart,
by a declaration that is not collected, or by a `var` further down. -/
def bindsUnseen (x : String) : Node → Bool
  | mk kind span cs =>
    kind.opensScope && !kind.isFrame && ((mk kind span cs).scopeSites isVar).any (·.1 == x) ||
    (kind = .statement .resources || kind = .statement .enum) &&
      (sitesOutside kind cs).any (·.1 == x) ||
    (mk kind span cs).isScope && (sitesBelow isVar kind cs).any (·.1 == x) &&
      !(declaredSitesAll cs).any (·.1 == x)

mutual

/-- The nodes of a tree that do not stand in a frame of it. -/
def region : Node → List Node
  | mk kind span cs => if kind.isFrame then [] else mk kind span cs :: regionAll cs

def regionAll : List Node → List Node
  | [] => []
  | n :: ns => n.region ++ regionAll ns

end

/-- The name is not declared in the node, up to the next frames, in a way that is not seen. -/
def Sees (x : String) (n : Node) : Prop :=
  ∀ m ∈ n :: regionAll n.children, m.bindsUnseen isVar x = false

instance (x : String) (n : Node) : Decidable (n.Sees isVar x) :=
  inferInstanceAs (Decidable (∀ m ∈ n :: regionAll n.children, m.bindsUnseen isVar x = false))

/-! ## What is collected -/

variable {isVar} {x : String} {kind : Kind} {span : Span} {cs : List Node} {n : Node} {pos : Nat}

theorem declaredSitesAll_eq_flatMap (ns : List Node) :
    declaredSitesAll ns = ns.flatMap declaredSites := by
  induction ns with
  | nil => rfl
  | cons n ns ih => rw [declaredSitesAll, ih, List.flatMap_cons]

theorem regionAll_eq_flatMap (ns : List Node) : regionAll ns = ns.flatMap region := by
  induction ns with
  | nil => rfl
  | cons n ns ih => rw [regionAll, ih, List.flatMap_cons]

theorem opensScope_of_isFrame (h : kind.isFrame = true) : kind.opensScope = true := by
  cases kind
  case classMember form => cases form <;> first | rfl | cases h
  case statement form => cases form <;> first | rfl | cases h
  all_goals first | rfl | cases h

theorem not_isClosed_of_opensScope (h : kind.opensScope = true) : kind.isClosed = false := by
  cases kind
  case statement form => cases form <;> first | rfl | cases h
  all_goals first | rfl | cases h

theorem sitesOutside_of_opensScope (h : kind.opensScope = true) : sitesOutside kind cs = [] := by
  cases kind
  case statement form => cases form <;> first | rfl | cases h
  all_goals rfl

/-- Resources and enumerations are declared, but not collected. -/
theorem ownSites_eq_sitesOutside (hframe : kind.isFrame = false)
    (hresources : kind ≠ .statement .resources) (henum : kind ≠ .statement .enum) :
    ownSites kind cs = sitesOutside kind cs := by
  cases kind
  case statement form =>
    cases form
    case resources => exact (hresources rfl).elim
    case enum => exact (henum rfl).elim
    case function | classDecl =>
      rcases cs with _ | ⟨_, _ | ⟨_, _ | ⟨_, _⟩⟩⟩
      all_goals rfl
    all_goals rfl
  case classMember form => cases form <;> first | rfl | cases hframe
  all_goals first | rfl | cases hframe

theorem ownSites_eq_nil (h : kind = .statement .resources ∨ kind = .statement .enum) :
    ownSites kind cs = [] := by
  obtain rfl | rfl := h <;> rfl

theorem ownSites_eq_sitesInside (h : (mk kind span cs).isScope = true) :
    ownSites kind cs = sitesInside kind cs := by
  cases kind
  case function | arrow =>
    cases cs <;> rfl
  case classMember form =>
    cases form
    case constructor => cases cs <;> rfl
    all_goals cases h
  case statement form =>
    cases form
    case block | program => rfl
    all_goals cases h
  all_goals cases h

theorem any_eq_false_iff {sites : List Site} :
    sites.any (·.1 == x) = false ↔ ∀ pos, (x, pos) ∉ sites := by
  simp only [List.any_eq_false, beq_iff_eq, Prod.forall]
  exact ⟨fun h pos hmem ↦ h x pos hmem rfl, fun h y pos hmem hy ↦ h pos (hy ▸ hmem)⟩

section Seen

variable (h : (mk kind span cs).bindsUnseen isVar x = false)

include h

theorem not_mem_of_opensScope (hopens : kind.opensScope = true) (hframe : kind.isFrame = false)
    (pos : Nat) : (x, pos) ∉ (mk kind span cs).scopeSites isVar := by
  unfold bindsUnseen at h
  rw [Bool.or_eq_false_iff, Bool.or_eq_false_iff] at h
  have hscope := h.1.1
  rw [hopens, hframe] at hscope
  exact any_eq_false_iff.1 hscope pos

theorem not_mem_of_uncollected (hkind : kind = .statement .resources ∨ kind = .statement .enum)
    (pos : Nat) : (x, pos) ∉ sitesOutside kind cs := by
  unfold bindsUnseen at h
  rw [Bool.or_eq_false_iff, Bool.or_eq_false_iff] at h
  have houtside := h.1.2
  rw [← Bool.decide_or, decide_eq_true hkind] at houtside
  exact any_eq_false_iff.1 houtside pos

theorem exists_declared_of_below (hscope : (mk kind span cs).isScope = true) {pos : Nat}
    (hmem : (x, pos) ∈ sitesBelow isVar kind cs) : ∃ pos, (x, pos) ∈ declaredSitesAll cs := by
  unfold bindsUnseen at h
  rw [Bool.or_eq_false_iff] at h
  have hbelow : (sitesBelow isVar kind cs).any (·.1 == x) = true :=
    List.any_eq_true.2 ⟨_, hmem, beq_self_eq_true x⟩
  have hdeclared := h.2
  rw [hscope, hbelow] at hdeclared
  by_contra hnone
  rw [any_eq_false_iff.2 (not_exists.1 hnone)] at hdeclared
  cases hdeclared

end Seen

/-- What is collected for the name is what is declared. -/
theorem mem_collected_iff (h : ∀ m ∈ n.region, m.bindsUnseen isVar x = false) (scope : Span) :
    (x, pos) ∈ (n.collected scope).map (·.site) ↔ (x, pos) ∈ n.declaredSites := by
  induction n using induction_parts with
  | step kind span cs ih =>
    rw [collected, declaredSites]
    cases hframe : kind.isFrame with
    | true =>
      rw [if_pos rfl, sitesOutside_of_opensScope (opensScope_of_isFrame hframe),
        opensScope_of_isFrame hframe]
      rfl
    | false =>
      rw [region, hframe, if_neg Bool.false_ne_true, regionAll_eq_flatMap] at h
      obtain ⟨hself, hbelow⟩ := List.forall_mem_cons.1 h
      have hparts : (x, pos) ∈ (collectedAll scope cs).map (·.site) ↔
          (x, pos) ∈ declaredSitesAll cs := by
        rw [collectedAll_eq_flatMap, declaredSitesAll_eq_flatMap, List.map_flatMap,
          List.mem_flatMap, List.mem_flatMap]
        refine exists_congr fun m ↦ and_congr_right fun hm ↦ ih m hm fun k hk ↦ ?_
        exact hbelow k (List.mem_flatMap.2 ⟨m, hm, hk⟩)
      have hown : (x, pos) ∈ (ownBindings scope kind span cs).map (·.site) ↔
          (x, pos) ∈ ownSites kind cs := bindsIn_ownBindings.mem_iff
      rw [if_neg Bool.false_ne_true, List.map_append, List.mem_append, hown, List.mem_append]
      cases hopens : kind.opensScope with
      | true =>
        -- A scope of its own that is not kept apart does not declare the name.
        have hnot : (x, pos) ∉ declaredSitesAll cs := fun hmem ↦
          not_mem_of_opensScope hself hopens hframe pos
            (List.mem_append_left _ (List.mem_append_right _ hmem))
        have hkind : ownSites kind cs = sitesOutside kind cs := by
          apply ownSites_eq_sitesOutside hframe
          · rintro rfl
            cases hopens
          · rintro rfl
            cases hopens
        rw [hkind, not_isClosed_of_opensScope hopens, if_neg Bool.false_ne_true, hparts]
        simp [hnot]
      | false =>
        have houtside : (x, pos) ∈ ownSites kind cs ↔ (x, pos) ∈ sitesOutside kind cs := by
          by_cases hkind : kind = .statement .resources ∨ kind = .statement .enum
          · rw [ownSites_eq_nil hkind]
            exact iff_of_false List.not_mem_nil (not_mem_of_uncollected hself hkind pos)
          · rw [ownSites_eq_sitesOutside hframe (fun h ↦ hkind (.inl h)) fun h ↦ hkind (.inr h)]
        rw [houtside, Bool.false_or]
        split
        · rfl
        · rw [hparts]

theorem Sees.mem_introduced_iff (h : (mk kind span cs).Sees isVar x)
    (hscope : (mk kind span cs).isScope = true) :
    (x, pos) ∈ (mk kind span cs).introduced.map (·.site) ↔
      (x, pos) ∈ sitesInside kind cs ++ declaredSitesAll cs := by
  rw [introduced, if_pos hscope, List.map_append, List.mem_append, List.mem_append,
    ← ownSites_eq_sitesInside hscope, collectedAll_eq_flatMap, declaredSitesAll_eq_flatMap]
  refine or_congr bindsIn_ownBindings.mem_iff ?_
  rw [List.map_flatMap, List.mem_flatMap, List.mem_flatMap]
  refine exists_congr fun m ↦ and_congr_right fun hm ↦ mem_collected_iff (fun k hk ↦ h k ?_) _
  rw [regionAll_eq_flatMap]
  exact List.mem_cons_of_mem _ (List.mem_flatMap.2 ⟨m, hm, hk⟩)

theorem Sees.mem_scopeSites (h : n.Sees isVar x) {b : Binding} (hb : b ∈ n.introduced)
    (hname : b.name = x) : (x, b.pos) ∈ n.scopeSites isVar := by
  have hscope := isScope_of_mem_introduced hb
  obtain ⟨kind, span, cs⟩ := n
  have hsite : (x, b.pos) ∈ (mk kind span cs).introduced.map (·.site) :=
    List.mem_map.2 ⟨b, hb, by rw [Binding.site, hname]⟩
  exact List.mem_append_left _ ((h.mem_introduced_iff hscope).1 hsite)

/-- For a name that is seen, the scopes of the language are those that are collected. -/
theorem Sees.binds_eq (h : n.Sees isVar x) : n.binds isVar x = n.collects x := by
  rw [Bool.eq_iff_iff, collects_iff]
  constructor
  · intro hbinds
    obtain ⟨hkind, hany⟩ := Bool.and_eq_true_iff.1 hbinds
    obtain ⟨⟨y, pos⟩, hmem, hy⟩ := List.any_eq_true.1 hany
    obtain rfl := eq_of_beq hy
    obtain ⟨kind, span, cs⟩ := n
    have hself := h _ List.mem_cons_self
    have hscope : (mk kind span cs).isScope = true := by
      cases hframe : kind.isFrame with
      | true => exact isScope_of_isFrame hframe
      | false =>
        obtain hopens | hprogram := Bool.or_eq_true_iff.1 hkind
        · exact (not_mem_of_opensScope hself hopens hframe pos hmem).elim
        · exact Bool.or_eq_true_iff.2 (.inr hprogram)
    have hsite : ∃ pos, (y, pos) ∈ sitesInside kind cs ++ declaredSitesAll cs := by
      obtain hmem | hmem := List.mem_append.1 hmem
      · exact ⟨pos, hmem⟩
      · obtain ⟨pos, hmem⟩ := exists_declared_of_below hself hscope hmem
        exact ⟨pos, List.mem_append_right _ hmem⟩
    obtain ⟨pos, hsite⟩ := hsite
    obtain ⟨b, hb, heq⟩ := List.mem_map.1 ((h.mem_introduced_iff hscope).2 hsite)
    exact ⟨b, hb, congrArg Prod.fst heq⟩
  · rintro ⟨b, hb, hname⟩
    have hscope := isScope_of_mem_introduced hb
    refine Bool.and_eq_true_iff.2 ⟨?_, List.any_eq_true.2 ⟨_, h.mem_scopeSites hb hname, by simp⟩⟩
    obtain hframe | hprogram := Bool.or_eq_true_iff.1 hscope
    · rw [opensScope_of_isFrame hframe, Bool.true_or]
    · rw [hprogram, Bool.or_true]

/-! ## Lookup -/

theorem Sees.find?_binds_eq {around : List Node} (h : ∀ n ∈ around, n.Sees isVar x) :
    around.find? (binds isVar x) = around.find? (collects x) := by
  induction around with
  | nil => rfl
  | cons n around ih =>
    obtain ⟨hn, haround⟩ := List.forall_mem_cons.1 h
    rw [List.find?_cons, List.find?_cons, hn.binds_eq, ih haround]

/-- At every identifier that lies in the scopes around it and in no others, lookup finds a binding
of the nearest scope that has one, and nothing if there is none. If no node around it declares the
name in a way that is not seen, this is a declaration of the nearest scope of the language that
declares the name. Which declarations are written with `var` is not told by the tree. -/
theorem lookup_finds_nearest_scope {program : Node} {place : List Node × Node} {x : String}
    (hroot : program.kind = .statement .program) (hplace : place ∈ program.places [])
    (hname : place.2.identName? = some x) (hframed : program.Framed place.1 place.2.span.lo) :
    Option.Rel (fun n b ↦ b ∈ n.introduced ∧ b.name = x) (place.1.find? (collects x))
        ((Declarations.ofProgram program).lookup x place.2.span.lo) ∧
      ∀ isVar, (∀ n ∈ place.1, n.Sees isVar x) →
        Option.Rel (fun n b ↦ (x, b.pos) ∈ n.scopeSites isVar ∧ b.name = x)
          (place.1.find? (binds isVar x))
          ((Declarations.ofProgram program).lookup x place.2.span.lo) := by
  have hself : program ∈ place.1 := by
    obtain rfl | hself := eq_or_mem_of_mem_places hplace
    · rw [identName?, hroot] at hname
      cases hname
    · exact hself
  obtain ⟨inner, heq, hinner⟩ := exists_inner_of_mem_places hplace
  obtain rfl : place.1 = inner := heq.trans (List.append_nil _)
  have hrel := rel_lookup (x := x) hroot hself (hinner hframed.opened) hframed
  refine ⟨hrel, fun isVar hsees ↦ ?_⟩
  rw [Sees.find?_binds_eq hsees]
  generalize hfind : place.1.find? (collects x) = n?,
    (Declarations.ofProgram program).lookup x place.2.span.lo = b? at hrel
  cases hrel with
  | none => exact .none
  | some hb =>
    exact .some ⟨(hsees _ (List.mem_of_find?_eq_some hfind)).mem_scopeSites hb.1 hb.2, hb.2⟩

/-- All declarations are written with `let` or `const`. -/
def noVars : Node → Bool := fun _ ↦ false

def shadowedProgram : Node :=
  (SourceFile.ofText "a.ts"
    ("let x: string;\n" ++
      "function f(x: number) \x7b \x7b let x: boolean; x; \x7d x; \x7d").toList).program?.get
    (by decide +kernel)

def caughtProgram : Node :=
  (SourceFile.ofText "a.ts"
    ("let e: \x7b a: number \x7d | null;\n" ++
      "try \x7b f(); \x7d catch (e) \x7b e && e.a; \x7d").toList).program?.get
    (by decide +kernel)

/-- The last `x` is the parameter of the function around it. In the handler, `e` is its parameter,
but the variable outside is found, since such parameters are not seen. -/
theorem shadowed_name_found_in_function :
    (∃ place ∈ shadowedProgram.places [], place.2.identName? = some "x" ∧ place.2.span.lo = 62 ∧
      shadowedProgram.Framed place.1 place.2.span.lo ∧
      (∀ n ∈ place.1, n.Sees noVars "x") ∧
      Option.Rel (fun n b ↦ ("x", b.pos) ∈ n.scopeSites noVars ∧ b.name = "x")
        (place.1.find? (binds noVars "x"))
        ((Declarations.ofProgram shadowedProgram).lookup "x" place.2.span.lo) ∧
      ((Declarations.ofProgram shadowedProgram).lookup "x" place.2.span.lo).map (·.pos) =
        some 26) ∧
    ∃ place ∈ caughtProgram.places [], place.2.identName? = some "e" ∧
      caughtProgram.Framed place.1 place.2.span.lo ∧
      (place.1.find? (binds noVars "e")).map (·.kind) = some (.statement .handler) ∧
      ((Declarations.ofProgram caughtProgram).lookup "e" place.2.span.lo).map (·.pos) = some 4 ∧
      ¬∀ n ∈ place.1, n.Sees noVars "e" := by
  refine ⟨?_, by decide +kernel⟩
  obtain ⟨hroot, place, hplace, hname, hlo, hframed, hsees, hpos⟩ :
      shadowedProgram.kind = .statement .program ∧
        ∃ place ∈ shadowedProgram.places [], place.2.identName? = some "x" ∧
          place.2.span.lo = 62 ∧ shadowedProgram.Framed place.1 place.2.span.lo ∧
          (∀ n ∈ place.1, n.Sees noVars "x") ∧
          ((Declarations.ofProgram shadowedProgram).lookup "x" place.2.span.lo).map (·.pos) =
            some 26 := by
    decide +kernel
  have hfound := (lookup_finds_nearest_scope hroot hplace hname hframed).2 _ hsees
  exact ⟨place, hplace, hname, hlo, hframed, hsees, hfound, hpos⟩

end Node

end OptionalChain
