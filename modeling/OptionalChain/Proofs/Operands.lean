import OptionalChain.Proofs.Marking

/-!
# Evaluation of operands

A check evaluates its path and tests the value. A last operand evaluates its path and compares
the value; what it gives for an undefined value is what a run of its style ends with. The
markers of a last operand stand on its path and on nothing else.
-/

namespace OptionalChain

/-! ## Constants -/

namespace Node

@[simp]
theorem stripParens_stripParens (n : Node) : n.stripParens.stripParens = n.stripParens := by
  fun_induction stripParens n with
  | case1 span e ih => exact ih
  | case2 n h => rw [stripParens]; assumption

end Node

theorem Constant.ofNode_of_typeof {n e : Node} (h : typeofOperand? n = some e) :
    ofNode n = .other := by
  unfold typeofOperand? at h
  split at h
  · rename_i hn
    simp [ofNode, hn]
  · cases h

theorem Constant.ofNode_of_string {n : Node} {text : String} (h : stringValue? n = some text) :
    ofNode n = .literal := by
  unfold stringValue? at h
  split at h
  · rename_i value hkind
    cases hn : n.stripParens with
    | mk kind span children =>
      rw [hn] at hkind
      obtain rfl : kind = .literal (.string value) := hkind
      simp [ofNode, hn]
  · cases h

/-- Whether the value is one that the constant stands for. -/
def Constant.describes : Constant → Datum → Bool
  | .null, v => v == .null
  | .undefined, v => v == .undefined
  | .literal, v => !v.isNullish
  | .other, _ => true

namespace World

variable {σ : Type} (w : World σ) (f : SourceFile) (r : Reading)

/-- Evaluates a side of an equality. -/
def side (n : Node) (s : σ) : Option (Datum × σ) :=
  if n.isUndefined then some (.undefined, s) else w.eval f r n s

theorem eval_stripParens (n : Node) (s : σ) : w.eval f r n.stripParens s = w.eval f r n s := by
  fun_induction Node.stripParens n with
  | case1 span e ih => rw [ih, eval]
  | case2 => rfl

theorem eval_literal {l : Literal} {span : Span} {children : List Node} (s : σ) :
    w.eval f r (.mk (.literal l) span children) s =
      some (l.value?.getD (w.constant (.mk (.literal l) span children)), s) := by
  rw [eval]

/-- A node that is no name is evaluated as it is. -/
theorem side_of_stripParens {n m : Node} (h : n.stripParens = m) (hm : ∀ name, m.kind ≠ .ident name)
    (s : σ) : w.side f r n s = w.eval f r m s := by
  have hn : n.isUndefined = false := by
    unfold Node.isUndefined
    rw [h]
    split
    · exact (hm _ rfl).elim
    · rfl
  rw [side, hn, ← h, eval_stripParens]
  rfl

/-- A constant has a value that it stands for, in every state. -/
theorem side_of_constant {n : Node} (h : Constant.ofNode n ≠ .other) :
    ∃ d, (Constant.ofNode n).describes d = true ∧ ∀ s, w.side f r n s = some (d, s) := by
  revert h
  fun_cases Constant.ofNode n with
  | case1 span e hn hliteral =>
    intro _
    obtain ⟨kind, espan, children⟩ := e
    cases kind <;> simp [Node.kind, Kind.isLiteral] at hliteral
    refine ⟨.undefined, rfl, fun s ↦ ?_⟩
    rw [w.side_of_stripParens f r hn (by simp [Node.kind]), eval, eval_literal]
    rfl
  | case2 => exact fun h ↦ (h rfl).elim
  | case3 span e hn hnumeric =>
    intro _
    refine ⟨w.constant (.unary .minus span e), by simp [Constant.describes, w.constant_present],
      fun s ↦ ?_⟩
    rw [w.side_of_stripParens f r hn (by simp [Node.kind]), eval, if_pos hnumeric]
  | case4 => exact fun h ↦ (h rfl).elim
  | case5 span children hn =>
    intro _
    refine ⟨.null, rfl, fun s ↦ ?_⟩
    rw [w.side_of_stripParens f r hn (by simp [Node.kind]), eval_literal]
    rfl
  | case6 l span children hl hn =>
    intro _
    refine ⟨_, ?_, fun s ↦ (w.side_of_stripParens f r hn (by simp [Node.kind]) s).trans
      (w.eval_literal f r s)⟩
    cases l with
    | null => exact (hl rfl).elim
    | regex =>
      have hpresent := w.constant_present (.mk (.literal .regex) span children)
      simp [Constant.describes, Literal.value?, hpresent]
    | _ => rfl
  | case7 span children hn =>
    intro _
    refine ⟨.undefined, rfl, fun s ↦ ?_⟩
    simp [side, Node.isUndefined, hn]
  | case8 span hn =>
    intro _
    refine ⟨w.constant (.mk .template span []), by simp [Constant.describes, w.constant_present],
      fun s ↦ ?_⟩
    rw [w.side_of_stripParens f r hn (by simp [Node.kind]), eval]
  | case9 => exact fun h ↦ (h rfl).elim

/-! ## Equalities -/

theorem side_of_other {n : Node} (h : Constant.ofNode n = .other) (s : σ) :
    w.side f r n s = w.eval f r n s := by
  have hn : n.isUndefined = false := by
    unfold Node.isUndefined
    split
    · rename_i hundefined
      simp [Constant.ofNode, hundefined] at h
    · rfl
  simp [side, hn]

theorem eval_equality {op : BinaryOp} (h : op.isEquality = true) (span : Span)
    (left right : Node) (s : σ) :
    w.eval f r (.binary op span left right) s =
      (w.side f r left s).bind fun (a, s) ↦ (w.side f r right s).bind fun (b, s) ↦
        (w.compares s op a b).map fun holds ↦ (.boolean holds, s) := by
  rw [Node.binary, eval, if_pos h]
  rfl

/-- An equality whose right side is constant. -/
theorem eval_equality_right {op : BinaryOp} (h : op.isEquality = true) (span : Span)
    {left right : Node} {d : Datum} (hleft : Constant.ofNode left = .other)
    (hright : ∀ s, w.side f r right s = some (d, s)) (s : σ) :
    w.eval f r (.binary op span left right) s =
      (w.eval f r left s).bind fun (v, s) ↦
        (w.compares s op v d).map fun holds ↦ (.boolean holds, s) := by
  rw [w.eval_equality f r h, w.side_of_other f r hleft]
  refine Option.bind_congr fun a _ ↦ ?_
  dsimp only
  rw [hright, Option.bind_some]

/-- An equality whose left side is constant. -/
theorem eval_equality_left {op : BinaryOp} (h : op.isEquality = true) (span : Span)
    {left right : Node} {d : Datum} (hleft : ∀ s, w.side f r left s = some (d, s))
    (hright : Constant.ofNode right = .other) (s : σ) :
    w.eval f r (.binary op span left right) s =
      (w.eval f r right s).bind fun (v, s) ↦
        (w.compares s op d v).map fun holds ↦ (.boolean holds, s) := by
  rw [w.eval_equality f r h, hleft, Option.bind_some]
  dsimp only
  rw [w.side_of_other f r hright]

theorem eval_typeof {n e : Node} (h : typeofOperand? n = some e) (s : σ) :
    w.eval f r n s = (w.eval f r e s).map fun (v, s) ↦ (.string v.typeName, s) := by
  unfold typeofOperand? at h
  split at h
  · rename_i span e' hn
    cases h
    rw [← eval_stripParens, hn, eval]
  · cases h

theorem side_of_string {n : Node} {text : String} (h : stringValue? n = some text) (s : σ) :
    w.side f r n s = some (.string text, s) := by
  unfold stringValue? at h
  split at h
  · rename_i value hkind
    cases h
    cases hn : n.stripParens with
    | mk kind span children =>
      rw [hn] at hkind
      obtain rfl : kind = .literal (.string text) := hkind
      rw [w.side_of_stripParens f r hn (by simp [Node.kind]), eval_literal]
      rfl
  · cases h

theorem compares_string (s : σ) (op : BinaryOp) (a b : String) :
    w.compares s op (.string a) (.string b) = some ((a == b) != op.isNegated) := by
  unfold compares equatesLoosely
  cases op.isStrict <;> simp [Datum.same, Datum.isNullish, Datum.primitive?]

end World

/-! ## Checks -/

theorem splitTypeof?_eq_some {left right e : Node} {text : String}
    (h : splitTypeof? left right = some (e, text)) :
    typeofOperand? left = some e ∧ stringValue? right = some text ∨
      typeofOperand? right = some e ∧ stringValue? left = some text := by
  unfold splitTypeof? at h
  split at h
  · rename_i hleft hright
    cases h
    exact .inl ⟨hleft, hright⟩
  · split at h
    · rename_i hright hleft
      cases h
      exact .inr ⟨hright, hleft⟩
    · cases h

theorem splitComparison?_eq_some {left right e : Node} {c : Constant}
    (h : splitComparison? left right = some (e, c)) :
    c ≠ .other ∧
      (e = left ∧ Constant.ofNode left = .other ∧ Constant.ofNode right = c ∨
        e = right ∧ Constant.ofNode right = .other ∧ Constant.ofNode left = c) := by
  unfold splitComparison? at h
  split at h
  · cases h
  · rename_i hleft hconstant
    cases h
    exact ⟨hconstant, .inl ⟨rfl, hleft, rfl⟩⟩
  · rename_i hright hconstant
    cases h
    exact ⟨hconstant, .inr ⟨rfl, hright, rfl⟩⟩
  · cases h

/-- Whether the comparison takes the value for a nullish one. -/
def Comparison.holds : Comparison → Datum → Bool
  | .loose, v => v.isNullish
  | .strictNull, v => v == .null
  | .strictUndefined, v => v == .undefined

/-- What a check gives for a value of its path. -/
def CheckKind.result : CheckKind → Datum → Datum
  | .truthy, v => v
  | .falsy, v => .boolean (!v.isTruthy)
  | .notNullish c, v => .boolean (!c.holds v)
  | .nullish c, v => .boolean (c.holds v)
  | .typeofDefined, v => .boolean (v != .undefined)
  | .typeofUndefined, v => .boolean (v == .undefined)

theorem CheckKind.result_comparison (k : Comparison) (negated : Bool) (v : Datum) :
    (if negated then notNullish k else nullish k).result v = .boolean (k.holds v != negated) := by
  cases negated <;> simp [result]

namespace World

variable {σ : Type} (w : World σ) (f : SourceFile) (r : Reading)

theorem compares_of_comparison? {op : BinaryOp} {c : Constant} {k : Comparison} {d : Datum}
    (h : Check.comparison? op c = some k) (hd : c.describes d = true) (s : σ) (v : Datum) :
    w.compares s op v d = some (k.holds v != op.isNegated) ∧
      w.compares s op d v = some (k.holds v != op.isNegated) := by
  unfold compares equatesLoosely
  cases c with
  | null =>
    obtain rfl : d = .null := by simpa [Constant.describes] using hd
    cases hstrict : op.isStrict with
    | true =>
      obtain rfl : k = .strictNull := by simpa [Check.comparison?, hstrict] using h.symm
      cases v <;> simp [Comparison.holds, Datum.same]
    | false =>
      obtain rfl : k = .loose := by simpa [Check.comparison?, hstrict] using h.symm
      simp [Comparison.holds, Datum.isNullish]
  | undefined =>
    obtain rfl : d = .undefined := by simpa [Constant.describes] using hd
    cases hstrict : op.isStrict with
    | true =>
      obtain rfl : k = .strictUndefined := by simpa [Check.comparison?, hstrict] using h.symm
      cases v <;> simp [Comparison.holds, Datum.same]
    | false =>
      obtain rfl : k = .loose := by simpa [Check.comparison?, hstrict] using h.symm
      simp [Comparison.holds, Datum.isNullish]
  | literal => cases h
  | other => cases h

variable {f}

theorem eval_typeof_equality {op : BinaryOp} (hop : op.isEquality = true) (span : Span)
    {left right e : Node} {text : String}
    (h : typeofOperand? left = some e ∧ stringValue? right = some text ∨
      typeofOperand? right = some e ∧ stringValue? left = some text) (s : σ) :
    w.eval f r (.binary op span left right) s = (w.eval f r e s).map fun (v, s) ↦
      (.boolean ((v.typeName == text) != op.isNegated), s) := by
  obtain ⟨htypeof, hstring⟩ | ⟨htypeof, hstring⟩ := h
  · have hother := Constant.ofNode_of_typeof htypeof
    rw [w.eval_equality_right f r hop span hother (w.side_of_string f r hstring),
      w.eval_typeof f r htypeof, Option.bind_map]
    cases w.eval f r e s <;> simp [compares_string]
  · have hother := Constant.ofNode_of_typeof htypeof
    rw [w.eval_equality_left f r hop span (w.side_of_string f r hstring) hother,
      w.eval_typeof f r htypeof, Option.bind_map]
    cases w.eval f r e s <;> simp [compares_string, eq_comm]

theorem eval_ofPath? {k : CheckKind} {e : Node} {c : Check} (h : Check.ofPath? f k e = some c)
    (s : σ) : c.kind = k ∧
      w.eval f r e s = (w.pathValue r s c.path.baseKey c.path.hops).map (·, s) := by
  obtain ⟨p, hp, rfl⟩ := Option.map_eq_some_iff.1 h
  exact ⟨rfl, w.eval_of_path r hp s⟩

theorem eval_ofEquality? {op : BinaryOp} (hop : op.isEquality = true) (span : Span)
    {left right : Node} {c : Check} (h : Check.ofEquality? f op left right = some c) (s : σ) :
    w.eval f r (.binary op span left right) s =
      (w.pathValue r s c.path.baseKey c.path.hops).map fun v ↦ (c.kind.result v, s) := by
  unfold Check.ofEquality? at h
  split at h
  · rename_i e text hsplit
    split at h
    · rename_i htext
      obtain rfl : text = "undefined" := by simpa using htext
      obtain ⟨hkind, heval⟩ := w.eval_ofPath? r h s
      rw [w.eval_typeof_equality r hop span (splitTypeof?_eq_some hsplit), heval,
        Option.map_map, hkind]
      refine congrArg (Option.map · _) (funext fun v ↦ ?_)
      have hname : (v.typeName == "undefined") = (v == .undefined) := by
        rw [Bool.eq_iff_iff, beq_iff_eq, beq_iff_eq]
        exact Datum.typeName_eq_undefined
      cases op.isNegated <;> simp [hname, CheckKind.result, bne]
    · cases h
  · obtain ⟨⟨e, d⟩, hsplit, h⟩ := Option.bind_eq_some_iff.1 h
    obtain ⟨k, hk, h⟩ := Option.bind_eq_some_iff.1 h
    obtain ⟨hkind, heval⟩ := w.eval_ofPath? r h s
    obtain ⟨hd, ⟨rfl, hother, rfl⟩ | ⟨rfl, hother, rfl⟩⟩ := splitComparison?_eq_some hsplit
    · obtain ⟨a, ha, hside⟩ := w.side_of_constant f r hd
      have hcompares (v : Datum) := (w.compares_of_comparison? hk ha s v).1
      rw [w.eval_equality_right f r hop span hother hside, heval, hkind]
      cases w.pathValue r s c.path.baseKey c.path.hops with
      | none => rfl
      | some v => simp [hcompares, CheckKind.result_comparison]
    · obtain ⟨a, ha, hside⟩ := w.side_of_constant f r hd
      have hcompares (v : Datum) := (w.compares_of_comparison? hk ha s v).2
      rw [w.eval_equality_left f r hop span hside hother, heval, hkind]
      cases w.pathValue r s c.path.baseKey c.path.hops with
      | none => rfl
      | some v => simp [hcompares, CheckKind.result_comparison]

/-- A check gives what it makes of the value of its path, and leaves the state. -/
theorem eval_check {n : Node} {c : Check} (h : Check.of? f n = some c) (s : σ) :
    w.eval f r n s =
      (w.pathValue r s c.path.baseKey c.path.hops).map fun v ↦ (c.kind.result v, s) := by
  rw [← eval_stripParens]
  revert h
  fun_cases Check.of? f n with
  | case1 span e hn =>
    intro h
    obtain ⟨hkind, heval⟩ := w.eval_ofPath? r h s
    rw [hn, eval, heval, Option.map_map, hkind]
    rfl
  | case2 op span left right hn hop =>
    intro h
    rw [hn]
    exact w.eval_ofEquality? r hop span h s
  | case3 op span left right hn hop =>
    intro h
    obtain ⟨hkind, heval⟩ := w.eval_ofPath? r h s
    rw [hn, hkind]
    exact heval
  | case4 =>
    intro h
    obtain ⟨hkind, heval⟩ := w.eval_ofPath? r h s
    rw [hkind]
    exact heval

end World

/-! ## Last operands -/

namespace Node

/-- Marks the path of a last operand: of an equality the side that is not constant, of another
comparison the first side that has a path. -/
def markTerminal (f : SourceFile) (m : Nat → Bool) : Node → Node
  | .paren s e => .paren s (e.markTerminal f m)
  | .unary op s e => .unary op s (e.markTerminal f m)
  | .binary op s left right =>
    if op.isEquality then
      if Constant.ofNode left = .other then .binary op s (left.markTerminal f m) right
      else .binary op s left (right.markTerminal f m)
    else if op.isRelational then
      if (AccessPath.of? f left).isSome then .binary op s (left.markTerminal f m) right
      else .binary op s left (right.markTerminal f m)
    else .binary op s left right
  | n => n.mark m

variable {f : SourceFile} {n base : Node} {steps : List Step}

theorem markTerminal_of_spine (m : Nat → Bool) (h : AccessPath.Spine f n base steps) :
    n.markTerminal f m = n.mark m := by
  induction h with
  | @base n h =>
    have hkind := AccessPath.isBaseKind_of_base? h
    obtain ⟨kind, span, children⟩ := n
    cases kind <;> simp [Node.kind, AccessPath.isBaseKind] at hkind <;> simp [markTerminal]
  | paren span _ ih => rw [paren, markTerminal, ih, mark]
  | nonNull | member | call => simp [markTerminal, nonNull, member, call]

theorem stripParens_markTerminal (m : Nat → Bool) (n : Node) :
    (n.markTerminal f m).stripParens = (n.stripParens.markTerminal f m).stripParens := by
  fun_induction stripParens n with
  | case1 span e ih => rw [markTerminal, paren, stripParens, ih]
  | case2 => rfl

end Node

theorem Constant.ofNode_mark (m : Nat → Bool) (n : Node) : ofNode (n.mark m) = ofNode n := by
  fun_induction Node.mark m n with
  | case1 s e ih => simpa [ofNode, Node.stripParens] using ih
  | case2 => simp [ofNode, Node.stripParens]
  | case3 => simp [ofNode, Node.stripParens]
  | case4 => simp [ofNode, Node.stripParens]
  | case5 => rfl

theorem Constant.describes_eq_true {c : Constant} {d : Datum} (hc : c ≠ other)
    (h : c.describes d = true) :
    d.isNullish = (c == null || c == undefined) ∧ Datum.undefined.same d = (c == undefined) ∧
      d.same .undefined = (c == undefined) := by
  cases c with
  | null => obtain rfl : d = .null := by simpa [describes] using h
            exact ⟨rfl, rfl, rfl⟩
  | undefined => obtain rfl : d = .undefined := by simpa [describes] using h
                 exact ⟨rfl, rfl, rfl⟩
  | literal => cases d <;> simp_all [describes, Datum.isNullish, Datum.same]
  | other => exact (hc rfl).elim

/-- A comparison is accepted if it gives for an undefined value what the style ends with. -/
theorem ChainStyle.accepts_eq_true {style : ChainStyle} {op : BinaryOp} {c : Constant}
    (h : style.accepts op c = true) :
    c ≠ .other ∧
      ((if op.isStrict then c == .undefined else c == .null || c == .undefined) != op.isNegated) =
        (style == .or) := by
  revert h
  cases style <;> cases op <;> cases c <;> decide

/-- Whether the operand is an ordering or an instance test. -/
def Node.isRelation (n : Node) : Bool :=
  match n.stripParens with
  | .binary op _ _ _ => op.isRelational
  | _ => false

/-- Whether a run of the style ends with the value. -/
def ChainStyle.endsWith : ChainStyle → Datum → Bool
  | .and, v => !v.isTruthy
  | .or, v => v == .boolean true

namespace World

variable {σ : Type} (w : World σ) (r : Reading) {f : SourceFile}

theorem eval_markTerminal_stripParens (m : Nat → Bool) (n : Node) (s : σ) :
    w.eval f r (n.markTerminal f m) s = w.eval f r (n.stripParens.markTerminal f m) s := by
  rw [← eval_stripParens, Node.stripParens_markTerminal, eval_stripParens]

/-- A marked expression with a path has the value of the marked path. -/
theorem eval_markTerminal_of_path {n : Node} {p : AccessPath} (h : AccessPath.of? f n = some p)
    (m : Nat → Bool) (s : σ) :
    w.eval f r (n.markTerminal f m) s =
      (w.pathValue r s p.baseKey (Hop.markAll m p.hops)).map (·, s) := by
  obtain ⟨hspine, hkey⟩ := AccessPath.of?_eq_some h
  obtain ⟨marked, hmarked, hhops⟩ := hspine.mark m
  rw [Node.markTerminal_of_spine m hspine, w.eval_of_spine r hmarked,
    w.access_of_spine r hmarked, hhops, hkey]
  rfl

theorem typeofOperand?_markTerminal {n e : Node} (m : Nat → Bool) (h : typeofOperand? n = some e) :
    typeofOperand? (n.markTerminal f m) = some (e.markTerminal f m) := by
  unfold typeofOperand? at h
  split at h
  · rename_i span e' hn
    cases h
    simp [typeofOperand?, Node.stripParens_markTerminal, hn, Node.markTerminal, Node.unary,
      Node.stripParens]
  · cases h

theorem compares_undefined {style : ChainStyle} {op : BinaryOp} {c : Constant} {d : Datum}
    (h : style.accepts op c = true) (hd : c.describes d = true) (s : σ) :
    w.compares s op .undefined d = some (style == .or) ∧
      w.compares s op d .undefined = some (style == .or) := by
  obtain ⟨hother, hvalue⟩ := ChainStyle.accepts_eq_true h
  obtain ⟨hnullish, hleft, hright⟩ := Constant.describes_eq_true hother hd
  have hundefined : Datum.undefined.isNullish = true := rfl
  unfold compares equatesLoosely
  cases hstrict : op.isStrict with
  | true =>
    rw [hstrict] at hvalue
    simp [hleft, hright, ← hvalue]
  | false =>
    rw [hstrict] at hvalue
    simp [hundefined, hnullish, ← hvalue]

/-- A last operand makes of the value of its path what `K` tells, whatever the markers are. -/
def Ends (f : SourceFile) (n : Node) (p : AccessPath) (K : σ → Datum → Option Datum) : Prop :=
  ∀ m s, w.eval f r (n.markTerminal f m) s =
    (w.pathValue r s p.baseKey (Hop.markAll m p.hops)).bind fun v ↦ (K s v).map (·, s)

theorem ends_of_path {n : Node} {p : AccessPath} (h : AccessPath.of? f n = some p) :
    w.Ends r f n p fun _ v ↦ some v := by
  intro m s
  rw [w.eval_markTerminal_of_path r h, Option.map_eq_bind]
  rfl

theorem ends_not {span : Span} {e : Node} {p : AccessPath} (h : AccessPath.of? f e = some p) :
    w.Ends r f (.unary .not span e) p fun _ v ↦ some (.boolean (!v.isTruthy)) := by
  intro m s
  rw [Node.unary, Node.markTerminal, Node.unary, eval, w.eval_markTerminal_of_path r h]
  cases w.pathValue r s p.baseKey (Hop.markAll m p.hops) <;> rfl

theorem ends_typeof {op : BinaryOp} (hop : op.isEquality = true) (span : Span)
    {left right e : Node} {text : String} {p : AccessPath}
    (h : splitTypeof? left right = some (e, text)) (hp : AccessPath.of? f e = some p) :
    w.Ends r f (.binary op span left right) p
      fun _ v ↦ some (.boolean ((v.typeName == text) != op.isNegated)) := by
  intro m s
  rw [Node.binary, Node.markTerminal, if_pos hop]
  obtain ⟨htypeof, hstring⟩ | ⟨htypeof, hstring⟩ := splitTypeof?_eq_some h
  · rw [if_pos (Constant.ofNode_of_typeof htypeof),
      w.eval_typeof_equality r hop span (.inl ⟨typeofOperand?_markTerminal m htypeof, hstring⟩),
      w.eval_markTerminal_of_path r hp]
    cases w.pathValue r s p.baseKey (Hop.markAll m p.hops) <;> rfl
  · have hleft : Constant.ofNode left ≠ .other := by simp [Constant.ofNode_of_string hstring]
    rw [if_neg hleft,
      w.eval_typeof_equality r hop span (.inr ⟨typeofOperand?_markTerminal m htypeof, hstring⟩),
      w.eval_markTerminal_of_path r hp]
    cases w.pathValue r s p.baseKey (Hop.markAll m p.hops) <;> rfl

theorem ofNode_markTerminal {n : Node} {p : AccessPath} (h : AccessPath.of? f n = some p)
    (m : Nat → Bool) : Constant.ofNode (n.markTerminal f m) = Constant.ofNode n := by
  rw [Node.markTerminal_of_spine m (AccessPath.of?_eq_some h).1, Constant.ofNode_mark]

theorem ends_comparison {op : BinaryOp} (hop : op.isEquality = true) (span : Span)
    {left right e : Node} {c : Constant} {p : AccessPath}
    (h : splitComparison? left right = some (e, c)) (hp : AccessPath.of? f e = some p) :
    ∃ d, c.describes d = true ∧
      (w.Ends r f (.binary op span left right) p (fun s v ↦ (w.compares s op v d).map .boolean) ∨
        w.Ends r f (.binary op span left right) p
          fun s v ↦ (w.compares s op d v).map .boolean) := by
  obtain ⟨hc, ⟨rfl, hother, rfl⟩ | ⟨rfl, hother, rfl⟩⟩ := splitComparison?_eq_some h
  · obtain ⟨d, hd, hside⟩ := w.side_of_constant f r hc
    refine ⟨d, hd, .inl fun m s ↦ ?_⟩
    have hmarked := (ofNode_markTerminal hp m).trans hother
    rw [Node.binary, Node.markTerminal, if_pos hop, if_pos hother,
      w.eval_equality_right f r hop span hmarked hside, w.eval_markTerminal_of_path r hp]
    cases w.pathValue r s p.baseKey (Hop.markAll m p.hops) with
    | none => rfl
    | some v => simp [Function.comp_def]
  · obtain ⟨d, hd, hside⟩ := w.side_of_constant f r hc
    refine ⟨d, hd, .inr fun m s ↦ ?_⟩
    have hmarked := (ofNode_markTerminal hp m).trans hother
    rw [Node.binary, Node.markTerminal, if_pos hop, if_neg hc,
      w.eval_equality_left f r hop span hside hmarked, w.eval_markTerminal_of_path r hp]
    cases w.pathValue r s p.baseKey (Hop.markAll m p.hops) with
    | none => rfl
    | some v => simp [Function.comp_def]

theorem ends_of_stripParens {n n' : Node} {p : AccessPath} {K : σ → Datum → Option Datum}
    (hn : n.stripParens = n') (h : w.Ends r f n' p K) : w.Ends r f n p K := by
  intro m s
  rw [eval_markTerminal_stripParens, hn]
  exact h m s

theorem endsWith_typeof {style : ChainStyle} {op : BinaryOp} {text : String}
    (h : style.acceptsTypeof op text = true) :
    style.endsWith (.boolean ((Datum.undefined.typeName == text) != op.isNegated)) = true := by
  have hname : (Datum.undefined.typeName == text) = (text == "undefined") := by
    rw [Bool.eq_iff_iff, beq_iff_eq, beq_iff_eq]
    exact eq_comm
  rw [hname]
  cases style <;> cases hnegated : op.isNegated <;>
    simp_all [ChainStyle.acceptsTypeof, ChainStyle.endsWith, Datum.isTruthy]

theorem endsWith_comparison {style : ChainStyle} :
    style.endsWith (.boolean (style == .or)) = true := by
  cases style <;> rfl

/-- A last operand that is no relation makes of an undefined value what its style ends with. -/
theorem exists_ends {style : ChainStyle} {n : Node} {p : AccessPath}
    (h : terminalPath? f style n = some p) (hrelation : n.isRelation = false) :
    ∃ K, w.Ends r f n p K ∧ ∀ s, ∃ d, K s .undefined = some d ∧ style.endsWith d = true := by
  revert h
  fun_cases terminalPath? f style n with
  | case1 span e hn hstyle =>
    intro h
    obtain rfl : style = .or := by simpa using hstyle
    have hends := w.ends_of_stripParens r hn (w.ends_not r h)
    exact ⟨_, hends, fun s ↦ ⟨_, rfl, rfl⟩⟩
  | case2 => exact fun h ↦ by cases h
  | case3 op span left right hn hop =>
    intro h
    unfold terminalOfEquality? at h
    split at h
    · rename_i e text hsplit
      split at h
      · rename_i haccepts
        have hends := w.ends_of_stripParens r hn (w.ends_typeof r hop span hsplit h)
        exact ⟨_, hends, fun s ↦ ⟨_, rfl, endsWith_typeof haccepts⟩⟩
      · cases h
    · obtain ⟨⟨e, c⟩, hsplit, h⟩ := Option.bind_eq_some_iff.1 h
      dsimp only at h
      split at h
      · rename_i haccepts
        obtain ⟨d, hd, hends⟩ := w.ends_comparison r hop span hsplit h
        have hvalue := w.compares_undefined haccepts hd
        obtain hends | hends := hends
        · refine ⟨_, w.ends_of_stripParens r hn hends, fun s ↦ ⟨_, ?_, endsWith_comparison⟩⟩
          rw [(hvalue s).1, Option.map_some]
        · refine ⟨_, w.ends_of_stripParens r hn hends, fun s ↦ ⟨_, ?_, endsWith_comparison⟩⟩
          rw [(hvalue s).2, Option.map_some]
      · cases h
  | case4 op span left right hn hop hstyle =>
    simp [Node.isRelation, hn] at hrelation
    simp [hrelation] at hstyle
  | case5 op span left right hn hop hrel hstyle =>
    intro h
    obtain rfl : style = .and := by simpa using hstyle
    exact ⟨_, w.ends_of_stripParens r hn (w.ends_of_path r h), fun s ↦ ⟨_, rfl, rfl⟩⟩
  | case6 => exact fun h ↦ by cases h
  | case7 hstyle =>
    intro h
    obtain rfl : style = .and := by simpa using hstyle
    exact ⟨_, w.ends_of_stripParens r rfl (w.ends_of_path r h), fun s ↦ ⟨_, rfl, rfl⟩⟩
  | case8 => exact fun h ↦ by cases h

end World

end OptionalChain
