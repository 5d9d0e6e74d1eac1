import OptionalChain.Proofs.RewrittenChain

/-!
# The order of compared operands

A comparison is read as one of `typeof` with a string, or else as one of an expression with a
constant. Each reading looks at both orders of the operands, and no operand can stand on both sides
of it: so it makes no difference which operand comes first, nor which of them is in parentheses.
-/

namespace OptionalChain

variable {left right left' right' e : Node}

theorem Node.stripParens_paren (s : Span) (n : Node) :
    (Node.paren s n).stripParens = n.stripParens := rfl

/-! ## Operands of `typeof` -/

theorem stringValue?_of_typeof {n : Node} (h : typeofOperand? n = some e) :
    stringValue? n = none := by
  cases hstring : stringValue? n with
  | none => rfl
  | some text =>
    have hother := Constant.ofNode_of_typeof h
    rw [Constant.ofNode_of_string hstring] at hother
    cases hother

theorem splitTypeof?_eq_some_iff {text : String} :
    splitTypeof? left right = some (e, text) ↔
      typeofOperand? left = some e ∧ stringValue? right = some text ∨
        typeofOperand? right = some e ∧ stringValue? left = some text := by
  refine ⟨splitTypeof?_eq_some, ?_⟩
  rintro (⟨htypeof, hstring⟩ | ⟨htypeof, hstring⟩)
  · simp [splitTypeof?, htypeof, hstring]
  · simp [splitTypeof?, htypeof, hstring, stringValue?_of_typeof htypeof]

theorem splitTypeof?_comm (left right : Node) :
    splitTypeof? left right = splitTypeof? right left := by
  apply Option.ext
  rintro ⟨e, text⟩
  rw [splitTypeof?_eq_some_iff, splitTypeof?_eq_some_iff, or_comm]

theorem splitTypeof?_congr (hleft : left.stripParens = left'.stripParens)
    (hright : right.stripParens = right'.stripParens) :
    splitTypeof? left right = splitTypeof? left' right' := by
  simp only [splitTypeof?, typeofOperand?, stringValue?, hleft, hright]

/-! ## Constants -/

theorem splitComparison?_eq_some_iff {c : Constant} :
    splitComparison? left right = some (e, c) ↔
      c ≠ .other ∧
        (e = left ∧ Constant.ofNode left = .other ∧ Constant.ofNode right = c ∨
          e = right ∧ Constant.ofNode right = .other ∧ Constant.ofNode left = c) := by
  refine ⟨splitComparison?_eq_some, ?_⟩
  rintro ⟨hc, ⟨rfl, hother, hconstant⟩ | ⟨rfl, hother, hconstant⟩⟩
  · cases c <;> simp_all [splitComparison?]
  · cases c <;> simp_all [splitComparison?]

theorem splitComparison?_comm (left right : Node) :
    splitComparison? left right = splitComparison? right left := by
  apply Option.ext
  rintro ⟨e, c⟩
  rw [splitComparison?_eq_some_iff, splitComparison?_eq_some_iff, or_comm]

theorem Constant.ofNode_congr {n m : Node} (h : n.stripParens = m.stripParens) :
    ofNode n = ofNode m := by
  rw [ofNode, h, ofNode]

/-- What is made of a compared expression inside its parentheses is made of it with others. -/
theorem bind_splitComparison?_congr {α : Type} {make : Node → Constant → Option α}
    (hmake : ∀ n c, make n.stripParens c = make n c)
    (hleft : left.stripParens = left'.stripParens)
    (hright : right.stripParens = right'.stripParens) :
    ((splitComparison? left right).bind fun x ↦ make x.1 x.2) =
      (splitComparison? left' right').bind fun x ↦ make x.1 x.2 := by
  have hmakeLeft (c : Constant) : make left c = make left' c := by
    rw [← hmake, hleft, hmake]
  have hmakeRight (c : Constant) : make right c = make right' c := by
    rw [← hmake, hright, hmake]
  unfold splitComparison?
  rw [Constant.ofNode_congr hleft, Constant.ofNode_congr hright]
  cases Constant.ofNode left' <;> cases Constant.ofNode right' <;>
    simp [hmakeLeft, hmakeRight]

/-! ## Comparisons -/

section

variable {α : Type} (ofTypeof : Node → String → Option α) (ofConstant : Node → Constant → Option α)

/-- What is made of a comparison: of the operand of `typeof` and a string, or of an expression and a
constant. -/
def readComparison (left right : Node) : Option α :=
  match splitTypeof? left right with
  | some (e, text) => ofTypeof e text
  | none => (splitComparison? left right).bind fun x ↦ ofConstant x.1 x.2

theorem readComparison_comm (left right : Node) :
    readComparison ofTypeof ofConstant left right =
      readComparison ofTypeof ofConstant right left := by
  unfold readComparison
  rw [splitTypeof?_comm, splitComparison?_comm]

theorem readComparison_congr (hconstant : ∀ n c, ofConstant n.stripParens c = ofConstant n c)
    (hleft : left.stripParens = left'.stripParens)
    (hright : right.stripParens = right'.stripParens) :
    readComparison ofTypeof ofConstant left right =
      readComparison ofTypeof ofConstant left' right' := by
  unfold readComparison
  rw [splitTypeof?_congr hleft hright, bind_splitComparison?_congr hconstant hleft hright]

end

variable (f : SourceFile) (op : BinaryOp)

theorem Check.ofEquality?_eq_readComparison (left right : Node) :
    ofEquality? f op left right = readComparison
      (fun e text ↦ if text == "undefined" then
        ofPath? f (if op.isNegated then .typeofDefined else .typeofUndefined) e else none)
      (fun e c ↦ (comparison? op c).bind fun comparison ↦
        ofPath? f (if op.isNegated then .notNullish comparison else .nullish comparison) e)
      left right := by
  unfold ofEquality? readComparison
  cases splitTypeof? left right <;> rfl

theorem terminalOfEquality?_eq_readComparison (style : ChainStyle) (left right : Node) :
    terminalOfEquality? f style op left right = readComparison
      (fun e text ↦ if style.acceptsTypeof op text then AccessPath.of? f e else none)
      (fun e c ↦ if style.accepts op c then AccessPath.of? f e else none) left right := by
  unfold terminalOfEquality? readComparison
  cases splitTypeof? left right <;> rfl

theorem Check.ofPath?_stripParens (kind : CheckKind) (n : Node) :
    ofPath? f kind n.stripParens = ofPath? f kind n := by
  rw [ofPath?, AccessPath.of?_stripParens, ofPath?]

variable {op}

/-- An equality makes the same check and ends in the same path with its operands in either order and
with any parentheses around each of them. -/
theorem comparisons_ignore_operand_order (hop : op.isEquality = true)
    (hleft : left.stripParens = left'.stripParens)
    (hright : right.stripParens = right'.stripParens) (s s' : Span) :
    Check.of? f (.binary op s left right) = Check.of? f (.binary op s' right' left') ∧
      ∀ style, terminalPath? f style (.binary op s left right) =
        terminalPath? f style (.binary op s' right' left') := by
  have hcheck (s : Span) (left right : Node) :
      Check.of? f (.binary op s left right) = Check.ofEquality? f op left right := if_pos hop
  have hterminal (style : ChainStyle) (s : Span) (left right : Node) :
      terminalPath? f style (.binary op s left right) =
        terminalOfEquality? f style op left right := if_pos hop
  refine ⟨?_, fun style ↦ ?_⟩
  · rw [hcheck, hcheck, Check.ofEquality?_eq_readComparison, Check.ofEquality?_eq_readComparison,
      readComparison_comm]
    refine readComparison_congr _ _ (fun n c ↦ ?_) hright hleft
    simp only [Check.ofPath?_stripParens]
  · rw [hterminal, hterminal, terminalOfEquality?_eq_readComparison,
      terminalOfEquality?_eq_readComparison, readComparison_comm]
    refine readComparison_congr _ _ (fun n c ↦ ?_) hright hleft
    rw [AccessPath.of?_stripParens]

def voidComparison : SourceFile :=
  .ofText "a.ts" "foo.bar !== (void 0);".toList

/-- The operands of the comparison as it is written. -/
def voidComparisonSides : Node × Node :=
  match voidComparison.program?.bind (·.preorder.find? (·.kind == .binary .strictNe)) with
  | some (.mk _ _ [left, right]) => (left, right)
  | _ => (.absent, .absent)

/-- The operands the other way round, with the parentheses around the other one. -/
def turnedComparison : Node :=
  .binary .strictNe ⟨0, 20⟩ voidComparisonSides.2.stripParens (.paren ⟨0, 7⟩ voidComparisonSides.1)

/-- The check and the path are those of the comparison as it is written. -/
theorem void_comparison_turned :
    (Check.of? voidComparison turnedComparison).map (fun check ↦ (check.kind, check.path.render)) =
        some (.notNullish .strictUndefined, "foo.bar".toList) ∧
      (terminalPath? voidComparison .and turnedComparison).map (·.render) =
        some "foo.bar".toList := by
  have hop : BinaryOp.strictNe.isEquality = true := rfl
  have hleft := (Node.stripParens_paren ⟨0, 7⟩ voidComparisonSides.1).symm
  have hright := (Node.stripParens_stripParens voidComparisonSides.2).symm
  obtain ⟨hcheck, hterminal⟩ := comparisons_ignore_operand_order voidComparison hop hleft hright
    ⟨0, 20⟩ ⟨0, 20⟩
  rw [turnedComparison, ← hcheck, ← hterminal]
  decide +kernel

end OptionalChain
