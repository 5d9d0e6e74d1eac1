import OptionalChain.Proofs.SafeChains

/-!
# Relations as last operands

The last operand of a chain may be an ordering or an instance test with the path on one side.
The run evaluates the other side only if no guard ends it; the rewritten operand evaluates it
always. So the two are falsy together exactly if the other side, where a guard ends the run, does
not throw and lets the relation fail.
-/

namespace OptionalChain

theorem BinaryOp.not_isEquality {op : BinaryOp} (h : op.isRelational = true) :
    ¬op.isEquality = true := by
  cases op <;> simp_all [isRelational, isEquality]

/-- A relation can only be the last operand of a run of `&&`. -/
theorem exists_relation {f : SourceFile} {style : ChainStyle} {n : Node} {p : AccessPath}
    (h : terminalPath? f style n = some p) (hrelation : n.isRelation = true) :
    style = .and ∧ ∃ op span left right, n.stripParens = .binary op span left right ∧
      op.isRelational = true ∧ terminalOfRelation? f op left right = some p := by
  unfold Node.isRelation at hrelation
  split at hrelation
  · rename_i op span left right hn
    have hpath : terminalPath? f style n = terminalPath? f style (.binary op span left right) := by
      rw [terminalPath?, hn, terminalPath?_binary]
    rw [hpath, terminalPath?_binary, if_neg (BinaryOp.not_isEquality hrelation), hrelation,
      Bool.and_true] at h
    cases style with
    | and => exact ⟨rfl, op, span, left, right, hn, hrelation, by simpa using h⟩
    | or => simp at h
  · cases hrelation

namespace World

variable {σ : Type} (w : World σ) (r : Reading) {f : SourceFile}

theorem eval_relation {op : BinaryOp} (h : op.isRelational = true) (span : Span)
    (left right : Node) (s : σ) :
    w.eval f r (.binary op span left right) s =
      (w.eval f r left s).bind fun (a, s) ↦ (w.eval f r right s).bind fun (b, s) ↦
        (w.relates s op a b).map fun holds ↦ (.boolean holds, s) := by
  rw [Node.binary, eval, if_neg (BinaryOp.not_isEquality h), if_pos h]

/-- The marked relation evaluates the marked path on its side. -/
theorem eval_markTerminal_relation {n left right : Node} {op : BinaryOp} {span : Span}
    (hn : n.stripParens = .binary op span left right) (h : op.isRelational = true)
    (m : Nat → Bool) (s : σ) :
    w.eval f r (n.markTerminal f m) s =
      if (AccessPath.of? f left).isSome then
        w.eval f r (.binary op span (left.markTerminal f m) right) s
      else w.eval f r (.binary op span left (right.markTerminal f m)) s := by
  rw [eval_markTerminal_stripParens, hn, Node.binary, Node.markTerminal,
    if_neg (BinaryOp.not_isEquality h), if_pos h]
  split <;> rfl

/-- Markers do not change the value of a path that has one. -/
theorem eval_markTerminal_of_eval {n : Node} {p : AccessPath} (h : AccessPath.of? f n = some p)
    (m : Nat → Bool) {s t : σ} {v : Datum} (heval : w.eval f r n s = some (v, t)) :
    w.eval f r (n.markTerminal f m) s = some (v, t) := by
  rw [w.eval_of_path r h] at heval
  obtain ⟨x, hx, heq⟩ := Option.map_eq_some_iff.1 heval
  obtain ⟨l, hwalk, rfl⟩ := Option.map_eq_some_iff.1 hx
  cases heq
  rw [w.eval_markTerminal_of_path r h, pathValue, w.walk_markAll r s m hwalk]
  rfl

theorem exists_falsy_iff {holds : Option Bool} {t : σ} :
    (∃ u t', holds.map (fun b ↦ (Datum.boolean b, t)) = some (u, t') ∧ u.isTruthy = false) ↔
      holds = some false := by
  cases holds with
  | none => simp
  | some b => simp [Datum.isTruthy]

theorem relates_undefined {op : BinaryOp} (hop : op ≠ .instanceOf) (s : σ) (b : Datum) :
    w.relates s op .undefined b = if w.converts s b then some false else none := by
  have hundefined : w.converts s .undefined = true := rfl
  rw [relates, if_neg hop, hundefined, Bool.true_and]
  rfl

end World

/-- The relation of the rewritten operand fails without a throw: its other side has a value that
can be compared with the value of the path. -/
def Chain.relationFails {σ : Type} (chain : Chain) (f : SourceFile) (r : Reading) (w : World σ)
    (s : σ) : Bool :=
  match chain.terminal.stripParens with
  | .binary op _ left right =>
    if (AccessPath.of? f left).isSome then
      (w.access f r chain.rewrittenPath s).isSome &&
        (w.eval f r right s).any fun (b, t) ↦
          if op = .instanceOf then w.isInstance t .undefined b == some false else w.converts t b
    else
      (w.eval f r left s).any fun (a, t) ↦ (w.access f r chain.rewrittenPath t).any fun (x, _) ↦
        w.relates t op a x == some false
  | _ => false

namespace ChainFinder

variable {c : ChainFinder} {operands : List Node} {chain : Chain}

namespace Parts

variable (parts : c.Parts operands chain)

include parts

/-- A relation that has a value has the same one with the markers. -/
theorem eval_rewritten_relation {σ : Type} {w : World σ} {r : Reading} {s s' : σ} {v : Datum}
    (hrelation : chain.terminal.isRelation = true)
    (h : w.eval c.file r chain.terminal s = some (v, s')) :
    w.eval c.file r (chain.rewritten c.file) s = some (v, s') := by
  obtain ⟨-, op, span, left, right, hn, hop, hpath⟩ := exists_relation parts.terminal_eq hrelation
  rw [← World.eval_stripParens, hn, w.eval_relation r hop] at h
  obtain ⟨⟨a, t⟩, hleft, h⟩ := Option.bind_eq_some_iff.1 h
  obtain ⟨⟨b, t'⟩, hright, hrelates⟩ := Option.bind_eq_some_iff.1 h
  rw [Chain.rewritten, w.eval_markTerminal_relation r hn hop]
  unfold terminalOfRelation? at hpath
  split at hpath
  · rename_i hsome
    rw [hsome, Option.isSome_some, if_pos rfl, w.eval_relation r hop,
      w.eval_markTerminal_of_eval r hsome _ hleft, Option.bind_some]
    exact h
  · rename_i hnone
    split at hpath
    · cases hpath
    · rw [hnone, Option.isSome_none, if_neg Bool.false_ne_true, w.eval_relation r hop, hleft,
        Option.bind_some]
      dsimp only
      rw [w.eval_markTerminal_of_eval r hpath _ hright]
      exact hrelates

/-- Where a guard is nullish the rewritten relation is falsy exactly if it fails without a
throw. -/
theorem exists_falsy_iff_relationFails {σ : Type} {w : World σ} {r : Reading} {s : σ}
    (hrelation : chain.terminal.isRelation = true) {g : AccessPath} (hg : g ∈ chain.guards)
    {v : Datum} (hvalue : w.pathValue r s g.baseKey g.hops = some v)
    (hnullish : v.isNullish = true) :
    (∃ u t, w.eval c.file r (chain.rewritten c.file) s = some (u, t) ∧ u.isTruthy = false) ↔
      chain.relationFails c.file r w s = true := by
  obtain ⟨-, op, span, left, right, hn, hop, hpath⟩ := exists_relation parts.terminal_eq hrelation
  rw [Chain.rewritten, w.eval_markTerminal_relation r hn hop, Chain.relationFails, hn]
  dsimp only
  unfold terminalOfRelation? at hpath
  split at hpath
  · rename_i hsome
    cases hpath
    rw [hsome, Option.isSome_some, if_pos rfl, if_pos rfl, w.eval_relation r hop,
      w.eval_markTerminal_of_path r hsome, parts.access_rewrittenPath]
    obtain ⟨j, -, -, hskip⟩ := parts.exists_pathValue_eq w r s hg hvalue hnullish
    unfold Chain.hops at hskip ⊢
    rw [hskip]
    split
    · rw [Option.map_some, Option.bind_some, Option.isSome_some, Bool.true_and]
      dsimp only
      cases w.eval c.file r right s with
      | none => simp
      | some b =>
        rw [Option.bind_some, World.exists_falsy_iff, Option.any_some]
        by_cases hinstance : op = .instanceOf
        · simp [World.relates, hinstance]
        · rw [w.relates_undefined hinstance, if_neg hinstance]
          cases w.converts b.2 b.1 <;> simp
    · simp
  · rename_i hnone
    split at hpath
    · cases hpath
    · rw [hnone, Option.isSome_none, if_neg Bool.false_ne_true, if_neg Bool.false_ne_true,
        w.eval_relation r hop]
      cases w.eval c.file r left s with
      | none => simp
      | some a =>
        rw [Option.bind_some, Option.any_some]
        dsimp only
        rw [w.eval_markTerminal_of_path r hpath, parts.access_rewrittenPath, Chain.hops]
        cases w.pathValue r a.2 chain.terminalPath.baseKey
            (Hop.markAll chain.isBoundary chain.terminalPath.hops) with
        | none => simp
        | some x =>
          rw [Option.map_some, Option.bind_some, World.exists_falsy_iff, Option.any_some,
            beq_iff_eq]

end Parts

/-- Where the run of a safe chain with a relation does not throw, the rewritten operand is falsy
together with it, and does not throw, exactly if the relation fails without a throw whenever a
guard ends the run. If no guard does, the two always agree. -/
theorem relation_falsy_iff (h : chain ∈ c.find operands) (hsafe : chain.verdict = .safe)
    (hrelation : chain.terminal.isRelation = true) :
    chain.style = .and ∧ (∃ start, c.chainAt? operands start = some chain) ∧
      ∀ start, c.chainAt? operands start = some chain →
        ∃ guards, (operands.drop start).take chain.operands = guards ++ [chain.terminal] ∧
          ∀ (σ : Type) (w : World σ) (r : Reading) (s : σ),
            chain.Sound c.file r w c.oracle s →
            ∀ v s', w.run c.file r chain.style guards chain.terminal s = some (v, s') →
              ((∃ u t, w.eval c.file r (chain.rewritten c.file) s = some (u, t) ∧
                  u.isTruthy = v.isTruthy) ↔
                ((∃ d t, w.guards c.file r chain.style guards s = some (some d, t)) →
                  chain.relationFails c.file r w s = true)) := by
  obtain ⟨start, hstart⟩ := exists_chainAt? h
  obtain ⟨parts⟩ := exists_parts hstart
  have hand : chain.style = .and :=
    parts.style_eq.trans (exists_relation parts.terminal_eq hrelation).1
  refine ⟨hand, ⟨start, hstart⟩, fun start hstart ↦ ?_⟩
  obtain ⟨parts⟩ := exists_parts hstart
  refine ⟨parts.guardNodes, parts.take_operands, fun σ w r s hsound v s' hrun ↦ ?_⟩
  obtain ⟨⟨stopped, t⟩, hguards, hlast⟩ := Option.bind_eq_some_iff.1 hrun
  obtain ⟨ht, hstopped⟩ := parts.exists_nullish_guard hsafe hsound hguards
  subst ht
  cases stopped with
  | none =>
    refine iff_of_true ⟨v, s', parts.eval_rewritten_relation hrelation hlast, rfl⟩ ?_
    rintro ⟨d, t, hd⟩
    rw [hguards] at hd
    cases hd
  | some d =>
    cases hlast
    obtain ⟨hends, g, hg, x, hx, hnullish⟩ := hstopped v rfl
    have hfalsy : v.isTruthy = false := by
      rw [hand] at hends
      simpa [ChainStyle.endsWith] using hends
    rw [hfalsy, parts.exists_falsy_iff_relationFails hrelation hg hx hnullish]
    exact ⟨fun hfails _ ↦ hfails, fun hfails ↦ hfails ⟨v, s', hguards⟩⟩

def comparedPaths : ChainFinder :=
  inText .and "foo != null && foo.bar < foo.baz;"

def comparedChain : Chain :=
  (comparedPaths.chainAt? comparedPaths.firstRun 0).get (by decide +kernel)

/-- Where `foo` is null the run is false, and the replacement throws at `foo.baz`. -/
theorem compared_path_throws :
    comparedChain ∈ comparedPaths.find comparedPaths.firstRun ∧ comparedChain.verdict = .safe ∧
      comparedChain.terminal.isRelation = true ∧
      comparedChain.replacement? comparedPaths.file = some "foo?.bar < foo.baz".toList ∧
      (World.probe 0).run comparedPaths.file .whole comparedChain.style
        comparedPaths.firstRun.dropLast comparedChain.terminal () = some (.boolean false, ()) ∧
      ¬∃ u t, (World.probe 0).eval comparedPaths.file .whole
        (comparedChain.rewritten comparedPaths.file) () = some (u, t) ∧ u.isTruthy = false := by
  have hstart : comparedPaths.chainAt? comparedPaths.firstRun 0 = some comparedChain :=
    (Option.some_get _).symm
  have hfind := mem_find_of_chainAt? hstart
  obtain ⟨hsafe, hrelation, htext, hlength, hrun, hguards, hfails⟩ :
      comparedChain.verdict = .safe ∧ comparedChain.terminal.isRelation = true ∧
      comparedChain.replacement? comparedPaths.file = some "foo?.bar < foo.baz".toList ∧
      comparedPaths.firstRun.length ≤ comparedChain.operands ∧
      (World.probe 0).run comparedPaths.file .whole comparedChain.style
        comparedPaths.firstRun.dropLast comparedChain.terminal () = some (.boolean false, ()) ∧
      (World.probe 0).guards comparedPaths.file .whole comparedChain.style
        comparedPaths.firstRun.dropLast () = some (some (.boolean false), ()) ∧
      comparedChain.relationFails comparedPaths.file .whole (World.probe 0) () = false := by
    decide +kernel
  obtain ⟨guards, htake, hiff⟩ := (relation_falsy_iff hfind hsafe hrelation).2.2 0 hstart
  obtain rfl : comparedPaths.firstRun.dropLast = guards := by
    rw [List.drop_zero, List.take_of_length_le hlength] at htake
    rw [htake, List.dropLast_concat]
  refine ⟨hfind, hsafe, hrelation, htext, hrun, fun hfalsy ↦ ?_⟩
  have htrue := (hiff Unit (World.probe 0) .whole () (fun _ _ _ _ ↦ rfl) _ _ hrun).1 hfalsy
    ⟨_, _, hguards⟩
  rw [hfails] at htrue
  cases htrue

end ChainFinder

end OptionalChain
