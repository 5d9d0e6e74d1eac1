import OptionalChain.Proofs.Placement.Gaps
import OptionalChain.Proofs.SelectedText

/-!
# Tokens of steps

A step of a path starts with a token: a dot, a bracket, a parenthesis or the `<` of type arguments.
The token is the next one after what the step is taken from. Dots and parentheses are searched
there, and the search finds them if every comment on the way that ends with its line ends with `\n`.
The scanner also ends such comments with other characters.
-/

namespace OptionalChain

open Text (At Boundary)

/-! ## Gaps without faults -/

/-- A comment that ends with its line ends with `\n` or `\r\n`. -/
def Comment.EndsPlainly (text : List Char) (m : Comment) : Prop :=
  m.style = .line →
    ∃ rest, At text m.span.hi ('\n' :: rest) ∨ At text m.span.hi ('\r' :: '\n' :: rest)

namespace Token

variable {mode mode' : SkipMode} {g g' r : Gap} {v w cs : List Char} {c : Char}

/-- What is kept of a gap that skipping goes on from. -/
structure Gap.Leads (g r : Gap) : Prop where
  pos : g.pos ≤ r.pos
  comments : g.comments ⊆ r.comments
  faultless : r.faults = [] → g.faults = [] ∧ g.legacy? = none

theorem Gap.leads_settled (g : Gap) (rest : List Char) :
    g.Leads { g.settled with rest } := by
  refine ⟨by simp, by simp, fun h ↦ ?_⟩
  cases hlegacy : g.legacy? with
  | none => exact ⟨by simpa [settled, hlegacy] using h, rfl⟩
  | some lo => simp [settled, hlegacy] at h

theorem leads_skipFrom (mode : SkipMode) (g : Gap) (cs : List Char) :
    g.Leads (skipFrom mode g cs) := by
  fun_induction skipFrom mode g cs with
  | case1 g => exact g.leads_settled []
  | case2 lo g =>
    have h := (g.closing .line lo).leads_settled []
    exact ⟨h.pos, List.Subset.trans (List.subset_append_left ..) h.comments, h.faultless⟩
  | case3 lo star g =>
    have h := Gap.leads_settled
      { g with faults := g.faults ++ [⟨⟨g.pos, g.pos⟩, .unterminatedComment⟩] } []
    refine ⟨h.pos, h.comments, fun hnone ↦ ?_⟩
    exact absurd (h.faultless hnone).1 (by simp)
  | case4 g cs ih => exact ⟨Nat.le_trans (Nat.le_add_right _ _) ih.pos, ih.comments, ih.faultless⟩
  | case5 g cs ih => exact ⟨Nat.le_trans (Nat.le_add_right _ _) ih.pos, ih.comments, ih.faultless⟩
  | case6 g cs ih =>
    refine ⟨Nat.le_trans (Nat.le_add_right _ _) ih.pos, ?_, fun hnone ↦ ?_⟩
    · simpa [Gap.pastOpening] using ih.comments
    · exact absurd (ih.faultless hnone).2 (by simp [Gap.pastOpening])
  | case7 g cs _ ih =>
    refine ⟨Nat.le_trans ?_ ih.pos, ?_, fun hnone ↦ ?_⟩
    · simp [Gap.pastClosing]
    · simpa [Gap.pastClosing] using ih.comments
    · exact absurd (ih.faultless hnone).1 (by simp [Gap.pastClosing])
  | case8 g cs _ => exact g.leads_settled _
  | case9 g c cs _ _ _ _ _ ih =>
    exact ⟨Nat.le_trans (Nat.le_add_right _ _) ih.pos, ih.comments, ih.faultless⟩
  | case10 g c cs => exact g.leads_settled _
  | case11 lo g c cs _ ih =>
    exact ⟨Nat.le_trans (Nat.le_add_right _ _) ih.pos,
      List.Subset.trans (List.subset_append_left ..) ih.comments, ih.faultless⟩
  | case12 lo g c cs _ ih =>
    exact ⟨Nat.le_trans (Nat.le_add_right _ _) ih.pos, ih.comments, ih.faultless⟩
  | case13 lo star g c cs _ ih =>
    exact ⟨Nat.le_trans (Nat.le_add_right _ _) ih.pos,
      List.Subset.trans (List.subset_append_left ..) ih.comments, ih.faultless⟩
  | case14 lo star g c cs _ ih =>
    exact ⟨Nat.le_trans (Nat.le_add_right _ _) ih.pos, ih.comments, ih.faultless⟩

/-- The mode with another place for the comment that is open. -/
def SkipMode.from (lo : Nat) : SkipMode → SkipMode
  | .blanks => .blanks
  | .lineComment _ => .lineComment lo
  | .blockComment _ star => .blockComment lo star

/-- The text is skipped wherever it stands. -/
def Passes (mode : SkipMode) (w : List Char) : Prop :=
  ∀ lo g, ∃ g', Skipped (mode.from lo) g w g'

/-- A few characters are taken off first. -/
theorem Passes.step (h : Passes mode' w)
    (hstep : ∀ lo g, ∃ lo' g', ∀ cs, skipFrom (mode.from lo) g (v ++ cs) =
      skipFrom (mode'.from lo') g' cs) : Passes mode (v ++ w) := by
  intro lo g
  obtain ⟨lo', g', hg'⟩ := hstep lo g
  obtain ⟨g'', hg''⟩ := h lo' g'
  refine ⟨g'', fun rest ↦ ?_⟩
  rw [List.append_assoc, hg', hg'']

/-- What is skipped in a mode: the rest of the comment that is open, if one is, and padding. -/
def SkipMode.Fills : SkipMode → List Char → Prop
  | .blanks, w => Access.Padding w
  | .lineComment _, w => ∃ body v, w = body ++ '\n' :: v ∧ '\n' ∉ body ∧ Access.Padding v
  | .blockComment _ star, w =>
    ∃ body v, w = body ++ v ∧ Comment.closesBlock star body = true ∧ Access.Padding v

/-- White space is not where skipping ends. -/
theorem rest_skipFrom_space_ne (hc : isSpace c = true) (g : Gap) (cs : List Char) :
    (skipFrom .blanks g (c :: cs)).rest ≠ c :: cs := by
  rw [skipFrom_space hc]
  obtain ⟨w, hcs, -⟩ := takes_skipFrom .blanks (g.past c) cs
  intro heq
  rw [heq] at hcs
  have hlength := congrArg List.length hcs
  simp at hlength
  omega

/-- What is skipped without a fault before some text is skipped before any text, wherever it
stands. It is padding if every comment in it that ends with its line ends with `\n` or `\r\n`. -/
theorem exists_passes {text : List Char} (mode : SkipMode) (g : Gap) (cs : List Char)
    (hat : At text g.pos cs) (hfaults : (skipFrom mode g cs).faults = [])
    (hplain : ∀ m ∈ (skipFrom mode g cs).comments, m.EndsPlainly text)
    (hne : (skipFrom mode g cs).rest ≠ []) :
    ∃ w, cs = w ++ (skipFrom mode g cs).rest ∧ Passes mode w ∧ mode.Fills w := by
  have hnothing : Passes .blanks [] := fun _ g ↦ ⟨g, fun _ ↦ rfl⟩
  fun_induction skipFrom mode g cs with
  | case1 | case2 | case3 => exact absurd rfl hne
  | case4 g cs ih =>
    obtain ⟨w, hcs, hw, body, v, hparts, hbody, hv⟩ :=
      ih (hat.append (w := ['/', '/'])) hfaults hplain hne
    exact ⟨'/' :: '/' :: w, by rw [List.cons_append, List.cons_append, ← hcs],
      hw.step (v := ['/', '/']) fun lo g ↦ ⟨g.pos, { g with pos := g.pos + 2 }, fun _ ↦ rfl⟩,
      hparts ▸ .line hbody hv⟩
  | case5 g cs ih =>
    obtain ⟨w, hcs, hw, body, v, hparts, hbody, hv⟩ :=
      ih (hat.append (w := ['/', '*'])) hfaults hplain hne
    exact ⟨'/' :: '*' :: w, by rw [List.cons_append, List.cons_append, ← hcs],
      hw.step (v := ['/', '*']) fun lo g ↦ ⟨g.pos, { g with pos := g.pos + 2 }, fun _ ↦ rfl⟩,
      hparts ▸ .block hbody hv⟩
  | case6 g cs ih =>
    exact absurd ((leads_skipFrom _ _ _).faultless hfaults).2 (by simp [Gap.pastOpening])
  | case7 g cs _ ih =>
    exact absurd ((leads_skipFrom _ _ _).faultless hfaults).1 (by simp [Gap.pastClosing])
  | case8 | case10 => exact ⟨[], rfl, hnothing, .nil⟩
  | case9 g c cs _ _ _ _ hspace ih =>
    obtain ⟨w, hcs, hw, hfill⟩ := ih hat.tail hfaults hplain hne
    exact ⟨c :: w, by rw [List.cons_append, ← hcs],
      hw.step (v := [c]) fun lo g ↦ ⟨lo, g.past c, skipFrom_space hspace g⟩, .space hspace hfill⟩
  | case11 lo g c cs hend ih =>
    obtain ⟨w, hcs, hw, hfill⟩ := ih hat.tail hfaults hplain hne
    have hclosed : ⟨.line, ⟨lo, g.pos⟩⟩ ∈ ((g.closing .line lo).past c).comments :=
      List.mem_append_right _ (List.mem_singleton_self _)
    refine ⟨c :: w, by rw [List.cons_append, ← hcs], hw.step (v := [c]) fun lo g ↦
      ⟨lo, (g.closing .line lo).past c, fun _ ↦ if_pos hend⟩, ?_⟩
    obtain ⟨rest, hrest | hrest⟩ := hplain _ ((leads_skipFrom _ _ _).comments hclosed) rfl
    · cases hat.unique hrest
      exact ⟨[], w, rfl, List.not_mem_nil, hfill⟩
    · cases hat.unique hrest
      cases w with
      | nil => exact absurd hcs.symm (rest_skipFrom_space_ne rfl _ _)
      | cons d w =>
        obtain rfl : '\n' = d := (List.cons.inj hcs).1
        cases hfill with
        | space _ hv => exact ⟨['\r'], w, rfl, by decide, hv⟩
  | case12 lo g c cs hend ih =>
    obtain ⟨w, hcs, hw, body, v, hparts, hbody, hv⟩ := ih hat.tail hfaults hplain hne
    have hline : '\n' ≠ c := by
      rintro rfl
      exact hend rfl
    exact ⟨c :: w, by rw [List.cons_append, ← hcs], hw.step (v := [c]) fun lo g ↦
      ⟨lo, g.past c, fun _ ↦ if_neg hend⟩, c :: body, v, by rw [hparts, List.cons_append],
      by simp [hline, hbody], hv⟩
  | case13 lo star g c cs hclose ih =>
    obtain ⟨w, hcs, hw, hfill⟩ := ih hat.tail hfaults hplain hne
    exact ⟨c :: w, by rw [List.cons_append, ← hcs], hw.step (v := [c]) fun lo g ↦
      ⟨lo, (g.past c).closing .block lo, fun _ ↦ if_pos hclose⟩, [c], w, rfl, if_pos hclose, hfill⟩
  | case14 lo star g c cs hclose ih =>
    obtain ⟨w, hcs, hw, body, v, hparts, hbody, hv⟩ := ih hat.tail hfaults hplain hne
    exact ⟨c :: w, by rw [List.cons_append, ← hcs], hw.step (v := [c]) fun lo g ↦
      ⟨lo, g.past c, fun _ ↦ if_neg hclose⟩, c :: body, v, by rw [hparts, List.cons_append],
      (if_neg hclose).trans hbody, hv⟩

end Token

/-- The next token after byte `pos`, where the text goes on as `cs`, is a valid one. Nothing is
wrong before it, and every comment on the way that ends with its line ends with `\n` or `\r\n`. -/
structure Token.Legible (text : List Char) (pos : Nat) (cs : List Char) : Prop where
  at_pos : At text pos cs
  valid : ∀ e, (scan pos cs).token.form ≠ .invalid e
  faultless : (scan pos cs).faults = []
  plain : ∀ m ∈ (scan pos cs).comments, m.EndsPlainly text

theorem Token.legible_of_punct {text cs : List Char} {pos : Nat} {p : Punct}
    (hat : At text pos cs) (hform : (scan pos cs).token.form = .punct p)
    (hfaults : (scan pos cs).faults = [])
    (hplain : ∀ m ∈ (scan pos cs).comments, m.EndsPlainly text) : Legible text pos cs where
  at_pos := hat
  valid e he := by
    rw [hform] at he
    cases he
  faultless := hfaults
  plain := hplain

theorem Token.lexeme_of_scan {cs : List Char} {pos : Nat} {p : Punct}
    (h : (scan pos cs).token.form = .punct p) : (lexeme (skip pos cs).rest).form = .punct p := by
  have hplaced : placed (skip pos cs).pos (lexeme (skip pos cs).rest).form = .punct p := h
  cases hx : (lexeme (skip pos cs).rest).form with
  | _ => simp_all [placed]

/-- What stands before such a mark is skipped wherever it stands, and is padding. -/
theorem Token.Legible.exists_gap {text cs : List Char} {pos : Nat} {p : Punct}
    (h : Legible text pos cs) (hform : (scan pos cs).token.form = .punct p) :
    ∃ w, cs = w ++ (skip pos cs).rest ∧ Passes .blanks w ∧ Access.Padding w ∧
      (scan pos cs).token.span.lo = pos + Text.size w := by
  have hne : (skip pos cs).rest ≠ [] := by
    intro hnil
    have hlexeme := lexeme_of_scan hform
    rw [hnil] at hlexeme
    cases hlexeme
  obtain ⟨w, hcs, hw, hfill⟩ := exists_passes .blanks { rest := cs, pos, first := pos == 0 } cs
    h.at_pos (List.append_eq_nil_iff.1 h.faultless).1 h.plain hne
  refine ⟨w, hcs, hw, hfill, ?_⟩
  have hstart : At text pos (w ++ (skip pos cs).rest) := by
    have hat := h.at_pos
    rwa [hcs] at hat
  have hsize := hstart.append.size_eq.symm.trans (skip_standsIn h.at_pos).rest.size_eq
  change (skip pos cs).pos = _
  omega

/-- A mark that is the next token is found if it is searched for. -/
theorem Token.Legible.findToken_eq {text cs : List Char} {pos stop : Nat} {p : Punct} {c : Char}
    (h : Legible text pos cs) (hform : (scan pos cs).token.form = .punct p)
    (hp : p ≠ .backtick ∧ p ≠ .question)
    (hc : ∀ e ∈ punctuators, e.2 = p → e.1.head? = some c)
    (htoken : Token.isSpace c = false ∧ c ≠ '/' ∧ c.utf8Size = 1) (hstop : Boundary text stop)
    (hlo : (scan pos cs).token.span.lo ≤ stop) :
    Access.findToken c pos stop text = (scan pos cs).token.span.lo := by
  obtain ⟨w, hcs, -, hw, hspan⟩ := h.exists_gap hform
  obtain ⟨rest, hrest⟩ := List.head?_eq_some_iff.1 (head?_of_punct (lexeme_of_scan hform) hp hc)
  have hat := h.at_pos
  rw [hcs, hrest] at hat
  rw [hspan] at hlo ⊢
  exact hw.findToken_eq hat htoken hlo hstop.le_size

/-! ## Where a program is laid out -/

/-- All of the node is laid out in the text of the file: its nodes sit there, comments stand in
order between its tokens, and every step on a path starts with its token. -/
structure SourceFile.LaysOut (f : SourceFile) (n : Node) : Prop where
  seats : f.Seats n
  inOrder : ∃ stop, Comment.InOrder 0 stop f.comments
  opens : ∀ m ∈ n.preorder, Comment.Outside f.comments m.span.lo
  closes : ∀ m ∈ n.preorder, Comment.Outside f.comments m.span.hi
  endsStep : ∀ m ∈ n.preorder, m.EndsStep
  stepsWith : ∀ m ∈ n.preorder, ∀ base, m.stepBase? = some base → base.kind.onPath = true →
    ∀ cs, At f.text base.span.hi cs → (∃ e, (Token.scan base.span.hi cs).token.form = .invalid e) ∨
      m.StepsWith (Token.scan base.span.hi cs).token ∧
        Comment.Outside f.comments (Token.scan base.span.hi cs).token.span.lo

namespace SourceFile

variable {f : SourceFile} {n m : Node}

theorem LaysOut.of_mem_preorder (h : f.LaysOut n) (hm : m ∈ n.preorder) : f.LaysOut m where
  seats := h.seats.of_mem_preorder hm
  inOrder := h.inOrder
  opens k hk := h.opens k (Node.preorder_subset_of_mem hm hk)
  closes k hk := h.closes k (Node.preorder_subset_of_mem hm hk)
  endsStep k hk := h.endsStep k (Node.preorder_subset_of_mem hm hk)
  stepsWith k hk := h.stepsWith k (Node.preorder_subset_of_mem hm hk)

theorem LaysOut.of_mem {kind : Kind} {s : Span} {cs : List Node} (h : f.LaysOut (.mk kind s cs))
    (hm : m ∈ cs) : f.LaysOut m :=
  h.of_mem_preorder (Node.mem_preorder_of_mem_children hm)

/-- A program without missing operands is laid out in the text that it was read from. -/
theorem laysOut_of_parse {name : String} {text : List Char} {program : Node}
    (h : (ofText name text).program? = some program) (hwhole : program.Whole)
    (hmark : Outcome.markSize text = 0) : (ofText name text).LaysOut program := by
  have hdrop := Outcome.dropMark_eq_of_markSize hmark
  have hprogram :
      (Grammar.parse (Language.ofFileName name).dialect text).program? = some program := by
    rwa [← hdrop]
  have hcomments : (ofText name text).comments =
      (Grammar.parse (Language.ofFileName name).dialect text).comments := by
    change (Grammar.parse _ (Outcome.dropMark text)).comments = _
    rw [hdrop]
  obtain ⟨d, hmet, hseats⟩ := Grammar.exists_seats_of_parse hprogram hwhole
  have hall : (ofText name text).comments = d.comments := hcomments.trans hmet
  constructor
  case seats => exact fun m hm ↦ (hseats m hm).sits
  case inOrder => exact hall ▸ d.standsIn.inOrder
  case opens => exact fun m hm ↦ hall ▸ (hseats m hm).opens.outside
  case closes => exact fun m hm ↦ hall ▸ (hseats m hm).closes.outside
  case endsStep => exact fun m hm ↦ (hseats m hm).joins.ends
  case stepsWith =>
    intro m hm base hbase hpath cs hat
    refine ((hseats m hm).joins.meets base hbase hpath cs hat).imp_right fun ht ↦ ⟨ht.1, ?_⟩
    exact hall ▸ ht.2.outside

end SourceFile

/-! ## Steps -/

/-- The token that a step of the kind starts with if it is not optional. -/
def StepKind.OpensWith : StepKind → TokenForm → Prop
  | .member, form => form = .punct .dot
  | .element, form => form = .punct .lbrack
  | .call, form => form = .punct .lparen ∨ form = .punct (.op .lt) ∨ form = .punct (.op .shl)

theorem StepKind.OpensWith.exists_punct {kind : StepKind} {form : TokenForm}
    (h : kind.OpensWith form) : ∃ p, form = .punct p := by
  cases kind with
  | member => exact ⟨_, h⟩
  | element => exact ⟨_, h⟩
  | call =>
    obtain h | h | h := h
    all_goals exact ⟨_, h⟩

theorem StepKind.OpensWith.lexeme {kind : StepKind} {cs : List Char} {pos : Nat}
    (h : kind.OpensWith (Token.scan pos cs).token.form) :
    kind.OpensWith (Token.lexeme (Token.skip pos cs).rest).form := by
  obtain ⟨p, hp⟩ := h.exists_punct
  rw [Token.lexeme_of_scan hp, ← hp]
  exact h

namespace Step

/-- Where what the step is taken from ends. -/
def start (s : Step) : Nat :=
  (s.expr.stepBase?.map (·.span.hi)).getD 0

/-- The step is that of its expression, taken from something on a path. -/
inductive IsOf (f : SourceFile) : Step → Prop
  | member {optional : Bool} {span : Span} {object key : Node} (h : object.kind.onPath = true) :
    IsOf f (ofMember f optional object key (.member optional span object key))
  | call {optional : Bool} {span : Span} {callee args typeArgs : Node}
      (h : callee.kind.onPath = true) :
    IsOf f (ofCall f optional callee typeArgs (.call optional span callee args typeArgs))

variable {f : SourceFile} {s : Step} {optional : Bool} {object key callee typeArgs expr : Node}

theorem ofMember_dotted (f : SourceFile) (optional : Bool) (object expr : Node)
    (h : key.kind.isDotted = true) :
    (ofMember f optional object key expr).kind = .member ∧
      (ofMember f optional object key expr).insertAt =
        Access.findToken '.' (f.clamp object.span.hi) (f.clamp key.span.lo) f.text := by
  unfold Kind.isDotted at h
  split at h
  · rename_i hkind
    simp [ofMember, hkind]
  · rename_i hkind
    simp [ofMember, hkind]
  · cases h

theorem ofMember_computed (f : SourceFile) (optional : Bool) (object expr : Node)
    (h : key.kind.isDotted = false) :
    (ofMember f optional object key expr).kind = .element ∧
      (ofMember f optional object key expr).insertAt = f.clamp key.span.lo := by
  unfold ofMember
  dsimp only
  split
  · rename_i hkind
    simp [hkind, Kind.isDotted] at h
  · rename_i hkind
    simp [hkind, Kind.isDotted] at h
  · exact ⟨rfl, rfl⟩

@[simp] theorem kind_ofCall : (ofCall f optional callee typeArgs expr).kind = .call := by
  unfold ofCall
  dsimp only
  split <;> rfl

theorem insertAt_ofCall : (ofCall f optional callee typeArgs expr).insertAt =
    if typeArgs.isAbsent then
      Access.findToken '(' (f.clamp callee.span.hi) (f.clamp expr.span.hi) f.text
    else f.clamp typeArgs.span.lo := by
  unfold ofCall Node.present?
  cases h : typeArgs.isAbsent <;> simp

/-- The marker of a step goes between the end of what the step is taken from and its own end. -/
theorem IsOf.bounds (h : s.IsOf f) (hs : f.LaysOut s.expr) :
    s.start ≤ s.insertAt ∧ s.insertAt ≤ s.expr.span.hi := by
  unfold start
  cases h with
  | @member optional span object key _ =>
    rw [expr_ofMember] at hs ⊢
    obtain ⟨-, hapart, hkey, hend⟩ := hs.seats.sits.shape
    have hobject := (hs.of_mem (m := object) (by simp)).seats.sits.hi
    have hkeyLo := (hs.of_mem (m := key) (by simp)).seats.sits.lo
    change object.span.hi ≤ _ ∧ _ ≤ span.hi
    cases hdotted : key.kind.isDotted with
    | true =>
      rw [(ofMember_dotted _ _ _ _ hdotted).2, SourceFile.clamp_eq hobject,
        SourceFile.clamp_eq hkeyLo]
      have hle := Access.le_findToken '.' f.text hapart
      have hge := Access.findToken_le '.' object.span.hi key.span.lo f.text
      omega
    | false =>
      rw [(ofMember_computed _ _ _ _ hdotted).2, SourceFile.clamp_eq hkeyLo]
      omega
  | @call optional span callee args typeArgs _ =>
    rw [expr_ofCall] at hs ⊢
    obtain ⟨-, -, -, htype⟩ := hs.seats.sits.shape
    obtain ⟨hcalleeEnd, htypeEnd⟩ := hs.endsStep _ (Node.self_mem_preorder _)
    have hcallee := (hs.of_mem (m := callee) (by simp)).seats.sits.hi
    have htypeLo := (hs.of_mem (m := typeArgs) (by simp)).seats.sits.lo
    have hexpr : Boundary f.text span.hi := hs.seats.sits.hi
    have hclamp : f.clamp (Node.call optional span callee args typeArgs).span.hi = span.hi :=
      SourceFile.clamp_eq hexpr
    change callee.span.hi ≤ _ ∧ _ ≤ span.hi
    rw [insertAt_ofCall]
    split
    · rw [SourceFile.clamp_eq hcallee, hclamp]
      exact ⟨Access.le_findToken '(' f.text hcalleeEnd, Access.findToken_le ..⟩
    · rename_i hpresent
      rw [SourceFile.clamp_eq htypeLo]
      exact ⟨(htype.resolve_left hpresent).1, htypeEnd⟩

theorem IsOf.boundary (h : s.IsOf f) (hs : f.LaysOut s.expr) : Boundary f.text s.insertAt := by
  cases h with
  | @member optional span object key _ =>
    rw [expr_ofMember] at hs
    exact boundary_ofMember (hs.of_mem (m := key) (by simp)).seats.sits.lo
  | @call optional span callee args typeArgs _ =>
    rw [expr_ofCall] at hs
    exact boundary_ofCall hs.seats.sits.hi (hs.of_mem (m := typeArgs) (by simp)).seats.sits.lo

/-- The marker of the step goes right before the token, which the step starts with and which is
inside no comment. -/
structure StartsWith (f : SourceFile) (s : Step) (t : Token) : Prop where
  lo_eq : t.span.lo = s.insertAt
  opens : s.kind.OpensWith t.form
  start_le : s.start ≤ s.insertAt
  lt_end : s.insertAt < s.expr.span.hi
  outside : Comment.Outside f.comments s.insertAt

theorem IsOf.exists_base (h : s.IsOf f) :
    ∃ base ∈ s.expr.preorder, s.expr.stepBase? = some base ∧ base.kind.onPath = true ∧
      s.start = base.span.hi := by
  unfold start
  cases h with
  | @member optional span object key hpath =>
    rw [expr_ofMember]
    exact ⟨object, Node.mem_preorder_of_mem_children (by simp [Node.children]), rfl, hpath, rfl⟩
  | @call optional span callee args typeArgs hpath =>
    rw [expr_ofCall]
    exact ⟨callee, Node.mem_preorder_of_mem_children (by simp [Node.children]), rfl, hpath, rfl⟩

theorem IsOf.start_boundary (h : s.IsOf f) (hs : f.LaysOut s.expr) : Boundary f.text s.start := by
  obtain ⟨base, hmem, -, -, hstart⟩ := h.exists_base
  exact hstart ▸ (hs.of_mem_preorder hmem).seats.sits.hi

variable {cs : List Char}

theorem IsOf.stepsWith (h : s.IsOf f) (hs : f.LaysOut s.expr)
    (hlegible : Token.Legible f.text s.start cs) :
    s.expr.StepsWith (Token.scan s.start cs).token ∧
      Comment.Outside f.comments (Token.scan s.start cs).token.span.lo := by
  obtain ⟨base, -, hbase, hpath, hstart⟩ := h.exists_base
  have hat := hlegible.at_pos
  have hvalid := hlegible.valid
  rw [hstart] at hat hvalid ⊢
  refine (hs.stepsWith _ (Node.self_mem_preorder _) base hbase hpath cs hat).resolve_left ?_
  rintro ⟨e, he⟩
  exact hvalid e he

/-- An optional step starts with `?.`. -/
theorem IsOf.questionDot (h : s.IsOf f) (hs : f.LaysOut s.expr)
    (hlegible : Token.Legible f.text s.start cs) (hoptional : s.optional = true) :
    (Token.scan s.start cs).token.form = .punct .questionDot ∧
      (Token.scan s.start cs).token.span.hi ≤ s.expr.span.hi := by
  have hsteps := (h.stepsWith hs hlegible).1
  cases h with
  | @member optional span object key hpath =>
    rw [optional_ofMember] at hoptional
    rw [hoptional, expr_ofMember] at hsteps ⊢
    exact hsteps
  | @call optional span callee args typeArgs hpath =>
    rw [optional_ofCall] at hoptional
    rw [hoptional, expr_ofCall] at hsteps ⊢
    exact hsteps

/-- Any other step starts with its own token, where the marker goes. -/
theorem IsOf.startsWith (h : s.IsOf f) (hs : f.LaysOut s.expr)
    (hlegible : Token.Legible f.text s.start cs) (hoptional : s.optional = false) :
    s.StartsWith f (Token.scan s.start cs).token := by
  obtain ⟨hsteps, houtside⟩ := h.stepsWith hs hlegible
  suffices htoken : (Token.scan s.start cs).token.span.lo = s.insertAt ∧
      s.kind.OpensWith (Token.scan s.start cs).token.form ∧
      (Token.scan s.start cs).token.span.lo < s.expr.span.hi by
    obtain ⟨hlo, hopens, hend⟩ := htoken
    exact ⟨hlo, hopens, (h.bounds hs).1, hlo ▸ hend, hlo ▸ houtside⟩
  cases h with
  | @member optional span object key hpath =>
    rw [optional_ofMember] at hoptional
    subst hoptional
    have hstart : (ofMember f false object key (.member false span object key)).start =
        object.span.hi := by simp [start, Node.stepBase?]
    rw [hstart] at hlegible hsteps ⊢
    rw [expr_ofMember] at hs hsteps ⊢
    have hobject := (hs.of_mem (m := object) (by simp)).seats.sits.hi
    have hkeyLo := (hs.of_mem (m := key) (by simp)).seats.sits.lo
    obtain ⟨hend, hkey, hform⟩ := hsteps
    cases hdotted : key.kind.isDotted with
    | true =>
      rw [if_pos hdotted] at hform
      obtain ⟨hkind, hinsert⟩ :=
        ofMember_dotted f false object (.member false span object key) hdotted
      rw [hkind, hinsert, SourceFile.clamp_eq hobject, SourceFile.clamp_eq hkeyLo, hform]
      exact ⟨(hlegible.findToken_eq hform (by decide) (by decide) (by decide) hkeyLo hkey).symm,
        rfl, hend⟩
    | false =>
      rw [if_neg (by simp [hdotted])] at hform
      obtain ⟨hkind, hinsert⟩ :=
        ofMember_computed f false object (.member false span object key) hdotted
      rw [hkind, hinsert, SourceFile.clamp_eq hkeyLo, hform.1]
      exact ⟨hform.2, rfl, hend⟩
  | @call optional span callee args typeArgs hpath =>
    rw [optional_ofCall] at hoptional
    subst hoptional
    have hstart : (ofCall f false callee typeArgs (.call false span callee args typeArgs)).start =
        callee.span.hi := by simp [start, Node.stepBase?]
    rw [hstart] at hlegible hsteps ⊢
    rw [expr_ofCall] at hs hsteps ⊢
    have hcallee := (hs.of_mem (m := callee) (by simp)).seats.sits.hi
    have htypeLo := (hs.of_mem (m := typeArgs) (by simp)).seats.sits.lo
    have hclamp : f.clamp (Node.call false span callee args typeArgs).span.hi = span.hi :=
      SourceFile.clamp_eq hs.seats.sits.hi
    obtain ⟨hend, hform⟩ := hsteps
    rw [kind_ofCall, insertAt_ofCall]
    split
    · rename_i habsent
      rw [if_pos habsent] at hform
      rw [SourceFile.clamp_eq hcallee, hclamp, hform]
      exact ⟨(hlegible.findToken_eq hform (by decide) (by decide) (by decide) hs.seats.sits.hi
        (Nat.le_of_lt hend)).symm, .inl rfl, hend⟩
    · rename_i hpresent
      rw [if_neg hpresent] at hform
      rw [SourceFile.clamp_eq htypeLo]
      exact ⟨hform.2, .inr hform.1, hend⟩

/-- A line comment that goes on without `\n` up to the key hides the dot. -/
theorem IsOf.insertAt_of_hidden {span : Span} {before body rest : List Char} (h : s.IsOf f)
    (hs : f.LaysOut s.expr) (hexpr : s.expr = .member false span object key)
    (hdotted : key.kind.isDotted = true)
    (hat : At f.text object.span.hi (before ++ '/' :: '/' :: body ++ rest))
    (hbefore : ∀ c ∈ before, Token.isSpace c = true) (hbody : '\n' ∉ body)
    (hkey : key.span.lo = object.span.hi + Text.size (before ++ '/' :: '/' :: body)) :
    s.insertAt = key.span.lo := by
  have hspaces : ∀ c ∈ before, c ≠ '.' ∧ c ≠ '/' := by
    intro c hc
    have hspace := hbefore c hc
    constructor
    all_goals
      rintro rfl
      revert hspace
      decide
  cases h with
  | @member optional span' object' key' _ =>
    rw [expr_ofMember] at hexpr hs
    cases hexpr
    have hkeyLo := (hs.of_mem (m := key) (by simp)).seats.sits.lo
    rw [(ofMember_dotted f false object (.member false span object key) hdotted).2,
      SourceFile.clamp_eq hat.boundary, SourceFile.clamp_eq hkeyLo, hkey]
    exact Access.findToken_hidden hat hspaces hbody rfl
  | call =>
    rw [expr_ofCall] at hexpr
    cases hexpr

end Step

/-! ## Steps of a path -/

/-- The step is taken inside the node. -/
structure Step.TakenIn (f : SourceFile) (n : Node) (s : Step) : Prop where
  isOf : s.IsOf f
  mem : s.expr ∈ n.preorder
  lo_le : n.span.lo ≤ s.start
  le_hi : s.expr.span.hi ≤ n.span.hi

theorem Step.TakenIn.mono {f : SourceFile} {n m : Node} {s : Step} (h : s.TakenIn f m)
    (hm : m ∈ n.preorder) (hlo : n.span.lo ≤ m.span.lo) (hhi : m.span.hi ≤ n.span.hi) :
    s.TakenIn f n :=
  ⟨h.isOf, Node.preorder_subset_of_mem hm h.mem, Nat.le_trans hlo h.lo_le,
    Nat.le_trans h.le_hi hhi⟩

/-- Another step follows what is taken from the operand. -/
theorem Step.IsOf.takenIn_concat {f : SourceFile} {n e : Node} {steps : List Step} {t : Step}
    (ht : t.IsOf f) (hexpr : t.expr = n) (hstart : t.start = e.span.hi)
    (htaken : ∀ s ∈ steps, s.TakenIn f e)
    (horder : steps.Pairwise fun s t ↦ s.expr.span.hi ≤ t.start) (hmem : e ∈ n.preorder)
    (hlo : n.span.lo = e.span.lo) (hforward : e.span.lo ≤ e.span.hi)
    (hhi : e.span.hi ≤ n.span.hi) :
    (∀ s ∈ steps ++ [t], s.TakenIn f n) ∧
      (steps ++ [t]).Pairwise fun s t ↦ s.expr.span.hi ≤ t.start := by
  refine ⟨List.forall_mem_append.2 ⟨fun s hs ↦ ?_, ?_⟩, List.pairwise_append.2 ⟨horder, ?_, ?_⟩⟩
  · exact (htaken s hs).mono hmem (Nat.le_of_eq hlo) hhi
  · exact List.forall_mem_singleton.2
      ⟨ht, hexpr ▸ Node.self_mem_preorder _, by omega, Nat.le_of_eq (by rw [hexpr])⟩
  · exact List.pairwise_singleton _ _
  · intro s hs u hu
    rw [List.mem_singleton.1 hu, hstart]
    exact (htaken s hs).le_hi

namespace AccessPath

variable {f : SourceFile} {n base : Node} {steps : List Step} {p : AccessPath}

theorem onPath_of_spine (h : Spine f n base steps) : n.kind.onPath = true := by
  obtain hkind | hkind | ⟨o, hkind⟩ | ⟨o, hkind⟩ | hkind | hkind := kind_of_spine h
  all_goals try (rw [hkind]; rfl)
  unfold Kind.onPath
  split
  all_goals first | rfl | exact hkind

theorem forward_of_spine (h : Spine f n base steps) (hn : f.LaysOut n) :
    n.span.lo ≤ n.span.hi := by
  refine hn.seats.sits.forward.resolve_left fun hkind ↦ ?_
  have hpath := onPath_of_spine h
  rw [hkind] at hpath
  cases hpath

/-- The steps of a path are taken one after the other in the expression that it is read off. -/
theorem steps_of_spine (h : Spine f n base steps) (hn : f.LaysOut n) :
    (∀ s ∈ steps, s.TakenIn f n) ∧ steps.Pairwise fun s t ↦ s.expr.span.hi ≤ t.start := by
  induction h with
  | base => exact ⟨List.forall_mem_nil _, .nil⟩
  | paren span _ ih =>
    obtain ⟨hlo, hhi⟩ := hn.seats.sits.shape
    obtain ⟨htaken, horder⟩ := ih (hn.of_mem (by simp))
    refine ⟨fun s hs ↦ (htaken s hs).mono ?_ hlo hhi, horder⟩
    exact Node.mem_preorder_of_mem_children (by simp [Node.children])
  | nonNull span _ ih =>
    obtain ⟨hlo, hhi⟩ := hn.seats.sits.shape
    obtain ⟨htaken, horder⟩ := ih (hn.of_mem (by simp))
    refine ⟨fun s hs ↦ (htaken s hs).mono ?_ (Nat.le_of_eq hlo) hhi, horder⟩
    exact Node.mem_preorder_of_mem_children (by simp [Node.children])
  | @member optional span object _ _ _ _ hobject ih =>
    have hlays : f.LaysOut object := hn.of_mem (by simp)
    obtain ⟨hlo, hapart, hkey, hhi⟩ := hn.seats.sits.shape
    obtain ⟨htaken, horder⟩ := ih hlays
    exact (Step.IsOf.member (onPath_of_spine hobject)).takenIn_concat Step.expr_ofMember
      (by simp [Step.start, Node.stepBase?]) htaken horder
      (Node.mem_preorder_of_mem_children (by simp [Node.children])) hlo
      (forward_of_spine hobject hlays) (Nat.le_trans hapart (Nat.le_trans hkey hhi))
  | @call optional span callee _ _ typeArgs _ _ _ hcallee ih =>
    have hlays : f.LaysOut callee := hn.of_mem (by simp)
    obtain ⟨htaken, horder⟩ := ih hlays
    exact (Step.IsOf.call (onPath_of_spine hcallee)).takenIn_concat Step.expr_ofCall
      (by simp [Step.start, Node.stepBase?]) htaken horder
      (Node.mem_preorder_of_mem_children (by simp [Node.children]))
      hn.seats.sits.shape.1 (forward_of_spine hcallee hlays)
      (hn.endsStep _ (Node.self_mem_preorder _)).1

end AccessPath

/-- So are the steps of the path of a last operand. -/
theorem steps_of_terminalPath? {f : SourceFile} {style : ChainStyle} {n : Node} {p : AccessPath}
    (h : terminalPath? f style n = some p) (hn : f.LaysOut n) :
    (∀ s ∈ p.steps, s.TakenIn f n) ∧ p.steps.Pairwise fun s t ↦ s.expr.span.hi ≤ t.start := by
  obtain ⟨e, he, hp⟩ := exists_path_of_terminalPath? h
  obtain ⟨hlo, hhi⟩ := he.within hn.seats
  obtain ⟨htaken, horder⟩ := AccessPath.steps_of_spine (AccessPath.of?_eq_some hp).1
    (hn.of_mem_preorder he.mem_preorder)
  exact ⟨fun s hs ↦ (htaken s hs).mono he.mem_preorder hlo hhi, horder⟩

end OptionalChain
