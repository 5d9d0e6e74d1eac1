import OptionalChain.Proofs.Walks
import OptionalChain.Rule.PreferOptionalChain

/-!
# What the rule searches

The rule goes by two sets of marks and reports on what it searches: the operands of a run, or a
member access. What it searches depends on the marks alone, so its walk can be followed without
the reports. These are then the reports of what was found in the searches, in order, and the walk
ends early with the first of them that cannot be made.
-/

namespace OptionalChain

/-! ## Lists of partial results -/

section

variable {α β : Type} {f : α → Option β} {xs : List α} {ys : List β}

theorem mapM_eq_some_iff : xs.mapM f = some ys ↔ xs.map f = ys.map some := by
  induction xs generalizing ys with
  | nil => cases ys <;> simp
  | cons x xs ih =>
    simp only [List.mapM_cons, Option.bind_eq_bind, Option.bind_eq_some_iff, Option.pure_def,
      Option.some.injEq, ih]
    cases ys <;> simp

theorem exists_of_mem_mapM {y : β} (h : xs.mapM f = some ys) (hy : y ∈ ys) :
    ∃ x ∈ xs, f x = some y := by
  have hmem : some y ∈ xs.map f := by
    rw [mapM_eq_some_iff.1 h]
    exact List.mem_map_of_mem hy
  exact List.mem_map.1 hmem

theorem mapM_eq_none_iff : xs.mapM f = none ↔ ∃ x ∈ xs, f x = none := by
  induction xs with
  | nil => simp
  | cons x xs ih =>
    rw [List.mapM_cons]
    cases hx : f x with
    | none => simp [hx]
    | some y => cases hxs : xs.mapM f <;> simp_all

end

namespace PreferOptionalChain

/-- What the rule looks into. -/
inductive Search where
  | run (style : ChainStyle) (operands : List Node)
  | access (node : Node)

/-- What there is to report: a chain of a run, or the fallback that an access is on. -/
inductive Finding where
  | chain (x : Chain)
  | fallback (node : Node) (b : Fallback)

namespace Context

variable (c : Context)

/-- The fallback that an access is on, unless it is disqualified. -/
def fallback? (n : Node) : Option Fallback :=
  (Fallback.of? n).filter fun b ↦ b.verdict c.oracle c.options ≠ .disqualified

/-- What is found in a search. -/
def findings : Search → List Finding
  | .run style operands => ((c.finder style).find operands).map .chain
  | .access n => (c.fallback? n).toList.map (.fallback n)

/-- The diagnostic of what was found, absent if a cut for it is not possible. -/
def diagnosticOf? : Finding → Option Diagnostic
  | .chain x => do
    let replacement ← x.replacement? c.file
    let region ← c.region? x.span
    return c.diagnostic region replacement x.verdict
  | .fallback n b => do
    let region ← c.region? n.span
    return c.diagnostic region (b.replacement c.file) (b.verdict c.oracle c.options)

variable {c} in
theorem diagnosticOf?_chain {x : Chain} {replacement : List Char} {region : Region}
    (hreplacement : x.replacement? c.file = some replacement)
    (hregion : c.region? x.span = some region) :
    c.diagnosticOf? (.chain x) = some (c.diagnostic region replacement x.verdict) := by
  rw [diagnosticOf?, hreplacement, hregion]
  rfl

variable {c} in
theorem diagnosticOf?_fallback {n : Node} {region : Region} (b : Fallback)
    (hregion : c.region? n.span = some region) :
    c.diagnosticOf? (.fallback n b) =
      some (c.diagnostic region (b.replacement c.file) (b.verdict c.oracle c.options)) := by
  rw [diagnosticOf?, hregion]
  rfl

/-- What is noted in a search. -/
def notes : Search → List Event
  | .run style operands =>
    ((c.finder style).truncations operands).map .truncated ++
      ((c.finder style).find operands).map fun x ↦
        .chain c.file.name x.style x.operands x.guards.length x.verdict
  | .access n => (c.fallback? n).toList.map fun b ↦
      .fallback c.file.name (b.verdict c.oracle c.options)

/-- The reports of searches in order. -/
def searchReports? (searches : List Search) : Option Report :=
  ((searches.flatMap c.findings).mapM c.diagnosticOf?).map fun ds ↦
    ⟨ds, searches.flatMap c.notes⟩

theorem chainReport?_eq (x : Chain) :
    c.chainReport? x = (c.diagnosticOf? (.chain x)).map fun d ↦
      (d, .chain c.file.name x.style x.operands x.guards.length x.verdict) := by
  rw [chainReport?, diagnosticOf?]
  cases x.replacement? c.file <;> cases c.region? x.span <;> rfl

/-- The diagnostics of chains can be made apart from what is noted about them. -/
theorem mapM_chainReport? (xs : List Chain) :
    (xs.mapM c.chainReport?).map (fun reports ↦ (reports.map Prod.fst, reports.map Prod.snd)) =
      ((xs.map .chain).mapM c.diagnosticOf?).map fun ds ↦
        (ds, xs.map fun x ↦
          .chain c.file.name x.style x.operands x.guards.length x.verdict) := by
  induction xs with
  | nil => rfl
  | cons x xs ih =>
    rw [List.mapM_cons, List.map_cons (f := Finding.chain), List.mapM_cons, chainReport?_eq]
    cases c.diagnosticOf? (.chain x) with
    | none => rfl
    | some d =>
      cases hxs : xs.mapM c.chainReport? <;>
        cases hds : (xs.map Finding.chain).mapM c.diagnosticOf? <;> simp_all

theorem searchReports?_run (style : ChainStyle) (operands : List Node) :
    c.searchReports? [.run style operands] = c.runReport? style operands := by
  have hreports := c.mapM_chainReport? ((c.finder style).find operands)
  have hfindings : [Search.run style operands].flatMap c.findings =
      ((c.finder style).find operands).map .chain := List.flatMap_singleton ..
  have hnotes : [Search.run style operands].flatMap c.notes = c.notes (.run style operands) :=
    List.flatMap_singleton ..
  rw [searchReports?, runReport?, hfindings, hnotes, notes]
  cases hxs : ((c.finder style).find operands).mapM c.chainReport? <;>
    cases hds : (((c.finder style).find operands).map Finding.chain).mapM c.diagnosticOf? <;>
    simp_all

theorem searchReports?_access (n : Node) :
    c.searchReports? [.access n] = c.fallbackReport? n := by
  have hfindings : [Search.access n].flatMap c.findings = c.findings (.access n) :=
    List.flatMap_singleton ..
  have hnotes : [Search.access n].flatMap c.notes = c.notes (.access n) :=
    List.flatMap_singleton ..
  rw [searchReports?, fallbackReport?, hfindings, hnotes, findings, notes, fallback?]
  cases Fallback.of? n with
  | none => rfl
  | some b =>
    by_cases hverdict : b.verdict c.oracle c.options = .disqualified
    · rw [Option.filter_some_neg (by simpa using hverdict)]
      exact (if_pos hverdict).symm
    · rw [Option.filter_some_pos (by simpa using hverdict)]
      refine Eq.trans ?_ (if_neg hverdict).symm
      simp only [Option.toList_some, List.map_cons, List.map_nil, List.mapM_cons, diagnosticOf?]
      cases c.region? n.span <;> rfl

/-- Every diagnostic is that of something that was found. -/
theorem exists_finding_of_mem_diagnostics {c : Context} {searches : List Search} {r : Report}
    {d : Diagnostic} (h : c.searchReports? searches = some r) (hd : d ∈ r.diagnostics) :
    ∃ x ∈ searches, ∃ y ∈ c.findings x, c.diagnosticOf? y = some d := by
  obtain ⟨ds, hds, rfl⟩ := Option.map_eq_some_iff.1 h
  obtain ⟨y, hy, hmade⟩ := exists_of_mem_mapM hds hd
  obtain ⟨x, hx, hy⟩ := List.mem_flatMap.1 hy
  exact ⟨x, hx, y, hy, hmade⟩

/-- One more search adds its report. -/
theorem searchReports?_concat (xs : List Search) (x : Search) :
    c.searchReports? (xs ++ [x]) = (c.searchReports? xs).bind fun r ↦
      (c.searchReports? [x]).map fun r' ↦
        ⟨r.diagnostics ++ r'.diagnostics, r.events ++ r'.events⟩ := by
  simp only [searchReports?, List.flatMap_append, List.mapM_append]
  cases (xs.flatMap c.findings).mapM c.diagnosticOf? with
  | none => rfl
  | some ds => cases ([x].flatMap c.findings).mapM c.diagnosticOf? <;> rfl

end Context

/-! ## The walk without reports -/

/-- The marks of the rule and what it has searched. -/
structure Trace where
  consumed : List Span := []
  skipped : List Span := []
  searches : List Search := []

namespace Trace

def isSkipped (t : Trace) (s : Span) : Bool :=
  t.skipped.any (s.within ·)

def skip (t : Trace) (s : Span) : Trace :=
  { t with skipped := t.skipped ++ [s] }

def search (t : Trace) (x : Search) : Trace :=
  { t with searches := t.searches ++ [x] }

def visitRun (t : Trace) (style : ChainStyle) (s : Span) (left right : Node) : Trace :=
  if t.consumed.contains s || t.isSkipped s then t
  else
    { t with consumed := t.consumed ++ nestedSpans style left ++ nestedSpans style right }.search
      (.run style (left.flatten style ++ right.flatten style))

def visit (hook : Hook) (n : Node) (t : Trace) : Trace :=
  match hook, n with
  | .binary, .binary op s left right =>
    match ChainStyle.ofOp? op with
    | some style => t.visitRun style s left right
    | none => t
  | .member, n => if t.isSkipped n.span then t else t.search (.access n)
  | .argument, .mk (.argument true) s _ => t.skip s
  | .template, n | .spread, n | .container, n | .spreadChild, n => t.skip n.span
  | _, _ => t

/-- The state of the rule with these marks and the reports of these searches. -/
def state? (t : Trace) (c : Context) : Option State :=
  (c.searchReports? t.searches).map fun report ↦ ⟨t.consumed, t.skipped, report⟩

variable (t : Trace) (c : Context)

theorem bind_state? (g : State → Option State) :
    (t.state? c).bind g =
      (c.searchReports? t.searches).bind fun report ↦ g ⟨t.consumed, t.skipped, report⟩ :=
  Option.bind_map ..

theorem state?_skip (s : Span) :
    (t.skip s).state? c = (t.state? c).bind fun u ↦ some (u.skip s) := by
  rw [state?, state?, skip]
  cases c.searchReports? t.searches <;> rfl

/-- Unless it is left out, a search adds its report. -/
theorem state?_search_unless (out : Bool) (consumed : List Span) (x : Search) :
    (if out then t else { t with consumed }.search x).state? c =
      (c.searchReports? t.searches).bind fun report ↦
        if out then some ⟨t.consumed, t.skipped, report⟩
        else (c.searchReports? [x]).map (State.add ⟨consumed, t.skipped, report⟩) := by
  split
  · exact Option.map_eq_bind
  · rw [state?, search, Context.searchReports?_concat, Option.map_bind]
    cases c.searchReports? [x] <;> rfl

theorem state?_visitRun (style : ChainStyle) (s : Span) (left right : Node) :
    (t.visitRun style s left right).state? c =
      (t.state? c).bind (State.visitRun? c · style s left right) := by
  rw [visitRun, state?_search_unless, bind_state?, Context.searchReports?_run]
  rfl

theorem state?_visit_member (n : Node) :
    (t.visit .member n).state? c = (t.state? c).bind (State.visit? c .member n) := by
  rw [bind_state?]
  refine (t.state?_search_unless c (t.isSkipped n.span) t.consumed (.access n)).trans ?_
  rw [Context.searchReports?_access]
  rfl

theorem state?_visit_binary (n : Node) :
    (t.visit .binary n).state? c = (t.state? c).bind (State.visit? c .binary n) := by
  by_cases hbinary : ∃ op s left right, n = .binary op s left right
  · obtain ⟨op, s, left, right, rfl⟩ := hbinary
    change Trace.state? (match ChainStyle.ofOp? op with
      | some style => t.visitRun style s left right
      | none => t) c = (t.state? c).bind fun u ↦
        match ChainStyle.ofOp? op with
        | some style => u.visitRun? c style s left right
        | none => some u
    cases ChainStyle.ofOp? op with
    | none => exact (Option.bind_fun_some _).symm
    | some style => exact t.state?_visitRun c style s left right
  · have hother : ∀ op s left right, n ≠ .mk (.binary op) s [left, right] :=
      fun op s left right h ↦ hbinary ⟨op, s, left, right, h⟩
    have hvisit : t.visit .binary n = t := by
      unfold visit
      split
      · exact absurd rfl (hother _ _ _ _)
      all_goals simp_all
    have hnext : State.visit? c .binary n = some := by
      funext u
      unfold State.visit?
      split
      · exact absurd rfl (hother _ _ _ _)
      all_goals simp_all
    rw [hvisit, hnext, Option.bind_fun_some]

/-- A visit moves the marks and the reports together. -/
theorem state?_visit (hook : Hook) (n : Node) :
    (t.visit hook n).state? c = (t.state? c).bind (State.visit? c hook n) := by
  cases hook with
  | binary => exact t.state?_visit_binary c n
  | member => exact t.state?_visit_member c n
  | argument =>
    unfold visit State.visit?
    split <;> simp_all [state?_skip]
  | template | spread | container | spreadChild => exact t.state?_skip c n.span

/-- The marks and searches after a whole walk. -/
def ofProgram (program : Node) : Trace :=
  program.afterVisits visit {}

/-- The walk is stopped as soon as there is no state. -/
def walker (t : Trace) (c : Context) : Walker (Option State) :=
  ⟨t.state? c, (t.state? c).isNone⟩

theorem next_walker (v : Hook × Node) :
    Walker.next (visitor c) (t.walker c) v = (t.visit v.1 v.2).walker c := by
  have hvisit := t.state?_visit c v.1 v.2
  rw [walker, walker, hvisit, Walker.next]
  cases t.state? c with
  | none => rfl
  | some u =>
    refine (if_neg Bool.false_ne_true).trans ?_
    rw [visitor, Option.bind_some]
    cases u.visit? c v.1 v.2 <;> rfl

end Trace

/-- The walk of the rule ends with the marks of the program and the reports of its searches, or is
stopped at the first one that cannot be made. -/
theorem walk_visitor (c : Context) (program : Node) :
    program.walk (visitor c) (some {}) = ((Trace.ofProgram program).walker c).flow := by
  have hfold : program.visits.foldl (Walker.next (visitor c)) (Trace.walker {} c) =
      (Trace.ofProgram program).walker c :=
    List.foldl_hom (Trace.walker · c) fun t v ↦ t.next_walker c v
  rw [← hfold]
  exact program.walk_eq_foldl (visitor c) (some {})

theorem checkProgram?_eq (c : Context) (program : Node) :
    checkProgram? c program = c.searchReports? (Trace.ofProgram program).searches := by
  rw [checkProgram?, walk_visitor, Trace.walker, Trace.state?]
  cases c.searchReports? (Trace.ofProgram program).searches <;> rfl

end PreferOptionalChain

end OptionalChain
