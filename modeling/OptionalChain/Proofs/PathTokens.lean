import OptionalChain.Proofs.Compaction
import OptionalChain.Proofs.ShortCircuit

/-!
# Equal paths and their tokens

Paths are compared by compact text. Where the parts of an access have plain tokens, two paths are
equal exactly if their parts are spelled alike, and the parts then have the same tokens exactly if
these end at the same places. Regular expressions, markup, templates inside templates and negations
before a bracket have no plain tokens: compaction may take different ones for equal.
-/

namespace OptionalChain

/-! ## Tokens of a node -/

namespace Node

variable (f : SourceFile)

/-- Whether compaction reads the text of the node as it was read: every slash is an operator, every
template ends at its next mark, and every exclamation mark before a bracket or a point is a non-null
assertion. -/
def isPlain (n : Node) : Bool :=
  n.preorder.all fun m ↦
    match m.kind with
    | .literal .regex | .jsx _ => false
    | .template | .type .template => Token.pastMark? ((f.slice m.span).drop 1) == some []
    | .unary .not => !Access.endsAssertion ((f.slice m.span).drop 1)
    | _ => true

/-- The tokens of the node without optional markers and non-null assertions. -/
def plainTokens? (n : Node) : Option (List (List Char)) :=
  if n.isPlain f then
    let text := f.slice n.span
    (Access.tokensFrom? (text.length + 1) n.span.lo text).map (·.filterMap Access.Written.bare?)
  else none

/-- The tokens of a node that may be missing. -/
def optionalTokens? : Option Node → Option (List (List Char))
  | some n => n.plainTokens? f
  | none => some []

variable {f}

theorem compact_slice {n : Node} {ts : List (List Char)} (h : n.plainTokens? f = some ts) :
    Access.compact (f.slice n.span) = ts.flatten := by
  rw [plainTokens?] at h
  split at h
  · obtain ⟨ws, hws, rfl⟩ := Option.map_eq_some_iff.1 h
    exact Access.compact_eq_flatten hws
  · simp at h

theorem compact_optional {n? : Option Node} {ts : List (List Char)}
    (h : optionalTokens? f n? = some ts) :
    (n?.map fun n ↦ Access.compact (f.slice n.span)).getD [] = ts.flatten := by
  cases n? with
  | none =>
    obtain rfl := Option.some.inj h
    rfl
  | some n => exact compact_slice h

end Node

/-! ## Tokens along the spine -/

/-- The tokens of the base and of each step of an access. -/
structure SpineTokens where
  base : List (List Char)
  steps : List (StepKind × List (List Char))
deriving DecidableEq

namespace SpineTokens

/-- The tokens with those of one more step. -/
def push (s : SpineTokens) (step : StepKind × List (List Char)) : SpineTokens :=
  { s with steps := s.steps ++ [step] }

/-- How base and steps are spelled. -/
def spelling (s : SpineTokens) : List Char × List (StepKind × List Char) :=
  (s.base.flatten, s.steps.map fun (kind, ts) ↦ (kind, ts.flatten))

theorem spelling_push (s : SpineTokens) (step : StepKind × List (List Char)) :
    (s.push step).spelling = (s.spelling.1, s.spelling.2 ++ [(step.1, step.2.flatten)]) := by
  simp [spelling, push]

/-- How long the tokens of base and steps are. -/
def cuts (s : SpineTokens) : List Nat × List (List Nat) :=
  (s.base.map List.length, s.steps.map fun (_, ts) ↦ ts.map List.length)

theorem steps_eq_iff {ss ts : List (StepKind × List (List Char))} :
    ss = ts ↔
      ss.map (fun (kind, ws) ↦ (kind, ws.flatten)) = ts.map (fun (kind, ws) ↦ (kind, ws.flatten)) ∧
      ss.map (fun (_, ws) ↦ ws.map List.length) = ts.map fun (_, ws) ↦ ws.map List.length := by
  induction ss generalizing ts with
  | nil => cases ts <;> simp
  | cons s ss ih =>
    cases ts with
    | nil => simp
    | cons t ts =>
      have hstep : s = t ↔ s.1 = t.1 ∧ s.2.flatten = t.2.flatten ∧
          s.2.map List.length = t.2.map List.length := by
        rw [← List.eq_iff_flatten_eq, Prod.ext_iff]
      simp only [List.cons.injEq, List.map_cons, Prod.mk.injEq, hstep, ih]
      constructor
      · rintro ⟨⟨hkind, htext, hcuts⟩, hrest, hrestCuts⟩
        exact ⟨⟨⟨hkind, htext⟩, hrest⟩, hcuts, hrestCuts⟩
      · rintro ⟨⟨⟨hkind, htext⟩, hrest⟩, hcuts, hrestCuts⟩
        exact ⟨⟨hkind, htext, hcuts⟩, hrest, hrestCuts⟩

/-- Tokens are known by what they spell and by where they end. -/
theorem eq_iff_spelling_cuts {s t : SpineTokens} :
    s = t ↔ s.spelling = t.spelling ∧ s.cuts = t.cuts := by
  cases s with
  | mk base steps =>
    cases t with
    | mk base' steps' =>
      rw [SpineTokens.mk.injEq, List.eq_iff_flatten_eq, steps_eq_iff]
      simp only [spelling, cuts, Prod.mk.injEq]
      constructor
      · rintro ⟨⟨hbase, hbaseCuts⟩, hsteps, hcuts⟩
        exact ⟨⟨hbase, hsteps⟩, hbaseCuts, hcuts⟩
      · rintro ⟨⟨hbase, hsteps⟩, hbaseCuts, hcuts⟩
        exact ⟨⟨hbase, hbaseCuts⟩, hsteps, hcuts⟩

/-- The tokens that a text is read as. -/
def reread (cs : List Char) : List (List Char) :=
  ((Access.tokensFrom? (cs.length + 1) 0 cs).getD []).map Access.Written.text

def ofSpelling (x : List Char × List (StepKind × List Char)) : SpineTokens :=
  ⟨reread x.1, x.2.map fun (kind, cs) ↦ (kind, reread cs)⟩

/-- No two tokens run together when nothing stands between them. -/
def StandApart (s : SpineTokens) : Prop :=
  ofSpelling s.spelling = s

instance (s : SpineTokens) : Decidable s.StandApart :=
  inferInstanceAs (Decidable (ofSpelling s.spelling = s))

theorem spelling_eq_iff {s t : SpineTokens} (hs : s.StandApart) (ht : t.StandApart) :
    s.spelling = t.spelling ↔ s = t := by
  constructor
  · intro h
    calc
      s = ofSpelling s.spelling := hs.symm
      _ = ofSpelling t.spelling := by rw [h]
      _ = t := ht
  · rintro rfl
    rfl

end SpineTokens

namespace Node

variable (f : SourceFile)

/-- The tokens of a member or element step. -/
def keyTokens? (key : Node) : Option (StepKind × List (List Char)) :=
  match key.kind with
  | .name text => some (.member, [['.'], text.toList])
  | .privateName text => some (.member, [['.'], ['#'], text.toList])
  | _ => (optionalTokens? f key.children.head?).map fun ts ↦ (.element, ['['] :: ts ++ [[']']])

/-- The tokens of a call step, if the first parenthesis after what is called is that of the
arguments. -/
def callTokens? (callee args typeArgs expr : Node) : Option (StepKind × List (List Char)) :=
  let stop := f.clamp expr.span.hi
  let open_ := Access.findToken '(' (f.clamp callee.span.hi) stop f.text
  if Text.slice open_ stop f.text = f.slice args.span then do
    let types ← optionalTokens? f typeArgs.present?
    let values ← args.plainTokens? f
    return (.call, types ++ values)
  else none

/-- The tokens of an access, without the parentheses and non-null assertions along its spine. -/
def spineTokens? (n : Node) : Option SpineTokens :=
  match n with
  | .paren _ e => spineTokens? e
  | .nonNull _ e => spineTokens? e
  | .member _ _ object key => do
    let s ← spineTokens? object
    let step ← keyTokens? f key
    return s.push step
  | .call _ _ callee args typeArgs => do
    let s ← spineTokens? callee
    let step ← callTokens? f callee args typeArgs n
    return s.push step
  | n => (n.plainTokens? f).map (⟨·, []⟩)

end Node

/-! ## Spelling of a path -/

namespace Step

variable {f : SourceFile}

theorem place_ofMember (optional : Bool) (object expr : Node) {key : Node}
    {step : StepKind × List (List Char)} (h : key.keyTokens? f = some step) :
    ((ofMember f optional object key expr).kind, (ofMember f optional object key expr).key) =
      (step.1, step.2.flatten) := by
  rw [Node.keyTokens?] at h
  split at h
  next text hkind =>
    obtain rfl := Option.some.inj h
    simp [ofMember, hkind]
  next text hkind =>
    obtain rfl := Option.some.inj h
    simp [ofMember, hkind]
  next hname hprivate =>
    obtain ⟨ts, hts, rfl⟩ := Option.map_eq_some_iff.1 h
    have hinner := Node.compact_optional hts
    rw [ofMember]
    split
    next text hkind => exact absurd hkind (hname text)
    next text hkind => exact absurd hkind (hprivate text)
    next => simp [hinner]

theorem place_ofCall (optional : Bool) {callee args typeArgs expr : Node}
    {step : StepKind × List (List Char)} (h : callee.callTokens? f args typeArgs expr = some step) :
    ((ofCall f optional callee typeArgs expr).kind, (ofCall f optional callee typeArgs expr).key) =
      (step.1, step.2.flatten) := by
  rw [Node.callTokens?] at h
  split at h
  next hargs =>
    obtain ⟨types, htypes, h⟩ := Option.bind_eq_some_iff.1 h
    obtain ⟨values, hvalues, h⟩ := Option.bind_eq_some_iff.1 h
    obtain rfl := Option.some.inj h
    have htext := Node.compact_optional htypes
    have hvalue := Node.compact_slice hvalues
    rw [← hargs] at hvalue
    simp only [ofCall]
    split
    next t ht =>
      rw [ht] at htext
      rw [List.flatten_append, ← htext, ← hvalue]
      rfl
    next ht =>
      rw [ht] at htext
      rw [List.flatten_append, ← htext, ← hvalue]
      rfl
  next => simp at h

end Step

namespace AccessPath

variable {f : SourceFile} {n base : Node} {steps : List Step} {s : SpineTokens}

/-- The spine is taken apart the same way for its keys and for its tokens. -/
theorem spelling_of_spine (h : Spine f n base steps) (hs : n.spineTokens? f = some s) :
    s.spelling = (Access.compact (f.slice base.span), steps.map fun s ↦ (s.kind, s.key)) := by
  induction h generalizing s with
  | base h =>
    obtain ⟨hparen, hnonNull, hmember, hcall⟩ := form_of_base? h
    rw [Node.spineTokens?] at hs
    · obtain ⟨ts, hts, rfl⟩ := Option.map_eq_some_iff.1 hs
      simp [SpineTokens.spelling, Node.compact_slice hts]
    all_goals assumption
  | paren span _ ih =>
    rw [Node.paren, Node.spineTokens?] at hs
    exact ih hs
  | nonNull span _ ih =>
    rw [Node.nonNull, Node.spineTokens?] at hs
    exact ih hs
  | member optional span _ _ ih =>
    rw [Node.member, Node.spineTokens?] at hs
    obtain ⟨t, ht, hs⟩ := Option.bind_eq_some_iff.1 hs
    obtain ⟨step, hstep, hs⟩ := Option.bind_eq_some_iff.1 hs
    obtain rfl := Option.some.inj hs
    rw [SpineTokens.spelling_push, ih ht, ← Step.place_ofMember optional _ _ hstep,
      List.map_append, List.map_singleton]
  | call optional span typeArgs _ _ _ ih =>
    rw [Node.call, Node.spineTokens?] at hs
    obtain ⟨t, ht, hs⟩ := Option.bind_eq_some_iff.1 hs
    obtain ⟨step, hstep, hs⟩ := Option.bind_eq_some_iff.1 hs
    obtain rfl := Option.some.inj hs
    rw [SpineTokens.spelling_push, ih ht, ← Step.place_ofCall optional hstep,
      List.map_append, List.map_singleton]
    rfl

theorem spelling_of_path {p : AccessPath} (h : of? f n = some p) (hs : n.spineTokens? f = some s) :
    s.spelling = (p.baseKey, p.places) := by
  obtain ⟨hspine, hbase⟩ := of?_eq_some h
  rw [spelling_of_spine hspine hs, hbase, places]

/-- Two paths are equal exactly if their tokens spell the same. The tokens are then the same exactly
if they end at the same places, which is so if none of them run together. -/
theorem equal_paths_have_equal_tokens {m : Node} {p q : AccessPath} {t : SpineTokens}
    (hp : of? f m = some p) (hq : of? f n = some q) (hs : m.spineTokens? f = some s)
    (ht : n.spineTokens? f = some t) :
    (p.sameAs q = true ↔ s.spelling = t.spelling) ∧
      (s = t ↔ p.sameAs q = true ∧ s.cuts = t.cuts) ∧
      (s.StandApart → t.StandApart → (p.sameAs q = true ↔ s = t)) := by
  have hspelling : p.sameAs q = true ↔ s.spelling = t.spelling := by
    rw [sameAs_iff, spelling_of_path hp hs, spelling_of_path hq ht, Prod.mk.injEq]
  refine ⟨hspelling, ?_, fun hapart hapart' ↦ ?_⟩
  · rw [hspelling]
    exact SpineTokens.eq_iff_spelling_cuts
  · rw [hspelling]
    exact SpineTokens.spelling_eq_iff hapart hapart'

/-- What the first two operands of the program compare or access. -/
def accessed (c : ChainFinder) : Node × Node :=
  match c.firstRun with
  | .mk _ _ (m :: _) :: .mk _ _ (n :: _) :: _ => (m, n)
  | _ => (.absent, .absent)

/-- The escaped slash and the one that closes the regular expression start a comment for compaction,
and the arguments behind it are lost. -/
def slashedArguments : ChainFinder :=
  .inText .and "foo.bar(/\\//, a) != null && foo.bar(/\\//, b).baz;"

def joinedWords : ChainFinder :=
  .inText .and "foo[typeof a] != null && foo[typeofa].baz;"

def formattedCalls : ChainFinder :=
  .inText .and "(foo!.bar<T>( a,\n\tb /* last */ ))?.[k] != null && foo.bar<T>(a, b)[k].baz;"

/-- Calls with other arguments become one path, and so do keys whose tokens run together. Calls that
are only laid out differently have the same tokens. -/
theorem unlike_accesses_taken_for_equal :
    (∃ chain ∈ slashedArguments.find slashedArguments.firstRun,
      chain.replacement? slashedArguments.file = some "foo.bar(/\\//, b)?.baz".toList) ∧
    (∃ p q s t, of? joinedWords.file (accessed joinedWords).1 = some p ∧
      of? joinedWords.file (accessed joinedWords).2 = some q ∧
      (accessed joinedWords).1.spineTokens? joinedWords.file = some s ∧
      (accessed joinedWords).2.spineTokens? joinedWords.file = some t ∧
      p.sameAs q = true ∧ s ≠ t) ∧
    ∃ p q s t, of? formattedCalls.file (accessed formattedCalls).1 = some p ∧
      of? formattedCalls.file (accessed formattedCalls).2 = some q ∧
      (accessed formattedCalls).1.spineTokens? formattedCalls.file = some s ∧
      (accessed formattedCalls).2.spineTokens? formattedCalls.file = some t ∧
      p.sameAs q = true ∧ s.StandApart ∧ s = t := by
  refine ⟨⟨_, List.head_mem (by decide +kernel), by decide +kernel⟩, ?_, ?_⟩
  · -- one evaluation for each text, so that it is parsed once
    obtain ⟨hpath, hpath', hs, ht⟩ : (of? joinedWords.file (accessed joinedWords).1).isSome = true ∧
        (of? joinedWords.file (accessed joinedWords).2).isSome = true ∧
        (accessed joinedWords).1.spineTokens? joinedWords.file =
          some ⟨["foo".toList], [(.element, [['['], "typeof".toList, ['a'], [']']])]⟩ ∧
        (accessed joinedWords).2.spineTokens? joinedWords.file =
          some ⟨["foo".toList], [(.element, [['['], "typeofa".toList, [']']])]⟩ := by
      decide +kernel
    obtain ⟨p, hp⟩ := Option.isSome_iff_exists.1 hpath
    obtain ⟨q, hq⟩ := Option.isSome_iff_exists.1 hpath'
    obtain ⟨hsame, -, -⟩ := equal_paths_have_equal_tokens hp hq hs ht
    exact ⟨p, q, _, _, hp, hq, hs, ht, hsame.2 (by decide), by decide⟩
  · let tokens : SpineTokens := ⟨["foo".toList], [(.member, [['.'], "bar".toList]),
      (.call, [['<'], ['T'], ['>'], ['('], ['a'], [','], ['b'], [')']]),
      (.element, [['['], ['k'], [']']])]⟩
    obtain ⟨hpath, hpath', hs, ht⟩ :
        (of? formattedCalls.file (accessed formattedCalls).1).isSome = true ∧
        (of? formattedCalls.file (accessed formattedCalls).2).isSome = true ∧
        (accessed formattedCalls).1.spineTokens? formattedCalls.file = some tokens ∧
        (accessed formattedCalls).2.spineTokens? formattedCalls.file = some tokens := by
      decide +kernel
    have hapart : tokens.StandApart := by decide +kernel
    obtain ⟨p, hp⟩ := Option.isSome_iff_exists.1 hpath
    obtain ⟨q, hq⟩ := Option.isSome_iff_exists.1 hpath'
    obtain ⟨-, -, hsame⟩ := equal_paths_have_equal_tokens hp hq hs ht
    exact ⟨p, q, tokens, tokens, hp, hq, hs, ht, (hsame hapart hapart).2 rfl, hapart, rfl⟩

end AccessPath

end OptionalChain
