import OptionalChain.Proofs.ShortCircuit

/-!
# The meaning of safe chains

In a world that the oracle is sound for, a guard of a safe chain ends the run of the operands at
a nullish value only. The rewritten path is then undefined, and its operand gives what the run
ends with. If no guard ends the run, the path is present at every guard and the new markers
change nothing.
-/

namespace OptionalChain

/-! ## Verdicts of levels -/

theorem Verdict.max_eq_safe {v w : Verdict} (h : v.max w = .safe) : v = .safe ∧ w = .safe := by
  cases v <;> cases w <;> simp_all [Verdict.max, rank]

theorem Verdict.eq_safe_of_foldl {vs : List Verdict} {start : Verdict}
    (h : vs.foldl .max start = .safe) : start = .safe ∧ ∀ v ∈ vs, v = .safe := by
  induction vs generalizing start with
  | nil => exact ⟨h, fun v hv ↦ by cases hv⟩
  | cons v vs ih =>
    obtain ⟨hmax, hrest⟩ := ih h
    obtain ⟨hstart, hv⟩ := max_eq_safe hmax
    refine ⟨hstart, fun u hu ↦ ?_⟩
    obtain rfl | hu := List.mem_cons.1 hu
    · exact hv
    · exact hrest u hu

theorem Node.markTerminal_false (f : SourceFile) (n : Node) :
    n.markTerminal f (fun _ ↦ false) = n := by
  fun_induction markTerminal f (fun _ ↦ false) n with
  | case1 s e ih => rw [ih]; rfl
  | case2 op s e ih => rw [ih]; rfl
  | case3 op s left right hop hother ih => rw [ih]; rfl
  | case4 op s left right hop hconstant ih => rw [ih]; rfl
  | case5 op s left right hop hrelational hleft ih => rw [ih]; rfl
  | case6 op s left right hop hrelational hleft ih => rw [ih]; rfl
  | case7 => rfl
  | case8 n => exact n.mark_false

/-! ## What a chain means -/

namespace Chain

variable {σ : Type} (chain : Chain) (f : SourceFile) (r : Reading) (w : World σ)

/-- The shapes of the oracle have the values of the paths of the guards. -/
def Sound (oracle : Oracle) (s : σ) : Prop :=
  ∀ g ∈ chain.guards, ∀ v, w.access f r g.target s = some (v, s) →
    (oracle g.target).admits v = true

/-- If the run of the guards and the last operand does not throw, then the rewritten operand does
not throw either. It gives the same value if no guard ends the run; if one does, both give
what a run of the style ends with. -/
def KeepsMeaning (guards : List Node) (s : σ) : Prop :=
  ∀ v s', w.run f r chain.style guards chain.terminal s = some (v, s') →
    ∃ u, w.eval f r (chain.rewritten f) s = some (u, s') ∧
      (∀ t, w.guards f r chain.style guards s = some (none, t) → u = v) ∧
      ∀ d t, w.guards f r chain.style guards s = some (some d, t) →
        chain.style.endsWith v = true ∧ chain.style.endsWith u = true

/-- No parenthesis of the last operand closes behind a step that the rewritten path may skip from
and before a later step. It does not only skip from its boundaries: a guard that is marked itself
ends the run from there, so that the rewritten path must get past all later steps from there too. -/
def Unbroken : Prop :=
  ∀ j k, j < k → (chain.isBoundary j = true ∨ ∃ g ∈ chain.guards, g.isOptionalAt j = true) →
    ∀ h, chain.hops[k]? = some h → h.grouped = false

/-- The guard skips from its first step, which is no boundary, and a parenthesis closes behind it:
with no `foo`, the guard ends the run, and `(foo?.bar).baz?.qux` throws. -/
example :
    let c := ChainFinder.inText .and "foo?.bar.baz != null && (foo?.bar).baz.qux;"
    (c.find c.firstRun).map (fun chain ↦ (chain.isBoundary 0,
      chain.guards.map (·.isOptionalAt 0), chain.hops[1]?.map (·.grouped))) =
        [(false, [true], some true)] := by
  decide +kernel

/-- The value of the last operand, if it has one, is not changed by the markers. -/
theorem eval_rewritten {chain : Chain} {f : SourceFile} {σ : Type} {w : World σ} {r : Reading}
    {K : σ → Datum → Option Datum}
    (hends : w.Ends r f chain.terminal chain.terminalPath K) {s s' : σ} {v : Datum}
    (h : w.eval f r chain.terminal s = some (v, s')) :
    w.eval f r (chain.rewritten f) s = some (v, s') := by
  have hplain := hends (fun _ ↦ false) s
  rw [Node.markTerminal_false, Hop.markAll_false, h] at hplain
  obtain ⟨x, hx, hrest⟩ := Option.bind_eq_some_iff.1 hplain.symm
  obtain ⟨l, hwalk, rfl⟩ := Option.map_eq_some_iff.1 hx
  have hmarked : w.pathValue r s chain.terminalPath.baseKey
      (Hop.markAll chain.isBoundary chain.terminalPath.hops) = some l.value := by
    rw [World.pathValue, w.walk_markAll r s chain.isBoundary hwalk]
    rfl
  rw [Chain.rewritten, hends chain.isBoundary s, hmarked, Option.bind_some]
  exact hrest

end Chain

namespace ChainFinder

variable {c : ChainFinder} {operands : List Node} {chain : Chain}

namespace Parts

variable (parts : c.Parts operands chain)

/-- The operands before the last one. -/
def guardNodes : List Node :=
  parts.blocks.flatten.map (·.node)

theorem take_operands : operands.take chain.operands = parts.guardNodes ++ [chain.terminal] := by
  have hlength : chain.operands = (parts.guardNodes ++ [chain.terminal]).length := by
    rw [parts.operands_eq, List.length_append, guardNodes, List.length_map]
    rfl
  have hsplit : operands = (parts.guardNodes ++ [chain.terminal]) ++ parts.after := by
    rw [List.append_assoc]
    exact parts.split
  calc
    operands.take chain.operands = ((parts.guardNodes ++ [chain.terminal]) ++ parts.after).take
        (parts.guardNodes ++ [chain.terminal]).length := by rw [← hsplit, ← hlength]
    _ = parts.guardNodes ++ [chain.terminal] := List.take_left

include parts

theorem verdict_eq_safe (hsafe : chain.verdict = .safe) {l : Level} (hl : l ∈ parts.levels) :
    c.verdict l = .safe := by
  rw [parts.verdict_eq] at hsafe
  exact (Verdict.eq_safe_of_foldl hsafe).2 _ (List.mem_map_of_mem hl)

/-- A run of the guards of a safe chain leaves the state, and ends only where the path of a guard
is nullish. -/
theorem exists_nullish_guard {σ : Type} {w : World σ} {r : Reading} {s s' : σ}
    (hsafe : chain.verdict = .safe) (hsound : chain.Sound c.file r w c.oracle s)
    {stopped : Option Datum}
    (h : w.guards c.file r chain.style parts.guardNodes s = some (stopped, s')) :
    s' = s ∧ ∀ d, stopped = some d → chain.style.endsWith d = true ∧
      ∃ g ∈ chain.guards, ∃ v, w.pathValue r s g.baseKey g.hops = some v ∧ v.isNullish = true := by
  rw [parts.style_eq] at h ⊢
  obtain ⟨hs, hends⟩ := c.guards_of_levels w r parts.covers parts.made h
  refine ⟨hs, fun d hd ↦ ?_⟩
  obtain ⟨l, hl, ⟨ends⟩⟩ := hends d hd
  have hg : l.path ∈ chain.guards := by
    rw [parts.guards_eq]
    exact List.mem_map_of_mem hl
  have hadmits : (c.oracle l.path.target).admits ends.datum = true := by
    refine hsound l.path hg ends.datum ?_
    rw [parts.access_guard w r s hg, ends.path_eq]
    rfl
  have hstops : c.style.stops (ends.check.result ends.datum) = true := ends.eq ▸ ends.stops
  refine ⟨?_, l.path, hg, ends.datum, ends.path_eq, ?_⟩
  · rw [ends.eq]
    exact ends.check.endsWith_of_stops ends.continues hstops
  · exact isNullish_of_judgeLevel (parts.verdict_eq_safe hsafe hl) ends.mem ends.continues hadmits
      hstops

theorem keepsMeaning {σ : Type} {w : World σ} {r : Reading} {s : σ}
    (hsafe : chain.verdict = .safe) (hrelation : chain.terminal.isRelation = false)
    (hescapes : chain.Escapes r) (hsound : chain.Sound c.file r w c.oracle s) :
    chain.KeepsMeaning c.file r w parts.guardNodes s := by
  intro v s' hrun
  obtain ⟨⟨stopped, t⟩, hguards, hlast⟩ := Option.bind_eq_some_iff.1 hrun
  obtain ⟨rfl, hstopped⟩ := parts.exists_nullish_guard hsafe hsound hguards
  obtain ⟨K, hends, hundefined⟩ := w.exists_ends r parts.terminal_eq hrelation
  cases stopped with
  | none =>
    refine ⟨v, Chain.eval_rewritten hends hlast, fun _ _ ↦ rfl, fun d t hd ↦ ?_⟩
    rw [hguards] at hd
    cases hd
  | some d =>
    cases hlast
    obtain ⟨hv, g, hg, x, hx, hnullish⟩ := hstopped v rfl
    obtain ⟨u, hu, hend⟩ := hundefined s'
    refine ⟨u, ?_, fun t ht ↦ ?_, fun _ _ _ ↦ ⟨hv, ?_⟩⟩
    · have hpath : w.pathValue r s' chain.terminalPath.baseKey
          (Hop.markAll chain.isBoundary chain.terminalPath.hops) = some .undefined :=
        parts.pathValue_of_guard w hescapes s' hg hx hnullish
      rw [Chain.rewritten, hends chain.isBoundary s', hpath, Option.bind_some, hu]
      rfl
    · rw [hguards] at ht
      cases ht
    · rw [parts.style_eq]
      exact hend

/-- Where no parenthesis breaks the chain, the grouped reading escapes like the other. -/
theorem escapes_grouped (hkeeps : chain.KeepsMarkers) (hunbroken : chain.Unbroken) :
    chain.Escapes .grouped := by
  refine parts.escapes_of_isPassable hkeeps fun g hg j hj k hk h hh ↦ ?_
  have hskips : chain.isBoundary j = true ∨ ∃ g ∈ chain.guards, g.isOptionalAt j = true := by
    obtain rfl | hmarked := hj
    · exact .inl (Chain.isBoundary_iff.2 ⟨g, hg, rfl⟩)
    · exact .inr ⟨g, hg, hmarked⟩
  rw [Hop.isPassable_grouped, hunbroken j k hk hskips h hh]
  exact fun hgrouped ↦ by cases hgrouped

end Parts

/-- A safe chain whose last operand is no relation and which loses no marker of its guards keeps
its meaning, in every world that the oracle is sound for. If parentheses end chains, it does so
as long as none of them breaks the rewritten one. -/
theorem safe_chain_keeps_meaning (h : chain ∈ c.find operands) (hsafe : chain.verdict = .safe)
    (hrelation : chain.terminal.isRelation = false) (hkeeps : chain.KeepsMarkers) :
    (∃ start, c.chainAt? operands start = some chain) ∧
      ∀ start, c.chainAt? operands start = some chain →
        ∃ guards, (operands.drop start).take chain.operands = guards ++ [chain.terminal] ∧
          ∀ (σ : Type) (w : World σ) (s : σ),
            (chain.Sound c.file .whole w c.oracle s →
              chain.KeepsMeaning c.file .whole w guards s) ∧
            (chain.Unbroken → chain.Sound c.file .grouped w c.oracle s →
              chain.KeepsMeaning c.file .grouped w guards s) := by
  refine ⟨exists_chainAt? h, fun start hstart ↦ ?_⟩
  obtain ⟨parts⟩ := exists_parts hstart
  refine ⟨parts.guardNodes, parts.take_operands, fun σ w s ↦ ⟨fun hsound ↦ ?_, ?_⟩⟩
  · exact parts.keepsMeaning hsafe hrelation (parts.escapes_whole_iff.2 hkeeps) hsound
  · intro hunbroken hsound
    exact parts.keepsMeaning hsafe hrelation (parts.escapes_grouped hkeeps hunbroken) hsound

/-- A chain that starts at the first operand is found. -/
theorem mem_find_of_chainAt? (h : c.chainAt? operands 0 = some chain) :
    chain ∈ c.find operands := by
  cases operands with
  | nil => simp [chainAt?] at h
  | cons n ns =>
    have hsettle : c.settle (levelsAt 0 (c.operand n) (ns.map c.operand)) = some chain := h
    simp [find, search, searchFrom, hsettle]

def nestedGuards : ChainFinder :=
  inText .and "a !== null && a !== undefined && a.b != null && a.b.c === 1;"

def nestedChain : Chain :=
  (nestedGuards.chainAt? nestedGuards.firstRun 0).get (by decide +kernel)

/-- The run ends at the null of `a.b`, and the rewritten operand gives the same. -/
theorem nested_guards_keep_meaning :
    nestedChain ∈ nestedGuards.find nestedGuards.firstRun ∧ nestedChain.verdict = .safe ∧
      nestedChain.terminal.isRelation = false ∧ nestedChain.KeepsMarkers ∧
      nestedChain.KeepsMeaning nestedGuards.file .whole (World.probe 1)
        nestedGuards.firstRun.dropLast () ∧
      (World.probe 1).run nestedGuards.file .whole .and nestedGuards.firstRun.dropLast
        nestedChain.terminal () = some (.boolean false, ()) := by
  have hstart : nestedGuards.chainAt? nestedGuards.firstRun 0 = some nestedChain :=
    (Option.some_get _).symm
  have hfind := mem_find_of_chainAt? hstart
  obtain ⟨hsafe, hrelation, hkeeps, hlength, hrun⟩ : nestedChain.verdict = .safe ∧
      nestedChain.terminal.isRelation = false ∧ nestedChain.KeepsMarkers ∧
      nestedGuards.firstRun.length ≤ nestedChain.operands ∧
      (World.probe 1).run nestedGuards.file .whole .and nestedGuards.firstRun.dropLast
        nestedChain.terminal () = some (.boolean false, ()) := by decide +kernel
  obtain ⟨guards, htake, hmeaning⟩ :=
    (safe_chain_keeps_meaning hfind hsafe hrelation hkeeps).2 0 hstart
  have hguards : nestedGuards.firstRun.dropLast = guards := by
    rw [List.drop_zero, List.take_of_length_le hlength] at htake
    rw [htake, List.dropLast_concat]
  refine ⟨hfind, hsafe, hrelation, hkeeps, ?_, hrun⟩
  rw [hguards]
  exact (hmeaning Unit (World.probe 1) ()).1 fun _ _ _ _ ↦ rfl

end ChainFinder

end OptionalChain
