import OptionalChain.Proofs.RewrittenChain

/-!
# Short-circuits of a rewritten path

When the path of a guard is nullish, the rewritten path has to be undefined and must not throw.
It is so in every world exactly if the markers of the rewritten path let a walk get past a
nullish value wherever the markers of a guard do. A chain is found without a look at this: the
markers of the guards are left out, and a parenthesis may close behind a marker.
-/

namespace OptionalChain

/-! ## Escapes -/

namespace Hop

/-- A walk at a nullish value gets past the next hop by its marker, and past each later one by
its marker or because no parenthesis closes before it. -/
theorem escapes_drop_iff {r : Reading} {hs : List Hop} {j : Nat} (hj : j < hs.length) :
    escapes r (hs.drop j) = true ↔ hs[j]?.any (·.optional) = true ∧
      ∀ k, j < k → ∀ h, hs[k]? = some h → h.isPassable r = true := by
  rw [List.drop_eq_getElem_cons hj, escapes, Bool.and_eq_true, List.all_eq_true,
    List.getElem?_eq_getElem hj, Option.any_some]
  refine and_congr_right fun _ ↦ ⟨fun hall k hk h hh ↦ ?_, fun hall h hh ↦ ?_⟩
  · have hdrop : (hs.drop (j + 1))[k - (j + 1)]? = some h := by
      rw [List.getElem?_drop, Nat.add_sub_cancel' hk]
      exact hh
    exact hall h (List.mem_of_getElem? hdrop)
  · obtain ⟨i, hi⟩ := List.mem_iff_getElem?.1 hh
    rw [List.getElem?_drop] at hi
    exact hall (j + 1 + i) (by omega) h hi

theorem isPassable_whole (h : Hop) : h.isPassable .whole = true := rfl

theorem isPassable_grouped (h : Hop) :
    h.isPassable .grouped = true ↔ (h.grouped = true → h.optional = true) := by
  cases hgrouped : h.grouped <;> simp [isPassable, hgrouped]

end Hop

/-! ## Worlds with one nullish value -/

namespace World

/-- The value after `i` steps when the one after `j` steps is null. -/
def probeDatum (j i : Nat) : Datum :=
  if i = j then .null else .object i true

/-- A world where every path gives an object after each of its steps but number `j`. -/
def probe (j : Nat) : World Unit where
  base _ _ := probeDatum j 0
  read _ _ _
    | .object i _ => some (probeDatum j (i + 1))
    | _ => none
  constant _ := .boolean true
  constant_present _ := rfl
  equates _ _ _ := none
  convertsObject _ _ := false
  orders _ _ _ _ := false
  isInstance _ _ _ := none
  other _ _ := none

theorem walk_probe (r : Reading) {j i : Nat} {hs : List Hop} (hi : i ≤ j)
    (hj : j - i ≤ hs.length) :
    (probe j).walk r () (.reached (probeDatum j i)) hs =
      (probe j).walk r () (.reached .null) (hs.drop (j - i)) := by
  induction hs generalizing i with
  | nil =>
    obtain rfl : i = j := by simp at hj; omega
    simp [probeDatum]
  | cons h hs ih =>
    by_cases hij : i = j
    · simp [probeDatum, hij]
    · have hdatum : probeDatum j i = .object i true := by simp [probeDatum, hij]
      have hdrop : j - i = (j - (i + 1)) + 1 := by omega
      rw [hdatum, walk_present _ _ _ rfl, hdrop, List.drop_succ_cons]
      exact ih (by omega) (by simp at hj; omega)

/-- The walk meets the null of the world unless the path ends before it. -/
theorem pathValue_probe (r : Reading) (baseKey : List Char) {j : Nat} {hs : List Hop}
    (hj : j ≤ hs.length) :
    (probe j).pathValue r () baseKey hs =
      if Hop.escapes r (hs.drop j) then some (if j = hs.length then .null else .undefined)
      else none := by
  have hwalk : (probe j).pathValue r () baseKey hs =
      ((probe j).walk r () (.reached .null) (hs.drop j)).map (·.value) :=
    congrArg _ (walk_probe r (Nat.zero_le j) hj)
  rw [hwalk]
  cases hdrop : hs.drop j with
  | nil =>
    obtain rfl : j = hs.length := Nat.le_antisymm hj (List.drop_eq_nil_iff.1 hdrop)
    simp [walk, Hop.escapes, Link.value]
  | cons h rest =>
    have hlt : j ≠ hs.length := by
      rintro rfl
      simp at hdrop
    rw [walk_nullish _ _ _ rfl, if_neg hlt]
    cases Hop.escapes r (h :: rest) <;> rfl

end World

/-! ## Rewritten paths -/

namespace Chain

/-- In every world where the path of a guard is nullish the rewritten path is undefined. -/
def Skips (chain : Chain) (f : SourceFile) (r : Reading) : Prop :=
  ∀ (σ : Type) (w : World σ) (s : σ), ∀ g ∈ chain.guards, ∀ v,
    w.access f r g.target s = some (v, s) → v.isNullish = true →
      w.access f r chain.rewrittenPath s = some (.undefined, s)

/-- A parenthesis that closes behind the end of a guard has no plain step after it. -/
def Connected (chain : Chain) : Prop :=
  ∀ j k, j < k → chain.isBoundary j = true →
    ∀ h, chain.hops[k]? = some h → h.grouped = true → h.optional = true

end Chain

namespace ChainFinder.Parts

variable {c : ChainFinder} {operands : List Node} {chain : Chain} (parts : c.Parts operands chain)

include parts

theorem map_place_guard {g : AccessPath} (hg : g ∈ chain.guards) :
    g.hops.map Hop.place <+: chain.hops.map Hop.place := by
  have hleads := AccessPath.leadsStrictly_iff.1 (parts.leadsStrictly_terminalPath hg)
  rw [Chain.hops, Hop.map_place_markAll, AccessPath.map_place_hops, AccessPath.map_place_hops]
  exact hleads.2.2

theorem length_hops_guard_lt {g : AccessPath} (hg : g ∈ chain.guards) :
    g.hops.length < chain.hops.length := by
  simpa [Chain.length_hops] using parts.length_guard_lt hg

theorem lt_length_hops {g : AccessPath} (hg : g ∈ chain.guards) {j : Nat} (hj : j ≤ g.length) :
    j < chain.hops.length := by
  rw [Chain.length_hops]
  exact lt_of_le_of_lt hj (parts.length_guard_lt hg)

/-- A guard that is nullish makes the rewritten path undefined, or makes it throw. -/
theorem exists_pathValue_eq {σ : Type} (w : World σ) (r : Reading) (s : σ) {g : AccessPath}
    (hg : g ∈ chain.guards) {v : Datum} (hvalue : w.pathValue r s g.baseKey g.hops = some v)
    (hnullish : v.isNullish = true) :
    ∃ j ≤ g.length, Hop.escapes r (g.hops.drop j) = true ∧
      w.pathValue r s chain.terminalPath.baseKey chain.hops =
        if Hop.escapes r (chain.hops.drop j) then some .undefined else none := by
  obtain ⟨-, hbase, -⟩ := AccessPath.leadsStrictly_iff.1 (parts.leadsStrictly_terminalPath hg)
  obtain ⟨l, hwalk, rfl⟩ := Option.map_eq_some_iff.1 hvalue
  rw [hbase] at hwalk
  obtain ⟨j, hj, hescapes, hskip⟩ :=
    w.exists_walk_eq r s (parts.length_hops_guard_lt hg) (parts.map_place_guard hg) hwalk hnullish
  refine ⟨j, by simpa using hj, hescapes, ?_⟩
  rw [World.pathValue, hskip]
  split <;> rfl

theorem pathValue_of_guard {σ : Type} (w : World σ) {r : Reading} (hescapes : chain.Escapes r)
    (s : σ) {g : AccessPath} (hg : g ∈ chain.guards) {v : Datum}
    (hvalue : w.pathValue r s g.baseKey g.hops = some v) (hnullish : v.isNullish = true) :
    w.pathValue r s chain.terminalPath.baseKey chain.hops = some .undefined := by
  obtain ⟨j, hj, hguard, hpath⟩ := parts.exists_pathValue_eq w r s hg hvalue hnullish
  rw [hpath, if_pos (hescapes g hg j hj hguard)]

/-- The rewritten path skips exactly if it escapes wherever a guard does. -/
theorem skips_iff_escapes (r : Reading) : chain.Skips c.file r ↔ chain.Escapes r := by
  constructor
  · intro hskips g hg j hj hescapes
    have hguard : (World.probe j).access c.file r g.target () =
        some (if j = g.hops.length then .null else .undefined, ()) := by
      rw [parts.access_guard _ _ _ hg, World.pathValue_probe r _ (by simpa using hj),
        if_pos hescapes]
      rfl
    have hvalue := hskips Unit (World.probe j) () g hg _ hguard (by split <;> rfl)
    have hlast := (parts.lt_length_hops hg hj).le
    rw [parts.access_rewrittenPath, World.pathValue_probe r _ hlast] at hvalue
    by_contra hno
    rw [if_neg hno] at hvalue
    cases hvalue
  · intro hescapes σ w s g hg v haccess hnullish
    rw [parts.access_guard w r s hg] at haccess
    obtain ⟨u, hvalue, heq⟩ := Option.map_eq_some_iff.1 haccess
    cases heq
    rw [parts.access_rewrittenPath, parts.pathValue_of_guard w hescapes s hg hvalue hnullish]
    rfl

theorem optional_hops_of_guard {g : AccessPath} (hg : g ∈ chain.guards) :
    chain.hops[g.length]?.any (·.optional) = true :=
  (parts.optional_hops_iff g.length).2 (.inr (Chain.isBoundary_iff.2 ⟨g, hg, rfl⟩))

/-- A path that keeps the markers escapes if nothing stops it behind the end of a guard and
behind a marker of one. -/
theorem escapes_of_isPassable {r : Reading} (hkeeps : chain.KeepsMarkers)
    (hpassable : ∀ g ∈ chain.guards, ∀ j, j = g.length ∨ g.isOptionalAt j = true →
      ∀ k, j < k → ∀ h, chain.hops[k]? = some h → h.isPassable r = true) : chain.Escapes r := by
  intro g hg j hj hguard
  rw [Hop.escapes_drop_iff (parts.lt_length_hops hg hj)]
  obtain rfl | hlt := Nat.eq_or_lt_of_le hj
  · exact ⟨parts.optional_hops_of_guard hg, hpassable g hg g.length (.inl rfl)⟩
  · have hmarked : g.isOptionalAt j = true := by
      rw [AccessPath.isOptionalAt_eq_hops]
      exact ((Hop.escapes_drop_iff (by simpa using hlt)).1 hguard).1
    exact ⟨(parts.optional_hops_iff j).2 (hkeeps g hg j hmarked), hpassable g hg j (.inr hmarked)⟩

/-- Where no parenthesis ends a chain, a path escapes by the markers of its guards. -/
theorem escapes_whole_iff : chain.Escapes .whole ↔ chain.KeepsMarkers := by
  constructor
  · intro hescapes g hg i hi
    have hlength := AccessPath.lt_length_of_isOptionalAt hi
    rw [AccessPath.isOptionalAt_eq_hops] at hi
    have hguard := (Hop.escapes_drop_iff (by simpa using hlength)).2
      ⟨hi, fun _ _ h _ ↦ h.isPassable_whole⟩
    have hlast := hescapes g hg i hlength.le hguard
    rw [Hop.escapes_drop_iff (parts.lt_length_hops hg hlength.le)] at hlast
    exact (parts.optional_hops_iff i).1 hlast.1
  · intro hkeeps
    exact parts.escapes_of_isPassable hkeeps fun _ _ _ _ _ _ h _ ↦ h.isPassable_whole

theorem connected_of_escapes (hescapes : chain.Escapes .grouped) : chain.Connected := by
  intro j k hjk hboundary h hh hgrouped
  obtain ⟨g, hg, rfl⟩ := Chain.isBoundary_iff.1 hboundary
  have hdrop : Hop.escapes .grouped (g.hops.drop g.length) = true := by
    rw [List.drop_eq_nil_iff.2 (by simp)]
    rfl
  have hlast := hescapes g hg g.length (Nat.le_refl _) hdrop
  rw [Hop.escapes_drop_iff (parts.lt_length_hops hg (Nat.le_refl _))] at hlast
  exact (Hop.isPassable_grouped h).1 (hlast.2 k hjk h hh) hgrouped

/-- Guards without markers get past a nullish value only at their end. -/
theorem escapes_of_connected (hplain : ∀ g ∈ chain.guards, ∀ i, g.isOptionalAt i = false)
    (hconnected : chain.Connected) : chain.Escapes .grouped := by
  have hkeeps : chain.KeepsMarkers := by
    intro g hg i hi
    rw [hplain g hg i] at hi
    cases hi
  refine parts.escapes_of_isPassable hkeeps fun g hg j hj k hk h hh ↦ ?_
  obtain rfl | hmarked := hj
  · rw [Hop.isPassable_grouped]
    exact hconnected g.length k hk (Chain.isBoundary_iff.2 ⟨g, hg, rfl⟩) h hh
  · rw [hplain g hg j] at hmarked
    cases hmarked

end ChainFinder.Parts

/-! ## Markers of the guards -/

namespace ChainFinder

variable {c : ChainFinder} {operands : List Node} {chain : Chain}

namespace Parts

variable (parts : c.Parts operands chain)

include parts

/-- The rewritten operand ends in the path of the last operand with the markers. -/
theorem exists_rewritten_path :
    ∃ q, terminalPath? c.file c.style (chain.rewritten c.file) = some q ∧
      q.baseKey = chain.terminalPath.baseKey ∧ q.places = chain.terminalPath.places ∧
      ∀ i, q.isOptionalAt i = true ↔
        chain.terminalPath.isOptionalAt i = true ∨ chain.isBoundary i = true := by
  obtain ⟨q, hq, hbase, hhops⟩ := terminalPath?_markTerminal chain.isBoundary parts.terminal_eq
  refine ⟨q, hq, hbase, ?_, fun i ↦ ?_⟩
  · rw [← AccessPath.map_place_hops, hhops, Hop.map_place_markAll, AccessPath.map_place_hops]
  · rw [AccessPath.isOptionalAt_eq_hops, hhops]
    exact parts.optional_hops_iff i

end Parts

theorem mem_insertions_iff_of_optional {q : AccessPath}
    (hq : ∀ i, q.isOptionalAt i = true ↔
      chain.terminalPath.isOptionalAt i = true ∨ chain.isBoundary i = true) (ins : Insertion) :
    ins ∈ chain.insertions ↔ ∃ i t, chain.terminalPath.steps[i]? = some t ∧ t.optional = false ∧
      q.isOptionalAt i = true ∧ ins = ⟨t.insertAt, t.marker⟩ := by
  rw [Chain.mem_insertions_iff]
  refine exists_congr fun i ↦ exists_congr fun t ↦ and_congr_right fun ht ↦
    and_congr_right fun hplain ↦ and_congr_left fun _ ↦ ?_
  have hterminal : chain.terminalPath.isOptionalAt i = false := by
    simp [AccessPath.isOptionalAt, ht, hplain]
  rw [hq, hterminal]
  simp

/-- A step of the rewritten path is optional if it was written so or a guard ends before it, and
the replacement gets the text of the new markers. The markers of the guards all survive, and
a guard that is nullish is never turned into a path that throws, exactly if each of them stands
on the last operand too or where a guard ends. -/
theorem guard_markers_survive_iff (h : chain ∈ c.find operands) :
    ∃ q, terminalPath? c.file c.style (chain.rewritten c.file) = some q ∧
      q.baseKey = chain.terminalPath.baseKey ∧ q.places = chain.terminalPath.places ∧
      (∀ i, q.isOptionalAt i = true ↔
        chain.terminalPath.isOptionalAt i = true ∨ chain.isBoundary i = true) ∧
      (∀ ins, ins ∈ chain.insertions ↔ ∃ i t, chain.terminalPath.steps[i]? = some t ∧
        t.optional = false ∧ q.isOptionalAt i = true ∧ ins = ⟨t.insertAt, t.marker⟩) ∧
      (∀ ins ∈ chain.insertions, c.file.clamp chain.terminal.span.lo ≤ ins.offset →
        ins.offset ≤ c.file.clamp chain.terminal.span.hi → chain.Shows c.file ins) ∧
      ((∀ g ∈ chain.guards, ∀ i, g.isOptionalAt i = true → q.isOptionalAt i = true) ↔
        chain.KeepsMarkers) ∧
      (chain.Skips c.file .whole ↔ chain.KeepsMarkers) := by
  obtain ⟨start, hstart⟩ := exists_chainAt? h
  obtain ⟨parts⟩ := exists_parts hstart
  obtain ⟨q, hq, hbase, hplaces, hoptional⟩ := parts.exists_rewritten_path
  refine ⟨q, hq, hbase, hplaces, hoptional, mem_insertions_iff_of_optional hoptional,
    fun ins hins ↦ Chain.shows_of_mem_insertions c.file hins, ?_, ?_⟩
  · simp only [hoptional]
    rfl
  · rw [parts.skips_iff_escapes, parts.escapes_whole_iff]

/-- A search in a program without types. -/
def inText (style : ChainStyle) (text : String) : ChainFinder :=
  ⟨.ofText "a.ts" text.toList, style, .untyped, {}⟩

variable (c) in
/-- The operands of the first statement of the program. -/
def firstRun : List Node :=
  match c.file.program? with
  | some (.mk _ _ (.mk _ _ (e :: _) :: _)) => e.flatten c.style
  | _ => []

def lostMarker : ChainFinder :=
  inText .and "foo?.bar != null && foo.bar.baz;"

/-- The marker on `foo` is lost, and the replacement throws where the guard was undefined. -/
theorem guard_marker_lost :
    ∃ chain ∈ lostMarker.find lostMarker.firstRun,
      chain.replacement? lostMarker.file = some "foo.bar?.baz".toList ∧
        ¬chain.Skips lostMarker.file .whole := by
  refine ⟨_, List.head_mem (by decide +kernel), by decide +kernel, ?_⟩
  obtain ⟨-, -, -, -, -, -, -, -, hskips⟩ := guard_markers_survive_iff (List.head_mem _)
  rw [hskips]
  decide +kernel

/-! ## Parentheses -/

/-- Where a parenthesis ends a chain, a nullish guard makes the rewritten path undefined exactly
if the path escapes wherever a guard does. No parenthesis may then close behind the end of a
guard and before a plain step; if the guards have no markers of their own, that is all. -/
theorem grouped_path_skips_iff (h : chain ∈ c.find operands) :
    (chain.Skips c.file .grouped ↔ chain.Escapes .grouped) ∧
      (chain.Skips c.file .grouped → chain.Connected) ∧
      ((∀ g ∈ chain.guards, ∀ i, g.isOptionalAt i = false) →
        (chain.Skips c.file .grouped ↔ chain.Connected)) := by
  obtain ⟨start, hstart⟩ := exists_chainAt? h
  obtain ⟨parts⟩ := exists_parts hstart
  have hiff := parts.skips_iff_escapes .grouped
  refine ⟨hiff, fun hskips ↦ parts.connected_of_escapes (hiff.1 hskips), fun hplain ↦ ?_⟩
  rw [hiff]
  exact ⟨parts.connected_of_escapes, parts.escapes_of_connected hplain⟩

def closedChain : ChainFinder :=
  inText .and "foo != null && (foo.bar).baz;"

/-- The parenthesis around `foo?.bar` closes before a plain step. -/
theorem grouped_path_throws :
    ∃ chain ∈ closedChain.find closedChain.firstRun,
      chain.replacement? closedChain.file = some "(foo?.bar).baz".toList ∧
        ¬chain.Skips closedChain.file .grouped := by
  refine ⟨_, List.head_mem (by decide +kernel), by decide +kernel, ?_⟩
  rw [(grouped_path_skips_iff (List.head_mem _)).1]
  decide +kernel

end ChainFinder

end OptionalChain
