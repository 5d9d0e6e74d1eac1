import OptionalChain.Proofs.ChainParts
import OptionalChain.Proofs.Operands

/-!
# Runs of guards

The operands before the last one of a chain are evaluated in order until one of them ends the
run. When the chain is safe and its oracle is sound for the paths of the guards, a guard that
ends the run has met a nullish value on its path.
-/

namespace OptionalChain

namespace World

variable {σ : Type} (w : World σ) (r : Reading) {f : SourceFile}

/-- Two walks that make the same reads and get to the end have the same value there. -/
theorem value_eq_of_walk (s : σ) {v : Datum} {l l' : Link} {gs ts : List Hop}
    (hplace : gs.map Hop.place = ts.map Hop.place) (hg : w.walk r s (.reached v) gs = some l)
    (ht : w.walk r s (.reached v) ts = some l') : l.value = l'.value := by
  induction gs generalizing v ts with
  | nil =>
    obtain rfl : ts = [] := by simpa using hplace.symm
    rw [hg] at ht
    cases ht
    rfl
  | cons g gs ih =>
    cases ts with
    | nil => simp at hplace
    | cons t ts =>
      rw [List.map_cons, List.map_cons, List.cons.injEq] at hplace
      obtain ⟨hhead, htail⟩ := hplace
      have hread : (g.kind, g.key) = (t.kind, t.key) := hhead
      rw [Prod.mk.injEq] at hread
      cases hv : v.isNullish with
      | true =>
        rw [walk_nullish w r s hv] at hg ht
        split at hg
        · split at ht
          · cases hg
            cases ht
            rfl
          · cases ht
        · cases hg
      | false =>
        rw [walk_present w r s hv] at hg ht
        obtain ⟨u, hu, hg⟩ := Option.bind_eq_some_iff.1 hg
        rw [← hread.1, ← hread.2, hu, Option.bind_some] at ht
        exact ih htail hg ht

theorem pathValue_eq_of_sameAs (s : σ) {p q : AccessPath} {u v : Datum}
    (h : p.sameAs q = true) (hp : w.pathValue r s p.baseKey p.hops = some u)
    (hq : w.pathValue r s q.baseKey q.hops = some v) : u = v := by
  obtain ⟨hbase, hplaces⟩ := AccessPath.sameAs_iff.1 h
  obtain ⟨l, hl, rfl⟩ := Option.map_eq_some_iff.1 hp
  obtain ⟨l', hl', rfl⟩ := Option.map_eq_some_iff.1 hq
  rw [hbase] at hl
  refine w.value_eq_of_walk r s ?_ hl hl'
  rw [AccessPath.map_place_hops, AccessPath.map_place_hops, hplaces]

/-- The value of a path is that of its whole expression. -/
theorem access_target {n : Node} {p : AccessPath} (h : AccessPath.of? f n = some p) (s : σ) :
    w.access f r p.target s = (w.pathValue r s p.baseKey p.hops).map (·, s) := by
  obtain ⟨hspine, hkey⟩ := AccessPath.of?_eq_some h
  rw [hkey]
  exact w.access_of_spine r hspine.target s

end World

theorem Check.exists_of?_path {f : SourceFile} {n : Node} {c : Check} (h : of? f n = some c) :
    ∃ e, AccessPath.of? f e = some c.path := by
  have hpath {k : CheckKind} {e : Node} (h : ofPath? f k e = some c) :
      ∃ e, AccessPath.of? f e = some c.path := by
    obtain ⟨p, hp, rfl⟩ := Option.map_eq_some_iff.1 h
    exact ⟨e, hp⟩
  revert h
  fun_cases of? f n with
  | case1 => exact hpath
  | case2 op span left right hn hop =>
    intro h
    unfold ofEquality? at h
    split at h
    · split at h
      · exact hpath h
      · cases h
    · obtain ⟨⟨e, d⟩, -, h⟩ := Option.bind_eq_some_iff.1 h
      obtain ⟨k, -, h⟩ := Option.bind_eq_some_iff.1 h
      exact hpath h
  | case3 => exact hpath
  | case4 => exact hpath

/-! ## Checks that end a run -/

/-- A check that a run goes on past ends it at falsy values only. -/
theorem CheckKind.endsWith_of_stops {k : CheckKind} {style : ChainStyle} {v : Datum}
    (hk : k.continues style = true) (h : style.stops (k.result v) = true) :
    style.endsWith (k.result v) = true := by
  cases style with
  | and => exact h
  | or =>
    cases k <;> simp_all [continues, ChainStyle.stops, ChainStyle.endsWith, result, Datum.isTruthy]

/-- A check that is no bare test for truthiness ends a run at nullish values only. -/
theorem CheckKind.isNullish_of_stops {k : CheckKind} {style : ChainStyle} {v : Datum}
    (hk : k.continues style = true) (hbare : k.isTruthiness = false)
    (h : style.stops (k.result v) = true) : v.isNullish = true := by
  have hholds (c : Comparison) (h : c.holds v = true) : v.isNullish = true := by
    cases c <;> simp_all [Comparison.holds, Datum.isNullish]
  cases style with
  | and =>
    cases k with
    | truthy => cases hbare
    | notNullish c =>
      exact hholds c (by simpa [ChainStyle.stops, result, Datum.isTruthy] using h)
    | typeofDefined =>
      obtain rfl : v = .undefined := by simpa [ChainStyle.stops, result, Datum.isTruthy] using h
      rfl
    | _ => cases hk
  | or =>
    cases k with
    | falsy => cases hbare
    | nullish c =>
      exact hholds c (by simpa [ChainStyle.stops, result, Datum.isTruthy] using h)
    | typeofUndefined =>
      obtain rfl : v = .undefined := by simpa [ChainStyle.stops, result, Datum.isTruthy] using h
      rfl
    | _ => cases hk

theorem CheckKind.isTruthy_of_stops {k : CheckKind} {style : ChainStyle} {v : Datum}
    (hk : k.continues style = true) (hbare : k.isTruthiness = true)
    (h : style.stops (k.result v) = true) : v.isTruthy = false := by
  cases style <;> cases k <;>
    simp_all [continues, isTruthiness, ChainStyle.stops, result, Datum.isTruthy]

theorem mayBeFalsy_of_judgeTruthiness {s : Shape} {o : ChainOptions}
    (h : judgeTruthiness s o = .safe) : s.mayBeFalsy = false := by
  unfold judgeTruthiness at h
  split at h
  · cases h
  · split at h
    · cases h
    · split at h
      · cases h
      · split at h
        · cases h
        · rename_i hfalsy
          simpa using hfalsy

/-- A guard of a safe level ends a run at nullish values only. -/
theorem isNullish_of_judgeLevel {checks : List CheckKind} {k : CheckKind} {shape : Shape}
    {o : ChainOptions} {style : ChainStyle} {v : Datum} (hlevel : judgeLevel checks shape o = .safe)
    (hmem : k ∈ checks) (hk : k.continues style = true) (hv : shape.admits v = true)
    (h : style.stops (k.result v) = true) : v.isNullish = true := by
  cases hbare : k.isTruthiness with
  | false => exact k.isNullish_of_stops hk hbare h
  | true =>
    have hjudge : judgeTruthiness shape o = .safe := by
      unfold judgeLevel at hlevel
      split at hlevel
      · cases hlevel
      · have hany : checks.any (·.isTruthiness) = true := List.any_eq_true.2 ⟨k, hmem, hbare⟩
        rw [if_pos hany] at hlevel
        exact hlevel
    exact shape.isNullish_of_falsy (mayBeFalsy_of_judgeTruthiness hjudge) hv
      (k.isTruthy_of_stops hk hbare h)

/-! ## Runs over blocks -/

namespace World

variable {σ : Type} (w : World σ) (r : Reading) {f : SourceFile}

theorem guards_append (style : ChainStyle) (ns ms : List Node) (s : σ) :
    w.guards f r style (ns ++ ms) s = (w.guards f r style ns s).bind fun
      | (some v, s) => some (some v, s)
      | (none, s) => w.guards f r style ms s := by
  induction ns generalizing s with
  | nil => rfl
  | cons n ns ih =>
    rw [List.cons_append, guards, guards, Option.bind_assoc]
    refine Option.bind_congr fun (v, s) _ ↦ ?_
    dsimp only
    split
    · rfl
    · exact ih s

end World

/-- A check of the level has ended a run with the value. -/
structure Level.EndsRun {σ : Type} (l : Level) (w : World σ) (r : Reading) (style : ChainStyle)
    (s : σ) (v : Datum) where
  datum : Datum
  check : CheckKind
  path_eq : w.pathValue r s l.path.baseKey l.path.hops = some datum
  mem : check ∈ l.checks
  continues : check.continues style = true
  eq : v = check.result datum
  stops : style.stops v = true

namespace ChainFinder

variable {σ : Type} (c : ChainFinder) (w : World σ) (r : Reading)

theorem check?_eq_some {o : Operand} {check : Check} (hmade : o = c.operand o.node)
    (h : o.check? = some check) :
    Check.of? c.file o.node = some check ∧ check.kind.continues c.style = true := by
  rw [hmade] at h
  exact Option.filter_eq_some_iff.1 h

/-- A run over checks on the path of a level that has a value leaves the state. -/
theorem guards_of_checks {l : Level} {block : List Operand} {checks : List CheckKind} {s s' : σ}
    {x : Datum} {stopped : Option Datum}
    (hchecks : List.Forall₂ (fun o k ↦ ∃ p : AccessPath,
      o.check? = some ⟨k, p⟩ ∧ p.sameAs l.path = true) block checks)
    (hmade : ∀ o ∈ block, o = c.operand o.node)
    (hpath : w.pathValue r s l.path.baseKey l.path.hops = some x)
    (h : w.guards c.file r c.style (block.map (·.node)) s = some (stopped, s')) :
    s' = s ∧ ∀ v, stopped = some v → ∃ k ∈ checks, k.continues c.style = true ∧
      v = k.result x ∧ c.style.stops v = true := by
  induction hchecks with
  | nil =>
    cases h
    exact ⟨rfl, fun v hv ↦ by cases hv⟩
  | @cons o k block checks hcheck hrest ih =>
    obtain ⟨p, hcheck, hsame⟩ := hcheck
    obtain ⟨hof, hcontinues⟩ := c.check?_eq_some (hmade o (by simp)) hcheck
    rw [List.map_cons, World.guards, w.eval_check r hof] at h
    obtain ⟨⟨u, t⟩, heval, h⟩ := Option.bind_eq_some_iff.1 h
    obtain ⟨y, hy, heq⟩ := Option.map_eq_some_iff.1 heval
    cases heq
    obtain rfl : y = x := w.pathValue_eq_of_sameAs r s hsame hy hpath
    dsimp only at h
    split at h
    · rename_i hstops
      cases h
      refine ⟨rfl, fun v hv ↦ ?_⟩
      cases hv
      exact ⟨k, by simp, hcontinues, rfl, hstops⟩
    · obtain ⟨hs, hstopped⟩ := ih (fun o ho ↦ hmade o (by simp [ho])) h
      refine ⟨hs, fun v hv ↦ ?_⟩
      obtain ⟨k', hk', hrest⟩ := hstopped v hv
      exact ⟨k', by simp [hk'], hrest⟩

/-- A run over the block of a level leaves the state, and ends only by a check of the level. -/
theorem guards_of_covers {l : Level} {block : List Operand} {s s' : σ} {stopped : Option Datum}
    (hcovers : l.Covers block) (hmade : ∀ o ∈ block, o = c.operand o.node)
    (h : w.guards c.file r c.style (block.map (·.node)) s = some (stopped, s')) :
    s' = s ∧ ∀ v, stopped = some v → Nonempty (l.EndsRun w r c.style s v) := by
  obtain ⟨k, hk⟩ := hcovers.path
  obtain ⟨x, hx⟩ : ∃ x, w.pathValue r s l.path.baseKey l.path.hops = some x := by
    obtain ⟨rest, rfl⟩ := List.head?_eq_some_iff.1 hcovers.first
    obtain ⟨hof, -⟩ := c.check?_eq_some (hmade l.operand (by simp)) hk
    rw [List.map_cons, World.guards, w.eval_check r hof] at h
    obtain ⟨_, heval, -⟩ := Option.bind_eq_some_iff.1 h
    obtain ⟨x, hx, -⟩ := Option.map_eq_some_iff.1 heval
    exact ⟨x, hx⟩
  obtain ⟨hs, hstopped⟩ := c.guards_of_checks w r hcovers.checks hmade hx h
  refine ⟨hs, fun v hv ↦ ?_⟩
  obtain ⟨k', hmem, hcontinues, heq, hstops⟩ := hstopped v hv
  exact ⟨⟨x, k', hx, hmem, hcontinues, heq, hstops⟩⟩

/-- A run over the blocks of levels leaves the state, and ends only by a check of one of them. -/
theorem guards_of_levels {levels : List Level} {blocks : List (List Operand)} {s s' : σ}
    {stopped : Option Datum} (hcovers : List.Forall₂ Level.Covers levels blocks)
    (hmade : ∀ o ∈ blocks.flatten, o = c.operand o.node)
    (h : w.guards c.file r c.style (blocks.flatten.map (·.node)) s = some (stopped, s')) :
    s' = s ∧ ∀ v, stopped = some v → ∃ l ∈ levels, Nonempty (l.EndsRun w r c.style s v) := by
  induction hcovers with
  | nil =>
    cases h
    exact ⟨rfl, fun v hv ↦ by cases hv⟩
  | @cons l block levels blocks hl hrest ih =>
    rw [List.flatten_cons, List.map_append, World.guards_append] at h
    obtain ⟨⟨first, t⟩, hfirst, h⟩ := Option.bind_eq_some_iff.1 h
    obtain ⟨rfl, hends⟩ := c.guards_of_covers w r hl
      (fun o ho ↦ hmade o (by simp [ho])) hfirst
    cases first with
    | some u =>
      cases h
      refine ⟨rfl, fun v hv ↦ ?_⟩
      exact ⟨l, by simp, hends v hv⟩
    | none =>
      obtain ⟨hs, hstopped⟩ := ih (fun o ho ↦ hmade o (by
        rw [List.flatten_cons]
        exact List.mem_append_right _ ho)) h
      refine ⟨hs, fun v hv ↦ ?_⟩
      obtain ⟨l', hl', hrun⟩ := hstopped v hv
      exact ⟨l', by simp [hl'], hrun⟩

end ChainFinder

end OptionalChain
