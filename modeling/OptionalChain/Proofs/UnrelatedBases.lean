import OptionalChain.Proofs.PlacedChains

/-!
# Unrelated bases

A run may go on with operands on other bases than those checked before. Levels that were begun
before such operands end there, and the numbers of operands count by their differences only, so the
search gives the chains of the first part and then those that it gives for the second part alone.
-/

namespace OptionalChain

/-! ## Operands on other bases -/

/-- The operand neither checks nor ends in a path on the base. -/
structure Operand.Avoids (o : Operand) (baseKey : List Char) : Prop where
  check : ∀ k ∈ o.check?, baseKey ≠ k.path.baseKey
  terminal : ∀ p ∈ o.terminal?, baseKey ≠ p.baseKey

namespace AccessPath

variable {p q : AccessPath} (h : p.baseKey ≠ q.baseKey)

include h

theorem leads_of_baseKey_ne : p.leads q = false :=
  Bool.eq_false_iff.2 fun hleads ↦ h (leads_iff.1 hleads).1

theorem sameAs_of_baseKey_ne : q.sameAs p = false :=
  Bool.eq_false_iff.2 fun hsame ↦ h (sameAs_iff.1 hsame).1.symm

theorem leadsStrictly_of_baseKey_ne : p.leadsStrictly q = false := by
  rw [leadsStrictly, leads_of_baseKey_ne h, Bool.and_false]

end AccessPath

namespace ChainFinder

theorem lastLevel?_of_avoids {current : Level} {index : Nat} {o : Operand}
    (h : o.Avoids current.path.baseKey) : lastLevel? current index o = none := by
  rw [lastLevel?, Option.map_eq_none_iff, Option.filter_eq_none_iff]
  intro p hp
  rw [AccessPath.leadsStrictly_of_baseKey_ne (h.terminal p hp)]
  exact Bool.false_ne_true

/-- A level ends before an operand that has nothing on its base. -/
theorem levelsFrom_of_avoids {current : Level} {ys : List Operand}
    (h : ∀ y ∈ ys, y.Avoids current.path.baseKey) (index : Nat) :
    levelsFrom current index ys = [current] := by
  cases ys with
  | nil => rfl
  | cons y ys =>
    have hy := h y List.mem_cons_self
    rw [levelsFrom, lastLevel?_of_avoids hy]
    cases hcheck : y.check? with
    | none => rfl
    | some k =>
      have hne := hy.check k hcheck
      dsimp only
      rw [AccessPath.sameAs_of_baseKey_ne hne, AccessPath.leadsStrictly_of_baseKey_ne hne]
      rfl

/-- Levels do not reach into operands that have nothing on the bases checked before. -/
theorem levelsFrom_append (current : Level) {xs ys : List Operand} (index : Nat)
    (hcurrent : ∀ y ∈ ys, y.Avoids current.path.baseKey)
    (hxs : ∀ x ∈ xs, ∀ k ∈ x.check?, ∀ y ∈ ys, y.Avoids k.path.baseKey) :
    levelsFrom current index (xs ++ ys) = levelsFrom current index xs := by
  induction xs generalizing current index with
  | nil => exact levelsFrom_of_avoids hcurrent index
  | cons x xs ih =>
    obtain ⟨hx, hxs⟩ := List.forall_mem_cons.1 hxs
    rw [List.cons_append, levelsFrom, levelsFrom]
    cases hcheck : x.check? with
    | none => rfl
    | some k =>
      dsimp only
      rw [ih { current with checks := current.checks ++ [k.kind] } _ hcurrent hxs,
        ih ⟨k.path, x, index, [k.kind]⟩ _ (hx k hcheck) hxs]

theorem levelsAt_append {x : Operand} {xs ys : List Operand} (index : Nat)
    (hxs : ∀ x' ∈ x :: xs, ∀ k ∈ x'.check?, ∀ y ∈ ys, y.Avoids k.path.baseKey) :
    levelsAt index x (xs ++ ys) = levelsAt index x xs := by
  obtain ⟨hx, hxs⟩ := List.forall_mem_cons.1 hxs
  unfold levelsAt
  cases hcheck : x.check? with
  | none => rfl
  | some k => exact levelsFrom_append _ _ (hx k hcheck) hxs

end ChainFinder

/-! ## Numbers of operands -/

/-- The level in a run with `n` more operands before it. -/
def Level.shift (n : Nat) (l : Level) : Level :=
  { l with index := l.index + n }

@[simp]
theorem Level.path_shift (n : Nat) (l : Level) : (l.shift n).path = l.path := rfl

namespace ChainFinder

theorem lastLevel?_shift (current : Level) (index n : Nat) (o : Operand) :
    lastLevel? (current.shift n) (index + n) o =
      (lastLevel? current index o).map (·.shift n) := by
  rw [lastLevel?, lastLevel?, Option.map_map]
  rfl

theorem levelsFrom_shift (current : Level) (index n : Nat) (os : List Operand) :
    levelsFrom (current.shift n) (index + n) os =
      (levelsFrom current index os).map (·.shift n) := by
  have hlast (current : Level) (index : Nat) (o : Operand) :
      current.shift n :: (lastLevel? (current.shift n) (index + n) o).toList =
        (current :: (lastLevel? current index o).toList).map (·.shift n) := by
    rw [lastLevel?_shift, Option.toList_map, List.map_cons]
  induction os generalizing current index with
  | nil => rfl
  | cons o os ih =>
    rw [levelsFrom, levelsFrom, Nat.add_right_comm]
    cases hcheck : o.check? with
    | none => exact hlast current index o
    | some k =>
      by_cases hsame : k.path.sameAs current.path = true
      · simp only [Level.path_shift, hsame, if_true]
        exact ih { current with checks := current.checks ++ [k.kind] } (index + 1)
      · by_cases hleads : current.path.leadsStrictly k.path = true
        · simp only [Level.path_shift, hsame, hleads, if_true, Bool.false_eq_true, if_false]
          exact congrArg _ (ih ⟨k.path, o, index, [k.kind]⟩ (index + 1))
        · simp only [Level.path_shift, hsame, hleads, Bool.false_eq_true, if_false]
          exact hlast current index o

theorem levelsAt_shift (index n : Nat) (o : Operand) (os : List Operand) :
    levelsAt (index + n) o os = (levelsAt index o os).map (·.shift n) := by
  unfold levelsAt
  cases o.check? with
  | none => rfl
  | some k =>
    dsimp only
    rw [← levelsFrom_shift, Nat.add_right_comm]
    rfl

variable {c : ChainFinder} (levels : List Level) (n : Nat)

theorem deepest_shift : c.deepest (levels.map (·.shift n)) = c.deepest levels := by
  rw [deepest, deepest, List.findIdx_map, List.length_map]
  rfl

theorem truncation?_shift : c.truncation? (levels.map (·.shift n)) = c.truncation? levels := by
  rw [truncation?, truncation?, deepest_shift, List.getElem?_map, Option.map_map, List.length_map]
  rfl

theorem terminalAt?_shift (t : Nat) :
    terminalAt? (levels.map (·.shift n)) t =
      (terminalAt? levels t).map fun found ↦ (found.1.shift n, found.2) := by
  unfold terminalAt?
  rw [List.getElem?_map, List.getElem?_map]
  cases levels[t]? with
  | none => rfl
  | some before =>
    cases levels[t + 1]? with
    | none => rfl
    | some last =>
      dsimp [Level.shift]
      cases last.operand.terminal?.filter before.path.leadsStrictly <;> rfl

theorem chainWithin_shift (first : Level) (t : Nat) :
    c.chainWithin (levels.map (·.shift n)) (first.shift n) t = c.chainWithin levels first t := by
  induction t with
  | zero => rfl
  | succ t ih =>
    rw [chainWithin, chainWithin, terminalAt?_shift, ih]
    cases terminalAt? levels t with
    | none => rfl
    | some found =>
      have hoperands : found.1.index + n + 1 - (first.index + n) =
          found.1.index + 1 - first.index := by omega
      simp only [Option.map_some, Level.shift, hoperands, ← List.map_take, List.map_map]
      rfl

theorem settle_shift : c.settle (levels.map (·.shift n)) = c.settle levels := by
  unfold settle
  rw [List.head?_map, deepest_shift]
  cases levels.head? with
  | none => rfl
  | some first => exact chainWithin_shift levels n first _

/-- A search does not depend on how many operands come before. -/
theorem searchFrom_shift (skip index : Nat) (os : List Operand) :
    c.searchFrom skip (index + n) os = c.searchFrom skip index os := by
  induction os generalizing skip index with
  | nil => rfl
  | cons o os ih =>
    cases skip with
    | succ skip =>
      rw [searchFrom, searchFrom, Nat.add_right_comm]
      exact ih skip (index + 1)
    | zero =>
      rw [searchFrom, searchFrom, levelsAt_shift, settle_shift, truncation?_shift,
        Nat.add_right_comm, ih]

end ChainFinder

/-! ## Two parts of a run -/

namespace ChainFinder

theorem operands_le_of_chainAt? {c : ChainFinder} {operands : List Node} {start : Nat}
    {chain : Chain} (h : c.chainAt? operands start = some chain) :
    start + chain.operands ≤ operands.length := by
  obtain ⟨hlt, -⟩ := List.getElem?_eq_some_iff.1 (getElem?_of_chainAt? h)
  omega

variable (c : ChainFinder)

/-- No operand of the first part checks a path on a base that an operand of the second part checks
or ends in a path on. -/
def Unrelated (xs ys : List Node) : Prop :=
  ∀ x ∈ xs, ∀ k ∈ Check.of? c.file x, ∀ y ∈ ys,
    (∀ l ∈ Check.of? c.file y, k.path.baseKey ≠ l.path.baseKey) ∧
      ∀ p ∈ terminalPath? c.file c.style y, k.path.baseKey ≠ p.baseKey

instance (xs ys : List Node) : Decidable (c.Unrelated xs ys) :=
  inferInstanceAs (Decidable (∀ x ∈ xs, ∀ k ∈ Check.of? c.file x, ∀ y ∈ ys, _ ∧ _))

variable {c} {xs ys : List Node}

theorem Unrelated.avoids (h : c.Unrelated xs ys) :
    ∀ x ∈ xs.map c.operand, ∀ k ∈ x.check?, ∀ y ∈ ys.map c.operand, y.Avoids k.path.baseKey := by
  refine List.forall_mem_map.2 fun x hx k hk ↦ List.forall_mem_map.2 fun y hy ↦ ?_
  obtain ⟨hcheck, hterminal⟩ := h x hx k (Option.filter_eq_some_iff.1 hk).1 y hy
  exact ⟨fun l hl ↦ hcheck l (Option.filter_eq_some_iff.1 hl).1, hterminal⟩

/-- The search leaves the first part at its end, wherever it was, and goes on as if it began
there. -/
theorem searchFrom_append {skip : Nat} (index : Nat) (h : c.Unrelated xs ys)
    (hskip : skip ≤ xs.length) :
    c.searchFrom skip index ((xs ++ ys).map c.operand) =
      c.searchFrom skip index (xs.map c.operand) ++ c.search ys := by
  induction xs generalizing skip index with
  | nil =>
    obtain rfl : skip = 0 := Nat.le_zero.1 hskip
    rw [search, ← searchFrom_shift index 0 0, Nat.zero_add]
    rfl
  | cons x xs ih =>
    have hrest : c.Unrelated xs ys := fun x' hx' ↦ h x' (List.mem_cons_of_mem x hx')
    rw [List.cons_append, List.map_cons, List.map_cons]
    cases skip with
    | succ skip =>
      rw [searchFrom, searchFrom]
      exact ih (index + 1) hrest (Nat.le_of_succ_le_succ hskip)
    | zero =>
      have hlevels : levelsAt index (c.operand x) ((xs ++ ys).map c.operand) =
          levelsAt index (c.operand x) (xs.map c.operand) := by
        rw [List.map_append]
        exact levelsAt_append index h.avoids
      rw [searchFrom, searchFrom, hlevels, List.cons_append]
      -- A chain that starts here ends within the first part.
      refine congrArg _ (ih (index + 1) hrest ?_)
      cases hchain : c.settle (levelsAt index (c.operand x) (xs.map c.operand)) with
      | none => exact Nat.zero_le _
      | some chain =>
        rw [← Nat.zero_add index, levelsAt_shift, settle_shift] at hchain
        have hle : 0 + chain.operands ≤ (x :: xs).length := operands_le_of_chainAt? hchain
        rw [Option.map_some, Option.getD_some]
        rw [List.length_cons] at hle
        omega

/-- When the operands before a place in a run check no path on a base of those after it, the search
finds the chains of the first part and then those of the second, and it gives up the same levels as
in two searches. -/
theorem unrelated_parts_searched_apart (h : c.Unrelated xs ys) :
    c.find (xs ++ ys) = c.find xs ++ c.find ys ∧
      c.truncations (xs ++ ys) = c.truncations xs ++ c.truncations ys := by
  have hsearch : c.search (xs ++ ys) = c.search xs ++ c.search ys :=
    searchFrom_append 0 h (Nat.zero_le _)
  unfold find truncations
  rw [hsearch, List.filterMap_append, List.filterMap_append]
  exact ⟨rfl, rfl⟩

def unrelatedGuards : ChainFinder :=
  inText .and "a.b && a.b.c && c.d && c.d.e;"

/-- The levels on `a` are still open where the checks on `c` begin. -/
theorem unrelated_guards_searched_apart :
    unrelatedGuards.Unrelated (unrelatedGuards.firstRun.take 2)
        (unrelatedGuards.firstRun.drop 2) ∧
      (unrelatedGuards.find (unrelatedGuards.firstRun.take 2 ++
        unrelatedGuards.firstRun.drop 2)).map (·.terminalPath.render) =
          ["a.b.c".toList, "c.d.e".toList] ∧
      unrelatedGuards.find (unrelatedGuards.firstRun.take 2 ++ unrelatedGuards.firstRun.drop 2) =
        unrelatedGuards.find (unrelatedGuards.firstRun.take 2) ++
          unrelatedGuards.find (unrelatedGuards.firstRun.drop 2) := by
  have hunrelated : unrelatedGuards.Unrelated (unrelatedGuards.firstRun.take 2)
      (unrelatedGuards.firstRun.drop 2) := by decide +kernel
  exact ⟨hunrelated, by decide +kernel, (unrelated_parts_searched_apart hunrelated).1⟩

end ChainFinder

end OptionalChain
