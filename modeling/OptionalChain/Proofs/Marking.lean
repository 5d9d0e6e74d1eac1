import OptionalChain.Proofs.PathEvaluation

/-!
# Markers on the steps of a path

Steps of an expression are made optional by their number, counted from the base. The marked
expression has the same base and the same steps, and a walk that gets to the end without the
markers gets to the same place with them.

A walk that has come to a nullish value goes on only by a marker. It then skips the rest of the
chain; in a grouped reading it comes out of every parenthesis with an undefined value, so that
the next step has to be optional as well.
-/

namespace OptionalChain

/-! ## Marked hops -/

namespace Hop

def mark (h : Hop) (b : Bool) : Hop :=
  { h with optional := h.optional || b }

/-- Makes the hops optional whose numbers are told. -/
def markAll (m : Nat → Bool) (hs : List Hop) : List Hop :=
  hs.mapIdx fun i h ↦ h.mark (m i)

/-- What the hop reads. -/
def place (h : Hop) : StepKind × List Char :=
  (h.kind, h.key)

/-- Whether a walk that has skipped so far gets past the hop. -/
def isPassable (r : Reading) (h : Hop) : Bool :=
  r == .whole || !h.grouped || h.optional

/-- Whether a walk that stands at a nullish value gets to the end. -/
def escapes (r : Reading) : List Hop → Bool
  | [] => true
  | h :: hs => h.optional && hs.all (·.isPassable r)

theorem markAll_cons (m : Nat → Bool) (h : Hop) (hs : List Hop) :
    markAll m (h :: hs) = h.mark (m 0) :: markAll (fun i ↦ m (i + 1)) hs := by
  simp [markAll, List.mapIdx_cons]

theorem markAll_concat (m : Nat → Bool) (hs : List Hop) (h : Hop) :
    markAll m (hs ++ [h]) = markAll m hs ++ [h.mark (m hs.length)] := by
  simp [markAll, List.mapIdx_append]

@[simp]
theorem length_markAll (m : Nat → Bool) (hs : List Hop) : (markAll m hs).length = hs.length := by
  simp [markAll]

theorem map_place_markAll (m : Nat → Bool) (hs : List Hop) :
    (markAll m hs).map place = hs.map place := by
  induction hs generalizing m with
  | nil => rfl
  | cons h hs ih => rw [markAll_cons, List.map_cons, ih, List.map_cons]; rfl

theorem markAll_false (hs : List Hop) : markAll (fun _ ↦ false) hs = hs := by
  induction hs with
  | nil => rfl
  | cons h hs ih => rw [markAll_cons, ih]; simp [mark]

theorem getElem?_markAll (m : Nat → Bool) (hs : List Hop) (i : Nat) :
    (markAll m hs)[i]? = hs[i]?.map (·.mark (m i)) := by
  simp [markAll]

end Hop

/-! ## Walks -/

namespace World

variable {σ : Type} (w : World σ) (r : Reading) (s : σ)

theorem follow_mark {optional b : Bool} {kind : StepKind} {key : List Char} {l l' : Link}
    (h : w.follow s optional kind key l = some l') :
    w.follow s (optional || b) kind key l = some l' := by
  cases l with
  | skipped => exact h
  | reached v =>
    simp only [follow] at h ⊢
    split at h
    · rename_i hnullish
      rw [if_pos hnullish]
      split at h
      · rename_i hoptional
        simpa [hoptional] using h
      · cases h
    · rename_i hpresent
      rw [if_neg hpresent]
      exact h

/-- Markers change nothing where a walk gets to the end without them. -/
theorem walk_markAll {l l' : Link} {hs : List Hop} (m : Nat → Bool)
    (h : w.walk r s l hs = some l') : w.walk r s l (Hop.markAll m hs) = some l' := by
  induction hs generalizing l m with
  | nil => exact h
  | cons hop hs ih =>
    obtain ⟨next, hfollow, hrest⟩ := Option.bind_eq_some_iff.1 h
    rw [Hop.markAll_cons, walk]
    exact Option.bind_eq_some_iff.2 ⟨next, w.follow_mark s hfollow, ih _ hrest⟩

theorem walk_skipped (hs : List Hop) :
    w.walk r s .skipped hs = if hs.all (·.isPassable r) then some .skipped else none := by
  induction hs with
  | nil => rfl
  | cons h hs ih =>
    obtain ⟨kind, key, optional, grouped⟩ := h
    cases r <;> cases grouped <;> cases optional <;>
      simp [walk, follow, Reading.close, Link.value, Datum.isNullish, Hop.isPassable, ih]

theorem walk_nullish {v : Datum} (hv : v.isNullish = true) (h : Hop) (hs : List Hop) :
    w.walk r s (.reached v) (h :: hs) =
      if Hop.escapes r (h :: hs) then some .skipped else none := by
  have hclose : (if h.grouped then r.close (.reached v) else .reached v) = .reached v := by
    cases r <;> simp [Reading.close, Link.value]
  rw [walk, hclose]
  cases hoptional : h.optional with
  | true => simp [follow, hv, walk_skipped, Hop.escapes, hoptional]
  | false => simp [follow, hv, Hop.escapes, hoptional]

theorem walk_present {v : Datum} (hv : v.isNullish = false) (h : Hop) (hs : List Hop) :
    w.walk r s (.reached v) (h :: hs) =
      (w.read s h.kind h.key v).bind fun v ↦ w.walk r s (.reached v) hs := by
  have hclose : (if h.grouped then r.close (.reached v) else .reached v) = .reached v := by
    cases r <;> simp [Reading.close, Link.value]
  rw [walk, hclose, follow, hv, if_neg Bool.false_ne_true, Option.bind_map]
  rfl

/-- A walk on which a shorter walk meets a nullish value is skipped to its end or throws, as its
markers from that value on decide. -/
theorem exists_walk_eq {v : Datum} {l : Link} {gs ts : List Hop}
    (hlength : gs.length < ts.length) (hplace : gs.map Hop.place <+: ts.map Hop.place)
    (hwalk : w.walk r s (.reached v) gs = some l) (hnullish : l.value.isNullish = true) :
    ∃ j ≤ gs.length, Hop.escapes r (gs.drop j) = true ∧ w.walk r s (.reached v) ts =
      if Hop.escapes r (ts.drop j) then some .skipped else none := by
  induction gs generalizing v ts with
  | nil =>
    cases hwalk
    obtain ⟨t, ts, rfl⟩ := List.exists_cons_of_length_pos (show 0 < ts.length from hlength)
    exact ⟨0, Nat.le_refl 0, rfl, walk_nullish w r s hnullish t ts⟩
  | cons g gs ih =>
    obtain ⟨t, ts, rfl⟩ := List.exists_cons_of_length_pos (Nat.zero_lt_of_lt hlength)
    simp only [List.map_cons, List.cons_prefix_cons] at hplace
    obtain ⟨hhead, htail⟩ := hplace
    have hread : (g.kind, g.key) = (t.kind, t.key) := hhead
    cases hv : v.isNullish with
    | true =>
      rw [walk_nullish w r s hv] at hwalk
      have hg : Hop.escapes r (g :: gs) = true := by
        by_contra hno
        rw [if_neg hno] at hwalk
        cases hwalk
      exact ⟨0, Nat.zero_le _, hg, walk_nullish w r s hv t ts⟩
    | false =>
      rw [walk_present w r s hv] at hwalk ⊢
      obtain ⟨u, hu, hrest⟩ := Option.bind_eq_some_iff.1 hwalk
      rw [Prod.mk.injEq] at hread
      rw [← hread.1, ← hread.2, hu, Option.bind_some]
      obtain ⟨j, hj, hescapes, hskip⟩ := ih (by simpa using hlength) htail hrest
      exact ⟨j + 1, Nat.succ_le_succ hj, hescapes, hskip⟩

end World

/-! ## Marked expressions -/

namespace Node

/-- The number of steps down to the base. -/
def depth : Node → Nat
  | .paren _ e => e.depth
  | .nonNull _ e => e.depth
  | .member _ _ object _ => object.depth + 1
  | .call _ _ callee _ _ => callee.depth + 1
  | _ => 0

/-- Makes the steps of an access optional whose numbers are told. -/
def mark (m : Nat → Bool) : Node → Node
  | .paren s e => .paren s (e.mark m)
  | .nonNull s e => .nonNull s (e.mark m)
  | .member optional s object key =>
    .member (optional || m object.depth) s (object.mark m) key
  | .call optional s callee args typeArgs =>
    .call (optional || m callee.depth) s (callee.mark m) args typeArgs
  | n => n

@[simp]
theorem span_mark (m : Nat → Bool) (n : Node) : (n.mark m).span = n.span := by
  fun_cases mark m n <;> rfl

@[simp]
theorem closes_mark (m : Nat → Bool) (n : Node) : (n.mark m).closes = n.closes := by
  fun_induction mark m n with
  | case1 => simp [closes]
  | case2 s e ih => simp [closes, ih]
  | case3 => simp [closes]
  | case4 => simp [closes]
  | case5 => rfl

theorem mark_false (n : Node) : n.mark (fun _ ↦ false) = n := by
  fun_induction mark (fun _ ↦ false) n with
  | case1 s e ih => rw [ih]; rfl
  | case2 s e ih => rw [ih]; rfl
  | case3 optional s object key ih => rw [ih, Bool.or_false]; rfl
  | case4 optional s callee args typeArgs ih => rw [ih, Bool.or_false]; rfl
  | case5 => rfl

end Node

namespace AccessPath

@[simp]
theorem isCallee_mark (m : Nat → Bool) (n : Node) : isCallee (n.mark m) = isCallee n := by
  fun_cases Node.mark m n <;> rfl

variable {f : SourceFile} {n base : Node} {steps : List Step}

theorem Spine.depth_eq (h : Spine f n base steps) : n.depth = steps.length := by
  induction h with
  | base h =>
    obtain ⟨hparen, hnonNull, hmember, hcall⟩ := form_of_base? h
    rw [Node.depth, List.length_nil] <;> assumption
  | paren _ _ ih | nonNull _ _ ih => simpa [Node.depth] using ih
  | member _ _ _ _ ih | call _ _ _ _ _ _ ih => simp [Node.depth, ih]

theorem hop_ofMember_mark (m : Nat → Bool) (optional b : Bool) (span : Span) (object key : Node) :
    (Step.ofMember f (optional || b) (object.mark m) key
        (.member (optional || b) span (object.mark m) key)).hop =
      (Step.ofMember f optional object key (.member optional span object key)).hop.mark b := by
  simp only [Step.hop, Step.isGrouped_ofMember, Step.optional_ofMember, Hop.mark,
    Node.closes_mark]
  simp only [Step.ofMember, Node.span_mark]
  cases key.kind <;> rfl

theorem hop_ofCall_mark (m : Nat → Bool) (optional b : Bool) (span : Span)
    (callee args typeArgs : Node) :
    (Step.ofCall f (optional || b) (callee.mark m) typeArgs
        (.call (optional || b) span (callee.mark m) args typeArgs)).hop =
      (Step.ofCall f optional callee typeArgs
        (.call optional span callee args typeArgs)).hop.mark b := by
  simp only [Step.hop, Step.isGrouped_ofCall, Step.optional_ofCall, Hop.mark, Node.closes_mark]
  simp only [Step.ofCall, Node.span_mark]
  cases typeArgs.present? <;> rfl

/-- A marked expression has the base and the steps of the expression, and the markers. -/
theorem Spine.mark (m : Nat → Bool) (h : Spine f n base steps) :
    ∃ marked, Spine f (n.mark m) base marked ∧
      marked.map (·.hop) = Hop.markAll m (steps.map (·.hop)) := by
  induction h with
  | @base n h =>
    obtain ⟨hparen, hnonNull, hmember, hcall⟩ := form_of_base? h
    have hmark : n.mark m = n := by rw [Node.mark] <;> assumption
    exact ⟨[], hmark.symm ▸ .base h, rfl⟩
  | paren span _ ih =>
    obtain ⟨marked, hmarked, hhops⟩ := ih
    exact ⟨marked, .paren span hmarked, hhops⟩
  | nonNull span _ ih =>
    obtain ⟨marked, hmarked, hhops⟩ := ih
    exact ⟨marked, .nonNull span hmarked, hhops⟩
  | @member optional span object key base before hkey h ih =>
    obtain ⟨marked, hmarked, hhops⟩ := ih
    refine ⟨_, .member (optional || m object.depth) span hkey hmarked, ?_⟩
    have hdepth : object.depth = (before.map (·.hop)).length := by
      rw [h.depth_eq, List.length_map]
    rw [List.map_append, hhops, List.map_append, List.map_singleton, List.map_singleton,
      hop_ofMember_mark, hdepth]
    exact (Hop.markAll_concat m _ _).symm
  | @call optional span callee args base typeArgs before hcallee hargs h ih =>
    obtain ⟨marked, hmarked, hhops⟩ := ih
    refine ⟨_, .call (optional || m callee.depth) span typeArgs (by simpa using hcallee) hargs
      hmarked, ?_⟩
    have hdepth : callee.depth = (before.map (·.hop)).length := by
      rw [h.depth_eq, List.length_map]
    rw [List.map_append, hhops, List.map_append, List.map_singleton, List.map_singleton,
      hop_ofCall_mark, hdepth]
    exact (Hop.markAll_concat m _ _).symm

end AccessPath

end OptionalChain
