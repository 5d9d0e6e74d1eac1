import OptionalChain.Proofs.NestedSpans
import OptionalChain.Proofs.Placement.Cursor
import OptionalChain.Proofs.Placement.Targets

/-!
# Nodes in a text

A node sits in a text if its span is cut out of the text and its parts stand in it in the order of
the text. A place has a node if the node sits in the text that was read before the place. Nothing is
said of a node in which an operand was missing, and nothing is said at a place that is stuck.
-/

namespace OptionalChain

open Text (At Boundary)

namespace Node

/-- No operand is missing in the node. -/
def Whole (n : Node) : Prop :=
  ∀ m ∈ n.preorder, m.kind ≠ .invalid

instance (n : Node) : Decidable n.Whole :=
  inferInstanceAs (Decidable (∀ m ∈ n.preorder, m.kind ≠ .invalid))

/-- How the parts of a node stand in it. Names are spelled by their text, and what is returned,
thrown or yielded starts on the line of the word before it. -/
def Shape (text : List Char) : Node → Prop
  | .binary _ s left right =>
    s.lo = left.span.lo ∧ left.span.lo ≤ left.span.hi ∧ left.span.hi ≤ right.span.lo ∧
      right.span.lo ≤ right.span.hi ∧ right.span.hi = s.hi
  | .member _ s object key =>
    s.lo = object.span.lo ∧ object.span.hi ≤ key.span.lo ∧ key.span.lo ≤ key.span.hi ∧
      key.span.hi ≤ s.hi
  | .call _ s callee args typeArgs =>
    s.lo = callee.span.lo ∧ callee.span.hi ≤ args.span.lo ∧ args.span.hi ≤ s.hi ∧
      (typeArgs.isAbsent = true ∨
        callee.span.hi ≤ typeArgs.span.lo ∧ typeArgs.span.hi ≤ args.span.lo)
  | .nonNull s e => s.lo = e.span.lo ∧ e.span.hi ≤ s.hi
  | .paren s e => s.lo ≤ e.span.lo ∧ e.span.hi ≤ s.hi
  | .unary _ s e => s.lo ≤ e.span.lo ∧ e.span.hi = s.hi
  | .mk (.argument _) s [e] => s.lo ≤ e.span.lo ∧ e.span.hi ≤ s.hi
  | .mk (.ident name) s _ => s.Spells text name
  | .mk (.name name) s _ => s.Spells text name
  | .mk (.pattern (.name name _)) s _ => s.Spells text name
  | .mk (.statement .returning) s [value] =>
    value.isAbsent = true ∨ Text.KeepsLine text s.lo "return"
  | .mk (.statement .throwing) s _ => Text.KeepsLine text s.lo "throw"
  | .mk .yield s [value] => value.isAbsent = true ∨ Text.KeepsLine text s.lo "yield"
  | _ => True

/-- The node lies in the text before `stop`. Where an interface extends nothing, the place of what
it extends is none. -/
structure Sits (text : List Char) (stop : Nat) (n : Node) : Prop where
  lo : Boundary text n.span.lo
  hi : Boundary text n.span.hi
  forward : n.kind = .type .heritages ∨ n.span.lo ≤ n.span.hi
  hi_le : n.span.hi ≤ stop
  shape : n.Shape text

variable {text : List Char} {n m : Node} {stop stop' : Nat}

theorem Sits.mono (h : n.Sits text stop) (hle : stop ≤ stop') : n.Sits text stop' :=
  { h with hi_le := Nat.le_trans h.hi_le hle }

theorem Whole.of_mem_children (h : n.Whole) (hm : m ∈ n.children) : m.Whole :=
  fun k hk ↦ h k (preorder_subset_of_mem_children hm hk)

theorem Whole.of_mem {kind : Kind} {s : Span} {cs : List Node} (h : (mk kind s cs).Whole)
    (hm : m ∈ cs) : m.Whole :=
  Whole.of_mem_children h hm

theorem not_whole_invalid (s : Span) (cs : List Node) : ¬(mk .invalid s cs).Whole :=
  fun h ↦ h _ (self_mem_preorder _) rfl

theorem mem_preorder_mk {kind : Kind} {s : Span} {cs : List Node} :
    m ∈ (mk kind s cs).preorder ↔ m = mk kind s cs ∨ ∃ k ∈ cs, m ∈ k.preorder := by
  rw [preorder, preorderAll_eq_flatMap, List.mem_cons, List.mem_flatMap]

theorem whole_mk {kind : Kind} {s : Span} {cs : List Node} :
    (mk kind s cs).Whole ↔ kind ≠ .invalid ∧ ∀ m ∈ cs, m.Whole := by
  constructor
  · exact fun h ↦ ⟨h _ (self_mem_preorder _), fun m hm ↦ h.of_mem hm⟩
  · rintro ⟨hkind, hcs⟩ m hm
    obtain rfl | ⟨k, hk, hm⟩ := mem_preorder_mk.1 hm
    · exact hkind
    · exact hcs k hk m hm

end Node

/-- Kinds that say nothing of the places of the node's parts. -/
def Kind.isPlain : Kind → Bool
  | .binary _ | .member _ | .call _ | .nonNull | .paren | .unary _ | .argument _ | .ident _
  | .name _ | .pattern (.name _ _) | .statement .returning | .statement .throwing | .yield => false
  | _ => true

theorem Node.shape_of_isPlain {text : List Char} {kind : Kind} {s : Span} {cs : List Node}
    (h : kind.isPlain = true) : (Node.mk kind s cs).Shape text := by
  unfold Shape
  split
  all_goals first
    | trivial
    | rename_i heq
      cases heq
      cases h

/-- Kinds that say nothing of the node's parts. -/
def Kind.isCommon (kind : Kind) : Bool :=
  kind.isPlain && !kind.hasTargets

theorem Kind.isPlain_of_isCommon {kind : Kind} (h : kind.isCommon = true) : kind.isPlain = true :=
  (Bool.and_eq_true_iff.1 h).1

theorem Kind.hasTargets_of_isCommon {kind : Kind} (h : kind.isCommon = true) :
    kind.hasTargets = false := by
  simpa using (Bool.and_eq_true_iff.1 h).2

/-- Kinds of keys that stand after a dot. -/
def Kind.isDotted : Kind → Bool
  | .name _ | .privateName _ => true
  | _ => false

/-- Kinds of nodes that an access path goes through. -/
def Kind.onPath (kind : Kind) : Bool :=
  match kind with
  | .paren | .nonNull | .member _ | .call _ | .await => true
  | kind => AccessPath.isBaseKind kind

namespace Node

/-- What the step of a node is taken from. -/
def stepBase? : Node → Option Node
  | .member _ _ object _ => some object
  | .call _ _ callee _ _ => some callee
  | _ => none

/-- The token that a step starts with, and where it stands in the step. -/
def StepsWith : Node → Token → Prop
  | .member true s _ _, t | .call true s _ _ _, t =>
    t.form = .punct .questionDot ∧ t.span.hi ≤ s.hi
  | .member false s _ key, t =>
    t.span.lo < s.hi ∧ t.span.lo ≤ key.span.lo ∧
      if key.kind.isDotted then t.form = .punct .dot
      else t.form = .punct .lbrack ∧ t.span.lo = key.span.lo
  | .call false s _ _ typeArgs, t =>
    t.span.lo < s.hi ∧
      if typeArgs.isAbsent then t.form = .punct .lparen
      else (t.form = .punct (.op .lt) ∨ t.form = .punct (.op .shl)) ∧
        t.span.lo = typeArgs.span.lo
  | _, _ => True

/-- What stands between the callee of a call and its arguments ends before the call does. -/
def EndsStep : Node → Prop
  | .call _ s callee _ typeArgs => callee.span.hi ≤ s.hi ∧ typeArgs.span.lo ≤ s.hi
  | _ => True

theorem endsStep_of_stepBase? {n : Node} (h : n.stepBase? = none) : n.EndsStep := by
  unfold EndsStep
  split
  · cases h
  · trivial

theorem stepBase?_eq_none {kind : Kind} {s : Span} {cs : List Node} (h : kind.isPlain = true) :
    (mk kind s cs).stepBase? = none := by
  unfold stepBase?
  split
  all_goals first
    | rfl
    | rename_i heq
      cases heq
      cases h

end Node

namespace Grammar.Place

variable {text : List Char} {c d : Place text} {lo lo' stop stop' : Nat} {n m : Node}

/-- What stands between an operand and the step after it: the token of the step. -/
structure Joins (c : Place text) (n : Node) : Prop where
  ends : n.EndsStep
  meets : ∀ base, n.stepBase? = some base → base.kind.onPath = true →
    c.Meets base.span.hi n.StepsWith

/-- Where a path may go through the node, the token at the place follows it. -/
def Trails (c : Place text) (n : Node) : Prop :=
  n.kind.onPath = true → c.Follows n.span.hi

/-- The node sits in the text before `stop`, and no comment lies around its ends and its tokens. -/
structure Seats (c : Place text) (stop : Nat) (n : Node) : Prop where
  sits : n.Sits text stop
  opens : c.Opens n.span.lo
  closes : c.Closes n.span.hi
  joins : c.Joins n

/-- All of the node sits in the text before `stop`. -/
def LiesUpTo (c : Place text) (stop : Nat) (n : Node) : Prop :=
  c.stuck = false → n.Whole → ∀ m ∈ n.preorder, c.Seats stop m

/-- Where no error was noted, the targets of the node are not part of optional chains. -/
def Clears (c : Place text) (n : Node) : Prop :=
  c.errors = [] → ∀ t ∈ n.targets, t.inChain = false

/-- Where no error was noted, the node is admissible. -/
def Admits (c : Place text) (n : Node) : Prop :=
  c.errors = [] → n.Admissible

/-- All of the node sits in the text before `stop`, and it is admissible. -/
structure HoldsUpTo (c : Place text) (stop : Nat) (n : Node) : Prop where
  lies : c.LiesUpTo stop n
  admits : c.Admits n

/-- The node also starts at `lo` or later, and it does not end before it starts. -/
structure HasUpTo (c : Place text) (lo stop : Nat) (n : Node) : Prop where
  placed : c.stuck = false → n.Whole →
    lo ≤ n.span.lo ∧ n.span.lo ≤ n.span.hi ∧ ∀ m ∈ n.preorder, c.Seats stop m
  admits : c.Admits n

/-- The node starts at `lo` or later and was read last. -/
structure HasLast (c : Place text) (lo : Nat) (n : Node) : Prop where
  has : c.HasUpTo lo c.prevEnd n
  trails : c.Trails n

/-- All of the node was read before the place. -/
abbrev Holds (c : Place text) (n : Node) : Prop :=
  c.HoldsUpTo c.prevEnd n

/-- The node starts at `lo` or later and was read before the place. -/
abbrev Has (c : Place text) (lo : Nat) (n : Node) : Prop :=
  c.HasUpTo lo c.prevEnd n

theorem trails_of_prevEnd (h : c.prevEnd = n.span.hi) : c.Trails n :=
  fun _ ↦ follows_of_prevEnd h

theorem trails_of_onPath (h : n.kind.onPath = false) : c.Trails n :=
  fun hpath ↦ absurd hpath (by simp [h])

theorem Trails.of_sameSpot (h : c.Trails n) (hspot : c.SameSpot d) : d.Trails n :=
  fun hpath ↦ (h hpath).of_sameSpot hspot

/-- A mark at the place stands between the node and what is read after the mark. -/
theorem Trails.meets {Q : Token → Prop} {q : Punct} (h : c.Trails n) (hpath : n.kind.onPath = true)
    (hform : c.cursor.token.form = .punct q) (hle : c ≤ d) (hQ : Q c.cursor.token) :
    d.Meets n.span.hi Q := by
  have hfree : c.stuck = false := c.free_of_form (by simp [hform])
  exact ((h hpath).meets hfree (by simp [hform]) hQ).imp fun _ hlo ↦ hlo.mono hle

theorem Joins.imp (h : c.Joins n) (hopens : ∀ lo, c.Opens lo → d.Opens lo) : d.Joins n :=
  ⟨h.ends, fun base hbase hpath ↦ (h.meets base hbase hpath).imp hopens⟩

theorem joins_of_stepBase? (h : n.stepBase? = none) : c.Joins n := by
  refine ⟨Node.endsStep_of_stepBase? h, fun base hbase ↦ ?_⟩
  rw [h] at hbase
  cases hbase

theorem joins_of_isPlain {kind : Kind} {s : Span} {cs : List Node} (h : kind.isPlain = true) :
    c.Joins (.mk kind s cs) :=
  joins_of_stepBase? (Node.stepBase?_eq_none h)

theorem Seats.mono (h : c.Seats stop n) (hle : c ≤ d) (hstop : stop ≤ stop') : d.Seats stop' n :=
  ⟨h.sits.mono hstop, h.opens.mono hle, h.closes.mono hle,
    h.joins.imp fun _ hlo ↦ hlo.mono hle⟩

/-- Where a node sits does not depend on what was noted. -/
theorem Seats.of_sameSpot (h : c.Seats stop n) (hspot : c.SameSpot d) : d.Seats stop n :=
  ⟨h.sits, h.opens.of_sameSpot hspot, h.closes.of_sameSpot hspot,
    h.joins.imp fun _ hlo ↦ hlo.of_sameSpot hspot⟩

theorem Admits.of_le (h : c.Admits n) (hle : c ≤ d) : d.Admits n :=
  fun herrors ↦ h (errors_of_le hle herrors)

theorem clears_of_hasTargets {kind : Kind} {s : Span} {cs : List Node}
    (h : kind.hasTargets = false) : c.Clears (.mk kind s cs) := by
  intro _ t ht
  rw [Node.targets_eq_nil h] at ht
  cases ht

/-- A node is admissible with its parts. -/
theorem Clears.admits {kind : Kind} {s : Span} {cs : List Node} (h : c.Clears (.mk kind s cs))
    (hparts : ∀ m ∈ cs, c.Admits m) : c.Admits (.mk kind s cs) :=
  fun herrors ↦ .mk (h herrors) fun m hm ↦ hparts m hm herrors

theorem admits_leaf {kind : Kind} {s : Span} (h : kind.hasTargets = false) :
    c.Admits (.mk kind s []) :=
  (clears_of_hasTargets h).admits fun _ hm ↦ by cases hm

theorem admits_of_isType (h : n.IsType) : c.Admits n :=
  fun _ ↦ h.admissible

theorem clears_of_steps {es : List Node} (htargets : n.targets = es.filter Node.isStep)
    (h : c.errors = [] → ∀ e ∈ es, e.isStep = true → e.inChain = false) : c.Clears n := by
  intro herrors t ht
  rw [htargets, List.mem_filter] at ht
  exact h herrors t ht.1 ht.2

theorem clears_of_core {e : Node} (htargets : n.targets = [e.core])
    (h : c.errors = [] → e.core.inChain = false) : c.Clears n := by
  intro herrors t ht
  rw [htargets, List.mem_singleton] at ht
  rw [ht]
  exact h herrors

/-- Where a node lies does not depend on what was noted. -/
theorem LiesUpTo.of_sameSpot (h : c.LiesUpTo c.prevEnd n) (hspot : c.SameSpot d) :
    d.LiesUpTo d.prevEnd n := by
  intro hfree hwhole m hm
  rw [← hspot.prevEnd]
  exact (h (hspot.stuck.trans hfree) hwhole m hm).of_sameSpot hspot

theorem HoldsUpTo.mono (h : c.HoldsUpTo stop n) (hle : c ≤ d) (hstop : stop ≤ stop') :
    d.HoldsUpTo stop' n where
  lies hfree hwhole m hm := (h.lies (free_of_le hle hfree) hwhole m hm).mono hle hstop
  admits := h.admits.of_le hle

theorem HoldsUpTo.of_le (h : c.Holds n) (hle : c ≤ d) : d.Holds n :=
  h.mono hle (prevEnd_le hle)

theorem HasUpTo.mono (h : c.HasUpTo lo stop n) (hle : c ≤ d) (hlo : lo' ≤ lo)
    (hstop : stop ≤ stop') : d.HasUpTo lo' stop' n where
  placed hfree hwhole := by
    obtain ⟨hn, hforward, hall⟩ := h.placed (free_of_le hle hfree) hwhole
    exact ⟨Nat.le_trans hlo hn, hforward, fun m hm ↦ (hall m hm).mono hle hstop⟩
  admits := h.admits.of_le hle

theorem HasUpTo.of_le (h : c.Has lo n) (hle : c ≤ d) : d.Has lo n :=
  h.mono hle (Nat.le_refl _) (prevEnd_le hle)

theorem HasUpTo.of_sameSpot (h : c.Has lo n) (hspot : c.SameSpot d) (hadmits : d.Admits n) :
    d.Has lo n where
  placed hfree hwhole := by
    obtain ⟨hn, hforward, hall⟩ := h.placed (hspot.stuck.trans hfree) hwhole
    rw [← hspot.prevEnd]
    exact ⟨hn, hforward, fun m hm ↦ (hall m hm).of_sameSpot hspot⟩
  admits := hadmits

theorem HasUpTo.holds (h : c.HasUpTo lo stop n) : c.HoldsUpTo stop n where
  lies hfree hwhole := (h.placed hfree hwhole).2.2
  admits := h.admits

/-- As a part of a node that ends later. -/
theorem HasUpTo.part (h : c.Has lo n) (hle : c ≤ d) : d.Holds n :=
  h.holds.of_le hle

theorem HasUpTo.seats (h : c.HasUpTo lo stop n) (hfree : c.stuck = false) (hwhole : n.Whole) :
    c.Seats stop n :=
  (h.placed hfree hwhole).2.2 n n.self_mem_preorder

theorem HasUpTo.sits (h : c.HasUpTo lo stop n) (hfree : c.stuck = false) (hwhole : n.Whole) :
    n.Sits text stop :=
  (h.seats hfree hwhole).sits

/-- A node that was read takes up text between its start and the place. -/
theorem HasUpTo.le (h : c.HasUpTo lo stop n) (hfree : c.stuck = false) (hwhole : n.Whole) :
    lo ≤ stop := by
  have hn := h.placed hfree hwhole
  have hhi := (h.sits hfree hwhole).hi_le
  omega

theorem has_invalid (s : Span) : c.HasUpTo lo stop (.mk .invalid s []) where
  placed _ hwhole := (Node.not_whole_invalid s [] hwhole).elim
  admits := admits_leaf rfl

theorem seats_absent : ∀ m ∈ Node.absent.preorder, c.Seats stop m := by
  intro m hm
  obtain rfl | ⟨k, hk, -⟩ := Node.mem_preorder_mk.1 hm
  · exact ⟨⟨.zero text, .zero text, .inr (Nat.le_refl _), Nat.zero_le _,
      Node.shape_of_isPlain rfl⟩, ⟨.zero text, Nat.zero_le _, Comment.outside_zero _⟩,
      ⟨.zero text, Nat.zero_le _, Comment.outside_zero _⟩, joins_of_isPlain rfl⟩
  · cases hk

theorem holds_absent : c.HoldsUpTo stop .absent where
  lies _ _ := seats_absent
  admits := admits_leaf rfl

/-- A node that no path goes through. -/
theorem HasUpTo.last {kind : Kind} (h : c.Has lo n) (hkind : n.kind = kind)
    (hpath : kind.onPath = false) : c.HasLast lo n :=
  ⟨h, trails_of_onPath (hkind ▸ hpath)⟩

theorem HasLast.of_sameSpot (h : c.HasLast lo n) (hspot : c.SameSpot d) (hadmits : d.Admits n) :
    d.HasLast lo n :=
  ⟨h.has.of_sameSpot hspot hadmits, h.trails.of_sameSpot hspot⟩

/-- A node is there if its parts are and it sits in the text itself, all supposed to be whole. -/
theorem has_of_parts {kind : Kind} {s : Span} {cs : List Node}
    (h : c.stuck = false → (∀ m ∈ cs, m.Whole) → lo ≤ s.lo ∧ s.lo ≤ s.hi ∧
      c.Seats stop (.mk kind s cs) ∧ ∀ k ∈ cs, ∀ m ∈ k.preorder, c.Seats stop m)
    (hadmits : c.Admits (.mk kind s cs)) : c.HasUpTo lo stop (.mk kind s cs) where
  placed hfree hwhole := by
    obtain ⟨hlo, hforward, hself, hparts⟩ := h hfree fun m hm ↦ hwhole.of_mem hm
    refine ⟨hlo, hforward, fun m hm ↦ ?_⟩
    obtain rfl | ⟨k, hk, hm⟩ := Node.mem_preorder_mk.1 hm
    · exact hself
    · exact hparts k hk m hm
  admits := hadmits

theorem holds_mk {kind : Kind} {s : Span} {cs : List Node} (hparts : ∀ m ∈ cs, c.HoldsUpTo stop m)
    (htargets : c.Clears (.mk kind s cs))
    (hself : c.stuck = false → (∀ m ∈ cs, m.Whole) → c.Seats stop (.mk kind s cs)) :
    c.HoldsUpTo stop (.mk kind s cs) where
  lies hfree hwhole m hm := by
    obtain rfl | ⟨k, hk, hm⟩ := Node.mem_preorder_mk.1 hm
    · exact hself hfree fun m hm ↦ hwhole.of_mem hm
    · exact (hparts k hk).lies hfree (hwhole.of_mem hk) m hm
  admits := htargets.admits fun m hm ↦ (hparts m hm).admits

/-- A node is there with its parts. -/
theorem has_mk {kind : Kind} {s : Span} {cs : List Node} (hparts : ∀ m ∈ cs, c.HoldsUpTo stop m)
    (htargets : c.Clears (.mk kind s cs))
    (hself : c.stuck = false → (∀ m ∈ cs, m.Whole) →
      lo ≤ s.lo ∧ s.lo ≤ s.hi ∧ c.Seats stop (.mk kind s cs)) :
    c.HasUpTo lo stop (.mk kind s cs) := by
  refine has_of_parts (fun hfree hwhole ↦ ?_) (htargets.admits fun m hm ↦ (hparts m hm).admits)
  obtain ⟨hlo, hforward, hsits⟩ := hself hfree hwhole
  exact ⟨hlo, hforward, hsits, fun k hk ↦ (hparts k hk).lies hfree (hwhole k hk)⟩

/-- A node between two ends sits in the text if its parts stand in it as they should. -/
theorem seats_mk {kind : Kind} {s : Span} {cs : List Node} (hopens : c.Opens s.lo)
    (hcloses : c.Closes s.hi) (hforward : kind = .type .heritages ∨ s.lo ≤ s.hi)
    (hstop : s.hi ≤ stop) (hshape : (Node.mk kind s cs).Shape text)
    (hjoins : c.Joins (.mk kind s cs)) : c.Seats stop (.mk kind s cs) :=
  ⟨⟨hopens.boundary, hcloses.boundary, hforward, hstop, hshape⟩, hopens, hcloses, hjoins⟩

/-- A node of another kind that sits where the node does. -/
theorem Seats.recast {kind kind' : Kind} {s : Span} {cs cs' : List Node}
    (h : c.Seats stop (.mk kind s cs)) (hkind : kind ≠ .type .heritages)
    (hkind' : kind'.isPlain = true) : c.Seats stop (.mk kind' s cs') :=
  seats_mk h.opens h.closes (.inr (h.sits.forward.resolve_left hkind)) h.sits.hi_le
    (Node.shape_of_isPlain hkind') (joins_of_isPlain hkind')

/-- A node without a shape of its own, from a boundary to another. -/
theorem has_plain {kind : Kind} {s : Span} {cs : List Node} (hkind : kind.isCommon = true)
    (hlo : c.stuck = false → c.Opens s.lo) (hhi : c.stuck = false → c.Closes s.hi)
    (hstop : s.hi ≤ stop) (hparts : ∀ m ∈ cs, c.HoldsUpTo stop m)
    (hforward : c.stuck = false → (∀ m ∈ cs, m.Whole) → s.lo ≤ s.hi) :
    c.HasUpTo s.lo stop (.mk kind s cs) :=
  have hplain := Kind.isPlain_of_isCommon hkind
  has_mk hparts (clears_of_hasTargets (Kind.hasTargets_of_isCommon hkind)) fun hfree hwhole ↦
    ⟨Nat.le_refl _, hforward hfree hwhole, seats_mk (hlo hfree) (hhi hfree)
      (.inr (hforward hfree hwhole)) hstop (Node.shape_of_isPlain hplain)
      (joins_of_isPlain hplain)⟩

/-- A name that is spelled by its span. -/
theorem has_name {kind : Kind} {s : Span} {name : String} {cs : List Node}
    (hkind : kind = .ident name ∨ kind = .name name ∨ ∃ b, kind = .pattern (.name name b))
    (hspells : s.Spells text name) (hlo : c.stuck = false → c.Opens s.lo)
    (hhi : c.stuck = false → c.Closes s.hi) (hstop : s.hi ≤ stop)
    (hparts : ∀ m ∈ cs, c.HoldsUpTo stop m) : c.HasUpTo s.lo stop (.mk kind s cs) := by
  have hshape : (Node.mk kind s cs).Shape text := by
    obtain rfl | rfl | ⟨b, rfl⟩ := hkind <;> exact hspells
  have hbase : (Node.mk kind s cs).stepBase? = none := by
    obtain rfl | rfl | ⟨b, rfl⟩ := hkind <;> rfl
  have htargets : kind.hasTargets = false := by
    obtain rfl | rfl | ⟨b, rfl⟩ := hkind <;> rfl
  obtain ⟨word, escaped, -, -, hend⟩ := hspells
  have hle : s.lo ≤ s.hi := by omega
  exact has_mk hparts (clears_of_hasTargets htargets) fun hfree _ ↦
    ⟨Nat.le_refl _, hle, seats_mk (hlo hfree) (hhi hfree) (.inr hle) hstop hshape
      (joins_of_stepBase? hbase)⟩

end Grammar.Place

end OptionalChain
