import OptionalChain.Proofs.LaminarReports
import OptionalChain.Proofs.Placement.Node
import OptionalChain.Proofs.Placement.Search

/-!
# Cuts between characters

Where all nodes sit in the text of a file, the rule cuts it between characters only, so that every
replacement and every region is there.
-/

namespace OptionalChain

open Text (At Boundary)

variable {text : List Char} {lo hi stop pos : Nat}

namespace Text

/-- A cut that can be made is made. -/
theorem Boundary.slice?_eq (hlo : Boundary text lo) (hhi : Boundary text hi) (h : lo ≤ hi) :
    slice? lo hi text = some (slice lo hi text) := by
  obtain ⟨piece, rest, hat, rfl⟩ := hlo.exists_piece hhi h
  rw [slice, hat.slice?, Option.getD_some]

/-- Two cuts in order divide the text between the outer ends. -/
theorem Boundary.slice_append {mid : Nat} (hlo : Boundary text lo) (hmid : Boundary text mid)
    (hhi : Boundary text hi) (hlm : lo ≤ mid) (hmh : mid ≤ hi) :
    slice lo hi text = slice lo mid text ++ slice mid hi text := by
  obtain ⟨xs, rest, hat, rfl⟩ := hlo.exists_piece hmid hlm
  obtain ⟨ys, after, hat', rfl⟩ := hmid.exists_piece hhi hmh
  obtain rfl := hat.append.unique hat'
  have hwhole : At text lo ((xs ++ ys) ++ after) := by rwa [List.append_assoc]
  have hslice := hwhole.slice?
  rw [size_append, ← Nat.add_assoc] at hslice
  rw [slice, slice, slice, hslice, hat.slice?, hat'.slice?]
  rfl

theorem locate?_append (before cs : List Char) :
    locate? (size before) (before ++ cs) = some (Location.after ⟨1, 1⟩ before) := by
  have hslice := (At.start (before ++ cs)).slice?
  rw [Nat.zero_add] at hslice
  rw [locate?, hslice, Option.map_some]

theorem Boundary.exists_locate? (h : Boundary text pos) :
    ∃ place, locate? pos text = some place := by
  obtain ⟨cs, before, rfl, rfl⟩ := h
  exact ⟨_, locate?_append before cs⟩

end Text

/-! ## Spans of nodes -/

namespace SourceFile

variable {f : SourceFile} {n m : Node} {s : Span}

/-- All of the node sits in the text of the file. -/
def Seats (f : SourceFile) (n : Node) : Prop :=
  ∀ m ∈ n.preorder, m.Sits f.text (Text.size f.text)

theorem Seats.of_mem_preorder (h : f.Seats n) (hm : m ∈ n.preorder) : f.Seats m :=
  fun k hk ↦ h k (Node.preorder_subset_of_mem hm hk)

theorem Seats.of_mem {kind : Kind} {cs : List Node} (h : f.Seats (.mk kind s cs)) (hm : m ∈ cs) :
    f.Seats m :=
  fun k hk ↦ h k (Node.preorder_subset_of_mem_children hm hk)

theorem Seats.sits (h : f.Seats n) : n.Sits f.text (Text.size f.text) :=
  h n n.self_mem_preorder

theorem clamp_eq (h : Boundary f.text pos) : f.clamp pos = pos :=
  Nat.min_eq_left h.le_size

/-- A span between characters is cut out as it stands. -/
theorem slice?_eq (hlo : Boundary f.text s.lo) (hhi : Boundary f.text s.hi) (h : s.lo ≤ s.hi) :
    f.slice? s = some (f.slice s) ∧ f.slice s = Text.slice s.lo s.hi f.text := by
  have hcut := hlo.slice?_eq hhi h
  rw [slice, slice?, clamp_eq hlo, clamp_eq hhi, hcut]
  exact ⟨rfl, rfl⟩

theorem Seats.slice?_eq (h : f.Seats n) (hn : n.span.lo ≤ n.span.hi) :
    f.slice? n.span = some (f.slice n.span) :=
  (SourceFile.slice?_eq h.sits.lo h.sits.hi hn).1

end SourceFile

/-! ## Steps of paths -/

variable {f : SourceFile}

namespace Step

theorem boundary_ofMember {optional : Bool} {object key expr : Node}
    (hkey : Boundary f.text key.span.lo) :
    Boundary f.text (ofMember f optional object key expr).insertAt := by
  unfold ofMember
  rw [SourceFile.clamp_eq hkey]
  split
  · exact Access.boundary_findToken rfl _ hkey
  · exact Access.boundary_findToken rfl _ hkey
  · exact hkey

theorem boundary_ofCall {optional : Bool} {callee typeArgs expr : Node}
    (hexpr : Boundary f.text expr.span.hi) (hargs : Boundary f.text typeArgs.span.lo) :
    Boundary f.text (ofCall f optional callee typeArgs expr).insertAt := by
  unfold ofCall
  rw [SourceFile.clamp_eq hexpr]
  split
  · rename_i t ht
    have heq : t = typeArgs := by
      unfold Node.present? at ht
      split at ht <;> simp_all
    rw [heq, SourceFile.clamp_eq hargs]
    exact hargs
  · exact Access.boundary_findToken rfl _ hexpr

end Step

namespace AccessPath

variable {n base : Node} {steps : List Step} {p : AccessPath}

/-- Markers are put in between characters. -/
theorem boundary_of_spine (h : Spine f n base steps) (hn : f.Seats n) :
    ∀ s ∈ steps, Boundary f.text s.insertAt := by
  induction h with
  | base => exact List.forall_mem_nil _
  | paren _ _ ih => exact ih (hn.of_mem (by simp))
  | nonNull _ _ ih => exact ih (hn.of_mem (by simp))
  | @member _ _ _ key _ _ _ _ ih =>
    have hkey : f.Seats key := hn.of_mem (by simp)
    refine List.forall_mem_append.2 ⟨ih (hn.of_mem (by simp)), ?_⟩
    exact List.forall_mem_singleton.2 (Step.boundary_ofMember hkey.sits.lo)
  | call _ _ typeArgs _ _ _ ih =>
    have hargs : f.Seats typeArgs := hn.of_mem (by simp)
    refine List.forall_mem_append.2 ⟨ih (hn.of_mem (by simp)), ?_⟩
    exact List.forall_mem_singleton.2 (Step.boundary_ofCall hn.sits.hi hargs.sits.lo)

theorem boundary_of_path (h : of? f n = some p) (hn : f.Seats n) :
    ∀ s ∈ p.steps, Boundary f.text s.insertAt :=
  boundary_of_spine (of?_eq_some h).1 hn

end AccessPath

/-! ## Last operands -/

namespace Node

/-- Only parentheses and operators stand between the node and the one inside it. -/
inductive Surrounds : Node → Node → Prop
  | refl (n : Node) : Surrounds n n
  | paren {s : Span} {e m : Node} (h : Surrounds e m) : Surrounds (.paren s e) m
  | unary {op : UnaryOp} {s : Span} {e m : Node} (h : Surrounds e m) : Surrounds (.unary op s e) m
  | left {op : BinaryOp} {s : Span} {l r m : Node} (h : Surrounds l m) :
    Surrounds (.binary op s l r) m
  | right {op : BinaryOp} {s : Span} {l r m : Node} (h : Surrounds r m) :
    Surrounds (.binary op s l r) m

variable {n e : Node}

theorem Surrounds.mem_preorder (h : n.Surrounds e) : e ∈ n.preorder := by
  induction h with
  | refl n => exact n.self_mem_preorder
  | paren _ ih | unary _ ih | left _ ih | right _ ih =>
    exact preorder_subset_of_mem_children (by simp [children]) ih

/-- What is surrounded stands between the ends of the node. -/
theorem Surrounds.within {f : SourceFile} (h : n.Surrounds e) (hn : f.Seats n) :
    n.span.lo ≤ e.span.lo ∧ e.span.hi ≤ n.span.hi := by
  induction h with
  | refl n => exact ⟨Nat.le_refl _, Nat.le_refl _⟩
  | @paren s e m _ ih | @unary _ s e m _ ih =>
    obtain ⟨hlo, hhi⟩ := hn.sits.shape
    obtain ⟨hmlo, hmhi⟩ := ih (hn.of_mem (by simp))
    change s.lo ≤ m.span.lo ∧ m.span.hi ≤ s.hi
    omega
  | @left _ s l r m _ ih | @right _ s l r m _ ih =>
    obtain ⟨hlo, hleft, hapart, hright, hhi⟩ := hn.sits.shape
    obtain ⟨hmlo, hmhi⟩ := ih (hn.of_mem (by simp))
    change s.lo ≤ m.span.lo ∧ m.span.hi ≤ s.hi
    omega

theorem surrounds_of_stripParens (h : n.stripParens.Surrounds e) : n.Surrounds e := by
  fun_induction stripParens n with
  | case1 span e ih => exact .paren (ih h)
  | case2 n => exact h

theorem stripParens_mem_preorder (n : Node) : n.stripParens ∈ n.preorder :=
  (surrounds_of_stripParens (.refl _)).mem_preorder

end Node

theorem surrounds_of_typeofOperand? {n e : Node} (h : typeofOperand? n = some e) :
    n.Surrounds e := by
  unfold typeofOperand? at h
  split at h
  · rename_i heq
    cases h
    exact Node.surrounds_of_stripParens (heq ▸ .unary (.refl e))
  · cases h

theorem surrounds_of_splitTypeof? {left right e : Node} {s : String}
    (h : splitTypeof? left right = some (e, s)) : left.Surrounds e ∨ right.Surrounds e := by
  unfold splitTypeof? at h
  split at h
  · rename_i he _
    cases h
    exact .inl (surrounds_of_typeofOperand? he)
  · split at h
    · rename_i he _
      cases h
      exact .inr (surrounds_of_typeofOperand? he)
    · cases h

theorem eq_of_splitComparison? {left right e : Node} {c : Constant}
    (h : splitComparison? left right = some (e, c)) : e = left ∨ e = right := by
  unfold splitComparison? at h
  split at h <;> cases h
  exacts [.inl rfl, .inr rfl]

/-- The path of a last operand is the path of a node in it. -/
theorem exists_path_of_terminalPath? {style : ChainStyle} {n : Node} {p : AccessPath}
    (h : terminalPath? f style n = some p) : ∃ e, n.Surrounds e ∧ AccessPath.of? f e = some p := by
  suffices hin : ∃ e, n.stripParens.Surrounds e ∧ AccessPath.of? f e = some p by
    obtain ⟨e, he, hp⟩ := hin
    exact ⟨e, Node.surrounds_of_stripParens he, hp⟩
  have hparts : ∀ {op s left right e}, left.Surrounds e ∨ right.Surrounds e →
      (Node.binary op s left right).Surrounds e := by
    rintro op s left right e (he | he)
    · exact .left he
    · exact .right he
  unfold terminalPath? at h
  split at h
  · rename_i s e heq
    split at h
    · exact ⟨e, heq ▸ .unary (.refl e), h⟩
    · cases h
  · rename_i op s left right heq
    rw [heq]
    split at h
    · unfold terminalOfEquality? at h
      split at h
      · rename_i e _ hsplit
        split at h
        · exact ⟨e, hparts (surrounds_of_splitTypeof? hsplit), h⟩
        · cases h
      · obtain ⟨⟨e, c⟩, hsplit, h⟩ := Option.bind_eq_some_iff.1 h
        dsimp only at h
        split at h
        · refine ⟨e, hparts ?_, h⟩
          obtain rfl | rfl := eq_of_splitComparison? hsplit
          exacts [.inl (.refl _), .inr (.refl _)]
        · cases h
    · split at h
      · unfold terminalOfRelation? at h
        split at h
        · rename_i hleft
          cases h
          exact ⟨left, hparts (.inl (.refl left)), hleft⟩
        · split at h
          · cases h
          · exact ⟨right, hparts (.inr (.refl right)), h⟩
      · split at h
        · exact ⟨_, .refl _, h⟩
        · cases h
  · split at h
    · exact ⟨_, .refl _, h⟩
    · cases h

/-! ## Replacements -/

theorem mapM_eq_some_map {α β : Type} {g : α → Option β} {h : α → β} {xs : List α}
    (hg : ∀ x ∈ xs, g x = some (h x)) : xs.mapM g = some (xs.map h) := by
  induction xs with
  | nil => rfl
  | cons x xs ih =>
    obtain ⟨hx, hxs⟩ := List.forall_mem_cons.1 hg
    rw [List.mapM_cons, hx, ih hxs]
    rfl

/-- A comment that sits in the text, with what keeps it apart from the code after it. -/
def Comment.relocated (f : SourceFile) (m : Comment) : List Char :=
  Text.slice m.span.lo m.span.hi f.text ++ [m.separator]

theorem Comment.SitsIn.relocated?_eq {m : Comment} (h : m.SitsIn f.text) :
    m.relocated? f = some (m.relocated f) := by
  obtain ⟨piece, rest, hat, hhi, -⟩ := h
  rw [relocated?, relocated, hhi, Text.slice, hat.slice?]
  rfl

/-- The text from `cursor` to `stop` with insertions between characters in order. -/
def spliceFrom (text : List Char) (stop : Nat) (cursor : Nat) : List Insertion → List Char
  | [] => Text.slice cursor stop text
  | i :: rest =>
    if i.offset < cursor ∨ stop < i.offset then spliceFrom text stop cursor rest
    else Text.slice cursor i.offset text ++ i.text ++ spliceFrom text stop i.offset rest

theorem spliceFrom?_eq {cursor : Nat} {xs : List Insertion} (hcursor : Boundary text cursor)
    (hstop : Boundary text stop) (hle : cursor ≤ stop) (hxs : ∀ i ∈ xs, Boundary text i.offset) :
    spliceFrom? text stop cursor xs = some (spliceFrom text stop cursor xs) := by
  induction xs generalizing cursor with
  | nil => exact hcursor.slice?_eq hstop hle
  | cons i rest ih =>
    obtain ⟨hi, hrest⟩ := List.forall_mem_cons.1 hxs
    rw [spliceFrom?, spliceFrom]
    split
    · exact ih hcursor hle hrest
    · rw [hcursor.slice?_eq hi (by omega), ih hi (by omega) hrest]
      rfl

namespace Chain

variable (f : SourceFile) (c : Chain)

/-- The comments that move to the front. -/
def movedText : List Char :=
  (c.removedComments f).flatMap (·.relocated f)

variable {f c}

theorem boundary_of_mem_insertions
    (hsteps : ∀ s ∈ c.terminalPath.steps, Boundary f.text s.insertAt) :
    ∀ i ∈ c.insertions, Boundary f.text i.offset := by
  intro i hi
  obtain ⟨s, hs, rfl⟩ := List.mem_map.1 (List.mem_mergeSort.1 hi)
  obtain ⟨g, -, hg⟩ := List.mem_filterMap.1 (List.mem_filter.1 hs).1
  exact hsteps s (List.mem_of_getElem? hg)

theorem replacement?_eq (hcomments : ∀ m ∈ f.comments, m.SitsIn f.text)
    (hterminal : f.Seats c.terminal) (hforward : c.terminal.span.lo ≤ c.terminal.span.hi)
    (hsteps : ∀ s ∈ c.terminalPath.steps, Boundary f.text s.insertAt) :
    c.replacement? f = some (c.movedText f ++
      spliceFrom f.text c.terminal.span.hi c.terminal.span.lo c.insertions) := by
  have hmoved : (c.removedComments f).mapM (·.relocated? f) =
      some ((c.removedComments f).map (·.relocated f)) := by
    refine mapM_eq_some_map fun m hm ↦ ?_
    exact (hcomments m (List.mem_filter.1 hm).1).relocated?_eq
  have hkept := spliceFrom?_eq hterminal.sits.lo hterminal.sits.hi hforward
    (boundary_of_mem_insertions hsteps)
  rw [replacement?, hmoved, SourceFile.clamp_eq hterminal.sits.lo,
    SourceFile.clamp_eq hterminal.sits.hi, hkept, movedText, List.flatMap_def]
  rfl

end Chain

namespace Fallback

variable (b : Fallback) (f : SourceFile)

/-- The text of a key, absent if it is not cut between characters. -/
def keyText? (key : Node) : Option (List Char) :=
  match key.kind with
  | .name text => some text.toList
  | .privateName text => some ('#' :: text.toList)
  | _ => f.slice? key.span

/-- The replacement of a fallback, absent if one of the cuts is not possible. -/
def replacement? : Option (List Char) := do
  let value ← f.slice? b.value.span
  let key ← keyText? f b.key
  return (if isBare b.value.kind then value else '(' :: value ++ [')']) ++ ['?', '.'] ++ key

variable {b f} {n : Node}

/-- A fallback is read off a member access on a logical operator in parentheses. -/
theorem exists_parts_of_of? (h : of? n = some b) :
    ∃ optional s t inner u fallback, n = .member optional s (.paren t inner) b.key ∧
      inner.stripParens = .binary b.op u b.value fallback := by
  unfold of? at h
  split at h
  · rename_i optional s t inner key
    split at h
    · rename_i op u value fallback hinner
      split at h
      · cases h
        exact ⟨optional, s, t, inner, u, fallback, rfl, hinner⟩
      · cases h
    · cases h
  · cases h

theorem replacement?_eq (h : of? n = some b) (hn : f.Seats n) :
    b.replacement? f = some (b.replacement f) := by
  obtain ⟨optional, s, t, inner, u, fallback, rfl, hinner⟩ := exists_parts_of_of? h
  have hobject : f.Seats (.paren t inner) := hn.of_mem (by simp)
  have hstrip := (hobject.of_mem (List.mem_singleton_self inner)).of_mem_preorder
    inner.stripParens_mem_preorder
  rw [hinner] at hstrip
  have hvalue : f.slice? b.value.span = some (f.slice b.value.span) :=
    (hstrip.of_mem (by simp)).slice?_eq hstrip.sits.shape.2.1
  have hkey : keyText? f b.key = some (keyText f b.key) := by
    have hcut : f.slice? b.key.span = some (f.slice b.key.span) :=
      (hn.of_mem (by simp)).slice?_eq hn.sits.shape.2.2.1
    unfold keyText? keyText
    cases b.key.kind with
    | name | privateName => rfl
    | _ => exact hcut
  rw [replacement?, hvalue, hkey]
  rfl

end Fallback

namespace PreferOptionalChain.Context

variable {c : Context} {s : Span}

theorem exists_region? (hlo : Boundary c.file.text s.lo) (hhi : Boundary c.file.text s.hi) :
    ∃ r, c.region? s = some r ∧ r.range = s := by
  obtain ⟨first, hfirst⟩ := hlo.exists_locate?
  obtain ⟨last, hlast⟩ := hhi.exists_locate?
  rw [region?, SourceFile.locate?, SourceFile.locate?, SourceFile.clamp_eq hlo,
    SourceFile.clamp_eq hhi, hfirst, hlast]
  exact ⟨_, rfl, rfl⟩

end PreferOptionalChain.Context

end OptionalChain
