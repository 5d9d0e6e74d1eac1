import OptionalChain.Proofs.Placement.Taking

/-!
# Nodes and names

A node is closed where the last token ended. Names, brackets and the texts of templates are read
with their spans.
-/

namespace OptionalChain.Grammar

open Text (At Boundary)

variable {text : List Char} {α β σ : Type} {w c d : Place text} {s : Setting} {m : Parser α}
  {f : α → Parser β} {Q : α → Place text → Prop} {R : β → Place text → Prop} {lo : Nat}

/-! ## Nodes -/

namespace Place

variable {kind : Kind} {n : Node} {cs : List Node}

/-- A node that ends with the last token. -/
theorem Passed.shaped (h : c.Passed lo) (hshape : (Node.mk kind ⟨lo, c.prevEnd⟩ cs).Shape text)
    (hbase : (Node.mk kind ⟨lo, c.prevEnd⟩ cs).stepBase? = none)
    (htargets : c.Clears (.mk kind ⟨lo, c.prevEnd⟩ cs)) (hparts : c.HoldsAll cs) :
    c.Has lo (.mk kind ⟨lo, c.prevEnd⟩ cs) :=
  has_mk hparts htargets fun hfree _ ↦ ⟨Nat.le_refl _, h.le, seats_mk (h.opens hfree)
    (c.closes_prevEnd hfree) (.inr h.le) (Nat.le_refl _) hshape (joins_of_stepBase? hbase)⟩

theorem Passed.node (h : c.Passed lo) (hkind : kind.isCommon = true) (hparts : c.HoldsAll cs) :
    c.Has lo (.mk kind ⟨lo, c.prevEnd⟩ cs) :=
  h.shaped (Node.shape_of_isPlain (Kind.isPlain_of_isCommon hkind))
    (Node.stepBase?_eq_none (Kind.isPlain_of_isCommon hkind))
    (clears_of_hasTargets (Kind.hasTargets_of_isCommon hkind)) hparts

/-- A node that ends with the last token, if one of its parts starts with it or later. -/
theorem HasUpTo.node (h : c.Has lo n) (hn : n ∈ cs) (hlo : c.Opens lo)
    (hkind : kind.isCommon = true) (hparts : c.HoldsAll cs) :
    c.Has lo (.mk kind ⟨lo, c.prevEnd⟩ cs) :=
  has_plain (s := ⟨lo, c.prevEnd⟩) hkind (fun _ ↦ hlo) c.closes_prevEnd (Nat.le_refl _) hparts
    fun hfree hwhole ↦ h.le hfree (hwhole n hn)

/-- A node with the span of one of its parts. -/
theorem HasUpTo.around (h : c.Has lo n) (hn : n ∈ cs) (hkind : kind.isCommon = true)
    (hparts : c.HoldsAll cs) : c.Has lo (.mk kind n.span cs) :=
  has_mk hparts (clears_of_hasTargets (Kind.hasTargets_of_isCommon hkind)) fun hfree hwhole ↦
    have hwhole := hwhole n hn
    have hseats := h.seats hfree hwhole
    have hplace := h.placed hfree hwhole
    have hplain := Kind.isPlain_of_isCommon hkind
    ⟨hplace.1, hplace.2.1, seats_mk hseats.opens hseats.closes (.inr hplace.2.1) hseats.sits.hi_le
      (Node.shape_of_isPlain hplain) (joins_of_isPlain hplain)⟩

/-- Nodes that were read, if all of them are whole. -/
structure HoldsTogether (c : Place text) (ns : List Node) : Prop where
  lie : c.stuck = false → (∀ n ∈ ns, n.Whole) → ∀ n ∈ ns, ∀ m ∈ n.preorder, c.Seats c.prevEnd m
  admits : ∀ n ∈ ns, c.Admits n

theorem HoldsAll.together (h : c.HoldsAll cs) : c.HoldsTogether cs where
  lie hfree hwhole n hn := (h n hn).lies hfree (hwhole n hn)
  admits n hn := (h n hn).admits

/-- The parts of a node that was read. -/
theorem HoldsUpTo.parts {span : Span} (h : c.Holds (.mk kind span cs)) (hkind : kind ≠ .invalid)
    (hparts : (Node.mk kind span cs).reviewedParts = cs) : c.HoldsTogether cs where
  lie hfree hwhole n hn m hm := h.lies hfree (Node.whole_mk.2 ⟨hkind, hwhole⟩) m
    (Node.mem_preorder_mk.2 (.inr ⟨n, hn, hm⟩))
  admits n hn herrors := (h.admits herrors).parts n (by rwa [hparts])

theorem HoldsTogether.of_le (h : c.HoldsTogether cs) (hcd : c ≤ d) : d.HoldsTogether cs where
  lie hfree hwhole n hn m hm :=
    (h.lie (free_of_le hcd hfree) hwhole n hn m hm).mono hcd (prevEnd_le hcd)
  admits n hn := (h.admits n hn).of_le hcd

theorem HoldsTogether.append {ns : List Node} (h : c.HoldsTogether cs) (hns : c.HoldsTogether ns) :
    c.HoldsTogether (cs ++ ns) where
  lie hfree hwhole n hn := by
    obtain hn | hn := List.mem_append.1 hn
    · exact h.lie hfree (fun m hm ↦ hwhole m (List.mem_append_left _ hm)) n hn
    · exact hns.lie hfree (fun m hm ↦ hwhole m (List.mem_append_right _ hm)) n hn
  admits n hn := (List.mem_append.1 hn).elim (h.admits n) (hns.admits n)

theorem HoldsTogether.of_perm {ns : List Node} (h : c.HoldsTogether cs) (hperm : cs.Perm ns) :
    c.HoldsTogether ns where
  lie hfree hwhole n hn :=
    h.lie hfree (fun m hm ↦ hwhole m (hperm.subset hm)) n (hperm.symm.subset hn)
  admits n hn := h.admits n (hperm.symm.subset hn)

theorem Passed.nodeOf (h : c.Passed lo) (hkind : kind.isCommon = true)
    (hparts : c.HoldsTogether cs) : c.Has lo (.mk kind ⟨lo, c.prevEnd⟩ cs) :=
  have hplain := Kind.isPlain_of_isCommon hkind
  has_of_parts (fun hfree hwhole ↦ ⟨Nat.le_refl _, h.le,
    seats_mk (h.opens hfree) (c.closes_prevEnd hfree) (.inr h.le) (Nat.le_refl _)
      (Node.shape_of_isPlain hplain) (joins_of_isPlain hplain),
    hparts.lie hfree hwhole⟩)
    ((clears_of_hasTargets (Kind.hasTargets_of_isCommon hkind)).admits hparts.admits)

/-- The node with another kind. -/
theorem HasUpTo.recast {kind' : Kind} {span : Span} {stop : Nat}
    (h : c.HasUpTo lo stop (.mk kind span cs)) (hkind : kind ≠ .invalid ∧ kind ≠ .type .heritages)
    (hkind' : kind'.isCommon = true) (hparts : ∀ m ∈ cs, c.Admits m) :
    c.HasUpTo lo stop (.mk kind' span cs) := by
  refine has_of_parts (fun hfree hwhole ↦ ?_)
    ((clears_of_hasTargets (Kind.hasTargets_of_isCommon hkind')).admits hparts)
  obtain ⟨hlo, hforward, hall⟩ := h.placed hfree (Node.whole_mk.2 ⟨hkind.1, hwhole⟩)
  have hself := hall _ (Node.self_mem_preorder _)
  refine ⟨hlo, hforward, hself.recast hkind.2 (Kind.isPlain_of_isCommon hkind'),
    fun k hk m hm ↦ ?_⟩
  exact hall m (Node.mem_preorder_mk.2 (.inr ⟨k, hk, hm⟩))

theorem holdsAll_one (h : c.Holds n) : c.HoldsAll [n] :=
  .cons h holdsAll_nil

/-- The token as a node. -/
theorem has_leaf (hkind : kind.isCommon = true) (hcd : c ≤ d) (hprev : d.prevEnd = c.hi) :
    d.Has c.lo (.mk kind c.cursor.token.span []) :=
  has_plain hkind (fun _ ↦ c.opens_lo.mono hcd) (closes_of_prevEnd hprev)
    (Nat.le_of_eq hprev.symm) holdsAll_nil fun _ _ ↦ c.lo_le_hi

end Place

theorem Runs.node {kind : Kind} {cs : List Node} {Q : Node → Place text → Prop} (hw : w ≤ c)
    (h : Q (.mk kind ⟨lo, c.prevEnd⟩ cs) c) : Runs w c s (nodeFrom lo kind cs) Q :=
  ⟨c, rfl, hw, h⟩

/-! ## Names -/

/-- A name with the span that it was read from. -/
structure Named (c : Place text) (x : String × Span) (d : Place text) : Prop where
  past : c.Past d
  spells : x.2.Spells text x.1
  lo : x.2.lo = c.lo
  closes : d.stuck = false → d.Closes x.2.hi
  hi_le : x.2.hi ≤ d.prevEnd

theorem Named.of_le {x : String × Span} {e : Place text} (h : Named c x d) (hde : d ≤ e) :
    Named c x e :=
  { h with
    past := h.past.mono hde
    closes := fun hfree ↦ (h.closes (Place.free_of_le hde hfree)).mono hde
    hi_le := Nat.le_trans h.hi_le (Place.prevEnd_le hde) }

theorem Named.has {x : String × Span} {kind : Kind} {cs : List Node} (h : Named c x d)
    (hkind : kind = .ident x.1 ∨ kind = .name x.1 ∨ ∃ b, kind = .pattern (.name x.1 b))
    (hparts : d.HoldsAll cs) : d.Has c.lo (.mk kind x.2 cs) :=
  (Place.has_name hkind h.spells (fun _ ↦ h.lo ▸ c.opens_lo.mono h.past.le) h.closes h.hi_le
    hparts).mono (le_refl d) (Nat.le_of_eq h.lo.symm) (Nat.le_refl _)

theorem named_of_taken {name : String} {escaped : Bool}
    (hform : c.cursor.token.form = .word name escaped) (hcd : c ≤ d) (hprev : d.prevEnd = c.hi) :
    Named c (name, c.cursor.token.span) d where
  past := Place.past_of_taken hcd (Nat.le_of_eq hprev.symm)
  spells := c.spells hform
  lo := rfl
  closes := Place.closes_of_prevEnd hprev
  hi_le := Nat.le_of_eq hprev.symm

theorem runs_checkArguments (c : Place text) (s : Setting) (name : String) (span : Span) :
    Runs c c s (checkArguments name span) Anywhere := by
  unfold checkArguments
  rw [runs_read]
  split
  · exact runs_emit c s _ _
  · exact .pure (le_refl c) trivial

theorem runs_identifier (c : Place text) (s : Setting) : Runs c c s identifier (Named c) := by
  unfold identifier
  rw [runs_token]
  split
  · rename_i name escaped hform
    rw [runs_read]
    refine .guard (fun _ ↦ .failHere (le_refl c)) fun _ ↦ ?_
    rw [runs_isTypescript]
    refine .guard (fun _ ↦ .failHere (le_refl c)) fun _ ↦ .bump (le_refl c) fun d _ hcd hprev ↦ ?_
    refine .when hcd (fun _ ↦ runs_emit d s _ _) fun e hde hce ↦ ?_
    refine .call hce (runs_checkArguments e s _ _) fun _ e' hee' hce' _ ↦ .pure hce' ?_
    exact (named_of_taken hform hcd hprev).of_le (hde.trans hee')
  · exact .failAtEnd (le_refl c)
  · exact .failHere (le_refl c)

theorem runs_identifierNode (c : Place text) (s : Setting) :
    Runs c c s identifierNode fun n d ↦ c.Past d ∧ d.Has c.lo n := by
  unfold identifierNode
  refine .call (le_refl c) (runs_identifier c s) fun x d _ hcd hx ↦ .pure hcd ⟨hx.past, ?_⟩
  exact hx.has (.inl rfl) Place.holdsAll_nil

/-- Where a name was read, the place is right after it. -/
theorem runs_identifier_follows (c : Place text) (s : Setting) :
    Runs c c s identifier fun x d ↦ d.Follows x.2.hi := by
  unfold identifier
  rw [runs_token]
  split
  · rw [runs_read]
    refine .guard (fun _ ↦ .failHere (le_refl c)) fun _ ↦ ?_
    rw [runs_isTypescript]
    refine .guard (fun _ ↦ .failHere (le_refl c)) fun _ ↦ .bump (le_refl c) fun d _ hcd hprev ↦ ?_
    refine .whenKeeping hcd (Place.follows_of_prevEnd hprev)
      (fun _ ↦ runs_emit_follows (Place.follows_of_prevEnd hprev) s _ _) fun e _ hce he ↦ ?_
    refine .call hce ?_ fun _ e' _ hce' he' ↦ .pure hce' he'
    unfold checkArguments
    rw [runs_read]
    split
    · exact runs_emit_follows he s _ _
    · exact .pure (le_refl e) he
  · exact .failAtEnd (le_refl c)
  · exact .failHere (le_refl c)

theorem runs_identifierNode_last (c : Place text) (s : Setting) :
    Runs c c s identifierNode fun n d ↦ d.HasLast c.lo n := by
  unfold identifierNode
  refine .call (le_refl c) ((runs_identifier c s).and (runs_identifier_follows c s))
    fun x d _ hcd ⟨hx, hfollows⟩ ↦ .pure hcd ⟨?_, fun _ ↦ hfollows⟩
  exact hx.has (.inl rfl) Place.holdsAll_nil

theorem runs_boundIdentifier (c : Place text) (s : Setting) (lexical : Bool) :
    Runs c c s (boundIdentifier lexical) (Named c) := by
  unfold boundIdentifier
  rw [runs_isWord]
  refine .guard (fun _ ↦ .failHere (le_refl c)) fun _ ↦ ?_
  refine .call (le_refl c) (runs_identifier c s) fun x d _ hcd hx ↦ ?_
  refine .when hcd (fun _ ↦ runs_emit d s _ _) fun e hde hce ↦ .pure hce (hx.of_le hde)

theorem runs_boundIdentifierNode (c : Place text) (s : Setting) (lexical : Bool) :
    Runs c c s (boundIdentifierNode lexical) fun n d ↦ c.Past d ∧ d.Has c.lo n := by
  unfold boundIdentifierNode
  refine .call (le_refl c) (runs_boundIdentifier c s lexical) fun x d _ hcd hx ↦
    .pure hcd ⟨hx.past, ?_⟩
  exact hx.has (.inl rfl) Place.holdsAll_nil

theorem runs_anyWord (c : Place text) (s : Setting) : Runs c c s anyWord (Named c) := by
  unfold anyWord
  rw [runs_token]
  split
  · rename_i name escaped hform
    exact .bump (le_refl c) fun d _ hcd hprev ↦ .pure hcd (named_of_taken hform hcd hprev)
  · exact .failAtEnd (le_refl c)
  · exact .failHere (le_refl c)

theorem runs_privateName (c : Place text) (s : Setting) :
    Runs c c s privateName fun n d ↦ c.Past d ∧ d.Has c.lo n ∧ n.kind.isDotted = true := by
  unfold privateName
  rw [runs_here]
  refine .expect (le_refl c) fun d _ hcd hpast ↦ ?_
  rw [runs_spanFrom, runs_here]
  refine .guard (fun _ ↦ .failAt hcd) fun _ ↦ ?_
  refine .call hcd (runs_anyWord d s) fun _ e hde hce _ ↦ .node hce ?_
  exact ⟨hpast.mono hde, ((c.opens_lo.passed hpast).mono hde).node rfl Place.holdsAll_nil, rfl⟩

/-! ## Brackets -/

/-- The text from the token on, where it starts with a character of one byte. -/
theorem Place.at_bracket (c : Place text) {a : Char} {rest : List Char}
    (htext : c.cursor.text = a :: rest) (ha : a.utf8Size = 1) : At text (c.lo + 1) rest := by
  obtain hnil | hat := c.standsIn.at_lo
  · rw [hnil] at htext
    cases htext
  · rw [htext] at hat
    rw [← ha]
    exact hat.tail

/-- A bracket of one byte is taken off the text. -/
theorem runs_takeBracket {a : Char} {rest : List Char} (htext : c.cursor.text = a :: rest)
    (ha : a.utf8Size = 1) (hslash : a ≠ '/') :
    Runs c c s (set ({ c.cursor with prevEnd := c.lo + 1 }.goto (c.lo + 1) rest)) fun _ d ↦
      d.prevEnd = c.lo + 1 := by
  have hfree : c.stuck = false := c.free_of_head (by rw [htext]; rfl) hslash
  have hat := c.at_bracket htext ha
  obtain ⟨d, hd, hcd, hprev, -⟩ := c.exists_goto hfree (.inr hat) hat.boundary
    (Nat.le_add_right _ _) fun hend ↦ absurd (c.standsIn.text_nil hend) (by simp [htext])
  exact ⟨d, hd, hcd, hprev⟩

theorem runs_expectGreater (c : Place text) (s : Setting) :
    Runs c c s expectGreater fun _ d ↦ d.prevEnd = c.lo + 1 ∧ c.stuck = false := by
  unfold expectGreater
  rw [runs_get]
  split
  · rename_i htext
    have hfree : c.stuck = false := c.free_of_head (by rw [htext]; rfl) (by decide)
    exact (runs_takeBracket htext (by decide) (by decide)).mono fun _ _ _ hprev ↦ ⟨hprev, hfree⟩
  · exact .failExpected (le_refl c)

theorem Runs.expectGreater {f : Unit → Parser β} (hw : w ≤ c)
    (h : ∀ d, c ≤ d → w ≤ d → c.Past d → Runs w d s (f ()) R) :
    Runs w c s (Grammar.expectGreater >>= f) R :=
  .call hw (runs_expectGreater c s) fun _ d hcd hwd hd ↦
    h d hcd hwd ⟨hcd, hd.1 ▸ Nat.le_add_right _ _⟩

theorem Runs.eatLess {f : Bool → Parser β} (hw : w ≤ c)
    (hyes : ∀ d, c ≤ d → w ≤ d → c.Past d → Runs w d s (f true) R) (hno : Runs w c s (f false) R) :
    Runs w c s (Grammar.eatLess >>= f) R := by
  have hpast : ∀ d : Place text, c ≤ d → d.prevEnd = c.lo + 1 → c.Past d := fun d hcd hprev ↦
    ⟨hcd, hprev ▸ Nat.le_add_right _ _⟩
  unfold Grammar.eatLess
  rw [bind_assoc, runs_get]
  split
  · rename_i htext
    rw [bind_assoc]
    exact .call hw (runs_takeBracket htext (by decide) (by decide)) fun _ d hcd hwd hprev ↦
      hyes d hcd hwd (hpast d hcd hprev)
  · rename_i htext
    rw [bind_assoc]
    exact .call hw (runs_takeBracket htext (by decide) (by decide)) fun _ d hcd hwd hprev ↦
      hyes d hcd hwd (hpast d hcd hprev)
  · exact hno

/-! ## Lists -/

theorem Place.HasUpTo.from_le {n : Node} {b : Place text} (h : d.Has c.lo n) (hbc : b ≤ c) :
    d.Has b.lo n :=
  h.mono (le_refl d) (Place.lo_le hbc) (Nat.le_refl _)

/-- The nodes of a list that was closed. -/
structure Listed (c : Place text) (ns : List Node) (d : Place text) : Prop where
  past : c.Past d
  all : d.HasAll c.lo ns

theorem runs_listItem {item : Parser Node} {close : Punct} {ns : List Node} (hcd : c ≤ d)
    (hns : d.HasAll c.lo ns) (hitem : Runs d d s item fun n e ↦ e.Has d.lo n) :
    Runs d d s (listItem close item ns) (Next (fun ns e ↦ e.HasAll c.lo ns) (Listed c)) := by
  unfold listItem
  refine .call (le_refl d) hitem fun n e hde _ hn ↦ ?_
  have hall := hns.append hde (hn.from_le hcd)
  refine .eat hde (fun e' hee' hde' hpast ↦ .pure hde' ?_) (.expect hde fun e' hee' hde' _ ↦ ?_)
  · exact ⟨hpast.of_le (hcd.trans hde), hall.of_le hee'⟩
  · exact .pure hde' (hall.of_le hee')

theorem runs_openList {item : Parser Node} {close : Punct}
    (hitem : ∀ d, c ≤ d → Runs d d s item fun n e ↦ e.Has d.lo n) :
    Runs c c s (openList close item) (Listed c) := by
  unfold openList
  refine runs_iterate (fun ns d ↦ d.HasAll c.lo ns) Place.hasAll_nil fun ns d hcd hns ↦ ?_
  refine .endsList (le_refl d) (fun e hde _ hpast ↦ ?_) (runs_listItem hcd hns (hitem d hcd))
  exact .pure hde ⟨hpast.of_le hcd, hns.of_le hde⟩

theorem runs_commaList {item : Parser Node} {close : Punct}
    (hitem : ∀ d, c ≤ d → Runs d d s item fun n e ↦ e.Has d.lo n) :
    Runs c c s (commaList close item) (Listed c) := by
  unfold commaList
  refine runs_iterate (fun ns d ↦ d.HasAll c.lo ns) Place.hasAll_nil fun ns d hcd hns ↦ ?_
  refine .eat (le_refl d) (fun e hde _ hpast ↦ ?_) (runs_listItem hcd hns (hitem d hcd))
  exact .pure hde ⟨hpast.of_le hcd, hns.of_le hde⟩

/-! ## Templates -/

theorem exists_append_of_templateChunk {cs rest : List Char} {last : Bool}
    (h : Token.templateChunk cs = some (rest, last)) : ∃ w, cs = w ++ rest := by
  fun_induction Token.templateChunk cs with
  | case1 => cases h
  | case2 a cs ih =>
    obtain ⟨w, rfl⟩ := ih h
    exact ⟨'\\' :: a :: w, rfl⟩
  | case3 cs =>
    cases h
    exact ⟨['\x60'], rfl⟩
  | case4 cs =>
    cases h
    exact ⟨['$', '\x7b'], rfl⟩
  | case5 a cs _ _ _ ih =>
    obtain ⟨w, rfl⟩ := ih h
    exact ⟨a :: w, rfl⟩

theorem Runs.set {x : Cursor} {f : PUnit → Parser β} (hx : d.cursor = x) (h : Runs w d s (f ⟨⟩) R) :
    Runs w c s (MonadStateOf.set x >>= f) R := by
  subst hx
  exact h

theorem Runs.modify {g : Cursor → Cursor} {f : PUnit → Parser β} (hg : d.cursor = g c.cursor)
    (h : Runs w d s (f ⟨⟩) R) : Runs w c s (Bind.bind (modify g) f) R :=
  Runs.set (c := c) hg h

/-- After the token the text goes on to a later place. -/
theorem Place.exists_after (c : Place text) (hfree : c.stuck = false) {v rest : List Char}
    (hrest : c.cursor.rest = v ++ rest) :
    ∃ d : Place text, d.cursor = { c.cursor with prevEnd := c.hi + Text.size v }.goto
      (c.hi + Text.size v) rest ∧ c ≤ d ∧ d.prevEnd = c.hi + Text.size v := by
  have hle : c.lo ≤ c.hi + Text.size v := Nat.le_trans c.lo_le_hi (Nat.le_add_right _ _)
  have hend : c.cursor.token.form = .endOfText → rest = [] ∧ c.hi + Text.size v = c.lo := by
    intro hform
    rw [c.standsIn.rest_nil hform] at hrest
    obtain ⟨rfl, rfl⟩ := List.append_eq_nil_iff.1 hrest.symm
    exact ⟨rfl, c.standsIn.hi_eq_lo hform⟩
  obtain ⟨hat, hstop⟩ : (rest = [] ∨ At text (c.hi + Text.size v) rest) ∧
      Boundary text (c.hi + Text.size v) := by
    obtain hnil | hat := c.standsIn.at_hi hfree
    · rw [hnil] at hrest
      obtain ⟨rfl, rfl⟩ := List.append_eq_nil_iff.1 hrest.symm
      exact ⟨.inl rfl, c.standsIn.hi⟩
    · rw [hrest] at hat
      exact ⟨.inr hat.append, hat.append.boundary⟩
  obtain ⟨d, hd, hcd, hprev, -⟩ := c.exists_goto hfree hat hstop hle hend
  exact ⟨d, hd, hcd, hprev⟩

/-- A token that goes on to the end of the text without being one ends the parser there. -/
theorem runs_failUnended (hw : w ≤ c) (hfree : c.stuck = false) (e : SyntaxError)
    (fault : Cursor → Fault) :
    Runs w c s (do
      MonadStateOf.set { c.cursor with
        token := ⟨.invalid e, ⟨c.lo, c.hi + Text.size c.cursor.rest⟩, false⟩, rest := [] }
      failHere (fault (← get)) : Parser α) Q := by
  obtain ⟨d, hd, hcd, -⟩ := c.exists_after hfree (List.append_nil c.cursor.rest).symm
  -- The token is taken at once, so that no place has it.
  have hfail : Runs w d s (do
      recover e
      throw ⟨⟨c.lo, c.hi + Text.size c.cursor.rest⟩, fault { c.cursor with
        token := ⟨.invalid e, ⟨c.lo, c.hi + Text.size c.cursor.rest⟩, false⟩, rest := [] }⟩) Q :=
    .call (hw.trans hcd) (runs_recover d s e) fun _ _ _ hwd _ ↦ .throw hwd
  unfold Runs at hfail ⊢
  rw [hd] at hfail
  have hadvance : { c.cursor with
      token := ⟨.invalid e, ⟨c.lo, c.hi + Text.size c.cursor.rest⟩, false⟩, rest := [] }.advance =
      { c.cursor with prevEnd := c.hi + Text.size c.cursor.rest }.goto
        (c.hi + Text.size c.cursor.rest) [] := if_neg (by simp [hfree])
  rw [← hadvance] at hfail
  exact hfail

/-- The rest of a template after a stretch of its text: its end, or one more part. -/
theorem runs_templateRest {item : Parser Node} {ns : List Node} {rest : List Char} {last : Bool}
    (hcd : c ≤ d) (hfree : d.stuck = false) (hns : d.HasAll c.lo ns)
    (hitem : ∀ d, c ≤ d → Runs d d s item fun n e ↦ e.Has d.lo n)
    (hchunk : Token.templateChunk d.cursor.rest = some (rest, last)) :
    Runs d d s (do
      let stop := d.cursor.token.span.hi + (Text.size d.cursor.rest - Text.size rest)
      MonadStateOf.set ({ d.cursor with prevEnd := stop }.goto stop rest)
      if last then
        return Sum.inr ns
      let n ← item
      if !(← isPunct .rbrace) then
        failExpected Punct.rbrace.text
      return Sum.inl (ns ++ [n]))
      (Next (fun ns e ↦ e.stuck = false ∧ e.HasAll c.lo ns) (Listed c)) := by
  obtain ⟨v, hrest⟩ := exists_append_of_templateChunk hchunk
  obtain ⟨e, he, hde, hprev⟩ := d.exists_after hfree hrest
  have hstop : d.cursor.token.span.hi + (Text.size d.cursor.rest - Text.size rest) =
      d.hi + Text.size v := by
    rw [hrest, Text.size_append, Nat.add_sub_cancel]
  have hpast : d.Past e := Place.past_of_taken hde (by rw [hprev]; exact Nat.le_add_right _ _)
  refine .set (by rw [he, hstop]) ?_
  split
  · exact .pure hde ⟨hpast.of_le hcd, hns.of_le hde⟩
  refine .call hde (hitem e (hcd.trans hde)) fun n e' hee' hde' hn ↦ ?_
  rw [runs_isPunct]
  refine .guard (fun _ ↦ .failExpected hde') fun hbrace ↦ .pure hde' ?_
  refine ⟨e'.free_of_form fun x hx ↦ ?_, (hns.of_le hde).append hee' (hn.from_le (hcd.trans hde))⟩
  rw [hx] at hbrace
  exact hbrace rfl

theorem runs_templateParts {item : Parser Node} {tagged : Bool} (hfree : c.stuck = false)
    (hitem : ∀ d, c ≤ d → Runs d d s item fun n e ↦ e.Has d.lo n) :
    Runs c c s (templateParts tagged item) (Listed c) := by
  unfold templateParts
  rw [runs_here]
  refine runs_iterate (fun ns d ↦ d.stuck = false ∧ d.HasAll c.lo ns) ⟨hfree, Place.hasAll_nil⟩
    fun ns d hcd ⟨hdfree, hns⟩ ↦ ?_
  rw [runs_get]
  split
  · exact runs_failUnended (le_refl d) hdfree
      ⟨⟨c.lo, d.hi + Text.size d.cursor.rest⟩, .unterminatedTemplate⟩
      fun x ↦ .unexpected x.tokenText "template token"
  · rename_i rest last hchunk
    have hnext := runs_templateRest hcd hdfree hns hitem hchunk
    dsimp only
    split
    · split
      · exact .stop (.throw (le_refl d))
      · exact hnext
    · exact hnext

end OptionalChain.Grammar
