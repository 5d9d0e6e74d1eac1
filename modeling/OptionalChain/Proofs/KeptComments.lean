import Mathlib.Data.List.TakeWhile
import OptionalChain.Proofs.MarkedText
import OptionalChain.Proofs.MovedComments

/-!
# Comments that are kept

The comments of a chain either are moved in front of what is kept of it or stand in what is kept.
None of them is lost, and those that stand in what is kept stay as they are unless a marker is put
into one. A fallback keeps the comments of its value and of a key in brackets, and no others.
-/

namespace OptionalChain

open Text (At Boundary)

/-! ## Comments between insertions -/

namespace Comment

variable {f : SourceFile} {lo hi : Nat} {m : Comment} {ms : List Comment}

theorem InOrder.tail (h : InOrder lo hi (m :: ms)) : InOrder m.span.hi hi ms where
  bounds k hk := ⟨(List.pairwise_cons.1 h.sorted).1 k hk,
    (h.bounds k (List.mem_cons_of_mem m hk)).2⟩
  sorted := (List.pairwise_cons.1 h.sorted).2

/-- Comments that end up to an offset come before the others. -/
theorem InOrder.filter_eq_append (h : InOrder lo hi ms) (p : Comment → Bool) (pos : Nat) :
    ms.filter p =
      (ms.filter fun m ↦ p m && m.span.hi ≤ pos) ++ ms.filter fun m ↦ p m && pos < m.span.hi := by
  induction ms generalizing lo with
  | nil => rfl
  | cons m ms ih =>
    have hrest := ih h.tail
    cases hp : p m with
    | false => simpa [hp] using hrest
    | true =>
      by_cases hend : m.span.hi ≤ pos
      · simpa [hp, hend, Nat.not_lt.2 hend] using hrest
      · have hnone : (ms.filter fun m ↦ p m && m.span.hi ≤ pos) = [] := by
          refine List.filter_eq_nil_iff.2 fun k hk ↦ ?_
          have hbounds := h.tail.bounds k hk
          have hlater : ¬k.span.hi ≤ pos := by omega
          simp [hlater]
        rw [hnone] at hrest
        simpa [hp, hend, hnone, Nat.lt_of_not_le hend] using hrest

theorem SitsIn.boundary_lo {text : List Char} (h : m.SitsIn text) : Boundary text m.span.lo := by
  obtain ⟨piece, rest, hat, -⟩ := h
  exact hat.boundary

theorem SitsIn.boundary_hi {text : List Char} (h : m.SitsIn text) : Boundary text m.span.hi := by
  obtain ⟨piece, rest, hat, hhi, -⟩ := h
  exact hhi ▸ hat.append.boundary

theorem relocated_eq (f : SourceFile) (m : Comment) :
    m.relocated f = Text.slice m.span.lo m.span.hi f.text ++
      [if m.style = .line then '\n' else ' '] := by
  unfold relocated separator
  cases m.style <;> rfl

end Comment

/-- The text up to `stop` with insertions, put together around comments that stay as they are. -/
def spliceAround (text : List Char) (stop : Nat) : Nat → List Comment → List Insertion → List Char
  | cursor, [], xs => spliceFrom text stop cursor xs
  | cursor, m :: ms, xs =>
    spliceFrom text m.span.lo cursor (xs.takeWhile (·.offset ≤ m.span.lo)) ++
      Text.slice m.span.lo m.span.hi text ++
      spliceAround text stop m.span.hi ms (xs.dropWhile (·.offset ≤ m.span.lo))

namespace Insertion

variable {text : List Char} {lo hi first last : Nat} {xs : List Insertion}

theorem lt_offset_of_mem_dropWhile (h : xs.Pairwise (·.offset ≤ ·.offset)) {i : Insertion}
    (hi : i ∈ xs.dropWhile (·.offset ≤ first)) : first < i.offset := by
  induction xs with
  | nil => cases hi
  | cons j xs ih =>
    obtain ⟨hj, hxs⟩ := List.pairwise_cons.1 h
    rw [List.dropWhile_cons] at hi
    split at hi
    · exact ih hxs hi
    · rename_i hlater
      have hlt : first < j.offset := by simpa using hlater
      obtain rfl | hi := List.mem_cons.1 hi
      · exact hlt
      · exact Nat.lt_of_lt_of_le hlt (hj i hi)

/-- Insertions that are made outside a piece of the text are made before it or after it. -/
theorem Between.split (h : Between text lo hi xs) (hfirst : Boundary text first)
    (hlast : Boundary text last) (hlo : lo ≤ first) (hhi : last ≤ hi)
    (houtside : ∀ i ∈ xs, last ≤ i.offset ∨ i.offset ≤ first) :
    Between text lo first (xs.takeWhile (·.offset ≤ first)) ∧
      Between text last hi (xs.dropWhile (·.offset ≤ first)) := by
  have hbefore : (xs.takeWhile (·.offset ≤ first)).Sublist xs := List.takeWhile_sublist _
  have hafter : (xs.dropWhile (·.offset ≤ first)).Sublist xs := List.dropWhile_sublist _
  constructor
  · exact
      { lo := h.lo
        hi := hfirst
        le := hlo
        boundary := fun i hi ↦ h.boundary i (hbefore.subset hi)
        bounds := fun i hi ↦ ⟨(h.bounds i (hbefore.subset hi)).1,
          by simpa using List.mem_takeWhile_imp hi⟩
        sorted := h.sorted.sublist hbefore }
  · exact
      { lo := hlast
        hi := h.hi
        le := hhi
        boundary := fun i hi ↦ h.boundary i (hafter.subset hi)
        bounds := fun i hi ↦ by
          have hlt := lt_offset_of_mem_dropWhile h.sorted hi
          have hi := hafter.subset hi
          exact ⟨(houtside i hi).resolve_right (by omega), (h.bounds i hi).2⟩
        sorted := h.sorted.sublist hafter }

/-- Comments that no insertion is made in stay as they are. -/
theorem Between.spliceFrom_eq_spliceAround {ms : List Comment} (h : Between text lo hi xs)
    (hms : Comment.InOrder lo hi ms) (hsits : ∀ m ∈ ms, m.SitsIn text)
    (houtside : ∀ i ∈ xs, Comment.Outside ms i.offset) :
    spliceFrom text hi lo xs = spliceAround text hi lo ms xs := by
  -- Each comment cuts the text and the insertions in two.
  induction ms generalizing lo xs with
  | nil => rfl
  | cons m ms ih =>
    obtain ⟨hm, hrest⟩ := List.forall_mem_cons.1 hsits
    obtain ⟨hlo, hforward, hhi⟩ := hms.bounds m List.mem_cons_self
    obtain ⟨hbefore, hafter⟩ := h.split hm.boundary_lo hm.boundary_hi hlo hhi fun i hi ↦
      houtside i hi m List.mem_cons_self
    have hlater : Between text m.span.lo hi (xs.dropWhile (·.offset ≤ m.span.lo)) :=
      { hafter with
        lo := hm.boundary_lo
        le := Nat.le_trans hforward hhi
        bounds := fun i hi ↦
          ⟨Nat.le_trans hforward (hafter.bounds i hi).1, (hafter.bounds i hi).2⟩ }
    obtain ⟨rest, hat, -⟩ := hm.boundary_lo.at_slice hm.boundary_hi hforward
    have hsize := hm.boundary_lo.size_slice hm.boundary_hi hforward
    have hkept := ih hafter hms.tail hrest fun i hi k hk ↦
      houtside i ((List.dropWhile_sublist _).subset hi) k (List.mem_cons_of_mem m hk)
    calc spliceFrom text hi lo xs
        = spliceFrom text hi lo (xs.takeWhile (·.offset ≤ m.span.lo) ++
            xs.dropWhile (·.offset ≤ m.span.lo)) := by rw [List.takeWhile_append_dropWhile]
      _ = spliceFrom text m.span.lo lo (xs.takeWhile (·.offset ≤ m.span.lo)) ++
            spliceFrom text hi m.span.lo (xs.dropWhile (·.offset ≤ m.span.lo)) :=
          hbefore.spliceFrom_append hlater
      _ = spliceFrom text m.span.lo lo (xs.takeWhile (·.offset ≤ m.span.lo)) ++
            (Text.slice m.span.lo m.span.hi text ++
              spliceFrom text hi m.span.hi (xs.dropWhile (·.offset ≤ m.span.lo))) := by
          rw [Between.spliceFrom_of_at (by rwa [hsize]) hat, hsize]
      _ = spliceAround text hi lo (m :: ms) xs := by
          rw [hkept, spliceAround, List.append_assoc]

end Insertion

/-! ## Comments of a chain -/

namespace Chain

variable {f : SourceFile} {first : Node} {x : Chain}

/-- The comments of a chain that are not moved. -/
def keptComments (f : SourceFile) (x : Chain) : List Comment :=
  f.comments.filter fun m ↦ m.span.within x.span && x.terminal.span.lo < m.span.hi

/-- The comments of a chain that are moved come first. -/
theorem StandsIn.comments_eq {lo hi : Nat} (h : x.StandsIn f first)
    (horder : Comment.InOrder lo hi f.comments) :
    f.comments.filter (·.span.within x.span) = x.removedComments f ++ x.keptComments f := by
  have hremoved : x.removedComments f =
      f.comments.filter fun m ↦ m.span.within x.span && m.span.hi ≤ x.terminal.span.lo := by
    refine List.filter_congr fun m _ ↦ ?_
    rw [SourceFile.clamp_eq h.lo, SourceFile.clamp_eq h.seatsTerminal.sits.lo, Span.within, h.hi_eq,
      Bool.eq_iff_iff]
    have hforward := h.terminal_forward
    simp only [Bool.and_eq_true, decide_eq_true_eq]
    omega
  rw [hremoved]
  exact horder.filter_eq_append _ _

/-- Those that are moved stand before the last operand. -/
theorem StandsIn.inOrder_removedComments {lo hi : Nat} (h : x.StandsIn f first)
    (horder : Comment.InOrder lo hi f.comments) :
    Comment.InOrder x.span.lo x.terminal.span.lo (x.removedComments f) where
  bounds m hm := by
    obtain ⟨hmem, hmoved⟩ := List.mem_filter.1 hm
    have hbounds := horder.bounds m hmem
    rw [SourceFile.clamp_eq h.lo, SourceFile.clamp_eq h.seatsTerminal.sits.lo] at hmoved
    simp only [Bool.and_eq_true, decide_eq_true_eq] at hmoved
    omega
  sorted := horder.sorted.sublist List.filter_sublist

/-- Those that are not moved stand in the last operand. -/
theorem StandsIn.inOrder_keptComments {lo hi : Nat} (h : x.StandsIn f first)
    (horder : Comment.InOrder lo hi f.comments)
    (hopens : Comment.Outside f.comments x.terminal.span.lo) :
    Comment.InOrder x.terminal.span.lo x.terminal.span.hi (x.keptComments f) where
  bounds m hm := by
    obtain ⟨hmem, hkept⟩ := List.mem_filter.1 hm
    have hbounds := horder.bounds m hmem
    have hopen := hopens m hmem
    rw [Span.within, h.hi_eq] at hkept
    simp only [Bool.and_eq_true, decide_eq_true_eq] at hkept
    omega
  sorted := horder.sorted.sublist List.filter_sublist

end Chain

/-! ## Texts with a changed part -/

namespace Text

variable {before body after cs ds : List Char} {lo hi : Nat}

/-- What is cut out before a place does not depend on the text after it. -/
theorem slice_append_of_le (hlo : Boundary (before ++ cs) lo) (hhi : Boundary (before ++ cs) hi)
    (hle : lo ≤ hi) (hend : hi ≤ size before) :
    slice lo hi (before ++ ds) = slice lo hi (before ++ cs) := by
  obtain ⟨piece, rest, ⟨front, htext, rfl⟩, rfl⟩ := hlo.exists_piece hhi hle
  rw [← List.append_assoc] at htext
  obtain ⟨gap, rfl, rfl⟩ := exists_eq_append htext.symm (by rwa [size_append])
  have hold : At (front ++ piece ++ gap ++ cs) (size front) (piece ++ (gap ++ cs)) :=
    ⟨front, by simp, rfl⟩
  have hnew : At (front ++ piece ++ gap ++ ds) (size front) (piece ++ (gap ++ ds)) :=
    ⟨front, by simp, rfl⟩
  rw [slice_of_slice? hold.slice?, slice_of_slice? hnew.slice?]

/-- What is cut out after a place depends on the text before it by its size only. -/
theorem slice_append_of_ge (hlo : Boundary (cs ++ after) lo) (hhi : Boundary (cs ++ after) hi)
    (hle : lo ≤ hi) (hstart : size cs ≤ lo) (hsize : size ds = size cs) :
    slice lo hi (ds ++ after) = slice lo hi (cs ++ after) := by
  obtain ⟨piece, rest, ⟨front, htext, rfl⟩, rfl⟩ := hlo.exists_piece hhi hle
  obtain ⟨gap, rfl, rfl⟩ := exists_eq_append htext hstart
  have hold : At (cs ++ (gap ++ (piece ++ rest))) (size (cs ++ gap)) (piece ++ rest) :=
    ⟨cs ++ gap, by simp, rfl⟩
  have hnew : At (ds ++ (gap ++ (piece ++ rest))) (size (cs ++ gap)) (piece ++ rest) :=
    ⟨ds ++ gap, by simp, by rw [size_append, size_append, hsize]⟩
  rw [slice_of_slice? hold.slice?, slice_of_slice? hnew.slice?]

/-- What is cut out around a part has it in a fixed place. -/
theorem exists_slice_around (hlo : Boundary (before ++ (body ++ after)) lo)
    (hhi : Boundary (before ++ (body ++ after)) hi) (hstart : lo ≤ size before)
    (hend : size before + size body ≤ hi) :
    ∃ front back, ∀ w, size w = size body →
      slice lo hi (before ++ (w ++ after)) = front ++ (w ++ back) := by
  obtain ⟨cs, start, htext, rfl⟩ := hlo
  obtain ⟨front, rfl, -⟩ := exists_eq_append htext.symm hstart
  obtain ⟨rest, cut, htext', rfl⟩ := hhi
  rw [← List.append_assoc] at htext'
  obtain ⟨back, rfl, rfl⟩ := exists_eq_append htext' (by rwa [size_append])
  refine ⟨front, back, fun w hw ↦ ?_⟩
  have hat : At (start ++ front ++ (w ++ (back ++ rest))) (size start)
      ((front ++ (w ++ back)) ++ rest) := ⟨start, by simp, rfl⟩
  have hsize : size (start ++ front ++ body ++ back) =
      size start + size (front ++ (w ++ back)) := by
    simp only [size_append, hw]
    omega
  rw [hsize, slice_of_slice? hat.slice?]

end Text

namespace SourceFile

variable {f : SourceFile} {before body after : List Char} {s : Span}

/-- The file with another text in the place of a part. -/
def withPart (f : SourceFile) (before after : List Char) (w : List Char) : SourceFile :=
  { f with text := before ++ (w ++ after) }

theorem slice_withPart (htext : f.text = before ++ (body ++ after)) (hlo : Boundary f.text s.lo)
    (hhi : Boundary f.text s.hi) {w : List Char} (hw : Text.size w = Text.size body) :
    (f.withPart before after w).slice s = Text.slice s.lo s.hi (before ++ (w ++ after)) := by
  have hsize : Text.size (f.withPart before after w).text = Text.size f.text := by
    rw [htext]
    simp only [withPart, Text.size_append, hw]
  have hclamp {pos : Nat} (h : Boundary f.text pos) :
      (f.withPart before after w).clamp pos = pos := by
    rw [clamp, hsize]
    exact Nat.min_eq_left h.le_size
  rw [slice, slice?, hclamp hlo, hclamp hhi]
  rfl

/-- The text of a span apart from a part stays the same when the part is changed. -/
theorem slice_withPart_of_apart (htext : f.text = before ++ (body ++ after))
    (hlo : Boundary f.text s.lo) (hhi : Boundary f.text s.hi) (hle : s.lo ≤ s.hi)
    (hapart : s.hi ≤ Text.size before ∨ Text.size before + Text.size body ≤ s.lo) {w : List Char}
    (hw : Text.size w = Text.size body) : (f.withPart before after w).slice s = f.slice s := by
  rw [slice_withPart htext hlo hhi hw, (slice?_eq hlo hhi hle).2, htext]
  rw [htext] at hlo hhi
  obtain hend | hstart := hapart
  · exact Text.slice_append_of_le hlo hhi hle hend
  · rw [← List.append_assoc] at hlo hhi
    rw [← List.append_assoc, ← List.append_assoc]
    exact Text.slice_append_of_ge hlo hhi hle (by rwa [Text.size_append])
      (by rw [Text.size_append, Text.size_append, hw])

/-- The text of a span around a part has the part in a fixed place. -/
theorem exists_slice_withPart (htext : f.text = before ++ (body ++ after))
    (hlo : Boundary f.text s.lo) (hhi : Boundary f.text s.hi) (hstart : s.lo ≤ Text.size before)
    (hend : Text.size before + Text.size body ≤ s.hi) :
    ∃ front back, ∀ w, Text.size w = Text.size body →
      (f.withPart before after w).slice s = front ++ (w ++ back) := by
  obtain ⟨front, back, hslice⟩ := Text.exists_slice_around (htext ▸ hlo) (htext ▸ hhi) hstart hend
  exact ⟨front, back, fun w hw ↦ (slice_withPart htext hlo hhi hw).trans (hslice w hw)⟩

end SourceFile

/-! ## Comments of a fallback -/

namespace Fallback

variable {f f' : SourceFile} {b : Fallback} {key : Node}

/-- The text of the span goes into the replacement. -/
def copies (b : Fallback) (s : Span) : Bool :=
  s.within b.value.span || !b.key.kind.isDotted && s.within b.key.span

theorem keyText_of_not_isDotted (h : key.kind.isDotted = false) :
    keyText f key = f.slice key.span := by
  unfold keyText
  cases hkind : key.kind with
  | name | privateName =>
    rw [hkind] at h
    cases h
  | _ => rfl

/-- A name after a dot is written as it is, any other key is copied. -/
theorem keyText_congr (h : key.kind.isDotted = false → f'.slice key.span = f.slice key.span) :
    keyText f' key = keyText f key := by
  cases hdotted : key.kind.isDotted with
  | true =>
    unfold keyText
    cases hkind : key.kind with
    | name | privateName => rfl
    | _ =>
      rw [hkind] at hdotted
      cases hdotted
  | false => rw [keyText_of_not_isDotted hdotted, keyText_of_not_isDotted hdotted, h hdotted]

/-- The text that is copied from the value, with parentheses where they are needed. -/
theorem replacement_eq (b : Fallback) : ∃ opening closing, ∀ f,
    b.replacement f = opening ++ (f.slice b.value.span ++ (closing ++ keyText f b.key)) := by
  cases hbare : isBare b.value.kind with
  | true => exact ⟨[], ['?', '.'], fun f ↦ by simp [replacement, hbare]⟩
  | false => exact ⟨['('], [')', '?', '.'], fun f ↦ by simp [replacement, hbare]⟩

variable {n : Node} {m : Comment} {before body after : List Char}

/-- The value stands before the key. -/
theorem laysOut_parts (h : of? n = some b) (hn : f.LaysOut n) :
    f.LaysOut b.value ∧ f.LaysOut b.key ∧ b.value.span.lo ≤ b.value.span.hi ∧
      b.value.span.hi ≤ b.key.span.lo ∧ b.key.span.lo ≤ b.key.span.hi := by
  obtain ⟨optional, s, t, inner, u, fallback, rfl, hinner⟩ := exists_parts_of_of? h
  have hobject : f.LaysOut (.paren t inner) := hn.of_mem (by simp)
  have hoperator : f.LaysOut (.binary b.op u b.value fallback) :=
    hinner ▸ (hobject.of_mem (by simp)).of_mem_preorder inner.stripParens_mem_preorder
  have hvalue : (Node.paren t inner).Surrounds b.value :=
    .paren (Node.surrounds_of_stripParens (hinner ▸ .left (.refl b.value)))
  obtain ⟨-, hapart, hkey, -⟩ := hn.seats.sits.shape
  exact ⟨hoperator.of_mem (by simp), hn.of_mem (by simp), hoperator.seats.sits.shape.2.1,
    Nat.le_trans (hvalue.within hobject.seats).2 hapart, hkey⟩

/-- A comment that is copied can be exchanged in the replacement. -/
theorem exists_replacement_of_copies (h : of? n = some b) (hn : f.LaysOut n)
    (htext : f.text = before ++ (body ++ after)) (hlo : m.span.lo = Text.size before)
    (hhi : m.span.hi = Text.size before + Text.size body) (hcopies : b.copies m.span = true) :
    ∃ front back, ∀ w, Text.size w = Text.size body →
      b.replacement (f.withPart before after w) = front ++ (w ++ back) := by
  obtain ⟨hvalue, hkey, hforward, hapart, hkeyForward⟩ := laysOut_parts h hn
  have hvalueSits := hvalue.seats.sits
  have hkeySits := hkey.seats.sits
  obtain ⟨opening, closing, hreplacement⟩ := b.replacement_eq
  simp only [copies, Bool.or_eq_true, Bool.and_eq_true, Bool.not_eq_true', Span.within_iff, hlo,
    hhi] at hcopies
  obtain ⟨hstart, hend⟩ | ⟨hdotted, hstart, hend⟩ := hcopies
  · obtain ⟨front, back, hslice⟩ := SourceFile.exists_slice_withPart htext hvalueSits.lo
      hvalueSits.hi hstart hend
    have hkeyText (w : List Char) (hw : Text.size w = Text.size body) :
        keyText (f.withPart before after w) b.key = keyText f b.key :=
      keyText_congr fun _ ↦ SourceFile.slice_withPart_of_apart htext hkeySits.lo hkeySits.hi
        hkeyForward (.inr (by omega)) hw
    refine ⟨opening ++ front, back ++ (closing ++ keyText f b.key), fun w hw ↦ ?_⟩
    rw [hreplacement, hslice w hw, hkeyText w hw]
    simp only [List.append_assoc]
  · obtain ⟨front, back, hslice⟩ := SourceFile.exists_slice_withPart htext hkeySits.lo hkeySits.hi
      hstart hend
    refine ⟨opening ++ (f.slice b.value.span ++ (closing ++ front)), back, fun w hw ↦ ?_⟩
    have hstays := SourceFile.slice_withPart_of_apart htext hvalueSits.lo hvalueSits.hi hforward
      (.inl (by omega)) hw
    rw [hreplacement, keyText_of_not_isDotted hdotted, hslice w hw, hstays]
    simp only [List.append_assoc]

/-- No other comment leaves a trace in it. -/
theorem replacement_of_not_copies (h : of? n = some b) (hn : f.LaysOut n) (hm : m ∈ f.comments)
    (htext : f.text = before ++ (body ++ after)) (hlo : m.span.lo = Text.size before)
    (hhi : m.span.hi = Text.size before + Text.size body) (hcopies : b.copies m.span = false)
    {w : List Char} (hw : Text.size w = Text.size body) :
    b.replacement (f.withPart before after w) = b.replacement f := by
  obtain ⟨hvalue, hkey, hforward, -, hkeyForward⟩ := laysOut_parts h hn
  have hstays {part : Node} (hpart : f.LaysOut part) (hforward : part.span.lo ≤ part.span.hi)
      (hwithin : m.span.within part.span = false) :
      (f.withPart before after w).slice part.span = f.slice part.span := by
    have hopens := hpart.opens part part.self_mem_preorder m hm
    have hcloses := hpart.closes part part.self_mem_preorder m hm
    have hnot : ¬(part.span.lo ≤ m.span.lo ∧ m.span.hi ≤ part.span.hi) := by
      rw [← Span.within_iff, hwithin]
      exact Bool.false_ne_true
    exact SourceFile.slice_withPart_of_apart htext hpart.seats.sits.lo hpart.seats.sits.hi hforward
      (by omega) hw
  obtain ⟨hout, hkeyOut⟩ : m.span.within b.value.span = false ∧
      (b.key.kind.isDotted = true ∨ m.span.within b.key.span = false) := by
    simpa [copies, or_iff_not_imp_left] using hcopies
  obtain ⟨opening, closing, hreplacement⟩ := b.replacement_eq
  have hkeyText : keyText (f.withPart before after w) b.key = keyText f b.key :=
    keyText_congr fun hdotted ↦ hstays hkey hkeyForward (hkeyOut.resolve_left (by simp [hdotted]))
  rw [hreplacement, hreplacement, hstays hvalue hforward hout, hkeyText]

end Fallback

namespace PreferOptionalChain

open Outcome (markSize)
open SourceFile (ofText)

variable {c : Context} {x : Chain}

/-- The comments of a chain in a file without a byte-order mark are those that are moved and, after
them, those of the last operand. The replacement has the comments that are moved first, each
followed by a line end or a blank, and as such they are skipped. The last operand follows, and its
comments are in it as they are, with the text between them and the markers that were put in there,
if no marker is put into a comment. None is where what stands before the steps of the guards is
legible. -/
theorem chain_fix_keeps_comments {name : String} {text : List Char} {program n : Node}
    {style : ChainStyle} (h : (ofText name text).program? = some program) (hwhole : program.Whole)
    (hmark : markSize text = 0) (hc : c.file = ofText name text) (hn : n ∈ program.preorder)
    (hstyle : runStyle? n = some style) (hx : x ∈ (c.finder style).find (n.flatten style)) :
    c.file.comments.filter (·.span.within x.span) =
        x.removedComments c.file ++ x.keptComments c.file ∧
      Comment.InOrder x.span.lo x.terminal.span.lo (x.removedComments c.file) ∧
      Comment.InOrder x.terminal.span.lo x.terminal.span.hi (x.keptComments c.file) ∧
      ((∀ m ∈ x.removedComments c.file, m.IsSlashed c.file) →
        ∀ g, ∃ g', Token.Skipped .blanks g (x.movedText c.file) g') ∧
      ((∀ i ∈ x.insertions, Comment.Outside (x.keptComments c.file) i.offset) →
        x.replacement? c.file = some
          (((x.removedComments c.file).flatMap fun m ↦ Text.slice m.span.lo m.span.hi text ++
            [if m.style = .line then '\n' else ' ']) ++
          spliceAround text x.terminal.span.hi x.terminal.span.lo (x.keptComments c.file)
            x.insertions)) ∧
      ((∀ s ∈ x.boundaries, ∃ cs, Token.Legible text s.start cs) →
        ∀ i ∈ x.insertions, Comment.Outside c.file.comments i.offset) := by
  have htext : c.file.text = text := by rw [hc]; rfl
  have hlays : c.file.LaysOut program := hc ▸ SourceFile.laysOut_of_parse h hwhole hmark
  have hsits : ∀ m ∈ c.file.comments, m.SitsIn c.file.text :=
    hc ▸ SourceFile.sitsIn_of_mem_comments hmark
  obtain ⟨first, hstands, hlast, -, hrow⟩ := Context.exists_inRow hlays hn hstyle hx
  have hinsertions := hstands.insertions_eq hrow
  obtain ⟨stop, horder⟩ := hlays.inOrder
  have hkept := hstands.inOrder_keptComments horder
    (hlast.opens x.terminal x.terminal.self_mem_preorder)
  rw [← htext]
  refine ⟨hstands.comments_eq horder, hstands.inOrder_removedComments horder, hkept, ?_, ?_, ?_⟩
  · intro hslashed g
    obtain ⟨g', hg', -⟩ := Comment.exists_skipped_flatMap
      (fun m hm ↦ hsits m (List.mem_filter.1 hm).1) hslashed g
    exact ⟨g', hg'⟩
  · intro houtside
    rw [hinsertions] at houtside ⊢
    rw [hstands.replacement?_eq hsits hrow, (hstands.between hrow).spliceFrom_eq_spliceAround hkept
      (fun m hm ↦ hsits m (List.mem_filter.1 hm).1) houtside]
    simp only [Chain.movedText, Comment.relocated_eq]
  · intro hlegible i hi
    rw [hinsertions] at hi
    obtain ⟨s, hs, hoptional, rfl⟩ := Step.mem_marks.1 hi
    obtain ⟨cs, hcs⟩ := hlegible s hs
    exact ((hrow.isOf s hs).startsWith (hrow.laysOut s hs) hcs hoptional).outside

def guardedComments : SourceFile :=
  .ofText "a.ts" "a != null && // c\n a /* k */ .b;".toList

def guardedCommentsProgram : Node :=
  guardedComments.program?.get (by decide +kernel)

/-- The comment of the guard is moved, and the one before the dot stays there. -/
theorem guarded_comments_kept :
    guardedComments.program? = some guardedCommentsProgram ∧
      ∃ n ∈ guardedCommentsProgram.preorder, runStyle? n = some .and ∧
        ∃ x ∈ (Context.finder ⟨guardedComments, .untyped, {}⟩ .and).find (n.flatten .and),
          guardedComments.comments.filter (·.span.within x.span) =
            [⟨.line, ⟨13, 17⟩⟩] ++ [⟨.block, ⟨21, 28⟩⟩] ∧
          (∀ g, ∃ g', Token.Skipped .blanks g (x.movedText guardedComments) g') ∧
          x.replacement? guardedComments =
            some ("// c\n".toList ++ ("a ".toList ++ "/* k */".toList ++ " ?.b".toList)) := by
  have hprogram : guardedComments.program? = some guardedCommentsProgram := (Option.some_get _).symm
  obtain ⟨hwhole, n, hn, hstyle, x, hx, hmoved, hkept, hslashed, houtside, hpieces⟩ :
      guardedCommentsProgram.Whole ∧
      ∃ n ∈ guardedCommentsProgram.preorder, runStyle? n = some .and ∧
        ∃ x ∈ (Context.finder ⟨guardedComments, .untyped, {}⟩ .and).find (n.flatten .and),
          x.removedComments guardedComments = [⟨.line, ⟨13, 17⟩⟩] ∧
          x.keptComments guardedComments = [⟨.block, ⟨21, 28⟩⟩] ∧
          (∀ m ∈ x.removedComments guardedComments, m.IsSlashed guardedComments) ∧
          (∀ i ∈ x.insertions, ∀ m ∈ x.keptComments guardedComments,
            m.span.hi ≤ i.offset ∨ i.offset ≤ m.span.lo) ∧
          ((x.removedComments guardedComments).flatMap fun m ↦
            Text.slice m.span.lo m.span.hi guardedComments.text ++
              [if m.style = .line then '\n' else ' ']) ++
          spliceAround guardedComments.text x.terminal.span.hi x.terminal.span.lo
            (x.keptComments guardedComments) x.insertions =
            "// c\n".toList ++ ("a ".toList ++ "/* k */".toList ++ " ?.b".toList) := by
    decide +kernel
  obtain ⟨hcomments, -, -, hskipped, hreplacement, -⟩ := chain_fix_keeps_comments
    (c := ⟨guardedComments, .untyped, {}⟩) hprogram hwhole (by decide +kernel) rfl hn hstyle hx
  refine ⟨hprogram, n, hn, hstyle, x, hx, ?_, hskipped hslashed,
    (hreplacement houtside).trans (congrArg some hpieces)⟩
  rw [← hmoved, ← hkept]
  exact hcomments

/-- The replacement of a fallback in a file without a byte-order mark has the comments of the value
and of a key in brackets, each in a place where any other text of its size would stand as well. No
other comment of the file leaves a trace in it: those between these parts are lost. -/
theorem fallback_fix_keeps_comments_of_parts {name : String} {text : List Char} {program n : Node}
    {b : Fallback} (h : (ofText name text).program? = some program) (hwhole : program.Whole)
    (hmark : markSize text = 0) (hn : n ∈ program.preorder) (hb : Fallback.of? n = some b)
    {m : Comment} (hm : m ∈ (ofText name text).comments) :
    m.SitsIn text ∧ ∀ before body after, text = before ++ (body ++ after) →
      m.span.lo = Text.size before → m.span.hi = Text.size before + Text.size body →
      (b.copies m.span = true → ∃ front back, ∀ w, Text.size w = Text.size body →
        b.replacement ((ofText name text).withPart before after w) = front ++ (w ++ back)) ∧
      (b.copies m.span = false → ∀ w, Text.size w = Text.size body →
        b.replacement ((ofText name text).withPart before after w) =
          b.replacement (ofText name text)) := by
  have hlays : (ofText name text).LaysOut n :=
    (SourceFile.laysOut_of_parse h hwhole hmark).of_mem_preorder hn
  refine ⟨?_, fun before body after htext hlo hhi ↦ ⟨fun hcopies ↦ ?_, fun hcopies w hw ↦ ?_⟩⟩
  · exact SourceFile.sitsIn_of_mem_comments hmark m hm
  · exact Fallback.exists_replacement_of_copies hb hlays htext hlo hhi hcopies
  · exact Fallback.replacement_of_not_copies hb hlays hm htext hlo hhi hcopies hw

def commentedFallback : SourceFile :=
  .ofText "a.ts" "(a /* v */ .b /* c */ ?? \x7b\x7d).k;".toList

def commentedFallbackProgram : Node :=
  commentedFallback.program?.get (by decide +kernel)

/-- The comment in the value is kept, and the one after it is lost. -/
theorem commented_fallback_loses_comment :
    commentedFallback.program? = some commentedFallbackProgram ∧
      ∃ n ∈ commentedFallbackProgram.preorder, ∃ b, Fallback.of? n = some b ∧
        b.replacement commentedFallback = "a /* v */ .b?.k".toList ∧
        (∃ front back, ∀ w, Text.size w = 7 →
          b.replacement (commentedFallback.withPart "(a ".toList
            " .b /* c */ ?? \x7b\x7d).k;".toList w) = front ++ (w ++ back)) ∧
        ∀ w, Text.size w = 7 →
          b.replacement (commentedFallback.withPart "(a /* v */ .b ".toList
            " ?? \x7b\x7d).k;".toList w) = "a /* v */ .b?.k".toList := by
  have hprogram : commentedFallback.program? = some commentedFallbackProgram :=
    (Option.some_get _).symm
  obtain ⟨hwhole, n, hn, b, hb, hreplacement, hkept, hlost⟩ : commentedFallbackProgram.Whole ∧
      ∃ n ∈ commentedFallbackProgram.preorder, ∃ b ∈ Fallback.of? n,
        b.replacement commentedFallback = "a /* v */ .b?.k".toList ∧
        b.copies ⟨3, 10⟩ = true ∧ b.copies ⟨14, 21⟩ = false := by
    decide +kernel
  obtain ⟨-, hinner⟩ := fallback_fix_keeps_comments_of_parts hprogram hwhole (by decide +kernel) hn
    hb (m := ⟨.block, ⟨3, 10⟩⟩) (by decide +kernel)
  obtain ⟨-, houter⟩ := fallback_fix_keeps_comments_of_parts hprogram hwhole (by decide +kernel) hn
    hb (m := ⟨.block, ⟨14, 21⟩⟩) (by decide +kernel)
  refine ⟨hprogram, n, hn, b, hb, hreplacement, ?_, ?_⟩
  · exact (hinner "(a ".toList "/* v */".toList " .b /* c */ ?? \x7b\x7d).k;".toList
      (by decide +kernel) (by decide +kernel) (by decide +kernel)).1 hkept
  · rw [← hreplacement]
    exact (houter "(a /* v */ .b ".toList "/* c */".toList " ?? \x7b\x7d).k;".toList
      (by decide +kernel) (by decide +kernel) (by decide +kernel)).2 hlost

end PreferOptionalChain

end OptionalChain
