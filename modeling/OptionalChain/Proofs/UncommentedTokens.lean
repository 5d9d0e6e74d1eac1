import OptionalChain.Proofs.Placement.Search

/-!
# Tokens outside comments

In a range of a text that holds whole comments, the search finds the first token that is inside none
of them, or the end of the range. It never reads outside the text, whatever the range holds.
-/

namespace OptionalChain.Access

/-! ## Reads inside the text -/

section Reads

variable {bytes : Array UInt8} {stop : Nat}

theorem exists_lineEnd? (hstop : stop ≤ bytes.size) (i : Nat) :
    ∃ j, lineEnd? bytes stop i = some j := by
  fun_induction lineEnd? bytes stop i with
  | case1 i hi ih =>
    rw [Array.getElem?_eq_getElem (Nat.lt_of_lt_of_le hi hstop), Option.bind_eq_bind,
      Option.bind_some]
    split
    · exact ⟨i, rfl⟩
    · exact ih
  | case2 i => exact ⟨i, rfl⟩

theorem exists_blockEnd? (hstop : stop ≤ bytes.size) (i : Nat) :
    ∃ j, blockEnd? bytes stop i = some j := by
  fun_induction blockEnd? bytes stop i with
  | case1 i hi ih =>
    rw [closes?_eq (Nat.lt_of_lt_of_le hi hstop), Option.bind_eq_bind, Option.bind_some]
    split
    · exact ⟨i, rfl⟩
    · exact ih
  | case2 i => exact ⟨i, rfl⟩

theorem exists_turn? (hstop : stop ≤ bytes.size) (token : UInt8) {i : Nat} (hi : i < stop) :
    ∃ t, turn? bytes stop token i = some t := by
  obtain ⟨j, hline⟩ := exists_lineEnd? hstop i
  obtain ⟨k, hblock⟩ := exists_blockEnd? hstop (i + 2)
  rw [turn?, Array.getElem?_eq_getElem (Nat.lt_of_lt_of_le hi hstop), hline, hblock,
    Option.bind_eq_bind, Option.bind_some]
  split
  · exact ⟨_, rfl⟩
  · split
    · exact ⟨_, rfl⟩
    · split
      · exact ⟨_, rfl⟩
      · exact ⟨_, rfl⟩

/-- A search up to a place of the text never reads outside the text. -/
theorem exists_search? (hstop : stop ≤ bytes.size) (token : UInt8) (i : Nat) :
    ∃ r, search? bytes stop token i = some r := by
  fun_induction search? bytes stop token i with
  | case1 i hi hnone =>
    obtain ⟨t, ht⟩ := exists_turn? hstop token hi
    rw [hnone] at ht
    cases ht
  | case2 i => exact ⟨i, rfl⟩
  | case3 i hi j _ ih => exact ih
  | case4 => exact ⟨stop, rfl⟩

end Reads

/-! ## Comments of a range -/

/-- A line comment, which ends before a line feed or with the range. -/
structure IsLineComment (bytes : Array UInt8) (stop : Nat) (s : Span) : Prop where
  slash : bytes[s.lo]? = some '/'.toUInt8
  second : bytes[s.lo + 1]? = some '/'.toUInt8
  lo_lt : s.lo < s.hi
  body : ∀ i < s.hi, s.lo ≤ i → bytes[i]? ≠ some '\n'.toUInt8
  ends : bytes[s.hi]? = some '\n'.toUInt8 ∨ s.hi = stop

/-- A block comment up to its first end. -/
structure IsBlockComment (bytes : Array UInt8) (s : Span) : Prop where
  slash : bytes[s.lo]? = some '/'.toUInt8
  star : bytes[s.lo + 1]? = some '*'.toUInt8
  length : s.lo + 4 ≤ s.hi
  body : ∀ i < s.hi - 2, s.lo + 2 ≤ i → ¬Closes bytes i
  closes : Closes bytes (s.hi - 2)

/-- The comments of a range, whole and apart from each other. Whatever opens a comment in the range
is inside one of them. -/
structure Commented (bytes : Array UInt8) (start stop : Nat) (comments : List Span) : Prop where
  isComment : ∀ s ∈ comments, IsLineComment bytes stop s ∨ IsBlockComment bytes s
  within : ∀ s ∈ comments, start ≤ s.lo ∧ s.hi ≤ stop
  apart : ∀ s ∈ comments, ∀ t ∈ comments, s = t ∨ s.hi ≤ t.lo ∨ t.hi ≤ s.lo
  opens : ∀ i < stop - 1, start ≤ i → Opens bytes i → ∃ s ∈ comments, s.has i = true

/-- The token stands in the range at byte `i` and outside all comments. A slash that opens a comment
is not outside it, even if the comment goes on after the range. -/
structure Stands (bytes : Array UInt8) (start stop : Nat) (comments : List Span) (token : UInt8)
    (i : Nat) : Prop where
  start_le : start ≤ i
  lt_stop : i < stop
  byte : bytes[i]? = some token
  outside : ∀ s ∈ comments, s.has i = false
  not_opens : ¬Opens bytes i

instance (bytes : Array UInt8) (stop : Nat) (s : Span) : Decidable (IsLineComment bytes stop s) :=
  decidable_of_iff (_ ∧ _ ∧ _ ∧ _ ∧ _)
    ⟨fun h ↦ ⟨h.1, h.2.1, h.2.2.1, h.2.2.2.1, h.2.2.2.2⟩,
      fun h ↦ ⟨h.slash, h.second, h.lo_lt, h.body, h.ends⟩⟩

instance (bytes : Array UInt8) (s : Span) : Decidable (IsBlockComment bytes s) :=
  decidable_of_iff (_ ∧ _ ∧ _ ∧ _ ∧ _)
    ⟨fun h ↦ ⟨h.1, h.2.1, h.2.2.1, h.2.2.2.1, h.2.2.2.2⟩,
      fun h ↦ ⟨h.slash, h.star, h.length, h.body, h.closes⟩⟩

instance (bytes : Array UInt8) (start stop : Nat) (comments : List Span) :
    Decidable (Commented bytes start stop comments) :=
  decidable_of_iff (_ ∧ _ ∧ _ ∧ _)
    ⟨fun h ↦ ⟨h.1, h.2.1, h.2.2.1, h.2.2.2⟩, fun h ↦ ⟨h.isComment, h.within, h.apart, h.opens⟩⟩

section Passing

variable {bytes : Array UInt8} {stop : Nat} {s : Span} {token : UInt8}

/-- A line comment is passed up to its end. -/
theorem IsLineComment.search?_eq (h : IsLineComment bytes stop s) (hstop : stop ≤ bytes.size)
    (hs : s.hi ≤ stop) : search? bytes stop token s.lo = search? bytes stop token s.hi := by
  have hlt := h.lo_lt
  have hend : lineEnd? bytes stop s.lo = some s.hi :=
    lineEnd?_eq_some hstop (Nat.le_of_lt hlt) hs h.body h.ends
  rw [search?_of_line (by omega) h.slash h.second, hend, Option.bind_some]

/-- So is a block comment. -/
theorem IsBlockComment.search?_eq (h : IsBlockComment bytes s) (hstop : stop ≤ bytes.size)
    (hs : s.hi ≤ stop) : search? bytes stop token s.lo = search? bytes stop token s.hi := by
  have hlength := h.length
  have hend : blockEnd? bytes stop (s.lo + 2) = some (s.hi - 2) :=
    blockEnd?_eq_some hstop (by omega) (by omega) h.body h.closes
  rw [search?_of_block (by omega) h.slash h.star, hend, Option.bind_some,
    Nat.sub_add_cancel (by omega)]

end Passing

/-! ## The first token -/

/-- No comment goes on over byte `i`. -/
def Clear (comments : List Span) (i : Nat) : Prop :=
  ∀ s ∈ comments, s.lo < i → s.hi ≤ i

namespace Commented

variable {bytes : Array UInt8} {start stop i : Nat} {comments : List Span} {s : Span}
  {token : UInt8}

theorem lo_lt (h : Commented bytes start stop comments) (hs : s ∈ comments) : s.lo < s.hi := by
  obtain hline | hblock := h.isComment s hs
  · exact hline.lo_lt
  · have hlength := hblock.length
    omega

theorem clear_hi (h : Commented bytes start stop comments) (hs : s ∈ comments) :
    Clear comments s.hi := by
  intro t ht hlt
  have hs' := h.lo_lt hs
  obtain rfl | hst | hts := h.apart s hs t ht
  · exact Nat.le_refl _
  · omega
  · omega

theorem clear_succ (houtside : ∀ s ∈ comments, s.has i = false) : Clear comments (i + 1) := by
  intro s hs hlt
  have hout : s.lo ≤ i → s.hi ≤ i := by simpa [Span.has] using houtside s hs
  exact Nat.le_succ_of_le (hout (by omega))

/-- A comment is passed as a whole. -/
theorem search?_eq (h : Commented bytes start stop comments) (hstop : stop ≤ bytes.size)
    (hs : s ∈ comments) : search? bytes stop token s.lo = search? bytes stop token s.hi := by
  have hhi := (h.within s hs).2
  obtain hline | hblock := h.isComment s hs
  · exact hline.search?_eq hstop hhi
  · exact hblock.search?_eq hstop hhi

/-- From a clear byte the search finds the token there, or goes on from another clear byte with no
token in between. -/
theorem search?_step (h : Commented bytes start stop comments) (hstop : stop ≤ bytes.size)
    (token : UInt8) (hclear : Clear comments i) (hstart : start ≤ i) (hi : i < stop) :
    Stands bytes start stop comments token i ∧ search? bytes stop token i = some i ∨
      ∃ j, i < j ∧ (stop ≤ j ∨ Clear comments j) ∧
        search? bytes stop token i = search? bytes stop token j ∧
        ∀ k, i ≤ k → k < j → ¬Stands bytes start stop comments token k := by
  by_cases hinside : ∃ s ∈ comments, s.has i = true
  · obtain ⟨s, hs, hhas⟩ := hinside
    obtain ⟨hle, hlt⟩ : s.lo ≤ i ∧ i < s.hi := by simpa [Span.has] using hhas
    -- The comment does not go on over byte `i`, so it starts there.
    obtain rfl : i = s.lo := by
      have hover := hclear s hs
      omega
    refine .inr ⟨s.hi, hlt, .inr (h.clear_hi hs), h.search?_eq hstop hs, fun k hk hk' hstands ↦ ?_⟩
    have hout : s.lo ≤ k → s.hi ≤ k := by simpa [Span.has] using hstands.outside s hs
    omega
  · have houtside : ∀ s ∈ comments, s.has i = false := by
      intro s hs
      simpa using fun hhas ↦ hinside ⟨s, hs, hhas⟩
    by_cases hopen : Opens bytes i
    · have hlast : i + 1 = stop := by
        have hearly : ¬i < stop - 1 := fun hlt ↦ hinside (h.opens i hlt hstart hopen)
        omega
      have hend : search? bytes stop token stop = some stop := search?_of_le (Nat.le_refl stop)
      refine .inr ⟨stop, hi, .inl (Nat.le_refl stop), (hopen.search?_eq hlast).trans hend.symm,
        fun k hk hk' hstands ↦ ?_⟩
      obtain rfl : k = i := by omega
      exact hstands.not_opens hopen
    · have hread := Array.getElem?_eq_getElem (Nat.lt_of_lt_of_le hi hstop)
      have hturn : search? bytes stop token i = _ := search?_of_not_opens hi hread hopen
      split at hturn
      · rename_i htoken
        rw [htoken] at hread
        exact .inl ⟨⟨hstart, hi, hread, houtside, hopen⟩, hturn⟩
      · rename_i htoken
        refine .inr ⟨i + 1, Nat.lt_succ_self i, .inr (clear_succ houtside), hturn,
          fun k hk hk' hstands ↦ ?_⟩
        obtain rfl : k = i := by omega
        exact htoken (Option.some.inj (hread.symm.trans hstands.byte))

/-- What is found from a clear byte on is the first token that stands there, or the end of the
range. -/
theorem first_of_search? (h : Commented bytes start stop comments) (hstop : stop ≤ bytes.size)
    {r : Nat} (hclear : stop ≤ i ∨ Clear comments i) (hstart : start ≤ i)
    (hr : search? bytes stop token i = some r) :
    (r = stop ∨ Stands bytes start stop comments token r) ∧
      ∀ k, i ≤ k → k < r → ¬Stands bytes start stop comments token k := by
  induction hn : stop - i using Nat.strongRecOn generalizing i with
  | ind n ih =>
    by_cases hi : stop ≤ i
    · rw [search?_of_le hi] at hr
      cases hr
      exact ⟨.inl rfl, fun k hk hk' ↦ by omega⟩
    · obtain ⟨hstands, hfound⟩ | ⟨j, hlt, hclear', hturn, hnone⟩ :=
        h.search?_step hstop token (hclear.resolve_left hi) hstart (by omega)
      · rw [hfound] at hr
        cases hr
        exact ⟨.inr hstands, fun k hk hk' ↦ by omega⟩
      · obtain ⟨hfound, hfirst⟩ :=
          ih (stop - j) (by omega) hclear' (by omega) (hturn.symm.trans hr) rfl
        refine ⟨hfound, fun k hk hk' ↦ ?_⟩
        by_cases hkj : k < j
        · exact hnone k hk hkj
        · exact hfirst k (by omega) hk'

end Commented

end OptionalChain.Access

namespace OptionalChain.SourceFile

open Access (Commented Stands)

/-- For every range of a file the search for a token ends, with all its reads inside the text. If
the range holds whole comments, of which those that end with their line end with a line feed or with
the range, it finds the first token outside them, or else the end of the range. -/
theorem finds_first_token_outside_comments (f : SourceFile) (token : UInt8) (lo hi : Nat) :
    ∃ r, Access.findToken? token (f.clamp lo) (f.clamp hi) f.text = some r ∧
      (∀ c : Char, c.toUInt8 = token →
        Access.findToken c (f.clamp lo) (f.clamp hi) f.text = r) ∧
      ∀ comments, Commented (Text.bytes f.text) (f.clamp lo) (f.clamp hi) comments →
        Stands (Text.bytes f.text) (f.clamp lo) (f.clamp hi) comments token r ∧
            (∀ i < r, ¬Stands (Text.bytes f.text) (f.clamp lo) (f.clamp hi) comments token i) ∨
          r = f.clamp hi ∧
            ∀ i, ¬Stands (Text.bytes f.text) (f.clamp lo) (f.clamp hi) comments token i := by
  have hstop : f.clamp hi ≤ (Text.bytes f.text).size := by
    rw [Text.size_bytes]
    exact Nat.min_le_right _ _
  obtain ⟨r, hr⟩ := Access.exists_search? hstop token (f.clamp lo)
  refine ⟨r, hr, fun c hc ↦ ?_, fun comments hrange ↦ ?_⟩
  · rw [Access.findToken, hc, Access.findToken?, hr, Option.getD_some]
  · have hclear : Access.Clear comments (f.clamp lo) := by
      intro s hs hlt
      have hlo := (hrange.within s hs).1
      omega
    obtain ⟨hfound, hfirst⟩ := hrange.first_of_search? hstop (.inr hclear) (Nat.le_refl _) hr
    have hbefore : ∀ i < r,
        ¬Stands (Text.bytes f.text) (f.clamp lo) (f.clamp hi) comments token i :=
      fun i hi hstands ↦ hfirst i hstands.start_le hi hstands
    obtain rfl | hstands := hfound
    · exact .inr ⟨rfl, fun i hstands ↦ hbefore i hstands.lt_stop hstands⟩
    · exact .inl ⟨hstands, hbefore⟩

def commentedDot : SourceFile :=
  .ofText "a.ts" "a/*é.*/ / //.\n/**/.b".toList

/-- The dot after three comments is found, though two of them hold one. The line comment alone has
no dot outside it. -/
theorem dot_after_comments :
    Commented (Text.bytes commentedDot.text) (commentedDot.clamp 1) (commentedDot.clamp 20)
        [⟨1, 8⟩, ⟨11, 14⟩, ⟨15, 19⟩] ∧
      Access.findToken? '.'.toUInt8 (commentedDot.clamp 1) (commentedDot.clamp 20)
        commentedDot.text = some 19 ∧
      Stands (Text.bytes commentedDot.text) (commentedDot.clamp 1) (commentedDot.clamp 20)
        [⟨1, 8⟩, ⟨11, 14⟩, ⟨15, 19⟩] '.'.toUInt8 19 ∧
      Commented (Text.bytes commentedDot.text) (commentedDot.clamp 11) (commentedDot.clamp 14)
        [⟨11, 14⟩] ∧
      ∀ i, ¬Stands (Text.bytes commentedDot.text) (commentedDot.clamp 11) (commentedDot.clamp 14)
        [⟨11, 14⟩] '.'.toUInt8 i := by
  obtain ⟨hrange, hfound, hstop, hrange', hfound', hstop'⟩ :
      Commented (Text.bytes commentedDot.text) (commentedDot.clamp 1) (commentedDot.clamp 20)
          [⟨1, 8⟩, ⟨11, 14⟩, ⟨15, 19⟩] ∧
        Access.findToken? '.'.toUInt8 (commentedDot.clamp 1) (commentedDot.clamp 20)
          commentedDot.text = some 19 ∧
        19 ≠ commentedDot.clamp 20 ∧
        Commented (Text.bytes commentedDot.text) (commentedDot.clamp 11) (commentedDot.clamp 14)
          [⟨11, 14⟩] ∧
        Access.findToken? '.'.toUInt8 (commentedDot.clamp 11) (commentedDot.clamp 14)
          commentedDot.text = some 14 ∧
        commentedDot.clamp 14 ≤ 14 := by
    decide +kernel
  obtain ⟨r, hr, -, hfirst⟩ := finds_first_token_outside_comments commentedDot '.'.toUInt8 1 20
  obtain ⟨r', hr', -, hfirst'⟩ := finds_first_token_outside_comments commentedDot '.'.toUInt8 11 14
  obtain rfl : 19 = r := Option.some.inj (hfound.symm.trans hr)
  obtain rfl : 14 = r' := Option.some.inj (hfound'.symm.trans hr')
  refine ⟨hrange, hfound, ?_, hrange', ?_⟩
  · exact ((hfirst _ hrange).resolve_right fun h ↦ hstop h.1).1
  · refine ((hfirst' _ hrange').resolve_left fun h ↦ ?_).2
    have hlt := h.1.lt_stop
    omega

end OptionalChain.SourceFile
