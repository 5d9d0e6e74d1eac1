import OptionalChain.Proofs.Placement.Cuts
import OptionalChain.Proofs.Placement.Programs

/-!
# The text that spans select

Spans are counted in the text that was read, which is the text of the file less a byte-order mark.
Without a mark, every span cuts out the text of its node, the rule cuts between characters only, and
a diagnostic takes up the text of what it reports. With a mark, the text of a node stands three
bytes after its span.
-/

namespace OptionalChain

open Text (At Boundary)

/-! ## Byte-order marks -/

namespace Text

variable {c : Char} {cs : List Char} {lo hi : Nat}

/-- A cut after the first character is a cut in the text after it. -/
theorem slice?_cons_of_le (h : c.utf8Size ≤ lo) (hle : lo ≤ hi) :
    slice? lo hi (c :: cs) = slice? (lo - c.utf8Size) (hi - c.utf8Size) cs := by
  have hpos := c.utf8Size_pos
  obtain ⟨k, rfl⟩ : ∃ k, lo = k + 1 := ⟨lo - 1, by omega⟩
  have hsub : k + 1 - c.utf8Size ≤ hi - c.utf8Size := by omega
  have hsize : hi - c.utf8Size - (k + 1 - c.utf8Size) = hi - (k + 1) := by omega
  rw [slice?, slice?, if_pos hle, if_pos hsub, dropTo?, if_pos h, hsize]

/-- A cut inside the first character is not possible. -/
theorem slice?_cons_of_lt (hlo : 0 < lo) (h : lo < c.utf8Size) : slice? lo hi (c :: cs) = none := by
  obtain ⟨k, rfl⟩ : ∃ k, lo = k + 1 := ⟨lo - 1, by omega⟩
  have hinside : ¬c.utf8Size ≤ k + 1 := by omega
  rw [slice?, dropTo?, if_neg hinside]
  split <;> rfl

end Text

namespace Outcome

/-- The size of the byte-order mark at the start of the text, if there is one. -/
def markSize (text : List Char) : Nat :=
  Text.size text - Text.size (dropMark text)

variable {text : List Char} {lo hi : Nat}

theorem dropMark_cases (text : List Char) :
    dropMark text = text ∧ markSize text = 0 ∨
      text = '\uFEFF' :: dropMark text ∧ markSize text = 3 := by
  cases text with
  | nil => exact .inl ⟨rfl, rfl⟩
  | cons c cs =>
    by_cases hc : c = '\uFEFF'
    · have hdrop : dropMark (c :: cs) = cs := if_pos hc
      refine .inr ⟨by rw [hdrop, hc], ?_⟩
      rw [markSize, hdrop, Text.size_cons, Nat.add_sub_cancel, hc]
      rfl
    · have hdrop : dropMark (c :: cs) = c :: cs := if_neg hc
      exact .inl ⟨hdrop, by rw [markSize, hdrop, Nat.sub_self]⟩

theorem dropMark_eq_of_markSize (h : markSize text = 0) : dropMark text = text := by
  obtain ⟨hdrop, -⟩ | ⟨-, hsize⟩ := dropMark_cases text
  · exact hdrop
  · omega

/-- Whether a text has a mark is seen from its first characters. -/
theorem dropMark_append_of_append {start cs ds : List Char} (hne : start ≠ [])
    (h : dropMark (start ++ cs) = start ++ cs) : dropMark (start ++ ds) = start ++ ds := by
  cases start with
  | nil => exact absurd rfl hne
  | cons c start =>
    by_cases hc : c = '\uFEFF'
    · have hdrop : dropMark (c :: start ++ cs) = start ++ cs := if_pos hc
      have hlength := congrArg List.length (hdrop.symm.trans h)
      simp at hlength
    · exact if_neg hc

theorem size_eq_add_markSize (text : List Char) :
    Text.size text = Text.size (dropMark text) + markSize text := by
  obtain ⟨hdrop, hsize⟩ | ⟨htext, hsize⟩ := dropMark_cases text
  · rw [hdrop, hsize, Nat.add_zero]
  · rw [hsize, Nat.add_comm]
    nth_rewrite 1 [htext]
    rfl

/-- A cut after the mark is a cut in the text that was read. -/
theorem slice?_of_markSize_le (h : markSize text ≤ lo) (hle : lo ≤ hi) :
    Text.slice? lo hi text =
      Text.slice? (lo - markSize text) (hi - markSize text) (dropMark text) := by
  obtain ⟨hdrop, hsize⟩ | ⟨htext, hsize⟩ := dropMark_cases text
  · rw [hdrop, hsize, Nat.sub_zero, Nat.sub_zero]
  · rw [hsize] at h ⊢
    nth_rewrite 1 [htext]
    exact Text.slice?_cons_of_le h hle

theorem slice?_of_lt_markSize (hlo : 0 < lo) (h : lo < markSize text) :
    Text.slice? lo hi text = none := by
  obtain ⟨-, hsize⟩ | ⟨htext, hsize⟩ := dropMark_cases text
  · omega
  · rw [hsize] at h
    rw [htext]
    exact Text.slice?_cons_of_lt hlo h

end Outcome

/-! ## Operands of a run -/

namespace SourceFile

variable {f : SourceFile} {n m : Node}

open PreferOptionalChain (runInduction flatten_binary flatten_eq_singleton)

theorem mem_preorder_of_mem_flatten {style : ChainStyle} (h : m ∈ n.flatten style) :
    m ∈ n.preorder := by
  induction n using runInduction style with
  | operand n hstyle =>
    rw [flatten_eq_singleton hstyle, List.mem_singleton] at h
    exact h ▸ Node.self_mem_preorder _
  | operator s left right ihleft ihright =>
    rw [flatten_binary] at h
    obtain h | h := List.mem_append.1 h
    · exact Node.preorder_subset_of_mem_children (by simp [Node.children]) (ihleft h)
    · exact Node.preorder_subset_of_mem_children (by simp [Node.children]) (ihright h)

/-- The operands of a run stand in its span one after the other. -/
theorem Seats.inSequence (style : ChainStyle) (h : f.Seats n) (hn : n.span.lo ≤ n.span.hi) :
    InSequence (n.flatten style) ∧
      ∀ m ∈ n.flatten style, n.span.lo ≤ m.span.lo ∧ m.span.hi ≤ n.span.hi := by
  induction n using runInduction style with
  | operand n hstyle =>
    rw [flatten_eq_singleton hstyle]
    exact ⟨⟨List.pairwise_singleton _ _, List.forall_mem_singleton.2 hn⟩,
      List.forall_mem_singleton.2 ⟨Nat.le_refl _, Nat.le_refl _⟩⟩
  | operator s left right ihleft ihright =>
    obtain ⟨hlo, hleft, hapart, hright, hhi⟩ := h.sits.shape
    obtain ⟨hlseq, hlin⟩ := ihleft (h.of_mem (by simp)) hleft
    obtain ⟨hrseq, hrin⟩ := ihright (h.of_mem (by simp)) hright
    have hlo : s.lo = left.span.lo := hlo
    have hhi : right.span.hi = s.hi := hhi
    rw [flatten_binary]
    refine ⟨⟨?_, List.forall_mem_append.2 ⟨hlseq.ordered, hrseq.ordered⟩⟩,
      List.forall_mem_append.2 ⟨fun m hm ↦ ?_, fun m hm ↦ ?_⟩⟩
    · refine List.pairwise_append.2 ⟨hlseq.pairwise, hrseq.pairwise, fun l hl r hr ↦ ?_⟩
      exact (hlin l hl).2.trans (hapart.trans (hrin r hr).1)
    · have hm := hlin m hm
      change s.lo ≤ _ ∧ _ ≤ s.hi
      omega
    · have hm := hrin m hm
      change s.lo ≤ _ ∧ _ ≤ s.hi
      omega

end SourceFile

/-- A chain goes from an operand of its run to its last operand, which stands later. -/
theorem ChainFinder.exists_ends_of_mem_find {c : ChainFinder} {operands : List Node} {x : Chain}
    (h : x ∈ c.find operands) :
    ∃ (i j : Nat) (first : Node), operands[i]? = some first ∧ operands[j]? = some x.terminal ∧
      i < j ∧ x.span = first.span.upTo x.terminal.span ∧
      terminalPath? c.file c.style x.terminal = some x.terminalPath := by
  rw [← map_chain_placed] at h
  obtain ⟨b, hb, rfl⟩ := List.mem_map.1 h
  have hchain := chainAt?_of_mem_placed hb
  obtain ⟨first, hfirst, hspan⟩ := exists_first_of_chainAt? hchain
  have hwell := wellFormed_of_chainAt? hchain
  refine ⟨b.start, b.last, first, hfirst, hwell.last, ?_, hspan, hwell.terminal⟩
  have htwo := hwell.two_le
  unfold PlacedChain.last
  omega

/-! ## Chains in the text -/

namespace Chain

/-- The chain takes up the text from its first operand to its last, which stands later, and can be
cut at its steps. -/
structure StandsIn (f : SourceFile) (first : Node) (x : Chain) : Prop where
  seatsFirst : f.Seats first
  seatsTerminal : f.Seats x.terminal
  span_eq : x.span = first.span.upTo x.terminal.span
  first_forward : first.span.lo ≤ first.span.hi
  terminal_forward : x.terminal.span.lo ≤ x.terminal.span.hi
  apart : first.span.hi ≤ x.terminal.span.lo
  steps : ∀ s ∈ x.terminalPath.steps, Boundary f.text s.insertAt

variable {f : SourceFile} {first : Node} {x : Chain}

theorem StandsIn.lo_eq (h : x.StandsIn f first) : x.span.lo = first.span.lo := by
  rw [h.span_eq]
  rfl

theorem StandsIn.hi_eq (h : x.StandsIn f first) : x.span.hi = x.terminal.span.hi := by
  rw [h.span_eq]
  rfl

theorem StandsIn.lo (h : x.StandsIn f first) : Boundary f.text x.span.lo :=
  h.lo_eq ▸ h.seatsFirst.sits.lo

theorem StandsIn.hi (h : x.StandsIn f first) : Boundary f.text x.span.hi :=
  h.hi_eq ▸ h.seatsTerminal.sits.hi

theorem StandsIn.lo_le_terminal (h : x.StandsIn f first) : x.span.lo ≤ x.terminal.span.lo := by
  rw [h.lo_eq]
  exact h.first_forward.trans h.apart

theorem StandsIn.forward (h : x.StandsIn f first) : x.span.lo ≤ x.span.hi := by
  rw [h.hi_eq]
  exact h.lo_le_terminal.trans h.terminal_forward

theorem StandsIn.slice?_eq (h : x.StandsIn f first) :
    f.slice? x.span = some (f.slice first.span ++
      Text.slice first.span.hi x.terminal.span.lo f.text ++ f.slice x.terminal.span) := by
  have hfirst := h.seatsFirst.sits
  have hterminal := h.seatsTerminal.sits
  obtain ⟨hwhole, hcut⟩ := SourceFile.slice?_eq h.lo h.hi h.forward
  rw [hwhole, hcut, h.lo_eq, h.hi_eq,
    hfirst.lo.slice_append hterminal.lo hterminal.hi (h.first_forward.trans h.apart)
      h.terminal_forward,
    hfirst.lo.slice_append hfirst.hi hterminal.lo h.first_forward h.apart,
    (SourceFile.slice?_eq hfirst.lo hfirst.hi h.first_forward).2,
    (SourceFile.slice?_eq hterminal.lo hterminal.hi h.terminal_forward).2]

end Chain

/-! ## What is searched -/

namespace PreferOptionalChain

/-- The search is that of the node. -/
def Search.IsOf (n : Node) : Search → Prop
  | .run style operands => runStyle? n = some style ∧ operands = n.flatten style
  | .access m => m = n

namespace Trace

variable {t : Trace} {n : Node} {x : Search}

theorem mem_searches_visit {hook : Hook} (h : x ∈ (t.visit hook n).searches) :
    x ∈ t.searches ∨ x.IsOf n := by
  unfold visit at h
  split at h
  · rename_i op s left right
    split at h
    · rename_i style hstyle
      unfold visitRun at h
      split at h
      · exact .inl h
      · obtain h | h := List.mem_append.1 h
        · exact .inl h
        · obtain rfl := List.mem_singleton.1 h
          obtain rfl := ofOp?_eq_some.1 hstyle
          exact .inr ⟨hstyle, (flatten_binary style s left right).symm⟩
    · exact .inl h
  · split at h
    · exact .inl h
    · obtain h | h := List.mem_append.1 h
      · exact .inl h
      · obtain rfl := List.mem_singleton.1 h
        exact .inr rfl
  all_goals exact .inl h

/-- Everything that is searched is searched from a node of the program. -/
theorem exists_isOf_of_mem_searches {program : Node} (h : x ∈ (ofProgram program).searches) :
    ∃ n ∈ program.preorder, x.IsOf n := by
  suffices hall : ∀ (vs : List (Hook × Node)) (t : Trace),
      x ∈ (vs.foldl (fun t v ↦ t.visit v.1 v.2) t).searches →
        x ∈ t.searches ∨ ∃ v ∈ vs, x.IsOf v.2 by
    obtain h | ⟨v, hv, hx⟩ := hall program.visits {} h
    · cases h
    · obtain ⟨m, hm, hv⟩ := List.mem_filterMap.1 hv
      obtain ⟨hook, -, rfl⟩ := Option.map_eq_some_iff.1 hv
      exact ⟨m, hm, hx⟩
  intro vs
  induction vs with
  | nil => exact fun t h ↦ .inl h
  | cons v vs ih =>
    intro t h
    obtain h | ⟨w, hw, hx⟩ := ih _ h
    · obtain h | hx := mem_searches_visit h
      · exact .inl h
      · exact .inr ⟨v, List.mem_cons_self, hx⟩
    · exact .inr ⟨w, List.mem_cons_of_mem _ hw, hx⟩

end Trace

/-! ## What a diagnostic selects -/

namespace Context

variable (c : Context)

/-- The diagnostic is made for a chain of the program or for a member access on a fallback, with
cuts between characters, and its range is the text of the chain's operands or of the access. -/
inductive Selects (program : Node) (d : Diagnostic) : Prop where
  | chain {style : ChainStyle} {n first : Node} {x : Chain} {between : List Char}
      (run_mem : n ∈ program.preorder) (found : x ∈ (c.finder style).find (n.flatten style))
      (first_mem : first ∈ n.flatten style) (terminal_mem : x.terminal ∈ n.flatten style)
      (range_eq : d.region.range = first.span.upTo x.terminal.span)
      (text_eq : c.file.slice? d.region.range =
        some (c.file.slice first.span ++ between ++ c.file.slice x.terminal.span))
      (made : c.diagnosticOf? (.chain x) = some d)
  | fallback {n : Node} {b : Fallback} (mem : n ∈ program.preorder)
      (found : Fallback.of? n = some b) (range_eq : d.region.range = n.span)
      (text_eq : c.file.slice? d.region.range = some (c.file.slice n.span))
      (cut : b.replacement? c.file = some (b.replacement c.file))
      (made : c.diagnosticOf? (.fallback n b) = some d)

variable {c} {program : Node}

theorem exists_standsIn {style : ChainStyle} {n : Node} {x : Chain} (hseats : c.file.Seats program)
    (hn : n ∈ program.preorder) (hstyle : runStyle? n = some style)
    (hx : x ∈ (c.finder style).find (n.flatten style)) :
    ∃ first ∈ n.flatten style, x.terminal ∈ n.flatten style ∧ x.StandsIn c.file first := by
  have hseat := hseats.of_mem_preorder hn
  have hforward : n.span.lo ≤ n.span.hi := by
    obtain ⟨s, left, right, rfl⟩ := runStyle?_eq_some.1 hstyle
    obtain ⟨hlo, hleft, hapart, hright, hhi⟩ := hseat.sits.shape
    change s.lo ≤ s.hi
    omega
  have hsequence := (hseat.inSequence style hforward).1
  have hoperand : ∀ m ∈ n.flatten style, c.file.Seats m := fun m hm ↦
    hseat.of_mem_preorder (SourceFile.mem_preorder_of_mem_flatten hm)
  obtain ⟨i, j, first, hfirst, hlast, hij, hspan, hpath⟩ := ChainFinder.exists_ends_of_mem_find hx
  have hfirstMem := List.mem_of_getElem? hfirst
  have hlastMem := List.mem_of_getElem? hlast
  refine ⟨first, hfirstMem, hlastMem, ?_⟩
  exact
    { seatsFirst := hoperand first hfirstMem
      seatsTerminal := hoperand x.terminal hlastMem
      span_eq := hspan
      first_forward := hsequence.ordered first hfirstMem
      terminal_forward := hsequence.ordered x.terminal hlastMem
      apart := hsequence.hi_le_lo hfirst hlast hij
      steps := by
        obtain ⟨e, he, hp⟩ := exists_path_of_terminalPath? hpath
        exact AccessPath.boundary_of_path hp
          ((hoperand x.terminal hlastMem).of_mem_preorder he.mem_preorder) }

theorem exists_selects_chain {style : ChainStyle} {n : Node} {x : Chain}
    (hseats : c.file.Seats program) (hcomments : ∀ m ∈ c.file.comments, m.SitsIn c.file.text)
    (hn : n ∈ program.preorder) (hstyle : runStyle? n = some style)
    (hx : x ∈ (c.finder style).find (n.flatten style)) :
    ∃ d, c.diagnosticOf? (.chain x) = some d ∧ c.Selects program d := by
  obtain ⟨first, hfirst, hlast, hstands⟩ := exists_standsIn hseats hn hstyle hx
  obtain ⟨region, hregion, hrange⟩ := exists_region? hstands.lo hstands.hi
  have hmade := diagnosticOf?_chain (Chain.replacement?_eq hcomments hstands.seatsTerminal
    hstands.terminal_forward hstands.steps) hregion
  exact ⟨_, hmade, .chain hn hx hfirst hlast (hrange.trans hstands.span_eq)
    ((congrArg c.file.slice? hrange).trans hstands.slice?_eq) hmade⟩

theorem exists_selects_fallback {n : Node} {b : Fallback} (hseats : c.file.Seats program)
    (hn : n ∈ program.preorder) (hb : Fallback.of? n = some b) :
    ∃ d, c.diagnosticOf? (.fallback n b) = some d ∧ c.Selects program d := by
  have hseat := hseats.of_mem_preorder hn
  have hforward : n.span.lo ≤ n.span.hi := by
    obtain ⟨optional, s, t, inner, u, fallback, rfl, -⟩ := Fallback.exists_parts_of_of? hb
    obtain hkind | hle := hseat.sits.forward
    · cases hkind
    · exact hle
  obtain ⟨region, hregion, hrange⟩ := exists_region? hseat.sits.lo hseat.sits.hi
  have hmade := diagnosticOf?_fallback b hregion
  refine ⟨_, hmade, .fallback hn hb hrange ?_ (Fallback.replacement?_eq hb hseat) hmade⟩
  exact (congrArg c.file.slice? hrange).trans (hseat.slice?_eq hforward)

theorem exists_selects_of_mem_findings {x : Search} {y : Finding} (hseats : c.file.Seats program)
    (hcomments : ∀ m ∈ c.file.comments, m.SitsIn c.file.text)
    (hx : x ∈ (Trace.ofProgram program).searches) (hy : y ∈ c.findings x) :
    ∃ d, c.diagnosticOf? y = some d ∧ c.Selects program d := by
  obtain ⟨n, hn, hof⟩ := Trace.exists_isOf_of_mem_searches hx
  cases x with
  | run style operands =>
    obtain ⟨hstyle, rfl⟩ := hof
    obtain ⟨x, hx, rfl⟩ := List.mem_map.1 hy
    exact exists_selects_chain hseats hcomments hn hstyle hx
  | access m =>
    obtain rfl : m = n := hof
    obtain ⟨b, hb, rfl⟩ := List.mem_map.1 hy
    exact exists_selects_fallback hseats hn (Option.filter_eq_some_iff.1 (Option.mem_toList.1 hb)).1

/-- Where the nodes and comments of a program sit in the text of the file, the report is there, and
every diagnostic selects the text of what it reports. -/
theorem exists_report_selects (hseats : c.file.Seats program)
    (hcomments : ∀ m ∈ c.file.comments, m.SitsIn c.file.text) :
    ∃ r, checkProgram? c program = some r ∧ ∀ d ∈ r.diagnostics, c.Selects program d := by
  have hfinding : ∀ x ∈ (Trace.ofProgram program).searches, ∀ y ∈ c.findings x,
      ∃ d, c.diagnosticOf? y = some d ∧ c.Selects program d :=
    fun x hx y hy ↦ exists_selects_of_mem_findings hseats hcomments hx hy
  rw [checkProgram?_eq]
  cases hr : c.searchReports? (Trace.ofProgram program).searches with
  | none =>
    obtain ⟨y, hy, hnone⟩ := mapM_eq_none_iff.1 (Option.map_eq_none_iff.1 hr)
    obtain ⟨x, hx, hy⟩ := List.mem_flatMap.1 hy
    obtain ⟨d, hd, -⟩ := hfinding x hx y hy
    rw [hd] at hnone
    cases hnone
  | some r =>
    refine ⟨r, rfl, fun d hd ↦ ?_⟩
    obtain ⟨x, hx, y, hy, hmade⟩ := exists_finding_of_mem_diagnostics hr hd
    obtain ⟨d', hd', hselects⟩ := hfinding x hx y hy
    rwa [Option.some.inj (hmade.symm.trans hd')]

end Context

end PreferOptionalChain

/-! ## Spans of a file -/

/-- The span some bytes later. -/
def Span.shift (s : Span) (k : Nat) : Span :=
  ⟨s.lo + k, s.hi + k⟩

namespace SourceFile

variable {text : List Char}

/-- No place of a span lies past the end of the text. -/
theorem slice?_of_le {f : SourceFile} {s : Span} (hlo : s.lo ≤ Text.size f.text)
    (hhi : s.hi ≤ Text.size f.text) : f.slice? s = Text.slice? s.lo s.hi f.text := by
  rw [slice?, clamp, clamp, Nat.min_eq_left hlo, Nat.min_eq_left hhi]

open Outcome

/-- The text of a node stands where its span says, counted from the end of the byte-order mark that
the file keeps. -/
theorem slice?_shift (name : String) {s : Span} (hle : s.lo ≤ s.hi)
    (hhi : s.hi ≤ Text.size (dropMark text)) :
    (ofText name text).slice? (s.shift (markSize text)) =
      Text.slice? s.lo s.hi (dropMark text) := by
  have hsize : Text.size (ofText name text).text = Text.size (dropMark text) + markSize text :=
    size_eq_add_markSize text
  have hcut : Text.slice? (s.lo + markSize text) (s.hi + markSize text) text =
      Text.slice? s.lo s.hi (dropMark text) := by
    rw [slice?_of_markSize_le (by omega) (by omega), Nat.add_sub_cancel, Nat.add_sub_cancel]
  rw [slice?_of_le (s := s.shift (markSize text))]
  · exact hcut
  · rw [hsize]
    exact Nat.add_le_add_right (hle.trans hhi) _
  · rw [hsize]
    exact Nat.add_le_add_right hhi _

/-- The span of a node selects the text as many bytes before the node as the mark has. -/
theorem slice?_of_markSize_le_lo (name : String) {s : Span} (hle : s.lo ≤ s.hi)
    (hhi : s.hi ≤ Text.size (dropMark text)) :
    (markSize text ≤ s.lo → (ofText name text).slice? s =
        Text.slice? (s.lo - markSize text) (s.hi - markSize text) (dropMark text)) ∧
      (0 < s.lo → s.lo < markSize text → (ofText name text).slice? s = none) := by
  have hsize : Text.size (ofText name text).text = Text.size (dropMark text) + markSize text :=
    size_eq_add_markSize text
  rw [slice?_of_le (by omega) (by omega)]
  exact ⟨fun h ↦ slice?_of_markSize_le h hle, fun hlo h ↦ slice?_of_lt_markSize hlo h⟩

/-- Without a mark, what is read sits in the text of the file. -/
theorem seats_of_parse {name : String} {program : Node}
    (h : (ofText name text).program? = some program) (hwhole : program.Whole)
    (hmark : markSize text = 0) : (ofText name text).Seats program := by
  have hsits := Grammar.sits_of_parse h hwhole
  rwa [Outcome.dropMark_eq_of_markSize hmark] at hsits

theorem sitsIn_of_mem_comments {name : String} (hmark : markSize text = 0) :
    ∀ m ∈ (ofText name text).comments, m.SitsIn (ofText name text).text := by
  intro m hm
  have hsits : m.SitsIn (dropMark text) := Grammar.sitsIn_of_parse hm
  rwa [Outcome.dropMark_eq_of_markSize hmark] at hsits

end SourceFile

namespace PreferOptionalChain

open Outcome (dropMark markSize)
open SourceFile (ofText)

/-- In a program without missing operands, every node and comment sits in the text that was read,
and the text of a node is found in the file at its span shifted by the byte-order mark; at the span
itself stands the text as many bytes before. Without a mark these are the same, the arguments of
calls are cut between characters, and the rule gives a report, in which every diagnostic is made
with cuts between characters and takes up the text of the chain or access that it reports. -/
theorem spans_select_text_after_mark {name : String} {text : List Char} {program : Node}
    (h : (ofText name text).program? = some program) (hwhole : program.Whole) :
    (∀ n ∈ program.preorder, n.Sits (dropMark text) (Text.size (dropMark text)) ∧
      (n.kind ≠ .type .heritages →
        (∃ piece, Text.slice? n.span.lo n.span.hi (dropMark text) = some piece ∧
          (ofText name text).slice? (n.span.shift (markSize text)) = some piece) ∧
        (markSize text ≤ n.span.lo → (ofText name text).slice? n.span =
          Text.slice? (n.span.lo - markSize text) (n.span.hi - markSize text) (dropMark text)) ∧
        (0 < n.span.lo → n.span.lo < markSize text → (ofText name text).slice? n.span = none))) ∧
      (∀ m ∈ (ofText name text).comments, m.SitsIn (dropMark text)) ∧
      (markSize text = 0 → dropMark text = text ∧
        (∀ optional s callee args typeArgs,
          Node.call optional s callee args typeArgs ∈ program.preorder →
            ∃ piece, Text.slice? (Access.findToken '(' callee.span.hi s.hi text) s.hi text =
              some piece) ∧
        ∀ c : Context, c.file = ofText name text →
          ∃ r, checkProgram? c program = some r ∧ ∀ d ∈ r.diagnostics, c.Selects program d) := by
  have hsits : ∀ n ∈ program.preorder, n.Sits (dropMark text) (Text.size (dropMark text)) :=
    Grammar.sits_of_parse h hwhole
  have hcomments : ∀ m ∈ (ofText name text).comments, m.SitsIn (dropMark text) :=
    fun m hm ↦ Grammar.sitsIn_of_parse hm
  refine ⟨fun n hn ↦ ⟨hsits n hn, fun hkind ↦ ?_⟩, hcomments, fun hmark ↦ ?_⟩
  · have hle := (hsits n hn).forward.resolve_left hkind
    have hhi := (hsits n hn).hi_le
    have hcut := (hsits n hn).lo.slice?_eq (hsits n hn).hi hle
    exact ⟨⟨_, hcut, (SourceFile.slice?_shift name hle hhi).trans hcut⟩,
      SourceFile.slice?_of_markSize_le_lo name hle hhi⟩
  · have hdrop := Outcome.dropMark_eq_of_markSize hmark
    rw [hdrop] at hsits hcomments
    refine ⟨hdrop, fun optional s callee args typeArgs hn ↦ ?_, fun c hc ↦ ?_⟩
    · have hhi : Boundary text s.hi := (hsits _ hn).hi
      exact ⟨_, (Access.boundary_findToken rfl _ hhi).slice?_eq hhi (Access.findToken_le ..)⟩
    · exact Context.exists_report_selects (by rw [hc]; exact hsits) (by rw [hc]; exact hcomments)

def markedFallback : SourceFile :=
  .ofText "a.ts" "\uFEFF(foo ?? \x7b\x7d).bar;".toList

def commentedChain : Context :=
  .ofText "/* ñ */ é != null && /* ü */ é.bar;"

def markedProgram : Node :=
  markedFallback.program?.get (by decide +kernel)

def commentedProgram : Node :=
  commentedChain.file.program?.get (by decide +kernel)

/-- After a mark, the span of the key selects the three bytes before it. Without one, the chain is
reported with its text, though it follows a comment and has letters of two bytes. -/
theorem marked_and_commented_spans_select :
    markedFallback.program? = some markedProgram ∧ markedProgram.Whole ∧
      (∃ n ∈ markedProgram.preorder, n.kind = .name "bar" ∧
        markedFallback.slice? (n.span.shift 3) = some "bar".toList ∧
        markedFallback.slice? n.span = some "\x7d).".toList) ∧
      commentedChain.file.program? = some commentedProgram ∧ commentedProgram.Whole ∧
      ∃ r, checkProgram? commentedChain commentedProgram = some r ∧ ∃ d ∈ r.diagnostics,
        commentedChain.Selects commentedProgram d ∧
        commentedChain.file.slice? d.region.range = some "é != null && /* ü */ é.bar".toList := by
  have hmarked : markedFallback.program? = some markedProgram := (Option.some_get _).symm
  have hcommented : commentedChain.file.program? = some commentedProgram := (Option.some_get _).symm
  obtain ⟨hwhole, n, hn, hkind, hlo, hhi⟩ : markedProgram.Whole ∧
      ∃ n ∈ markedProgram.preorder, n.kind = .name "bar" ∧ n.span.lo = 12 ∧ n.span.hi = 15 := by
    decide +kernel
  obtain ⟨hwhole', r, hr, d, hd, htext⟩ : commentedProgram.Whole ∧
      ∃ r ∈ checkProgram? commentedChain commentedProgram, ∃ d ∈ r.diagnostics,
        commentedChain.file.slice? d.region.range = some "é != null && /* ü */ é.bar".toList := by
    decide +kernel
  have hnode := ((spans_select_text_after_mark hmarked hwhole).1 n hn).2 (by rw [hkind]; simp)
  obtain ⟨⟨piece, hpiece, hshift⟩, hearly, -⟩ := hnode
  obtain ⟨r', hr', hselects⟩ :=
    ((spans_select_text_after_mark hcommented hwhole').2.2 (by decide +kernel)).2.2
      commentedChain rfl
  obtain rfl : r = r' := Option.some.inj (Eq.trans hr.symm hr')
  refine ⟨hmarked, hwhole, ⟨n, hn, hkind, ?_, ?_⟩, hcommented, hwhole', r, hr, d, hd,
    hselects d hd, htext⟩
  · have hbar : Text.slice? 12 15 (dropMark markedFallback.text) = some "bar".toList := by
      decide +kernel
    rw [hlo, hhi] at hpiece
    obtain rfl : piece = "bar".toList := Option.some.inj (hpiece.symm.trans hbar)
    exact hshift
  · have hbefore : Text.slice? 9 12 (dropMark markedFallback.text) = some "\x7d).".toList := by
      decide +kernel
    rw [hlo, hhi] at hearly
    exact (hearly (by decide +kernel)).trans hbefore

end PreferOptionalChain

end OptionalChain
