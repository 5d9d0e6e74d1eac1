import Mathlib.Data.List.TakeWhile
import OptionalChain.Proofs.DirectiveUnions
import OptionalChain.Proofs.LineViews
import OptionalChain.Proofs.Patterns

/-!
# The grammar of directives

The pattern of a directive can take a comment in many ways, since blanks belong to a run of them or
to the names. All these ways are one reading: the names go up to the first asterisk, or to the end
of the line, and blanks around them do not count. So the search with backtracking settles on the
reading of the grammar, and the scan of a line finds the directives from left to right.
-/

namespace OptionalChain

/-! ## Blanks around names -/

namespace Text

variable {p q : List Char}

theorem trim_append_left (hp : ∀ c ∈ p, isBlank c = true) (cs : List Char) :
    trim (p ++ cs) = trim cs := by
  rw [trim, List.dropWhile_append_of_pos hp, trim]

theorem trim_append_right (hq : ∀ c ∈ q, isBlank c = true) (cs : List Char) :
    trim (cs ++ q) = trim cs := by
  unfold trim
  rw [List.dropWhile_append]
  split
  · rename_i hblank
    rw [List.isEmpty_iff.1 hblank, List.dropWhile_eq_nil_iff.2 hq]
  · rw [List.reverse_append, List.dropWhile_append_of_pos (by simpa using hq)]

theorem notMem_of_blank {c : Char} (hc : isBlank c = false) (hp : ∀ d ∈ p, isBlank d = true) :
    c ∉ p := by
  intro hmem
  rw [hp c hmem] at hc
  cases hc

end Text

namespace Directive

open Text (isBlank trim Pattern Captures)

variable {p q cs : List Char}

theorem splitOnP_of_notMem {part : List Char} (h : ',' ∉ part) :
    part.splitOnP (· == ',') = [part] := by
  apply List.splitOnP_eq_singleton
  intro c hc
  rw [beq_eq_false_iff_ne]
  rintro rfl
  exact h hc

theorem splitOnP_append {part : List Char} (h : ',' ∉ part) (rest : List Char) :
    (part ++ ',' :: rest).splitOnP (· == ',') = part :: rest.splitOnP (· == ',') := by
  rw [List.splitOnP_append_cons part rest rfl, splitOnP_of_notMem h, List.singleton_append]

/-- Blanks around all names belong to the first and the last of them. -/
theorem map_trim_splitOnP_pad (hp : ∀ c ∈ p, isBlank c = true) (hq : ∀ c ∈ q, isBlank c = true)
    (cs : List Char) :
    ((p ++ cs ++ q).splitOnP (· == ',')).map trim = (cs.splitOnP (· == ',')).map trim := by
  have hcomma : ∀ {p}, (∀ c ∈ p, isBlank c = true) → ',' ∉ p := Text.notMem_of_blank rfl
  have hlast : ∀ p part, (∀ c ∈ p, isBlank c = true) → ',' ∉ part →
      ((p ++ part ++ q).splitOnP (· == ',')).map trim = (part.splitOnP (· == ',')).map trim := by
    intro p part hp hpart
    rw [splitOnP_of_notMem (by simp [hcomma hp, hcomma hq, hpart]), splitOnP_of_notMem hpart,
      List.map_singleton, List.map_singleton, Text.trim_append_right hq, Text.trim_append_left hp]
  induction cs using Text.partInduction ',' generalizing p with
  | nil => exact hlast p [] hp List.not_mem_nil
  | last part _ hpart => exact hlast p part hp hpart
  | ended part rest hpart ih =>
    have hfirst : ',' ∉ p ++ part := by simp [hcomma hp, hpart]
    have hrest := ih (List.forall_mem_nil _)
    rw [List.nil_append] at hrest
    rw [← List.append_assoc, List.append_assoc, List.cons_append, splitOnP_append hfirst,
      splitOnP_append hpart, List.map_cons, List.map_cons, hrest, Text.trim_append_left hp]

theorem ruleNames_pad (hp : ∀ c ∈ p, isBlank c = true) (hq : ∀ c ∈ q, isBlank c = true)
    (cs : List Char) : ruleNames (p ++ cs ++ q) = ruleNames cs := by
  rw [ruleNames, map_trim_splitOnP_pad hp hq, ruleNames]

/-! ## Occurrences -/

/-- The word by which a directive tells its reach. -/
def Reach.word : Reach → List Char
  | sameLine => "line".toList
  | nextLine => "next-line".toList

/-- A text after the word of a directive. From its first asterisk on it is empty or starts with the
end of a comment, after which `rest` is left. Up to there it is empty or starts with a blank, and
the pieces between commas are the names. -/
structure Names (tail : List Char) (rules : List String) (rest : List Char) : Prop where
  finished : tail.drop (tail.idxOf '*') = [] ∧ rest = [] ∨
    tail.drop (tail.idxOf '*') = '*' :: '/' :: rest
  apart : tail.take (tail.idxOf '*') = [] ∨
    ∃ c ∈ (tail.take (tail.idxOf '*')).head?, isBlank c = true
  rules_eq : rules =
    ((((tail.take (tail.idxOf '*')).splitOn ',').map trim).filter (· ≠ [])).map String.ofList

/-- A directive stands at the start of `cs`, and `rest` is left after it. -/
def Occurs (cs : List Char) (reach : Reach) (rules : List String) (rest : List Char) : Prop :=
  ∃ opening blanks tail, (opening = "//".toList ∨ opening = "/*".toList) ∧
    (∀ c ∈ blanks, isBlank c = true) ∧
    cs = opening ++ blanks ++ "chainlint-disable-".toList ++ reach.word ++ tail ∧
    Names tail rules rest

theorem ruleNames_eq (cs : List Char) :
    ruleNames cs = (((cs.splitOn ',').map trim).filter (· ≠ [])).map String.ofList := by
  unfold ruleNames List.splitOn
  induction (cs.splitOnP (· == ',')).map trim with
  | nil => rfl
  | cons name names ih => cases name <;> simp_all

theorem cut_at_asterisk {before fin : List Char} (hbefore : '*' ∉ before)
    (hfin : fin = [] ∨ fin.head? = some '*') :
    (before ++ fin).take ((before ++ fin).idxOf '*') = before ∧
      (before ++ fin).drop ((before ++ fin).idxOf '*') = fin := by
  have hidx : (before ++ fin).idxOf '*' = before.length := by
    rw [List.idxOf_append_of_notMem hbefore]
    cases fin with
    | nil => rfl
    | cons c fin =>
      obtain rfl : c = '*' := by simpa using hfin
      simp
  rw [hidx]
  exact ⟨List.take_left, List.drop_left⟩

/-- The first asterisk divides the text after the word. -/
theorem names_iff {tail rest : List Char} {rules : List String} :
    Names tail rules rest ↔ ∃ before fin, tail = before ++ fin ∧ '*' ∉ before ∧
      (fin = [] ∧ rest = [] ∨ fin = '*' :: '/' :: rest) ∧
      (before = [] ∨ ∃ c ∈ before.head?, isBlank c = true) ∧ rules = ruleNames before := by
  constructor
  · intro h
    obtain ⟨before, fin, rfl, hbefore, hfin⟩ : ∃ before fin, tail = before ++ fin ∧
        '*' ∉ before ∧ (fin = [] ∨ fin.head? = some '*') := by
      by_cases hmem : '*' ∈ tail
      · obtain ⟨before, fin, rfl, hbefore⟩ := List.eq_append_cons_of_mem hmem
        exact ⟨before, '*' :: fin, rfl, hbefore, .inr rfl⟩
      · exact ⟨tail, [], (List.append_nil tail).symm, hmem, .inl rfl⟩
    obtain ⟨htake, hdrop⟩ := cut_at_asterisk hbefore hfin
    obtain ⟨hfinished, hapart, hrules⟩ := h
    rw [hdrop] at hfinished
    rw [htake] at hapart hrules
    exact ⟨before, fin, rfl, hbefore, hfinished, hapart, by rw [hrules, ruleNames_eq]⟩
  · rintro ⟨before, fin, rfl, hbefore, hfinished, hapart, rfl⟩
    have hfin : fin = [] ∨ fin.head? = some '*' := by
      obtain ⟨rfl, -⟩ | rfl := hfinished
      · exact .inl rfl
      · exact .inr rfl
    obtain ⟨htake, hdrop⟩ := cut_at_asterisk hbefore hfin
    constructor
    · rwa [hdrop]
    · rwa [htake]
    · rw [htake, ruleNames_eq]

/-! ## Matches are occurrences -/

theorem asterisk_notMem_of_blank (hp : ∀ c ∈ p, isBlank c = true) : '*' ∉ p :=
  Text.notMem_of_blank rfl hp

/-- However blanks and names are shared out, the same names come out. -/
theorem names_of_takes {tail rest : List Char} {caps caps' : Captures}
    (h : namesPattern.Takes tail caps rest caps') (hcaps : caps.lookup 2 = none) :
    Names tail (rulesOf caps') rest ∧ reachOf caps' = reachOf caps := by
  obtain ⟨_, _, hnames, fin, caps₁, ⟨more, hmore, rfl, rfl⟩, hend⟩ := h
  obtain ⟨hfin, rfl⟩ : (fin = [] ∧ rest = [] ∨ fin = '*' :: '/' :: rest) ∧ caps' = caps₁ := by
    obtain ⟨rfl, rfl⟩ | ⟨rfl, rfl, rfl⟩ := hend
    · exact ⟨.inr rfl, rfl⟩
    · exact ⟨.inl ⟨rfl, rfl⟩, rfl⟩
  -- Either a blank divides the word from the names, or there is no group of names and all is blank.
  obtain ⟨_, _, ⟨_, _, ⟨b, hb, rfl, rfl⟩, bs, hbs, rfl, rfl⟩, w, _, rfl, ⟨w', hw, heq, rfl⟩, rfl⟩ |
    ⟨rfl, rfl⟩ := hnames
  · obtain rfl := List.append_cancel_right heq
    have hblanks : ∀ c ∈ b :: bs, isBlank c = true := List.forall_mem_cons.2 ⟨hb, hbs⟩
    refine ⟨names_iff.2 ⟨b :: bs ++ w ++ more, fin, by simp, ?_, hfin, ?_, ?_⟩, ?_⟩
    · have hstar : '*' ∉ w := fun hmem ↦ by simpa using hw '*' hmem
      simp only [List.mem_append, not_or]
      exact ⟨⟨asterisk_notMem_of_blank hblanks, hstar⟩, asterisk_notMem_of_blank hmore⟩
    · exact .inr ⟨b, rfl, hb⟩
    · exact (ruleNames_pad hblanks hmore w).symm
    · rfl
  · refine ⟨names_iff.2 ⟨more, fin, rfl, asterisk_notMem_of_blank hmore, hfin, ?_, ?_⟩, rfl⟩
    · cases more with
      | nil => exact .inl rfl
      | cons c more => exact .inr ⟨c, rfl, hmore c List.mem_cons_self⟩
    · calc
        _ = ruleNames [] := by rw [rulesOf, hcaps]; rfl
        _ = ruleNames ([] ++ [] ++ more) := (ruleNames_pad (List.forall_mem_nil _) hmore []).symm

theorem exists_takes_of_names {tail rest : List Char} {rules : List String}
    (h : Names tail rules rest) (caps : Captures) :
    ∃ caps', namesPattern.Takes tail caps rest caps' := by
  obtain ⟨before, fin, rfl, hbefore, hfin, hapart, -⟩ := names_iff.1 h
  have hend : ∀ caps', Pattern.Takes (.seq (.many isBlank true) (.alt (.word "*/".toList) .finish))
      fin caps' rest caps' := by
    intro caps'
    apply Pattern.Takes.seq (Pattern.Takes.many (List.forall_mem_nil _) true fin caps')
    obtain ⟨rfl, rfl⟩ | rfl := hfin
    · exact .inr ⟨rfl, rfl, rfl⟩
    · exact .inl ⟨rfl, rfl⟩
  cases before with
  | nil => exact ⟨caps, .seq (.inr (.word [] fin caps)) (hend caps)⟩
  | cons c names =>
    have hc : isBlank c = true := by simpa using hapart
    have hnames : ∀ d ∈ names, (d != '*') = true := by
      intro d hd
      rw [bne_iff_ne]
      rintro rfl
      exact hbefore (List.mem_cons_of_mem c hd)
    have hblank : (Pattern.many1 isBlank true).Takes (c :: (names ++ fin)) caps (names ++ fin)
        caps := .seq ⟨c, hc, rfl, rfl⟩ (.many (List.forall_mem_nil _) true _ caps)
    have htaken := hblank.seq (.group 2 (.many hnames false fin caps))
    exact ⟨(2, names) :: caps, .seq (.inl htaken) (hend _)⟩

theorem exists_reach_iff {w : List Char} :
    (∃ reach : Reach, w = reach.word) ↔ w = "next-line".toList ∨ w = "line".toList := by
  constructor
  · rintro ⟨_ | _, rfl⟩
    · exact .inr rfl
    · exact .inl rfl
  · rintro (rfl | rfl)
    · exact ⟨.nextLine, rfl⟩
    · exact ⟨.sameLine, rfl⟩

theorem reachOf_word (reach : Reach) : reachOf [(1, reach.word)] = reach := by
  cases reach <;> decide

/-- A match of the pattern is an occurrence with what its groups tell. -/
theorem occurs_of_takes {rest : List Char} {caps : Captures}
    (h : pattern.Takes cs [] rest caps) : Occurs cs (reachOf caps) (rulesOf caps) rest := by
  obtain ⟨_, _, hopening, _, _, ⟨blanks, hblanks, rfl, rfl⟩, _, _, ⟨rfl, rfl⟩, tail, _,
    ⟨word, _, rfl, hword, rfl⟩, hnames⟩ := h
  obtain ⟨opening, hmarks, rfl, rfl⟩ := Pattern.takes_alt_word_iff.1 hopening
  obtain ⟨v, hv, heq, rfl⟩ := Pattern.takes_alt_word_iff.1 hword
  obtain rfl := List.append_cancel_right heq
  obtain ⟨reach, rfl⟩ := exists_reach_iff.2 hv
  obtain ⟨htail, hreach⟩ := names_of_takes hnames rfl
  rw [hreach, reachOf_word]
  exact ⟨opening, blanks, tail, hmarks, hblanks, by simp only [List.append_assoc], htail⟩

theorem exists_takes_of_occurs {reach : Reach} {rules : List String} {rest : List Char}
    (h : Occurs cs reach rules rest) : ∃ caps, pattern.Takes cs [] rest caps := by
  obtain ⟨opening, blanks, tail, hmarks, hblanks, rfl, htail⟩ := h
  obtain ⟨caps, hnames⟩ := exists_takes_of_names htail [(1, reach.word)]
  have hword := exists_reach_iff.1 ⟨reach, rfl⟩
  simp only [List.append_assoc]
  refine ⟨caps, Pattern.Takes.seq (Pattern.takes_alt_word_iff.2 ⟨opening, hmarks, rfl, rfl⟩) ?_⟩
  apply Pattern.Takes.seq (Pattern.Takes.many hblanks true _ [])
  apply Pattern.Takes.seq (Pattern.Takes.word _ _ [])
  exact .seq (.group 1 (Pattern.takes_alt_word_iff.2 ⟨reach.word, hword, rfl, rfl⟩)) hnames

theorem Names.unique {tail rest rest' : List Char} {rules rules' : List String}
    (h : Names tail rules rest) (h' : Names tail rules' rest') : rules = rules' ∧ rest = rest' := by
  refine ⟨h.rules_eq.trans h'.rules_eq.symm, ?_⟩
  obtain ⟨hnil, rfl⟩ | hclosed := h.finished
  · obtain ⟨-, rfl⟩ | hclosed' := h'.finished
    · rfl
    · rw [hnil] at hclosed'
      cases hclosed'
  · obtain ⟨hnil', rfl⟩ | hclosed' := h'.finished
    · rw [hnil'] at hclosed
      cases hclosed
    · rw [hclosed] at hclosed'
      exact (List.cons.inj (List.cons.inj hclosed').2).2

theorem Reach.word_append_inj {reach reach' : Reach} {tail tail' : List Char}
    (h : reach.word ++ tail = reach'.word ++ tail') : reach = reach' ∧ tail = tail' := by
  cases reach <;> cases reach'
  · exact ⟨rfl, List.append_cancel_left h⟩
  · cases congrArg List.head? h
  · cases congrArg List.head? h
  · exact ⟨rfl, List.append_cancel_left h⟩

theorem exists_mark {opening : List Char} (h : opening = "//".toList ∨ opening = "/*".toList) :
    ∃ mark, opening = ['/', mark] := by
  obtain rfl | rfl := h
  · exact ⟨'/', rfl⟩
  · exact ⟨'*', rfl⟩

theorem dropWhile_label (hp : ∀ c ∈ p, isBlank c = true) (more : List Char) :
    (p ++ ("chainlint-disable-".toList ++ more)).dropWhile isBlank =
      "chainlint-disable-".toList ++ more := by
  rw [List.dropWhile_append_of_pos hp]
  rfl

/-- The text tells everything of a directive that stands at its start. -/
theorem Occurs.unique {reach reach' : Reach} {rules rules' : List String} {rest rest' : List Char}
    (h : Occurs cs reach rules rest) (h' : Occurs cs reach' rules' rest') :
    reach = reach' ∧ rules = rules' ∧ rest = rest' := by
  obtain ⟨opening, blanks, tail, hmarks, hblanks, rfl, htail⟩ := h
  obtain ⟨opening', blanks', tail', hmarks', hblanks', heq, htail'⟩ := h'
  have hlength : opening.length = opening'.length := by
    obtain ⟨mark, rfl⟩ := exists_mark hmarks
    obtain ⟨mark', rfl⟩ := exists_mark hmarks'
    rfl
  -- The blanks end where the label starts, so both readings see the same text after it.
  simp only [List.append_assoc] at heq
  have hafter := congrArg (List.dropWhile isBlank) (List.append_inj heq hlength).2
  rw [dropWhile_label hblanks, dropWhile_label hblanks'] at hafter
  obtain ⟨rfl, rfl⟩ := Reach.word_append_inj (List.append_cancel_left hafter)
  exact ⟨rfl, htail.unique htail'⟩

theorem at?_eq_some_iff {reach : Reach} {rules : List String} {rest : List Char} :
    at? cs = some (reach, rules, rest) ↔ Occurs cs reach rules rest := by
  have hsound : ∀ found ∈ at? cs, Occurs cs found.1 found.2.1 found.2.2 := by
    intro found hfound
    obtain ⟨⟨caps, left⟩, hmatch, rfl⟩ := Option.map_eq_some_iff.1 hfound
    exact occurs_of_takes (Pattern.takes_of_match? hmatch)
  constructor
  · exact hsound (reach, rules, rest)
  · intro h
    obtain ⟨caps, htakes⟩ := exists_takes_of_occurs h
    obtain ⟨found, hfound⟩ : ∃ found, at? cs = some found := by
      rw [← Option.isSome_iff_exists, at?, Option.isSome_map]
      exact Pattern.isSome_match? htakes
    -- The match that was found need not be `htakes`, but it is an occurrence too.
    obtain ⟨rfl, rfl, rfl⟩ := h.unique (hsound found hfound)
    exact hfound

/-! ## Scans -/

/-- No directive stands at the start of the text. -/
def Vacant (cs : List Char) : Prop :=
  ∀ reach rules rest, ¬ Occurs cs reach rules rest

/-- The directives of a line from left to right: the first one that occurs at any place, and then
those in what is left after it. -/
inductive Scans : List Char → List (Reach × List String) → Prop
  | nothing {cs : List Char} (h : ∀ left right, cs = left ++ right → Vacant right) : Scans cs []
  | next {before cs rest : List Char} {reach : Reach} {rules : List String}
      {found : List (Reach × List String)}
      (hbefore : ∀ left right, before = left ++ right → right ≠ [] → Vacant (right ++ cs))
      (hhere : Occurs cs reach rules rest) (hmore : Scans rest found) :
      Scans (before ++ cs) ((reach, rules) :: found)

theorem at?_eq_none_iff : at? cs = none ↔ Vacant cs := by
  rw [Option.eq_none_iff_forall_ne_some]
  constructor
  · intro h reach rules rest hoccurs
    exact h _ (at?_eq_some_iff.2 hoccurs)
  · rintro h ⟨reach, rules, rest⟩ hat
    exact h reach rules rest (at?_eq_some_iff.1 hat)

/-- A directive takes at least one character. -/
theorem Occurs.exists_eq_cons {reach : Reach} {rules : List String} {rest : List Char}
    (h : Occurs cs reach rules rest) : ∃ c w, cs = c :: (w ++ rest) := by
  obtain ⟨opening, blanks, tail, hmarks, -, rfl, htail⟩ := h
  obtain ⟨before, fin, rfl, -, hfin, -⟩ := names_iff.1 htail
  obtain ⟨closing, rfl⟩ : ∃ closing, fin = closing ++ rest := by
    obtain ⟨rfl, rfl⟩ | rfl := hfin
    · exact ⟨[], rfl⟩
    · exact ⟨['*', '/'], rfl⟩
  obtain ⟨mark, hopening⟩ := exists_mark hmarks
  refine ⟨'/', mark :: blanks ++ "chainlint-disable-".toList ++ reach.word ++ before ++ closing,
    ?_⟩
  rw [hopening]
  simp only [List.append_assoc, List.cons_append, List.nil_append]

theorem scanFrom_eq_scan (skip : Nat) (cs : List Char) :
    scanFrom skip cs = scan (cs.drop skip) := by
  induction cs generalizing skip with
  | nil => rw [List.drop_nil, scan, scanFrom, scanFrom]
  | cons c cs ih =>
    cases skip with
    | zero => rfl
    | succ skip => rw [scanFrom, ih, List.drop_succ_cons]

theorem scan_of_occurs {reach : Reach} {rules : List String} {rest : List Char}
    (h : Occurs cs reach rules rest) : scan cs = (reach, rules) :: scan rest := by
  obtain ⟨c, w, rfl⟩ := h.exists_eq_cons
  rw [scan, scanFrom, at?_eq_some_iff.2 h]
  dsimp only
  rw [scanFrom_eq_scan]
  simp

theorem scan_cons_of_vacant {c : Char} (h : Vacant (c :: cs)) : scan (c :: cs) = scan cs := by
  rw [scan, scanFrom, at?_eq_none_iff.2 h]
  rfl

theorem Scans.cons {c : Char} {found : List (Reach × List String)} (hc : Vacant (c :: cs))
    (h : Scans cs found) : Scans (c :: cs) found := by
  cases h with
  | nothing h =>
    apply Scans.nothing
    intro left right heq
    cases left with
    | nil => rwa [← show c :: cs = right from heq]
    | cons d left => exact h left right (List.cons.inj heq).2
  | @next before cs rest reach rules found hbefore hhere hmore =>
    have hnone : ∀ left right, c :: before = left ++ right → right ≠ [] → Vacant (right ++ cs) := by
      intro left right heq hright
      cases left with
      | nil => rwa [← show c :: before = right from heq]
      | cons d left => exact hbefore left right (List.cons.inj heq).2 hright
    exact Scans.next hnone hhere hmore

theorem Scans.here {reach : Reach} {rules : List String} {rest : List Char}
    {found : List (Reach × List String)} (hmore : Scans rest found)
    (hhere : Occurs cs reach rules rest) : Scans cs ((reach, rules) :: found) := by
  have hnone : ∀ left right, [] = left ++ right → right ≠ [] → Vacant (right ++ cs) := by
    intro left right heq hright
    exact absurd (List.append_eq_nil_iff.1 heq.symm).2 hright
  exact Scans.next hnone hhere hmore

/-- The scan that runs is a scan of the grammar. -/
theorem scans_scan (cs : List Char) : Scans cs (scan cs) := by
  cases hat : at? cs with
  | none =>
    cases cs with
    | nil =>
      apply Scans.nothing
      intro left right heq
      obtain ⟨-, rfl⟩ := List.append_eq_nil_iff.1 heq.symm
      exact at?_eq_none_iff.1 hat
    | cons c cs =>
      have hvacant := at?_eq_none_iff.1 hat
      rw [scan_cons_of_vacant hvacant]
      exact (scans_scan cs).cons hvacant
  | some found =>
    obtain ⟨reach, rules, rest⟩ := found
    have hhere := at?_eq_some_iff.1 hat
    rw [scan_of_occurs hhere]
    exact (scans_scan rest).here hhere
termination_by cs.length
decreasing_by
  · exact Nat.lt_succ_self _
  · obtain ⟨c, w, rfl⟩ := hhere.exists_eq_cons
    rw [List.length_cons, List.length_append]
    omega

theorem scan_append_of_vacant {before : List Char}
    (h : ∀ left right, before = left ++ right → right ≠ [] → Vacant (right ++ cs)) :
    scan (before ++ cs) = scan cs := by
  induction before with
  | nil => rfl
  | cons c before ih =>
    have hc : Vacant (c :: (before ++ cs)) := h [] (c :: before) rfl (List.cons_ne_nil c before)
    rw [List.cons_append, scan_cons_of_vacant hc]
    apply ih
    intro left right heq hright
    exact h (c :: left) right (by rw [heq, List.cons_append]) hright

/-- A line has no scan but the one that runs. -/
theorem Scans.eq_scan {found : List (Reach × List String)} (h : Scans cs found) :
    found = scan cs := by
  induction h with
  | @nothing cs h =>
    have hnone : scan (cs ++ []) = scan [] := by
      apply scan_append_of_vacant
      intro left right heq _
      rw [List.append_nil]
      exact h left right heq
    rw [List.append_nil] at hnone
    rw [hnone]
    rfl
  | next hbefore hhere _ ih => rw [scan_append_of_vacant hbefore, scan_of_occurs hhere, ih]

/-- Neither an opening that no directive follows nor an asterisk that closes no comment hides the
directive after it. -/
example :
    scan "/*// chainlint-disable-line *x// chainlint-disable-line  a , ,b".toList =
      [(.sameLine, ["a", "b"])] := by
  decide +kernel

end Directive

/-! ## Directives of a text -/

namespace Directives

open Directive (Reach Scans)

/-- The scan of line number `n` yields a directive. -/
def Yields (text : List Char) (n : Nat) (reach : Reach) (rules : List String) : Prop :=
  1 ≤ n ∧ ∃ line found, (Text.lines text)[n - 1]? = some line ∧ Scans line found ∧
    (reach, rules) ∈ found

variable {text : List Char}

theorem mem_inText_iff {d : Directive} :
    d ∈ inText text ↔ ∃ n reach, Yields text n reach d.rules ∧ d.line = reach.target n := by
  simp only [inText, List.mem_flatMap, List.mem_map, Prod.exists,
    List.mk_mem_zipIdx_iff_le_and_getElem?_sub]
  constructor
  · rintro ⟨line, n, ⟨hn, hline⟩, reach, rules, hfound, rfl⟩
    exact ⟨n, reach, ⟨hn, line, _, hline, Directive.scans_scan line, hfound⟩, rfl⟩
  · rintro ⟨n, reach, ⟨hn, line, found, hline, hscans, hfound⟩, htarget⟩
    rw [hscans.eq_scan] at hfound
    exact ⟨line, n, ⟨hn, hline⟩, reach, d.rules, hfound, by rw [← htarget]⟩

/-- A rule is turned off on a line exactly if the scan of this line yields a directive for the same
line, or that of the line before one for the next line, which names no rule or names this one. -/
theorem directives_follow_grammar (text : List Char) (n : Nat) (r : String) :
    (ofText text).isDisabled n [r] = true ↔ ∃ rules,
      (Yields text n .sameLine rules ∨ Yields text (n - 1) .nextLine rules) ∧
        (rules = [] ∨ r ∈ rules) := by
  rw [ofText, isDisabled_of_empty, List.any_eq_true]
  simp only [mem_inText_iff, Directive.covers_iff]
  constructor
  · rintro ⟨d, ⟨m, reach, hyields, hline⟩, rfl, hnamed⟩
    refine ⟨d.rules, ?_, by simpa using hnamed⟩
    rw [hline]
    cases reach with
    | sameLine => exact .inl hyields
    | nextLine => exact .inr hyields
  · rintro ⟨rules, hyields | hyields, hnamed⟩
    · exact ⟨⟨n, rules⟩, ⟨n, .sameLine, hyields, rfl⟩, rfl, by simpa using hnamed⟩
    · have hn : n - 1 + 1 = n := by
        have hpos := hyields.1
        omega
      exact ⟨⟨n, rules⟩, ⟨n - 1, .nextLine, hyields, hn.symm⟩, rfl, by simpa using hnamed⟩

end Directives

end OptionalChain
