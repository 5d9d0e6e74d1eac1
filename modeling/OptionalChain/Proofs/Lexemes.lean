import OptionalChain.Access.Compact
import OptionalChain.Token.Scan

/-!
# Tokens in compact text

Compaction looks at single characters where the scanner reads tokens. The text of a word or a
number has no character that compaction acts on, and a string or a template ends for both at the
same quote.
-/

namespace OptionalChain

/-! ## Classes of characters -/

namespace Text

/-- Whether a class with these runs has none of the rising `codes`. Runs and codes are gone
through together. -/
def misses (inside : Bool) (lo : Nat) (codes : List Nat) : List Nat → Bool
  | [] => codes.isEmpty || !inside
  | run :: runs =>
    codes.isEmpty || (!inside || (codes.takeWhile (· < lo + run)).isEmpty) &&
      misses (!inside) (lo + run) (codes.dropWhile (· < lo + run)) runs

theorem le_of_mem_dropWhile {codes : List Nat} {b n : Nat} (hcodes : codes.Pairwise (· ≤ ·))
    (hn : n ∈ codes.dropWhile (· < b)) : b ≤ n := by
  have hhead := List.head?_dropWhile_not (· < b) codes
  have hsorted := hcodes.sublist (List.dropWhile_sublist (· < b))
  cases hdrop : codes.dropWhile (· < b) with
  | nil =>
    rw [hdrop] at hn
    cases hn
  | cons d ds =>
    rw [hdrop] at hn hsorted hhead
    have hd : b ≤ d := by simpa using hhead
    obtain rfl | hn := List.mem_cons.1 hn
    · exact hd
    · exact Nat.le_trans hd ((List.pairwise_cons.1 hsorted).1 n hn)

theorem insideFrom_eq_false {inside : Bool} {lo n : Nat} {codes runs : List Nat}
    (hcodes : codes.Pairwise (· ≤ ·)) (h : misses inside lo codes runs = true) (hn : n ∈ codes) :
    insideFrom inside lo n runs = false := by
  induction runs generalizing inside lo codes with
  | nil =>
    have hne := List.ne_nil_of_mem hn
    simpa [misses, insideFrom, hne] using h
  | cons run runs ih =>
    have hsome : codes.isEmpty = false := List.isEmpty_eq_false_iff.2 (List.ne_nil_of_mem hn)
    rw [misses, hsome, Bool.false_or, Bool.and_eq_true] at h
    rw [← List.takeWhile_append_dropWhile (p := (· < lo + run)) (l := codes)] at hn
    rw [insideFrom]
    obtain hn | hn := List.mem_append.1 hn
    · have hlt : n < lo + run := by simpa using List.all_eq_true.1 List.all_takeWhile n hn
      have hne := List.ne_nil_of_mem hn
      rw [if_pos hlt]
      simpa [hne] using h.1
    · rw [if_neg (Nat.not_lt.2 (le_of_mem_dropWhile hcodes hn))]
      exact ih (hcodes.sublist (List.dropWhile_sublist _)) h.2 hn

end Text

namespace Access

/-! ## Characters that are kept -/

/-- Whether compaction keeps `c` wherever it stands in code, and is in code after it. -/
def isInert (c : Char) : Bool :=
  !(isQuote c || c == '/' || c == '?' || c == '!' || Text.isBlank c)

/-- The codes of the other characters: quotes, slash, question and exclamation mark, blanks. -/
def activeCodes : List Nat :=
  [0x22, 0x27, 0x60, 0x2F, 0x3F, 0x21, 9, 10, 11, 12, 13, 0x20, 0x85, 0xA0, 0x1680, 0x2000, 0x2001,
    0x2002, 0x2003, 0x2004, 0x2005, 0x2006, 0x2007, 0x2008, 0x2009, 0x200A, 0x2028, 0x2029, 0x202F,
    0x205F, 0x3000]

theorem toNat_mem_activeCodes {c : Char} (h : isInert c = false) : c.toNat ∈ activeCodes := by
  have hrange (lo n : Nat) (hall : ∀ k ∈ List.range' lo n, k ∈ activeCodes) (hlo : lo ≤ c.toNat)
      (hhi : c.toNat < lo + n) : c.toNat ∈ activeCodes :=
    hall _ (List.mem_range'_1.2 ⟨hlo, hhi⟩)
  simp only [isInert, isQuote, Bool.not_eq_false', Bool.or_eq_true, beq_iff_eq, Text.isBlank,
    Bool.and_eq_true, decide_eq_true_eq] at h
  obtain (((((rfl | rfl) | rfl) | rfl) | rfl) | rfl) | hblank := h
  all_goals try decide
  obtain (((((((((hrow | h) | h) | h) | h) | hrow) | h) | h) | h) | h) | h := hblank
  all_goals first
    | exact hrange 9 5 (by decide) hrow.1 (Nat.lt_succ_of_le hrow.2)
    | exact hrange 0x2000 11 (by decide) hrow.1 (Nat.lt_succ_of_le hrow.2)
    | rw [h]; decide

/-- A class of characters is inert if none of the others belongs to it. -/
theorem isInert_of_class {p : Char → Bool} (hp : ∀ n ∈ activeCodes, p (Char.ofNat n) = false)
    {c : Char} (h : p c = true) : isInert c = true := by
  by_cases hc : isInert c = true
  · exact hc
  · have hcode := hp c.toNat (toNat_mem_activeCodes (by simpa using hc))
    rw [Char.ofNat_toNat, h] at hcode
    exact absurd hcode (by decide)

set_option maxRecDepth 4000 in
/-- The tables of letters have no blank. -/
theorem isWordPart_eq_false {n : Nat} (hn : n ∈ activeCodes) :
    Token.isWordPart (Char.ofNat n) = false := by
  rw [← List.take_append_drop 12 activeCodes] at hn
  obtain hn | hn := List.mem_append.1 hn
  · revert n
    decide
  · have hcode : (Char.ofNat n).toNat = n ∧ ¬n < 128 ∧ n ≠ 0x200C ∧ n ≠ 0x200D := by
      revert n
      decide
    have hmark (c : Char) (hc : c.toNat < 128) : Char.ofNat n ≠ c := by
      rintro rfl
      exact hcode.2.1 (hcode.1 ▸ hc)
    have hrising : (activeCodes.drop 12).Pairwise (· ≤ ·) := by decide
    have hstart : Text.insideFrom false 0 n Text.startRuns = false :=
      Text.insideFrom_eq_false hrising (by decide) hn
    have hfollow : Text.insideFrom false 0 n Text.followRuns = false :=
      Text.insideFrom_eq_false hrising (by decide) hn
    simp [Token.isWordPart, Text.isIdentPart, Text.isInside, hcode, hstart, hfollow,
      hmark '\\' (by decide), hmark '{' (by decide), hmark '}' (by decide)]

theorem isInert_of_isWordPart {c : Char} (h : Token.isWordPart c = true) : isInert c = true :=
  isInert_of_class (fun _ ↦ isWordPart_eq_false) h

theorem isInert_of_isDigitIn {base : Nat} (hbase : base ≤ 16) {c : Char}
    (h : Token.isDigitIn base c = true) : isInert c = true := by
  have hdigit : Token.isDigitIn 16 c = true := by
    simp only [Token.isDigitIn, decide_eq_true_eq] at h ⊢
    omega
  apply isInert_of_class ?_ hdigit
  decide

theorem compactFrom_code_cons {c : Char} (h : isInert c = true) (cs : List Char) :
    compactFrom .code (c :: cs) = c :: compactFrom .code cs := by
  simp only [isInert, Bool.not_eq_true', Bool.or_eq_false_iff, beq_eq_false_iff_ne] at h
  obtain ⟨⟨⟨⟨hquote, hslash⟩, hquestion⟩, hbang⟩, hblank⟩ := h
  simp [compactFrom, hquote, hslash, hquestion, hbang, hblank]

theorem compactFrom_code_append {w : List Char} (h : w.all isInert = true) (cs : List Char) :
    compactFrom .code (w ++ cs) = w ++ compactFrom .code cs := by
  induction w with
  | nil => rfl
  | cons c w ih =>
    have hw : isInert c = true ∧ w.all isInert = true := by simpa using h
    rw [List.cons_append, compactFrom_code_cons hw.1, ih hw.2, List.cons_append]

/-- Quoted text stays quoted up to the quote or to an escape. -/
theorem compactFrom_quoted_append {q : Char} {w : List Char} (h : ∀ c ∈ w, c ≠ '\\' ∧ c ≠ q)
    (cs : List Char) : compactFrom (.quoted q) (w ++ cs) = w ++ compactFrom (.quoted q) cs := by
  induction w with
  | nil => rfl
  | cons c w ih =>
    have hc := h c List.mem_cons_self
    have hw : ∀ d ∈ w, d ≠ '\\' ∧ d ≠ q := fun d hd ↦ h d (List.mem_cons_of_mem c hd)
    simp [compactFrom, hc.1, hc.2, ih hw]

/-! ## Text that is kept -/

/-- Compaction keeps the first `n` characters of `cs`, which lead from one mode to another and leave
`rest`. -/
def Kept (before after : Mode) (n : Nat) (cs rest : List Char) : Prop :=
  ∃ w, cs = w ++ rest ∧ w.length = n ∧ compactFrom before cs = w ++ compactFrom after rest

namespace Kept

variable {m₁ m₂ m₃ : Mode} {a b n : Nat} {cs middle rest : List Char} {q : Char}

theorem refl (m : Mode) (cs : List Char) : Kept m m 0 cs cs :=
  ⟨[], rfl, rfl, rfl⟩

theorem trans (h₁ : Kept m₁ m₂ a cs middle) (h₂ : Kept m₂ m₃ b middle rest) (hn : a + b = n) :
    Kept m₁ m₃ n cs rest := by
  obtain ⟨v, rfl, hv, hcompact⟩ := h₁
  obtain ⟨w, rfl, hw, hmiddle⟩ := h₂
  refine ⟨v ++ w, by simp, by simp [hv, hw, hn], ?_⟩
  rw [hcompact, hmiddle, List.append_assoc]

theorem drop_eq (h : Kept m₁ m₂ n cs rest) : cs.drop n = rest := by
  obtain ⟨w, rfl, rfl, -⟩ := h
  simp

theorem length_eq (h : Kept m₁ m₂ n cs rest) : cs.length = n + rest.length := by
  obtain ⟨w, rfl, rfl, -⟩ := h
  simp

theorem compactFrom_eq (h : Kept m₁ m₂ n cs rest) :
    compactFrom m₁ cs = cs.take n ++ compactFrom m₂ rest := by
  obtain ⟨w, rfl, rfl, hcompact⟩ := h
  simpa using hcompact

theorem of_inert {w : List Char} (h : w.all isInert = true) (rest : List Char) :
    Kept .code .code w.length (w ++ rest) rest :=
  ⟨w, rfl, rfl, compactFrom_code_append h rest⟩

theorem inert {c : Char} (h : isInert c = true) (cs : List Char) :
    Kept .code .code 1 (c :: cs) cs :=
  ⟨[c], rfl, rfl, compactFrom_code_cons h cs⟩

theorem of_quoted {w : List Char} (h : ∀ c ∈ w, c ≠ '\\' ∧ c ≠ q) (rest : List Char) :
    Kept (.quoted q) (.quoted q) w.length (w ++ rest) rest :=
  ⟨w, rfl, rfl, compactFrom_quoted_append h rest⟩

theorem backslash (q : Char) (cs : List Char) :
    Kept (.quoted q) (.escaped q) 1 ('\\' :: cs) cs :=
  ⟨['\\'], rfl, rfl, by simp [compactFrom]⟩

theorem quote {q : Char} (h : isQuote q = true) (cs : List Char) :
    Kept .code (.quoted q) 1 (q :: cs) cs := by
  refine ⟨[q], rfl, rfl, ?_⟩
  have hslash : q ≠ '/' := by
    rintro rfl
    exact absurd h (by decide)
  have hquestion : q ≠ '?' := by
    rintro rfl
    exact absurd h (by decide)
  simp [compactFrom, hslash, hquestion, h]

theorem escaped (q c : Char) (cs : List Char) : Kept (.escaped q) (.quoted q) 1 (c :: cs) cs :=
  ⟨[c], rfl, rfl, by simp [compactFrom]⟩

end Kept

end Access

namespace Token

open Access

/-! ## Escapes -/

/-- Characters of a Unicode escape after its `u`. -/
def isEscapeDigit (c : Char) : Bool :=
  isDigitIn 16 c || c == '{' || c == '}'

theorem ne_of_isEscapeDigit {q c : Char} (hq : q = '"' ∨ q = '\'') (h : isEscapeDigit c = true) :
    c ≠ '\\' ∧ c ≠ q := by
  constructor
  · rintro rfl
    exact absurd h (by decide)
  · rintro rfl
    rcases hq with rfl | rfl <;> exact absurd h (by decide)

theorem isEscapeDigit_of_mem_takeWhile {base : Nat} (hbase : base ≤ 16) {cs : List Char} {c : Char}
    (h : c ∈ cs.takeWhile (isDigitIn base)) : isEscapeDigit c = true := by
  have hdigit := List.all_eq_true.1 List.all_takeWhile c h
  simp only [isDigitIn, decide_eq_true_eq] at hdigit
  simp only [isEscapeDigit, isDigitIn, Bool.or_eq_true, decide_eq_true_eq]
  omega

theorem takeWhile_append_drop (p : Char → Bool) (n : Nat) (cs : List Char) :
    (cs.take n).takeWhile p ++ cs.drop ((cs.take n).takeWhile p).length = cs :=
  List.prefix_iff_eq_append.1 ((List.takeWhile_prefix p).trans (List.take_prefix n cs))

theorem unicodeEscape_eq_ok {cs rest : List Char} {code used : Nat}
    (h : unicodeEscape cs = .ok (code, used, rest)) :
    ∃ w, cs = w ++ rest ∧ w.length = used ∧ ∀ c ∈ w, isEscapeDigit c = true := by
  rw [unicodeEscape.eq_def] at h
  split at h
  next tail =>
    have htail := List.prefix_iff_eq_append.1 (List.takeWhile_prefix (isDigitIn 16) (l := tail))
    dsimp only at h
    split at h
    · simp at h
    · split at h
      · simp at h
      · split at h
        next after hafter =>
          simp only [Except.ok.injEq, Prod.mk.injEq] at h
          obtain ⟨-, rfl, rfl⟩ := h
          refine ⟨'{' :: tail.takeWhile (isDigitIn 16) ++ ['}'], ?_, by simp, ?_⟩
          · rw [hafter] at htail
            simp [htail]
          · intro c hc
            simp only [List.cons_append, List.mem_cons, List.mem_append, List.not_mem_nil,
              or_false] at hc
            rcases hc with rfl | hc | rfl
            · decide
            · exact isEscapeDigit_of_mem_takeWhile Nat.le.refl hc
            · decide
        next => simp at h
  next =>
    dsimp only at h
    split at h
    next hlength =>
      simp only [Except.ok.injEq, Prod.mk.injEq] at h
      obtain ⟨-, rfl, rfl⟩ := h
      refine ⟨(cs.take 4).takeWhile (isDigitIn 16), ?_, hlength, ?_⟩
      · exact (takeWhile_append_drop (isDigitIn 16) 4 cs).symm
      · exact fun c hc ↦ isEscapeDigit_of_mem_takeWhile Nat.le.refl hc
    next => simp at h

section Quoted

variable {q : Char} (hq : q = '"' ∨ q = '\'')

include hq

theorem kept_digits {w : List Char}
    (hw : ∀ c ∈ w, isEscapeDigit c = true) (rest : List Char) :
    Kept (.quoted q) (.quoted q) w.length (w ++ rest) rest :=
  Kept.of_quoted (fun c hc ↦ ne_of_isEscapeDigit hq (hw c hc)) rest

/-- Up to `n` digits at the start of quoted text are kept. -/
theorem kept_takeWhile {base : Nat} (hbase : base ≤ 16)
    (n : Nat) (cs : List Char) :
    Kept (.quoted q) (.quoted q) ((cs.take n).takeWhile (isDigitIn base)).length cs
      (cs.drop ((cs.take n).takeWhile (isDigitIn base)).length) := by
  have hdigits : ∀ c ∈ (cs.take n).takeWhile (isDigitIn base), isEscapeDigit c = true :=
    fun c hc ↦ isEscapeDigit_of_mem_takeWhile hbase hc
  have hkept := kept_digits hq hdigits (cs.drop ((cs.take n).takeWhile (isDigitIn base)).length)
  rw [takeWhile_append_drop] at hkept
  exact hkept

theorem kept_unicodeEscape {cs rest : List Char}
    {code used : Nat} (h : unicodeEscape cs = .ok (code, used, rest)) :
    Kept (.quoted q) (.quoted q) used cs rest := by
  obtain ⟨w, rfl, rfl, hw⟩ := unicodeEscape_eq_ok h
  exact kept_digits hq hw rest

theorem kept_lowUnit {cs rest : List Char} {code used : Nat}
    (h : lowUnit? cs = some (code, used, rest)) : Kept (.quoted q) (.quoted q) used cs rest := by
  rw [lowUnit?.eq_def] at h
  split at h
  next tail =>
    split at h
    next code' used' rest' hunicode =>
      split at h
      · simp only [Option.some.injEq, Prod.mk.injEq] at h
        obtain ⟨-, rfl, rfl⟩ := h
        have hmark := (Kept.backslash q ('u' :: tail)).trans (Kept.escaped q 'u' tail) rfl
        exact hmark.trans (kept_unicodeEscape hq hunicode) (by omega)
      · simp at h
    next => simp at h
  next => simp at h

theorem kept_codeEscape {cs : List Char} (h : (codeEscape cs).fault? = none) :
    Kept (.escaped q) (.quoted q) (codeEscape cs).used ('u' :: cs) (codeEscape cs).rest := by
  have hmark := Kept.escaped q 'u' cs
  rw [codeEscape.eq_def] at h ⊢
  split at h
  next => simp at h
  next code used rest hunicode =>
    have hunit := hmark.trans (kept_unicodeEscape hq hunicode) rfl
    split
    · split
      next low more rest' hlow =>
        split at hlow
        · exact hunit.trans (kept_lowUnit hq hlow) (by simp only; omega)
        · simp at hlow
      next => exact hunit.trans (Kept.refl _ _) (by simp only; omega)
    · exact hunit.trans (Kept.refl _ _) (by simp only; omega)

theorem kept_octalEscape {c : Char} {cs : List Char}
    (hc : isDigitIn 8 c = true) :
    Kept (.escaped q) (.quoted q) (octalEscape (c :: cs)).used (c :: cs)
      (octalEscape (c :: cs)).rest := by
  have hdigits (n : Nat) : Kept (.escaped q) (.quoted q)
      (((c :: cs).take (n + 1)).takeWhile (isDigitIn 8)).length (c :: cs)
      ((c :: cs).drop (((c :: cs).take (n + 1)).takeWhile (isDigitIn 8)).length) := by
    rw [List.take_succ_cons, List.takeWhile_cons_of_pos hc, List.length_cons, List.drop_succ_cons]
    exact (Kept.escaped q c cs).trans (kept_takeWhile hq (by decide) n cs) (Nat.add_comm _ _)
  rw [octalEscape]
  dsimp only
  split
  · exact hdigits 2
  · exact hdigits 1

theorem kept_escape {cs : List Char} (h : (escape cs).fault? = none) :
    Kept (.escaped q) (.quoted q) (escape cs).used cs (escape cs).rest := by
  rw [escape.eq_def] at h ⊢
  split at h
  next => simp at h
  next rest =>
    have hquote : '\n' ≠ q := by rcases hq with rfl | rfl <;> decide
    have hbreak : Kept (.quoted q) (.quoted q) 1 ('\n' :: rest) rest :=
      Kept.of_quoted (w := ['\n']) (by simpa using hquote) rest
    exact (Kept.escaped q '\r' ('\n' :: rest)).trans hbreak rfl
  next tail =>
    have hhex := (Kept.escaped q 'x' tail).trans
      (kept_takeWhile hq (by decide : 16 ≤ 16) 2 tail) rfl
    dsimp only at h ⊢
    split at h
    next hlength =>
      rw [if_pos hlength]
      rw [hlength] at hhex ⊢
      exact hhex
    next => simp at h
  next tail => exact kept_codeEscape hq h
  next c rest _ _ _ =>
    have hchar := Kept.escaped q c rest
    split
    · exact hchar
    · split
      next hdigit => exact kept_octalEscape hq hdigit
      next => exact hchar

end Quoted

/-! ## Strings -/

/-- Whether the text is a token without faults. -/
def Lexeme.isSound (x : Lexeme) : Bool :=
  match x.form with
  | .invalid _ => false
  | _ => x.faults.isEmpty

theorem isSound_unterminated (s : StringRead) : s.unterminated.isSound = false := by
  simp [StringRead.unterminated, Lexeme.isSound, StringRead.text]

theorem isSound_of_append_eq_error {s : StringRead} {e : Escape} {x : Lexeme}
    (h : s.append e = .error x) : x.isSound = false := by
  rw [StringRead.append] at h
  split at h
  · simp only [Except.error.injEq] at h
    simp [← h, Lexeme.isSound]
  · simp at h

theorem append_eq_ok {s t : StringRead} {e : Escape} (h : s.append e = .ok t) :
    e.fault? = none ∧ t.taken = s.taken + 1 + e.used := by
  rw [StringRead.append] at h
  split at h
  · simp at h
  next hfault =>
    simp only [Except.ok.injEq] at h
    simp [← h, hfault]

/-- What is read of a string is kept, and compaction leaves it at the same quote. -/
theorem kept_stringFrom {q : Char} (hq : q = '"' ∨ q = '\'') (fuel : Nat) (s : StringRead)
    (cs : List Char) (h : (stringFrom q fuel s cs).isSound = true) :
    ∃ n rest, (stringFrom q fuel s cs).taken = s.taken + n ∧ Kept (.quoted q) .code n cs rest := by
  fun_induction stringFrom q fuel s cs with
  | case1 | case2 | case4 => simp [isSound_unterminated] at h
  | case3 fuel s rest =>
    have hne : q ≠ '\\' := by rcases hq with rfl | rfl <;> decide
    exact ⟨1, rest, rfl, [q], rfl, rfl, by simp [compactFrom, hne]⟩
  | case5 fuel s rest _ x hx => simp [isSound_of_append_eq_error hx] at h
  | case6 fuel s rest e t ht _ _ ih =>
    obtain ⟨hfault, htaken⟩ := append_eq_ok ht
    obtain ⟨n, after, hn, hkept⟩ := ih h
    have hescape : Kept (.quoted q) (.quoted q) (1 + e.used) ('\\' :: rest) e.rest :=
      (Kept.backslash q rest).trans (kept_escape hq hfault) rfl
    refine ⟨1 + e.used + n, after, ?_, hescape.trans hkept rfl⟩
    simp only [hn, htaken, Nat.add_assoc]
  | case7 fuel s c rest hquote _ hslash _ ih =>
    obtain ⟨n, after, hn, hkept⟩ := ih h
    have hchar : Kept (.quoted q) (.quoted q) 1 (c :: rest) rest :=
      Kept.of_quoted (w := [c]) (by simp [hquote, hslash]) rest
    refine ⟨1 + n, after, ?_, hchar.trans hkept rfl⟩
    rw [hn]
    exact Nat.add_assoc _ _ _

theorem kept_stringLexeme {q : Char} (hq : q = '"' ∨ q = '\'') {cs : List Char}
    (h : (stringLexeme q cs).isSound = true) :
    ∃ rest, Kept .code .code (stringLexeme q cs).taken (q :: cs) rest := by
  obtain ⟨n, rest, hn, hkept⟩ := kept_stringFrom hq _ _ cs h
  have hquote : isQuote q = true := by rcases hq with rfl | rfl <;> decide
  exact ⟨rest, (Kept.quote hquote cs).trans hkept hn.symm⟩

/-! ## Templates -/

/-- The text after the next mark of a template that is not escaped. It closes the template if no
other mark stands in the substitutions. -/
def pastMark? : List Char → Option (List Char)
  | [] => none
  | '\\' :: _ :: rest => pastMark? rest
  | '\x60' :: rest => some rest
  | _ :: rest => pastMark? rest

/-- A template is kept up to its next mark, substitutions included. -/
theorem kept_pastMark {cs rest : List Char} (h : pastMark? cs = some rest) :
    ∃ n, Kept (.quoted '\x60') .code n cs rest := by
  fun_induction pastMark? cs with
  | case1 => simp at h
  | case2 c cs ih =>
    obtain ⟨n, hkept⟩ := ih h
    have hescape := (Kept.backslash '\x60' (c :: cs)).trans (Kept.escaped '\x60' c cs) rfl
    exact ⟨2 + n, hescape.trans hkept rfl⟩
  | case3 cs =>
    obtain rfl := Option.some.inj h
    exact ⟨1, ['\x60'], rfl, rfl, by simp [compactFrom]⟩
  | case4 c cs hescape hmark ih =>
    obtain ⟨n, hkept⟩ := ih h
    have hslash : c ≠ '\\' := by
      rintro rfl
      cases cs with
      | nil => simp [pastMark?] at h
      | cons d cs => exact hescape d cs rfl rfl
    have hchar : Kept (.quoted '\x60') (.quoted '\x60') 1 (c :: cs) cs :=
      Kept.of_quoted (w := [c]) (by simpa using ⟨hslash, hmark⟩) cs
    exact ⟨1 + n, hchar.trans hkept rfl⟩

/-! ## Words -/

theorem taken_wordFrom_le (fuel : Nat) (first : Bool) (pos : Nat) (cs : List Char)
    (h : (wordFrom fuel first pos cs).error? = none) :
    (wordFrom fuel first pos cs).taken ≤ cs.length := by
  fun_induction wordFrom fuel first pos cs with
  | case1 | case6 | case7 => simp
  | case2 | case4 => simp at h
  | case3 fuel first pos tail code used rest hunicode _ r _ _ ih =>
    obtain ⟨w, rfl, rfl, -⟩ := unicodeEscape_eq_ok hunicode
    have hle : r.taken ≤ rest.length := ih h
    simp only [List.length_cons, List.length_append]
    omega
  | case5 fuel first pos c rest _ _ _ r ih =>
    have hle : r.taken ≤ rest.length := ih h
    simp only [List.length_cons]
    omega

theorem kept_wordLexeme {cs : List Char} (h : (wordLexeme cs).isSound = true) :
    ∃ rest, Kept .code .code (wordLexeme cs).taken cs rest := by
  let window := cs.takeWhile isWordPart
  let r := wordFrom window.length true 0 window
  have htaken : (wordLexeme cs).taken = r.taken := by
    simp only [wordLexeme]
    split
    · rfl
    · split <;> rfl
  have herror : r.error? = none := by
    rw [wordLexeme] at h
    split at h
    · simp [Lexeme.isSound] at h
    next hnone => exact hnone
  have hle : r.taken ≤ window.length := taken_wordFrom_le _ _ _ _ herror
  have hwindow : (window.take r.taken).all isInert = true := by
    apply List.all_eq_true.2
    intro c hc
    have hpart := List.all_eq_true.1 List.all_takeWhile c (List.mem_of_mem_take hc)
    exact isInert_of_isWordPart hpart
  have hcs : window.take r.taken ++ (window.drop r.taken ++ cs.dropWhile isWordPart) = cs := by
    rw [← List.append_assoc, List.take_append_drop, List.takeWhile_append_dropWhile]
  have hkept := Kept.of_inert hwindow (window.drop r.taken ++ cs.dropWhile isWordPart)
  rw [hcs, List.length_take_of_le hle] at hkept
  rw [htaken]
  exact ⟨_, hkept⟩

/-! ## Numbers -/

theorem isInert_of_eq_or_eq {c a b : Char} (h : c = a ∨ c = b) (ha : isInert a = true)
    (hb : isInert b = true) : isInert c = true := by
  rcases h with rfl | rfl
  · exact ha
  · exact hb

/-- A run of digits from byte `pos` on is kept; its characters are one byte wide. -/
theorem kept_digitRun {base : Nat} (hbase : base ≤ 16) (before : Option Char) (pos : Nat)
    (cs : List Char) :
    ∃ n, (digitRun base before pos cs).stop = pos + n ∧
      Kept .code .code n cs (digitRun base before pos cs).rest := by
  induction cs generalizing before pos with
  | nil => exact ⟨0, rfl, Kept.refl _ _⟩
  | cons c cs ih =>
    obtain ⟨n, hstop, hkept⟩ := ih (some c) (pos + 1)
    have hgoOn (hc : isInert c = true) : Kept .code .code (1 + n) (c :: cs)
        (digitRun base (some c) (pos + 1) cs).rest := (Kept.inert hc cs).trans hkept rfl
    rw [digitRun]
    split
    next hc =>
      have hinert : isInert c = true := by rw [hc]; decide
      dsimp only
      split
      · exact ⟨1 + n, by rw [hstop]; omega, hgoOn hinert⟩
      · exact ⟨1 + n, by rw [hstop]; omega, hgoOn hinert⟩
    next =>
      split
      next hdigit =>
        exact ⟨1 + n, by rw [hstop]; omega, hgoOn (isInert_of_isDigitIn hbase hdigit)⟩
      next => exact ⟨0, rfl, Kept.refl _ _⟩

theorem kept_fractionPart (pos : Nat) (cs : List Char) :
    ∃ n, (fractionPart pos cs).stop = pos + n ∧
      Kept .code .code n cs (fractionPart pos cs).rest := by
  rw [fractionPart.eq_def]
  split
  next tail =>
    obtain ⟨n, hstop, hkept⟩ := kept_digitRun (by decide : 10 ≤ 16) none (pos + 1) tail
    have hpoint := Kept.inert (by decide : isInert '.' = true) tail
    exact ⟨1 + n, by rw [hstop]; omega, hpoint.trans hkept rfl⟩
  next => exact ⟨0, rfl, Kept.refl _ _⟩

theorem kept_exponentPart {pos lo : Nat} {cs : List Char} {value : Int} {r : DigitRun}
    (h : exponentPart pos cs = .ok (value, lo, r)) :
    ∃ n, r.stop = pos + n ∧ Kept .code .code n cs r.rest := by
  rw [exponentPart.eq_def] at h
  split at h
  next e rest =>
    split at h
    next he =>
      have hmark : Kept .code .code 1 (e :: rest) rest :=
        Kept.inert (isInert_of_eq_or_eq he (by decide) (by decide)) rest
      split at h
      next => simp at h
      next s tail =>
        by_cases hsigned : s = '+' ∨ s = '-'
        · simp only [if_pos hsigned] at h
          obtain ⟨n, hstop, hkept⟩ := kept_digitRun (by decide : 10 ≤ 16) none (pos + 2) tail
          have hsign : Kept .code .code 1 (s :: tail) tail :=
            Kept.inert (isInert_of_eq_or_eq hsigned (by decide) (by decide)) tail
          split at h
          next => simp at h
          next =>
            simp only [Except.ok.injEq, Prod.mk.injEq] at h
            obtain ⟨-, -, rfl⟩ := h
            exact ⟨2 + n, by rw [hstop]; omega, (hmark.trans hsign rfl).trans hkept rfl⟩
        · simp only [if_neg hsigned] at h
          obtain ⟨n, hstop, hkept⟩ := kept_digitRun (by decide : 10 ≤ 16) none (pos + 1) (s :: tail)
          split at h
          next => simp at h
          next =>
            simp only [Except.ok.injEq, Prod.mk.injEq] at h
            obtain ⟨-, -, rfl⟩ := h
            exact ⟨1 + n, by rw [hstop]; omega, hmark.trans hkept rfl⟩
    next =>
      simp only [Except.ok.injEq, Prod.mk.injEq] at h
      obtain ⟨-, -, rfl⟩ := h
      exact ⟨0, rfl, Kept.refl _ _⟩
  next =>
    simp only [Except.ok.injEq, Prod.mk.injEq] at h
    obtain ⟨-, -, rfl⟩ := h
    exact ⟨0, rfl, Kept.refl _ _⟩

theorem taken_numberEnd (value : Number.Magnitude) (stop : Nat) (rest : List Char)
    (faults : List SyntaxError) : (numberEnd value stop rest faults).taken = stop := by
  rw [numberEnd]
  split <;> rfl

theorem kept_decimalRest {whole : DigitRun} {faults : List SyntaxError}
    (h : (decimalRest whole faults).isSound = true) :
    ∃ n rest, (decimalRest whole faults).taken = whole.stop + n ∧
      Kept .code .code n whole.rest rest := by
  obtain ⟨a, ha, hfraction⟩ := kept_fractionPart whole.stop whole.rest
  rw [decimalRest] at h ⊢
  dsimp only at h ⊢
  split at h
  next => simp [Lexeme.isSound] at h
  next value lo r hexponent =>
    obtain ⟨b, hb, hkept⟩ := kept_exponentPart hexponent
    refine ⟨a + b, r.rest, ?_, hfraction.trans hkept rfl⟩
    rw [taken_numberEnd, hb, ha, Nat.add_assoc]

theorem taken_octalNumber (r : DigitRun) : (octalNumber r).taken = r.stop := by
  rw [octalNumber]
  dsimp only
  split <;> exact taken_numberEnd ..

theorem kept_decimalNumber {cs : List Char} {x : Lexeme} (hx : decimalNumber cs = x)
    (h : x.isSound = true) : ∃ rest, Kept .code .code x.taken cs rest := by
  rw [decimalNumber] at hx
  generalize hwhole : (if cs.head? = some '.' then { stop := 0, rest := cs }
    else digitRun 10 none 0 cs : DigitRun) = whole at hx
  have hkept : Kept .code .code whole.stop cs whole.rest := by
    rw [← hwhole]
    split
    · exact Kept.refl _ _
    · obtain ⟨n, hstop, hkept⟩ := kept_digitRun (by decide : 10 ≤ 16) none 0 cs
      exact hkept.trans (Kept.refl _ _) (by omega)
  have hdecimal {faults : List SyntaxError} (hrest : decimalRest whole faults = x) :
      ∃ rest, Kept .code .code x.taken cs rest := by
    subst hrest
    obtain ⟨n, rest, hn, htail⟩ := kept_decimalRest h
    exact ⟨rest, hkept.trans htail hn.symm⟩
  split at hx
  next tail htail =>
    subst hx
    rw [htail] at hkept
    exact ⟨tail, hkept.trans (Kept.inert (by decide) tail) rfl⟩
  next =>
    split at hx
    · split at hx
      · exact hdecimal hx
      · rw [← hx, taken_octalNumber]
        exact ⟨whole.rest, hkept⟩
    · exact hdecimal hx

theorem kept_basedNumber {base : Nat} (hbase : base ≤ 16) {m : Char} (hm : isInert m = true)
    {cs : List Char} {x : Lexeme} (hx : basedNumber base cs = x) (h : x.isSound = true) :
    ∃ rest, Kept .code .code x.taken ('0' :: m :: cs) rest := by
  obtain ⟨n, hstop, hdigits⟩ := kept_digitRun hbase none 2 cs
  have hmark := (Kept.inert (by decide : isInert '0' = true) (m :: cs)).trans (Kept.inert hm cs) rfl
  have hkept := hmark.trans hdigits hstop.symm
  rw [basedNumber] at hx
  split at hx
  next => simp [← hx, Lexeme.isSound] at h
  next =>
    split at hx
    next tail htail =>
      rw [htail] at hkept
      rw [← hx]
      exact ⟨tail, hkept.trans (Kept.inert (by decide) tail) rfl⟩
    next =>
      rw [← hx, taken_numberEnd]
      exact ⟨_, hkept⟩

theorem kept_numberLexeme {cs : List Char} {x : Lexeme} (hx : numberLexeme cs = x)
    (h : x.isSound = true) : ∃ rest, Kept .code .code x.taken cs rest := by
  rw [numberLexeme.eq_def] at hx
  split at hx
  next m rest =>
    split at hx
    next hm =>
      have hmark := isInert_of_eq_or_eq hm (by decide) (by decide)
      exact kept_basedNumber (by decide) hmark hx h
    next =>
      split at hx
      next hm =>
        have hmark := isInert_of_eq_or_eq hm (by decide) (by decide)
        exact kept_basedNumber (by decide) hmark hx h
      next =>
        split at hx
        next hm =>
          have hmark := isInert_of_eq_or_eq hm (by decide) (by decide)
          exact kept_basedNumber (by decide) hmark hx h
        next => exact kept_decimalNumber hx h
  next => exact kept_decimalNumber hx h

end Token

end OptionalChain
