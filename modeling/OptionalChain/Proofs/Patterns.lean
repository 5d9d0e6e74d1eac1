import OptionalChain.Text.Pattern

/-!
# What patterns take

A pattern relates a text to what is left of it. Matching with backtracking finds one of the
continuations that this relation allows, and it finds one whenever there is any.
-/

namespace OptionalChain.Text

theorem after?_eq_some_iff {w cs rest : List Char} : after? w cs = some rest ↔ cs = w ++ rest := by
  induction w generalizing cs with
  | nil => simp [after?]
  | cons a w ih =>
    cases cs with
    | nil => simp [after?]
    | cons c cs =>
      by_cases hac : a = c
      · simp [after?, hac, ih]
      · simp [after?, hac, Ne.symm hac]

namespace Pattern

/-- The pattern can go from `cs` to `rest`, with the captures that are added on the way. -/
def Takes : Pattern → List Char → Captures → List Char → Captures → Prop
  | word w, cs, caps, rest, caps' => cs = w ++ rest ∧ caps' = caps
  | one p, cs, caps, rest, caps' => ∃ c, p c = true ∧ cs = c :: rest ∧ caps' = caps
  | many p _, cs, caps, rest, caps' => ∃ w, (∀ c ∈ w, p c = true) ∧ cs = w ++ rest ∧ caps' = caps
  | finish, cs, caps, rest, caps' => cs = [] ∧ rest = [] ∧ caps' = caps
  | group index part, cs, caps, rest, caps' =>
    ∃ w inner, cs = w ++ rest ∧ part.Takes cs caps rest inner ∧ caps' = (index, w) :: inner
  | seq first second, cs, caps, rest, caps' =>
    ∃ mid inner, first.Takes cs caps mid inner ∧ second.Takes mid inner rest caps'
  | alt first second, cs, caps, rest, caps' =>
    first.Takes cs caps rest caps' ∨ second.Takes cs caps rest caps'

variable {α : Type} {p q : Pattern} {cs mid rest w : List Char} {caps inner caps' : Captures}

theorem Takes.word (w rest : List Char) (caps : Captures) :
    Takes (.word w) (w ++ rest) caps rest caps :=
  ⟨rfl, rfl⟩

theorem Takes.many {r : Char → Bool} (hw : ∀ c ∈ w, r c = true) (greedy : Bool)
    (rest : List Char) (caps : Captures) :
    Takes (.many r greedy) (w ++ rest) caps rest caps :=
  ⟨w, hw, rfl, rfl⟩

theorem Takes.group (index : Nat) (h : p.Takes (w ++ rest) caps rest inner) :
    Takes (.group index p) (w ++ rest) caps rest ((index, w) :: inner) :=
  ⟨w, inner, rfl, h, rfl⟩

theorem Takes.seq (hp : p.Takes cs caps mid inner) (hq : q.Takes mid inner rest caps') :
    Takes (.seq p q) cs caps rest caps' :=
  ⟨mid, inner, hp, hq⟩

theorem Takes.exists_eq_append (h : p.Takes cs caps rest caps') : ∃ w, cs = w ++ rest := by
  induction p generalizing cs caps rest caps' with
  | word w => exact ⟨w, h.1⟩
  | one p =>
    obtain ⟨c, -, rfl, -⟩ := h
    exact ⟨[c], rfl⟩
  | many p greedy =>
    obtain ⟨w, -, rfl, -⟩ := h
    exact ⟨w, rfl⟩
  | finish =>
    obtain ⟨rfl, rfl, -⟩ := h
    exact ⟨[], rfl⟩
  | group index part ih =>
    obtain ⟨w, inner, rfl, -⟩ := h
    exact ⟨w, rfl⟩
  | seq first second ihFirst ihSecond =>
    obtain ⟨mid, inner, hfirst, hsecond⟩ := h
    obtain ⟨w, rfl⟩ := ihFirst hfirst
    obtain ⟨w', rfl⟩ := ihSecond hsecond
    exact ⟨w ++ w', (List.append_assoc w w' rest).symm⟩
  | alt first second ihFirst ihSecond => exact h.elim ihFirst ihSecond

theorem takes_alt_word_iff {w w' : List Char} :
    Takes (.alt (.word w) (.word w')) cs caps rest caps' ↔
      ∃ v, (v = w ∨ v = w') ∧ cs = v ++ rest ∧ caps' = caps := by
  constructor
  · rintro (⟨hcs, hcaps⟩ | ⟨hcs, hcaps⟩)
    · exact ⟨w, .inl rfl, hcs, hcaps⟩
    · exact ⟨w', .inr rfl, hcs, hcaps⟩
  · rintro ⟨v, rfl | rfl, hcs, hcaps⟩
    · exact .inl ⟨hcs, hcaps⟩
    · exact .inr ⟨hcs, hcaps⟩

/-! ## Runs of a class -/

theorem eq_some_or_of_orElse {a b : Option α} {x : α} (h : (a <|> b) = some x) :
    a = some x ∨ b = some x := by
  rw [Option.orElse_eq_orElse, Option.orElse_eq_or, Option.or_eq_some_iff] at h
  exact h.imp_right And.right

theorem isSome_orElse {a b : Option α} (h : a.isSome = true ∨ b.isSome = true) :
    (a <|> b).isSome = true := by
  rw [Option.orElse_eq_orElse, Option.orElse_eq_or, Option.isSome_or, Bool.or_eq_true]
  exact h

section Many

variable {r : Char → Bool} {greedy : Bool} {next : List Char → Option α}

theorem exists_of_runMany {x : α} (h : runMany r greedy next cs = some x) :
    ∃ w rest, (∀ c ∈ w, r c = true) ∧ cs = w ++ rest ∧ next rest = some x := by
  induction cs with
  | nil => exact ⟨[], [], List.forall_mem_nil _, rfl, h⟩
  | cons c cs ih =>
    have hcases : (r c = true ∧ runMany r greedy next cs = some x) ∨ next (c :: cs) = some x := by
      rw [runMany] at h
      split at h
      · rename_i hc
        split at h
        · exact (eq_some_or_of_orElse h).imp_left fun hx ↦ ⟨hc, hx⟩
        · exact (eq_some_or_of_orElse h).symm.imp_left fun hx ↦ ⟨hc, hx⟩
      · exact .inr h
    obtain ⟨hc, hmore⟩ | hstay := hcases
    · obtain ⟨w, rest, hw, rfl, hrest⟩ := ih hmore
      exact ⟨c :: w, rest, List.forall_mem_cons.2 ⟨hc, hw⟩, rfl, hrest⟩
    · exact ⟨[], c :: cs, List.forall_mem_nil _, rfl, hstay⟩

theorem isSome_runMany_of_next (h : (next cs).isSome = true) :
    (runMany r greedy next cs).isSome = true := by
  cases cs with
  | nil => exact h
  | cons c cs =>
    rw [runMany]
    split
    · split
      · exact isSome_orElse (.inr h)
      · exact isSome_orElse (.inl h)
    · exact h

theorem isSome_runMany {w : List Char} (hw : ∀ c ∈ w, r c = true) (h : (next rest).isSome = true) :
    (runMany r greedy next (w ++ rest)).isSome = true := by
  induction w with
  | nil => exact isSome_runMany_of_next h
  | cons c w ih =>
    obtain ⟨hc, hw⟩ := List.forall_mem_cons.1 hw
    rw [List.cons_append, runMany, if_pos hc]
    split
    · exact isSome_orElse (.inl (ih hw))
    · exact isSome_orElse (.inr (ih hw))

end Many

/-! ## Runs of a pattern -/

/-- What was taken is known by how much is left. -/
theorem take_taken (w rest : List Char) :
    (w ++ rest).take ((w ++ rest).length - rest.length) = w := by
  simp

variable {next : List Char → Captures → Option α}

/-- Whatever way is found, the pattern allows it. -/
theorem exists_takes_of_run {x : α} (h : p.run next cs caps = some x) :
    ∃ rest caps', p.Takes cs caps rest caps' ∧ next rest caps' = some x := by
  induction p generalizing next cs caps with
  | word w =>
    obtain ⟨rest, hrest, hx⟩ := Option.bind_eq_some_iff.1 h
    exact ⟨rest, caps, ⟨after?_eq_some_iff.1 hrest, rfl⟩, hx⟩
  | one q =>
    cases cs with
    | nil => cases h
    | cons c cs =>
      rw [run] at h
      split at h
      · rename_i hc
        exact ⟨cs, caps, ⟨c, hc, rfl, rfl⟩, h⟩
      · cases h
  | many q greedy =>
    obtain ⟨w, rest, hw, rfl, hx⟩ := exists_of_runMany h
    exact ⟨rest, caps, ⟨w, hw, rfl, rfl⟩, hx⟩
  | finish =>
    rw [run] at h
    split at h
    · rename_i hend
      obtain rfl := List.isEmpty_iff.1 hend
      exact ⟨[], caps, ⟨rfl, rfl, rfl⟩, h⟩
    · cases h
  | group index part ih =>
    obtain ⟨rest, inner, htakes, hx⟩ := ih h
    obtain ⟨w, rfl⟩ := htakes.exists_eq_append
    rw [take_taken] at hx
    exact ⟨rest, (index, w) :: inner, ⟨w, inner, rfl, htakes, rfl⟩, hx⟩
  | seq first second ihFirst ihSecond =>
    obtain ⟨mid, inner, hfirst, hmid⟩ := ihFirst h
    obtain ⟨rest, caps', hsecond, hx⟩ := ihSecond hmid
    exact ⟨rest, caps', ⟨mid, inner, hfirst, hsecond⟩, hx⟩
  | alt first second ihFirst ihSecond =>
    obtain hfirst | hsecond := eq_some_or_of_orElse h
    · obtain ⟨rest, caps', htakes, hx⟩ := ihFirst hfirst
      exact ⟨rest, caps', .inl htakes, hx⟩
    · obtain ⟨rest, caps', htakes, hx⟩ := ihSecond hsecond
      exact ⟨rest, caps', .inr htakes, hx⟩

/-- No way that the pattern allows is missed: another one may be found in its place, but some one
is found. -/
theorem isSome_run_of_takes (h : p.Takes cs caps rest caps')
    (hnext : (next rest caps').isSome = true) : (p.run next cs caps).isSome = true := by
  induction p generalizing next cs caps rest caps' with
  | word w =>
    obtain ⟨hcs, rfl⟩ := h
    rw [run, after?_eq_some_iff.2 hcs]
    exact hnext
  | one q =>
    obtain ⟨c, hc, rfl, rfl⟩ := h
    rw [run, if_pos hc]
    exact hnext
  | many q greedy =>
    obtain ⟨w, hw, rfl, rfl⟩ := h
    exact isSome_runMany hw hnext
  | finish =>
    obtain ⟨rfl, rfl, rfl⟩ := h
    exact hnext
  | group index part ih =>
    obtain ⟨w, inner, rfl, htakes, rfl⟩ := h
    apply ih htakes
    rwa [take_taken]
  | seq first second ihFirst ihSecond =>
    obtain ⟨mid, inner, hfirst, hsecond⟩ := h
    exact ihFirst hfirst (ihSecond hsecond hnext)
  | alt first second ihFirst ihSecond =>
    apply isSome_orElse
    exact h.imp (ihFirst · hnext) (ihSecond · hnext)

theorem takes_of_match? {found : Captures × List Char} (h : p.match? cs = some found) :
    p.Takes cs [] found.2 found.1 := by
  obtain ⟨rest, caps, htakes, hfound⟩ := exists_takes_of_run h
  obtain rfl := Option.some.inj hfound
  exact htakes

theorem isSome_match? (h : p.Takes cs [] rest caps) : (p.match? cs).isSome = true :=
  isSome_run_of_takes h rfl

end Pattern

end OptionalChain.Text
