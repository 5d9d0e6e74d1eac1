import OptionalChain.Guard.Fallback
import OptionalChain.Proofs.PlacedChains

/-!
# Stricter options

Options that are at least as strict as others disqualify whatever the others do. A search under
them may start and end chains elsewhere, but never leaves the chains that are found under the
others: operands that form a chain under the stricter options do so under the others, and two
chains that share an operand join into one, which a longest chain cannot fall short of.
-/

namespace OptionalChain

/-! ## Options and verdicts -/

/-- Whatever is left out or ruled out under `lax` is so under `strict`. -/
structure ChainOptions.AtLeastAsStrict (strict lax : ChainOptions) : Prop where
  requireNullish : lax.requireNullish = true → strict.requireNullish = true
  checks : ∀ category, strict.checks category = true → lax.checks category = true
  allowUnsafeFixes : strict.allowUnsafeFixes = true → lax.allowUnsafeFixes = true

theorem TypeCategory.mem_all (category : TypeCategory) : category ∈ TypeCategory.all := by
  cases category <;> decide

/-- The three grounds on which a bare test for truthiness is disqualified. -/
theorem judgeTruthiness_ne_disqualified_iff {s : Shape} {o : ChainOptions} :
    judgeTruthiness s o ≠ .disqualified ↔
      (o.requireNullish = true → s.includesNullish = true) ∧
      (∀ category, s.isExactly category = true → o.checks category = true) ∧
      (s.hasFalsyLiteral = true → o.allowUnsafeFixes = true) := by
  have hgrounds : judgeTruthiness s o ≠ .disqualified ↔
      ¬(o.requireNullish && !s.includesNullish) = true ∧
      ¬(TypeCategory.all.any fun c ↦ !o.checks c && s.isExactly c) = true ∧
      ¬(s.hasFalsyLiteral && !o.allowUnsafeFixes) = true := by
    unfold judgeTruthiness
    split_ifs <;> simp_all
  have hcategories : ¬(TypeCategory.all.any fun c ↦ !o.checks c && s.isExactly c) = true ↔
      ∀ category, s.isExactly category = true → o.checks category = true := by
    rw [List.any_eq_true, not_exists]
    refine forall_congr' fun category ↦ ?_
    cases s.isExactly category <;> simp [TypeCategory.mem_all]
  rw [hgrounds, hcategories]
  simp

namespace ChainOptions.AtLeastAsStrict

variable {strict lax : ChainOptions} (h : strict.AtLeastAsStrict lax)

include h

theorem judgeTruthiness_ne_disqualified {s : Shape}
    (hs : judgeTruthiness s strict ≠ .disqualified) : judgeTruthiness s lax ≠ .disqualified := by
  rw [judgeTruthiness_ne_disqualified_iff] at *
  obtain ⟨hnullish, hcategories, hliteral⟩ := hs
  exact ⟨fun hlax ↦ hnullish (h.requireNullish hlax),
    fun category hexactly ↦ h.checks category (hcategories category hexactly),
    fun hfalsy ↦ h.allowUnsafeFixes (hliteral hfalsy)⟩

theorem judgeLevel_ne_disqualified {checks : List CheckKind} {s : Shape}
    (hs : judgeLevel checks s strict ≠ .disqualified) :
    judgeLevel checks s lax ≠ .disqualified := by
  unfold judgeLevel at *
  split
  · rename_i hincomplete
    rw [if_pos hincomplete] at hs
    exact hs
  · rename_i hcomplete
    rw [if_neg hcomplete] at hs
    split
    · rename_i htruthiness
      rw [if_pos htruthiness] at hs
      exact h.judgeTruthiness_ne_disqualified hs
    · exact fun hsafe ↦ by cases hsafe

theorem fallback_ne_disqualified {b : Fallback} {oracle : Oracle}
    (hb : b.verdict oracle strict ≠ .disqualified) : b.verdict oracle lax ≠ .disqualified := by
  unfold Fallback.verdict at *
  split
  · exact fun hsafe ↦ by cases hsafe
  · rename_i hop
    rw [if_neg hop] at hb
    exact h.judgeTruthiness_ne_disqualified hb

end ChainOptions.AtLeastAsStrict

namespace ChainFinder

/-- The same search under other options. -/
def withOptions (c : ChainFinder) (o : ChainOptions) : ChainFinder :=
  { c with options := o }

variable {c : ChainFinder} {operands : List Node}

section

variable {strict lax : ChainOptions} (h : strict.AtLeastAsStrict lax)

include h

theorem qualified_of_atLeastAsStrict {checks : List Check}
    (hchecks : (c.withOptions strict).Qualified checks) :
    (c.withOptions lax).Qualified checks := by
  intro k hk
  have hgroup := hchecks k hk
  cases hks : Check.group checks k.path with
  | nil =>
    rw [hks] at hgroup
    exact hgroup
  | cons k' ks =>
    rw [hks] at hgroup
    exact h.judgeLevel_ne_disqualified hgroup

/-- Operands that form a chain under strict options form one under the others. -/
theorem formsChain_of_atLeastAsStrict {start last : Nat}
    (hforms : (c.withOptions strict).FormsChain operands start last) :
    (c.withOptions lax).FormsChain operands start last where
  lt := hforms.lt
  made := hforms.made
  deepens := hforms.deepens
  qualified := qualified_of_atLeastAsStrict h hforms.qualified
  ends := hforms.ends

end

/-! ## Chains that share an operand -/

theorem extract_append_extract {start mid last : Nat} (h : start ≤ mid) (h' : mid ≤ last) :
    operands.extract start mid ++ operands.extract mid last = operands.extract start last := by
  have hlength : last - start = (mid - start) + (last - mid) := by omega
  rw [List.extract_eq_take_drop, List.extract_eq_take_drop, List.extract_eq_take_drop, hlength,
    List.take_add, List.drop_drop, Nat.add_sub_cancel' h]

variable (c operands) in
theorem checks_extract_append {start mid last : Nat} (h : start ≤ mid) (h' : mid ≤ last) :
    c.checks (operands.extract start last) =
      c.checks (operands.extract start mid) ++ c.checks (operands.extract mid last) := by
  rw [← extract_append_extract h h', checks, List.map_append, checksOf_append]
  rfl

namespace FormsChain

variable {start last start' last' : Nat} (h : c.FormsChain operands start last)
  (h' : c.FormsChain operands start' last') (hinside : start' ≤ last) (hlt : last < last')

include h h' hinside hlt

/-- The last operand of a chain that another one goes on past makes a check on the path that it
ends in. -/
theorem exists_check_last :
    ∃ k, c.checks (operands.extract last last') =
        k :: c.checks (operands.extract (last + 1) last') ∧
      ∀ k' ∈ c.checks (operands.extract start last), k'.path.leadsStrictly k.path = true := by
  obtain ⟨n, p, hn, hp, hleads⟩ := h.exists_terminal
  obtain ⟨hlength, rfl⟩ := List.getElem?_eq_some_iff.1 hn
  have hextract : operands.extract last last' =
      operands[last] :: operands.extract (last + 1) last' := by
    have hcount : last' - last = last' - (last + 1) + 1 := by omega
    rw [List.extract_eq_take_drop, List.drop_eq_getElem_cons hlength, hcount, List.take_succ_cons]
  have hmem : operands[last] ∈ operands.extract start' last' := by
    rw [← extract_append_extract hinside hlt.le, hextract]
    exact List.mem_append_right _ List.mem_cons_self
  obtain ⟨k, hk⟩ := Option.isSome_iff_exists.1 (h'.made _ hmem)
  have hpath : k.path = p := Check.path_eq_of_terminalPath? (Option.filter_eq_some_iff.1 hk).1 hp
  refine ⟨k, ?_, hpath ▸ hleads⟩
  rw [hextract]
  exact List.filterMap_cons_some hk

theorem allLead : Check.AllLead (c.checks (operands.extract start last))
    (c.checks (operands.extract last last')) := by
  obtain ⟨k, hchecks, hleads⟩ := h.exists_check_last h' hinside hlt
  have hdeepens := AccessPath.pairwise_leads _ h'.deepens
  rw [checks_extract_append c operands hinside hlt.le, hchecks] at hdeepens
  have hdown := (List.pairwise_cons.1 (List.pairwise_append.1 hdeepens).2.1).1
  rw [hchecks]
  intro k₁ hk₁ k₂ hk₂
  obtain rfl | hk₂ := List.mem_cons.1 hk₂
  · exact hleads k₁ hk₁
  · exact AccessPath.leadsStrictly_of_leadsStrictly_of_leads (hleads k₁ hk₁) (hdown k₂ hk₂)

/-- Two chains that share an operand join into one. -/
theorem join (hstart : start ≤ start') : c.FormsChain operands start last' := by
  have hall := h.allLead h' hinside hlt
  have hsplit := checks_extract_append c operands h.lt.le hlt.le
  have hsplit' := checks_extract_append c operands hinside hlt.le
  constructor
  case lt => exact h.lt.trans hlt
  case made =>
    intro n hn
    rw [← extract_append_extract h.lt.le hlt.le] at hn
    obtain hn | hn := List.mem_append.1 hn
    · exact h.made n hn
    · apply h'.made
      rw [← extract_append_extract hinside hlt.le]
      exact List.mem_append_right _ hn
  case deepens =>
    have hdeepens := AccessPath.pairwise_leads _ h.deepens
    have hdeepens' := AccessPath.pairwise_leads _ h'.deepens
    rw [hsplit'] at hdeepens'
    rw [hsplit]
    apply List.Pairwise.isChain
    refine List.pairwise_append.2 ⟨hdeepens, (List.pairwise_append.1 hdeepens').2.1, ?_⟩
    exact fun k hk k' hk' ↦ AccessPath.leads_iff_sameAs_or.2 (.inr (hall k hk k' hk'))
  case qualified =>
    -- The checks that both chains make lead to those after them, so that the latter are judged
    -- alike in both.
    have hall' : Check.AllLead (c.checks (operands.extract start' last))
        (c.checks (operands.extract last last')) := by
      intro k hk
      apply hall k
      rw [checks_extract_append c operands hstart hinside]
      exact List.mem_append_right _ hk
    have hqualified := h'.qualified
    rw [hsplit', qualified_append_iff hall'] at hqualified
    rw [hsplit, qualified_append_iff hall]
    exact ⟨h.qualified, hqualified.2⟩
  case ends =>
    obtain ⟨k, hchecks, -⟩ := h.exists_check_last h' hinside hlt
    have hne : c.checks (operands.extract last last') ≠ [] := by
      rw [hchecks]
      exact List.cons_ne_nil _ _
    have hends := h'.ends
    rw [hsplit', List.getLast?_append_of_ne_nil _ hne] at hends
    rw [hsplit, List.getLast?_append_of_ne_nil _ hne]
    exact hends

end FormsChain

/-! ## Two searches -/

/-- A chain that is found under strict options lies in a chain that is found under the others. -/
theorem exists_placed_within {strict lax : ChainOptions} (h : strict.AtLeastAsStrict lax)
    {b : PlacedChain} (hb : b ∈ (c.withOptions strict).placed operands) :
    ∃ b' ∈ (c.withOptions lax).placed operands, b'.start ≤ b.start ∧ b.last ≤ b'.last := by
  have hforms : (c.withOptions lax).FormsChain operands b.start b.last :=
    formsChain_of_atLeastAsStrict h (isGreatest_of_mem_placed hb).1
  obtain ⟨b', hb', hstart, hinside⟩ := exists_mem_placed hforms
  obtain ⟨hforms', hgreatest⟩ := isGreatest_of_mem_placed hb'
  refine ⟨b', hb', hstart, ?_⟩
  by_contra hlonger
  -- Otherwise both would join into a chain that goes on past the longest one.
  have hjoined : (c.withOptions lax).FormsChain operands b'.start b.last :=
    FormsChain.join hforms' hforms hinside (Nat.lt_of_not_le hlonger) hstart
  exact hlonger (hgreatest hjoined)

/-- Under stricter options nothing is reported outside of what is reported under the others: every
chain lies in the block of a single chain there, and every fallback is one there. -/
theorem stricter_options_report_less {strict lax : ChainOptions} (h : strict.AtLeastAsStrict lax)
    (c : ChainFinder) (operands : List Node) :
    (∀ o, ((c.withOptions o).placed operands).map (·.chain) = (c.withOptions o).find operands) ∧
      (∀ b ∈ (c.withOptions strict).placed operands,
        ∃ b' ∈ (c.withOptions lax).placed operands, b'.start ≤ b.start ∧ b.last ≤ b'.last) ∧
      ∀ (b : Fallback) (oracle : Oracle), b.verdict oracle strict ≠ .disqualified →
        b.verdict oracle lax ≠ .disqualified :=
  ⟨fun o ↦ (c.withOptions o).map_chain_placed operands, fun _ hb ↦ exists_placed_within h hb,
    fun _ _ hb ↦ h.fallback_ne_disqualified hb⟩

/-- The guard on `a` tests for truthiness, and no type tells that `a` may be nullish. -/
def untypedGuard : ChainFinder :=
  inText .and "a && a.b != null && a.b.c;"

def requiringNullish : ChainOptions :=
  { requireNullish := true }

def innerChain : PlacedChain :=
  ((untypedGuard.withOptions requiringNullish).placed untypedGuard.firstRun).head
    (by decide +kernel)

def orFallback : Fallback :=
  ((inText .and "(a || \x7b\x7d).b;").firstRun.head?.bind Fallback.of?).get (by decide +kernel)

/-- Under the strict options the chain starts one operand later. -/
theorem inner_chain_within :
    requiringNullish.AtLeastAsStrict {} ∧
      innerChain ∈ (untypedGuard.withOptions requiringNullish).placed untypedGuard.firstRun ∧
      (innerChain.start, innerChain.last) = (1, 2) ∧
      ((untypedGuard.withOptions {}).placed untypedGuard.firstRun).map
        (fun b ↦ (b.start, b.last)) = [(0, 2)] ∧
      (∃ b' ∈ (untypedGuard.withOptions {}).placed untypedGuard.firstRun,
        b'.start ≤ innerChain.start ∧ innerChain.last ≤ b'.last) ∧
      orFallback.verdict (fun _ ↦ ⟨[.object, .null]⟩) requiringNullish = .safe ∧
      orFallback.verdict (fun _ ↦ ⟨[.object, .null]⟩) {} ≠ .disqualified := by
  have hstrict : requiringNullish.AtLeastAsStrict {} := by
    constructor
    · exact fun _ ↦ rfl
    · intro category _
      cases category <;> rfl
    · exact fun h ↦ h
  have hmem : innerChain ∈
      (untypedGuard.withOptions requiringNullish).placed untypedGuard.firstRun := List.head_mem _
  obtain ⟨hinner, houter, hsafe⟩ : (innerChain.start, innerChain.last) = (1, 2) ∧
      ((untypedGuard.withOptions {}).placed untypedGuard.firstRun).map
        (fun b ↦ (b.start, b.last)) = [(0, 2)] ∧
      orFallback.verdict (fun _ ↦ ⟨[.object, .null]⟩) requiringNullish = .safe := by
    decide +kernel
  obtain ⟨-, hwithin, hfallback⟩ :=
    stricter_options_report_less hstrict untypedGuard untypedGuard.firstRun
  refine ⟨hstrict, hmem, hinner, houter, hwithin innerChain hmem, hsafe, ?_⟩
  apply hfallback orFallback
  rw [hsafe]
  exact fun h ↦ by cases h

end ChainFinder

end OptionalChain
