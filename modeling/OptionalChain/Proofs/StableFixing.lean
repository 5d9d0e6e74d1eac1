import OptionalChain.Proofs.SelectedText

/-!
# Fixing until nothing changes

A pass is accepted if it makes an edit and its output parses without an error. Fixing goes on from
the output of each accepted pass and ends with the first pass that is not accepted, so the output is
the text itself or parses, and unless the passes were used up the next pass on it would not be
accepted either. There is no output if the analysis of one of the texts on the way gives no result.
-/

namespace OptionalChain

/-- Whether a text parses without an error in the language of a file. -/
def Language.accepts (name : String) (text : List Char) : Bool :=
  match (Outcome.ofText (ofFileName name).dialect text).strict with
  | .error _ => false
  | .ok _ => true

/-! ## Events of accepted passes -/

/-- Whether the event notes that a pass was accepted. -/
def Event.isApplied : Event → Bool
  | .applied .. => true
  | _ => false

/-- The number of passes that were accepted, by the events. -/
def Engine.FixRun.accepted (run : FixRun) : Nat :=
  run.events.countP Event.isApplied

namespace PreferOptionalChain

theorem Context.isApplied_notes (c : Context) (x : Search) :
    ∀ event ∈ c.notes x, event.isApplied = false := by
  intro event hevent
  cases x with
  | run style operands =>
    rw [notes, List.mem_append, List.mem_map, List.mem_map] at hevent
    obtain ⟨_, _, rfl⟩ | ⟨_, _, rfl⟩ := hevent
    · rfl
    · rfl
  | access n =>
    obtain ⟨_, _, rfl⟩ := List.mem_map.1 hevent
    rfl

theorem isApplied_check? {options : ChainOptions} {f : SourceFile} {r : Report}
    (h : check? options f = some r) : ∀ event ∈ r.events, event.isApplied = false := by
  unfold check? at h
  split at h
  · cases h
    exact List.forall_mem_nil _
  · rw [checkProgram?_eq] at h
    obtain ⟨ds, -, rfl⟩ := Option.map_eq_some_iff.1 h
    intro event hevent
    obtain ⟨x, -, hx⟩ := List.mem_flatMap.1 hevent
    exact Context.isApplied_notes _ x event hx

end PreferOptionalChain

namespace Engine

/-! ## Analyses that give a result -/

/-- No event of an analysis notes an accepted pass. -/
theorem countP_isApplied_of_analyze? {c : Config} {f : SourceFile} {r : Report}
    (h : (ofConfig c).analyze? f = some r) : r.events.countP Event.isApplied = 0 := by
  rw [List.countP_eq_zero]
  suffices hevents : ∀ event ∈ r.events, event.isApplied = false from
    fun event hevent ↦ by rw [hevents event hevent]; exact Bool.false_ne_true
  obtain ⟨found, hfound, h⟩ := Option.bind_eq_some_iff.1 h
  obtain ⟨reports, hreports, hfound⟩ := Option.bind_eq_some_iff.1 hfound
  cases hfound
  cases h
  intro event hevent
  obtain hrules | hlast := List.mem_append.1 hevent
  · obtain ⟨report, hreport, hevent⟩ := List.mem_flatMap.1 hrules
    obtain ⟨rule, hrule, hrun⟩ := exists_of_mem_mapM hreports hreport
    obtain rfl : rule = preferOptionalChain c.rules.chain := List.mem_singleton.1 hrule
    rw [Registry.runRule?] at hrun
    split at hrun
    · obtain ⟨checked, hchecked, hrun⟩ := Option.bind_eq_some_iff.1 hrun
      cases hrun
      exact PreferOptionalChain.isApplied_check? hchecked event hevent
    · cases hrun
      cases hevent
  · rw [List.mem_singleton.1 hlast]
    rfl

/-- The analysis of a text gives no result only after a byte-order mark or where an operand is
missing. -/
theorem marked_or_not_whole_of_analyze? {c : Config} {name : String} {text : List Char}
    (h : (ofConfig c).analyze? (.ofText name text) = none) :
    Outcome.markSize text ≠ 0 ∨
      ∃ program, (SourceFile.ofText name text).program? = some program ∧ ¬program.Whole := by
  by_contra hfree
  simp only [not_or, not_exists, not_and, not_not] at hfree
  obtain ⟨hmark, hwhole⟩ := hfree
  have hcheck : ∃ r, PreferOptionalChain.check? c.rules.chain (.ofText name text) = some r := by
    unfold PreferOptionalChain.check?
    split
    · exact ⟨_, rfl⟩
    · rename_i program hprogram
      obtain ⟨r, hr, -⟩ := PreferOptionalChain.Context.exists_report_selects
        (c := ⟨.ofText name text, (Declarations.ofProgram program).oracle, c.rules.chain⟩)
        (SourceFile.seats_of_parse hprogram (hwhole program hprogram) hmark)
        (SourceFile.sitsIn_of_mem_comments hmark)
      exact ⟨r, hr⟩
  obtain ⟨r, hr⟩ := hcheck
  have hrun : ∀ rule ∈ (ofConfig c).registry.rules,
      (ofConfig c).registry.runRule? (.ofText name text) rule ≠ none := by
    intro rule hrule
    obtain rfl : rule = preferOptionalChain c.rules.chain := List.mem_singleton.1 hrule
    rw [Registry.runRule?, show (preferOptionalChain c.rules.chain).check? _ = some r from hr]
    split <;> exact Option.some_ne_none _
  cases hreports : (ofConfig c).registry.rules.mapM
      ((ofConfig c).registry.runRule? (.ofText name text)) with
  | none =>
    obtain ⟨rule, hrule, hnone⟩ := mapM_eq_none_iff.1 hreports
    exact hrun rule hrule hnone
  | some reports =>
    rw [analyze?, Registry.runAll?, hreports] at h
    cases h

/-! ## One pass -/

variable (e : Engine) (name : String) (suggestions : Bool)

/-- The result of one pass over a text, if its analysis gives one. -/
def pass? (text : List Char) : Option FixOutput :=
  (e.analyze? (.ofText name text)).map fun report ↦
    applyFixes text report.diagnostics suggestions

/-- The result of one pass if it is accepted. -/
def accepted? (text : List Char) : Option FixOutput :=
  (e.pass? name suggestions text).filter fun result ↦
    result.changed && Language.accepts name result.output

/-- The text after some passes, if they were all accepted. -/
def reached? : Nat → List Char → Option (List Char)
  | 0, text => some text
  | n + 1, text => (e.accepted? name suggestions text).bind fun result ↦ reached? n result.output

variable {e name suggestions} {text : List Char}

theorem accepted?_eq_some_iff {result : FixOutput} :
    e.accepted? name suggestions text = some result ↔
      e.pass? name suggestions text = some result ∧ 0 < result.applied ∧
        Language.accepts name result.output = true := by
  rw [accepted?, Option.filter_eq_some_iff, Bool.and_eq_true]
  exact and_congr_right fun _ ↦ and_congr_left fun _ ↦ decide_eq_true_iff

/-- After a text whose analysis gives a result, the analysis of a later text gives none exactly if
that of a text reached from the output of the first pass does. -/
theorem exists_reached?_succ_iff {left : Nat} {report : Report}
    (h : e.analyze? (.ofText name text) = some report) :
    (∃ n < left + 1, ∃ t, e.reached? name suggestions n text = some t ∧
        e.analyze? (.ofText name t) = none) ↔
      ∃ result, e.accepted? name suggestions text = some result ∧ ∃ n < left, ∃ t,
        e.reached? name suggestions n result.output = some t ∧
          e.analyze? (.ofText name t) = none := by
  constructor
  · rintro ⟨n, hn, t, ht, hnone⟩
    cases n with
    | zero =>
      cases ht
      rw [h] at hnone
      cases hnone
    | succ n =>
      obtain ⟨result, hresult, ht⟩ := Option.bind_eq_some_iff.1 ht
      exact ⟨result, hresult, n, Nat.lt_of_succ_lt_succ hn, t, ht, hnone⟩
  · rintro ⟨result, hresult, n, hn, t, ht, hnone⟩
    exact ⟨n + 1, Nat.succ_lt_succ hn, t, by rw [reached?, hresult]; exact ht, hnone⟩

variable (applied skipped number left : Nat)

variable (suggestions) in
/-- Fixing a text whose analysis gives a result takes one pass, and goes on from its output if it is
accepted. -/
theorem fixFrom?_succ {report : Report} (h : e.analyze? (.ofText name text) = some report) :
    ∃ events, events.countP Event.isApplied = 0 ∧
      e.fixFrom? name suggestions text applied skipped number (left + 1) =
        match e.accepted? name suggestions text with
        | none => some ⟨⟨text, applied, (applyFixes text report.diagnostics suggestions).skipped⟩,
          report.events ++ events⟩
        | some result =>
          (e.fixFrom? name suggestions result.output (applied + result.applied) result.skipped
            (number + 1) left).map fun rest ↦
              ⟨rest.output,
                report.events ++ .applied name number result.applied :: rest.events⟩ := by
  have hpass : e.pass? name suggestions text =
      some (applyFixes text report.diagnostics suggestions) := by
    rw [pass?, h, Option.map_some]
  rw [fixFrom?, h, accepted?, hpass, Option.bind_eq_bind, Option.bind_some]
  generalize applyFixes text report.diagnostics suggestions = result
  dsimp only
  cases hchanged : result.changed with
  | false =>
    rw [if_neg Bool.false_ne_true, Option.filter_some_neg (by simp [hchanged])]
    exact ⟨[], rfl, rfl⟩
  | true =>
    rw [if_pos rfl]
    cases hstrict : (Outcome.ofText (Language.ofFileName name).dialect result.output).strict with
    | error issue =>
      rw [Option.filter_some_neg (by simp [Language.accepts, hstrict])]
      exact ⟨[.unreadable name number issue.message], rfl, rfl⟩
    | ok program =>
      rw [Option.filter_some_pos (by simp [hchanged, Language.accepts, hstrict])]
      exact ⟨[], rfl, Option.map_eq_bind.symm⟩

/-- Fixing gives no output exactly if accepted passes lead to a text whose analysis gives no
result. -/
theorem fixFrom?_eq_none_iff :
    e.fixFrom? name suggestions text applied skipped number left = none ↔
      ∃ n < left, ∃ t, e.reached? name suggestions n text = some t ∧
        e.analyze? (.ofText name t) = none := by
  induction left generalizing text applied skipped number with
  | zero => simp [fixFrom?]
  | succ left ih =>
    cases hreport : e.analyze? (.ofText name text) with
    | none =>
      refine iff_of_true ?_ ⟨0, Nat.succ_pos left, text, rfl, hreport⟩
      rw [fixFrom?, hreport]
      rfl
    | some report =>
      obtain ⟨events, -, hfix⟩ :=
        fixFrom?_succ suggestions applied skipped number left hreport
      rw [hfix, exists_reached?_succ_iff hreport]
      cases e.accepted? name suggestions text with
      | none => simp
      | some result => simp [ih]

/-! ## All passes -/

/-- What fixing comes to with a number of passes left, when `applied` edits were made before. -/
structure Settles (e : Engine) (name : String) (suggestions : Bool) (text : List Char)
    (applied left : Nat) (run : FixRun) : Prop where
  accepted_le : run.accepted ≤ left
  unchanged : run.accepted = 0 → run.output.output = text ∧ run.output.applied = applied
  accepts : 0 < run.accepted →
    Language.accepts name run.output.output = true ∧ applied < run.output.applied
  ended : run.accepted < left → e.accepted? name suggestions run.output.output = none ∧
    (e.pass? name suggestions run.output.output).map (·.skipped) = some run.output.skipped

/-- An accepted pass comes before what fixing its output comes to. -/
theorem Settles.cons {result : FixOutput} {rest : FixRun} {applied left : Nat}
    (hrest : e.Settles name suggestions result.output (applied + result.applied) left rest)
    (h : e.accepted? name suggestions text = some result) {events : List Event}
    (hquiet : events.countP Event.isApplied = 0) (number : Nat) :
    e.Settles name suggestions text applied (left + 1)
      ⟨rest.output, events ++ .applied name number result.applied :: rest.events⟩ := by
  obtain ⟨-, hpos, haccepts⟩ := accepted?_eq_some_iff.1 h
  have hcount : FixRun.accepted
      ⟨rest.output, events ++ .applied name number result.applied :: rest.events⟩ =
        rest.accepted + 1 := by
    rw [FixRun.accepted, List.countP_append, hquiet, Nat.zero_add]
    exact List.countP_cons_of_pos rfl
  refine ⟨?_, ?_, fun _ ↦ ?_, fun hlt ↦ hrest.ended ?_⟩
  · rw [hcount]
    exact Nat.succ_le_succ hrest.accepted_le
  · intro hzero
    rw [hcount] at hzero
    cases hzero
  · obtain hzero | hmore := Nat.eq_zero_or_pos rest.accepted
    · obtain ⟨houtput, happlied⟩ := hrest.unchanged hzero
      rw [houtput, happlied]
      exact ⟨haccepts, Nat.lt_add_of_pos_right hpos⟩
    · obtain ⟨hlast, happlied⟩ := hrest.accepts hmore
      exact ⟨hlast, Nat.lt_of_le_of_lt (Nat.le_add_right applied result.applied) happlied⟩
  · rw [hcount] at hlt
    exact Nat.lt_of_succ_lt_succ hlt

/-- If the analysis notes no accepted pass, all that are noted are those of the fixing itself. -/
theorem settles_fixFrom? {run : FixRun}
    (hquiet : ∀ f r, e.analyze? f = some r → r.events.countP Event.isApplied = 0)
    (h : e.fixFrom? name suggestions text applied skipped number left = some run) :
    e.Settles name suggestions text applied left run := by
  induction left generalizing text applied skipped number run with
  | zero =>
    cases h
    refine ⟨Nat.le_refl 0, fun _ ↦ ⟨rfl, rfl⟩, fun hpos ↦ absurd hpos (Nat.lt_irrefl 0), ?_⟩
    exact fun hlt ↦ absurd hlt (Nat.lt_irrefl 0)
  | succ left ih =>
    cases hreport : e.analyze? (.ofText name text) with
    | none =>
      rw [fixFrom?, hreport] at h
      cases h
    | some report =>
      have hevents := hquiet _ _ hreport
      obtain ⟨events, hlast, hfix⟩ :=
        fixFrom?_succ suggestions applied skipped number left hreport
      rw [hfix] at h
      cases hresult : e.accepted? name suggestions text with
      | none =>
        rw [hresult] at h
        cases h
        have hzero : FixRun.accepted ⟨⟨text, applied, (applyFixes text report.diagnostics
            suggestions).skipped⟩, report.events ++ events⟩ = 0 := by
          rw [FixRun.accepted, List.countP_append, hevents, hlast]
        refine ⟨by omega, fun _ ↦ ⟨rfl, rfl⟩, fun hpos ↦ by omega, fun _ ↦ ⟨hresult, ?_⟩⟩
        rw [pass?, hreport]
        rfl
      | some result =>
        rw [hresult] at h
        obtain ⟨rest, hrest, rfl⟩ := Option.map_eq_some_iff.1 h
        exact (ih _ _ _ hrest).cons hresult hevents number

/-- Fixing an output whose next pass is not accepted leaves it as it is. -/
theorem fixUntilStable?_of_ended {skipped : Nat} (h : e.accepted? name suggestions text = none)
    (hpass : (e.pass? name suggestions text).map (·.skipped) = some skipped) :
    ∃ run, e.fixUntilStable? name text suggestions = some run ∧
      run.output = ⟨text, 0, skipped⟩ := by
  rw [pass?, Option.map_map] at hpass
  obtain ⟨report, hreport, rfl⟩ := Option.map_eq_some_iff.1 hpass
  obtain ⟨events, -, hfix⟩ := fixFrom?_succ suggestions 0 0 1 9 hreport
  rw [h] at hfix
  exact ⟨_, hfix, rfl⟩

/-- Fixing a text gives no output exactly if accepted passes, fewer than it may make, lead to a text
whose analysis gives no result, and this text starts with a byte-order mark or misses an operand.
An output is the text itself with no edit made, or a text that parses. If fixing accepted
fewer passes than it may make, fixing its output gives the same output with no edit made. -/
theorem fixing_is_stable (c : Config) (name : String) (text : List Char) (suggestions : Bool) :
    ((ofConfig c).fixUntilStable? name text suggestions = none ↔
        ∃ n < maxPasses, ∃ t, (ofConfig c).reached? name suggestions n text = some t ∧
          (ofConfig c).analyze? (.ofText name t) = none) ∧
      (∀ t, (ofConfig c).analyze? (.ofText name t) = none → Outcome.markSize t ≠ 0 ∨
        ∃ program, (SourceFile.ofText name t).program? = some program ∧ ¬program.Whole) ∧
      ∀ run, (ofConfig c).fixUntilStable? name text suggestions = some run →
        (run.accepted = 0 ∧ run.output.output = text ∧ run.output.applied = 0 ∨
          0 < run.accepted ∧ 0 < run.output.applied ∧
            Language.accepts name run.output.output = true) ∧
        run.accepted ≤ maxPasses ∧
        (run.accepted < maxPasses →
          ∃ again, (ofConfig c).fixUntilStable? name run.output.output suggestions = some again ∧
            again.output = { run.output with applied := 0 }) := by
  refine ⟨fixFrom?_eq_none_iff 0 0 1 maxPasses, fun t ↦ marked_or_not_whole_of_analyze?,
    fun run h ↦ ?_⟩
  have hrun : (ofConfig c).Settles name suggestions text 0 maxPasses run :=
    settles_fixFrom? 0 0 1 maxPasses (fun f r ↦ countP_isApplied_of_analyze?) h
  refine ⟨?_, hrun.accepted_le, fun hfewer ↦ ?_⟩
  · obtain hzero | hpos := Nat.eq_zero_or_pos run.accepted
    · exact .inl ⟨hzero, hrun.unchanged hzero⟩
    · exact .inr ⟨hpos, (hrun.accepts hpos).2, (hrun.accepts hpos).1⟩
  · obtain ⟨hnext, hskipped⟩ := hrun.ended hfewer
    exact fixUntilStable?_of_ended hnext hskipped

/-- One pass over a guarded access is accepted, and the one after it finds nothing to do. After a
byte-order mark and a blank, the location of a fallback falls into the mark, and fixing gives no
output. -/
theorem guarded_run_is_stable :
    (∃ run, (ofConfig {}).fixUntilStable? "a.ts" "foo != null && foo.bar;".toList false = some run ∧
      run.accepted = 1 ∧ run.output = ⟨"foo?.bar;".toList, 1, 0⟩) ∧
      (∃ again, (ofConfig {}).fixUntilStable? "a.ts" "foo?.bar;".toList false = some again ∧
        again.output = ⟨"foo?.bar;".toList, 0, 0⟩) ∧
      (ofConfig {}).fixUntilStable? "a.ts" "\uFEFF (foo ?? \x7b\x7d).bar;".toList false = none := by
  obtain ⟨run, hrun, haccepted, houtput⟩ :
      ∃ run ∈ (ofConfig {}).fixUntilStable? "a.ts" "foo != null && foo.bar;".toList false,
        run.accepted = 1 ∧ run.output = ⟨"foo?.bar;".toList, 1, 0⟩ := by
    decide +kernel
  have hnone : (ofConfig {}).analyze?
      (.ofText "a.ts" "\uFEFF (foo ?? \x7b\x7d).bar;".toList) = none :=
    Option.isNone_iff_eq_none.1 (by decide +kernel)
  obtain ⟨-, -, hstable⟩ := (fixing_is_stable {} "a.ts" "foo != null && foo.bar;".toList false).2.2
    run hrun
  rw [haccepted, houtput] at hstable
  refine ⟨⟨run, hrun, haccepted, houtput⟩, hstable (by decide), ?_⟩
  exact (fixing_is_stable {} "a.ts" "\uFEFF (foo ?? \x7b\x7d).bar;".toList false).1.2
    ⟨0, by decide, _, rfl, hnone⟩

end Engine

end OptionalChain
