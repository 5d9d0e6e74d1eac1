import OptionalChain.Rule.Registry

/-!
# Histories of registries

A registry is built by registering rules and by configuring it, in any order and any number of
times. What it does depends on the rules in the order of their registration and on the last
configuration only: configuring it sets everything that was configured before anew.
-/

namespace OptionalChain

/-! ## What a configuration asks for -/

namespace RulesConfig

variable (c : RulesConfig)

/-- Whether rules on quality run and neither name of the rule is turned off. -/
def admits (info : RuleInfo) : Bool :=
  decide (c.quality? ≠ some false ∧ info.id ∉ c.disabled ∧ info.name ∉ c.disabled)

def leastConfidence : Confidence := c.minConfidence?.getD .low

/-- The severity given for the identifier of a rule, or else the one given for its name. -/
def severityFor? (info : RuleInfo) : Option Severity :=
  (c.severity.lookup info.id).or (c.severity.lookup info.name)

/-- What comes out of the diagnostics of a rule. -/
def reported (info : RuleInfo) (ds : List Diagnostic) : List Diagnostic :=
  (ds.filter fun d ↦ c.leastConfidence.level ≤ d.confidence.level).map fun d ↦
    { d with severity := (c.severityFor? info).getD d.severity }

/-- What comes out of what a rule finds in a file, unless it gives up. -/
def reportedBy? (f : SourceFile) (rule : Rule) : Option (List Diagnostic) :=
  (rule.check? f).map fun found ↦ c.reported rule.info found.diagnostics

end RulesConfig

/-! ## Configuring -/

namespace RuleSettings

variable (s : RuleSettings) (c : RulesConfig) (info : RuleInfo)

theorem foldl_disable (refs : List String) :
    refs.foldl disable s =
      { s with disabled := refs.foldl (fun l ref ↦ l.insert ref) s.disabled } := by
  induction refs generalizing s with
  | nil => rfl
  | cons ref refs ih => exact ih (s.disable ref)

theorem foldr_setSeverity (entries : List (String × Severity)) :
    entries.foldr (fun (ref, severity) s ↦ s.setSeverity ref severity) s =
      { s with severity := entries.foldr (fun e l ↦ e :: l.filter (·.1 != e.1)) s.severity } := by
  induction entries with
  | nil => rfl
  | cons e entries ih => rw [List.foldr_cons, ih]; rfl

/-- Nothing of the settings before is left. -/
theorem configure_eq :
    s.configure c =
      { disabled := c.disabled.foldl (fun l ref ↦ l.insert ref) []
        severity := c.severity.foldr (fun e l ↦ e :: l.filter (·.1 != e.1)) []
        quality := c.quality?.getD true
        minConfidence := c.leastConfidence } := by
  simp only [configure, foldl_disable, foldr_setSeverity]
  rfl

@[simp] theorem configure_configure (c' : RulesConfig) :
    (s.configure c).configure c' = s.configure c' := by
  rw [configure_eq, configure_eq]

@[simp] theorem configure_default : configure {} {} = {} := rfl

theorem mem_foldl_insert {refs l : List String} {ref : String} :
    ref ∈ refs.foldl (fun l ref ↦ l.insert ref) l ↔ ref ∈ refs ∨ ref ∈ l := by
  induction refs generalizing l with
  | nil => simp
  | cons r refs ih => simp [ih, or_left_comm, or_assoc]

@[simp] theorem mem_disabled_configure {ref : String} :
    ref ∈ (s.configure c).disabled ↔ ref ∈ c.disabled := by
  simp [configure_eq, mem_foldl_insert]

theorem lookup_filter_ne {l : List (String × Severity)} {ref k : String} (h : k ≠ ref) :
    (l.filter (·.1 != ref)).lookup k = l.lookup k := by
  induction l with
  | nil => rfl
  | cons e l ih =>
    by_cases he : e.1 = ref
    · have hk : (k == e.1) = false := by simpa [he] using h
      rw [List.filter_cons_of_neg (by simp [he]), ih, List.lookup_cons, hk]
    · rw [List.filter_cons_of_pos (by simpa using he), List.lookup_cons, List.lookup_cons, ih]

@[simp] theorem lookup_severity_configure (k : String) :
    (s.configure c).severity.lookup k = c.severity.lookup k := by
  rw [configure_eq]
  induction c.severity with
  | nil => rfl
  | cons e entries ih =>
    rw [List.foldr_cons, List.lookup_cons, List.lookup_cons]
    by_cases hk : k = e.1
    · simp [hk]
    · simp [lookup_filter_ne hk, ih]

theorem allows_configure : (s.configure c).allows info = c.admits info := by
  have hquality : (s.configure c).quality = c.quality?.getD true := by rw [configure_eq]
  have hon : c.quality?.getD true = true ↔ c.quality? ≠ some false := by
    cases c.quality? <;> simp
  have hcategory : info.category = .quality := rfl
  rw [Bool.eq_iff_iff]
  simp [allows, RulesConfig.admits, hquality, hon, hcategory, and_assoc]

theorem severityOf?_configure : (s.configure c).severityOf? info = c.severityFor? info := by
  simp only [severityOf?, lookup_severity_configure, RulesConfig.severityFor?]
  exact Option.orElse_eq_or

theorem adjust_configure (d : Diagnostic) :
    (s.configure c).adjust info d =
      { d with severity := (c.severityFor? info).getD d.severity } := by
  rw [adjust, severityOf?_configure]
  cases c.severityFor? info <;> rfl

theorem filter_configure (ds : List Diagnostic) :
    (s.configure c).filter info ds = c.reported info ds := by
  have hleast : (s.configure c).minConfidence = c.leastConfidence := by rw [configure_eq]
  rw [filter, hleast, RulesConfig.reported]
  exact List.map_congr_left fun d _ ↦ adjust_configure s c info d

end RuleSettings

/-! ## Histories -/

/-- What is done to a registry. -/
inductive RegistryStep where
  | register (rule : Rule)
  | configure (c : RulesConfig)

namespace RegistryStep

def rule? : RegistryStep → Option Rule
  | register rule => some rule
  | configure _ => none

def config? : RegistryStep → Option RulesConfig
  | register _ => none
  | configure c => some c

/-- The rules in the order of their registration. -/
def registered (steps : List RegistryStep) : List Rule :=
  steps.filterMap rule?

/-- The last configuration, or the default one if there is none. -/
def lastConfig (steps : List RegistryStep) : RulesConfig :=
  (steps.filterMap config?).getLast?.getD {}

end RegistryStep

namespace Registry

open RegistryStep

variable (r : Registry)

def perform : RegistryStep → Registry
  | .register rule => r.register rule
  | .configure c => r.configure c

def performAll (steps : List RegistryStep) : Registry :=
  steps.foldl perform r

theorem performAll_append (xs ys : List RegistryStep) :
    r.performAll (xs ++ ys) = (r.performAll xs).performAll ys :=
  List.foldl_append

/-- After a history the new rules stand behind the old ones, and the settings are those of the last
configuration. -/
theorem performAll_eq (steps : List RegistryStep) :
    r.performAll steps =
      { rules := r.rules ++ registered steps
        settings := (steps.filterMap config?).getLast?.elim r.settings r.settings.configure } := by
  induction steps generalizing r with
  | nil => simp [performAll, registered]
  | cons step steps ih =>
    have hnext : r.performAll (step :: steps) = (r.perform step).performAll steps := rfl
    rw [hnext, ih]
    cases step with
    | register rule => simp [perform, register, registered, rule?, config?]
    | configure c =>
      have hconfigs : (RegistryStep.configure c :: steps).filterMap config? =
          c :: steps.filterMap config? := rfl
      have hrules : registered (.configure c :: steps) = registered steps := rfl
      rw [hconfigs, hrules, List.getLast?_cons]
      cases (steps.filterMap config?).getLast? <;> simp [perform, configure]

/-- A configuration is taken back by a later one. -/
theorem performAll_configure {steps : List RegistryStep} {c c' : RulesConfig}
    (h : .configure c' ∈ steps) : (r.configure c).performAll steps = r.performAll steps := by
  have hlater : c' ∈ steps.filterMap config? := List.mem_filterMap.2 ⟨_, h, rfl⟩
  have hlast := List.getLast?_eq_some_getLast (List.ne_nil_of_mem hlater)
  rw [performAll_eq, performAll_eq, hlast]
  simp only [Option.elim_some, configure, RuleSettings.configure_configure]

theorem performAll_empty (steps : List RegistryStep) :
    ({} : Registry).performAll steps =
      { rules := registered steps, settings := RuleSettings.configure {} (lastConfig steps) } := by
  rw [performAll_eq, lastConfig]
  cases (steps.filterMap config?).getLast? <;> simp

/-! ## What a configured registry does -/

variable (rules : List Rule) (s : RuleSettings) (c : RulesConfig)

theorem diagnostics_runRule?_configure (f : SourceFile) (rule : Rule) :
    (runRule? ⟨rules, s.configure c⟩ f rule).map (·.diagnostics) =
      if c.admits rule.info then c.reportedBy? f rule else some [] := by
  rw [runRule?, RuleSettings.allows_configure]
  split
  · rw [RulesConfig.reportedBy?]
    cases rule.check? f with
    | none => rfl
    | some found =>
      exact congrArg some (RuleSettings.filter_configure s c rule.info found.diagnostics)
  · rfl

theorem diagnostics_mapM_runRule?_configure (f : SourceFile) (xs : List Rule) :
    (xs.mapM (runRule? ⟨rules, s.configure c⟩ f)).map (·.flatMap (·.diagnostics)) =
      ((xs.filter fun rule ↦ c.admits rule.info).mapM (c.reportedBy? f)).map List.flatten := by
  induction xs with
  | nil => rfl
  | cons rule xs ih =>
    have hrule := diagnostics_runRule?_configure rules s c f rule
    -- The reports of the rule come before those of the others, if there are any.
    have hcons : ((rule :: xs).mapM (runRule? ⟨rules, s.configure c⟩ f)).map
        (·.flatMap (·.diagnostics)) =
          ((runRule? ⟨rules, s.configure c⟩ f rule).map (·.diagnostics)).bind fun ds ↦
            ((xs.mapM (runRule? ⟨rules, s.configure c⟩ f)).map
              (·.flatMap (·.diagnostics))).map (ds ++ ·) := by
      rw [List.mapM_cons]
      cases runRule? ⟨rules, s.configure c⟩ f rule with
      | none => rfl
      | some report => cases xs.mapM (runRule? ⟨rules, s.configure c⟩ f) <;> simp
    rw [hcons, hrule, ih, List.filter_cons]
    split
    · rw [List.mapM_cons]
      cases c.reportedBy? f rule with
      | none => rfl
      | some ds => cases (xs.filter fun rule ↦ c.admits rule.info).mapM (c.reportedBy? f) <;> simp
    · cases (xs.filter fun rule ↦ c.admits rule.info).mapM (c.reportedBy? f) <;> simp

theorem diagnostics_runAll?_configure (f : SourceFile) :
    (runAll? ⟨rules, s.configure c⟩ f).map (·.diagnostics) =
      ((rules.filter fun rule ↦ c.admits rule.info).mapM (c.reportedBy? f)).map List.flatten := by
  rw [← diagnostics_mapM_runRule?_configure rules s c f rules, runAll?]
  cases rules.mapM (runRule? ⟨rules, s.configure c⟩ f) <;> rfl

/-- The rule that a reference is for: the first one with it as its identifier, or else the first one
with it as its name. -/
def named? (ref : String) : Option Rule :=
  (rules.find? (·.info.id == ref)).or (rules.find? (·.info.name == ref))

theorem isEnabled_configure (ref : String) :
    isEnabled ⟨rules, s.configure c⟩ ref =
      (named? rules ref).any fun rule ↦ c.admits rule.info := by
  have hrule : (ruleById? ⟨rules, s.configure c⟩ ref <|> ruleByName? ⟨rules, s.configure c⟩ ref) =
      named? rules ref := Option.orElse_eq_or
  simp only [isEnabled, hrule, RuleSettings.allows_configure]

/-- After any history from an empty registry, the reports are those of the rules that the last
configuration admits, in the order of their registration, without what is not confident enough and
with the severities that it gives. There are none if one of these rules gives up. A reference is
enabled if the rule that it is for is admitted.
Two histories with the same rules and the same last configuration lead to registries that do the
same. A configuration before the last one leaves no trace, and it does not count whether a rule is
registered before or after one. -/
theorem last_configuration_decides (steps : List RegistryStep) :
    let after := ({} : Registry).performAll
    let c := lastConfig steps
    (∀ f, ((after steps).runAll? f).map (·.diagnostics) =
        (((registered steps).filter fun rule ↦ c.admits rule.info).mapM
          (c.reportedBy? f)).map List.flatten) ∧
      (∀ ref, (after steps).isEnabled ref =
        (named? (registered steps) ref).any fun rule ↦ c.admits rule.info) ∧
      (∀ steps', registered steps' = registered steps → lastConfig steps' = c →
        ∀ f ref, (after steps').runAll? f = (after steps).runAll? f ∧
          (after steps').isEnabled ref = (after steps).isEnabled ref) ∧
      (∀ xs ys c, (∃ c', .configure c' ∈ ys) →
        after (xs ++ .configure c :: ys) = after (xs ++ ys)) ∧
      ∀ xs ys rule c, after (xs ++ .register rule :: .configure c :: ys) =
        after (xs ++ .configure c :: .register rule :: ys) := by
  intro after c
  have hafter : after steps = ⟨registered steps, RuleSettings.configure {} c⟩ :=
    performAll_empty steps
  refine ⟨fun f ↦ ?_, fun ref ↦ ?_, fun steps' hrules hlast f ref ↦ ?_, fun xs ys c hlater ↦ ?_,
    fun xs ys rule c ↦ ?_⟩
  · rw [hafter, diagnostics_runAll?_configure]
  · rw [hafter, isEnabled_configure]
  · have hsame : after steps' = after steps := by
      rw [hafter, ← hrules, ← hlast]
      exact performAll_empty steps'
    rw [hsame]
    exact ⟨rfl, rfl⟩
  · obtain ⟨c', hc'⟩ := hlater
    simp only [after, performAll_append]
    exact performAll_configure _ hc'
  · simp only [after, performAll_append]
    rfl

/-- A rule that reports one diagnostic of each of two confidences. -/
def stubRule (id name : String) : Rule where
  info := { id, name, description := "", severity := .warning }
  check? f :=
    let found : Diagnostic :=
      { ruleId := id, severity := .warning, message := "", file := f.name
        region := ⟨⟨1, 1⟩, ⟨1, 1⟩, 0, 0⟩ }
    some { diagnostics := [found, { found with confidence := .low }] }

/-- Two rules, with a configuration between them that turns everything off. -/
def stubHistory : List RegistryStep :=
  [.register (stubRule "T001" "first"),
    .configure
      { disabled := ["first"], severity := [("T001", .hint)], quality? := some false
        minConfidence? := some .high },
    .register (stubRule "T002" "second"),
    .configure
      { disabled := ["T002"], severity := [("first", .error), ("T001", .info)]
        minConfidence? := some .medium }]

/-- The first rule reports again, one diagnostic and with the severity given for its identifier. -/
theorem reconfigured_rule_reports :
    let after := ({} : Registry).performAll stubHistory
    let f := SourceFile.ofText "a.js" []
    ((after.runAll? f).map (·.diagnostics.map fun d ↦ (d.ruleId, d.confidence, d.severity))) =
        some [("T001", .high, .info)] ∧
      after.isEnabled "first" = true ∧ after.isEnabled "second" = false ∧
      after = ({} : Registry).performAll (stubHistory.take 1 ++ stubHistory.drop 2) := by
  intro after f
  obtain ⟨hdiagnostics, henabled, -, hearlier, -⟩ := last_configuration_decides stubHistory
  refine ⟨?_, ?_, ?_, ?_⟩
  · have hreported := congrArg (Option.map fun ds : List Diagnostic ↦
      ds.map fun d ↦ (d.ruleId, d.confidence, d.severity)) (hdiagnostics f)
    rw [Option.map_map] at hreported
    refine hreported.trans ?_
    decide +kernel
  · rw [henabled]
    decide +kernel
  · rw [henabled]
    decide +kernel
  · exact hearlier (stubHistory.take 1) (stubHistory.drop 2) _
      ⟨_, List.mem_cons_of_mem _ List.mem_cons_self⟩

end Registry

end OptionalChain
