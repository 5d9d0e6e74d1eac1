import OptionalChain.Proofs.NearestConfig

/-!
# What is loaded from a configuration file

Two loads of the file that was found agree on the configuration. A file that cannot be used gives
the default one and a single warning, and any other file gives one warning for each of its unknown
options.
-/

namespace OptionalChain

/-! ## Unknown options -/

/-- Tables of a configuration file whose keys are checked. -/
inductive ConfigSection where
  | top
  | rules
  | chain
deriving DecidableEq, Repr

/-- The table under a key. -/
def Value.subtable? (v : Value) (key : String) : Option Value :=
  (v.get? key).filter (·.isTable)

namespace ConfigSection

/-- The table of a section, if it is there. -/
def table? (v : Value) : ConfigSection → Option Value
  | top => some v
  | rules => v.subtable? "rules"
  | chain => (v.subtable? "rules").bind (·.subtable? "prefer-optional-chain")

/-- The options that are read from the table of a section. -/
def options : ConfigSection → List String
  | top => Decode.configFields.map (·.key)
  | rules => Decode.rulesFields.map (·.key)
  | chain => Decode.chainFields.map (·.key)

/-- How a warning names a section. -/
def title : ConfigSection → String
  | top => ""
  | rules => " in [rules]"
  | chain => " in [rules.prefer-optional-chain]"

def warning (s : ConfigSection) (key : String) : String :=
  "Unknown config option" ++ s.title ++ ": '" ++ key ++ "'"

theorem framed_inj {before between after t t' k k' : String}
    (h : before ++ t ++ between ++ k ++ after = before ++ t' ++ between ++ k' ++ after) :
    t.toList ++ (between.toList ++ k.toList) = t'.toList ++ (between.toList ++ k'.toList) := by
  have hchars : (t.toList ++ (between.toList ++ k.toList)) ++ after.toList =
      (t'.toList ++ (between.toList ++ k'.toList)) ++ after.toList := by
    simpa [← String.toList_inj] using h
  exact List.append_cancel_right hchars

/-- A warning tells the section and the key. -/
theorem warning_inj {s s' : ConfigSection} {k k' : String} (h : s.warning k = s'.warning k') :
    s = s' ∧ k = k' := by
  have hchars := framed_inj h
  rw [← String.toList_inj]
  cases s <;> cases s' <;> simp [title] at hchars ⊢ <;> exact hchars

end ConfigSection

/-- A key that stands in the table of a section and is not read from it. -/
def Value.IsUnknown (v : Value) (s : ConfigSection) (key : String) : Prop :=
  ∃ table, s.table? v = some table ∧ key ∈ table.keys ∧ key ∉ s.options

theorem nodup_eraseDups (keys : List String) : keys.eraseDups.Nodup := by
  induction h : keys.length using Nat.strongRecOn generalizing keys with
  | ind n ih =>
    cases keys with
    | nil => simp
    | cons key rest =>
      subst h
      rw [List.eraseDups_cons, List.nodup_cons]
      refine ⟨by simp [List.mem_eraseDups], ih _ ?_ _ rfl⟩
      exact Nat.lt_succ_of_le (List.length_filter_le ..)

namespace Value

variable {v : Value} {known : List String} {key : String}

theorem nodup_unknownKeys (v : Value) (known : List String) : (v.unknownKeys known).Nodup :=
  ((List.mergeSort_perm _ _).nodup_iff.2 (nodup_eraseDups _)).filter _

theorem mem_unknownKeys : key ∈ v.unknownKeys known ↔ key ∈ v.keys ∧ key ∉ known := by
  rw [unknownKeys, List.mem_filter, List.mem_mergeSort, List.mem_eraseDups]
  simp

/-- The unknown options of a section. -/
def unknownIn (v : Value) (s : ConfigSection) : List String :=
  ((s.table? v).map (·.unknownKeys s.options)).getD []

theorem nodup_unknownIn (v : Value) (s : ConfigSection) : (v.unknownIn s).Nodup := by
  unfold unknownIn
  cases s.table? v with
  | none => exact List.nodup_nil
  | some table => exact table.nodup_unknownKeys _

theorem mem_unknownIn {s : ConfigSection} : key ∈ v.unknownIn s ↔ v.IsUnknown s key := by
  unfold unknownIn IsUnknown
  cases s.table? v with
  | none => simp
  | some table => simp [mem_unknownKeys]

/-- The unknown options of all sections. -/
def unknownOptions (v : Value) : List (ConfigSection × String) :=
  [ConfigSection.top, .rules, .chain].flatMap fun s ↦ (v.unknownIn s).map (s, ·)

theorem mem_unknownOptions {s : ConfigSection} :
    (s, key) ∈ v.unknownOptions ↔ v.IsUnknown s key := by
  have hall : s ∈ [ConfigSection.top, .rules, .chain] := by cases s <;> simp
  rw [unknownOptions, List.mem_flatMap, ← mem_unknownIn]
  constructor
  · rintro ⟨s', -, hmem⟩
    obtain ⟨key', hkey, heq⟩ := List.mem_map.1 hmem
    cases heq
    exact hkey
  · intro hkey
    exact ⟨s, hall, List.mem_map_of_mem hkey⟩

theorem nodup_unknownOptions (v : Value) : v.unknownOptions.Nodup := by
  have hsections : [ConfigSection.top, .rules, .chain].Nodup := by decide
  refine List.nodup_flatMap.2 ⟨fun s _ ↦ ?_, hsections.imp fun {s s'} hne ↦ ?_⟩
  · exact (v.nodup_unknownIn s).map fun key key' heq ↦ congrArg Prod.snd heq
  intro x hx hx'
  obtain ⟨key, -, rfl⟩ := List.mem_map.1 hx
  obtain ⟨key', -, heq⟩ := List.mem_map.1 hx'
  exact hne (congrArg Prod.fst heq).symm

theorem warnings_eq (v : Value) : v.warnings = v.unknownOptions.map fun x ↦ x.1.warning x.2 := by
  simp only [unknownOptions, List.flatMap_cons, List.flatMap_nil, List.append_nil, List.map_append,
    List.map_map, ← List.append_assoc]
  have hchain : ((v.subtable? "rules").bind (·.get? "prefer-optional-chain")).filter (·.isTable) =
      ConfigSection.chain.table? v := by
    rw [ConfigSection.table?]
    cases v.subtable? "rules" <;> rfl
  rw [unknownIn, unknownIn, unknownIn, ← hchain]
  rfl

theorem nodup_warnings (v : Value) : v.warnings.Nodup := by
  rw [warnings_eq]
  refine v.nodup_unknownOptions.map fun x y h ↦ ?_
  obtain ⟨hsection, hkey⟩ := ConfigSection.warning_inj h
  exact Prod.ext hsection hkey

end Value

/-! ## Loading -/

namespace FileSystem

variable {fs : FileSystem} {tables : TableReader} {p file start : Path} {table : Value}
  {config : Config} {fault : ConfigFault} {text : List Char}

/-- The text of a file is a table, and the table a configuration. -/
def Holds (fs : FileSystem) (tables : TableReader) (file : Path) (table : Value) (config : Config) :
    Prop :=
  ∃ text, fs.read file = .ok text ∧ tables text = .ok table ∧ Decode.config table = .ok config

/-- Why a file holds no configuration: it cannot be read, its text is no table, or an option in the
table has the wrong type. -/
inductive Unusable (fs : FileSystem) (tables : TableReader) (file : Path) : ConfigFault → Prop where
  | unreadable {cause : ReadFault} : fs.read file = .error cause →
      Unusable fs tables file (.read file cause)
  | invalid {text : List Char} {cause : String} : fs.read file = .ok text →
      tables text = .error cause → Unusable fs tables file (.parse file cause)
  | mistyped {text : List Char} {table : Value} {cause : DecodeFault} : fs.read file = .ok text →
      tables text = .ok table → Decode.config table = .error cause →
      Unusable fs tables file (.parse file cause.message)

theorem Holds.exists_readConfig (h : fs.Holds tables file table config) :
    ∃ text, tables text = .ok table ∧ fs.readConfig tables file = .ok (config, text) := by
  obtain ⟨text, hread, htable, hconfig⟩ := h
  refine ⟨text, htable, ?_⟩
  simp [readConfig, hread, htable, hconfig, Except.mapError, bind, Except.bind, pure, Except.pure]

theorem Unusable.readConfig_eq_error (h : fs.Unusable tables file fault) :
    fs.readConfig tables file = .error fault := by
  cases h with
  | unreadable hread => simp [readConfig, hread, Except.mapError, bind, Except.bind]
  | invalid hread htable => simp [readConfig, hread, htable, Except.mapError, bind, Except.bind]
  | mistyped hread htable hconfig =>
    simp [readConfig, hread, htable, hconfig, Except.mapError, bind, Except.bind]

theorem holds_or_unusable (fs : FileSystem) (tables : TableReader) (file : Path) :
    (∃ table config, fs.Holds tables file table config) ∨
      ∃ fault, fs.Unusable tables file fault := by
  cases hread : fs.read file with
  | error cause => exact .inr ⟨_, .unreadable hread⟩
  | ok text =>
    cases htable : tables text with
    | error cause => exact .inr ⟨_, .invalid hread htable⟩
    | ok table =>
      cases hconfig : Decode.config table with
      | error cause => exact .inr ⟨_, .mistyped hread htable hconfig⟩
      | ok config => exact .inl ⟨table, config, text, hread, htable, hconfig⟩

theorem configAt_eq (fs : FileSystem) (tables : TableReader) (start : Path) :
    fs.configAt tables start = (fs.configWithWarningsAt tables start).config := by
  unfold configAt configWithWarningsAt
  cases fs.findConfig? start with
  | none => rfl
  | some file =>
    dsimp only [loadConfig, loadConfigWithWarnings]
    cases fs.readConfig tables file <;> rfl

theorem configWithWarningsAt_of_holds (hfile : fs.findConfig? start = some file)
    (h : fs.Holds tables file table config) :
    fs.configWithWarningsAt tables start = { config, warnings := table.warnings } := by
  obtain ⟨text, htable, hread⟩ := h.exists_readConfig
  simp [configWithWarningsAt, hfile, loadConfigWithWarnings, hread, Except.map,
    TableReader.warnings, htable]

theorem configWithWarningsAt_of_unusable (hfile : fs.findConfig? start = some file)
    (h : fs.Unusable tables file fault) :
    fs.configWithWarningsAt tables start = { config := {}, warnings := [fault.message] } := by
  simp [configWithWarningsAt, hfile, loadConfigWithWarnings, h.readConfig_eq_error, Except.map]

/-- The lookup goes through the folders above by the text of the path. If nothing in the path leads
up, these are the folders from its place to where it starts, and the file of the nearest one is
found. Only that file counts: both loads give its configuration, with one warning for each unknown
option, or the default configuration with one warning if the file cannot be used. -/
theorem found_config_decides (fs : FileSystem) (tables : TableReader) (start : Path) :
    fs.findConfig? start = (start.ancestors.map (·.join configFileName)).find? fs.exists? ∧
    (.ofText ".." ∉ start.segments →
      fs.IsNearestConfig (start.origin fs.here) (start.place fs.here) (fs.findConfig? start)) ∧
    fs.configAt tables start = (fs.configWithWarningsAt tables start).config ∧
    (fs.findConfig? start = none → fs.configWithWarningsAt tables start = {}) ∧
    ∀ file, fs.findConfig? start = some file →
      ((∃ table config, fs.Holds tables file table config) ∨
        ∃ fault, fs.Unusable tables file fault) ∧
      (∀ fault, fs.Unusable tables file fault →
        fs.configWithWarningsAt tables start = { config := {}, warnings := [fault.message] }) ∧
      ∀ table config, fs.Holds tables file table config →
        (fs.configWithWarningsAt tables start).config = config ∧
        (fs.configWithWarningsAt tables start).warnings.Nodup ∧
        ∃ unknown : List (ConfigSection × String), unknown.Nodup ∧
          (∀ s key, (s, key) ∈ unknown ↔ table.IsUnknown s key) ∧
          (fs.configWithWarningsAt tables start).warnings =
            unknown.map fun x ↦ x.1.warning x.2 := by
  refine ⟨fs.findConfig?_eq_find? start, fs.isNearestConfig_findConfig?,
    fs.configAt_eq tables start, fun hnone ↦ by rw [configWithWarningsAt, hnone],
    fun file hfile ↦ ?_⟩
  refine ⟨fs.holds_or_unusable tables file, fun fault ↦ configWithWarningsAt_of_unusable hfile,
    fun table config hholds ↦ ?_⟩
  rw [configWithWarningsAt_of_holds hfile hholds]
  exact ⟨rfl, table.nodup_warnings, table.unknownOptions, table.nodup_unknownOptions,
    fun s key ↦ Value.mem_unknownOptions, table.warnings_eq⟩

/-- A misspelled option in the file of `a`, and a file that is no text in `a/b/c`. -/
def misspelledConfig : FileSystem where
  root := .folder [("a", .folder
    [("chainlint.toml", .file (.text "[rules]\nqualty = false\n".toList)),
      ("b", .folder [("c", .folder [("chainlint.toml", .file (.binary [255]))])])])]

/-- From `/a/b` the file of `a` counts. From `/a/b/c` only the nearer file does, which cannot be
read. From `a/..` the file of `a` is found, although `a` does not lie above. -/
theorem misspelled_config_found :
    misspelledConfig.IsNearestConfig [] ["a", "b"] (some ⟨["", "a", "chainlint.toml"]⟩) ∧
      (∃ table config s key,
        misspelledConfig.Holds Toml.reader ⟨["", "a", "chainlint.toml"]⟩ table config ∧
        table.IsUnknown s key ∧
        s.warning key = "Unknown config option in [rules]: 'qualty'") ∧
      misspelledConfig.configWithWarningsAt Toml.reader ⟨["", "a", "b", "c"]⟩ =
        { warnings := ["Failed to read config file '/a/b/c/chainlint.toml': " ++
          "stream did not contain valid UTF-8"] } ∧
      misspelledConfig.findConfig? ⟨["a", ".."]⟩ = some ⟨["a", "chainlint.toml"]⟩ ∧
      ¬ misspelledConfig.IsNearestConfig [] (Path.place [] ⟨["a", ".."]⟩)
        (some ⟨["a", "chainlint.toml"]⟩) := by
  obtain ⟨hfound, hplace, hload, hwarnings⟩ :
      misspelledConfig.findConfig? ⟨["", "a", "b"]⟩ = some ⟨["", "a", "chainlint.toml"]⟩ ∧
      Path.place [] ⟨["", "a", "b"]⟩ = [.ofText "a", .ofText "b"] ∧
      (misspelledConfig.loadConfig Toml.reader ⟨["", "a", "chainlint.toml"]⟩).isOk = true ∧
      (misspelledConfig.configWithWarningsAt Toml.reader ⟨["", "a", "b"]⟩).warnings =
        ["Unknown config option in [rules]: 'qualty'"] := by
    decide +kernel
  obtain ⟨hbelow, hread, hup, hupPlace⟩ :
      misspelledConfig.findConfig? ⟨["", "a", "b", "c"]⟩ =
        some ⟨["", "a", "b", "c", "chainlint.toml"]⟩ ∧
      misspelledConfig.read ⟨["", "a", "b", "c", "chainlint.toml"]⟩ = .error .encoding ∧
      misspelledConfig.findConfig? ⟨["a", ".."]⟩ = some ⟨["a", "chainlint.toml"]⟩ ∧
      misspelledConfig.resolve? ⟨["a", "chainlint.toml"]⟩ =
        some [.ofText "a", .ofText "chainlint.toml"] := by
    decide +kernel
  obtain ⟨-, hnearest, -, -, hcontent⟩ :=
    found_config_decides misspelledConfig Toml.reader ⟨["", "a", "b"]⟩
  obtain ⟨-, -, -, -, hcontentBelow⟩ :=
    found_config_decides misspelledConfig Toml.reader ⟨["", "a", "b", "c"]⟩
  refine ⟨?_, ?_, (hcontentBelow _ hbelow).2.1 _ (.unreadable hread), hup, ?_⟩
  · rw [← hfound, ← hplace]
    exact hnearest (by decide)
  · obtain ⟨⟨table, config, hholds⟩ | ⟨fault, hfault⟩, -, hunknown⟩ := hcontent _ hfound
    · obtain ⟨-, -, unknown, -, hmem, heq⟩ := hunknown table config hholds
      obtain ⟨⟨s, key⟩, hsingle, hwarning⟩ := List.map_eq_singleton_iff.1 (heq.symm.trans hwarnings)
      exact ⟨table, config, s, key, hholds, (hmem s key).1 (by simp [hsingle]), hwarning⟩
    · rw [loadConfig, hfault.readConfig_eq_error] at hload
      cases hload
  · rintro ⟨d, -, hd, hfile, -⟩
    obtain rfl : d = [] := List.prefix_nil.1 hd
    exact absurd (hupPlace.symm.trans hfile) (by decide)

end FileSystem

end OptionalChain
