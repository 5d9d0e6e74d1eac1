import OptionalChain.Config.Basic
import OptionalChain.Config.Value

/-!
# Decoding settings

Settings are read from a table by key, or from a list in the order of the fields. Unknown
keys are left aside, and the first setting that cannot be read is the error.
-/

namespace OptionalChain

inductive DecodeFault where
  | wrongType (got : Value) (wanted : String)
  | unknownVariant (name : String) (known : List String)
  | notVariant
  | emptyVariant (isInline : Bool)
  | manyVariants
  | payload (value : Value)

namespace DecodeFault

def oneOf (names : List String) : String :=
  ", ".intercalate (names.map fun n => "`" ++ n ++ "`")

def message : DecodeFault → String
  | wrongType got wanted => "invalid type: " ++ got.describe ++ ", expected " ++ wanted
  | unknownVariant name known =>
    "unknown variant `" ++ name ++ "`, expected one of " ++ oneOf known
  | notVariant => "wanted string or table"
  | emptyVariant true => "wanted exactly 1 element, found 0 elements"
  | emptyVariant false => "expected table with exactly 1 entry, found empty table"
  | manyVariants => "wanted exactly 1 element, more than 1 element"
  | payload (.list _) => "expected empty array"
  | payload (.table _ _) => "expected empty table"
  | payload value => "expected table, found " ++ value.typeName

end DecodeFault

abbrev Decode (α : Type) := Value → Except DecodeFault α

namespace Decode

def bool : Decode Bool
  | .boolean b => .ok b
  | v => .error (.wrongType v "a boolean")

def text : Decode String
  | .string s => .ok s
  | v => .error (.wrongType v "a string")

def texts : Decode (List String)
  | .list items => items.mapM text
  | v => .error (.wrongType v "a sequence")

def optional {α : Type} (d : Decode α) : Decode (Option α)
  | .null => .ok none
  | v => (d v).map some

/-- Whether a value can follow the name of a variant that holds nothing. -/
def isEmptyPayload : Value → Bool
  | .list [] | .table _ [] | .null => true
  | _ => false

/-- One of a list of names, as a string or as the only key of a table. -/
def variant {α : Type} (known : List (String × α)) : Decode α
  | .string s => named s
  | .table isInline entries =>
    match entries with
    | [] => .error (.emptyVariant isInline)
    | (key, payload) :: rest =>
      if isInline && !rest.isEmpty then .error .manyVariants
      else do
        let a ← named key
        if isEmptyPayload payload then return a else .error (.payload payload)
  | _ => .error .notVariant
where
  named (s : String) : Except DecodeFault α :=
    match known.lookup s with
    | some a => .ok a
    | none => .error (.unknownVariant s (known.map Prod.fst))

def severity : Decode Severity :=
  variant (Severity.all.map fun s => (s.name, s))

def confidence : Decode Confidence :=
  variant (Confidence.all.map fun c => (c.name, c))

def severities : Decode (List (String × Severity))
  | .table _ entries => entries.mapM fun (key, v) => do return (key, ← severity v)
  | v => .error (.wrongType v "a map")

/-- How one field of a record is read into it. -/
structure Field (σ : Type) where
  key : String
  read : Value → σ → Except DecodeFault σ

/-- A record by its fields; what is not given stays as in `start`. -/
def record {σ : Type} (name : String) (fields : List (Field σ)) (start : σ) : Decode σ
  | .table _ entries =>
    entries.foldlM (fun s (key, v) =>
      match fields.find? (·.key == key) with
      | some field => field.read v s
      | none => .ok s) start
  | .list items => (items.zip fields).foldlM (fun s (v, field) => field.read v s) start
  | v => .error (.wrongType v ("struct " ++ name))

def chainFields : List (Field ChainOptions) :=
  [⟨"requireNullish", fun v s => do return { s with requireNullish := ← bool v }⟩,
    ⟨"checkAny", fun v s => do return { s with checkAny := ← bool v }⟩,
    ⟨"checkUnknown", fun v s => do return { s with checkUnknown := ← bool v }⟩,
    ⟨"checkString", fun v s => do return { s with checkString := ← bool v }⟩,
    ⟨"checkNumber", fun v s => do return { s with checkNumber := ← bool v }⟩,
    ⟨"checkBoolean", fun v s => do return { s with checkBoolean := ← bool v }⟩,
    ⟨"checkBigInt", fun v s => do return { s with checkBigInt := ← bool v }⟩,
    ⟨"allowPotentiallyUnsafeFixesThatModifyTheReturnTypeIKnowWhatImDoing",
      fun v s => do return { s with allowUnsafeFixes := ← bool v }⟩]

def chainOptions : Decode ChainOptions :=
  record "PreferOptionalChainOptions" chainFields {}

def rulesFields : List (Field RulesConfig) :=
  [⟨"enabled", fun v s => do return { s with enabled := ← texts v }⟩,
    ⟨"disabled", fun v s => do return { s with disabled := ← texts v }⟩,
    ⟨"severity", fun v s => do return { s with severity := ← severities v }⟩,
    ⟨"quality", fun v s => do return { s with quality? := ← optional bool v }⟩,
    ⟨"min_confidence", fun v s => do return { s with minConfidence? := ← optional confidence v }⟩,
    ⟨"prefer-optional-chain", fun v s => do return { s with chain := ← chainOptions v }⟩]

def rules : Decode RulesConfig :=
  record "RulesConfig" rulesFields {}

def configFields : List (Field Config) :=
  [⟨"include", fun v s => do return { s with includes := ← texts v }⟩,
    ⟨"exclude", fun v s => do return { s with excludes := ← texts v }⟩,
    ⟨"rules", fun v s => do return { s with rules := ← rules v }⟩]

def config : Decode Config :=
  record "Config" configFields {}

end Decode

/-! ## Unknown keys -/

def Config.knownKeys : List String := ["include", "exclude", "rules"]

def RulesConfig.knownKeys : List String :=
  ["enabled", "disabled", "severity", "quality", "min_confidence", "prefer-optional-chain"]

def ChainOptions.knownKeys : List String :=
  ["requireNullish", "checkAny", "checkUnknown", "checkString", "checkNumber", "checkBoolean",
    "checkBigInt", "allowPotentiallyUnsafeFixesThatModifyTheReturnTypeIKnowWhatImDoing"]

/-- Keys of a table that are not known, each once and in the order of their bytes. -/
def Value.unknownKeys (v : Value) (known : List String) : List String :=
  (v.keys.eraseDups.mergeSort fun a b => !(b < a)).filter fun k => !known.contains k

/-- One warning for each key that is not known where it stands. -/
def Value.warnings (v : Value) : List String :=
  let rules := (v.get? "rules").filter (·.isTable)
  let chain := (rules.bind (·.get? "prefer-optional-chain")).filter (·.isTable)
  let unknown (w : Option Value) (known : List String) (place : String) : List String :=
    ((w.map (·.unknownKeys known)).getD []).map fun k =>
      "Unknown config option" ++ place ++ ": '" ++ k ++ "'"
  unknown (some v) Config.knownKeys "" ++ unknown rules RulesConfig.knownKeys " in [rules]" ++
    unknown chain ChainOptions.knownKeys " in [rules.prefer-optional-chain]"

end OptionalChain
