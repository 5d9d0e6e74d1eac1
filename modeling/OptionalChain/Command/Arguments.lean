import OptionalChain.Files.Path

/-!
# Arguments of the command line

The command `check` takes one path and options. A value that follows its option is looked at
when the next option or path comes, so that an unknown option after it is named first.
-/

namespace OptionalChain

inductive OutputFormat where
  | pretty | text | json
deriving DecidableEq, Repr

namespace OutputFormat

def name : OutputFormat → String
  | pretty => "pretty"
  | text => "text"
  | json => "json"

def all : List OutputFormat := [pretty, text, json]

def ofName? (s : String) : Option OutputFormat :=
  all.find? (·.name == s)

end OutputFormat

structure CheckOptions where
  path : Path := ⟨["."]⟩
  fix : Bool := false
  format : OutputFormat := .pretty
  failOnWarnings : Bool := false
  noColor : Bool := false
deriving DecidableEq, Repr

inductive UsageFault where
  | missingSubcommand
  | invalidSubcommand
  | unknownArgument
  | invalidValue
  | tooManyValues
  | argumentConflict
deriving DecidableEq, Repr

def UsageFault.message : UsageFault → String
  | missingSubcommand => "a command is required: check"
  | invalidSubcommand => "unrecognized command"
  | unknownArgument => "unexpected argument found"
  | invalidValue => "a value is missing or invalid"
  | tooManyValues => "unexpected value found"
  | argumentConflict => "an argument is given more than once"

namespace Arguments

inductive Flag where
  | fix | failOnWarnings | noColor
deriving DecidableEq, Repr

def knownFlags : List (String × Flag) :=
  [("fix", .fix), ("fail-on-warnings", .failOnWarnings), ("no-color", .noColor)]

/-- An argument that is not yet looked at. -/
inductive Pending where
  | format (value? : Option String)
  | path (value : String)
deriving DecidableEq, Repr

structure Progress where
  options : CheckOptions := {}
  flags : List Flag := []
  hasFormat : Bool := false
  hasPath : Bool := false
  pending? : Option Pending := none

namespace Progress

def setFormat (g : Progress) (value : String) : Except UsageFault Progress :=
  if g.hasFormat then .error .argumentConflict
  else
    match OutputFormat.ofName? value with
    | some f => .ok { g with options := { g.options with format := f }, hasFormat := true }
    | none => .error .invalidValue

/-- Looks at the argument that waits. -/
def settle (g : Progress) : Except UsageFault Progress :=
  let h := { g with pending? := none }
  match g.pending? with
  | none => .ok h
  | some (.format none) => .error .invalidValue
  | some (.format (some value)) => h.setFormat value
  | some (.path value) =>
    if value.isEmpty then .error .invalidValue
    else .ok { h with options := { h.options with path := .ofText value } }

def setFlag (g : Progress) (f : Flag) : Except UsageFault Progress :=
  if g.flags.contains f then .error .argumentConflict
  else
    let o := g.options
    .ok { g with
      flags := f :: g.flags
      options := match f with
        | .fix => { o with fix := true }
        | .failOnWarnings => { o with failOnWarnings := true }
        | .noColor => { o with noColor := true } }

/-- The format option, with its value if one is attached. -/
def addFormat (g : Progress) (attached? : Option String) : Except UsageFault Progress := do
  let g ← g.settle
  match attached? with
  | some value => g.setFormat value
  | none => return { g with pending? := some (.format none) }

/-- An option written out, without its dashes. -/
def addLong (g : Progress) (name : String) (attached? : Option String) :
    Except UsageFault Progress :=
  if name == "format" then g.addFormat attached?
  else
    match knownFlags.lookup name with
    | none => .error .unknownArgument
    | some f =>
      if attached?.isSome then .error .tooManyValues
      else g.settle >>= fun g => g.setFlag f

/-- An option of one letter, followed by its value if one is attached. -/
def addShort (g : Progress) : List Char → Except UsageFault Progress
  | ['f'] => g.addFormat none
  | 'f' :: '=' :: value => g.addFormat (some (String.ofList value))
  | 'f' :: value => g.addFormat (some (String.ofList value))
  | _ => .error .unknownArgument

def addPath (g : Progress) (value : String) : Except UsageFault Progress :=
  if g.hasPath then .error .unknownArgument
  else do
    let g ← g.settle
    return { g with hasPath := true, pending? := some (.path value) }

def addValue (g : Progress) (value : String) : Except UsageFault Progress :=
  match g.pending? with
  | some (.format none) => .ok { g with pending? := some (.format (some value)) }
  | _ => g.addPath value

/-- Cuts an option at its first equals sign. -/
def cutValue (cs : List Char) : String × Option String :=
  let name := cs.takeWhile (· != '=')
  match cs.drop name.length with
  | [] => (String.ofList name, none)
  | _ :: value => (String.ofList name, some (String.ofList value))

def add (g : Progress) (arg : String) : Except UsageFault Progress :=
  match arg.toList with
  | '-' :: '-' :: cs => let (name, attached?) := cutValue cs; g.addLong name attached?
  | '-' :: c :: cs => g.addShort (c :: cs)
  | _ => g.addValue arg

/-- Takes arguments one by one; after two dashes alone all of them are paths. -/
def addAll (g : Progress) : List String → Except UsageFault Progress
  | [] => g.settle
  | arg :: rest =>
    if arg == "--" then rest.foldlM addPath g >>= settle
    else g.add arg >>= fun g => g.addAll rest

end Progress

/-- The options of a command line. -/
def parse : List String → Except UsageFault CheckOptions
  | [] => .error .missingSubcommand
  | "check" :: args => (Progress.addAll {} args).map (·.options)
  | arg :: _ =>
    if arg.toList.head? == some '-' then .error .unknownArgument else .error .invalidSubcommand

end Arguments

end OptionalChain
