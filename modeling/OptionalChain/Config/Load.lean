import OptionalChain.Config.Decode
import OptionalChain.Config.Toml.Document
import OptionalChain.Files.Tree

/-!
# Configuration files

The configuration of a place is that of the nearest folder above it that has a configuration
file. A file that cannot be used gives the default configuration and one warning.
-/

namespace OptionalChain

inductive ConfigFault where
  | read (path : Path) (cause : FileSystem.ReadFault)
  | parse (path : Path) (cause : String)
deriving DecidableEq, Repr

def ConfigFault.message : ConfigFault → String
  | read path cause => "Failed to read config file '" ++ path.toText ++ "': " ++ cause.message
  | parse path cause => "Invalid TOML in '" ++ path.toText ++ "': " ++ cause

structure LoadedConfig where
  config : Config := {}
  warnings : List String := []
deriving DecidableEq, Repr

/-- How the text of a configuration file becomes a table, or an error. -/
abbrev TableReader := List Char → Except String Value

def Toml.reader : TableReader := fun text =>
  (Toml.parse text).mapError Toml.Fault.message

/-- What is to be said about the keys in a text. -/
def TableReader.warnings (tables : TableReader) (text : List Char) : List String :=
  match tables text with
  | .ok table => table.warnings
  | .error _ => []

namespace FileSystem

variable (fs : FileSystem)

def configFileName : FileName := "chainlint.toml"

/-- The configuration file in a folder or, if it has none, in the nearest folder above that has
one. The folders above are those of the path's text. -/
def findConfig? (folder : Path) : Option Path :=
  let file := folder.join configFileName
  if fs.exists? file then some file
  else
    match _h : folder.parent? with
    | none => none
    | some above => findConfig? above
termination_by folder.depth
decreasing_by exact Path.depth_lt_of_parent? ‹_›

theorem findConfig?_eq_find? (start : Path) :
    fs.findConfig? start = (start.ancestors.map (·.join configFileName)).find? fs.exists? := by
  fun_induction findConfig? fs start with
  | case1 folder file h =>
    rw [Path.ancestors, List.map_cons, List.find?_cons_of_pos h]
  | case2 folder file h hparent =>
    rw [Path.ancestors, List.map_cons, List.find?_cons_of_neg h]
    split <;> simp_all
  | case3 folder file h above hparent ih =>
    rw [Path.ancestors, List.map_cons, List.find?_cons_of_neg h, ih]
    split <;> simp_all

variable (tables : TableReader)

/-- A configuration and the text that it was read from. -/
def readConfig (p : Path) : Except ConfigFault (Config × List Char) := do
  let text ← (fs.read p).mapError (.read p)
  let table ← (tables text).mapError (.parse p)
  let config ← (Decode.config table).mapError fun cause => .parse p cause.message
  return (config, text)

def loadConfig (p : Path) : Except ConfigFault Config :=
  (fs.readConfig tables p).map Prod.fst

def loadConfigWithWarnings (p : Path) : Except ConfigFault LoadedConfig :=
  (fs.readConfig tables p).map fun (config, text) => { config, warnings := tables.warnings text }

/-- The configuration that holds at a place. -/
def configAt (start : Path) : Config :=
  match fs.findConfig? start with
  | none => {}
  | some p =>
    match fs.loadConfig tables p with
    | .ok config => config
    | .error _ => {}

/-- The configuration that holds at a place, with what is to be said about its file. -/
def configWithWarningsAt (start : Path) : LoadedConfig :=
  match fs.findConfig? start with
  | none => {}
  | some p =>
    match fs.loadConfigWithWarnings tables p with
    | .ok loaded => loaded
    | .error cause => { warnings := [cause.message] }

end FileSystem

end OptionalChain
