import OptionalChain.Command.Check

/-!
# The program

Reads the files that a check looks at, runs it, and writes back what it changed.
-/

namespace OptionalChain.Program

def contentOf (bytes : ByteArray) : Content :=
  match String.fromUTF8? bytes with
  | some s => .text s.toList
  | none => .binary bytes.toList

/-- The part of a folder that a check looks at. -/
partial def readFolder (path : String) : IO FileTree := do
  let mut entries := []
  for entry in ← ((← IO.currentDir) / path).readDir do
    let name : FileName := entry.fileName
    let below := ((Path.ofText path).join name).toText
    match (← entry.path.symlinkMetadata).type with
    | .dir =>
      if !FileTree.isHidden name then
        entries := (name, ← readFolder below) :: entries
    | .file =>
      if isSupportedName name then
        entries := (name, .file (contentOf (← IO.FS.readBinFile below))) :: entries
    | _ => pure ()
  return .folder entries

/-- What stands at a path, if anything does. -/
def readTree? (path : String) : IO (Option FileTree) := do
  let full := (← IO.currentDir) / path
  if ← full.isDir then
    return some (← readFolder path)
  else if ← full.pathExists then
    return some (.file (contentOf (← IO.FS.readBinFile full)))
  else
    return none

/-- Puts what stands at a path into a file system. -/
def addTree (fs : FileSystem) (p : Path) : IO FileSystem := do
  match ← readTree? p.toText with
  | some t => return { fs with root := FileTree.put t (p.place fs.here) fs.root }
  | none => return fs

/-- The files that a check of a path looks at. -/
def readFiles (here : List FileName) (p : Path) : IO FileSystem := do
  let start ← addTree { root := .empty, here } p
  let folder := (start.root.get? here).getD .empty
  let start := { start with root := FileTree.put folder here start.root }
  p.ancestors.foldlM (fun fs q => addTree fs (q.join FileSystem.configFileName)) start

def check (o : CheckOptions) : IO UInt32 := do
  let workingDirectory := (← IO.currentDir).toString
  let here := (Path.ofText workingDirectory).place []
  let fs ← readFiles here o.path
  let result := fs.runCheck
    { hasColor := ← (← IO.getStdout).isTty
      noColor := (← IO.getEnv "NO_COLOR").isSome
      workingDirectory } o
  for (path, text) in result.writes do
    IO.FS.writeFile path.toText (String.ofList text)
  IO.eprint result.warnings
  IO.print result.output
  match result.outcome with
  | .ok summary => return if summary.shouldFail o.failOnWarnings then 1 else 0
  | .error fault =>
    IO.eprintln ("Error: " ++ fault.message)
    return 1

end OptionalChain.Program

def main (args : List String) : IO UInt32 :=
  match OptionalChain.Arguments.parse args with
  | .ok options => OptionalChain.Program.check options
  | .error fault => do
    IO.eprintln ("error: " ++ fault.message)
    return 2
