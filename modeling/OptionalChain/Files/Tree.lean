import OptionalChain.Files.Path

/-!
# File trees

Folders, and files that hold text or other bytes. A place in a tree is given by the names on
the way to it.
-/

namespace OptionalChain

inductive Content where
  | text (cs : List Char)
  | binary (bytes : List UInt8)
deriving DecidableEq, Repr

inductive FileTree where
  | file (content : Content)
  | folder (entries : List (FileName × FileTree))
deriving Repr

namespace FileTree

def empty : FileTree := .folder []

def isFolder : FileTree → Bool
  | .file _ => false
  | .folder _ => true

/-- What stands at a place. -/
def get? : List FileName → FileTree → Option FileTree
  | [], t => some t
  | _ :: _, .file _ => none
  | name :: rest, .folder entries => (entries.lookup name).bind (get? rest)

/-- Changes the entry of a name, or adds one at the end. -/
def setEntry (name : FileName) (change : Option FileTree → FileTree) :
    List (FileName × FileTree) → List (FileName × FileTree)
  | [] => [(name, change none)]
  | (n, t) :: rest =>
    if n == name then (n, change (some t)) :: rest else (n, t) :: setEntry name change rest

/-- Puts a tree at a place, in folders that are made where they are missing. -/
def put (new : FileTree) : List FileName → FileTree → FileTree
  | [], _ => new
  | name :: rest, .folder entries =>
    .folder (setEntry name (fun t? => put new rest (t?.getD empty)) entries)
  | name :: rest, .file _ => .folder [(name, put new rest empty)]

/-- Names that a search does not enter. A name that is no text is none of them. -/
def isHidden (name : FileName) : Bool :=
  name.text?.any fun text => text.toList.head? == some '.' || text == "node_modules"

end FileTree

/-! ## Searches -/

/-- What a search meets, by the names on the way from where it starts. -/
structure FileEntry where
  start : Path
  names : List FileName
  isFolder : Bool
deriving DecidableEq, Repr

namespace FileEntry

variable (e : FileEntry)

def depth : Nat := e.names.length

def path : Path := e.start.joinAll e.names

/-- The last name of the path. -/
def name : FileName := (e.names.getLast?.or e.start.name?).getD e.start.toText

/-- Whether a search leaves out the entry. It never leaves out where it starts. -/
def isHidden : Bool := e.depth != 0 && FileTree.isHidden e.name

end FileEntry

namespace FileTree

mutual

/-- The entries of a tree that are kept. What lies below an entry that is not kept is not
looked at. -/
def search (keep : FileEntry → Bool) (start : Path) (names : List FileName) :
    FileTree → List FileEntry
  | .file _ =>
    let e : FileEntry := { start, names, isFolder := false }
    if keep e then [e] else []
  | .folder entries =>
    let e : FileEntry := { start, names, isFolder := true }
    if keep e then e :: searchIn keep start names entries else []

def searchIn (keep : FileEntry → Bool) (start : Path) (names : List FileName) :
    List (FileName × FileTree) → List FileEntry
  | [] => []
  | (name, t) :: rest =>
    t.search keep start (names ++ [name]) ++ searchIn keep start names rest

end

end FileTree

/-- A tree and the folder in it that relative paths start from. -/
structure FileSystem where
  root : FileTree
  here : List FileName := []

namespace FileSystem

variable (fs : FileSystem)

def isFolderAt (place : List FileName) : Bool :=
  (fs.root.get? place).any (·.isFolder)

/-- Follows the segments of a path from a place. -/
def resolveFrom (place : List FileName) : List FileName → Option (List FileName)
  | [] => some place
  | segment :: rest =>
    if Path.isIdle segment then
      if fs.isFolderAt place then resolveFrom place rest else none
    else if segment == ".." then
      if fs.isFolderAt place then resolveFrom place.dropLast rest else none
    else if (fs.root.get? (place ++ [segment])).isSome then
      resolveFrom (place ++ [segment]) rest
    else
      none

/-- The place of a path, if something stands there. -/
def resolve? (p : Path) : Option (List FileName) :=
  if p.isEmpty then none
  else fs.resolveFrom (if p.isAbsolute then [] else fs.here) p.segments

def at? (p : Path) : Option FileTree := do
  fs.root.get? (← fs.resolve? p)

def exists? (p : Path) : Bool := (fs.at? p).isSome

/-- Gives a file that is there a new text. -/
def write (p : Path) (text : List Char) : FileSystem :=
  match fs.resolve? p with
  | some place => { fs with root := FileTree.put (.file (.text text)) place fs.root }
  | none => fs

/-! ## Reading -/

inductive ReadFault where
  | missing
  | folder
  | encoding
deriving DecidableEq, Repr

def ReadFault.message : ReadFault → String
  | missing => "No such file or directory (os error 2)"
  | folder => "Is a directory (os error 21)"
  | encoding => "stream did not contain valid UTF-8"

/-- The text of a file. -/
def read (p : Path) : Except ReadFault (List Char) :=
  match fs.at? p with
  | some (.file (.text cs)) => .ok cs
  | some (.file (.binary _)) => .error .encoding
  | some (.folder _) => .error .folder
  | none => .error .missing

end FileSystem

end OptionalChain
