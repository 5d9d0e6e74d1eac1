import OptionalChain.Config.Toml.Scalar

/-!
# Settings files

A file is a list of keys with values, cut into tables by headers. Every key is given once,
and a table is opened by one header only.
-/

namespace OptionalChain.Toml

/-! ## Tables under construction -/

/-- What a key stands for. A table is implicit until a header opens it, and dotted when dotted
keys made it. -/
inductive Item where
  | value (v : Value)
  | table (implicit dotted : Bool) (entries : List (String × Item))
  | tables (all : List (List (String × Item)))

abbrev Entries := List (String × Item)

mutual

def Item.toValue : Item → Value
  | .value v => v
  | .table _ _ entries => .table false (entriesToValues entries)
  | .tables all => .list (tablesToValues all)

def entriesToValues : List (String × Item) → List (String × Value)
  | [] => []
  | (key, item) :: rest => (key, item.toValue) :: entriesToValues rest

def tablesToValues : List (List (String × Item)) → List Value
  | [] => []
  | entries :: rest => .table false (entriesToValues entries) :: tablesToValues rest

end

/-- Changes the item of a key, or adds one at the end. -/
def update (key : String) (change : Option Item → Except Fault Item) :
    Entries → Except Fault Entries
  | [] => do return [(key, ← change none)]
  | (k, item) :: rest =>
    if k == key then do return (k, ← change (some item)) :: rest
    else do return (k, item) :: (← update key change rest)

def changeLast (change : Entries → Except Fault Entries) :
    List Entries → Except Fault (List Entries)
  | [] => do return [← change []]
  | [last] => do return [← change last]
  | first :: rest => do return first :: (← changeLast change rest)

/-- Changes the entries of the table at a path below tables passed already. Tables on the way
that are missing are made; those that a header opened are closed to dotted keys. -/
def descend (dotted : Bool) (change : Bool → Entries → Except Fault Entries) (isDotted : Bool)
    (passed : List String) : List String → Entries → Except Fault Entries
  | [], entries => change isDotted entries
  | key :: rest, entries =>
    let passed := passed ++ [key]
    update key (fun
      | none => do return .table true dotted (← descend dotted change dotted passed rest [])
      | some (.value v) => throw (.extendsValue passed v.typeName)
      | some (.tables all) => do
        return .tables (← changeLast (descend dotted change false passed rest) all)
      | some (.table implicit d sub) =>
        if dotted && !implicit then throw (.duplicate key none)
        else do return .table implicit d (← descend dotted change d passed rest sub)) entries

structure Document where
  entries : Entries := []
  here : List String := []

namespace Document

/-- Adds a value in the current table. -/
def addValue (d : Document) (path : List String) (key : String) (v : Value) :
    Except Fault Document := do
  let insert (isDotted : Bool) (entries : Entries) : Except Fault Entries :=
    if isDotted == path.isEmpty then throw (.duplicate key none)
    else update key (fun
      | none => return .value v
      | some _ => throw (.duplicate key (some d.here))) entries
  let below (_ : Bool) (entries : Entries) : Except Fault Entries :=
    descend true insert false [] path entries
  return { d with entries := ← descend false below false [] d.here d.entries }

/-- Opens the table of a header. -/
def openTable (d : Document) (path : List String) (key : String) : Except Fault Document := do
  let open_ (_ : Bool) (entries : Entries) : Except Fault Entries :=
    match entries.lookup key with
    | none => return entries ++ [(key, .table false false [])]
    | some (.table true false sub) =>
      return entries.filter (·.1 != key) ++ [(key, .table false false sub)]
    | some _ => throw (.duplicate key (some path))
  return { entries := ← descend false open_ false [] path d.entries, here := path ++ [key] }

/-- Adds a table to the list of a header in double brackets. -/
def openListed (d : Document) (path : List String) (key : String) : Except Fault Document := do
  let open_ (_ : Bool) (entries : Entries) : Except Fault Entries :=
    update key (fun
      | none => return .tables [[]]
      | some (.tables all) => return .tables (all ++ [[]])
      | some _ => throw (.duplicate key (some path))) entries
  return { entries := ← descend false open_ false [] path d.entries, here := path ++ [key] }

end Document

/-! ## Values -/

/-- Skips white space, line breaks and comments. -/
def skipTrivia : Nat → Reader Unit
  | 0 => return
  | fuel + 1 => do
    skipBlanks
    skipComment
    if ← eatNewline then
      skipTrivia fuel

def trivia : Reader Unit := do skipTrivia ((← get).length + 1)

/-- Items of a list after its bracket. -/
def listFrom (value : Reader Value) : Nat → List Value → Reader (List Value)
  | 0, _ => failWith .array
  | fuel + 1, done => do
    trivia
    if ← eat [']'] then
      return done
    else if startsValue (← get) then
      let v ← value
      trivia
      if ← eat [','] then
        listFrom value fuel (done ++ [v])
      else if ← eat [']'] then
        return done ++ [v]
      else
        failWith .array
    else
      failWith .array

/-- The last name of a key and those before it. -/
def splitKey (path : List String) : List String × String :=
  (path.dropLast, path.getLastD "")

/-- Entries of an inline table after its brace or a comma. -/
def inlineFrom (value : Reader Value) : Nat → Entries → Reader Entries
  | 0, _ => failWith .inlineTable
  | fuel + 1, done => do
    skipBlanks
    let starts := (← peek?).any fun c => isBareKeyChar c || c == '"' || c == '\''
    if !starts then
      failWith .inlineTable
    let (path, name) := splitKey (← key)
    if !(← eat ['=']) then
      failWith .separator
    skipBlanks
    let v ← value
    skipBlanks
    let insert (_ : Bool) (entries : Entries) : Except Fault Entries :=
      update name (fun
        | none => return .value v
        | some _ => throw (.duplicate name none)) entries
    let done ← descend true insert false [] path done
    if ← eat [','] then
      inlineFrom value fuel done
    else if ← eat ['}'] then
      return done
    else
      failWith .inlineTable

mutual

/-- An item of an inline table, in which all tables are inline. -/
def Item.toInline : Item → Value
  | .value v => v
  | .table _ _ entries => .table true (entriesToInline entries)
  | .tables _ => .list []

def entriesToInline : List (String × Item) → List (String × Value)
  | [] => []
  | (key, item) :: rest => (key, item.toInline) :: entriesToInline rest

end

def inlineTable (value : Reader Value) : Reader Value := do
  bump
  skipBlanks
  if ← eat ['}'] then
    return .table true []
  else
    return .table true (entriesToInline (← inlineFrom value ((← get).length + 1) []))

def valueWithin : Nat → Reader Value
  | 0 => failWith .missingValue
  | depth + 1 => do
    match ← peek? with
    | none => failWith .missingValue
    | some '"' | some '\'' => return .string (← string)
    | some '[' =>
      bump
      return .list (← listFrom (valueWithin depth) ((← get).length + 1) [])
    | some '{' => inlineTable (valueWithin depth)
    | some c => if startsNumber c then number else word

def value : Reader Value := do valueWithin ((← get).length + 1)

/-! ## Lines -/

/-- The end of a line after white space and a comment. -/
def lineEnd : Reader Unit := do
  skipBlanks
  skipComment
  if !(← eatNewline) && !(← get).isEmpty then
    failWith .lineEnd

def keyValue (d : Document) : Reader Document := do
  let (path, name) := splitKey (← key)
  if !(← eat ['=']) then
    failWith .separator
  skipBlanks
  let v ← value
  lineEnd
  d.addValue path name v

/-- A key can be wrong in its own way; other errors of a header are said to be in it. -/
def inHeader {α : Type} (r : Reader α) : Reader α :=
  tryCatch r fun
    | .key => throw .key
    | .basicString => throw .basicString
    | .literalString => throw .literalString
    | .escape => throw .escape
    | cause => throw (.inHeader cause)

def header (d : Document) : Reader Document := inHeader do
  let isList ← eat ['[', '[']
  if !isList then
    bump
  let (path, name) := splitKey (← key)
  if !(← eat (if isList then [']', ']'] else [']'])) then
    failWith (.headerEnd isList)
  lineEnd
  if isList then d.openListed path name else d.openTable path name

def linesFrom : Nat → Document → Reader Document
  | 0, d => return d
  | fuel + 1, d => do
    skipBlanks
    match ← peek? with
    | none => return d
    | some '#' =>
      lineEnd
      linesFrom fuel d
    | some '[' => linesFrom fuel (← header d)
    | some _ =>
      if ← eatNewline then
        linesFrom fuel d
      else
        linesFrom fuel (← keyValue d)

def dropMark : List Char → List Char
  | c :: cs => if c = '﻿' then cs else c :: cs
  | [] => []

/-- The table that a settings file holds. -/
def parse (text : List Char) : Except Fault Value :=
  let text := dropMark text
  ((linesFrom (text.length + 1) {}).run text).map fun (d, _) =>
    .table false (entriesToValues d.entries)

end OptionalChain.Toml
