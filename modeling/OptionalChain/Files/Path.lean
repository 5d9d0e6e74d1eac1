/-!
# Names and paths

A name is a sequence of bytes, which need not be a text. A path is the list of its segments, the
pieces between slashes. It is shown as it was written, so that `src`, `./src` and `src//` are
different paths of one place. An empty first segment with others after it stands for the root.
-/

namespace OptionalChain

structure FileName where
  bytes : ByteArray

namespace FileName

instance : DecidableEq FileName := fun ⟨a⟩ ⟨b⟩ =>
  have := ByteArray.instDecidableEq a b
  decidable_of_decidable_of_iff (iff_of_eq (FileName.mk.injEq a b).symm)

def ofText (s : String) : FileName := ⟨s.toUTF8⟩

instance : Coe String FileName := ⟨ofText⟩

/-- The text of a name, if its bytes are one. -/
def text? (n : FileName) : Option String := String.fromUTF8? n.bytes

def units (n : FileName) : List UInt8 := n.bytes.data.toList

def codes (n : FileName) : List Nat := n.units.map (·.toNat)

/-- Names come in the order of their bytes. -/
instance : LT FileName := ⟨fun a b => a.codes < b.codes⟩

instance : DecidableLT FileName := fun a b => inferInstanceAs (Decidable (a.codes < b.codes))

/-- How many bytes follow the first byte of a character. -/
def followers (first : Nat) : Nat :=
  if first < 0xC2 || 0xF4 < first then 0
  else if first < 0xE0 then 1
  else if first < 0xF0 then 2
  else 3

/-- Whether a byte may be the second of a character. -/
def follows (first second : Nat) : Bool :=
  (if first == 0xE0 then 0xA0 else if first == 0xF0 then 0x90 else 0x80) ≤ second &&
    second ≤ if first == 0xED then 0x9F else if first == 0xF4 then 0x8F else 0xBF

/-- The bytes after the first one that belong to the same character. -/
def continuation (first : Nat) : List Nat → List Nat
  | [] => []
  | second :: rest =>
    if follows first second then
      (second :: rest.takeWhile fun b => 0x80 ≤ b && b ≤ 0xBF).take (followers first)
    else []

/-- The text of bytes after the first `skip`, with one mark for each start of a character that
does not go on. -/
def lossyFrom (skip : Nat) : List Nat → List Char
  | [] => []
  | first :: rest =>
    match skip with
    | skip + 1 => lossyFrom skip rest
    | 0 =>
      let more := continuation first rest
      let c :=
        if first < 0x80 then Char.ofNat first
        else if more != [] && more.length == followers first then
          Char.ofNat (more.foldl (fun code b => code * 64 + b % 64) (first % 2 ^ (6 - more.length)))
        else '\uFFFD'
      c :: lossyFrom more.length rest

/-- A name as it is shown. -/
def shown (n : FileName) : String :=
  n.text?.getD (String.ofList (lossyFrom 0 n.codes))

instance : Repr FileName := ⟨fun n _ => repr n.shown⟩

end FileName

structure Path where
  segments : List FileName
deriving DecidableEq, Repr

namespace Path

/-- Pieces of a text between slashes. -/
def pieces (current : List Char) : List Char → List FileName
  | [] => [String.ofList current]
  | c :: cs =>
    if c = '/' then String.ofList current :: pieces [] cs else pieces (current ++ [c]) cs

def ofText (s : String) : Path := ⟨pieces [] s.toList⟩

def toText (p : Path) : String := "/".intercalate (p.segments.map (·.shown))

def isEmpty (p : Path) : Bool := p.segments == [.ofText ""]

def isAbsolute (p : Path) : Bool := !p.isEmpty && p.segments.head? == some (.ofText "")

/-- The path of a name in a folder. -/
def join (p : Path) (name : FileName) : Path :=
  if p.segments.getLast? == some (.ofText "") then ⟨p.segments.dropLast ++ [name]⟩
  else ⟨p.segments ++ [name]⟩

/-- The path of a place below a folder. -/
def joinAll (p : Path) (names : List FileName) : Path :=
  names.foldl join p

/-! ## Folders above -/

/-- Segments after the first one that lead nowhere else. -/
def isIdle (segment : FileName) : Bool := segment == "" || segment == "."

/-- Leaves off what stands at the end and leads nowhere else. -/
def trim (segments : List FileName) : List FileName :=
  (segments.reverse.dropWhile isIdle).reverse

/-- The folder that a path lies in, by its text. The empty path and the root have none. -/
def parent? (p : Path) : Option Path :=
  match p.segments with
  | [] => none
  | first :: rest =>
    let names := trim rest
    if names.isEmpty then
      if first == "" then none else some ⟨[""]⟩
    else
      let above := trim names.dropLast
      -- The root keeps its slash.
      some ⟨first :: if first == "" && above.isEmpty then [""] else above⟩

/-- How many segments are not empty. -/
def depth (p : Path) : Nat := p.segments.countP (· != .ofText "")

theorem trim_sublist (segments : List FileName) : (trim segments).Sublist segments := by
  have h := (List.dropWhile_sublist isIdle (l := segments.reverse)).reverse
  rwa [List.reverse_reverse] at h

theorem isIdle_of_trim_eq_append {segments init : List FileName} {last : FileName}
    (h : trim segments = init ++ [last]) : isIdle last = false := by
  have hhead := List.head?_dropWhile_not isIdle segments.reverse
  have hlast : (segments.reverse.dropWhile isIdle).head? = some last := by
    rw [← List.getLast?_reverse, ← trim, h, List.getLast?_concat]
  simpa [hlast] using hhead

/-- The folder above is found by leaving off all that is idle at the end, the last name, and what is
idle before that. -/
theorem exists_segments_of_parent? {p q : Path} (h : p.parent? = some q) :
    ∃ first rest, p.segments = first :: rest ∧
      (first ≠ "" ∧ trim rest = [] ∧ q.segments = [.ofText ""] ∨
        ∃ init last, trim rest = init ++ [last] ∧
          q.segments =
            first :: if first == "" && (trim init).isEmpty then [.ofText ""] else trim init) := by
  unfold parent? at h
  split at h
  · cases h
  · rename_i first rest hsegments
    refine ⟨first, rest, hsegments, ?_⟩
    dsimp only at h
    obtain hnames | ⟨init, last, hnames⟩ := List.eq_nil_or_concat (trim rest)
    · obtain ⟨hfirst, rfl⟩ : first ≠ "" ∧ ⟨[""]⟩ = q := by simpa [hnames] using h
      exact .inl ⟨hfirst, hnames, rfl⟩
    · rw [List.concat_eq_append] at hnames
      rw [hnames, if_neg (by simp), List.dropLast_concat] at h
      obtain rfl := Option.some.inj h
      exact .inr ⟨init, last, hnames, rfl⟩

theorem depth_lt_of_parent? {p q : Path} (h : p.parent? = some q) : q.depth < p.depth := by
  have hcount (segments : List FileName) : (trim segments).countP (· != .ofText "") ≤
      segments.countP (· != .ofText "") := (trim_sublist segments).countP_le
  obtain ⟨first, rest, hp, ⟨hfirst, -, hq⟩ | ⟨init, last, hrest, hq⟩⟩ :=
    exists_segments_of_parent? h
  · simp [depth, hp, hq, hfirst]
  · have hlast : last ≠ "" := by
      rintro rfl
      exact absurd (isIdle_of_trim_eq_append hrest) (by decide)
    have hinit := hcount init
    have hnames := hcount rest
    rw [hrest, List.countP_append, List.countP_singleton, if_pos (by simpa using hlast)] at hnames
    rw [depth, depth, hp, hq, List.countP_cons, List.countP_cons]
    split
    · rw [List.countP_singleton, if_neg (by simp)]
      omega
    · omega

/-- The path and the folders above it, nearest first. -/
def ancestors (p : Path) : List Path :=
  p :: match _h : p.parent? with
    | none => []
    | some above => ancestors above
termination_by p.depth
decreasing_by exact depth_lt_of_parent? ‹_›

/-- Names on the way from the root, by the text of a path that starts in a folder. -/
def place (here : List FileName) (p : Path) : List FileName :=
  p.segments.foldl (fun names segment =>
    if isIdle segment then names
    else if segment == ".." then names.dropLast
    else names ++ [segment]) (if p.isAbsolute then [] else here)

/-! ## Names -/

/-- What follows the last dot of a name, if it is a text and the name does not start with that
dot. -/
def extensionOf? (name : FileName) : Option String :=
  let back := name.units.reverse
  match back.dropWhile (· != 46) with
  | _ :: _ :: _ =>
    if name == ".." then none
    else String.fromUTF8? ⟨(back.takeWhile (· != 46)).reverse.toArray⟩
  | _ => none

/-- The last name of a path. -/
def name? (p : Path) : Option FileName :=
  match p.segments with
  | [] => none
  | first :: rest => (trim (first :: rest)).getLast?

end Path

end OptionalChain
