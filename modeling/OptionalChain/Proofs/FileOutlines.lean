import OptionalChain.Command.Check

/-!
# Trees whose files get new texts

The outline of a tree is what is left of it without the contents of its files. Everything but the
reading of a file depends on the outline only: where a path leads to, which files a search finds.
A new text for a file keeps the outline of the tree and the contents of all other files.
-/

namespace OptionalChain

namespace FileTree

variable {t new : FileTree} {place other : List FileName} {name : FileName} {content : Content}
  {entries : List (FileName × FileTree)} {change : Option FileTree → FileTree}

mutual

/-- The tree with empty files. -/
def outline : FileTree → FileTree
  | .file _ => .file (.text [])
  | .folder entries => .folder (outlineIn entries)

def outlineIn : List (FileName × FileTree) → List (FileName × FileTree)
  | [] => []
  | (name, t) :: rest => (name, t.outline) :: outlineIn rest

end

/-- What a file holds. -/
def content? : FileTree → Option Content
  | .file content => some content
  | .folder _ => none

/-- What the file at a place holds. -/
def contentAt? (t : FileTree) (place : List FileName) : Option Content :=
  (t.get? place).bind content?

@[simp] theorem isFolder_outline (t : FileTree) : t.outline.isFolder = t.isFolder := by
  cases t <;> simp [outline, isFolder]

theorem lookup_outlineIn (entries : List (FileName × FileTree)) (name : FileName) :
    (outlineIn entries).lookup name = (entries.lookup name).map outline := by
  induction entries with
  | nil => rfl
  | cons entry rest ih =>
    rw [outlineIn, List.lookup_cons, List.lookup_cons, ih]
    split <;> rfl

theorem get?_outline (place : List FileName) (t : FileTree) :
    t.outline.get? place = (t.get? place).map outline := by
  induction place generalizing t with
  | nil => rfl
  | cons name rest ih =>
    cases t with
    | file content => rfl
    | folder entries =>
      rw [outline, get?, get?, lookup_outlineIn]
      cases entries.lookup name with
      | none => rfl
      | some t => exact ih t

section

variable (keep : FileEntry → Bool) (start : Path)

mutual

theorem search_outline : ∀ (t : FileTree) (names : List FileName),
    t.outline.search keep start names = t.search keep start names
  | .file _, names => by simp [outline, search]
  | .folder entries, names => by simp [outline, search, searchIn_outlineIn entries]

theorem searchIn_outlineIn : ∀ (entries : List (FileName × FileTree)) (names : List FileName),
    searchIn keep start names (outlineIn entries) = searchIn keep start names entries
  | [], names => by simp [outlineIn, searchIn]
  | (name, t) :: rest, names => by
    simp [outlineIn, searchIn, search_outline t, searchIn_outlineIn rest]

end

end

/-! ## A new file at a place -/

@[simp] theorem lookup_setEntry_self (name : FileName) (change : Option FileTree → FileTree)
    (entries : List (FileName × FileTree)) :
    (setEntry name change entries).lookup name = some (change (entries.lookup name)) := by
  induction entries with
  | nil => simp [setEntry]
  | cons entry rest ih =>
    obtain ⟨n, t⟩ := entry
    by_cases hn : n = name
    · simp [setEntry, hn]
    · simp [setEntry, hn, List.lookup_cons, beq_eq_false_iff_ne.2 (Ne.symm hn), ih]

theorem lookup_setEntry_of_ne {n : FileName} (h : n ≠ name) :
    (setEntry name change entries).lookup n = entries.lookup n := by
  induction entries with
  | nil => simp [setEntry, List.lookup_cons, beq_eq_false_iff_ne.2 h]
  | cons entry rest ih =>
    obtain ⟨m, t⟩ := entry
    by_cases hm : m = name
    · subst hm
      simp [setEntry, List.lookup_cons, beq_eq_false_iff_ne.2 h]
    · simp [setEntry, hm, List.lookup_cons, ih]

theorem get?_put (new : FileTree) (place : List FileName) (t : FileTree) :
    (put new place t).get? place = some new := by
  induction place generalizing t with
  | nil => rfl
  | cons name rest ih => cases t <;> simp [put, get?, ih]

theorem outlineIn_setEntry {old : FileTree} (h : entries.lookup name = some old)
    (hchange : (change (some old)).outline = old.outline) :
    outlineIn (setEntry name change entries) = outlineIn entries := by
  induction entries with
  | nil => cases h
  | cons entry rest ih =>
    obtain ⟨n, t⟩ := entry
    rw [List.lookup_cons] at h
    by_cases hn : n = name
    · obtain rfl : t = old := by simpa [hn] using h
      simp [setEntry, hn, outlineIn, hchange]
    · have hrest : rest.lookup name = some old := by
        simpa [beq_eq_false_iff_ne.2 (Ne.symm hn)] using h
      simp [setEntry, hn, outlineIn, ih hrest]

/-- A path of names to a file leads through a folder. -/
theorem exists_entry_of_get? (h : t.get? (name :: place) = some new) :
    ∃ entries old, t = .folder entries ∧ entries.lookup name = some old ∧
      old.get? place = some new := by
  cases t with
  | file content => cases h
  | folder entries =>
    obtain ⟨old, hold, hget⟩ := Option.bind_eq_some_iff.1 h
    exact ⟨entries, old, rfl, hold, hget⟩

theorem outline_put (h : t.get? place = some (.file content)) (text : Content) :
    (put (.file text) place t).outline = t.outline := by
  induction place generalizing t with
  | nil =>
    obtain rfl : t = .file content := by simpa [get?] using h
    rfl
  | cons name rest ih =>
    obtain ⟨entries, old, rfl, hold, hget⟩ := exists_entry_of_get? h
    simp only [put, outline, folder.injEq]
    exact outlineIn_setEntry hold (ih hget)

theorem contentAt?_put_self (text : Content) (place : List FileName) (t : FileTree) :
    (put (.file text) place t).contentAt? place = some text := by
  simp [contentAt?, get?_put, content?]

theorem contentAt?_put_of_ne (h : t.get? place = some (.file content)) (text : Content)
    (hne : other ≠ place) : (put (.file text) place t).contentAt? other = t.contentAt? other := by
  induction place generalizing t other with
  | nil =>
    obtain rfl : t = .file content := by simpa [get?] using h
    obtain ⟨name, rest, rfl⟩ := List.exists_cons_of_ne_nil hne
    rfl
  | cons name rest ih =>
    obtain ⟨entries, old, rfl, hold, hget⟩ := exists_entry_of_get? h
    cases other with
    | nil => rfl
    | cons n others =>
      by_cases hn : n = name
      · subst hn
        have hothers : others ≠ rest := fun heq ↦ hne (by rw [heq])
        simpa [contentAt?, put, get?, hold] using ih hget hothers
      · simp [contentAt?, put, get?, lookup_setEntry_of_ne hn]

end FileTree

/-! ## File systems -/

namespace FileSystem

variable {fs fs' : FileSystem} {p q : Path} {place base : List FileName} {segments : List FileName}

def outline (fs : FileSystem) : FileSystem := { fs with root := fs.root.outline }

@[simp] theorem root_outline (fs : FileSystem) : fs.outline.root = fs.root.outline := rfl

@[simp] theorem isFolderAt_outline (fs : FileSystem) (place : List FileName) :
    fs.outline.isFolderAt place = fs.isFolderAt place := by
  simp [isFolderAt, FileTree.get?_outline, Option.any_map]

@[simp] theorem resolveFrom_outline (fs : FileSystem) (place segments : List FileName) :
    fs.outline.resolveFrom place segments = fs.resolveFrom place segments := by
  induction segments generalizing place with
  | nil => rfl
  | cons segment rest ih =>
    simp only [resolveFrom, isFolderAt_outline, ih]
    simp [FileTree.get?_outline]

@[simp] theorem resolve?_outline (fs : FileSystem) (p : Path) :
    fs.outline.resolve? p = fs.resolve? p := by
  simp only [resolve?, resolveFrom_outline]
  rfl

theorem at?_outline (fs : FileSystem) (p : Path) :
    fs.outline.at? p = (fs.at? p).map FileTree.outline := by
  simp only [at?, resolve?_outline, root_outline, FileTree.get?_outline]
  cases fs.resolve? p <;> rfl

theorem resolve?_congr (h : fs.outline = fs'.outline) (p : Path) :
    fs.resolve? p = fs'.resolve? p := by
  rw [← resolve?_outline, h, resolve?_outline]

theorem exists?_congr (h : fs.outline = fs'.outline) (p : Path) : fs.exists? p = fs'.exists? p := by
  have hat : (fs.at? p).map FileTree.outline = (fs'.at? p).map FileTree.outline := by
    rw [← at?_outline, h, at?_outline]
  simpa [exists?] using congrArg Option.isSome hat

/-- The files that a search finds depend on the outline. -/
theorem discover?_outline (fs : FileSystem) (p : Path) :
    fs.outline.discover? p = fs.discover? p := by
  rw [discover?, discover?, at?_outline, Option.map_map]
  congr 1
  funext t
  cases t with
  | file content => rfl
  | folder entries =>
    have hsearch := FileTree.search_outline (!·.isHidden) p (.folder entries) []
    simp only [FileTree.outline] at hsearch
    simp [FileTree.outline, FileTree.supported, hsearch]

theorem discover?_congr (h : fs.outline = fs'.outline) (p : Path) :
    fs.discover? p = fs'.discover? p := by
  rw [← discover?_outline, h, discover?_outline]

/-! ## Files at paths -/

/-- A file stands where the path leads to. -/
def HasFile (fs : FileSystem) (p : Path) (place : List FileName) : Prop :=
  fs.resolve? p = some place ∧ ∃ content, fs.root.get? place = some (.file content)

theorem hasFile_outline : fs.outline.HasFile p place ↔ fs.HasFile p place := by
  simp only [HasFile, resolve?_outline, root_outline, FileTree.get?_outline]
  refine and_congr_right fun _ ↦ ?_
  cases fs.root.get? place with
  | none => simp
  | some t => cases t <;> simp [FileTree.outline]

theorem HasFile.congr (h : fs.outline = fs'.outline) (hfile : fs.HasFile p place) :
    fs'.HasFile p place := by
  rwa [← hasFile_outline, ← h, hasFile_outline]

theorem HasFile.of_read {cs : List Char} (h : fs.read p = .ok cs) :
    ∃ place, fs.HasFile p place ∧ fs.root.contentAt? place = some (.text cs) := by
  unfold read at h
  split at h
  · rename_i text hat
    cases h
    obtain ⟨place, hplace, hget⟩ := Option.bind_eq_some_iff.1 hat
    exact ⟨place, ⟨hplace, _, hget⟩, by simp [FileTree.contentAt?, hget, FileTree.content?]⟩
  · cases h
  · cases h
  · cases h

theorem HasFile.of_read_of_resolve? {cs : List Char} (h : fs.read p = .ok cs)
    (hplace : fs.resolve? p = some place) : fs.HasFile p place := by
  obtain ⟨place', hfile, -⟩ := HasFile.of_read h
  obtain rfl := Option.some.inj (hfile.1.symm.trans hplace)
  exact hfile

/-- What is read at a path, given what its place holds. -/
theorem read_eq_of_contentAt? {cs : List Char} (hplace : fs.resolve? p = some place)
    (h : fs.root.contentAt? place = some (.text cs)) : fs.read p = .ok cs := by
  obtain ⟨t, hget, ht⟩ := Option.bind_eq_some_iff.1 h
  cases t with
  | folder entries => cases ht
  | file content =>
    obtain rfl : content = .text cs := by simpa [FileTree.content?] using ht
    simp [read, at?, hplace, hget]

/-- Two systems of one outline in which a place holds the same read the same there. -/
theorem read_congr (h : fs.outline = fs'.outline)
    (hcontent : ∀ place, fs.resolve? p = some place →
      fs.root.contentAt? place = fs'.root.contentAt? place) : fs.read p = fs'.read p := by
  have hresolve := resolve?_congr h p
  cases hplace : fs.resolve? p with
  | none =>
    rw [hplace] at hresolve
    simp [read, at?, hplace, ← hresolve]
  | some place =>
    rw [hplace] at hresolve
    have houtline : (fs.root.get? place).map FileTree.outline =
        (fs'.root.get? place).map FileTree.outline := by
      rw [← FileTree.get?_outline, ← FileTree.get?_outline]
      exact congrArg (fun k : FileSystem ↦ k.root.get? place) h
    have hsame := hcontent place hplace
    unfold FileTree.contentAt? at hsame
    simp only [read, at?, hplace, ← hresolve, Option.bind_eq_bind, Option.bind_some]
    cases hget : fs.root.get? place with
    | none =>
      rw [hget] at houtline
      rw [Option.map_eq_none_iff.1 houtline.symm]
    | some t =>
      rw [hget] at houtline hsame
      obtain ⟨t', hget', ht⟩ := Option.map_eq_some_iff.1 houtline.symm
      rw [hget'] at hsame ⊢
      cases t <;> cases t' <;> simp_all [FileTree.outline, FileTree.content?]

/-! ## New texts -/

/-- Gives files new texts, one after another. -/
def writeAll (fs : FileSystem) (writes : List (Path × List Char)) : FileSystem :=
  writes.foldl (fun fs w ↦ fs.write w.1 w.2) fs

variable {text : List Char} {writes : List (Path × List Char)}

theorem outline_write (h : fs.HasFile p place) (text : List Char) :
    (fs.write p text).outline = fs.outline := by
  obtain ⟨hplace, content, hget⟩ := h
  simp [write, hplace, outline, FileTree.outline_put hget]

theorem contentAt?_write_self (h : fs.HasFile p place) (text : List Char) :
    (fs.write p text).root.contentAt? place = some (.text text) := by
  simp [write, h.1, FileTree.contentAt?_put_self]

theorem contentAt?_write_of_ne (h : fs.HasFile p place) (text : List Char) {other : List FileName}
    (hne : other ≠ place) :
    (fs.write p text).root.contentAt? other = fs.root.contentAt? other := by
  obtain ⟨hplace, content, hget⟩ := h
  simp [write, hplace, FileTree.contentAt?_put_of_ne hget _ hne]

/-- Texts that are written to files keep the outline. -/
theorem outline_writeAll (h : ∀ w ∈ writes, ∃ place, fs.HasFile w.1 place) :
    (fs.writeAll writes).outline = fs.outline := by
  induction writes generalizing fs with
  | nil => rfl
  | cons w rest ih =>
    obtain ⟨place, hfile⟩ := h w (by simp)
    have hw := outline_write hfile w.2
    refine Eq.trans (ih fun v hv ↦ ?_) hw
    obtain ⟨place, hv⟩ := h v (by simp [hv])
    exact ⟨place, hv.congr hw.symm⟩

/-- A place that no text is written to holds what it held. -/
theorem contentAt?_writeAll_of_forall_ne (h : ∀ w ∈ writes, ∃ place, fs.HasFile w.1 place)
    {other : List FileName} (hne : ∀ w ∈ writes, fs.resolve? w.1 ≠ some other) :
    (fs.writeAll writes).root.contentAt? other = fs.root.contentAt? other := by
  induction writes generalizing fs with
  | nil => rfl
  | cons w rest ih =>
    obtain ⟨place, hfile⟩ := h w (by simp)
    have hw := outline_write hfile w.2
    have hother : other ≠ place := fun heq ↦ hne w (by simp) (heq ▸ hfile.1)
    refine Eq.trans (ih (fun v hv ↦ ?_) fun v hv ↦ ?_)
      (contentAt?_write_of_ne hfile w.2 hother)
    · obtain ⟨place, hv⟩ := h v (by simp [hv])
      exact ⟨place, hv.congr hw.symm⟩
    · rw [resolve?_congr hw]
      exact hne v (by simp [hv])

/-- A place that one text is written to, if more than once then always the same, holds that text. -/
theorem contentAt?_writeAll_of_mem (h : ∀ w ∈ writes, ∃ place, fs.HasFile w.1 place)
    (hmem : (p, text) ∈ writes) (hplace : fs.resolve? p = some place)
    (hsame : ∀ w ∈ writes, fs.resolve? w.1 = some place → w.2 = text) :
    (fs.writeAll writes).root.contentAt? place = some (.text text) := by
  induction writes generalizing fs p with
  | nil => cases hmem
  | cons w rest ih =>
    obtain ⟨place', hfile⟩ := h w (by simp)
    have hw := outline_write hfile w.2
    have hrest : ∀ v ∈ rest, ∃ place, (fs.write w.1 w.2).HasFile v.1 place := fun v hv ↦ by
      obtain ⟨place, hv⟩ := h v (by simp [hv])
      exact ⟨place, hv.congr hw.symm⟩
    -- The last text that is written there decides.
    by_cases hlater : ∃ v ∈ rest, fs.resolve? v.1 = some place
    · obtain ⟨v, hv, hvplace⟩ := hlater
      obtain rfl : v.2 = text := hsame v (by simp [hv]) hvplace
      refine ih hrest hv (by rwa [resolve?_congr hw]) fun u hu huplace ↦ ?_
      exact hsame u (by simp [hu]) (by rwa [resolve?_congr hw] at huplace)
    · simp only [not_exists, not_and] at hlater
      have hmine : fs.resolve? w.1 = some place := by
        obtain rfl | hmem := List.mem_cons.1 hmem
        · exact hplace
        · exact absurd hplace (hlater _ hmem)
      obtain rfl : place' = place := by simpa [hfile.1] using hmine
      obtain rfl : w.2 = text := hsame w (by simp) hmine
      refine (contentAt?_writeAll_of_forall_ne hrest fun v hv ↦ ?_).trans
        (contentAt?_write_self hfile w.2)
      rw [resolve?_congr hw]
      exact hlater v hv

end FileSystem

end OptionalChain
