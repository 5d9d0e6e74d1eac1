import OptionalChain.Proofs.NearestConfig

/-!
# The files that are checked

A search from a folder finds the files with supported extensions that lie below no hidden name, in
the order of their paths. The name of the folder that it starts from does not matter.
-/

namespace OptionalChain

variable {name : FileName} {ext : String} {names place base : List FileName} {p : Path}
  {fs : FileSystem} {entries : List (FileName × FileTree)}

/-! ## Extensions -/

/-- The name has an extension that is supported, and something before it. -/
def IsSourceName (name : FileName) : Prop :=
  ∃ (stem : List UInt8) (ext : String), stem ≠ [] ∧ ext ∈ supportedExtensions ∧
    name.units = stem ++ 46 :: (FileName.ofText ext).units

theorem exists_stem_of_extensionOf? (h : Path.extensionOf? name = some ext) :
    ∃ stem, stem ≠ [] ∧ name.units = stem ++ 46 :: (FileName.ofText ext).units := by
  unfold Path.extensionOf? at h
  dsimp only at h
  split at h
  swap
  · cases h
  rename_i dot last before hdrop
  split at h
  · cases h
  obtain rfl : dot = 46 := by
    have hhead := List.head?_dropWhile_not (· != 46) name.units.reverse
    simpa [hdrop] using hhead
  have hext : (name.units.reverse.takeWhile (· != 46)).reverse = (FileName.ofText ext).units := by
    have hunits := congrArg FileName.units (FileName.text?_eq_some_iff (n := ⟨_⟩).1 h)
    simpa only [FileName.units] using hunits
  have hback := List.takeWhile_append_dropWhile (p := (· != 46)) (l := name.units.reverse)
  refine ⟨(last :: before).reverse, by simp, ?_⟩
  rw [← List.reverse_reverse name.units, ← hback, hdrop, ← hext]
  simp

theorem extensionOf?_append {stem : List UInt8} (hname : name.units =
    stem ++ 46 :: (FileName.ofText ext).units) (hstem : stem ≠ [])
    (hdot : 46 ∉ (FileName.ofText ext).units) (hext : (FileName.ofText ext).units ≠ []) :
    Path.extensionOf? name = some ext := by
  have hback : name.units.reverse = (FileName.ofText ext).units.reverse ++ 46 :: stem.reverse := by
    simp [hname]
  have hplain : ∀ b ∈ (FileName.ofText ext).units.reverse, (b != 46) = true := by
    intro b hb
    rw [bne_iff_ne]
    rintro rfl
    exact hdot (List.mem_reverse.1 hb)
  obtain ⟨last, before, hlast⟩ := List.exists_cons_of_ne_nil
    (show stem.reverse ≠ [] by simpa using hstem)
  have hne : (name == "..") = false := by
    rw [beq_eq_false_iff_ne]
    rintro rfl
    obtain ⟨b, rest, hb⟩ := List.exists_cons_of_ne_nil
      (show (FileName.ofText ext).units.reverse ≠ [] by simpa using hext)
    rw [hb] at hback
    obtain rfl : 46 = b := (List.cons.inj hback).1
    exact absurd (hplain 46 (by simp [hb])) (by decide)
  unfold Path.extensionOf?
  dsimp only
  rw [hback, List.dropWhile_append_of_pos hplain, List.takeWhile_append_of_pos hplain, hlast]
  simp only [List.dropWhile_cons, List.takeWhile_cons, bne_self_eq_false, Bool.false_eq_true,
    if_false, hne, List.append_nil, List.reverse_reverse]
  exact FileName.text?_eq_some_iff.2 rfl

theorem isSupportedName_iff : isSupportedName name = true ↔ IsSourceName name := by
  rw [isSupportedName, Option.any_eq_true]
  constructor
  · rintro ⟨ext, hext, hsupported⟩
    obtain ⟨stem, hstem, hname⟩ := exists_stem_of_extensionOf? hext
    exact ⟨stem, ext, hstem, by simpa using hsupported, hname⟩
  · rintro ⟨stem, ext, hstem, hsupported, hname⟩
    have hall : ∀ ext ∈ supportedExtensions,
        46 ∉ (FileName.ofText ext).units ∧ (FileName.ofText ext).units ≠ [] := by decide
    obtain ⟨hdot, hext⟩ := hall ext hsupported
    exact ⟨ext, extensionOf?_append hname hstem hdot hext, by simpa using hsupported⟩

theorem FileTree.isHidden_eq_false_iff : isHidden name = false ↔
    ∀ text, name.text? = some text → text.toList.head? ≠ some '.' ∧ text ≠ "node_modules" := by
  simp only [isHidden, Option.any_eq_false, Bool.or_eq_false_iff, beq_eq_false_iff_ne]

/-! ## Paths of files -/

/-- The names on the way to a file that is found can stand in a path. -/
theorem FileTree.IsProper.isName_of_mem_supported (h : (FileTree.folder entries).IsProper)
    {start : Path} (hmem : place ∈ ((FileTree.folder entries).supported start).map (·.names)) :
    place ≠ [] ∧ (∀ n ∈ place, Path.isName n) ∧ ((FileTree.folder entries).get? place).isSome := by
  obtain ⟨⟨content, hlies⟩, hlast, hvisible⟩ := mem_names_supported_folder_iff.1 hmem
  refine ⟨?_, fun n hn ↦ Path.isName_of_not_isHidden (hvisible n hn) ?_, ?_⟩
  · rintro rfl
    cases hlast
  · rintro rfl
    exact h.ne_empty_of_lies hlies hn
  · rw [h.lies_iff.1 hlies, Option.isSome_some]

namespace FileSystem

/-- The path of what stands below a folder leads there. -/
theorem resolve?_joinAll (hp : fs.resolve? p = some base) (hne : names ≠ [])
    (hnames : ∀ n ∈ names, Path.isName n) (hget : (fs.root.get? (base ++ names)).isSome) :
    fs.resolve? (p.joinAll names) = some (base ++ names) := by
  have hempty : .ofText "" ∉ names := fun hmem ↦ absurd (hnames "" hmem) (by decide)
  obtain ⟨hpne, hbase⟩ := resolveFrom_of_resolve? hp
  rw [resolve?, Path.isEmpty_joinAll hne hempty, if_neg Bool.false_ne_true,
    isAbsolute_joinAll hne hempty hpne, Path.segments_joinAll hne hempty, resolveFrom_append,
    resolveFrom_stem _ hbase, Option.bind_some]
  obtain ⟨init, last, rfl⟩ := (List.eq_nil_or_concat names).resolve_left hne
  rw [List.concat_eq_append] at hnames hget ⊢
  have hdown : .ofText ".." ∉ init := fun hmem ↦
    absurd (hnames ".." (List.mem_append_left _ hmem)) (by decide)
  have hinit : Path.namesOf init = init := by
    refine List.filter_eq_self.2 fun n hn ↦ ?_
    have hname := hnames n (List.mem_append_left _ hn)
    rw [Path.isName, Bool.and_eq_true] at hname
    exact hname.1
  exact (fs.resolveFrom_concat_iff hdown (hnames last (by simp))).2 ⟨by rw [hinit], hget⟩

theorem discover?_folder (hp : fs.resolve? p = some base)
    (hget : fs.root.get? base = some (.folder entries)) :
    fs.discover? p =
      some ((((FileTree.folder entries).supported p).map (·.names)).map p.joinAll) := by
  have hat : fs.at? p = some (.folder entries) := by rw [at?, hp]; exact hget
  rw [discover?, hat, List.map_map, Option.map_some, Option.some.injEq]
  refine List.map_congr_left fun e he ↦ ?_
  obtain ⟨place, content, -, rfl, -⟩ := FileTree.mem_supported_iff.1 he
  rfl

/-- A folder determines the places of the files that a search from it finds: those of the files with
supported extensions to which no hidden name leads, where a name that is no text is never hidden.
Whatever path leads to the folder, the search returns the paths of these files, in strictly
increasing order. -/
theorem discovers_visible_files (h : (FileTree.folder entries).IsProper) :
    ∃ places : List (List FileName),
      (∀ place, place ∈ places ↔
        (∃ content, (FileTree.folder entries).get? place = some (.file content)) ∧
        (∃ name, place.getLast? = some name ∧ IsSourceName name) ∧
        ∀ name ∈ place, ∀ text, name.text? = some text →
          text.toList.head? ≠ some '.' ∧ text ≠ "node_modules") ∧
      ∀ (fs : FileSystem) (p : Path) (base : List FileName), fs.resolve? p = some base →
        fs.root.get? base = some (.folder entries) →
        fs.discover? p = some (places.map p.joinAll) ∧
        (places.map p.joinAll).Pairwise (fun q r ↦ q.segments < r.segments) ∧
        ∀ place ∈ places, fs.resolve? (p.joinAll place) = some (base ++ place) := by
  refine ⟨((FileTree.folder entries).supported ⟨[]⟩).map (·.names), fun place ↦ ?_,
    fun fs p base hp hget ↦ ?_⟩
  · simp only [FileTree.mem_names_supported_folder_iff, h.lies_iff, Option.any_eq_true,
      isSupportedName_iff, FileTree.isHidden_eq_false_iff]
  · refine ⟨?_, List.pairwise_map.2 ?_, fun place hmem ↦ ?_⟩
    · rw [discover?_folder hp hget, FileTree.names_supported_eq h p]
    · refine (h.pairwise_supported ⟨[]⟩).imp_of_mem fun {a b} ha hb hlt ↦ ?_
      have hsegments {place : List FileName}
          (hmem : place ∈ ((FileTree.folder entries).supported ⟨[]⟩).map (·.names)) :
          (p.joinAll place).segments = p.stem ++ place := by
        obtain ⟨hne, hnames, -⟩ := h.isName_of_mem_supported hmem
        exact Path.segments_joinAll hne fun hn ↦ absurd (hnames "" hn) (by decide)
      rw [hsegments ha, hsegments hb]
      exact List.append_left_lt hlt
    · obtain ⟨hne, hnames, hsome⟩ := h.isName_of_mem_supported hmem
      refine resolve?_joinAll hp hne hnames ?_
      rw [FileTree.get?_append, hget]
      exact hsome

/-- Entries with hidden names at several depths, and a folder with the name of a supported file. -/
def mixedEntries : List (FileName × FileTree) :=
  let file : FileTree := .file (.text [])
  [("readme.md", file), (".hidden.ts", file), ("x.js", .folder [("deep.tsx", file)]),
    (".git", .folder [("index.js", file)]),
    ("lib", .folder [("node_modules", .folder [("a.js", file)]), ("b.mjs", file)])]

theorem isProper_mixedEntries : (FileTree.folder mixedEntries).IsProper := by
  have hsingle (name : FileName) (hname : name ≠ "") :
      (FileTree.folder [(name, .file (.text []))]).IsProper := by
    refine .folder (by simp) (by simpa using hname.symm) ?_
    simpa using .file _
  refine .folder (by decide) (by decide) ?_
  simp only [mixedEntries, List.forall_mem_cons, List.not_mem_nil, false_implies, implies_true,
    and_true]
  refine ⟨.file _, .file _, hsingle _ (by decide), hsingle _ (by decide), ?_⟩
  refine .folder (by decide) (by decide) ?_
  simp only [List.forall_mem_cons, List.not_mem_nil, false_implies, implies_true, and_true]
  exact ⟨hsingle _ (by decide), .file _⟩

/-- The search starts in a folder that it would not enter. -/
theorem mixed_entries_discovered :
    let fs : FileSystem := { root := .folder [("node_modules", .folder mixedEntries)] }
    ∃ places : List (List FileName), fs.discover? ⟨["node_modules"]⟩ =
        some (places.map (Path.joinAll ⟨["node_modules"]⟩)) ∧
      (∀ place ∈ [["x.js", "deep.tsx"], ["lib", "b.mjs"]], place.map .ofText ∈ places) ∧
      ∀ place ∈ [["x.js"], ["readme.md"], [".hidden.ts"], [".git", "index.js"],
        ["lib", "node_modules", "a.js"]], place.map .ofText ∉ places := by
  intro fs
  obtain ⟨places, hmem, hall⟩ := discovers_visible_files isProper_mixedEntries
  obtain ⟨hdiscover, -⟩ := hall fs ⟨["node_modules"]⟩ ["node_modules"] (by decide +kernel) rfl
  refine ⟨places, hdiscover, ?_⟩
  simp only [hmem, ← isSupportedName_iff, ← FileTree.isHidden_eq_false_iff, List.forall_mem_cons,
    List.not_mem_nil, false_implies, implies_true, and_true]
  refine ⟨⟨⟨⟨_, rfl⟩, ⟨_, rfl, by decide⟩, by decide⟩, ⟨_, rfl⟩, ⟨_, rfl, by decide⟩, by decide⟩,
    ?_, ?_, ?_, ?_, ?_⟩
  · rintro ⟨⟨content, hfile⟩, -⟩
    cases hfile
  · rintro ⟨-, ⟨name, ⟨⟩, hname⟩, -⟩
    exact absurd hname (by decide)
  all_goals
    rintro ⟨-, -, hvisible⟩
    revert hvisible
    decide

/-- Bytes of a name that starts with a dot and is no text. -/
def brokenName : FileName := ⟨⟨#[46, 120, 255, 46, 116, 115]⟩⟩

/-- A name that is no text hides nothing, even if it starts with a dot. -/
theorem broken_names_discovered :
    let inner : FileTree := .folder [(brokenName, .file (.text []))]
    let fs : FileSystem := { root := .folder [("src", .folder [(brokenName, inner)])] }
    brokenName.units.head? = some 46 ∧
      fs.discover? ⟨["src"]⟩ = some [⟨["src", brokenName, brokenName]⟩] := by
  decide +kernel

end FileSystem

end OptionalChain
