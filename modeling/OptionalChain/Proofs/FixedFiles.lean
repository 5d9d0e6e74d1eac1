import Mathlib.Data.List.Basic
import OptionalChain.Proofs.FileOutlines
import OptionalChain.Proofs.FileSearch
import OptionalChain.Proofs.Searches

/-!
# What a fix run leaves in the files

A fix run reports on the texts that it leaves behind: each file that it changes holds the text that
fixing ends with, all other files keep their contents, and a run that only reports finds in the new
tree what the fix run reported.
-/

namespace OptionalChain

/-! ## Names on the way to a file -/

/-- A segment that leads to the entry of its name. -/
def Path.isName (segment : FileName) : Bool := !isIdle segment && segment != ".."

namespace FileSystem

variable {fs fs' : FileSystem} {p q : Path} {place base start : List FileName} {name : FileName}

theorem resolveFrom_append (fs : FileSystem) (place xs ys : List FileName) :
    fs.resolveFrom place (xs ++ ys) =
      (fs.resolveFrom place xs).bind fun place ↦ fs.resolveFrom place ys := by
  induction xs generalizing place with
  | nil => rfl
  | cons x xs ih =>
    simp only [List.cons_append, resolveFrom, ih]
    grind

/-- Names lead to the entries of their names. -/
theorem eq_append_of_resolveFrom {names : List FileName} (hnames : ∀ n ∈ names, Path.isName n)
    (h : fs.resolveFrom base names = some place) : place = base ++ names := by
  induction names generalizing base with
  | nil => simpa [resolveFrom] using h.symm
  | cons name rest ih =>
    have hname : Path.isIdle name = false ∧ name ≠ ".." := by
      simpa [Path.isName] using hnames name (by simp)
    simp only [resolveFrom, hname.1, hname.2, beq_iff_eq, if_false, Bool.false_eq_true] at h
    split at h
    · rw [ih (fun n hn ↦ hnames n (by simp [hn])) h, List.append_assoc, List.singleton_append]
    · cases h

end FileSystem

namespace Path

variable {p : Path} {names : List FileName} {name : FileName}

/-- The segments that a name is put after. -/
def stem (p : Path) : List FileName :=
  if p.segments.getLast? == some (.ofText "") then p.segments.dropLast else p.segments

theorem segments_join (p : Path) (name : FileName) : (p.join name).segments = p.stem ++ [name] := by
  unfold join stem
  split <;> rfl

theorem stem_join (h : name ≠ "") : (p.join name).stem = (p.join name).segments := by
  rw [stem, segments_join]
  simp [h]

theorem segments_joinAll (hne : names ≠ []) (h : .ofText "" ∉ names) :
    (p.joinAll names).segments = p.stem ++ names := by
  induction names generalizing p with
  | nil => exact absurd rfl hne
  | cons name rest ih =>
    obtain ⟨hname, hrest⟩ : .ofText "" ≠ name ∧ .ofText "" ∉ rest := by simpa using h
    cases rest with
    | nil => exact segments_join p name
    | cons next rest =>
      refine (ih (p := p.join name) (by simp) hrest).trans ?_
      rw [stem_join hname.symm, segments_join, List.append_assoc, List.singleton_append]

/-- An empty name is taken back by the next one. -/
theorem join_join_empty (p : Path) (name : FileName) : (p.join "").join name = p.join name := by
  have hstem : (p.join "").stem = p.stem := by simp [stem.eq_def (p.join ""), segments_join]
  have hsegments : ((p.join "").join name).segments = (p.join name).segments := by
    rw [segments_join, segments_join, hstem]
  exact congrArg Path.mk hsegments

theorem joinAll_filter_ne_empty (hlast : names.getLast? ≠ some (.ofText "")) :
    p.joinAll (names.filter (· != .ofText "")) = p.joinAll names := by
  induction names generalizing p with
  | nil => rfl
  | cons name rest ih =>
    cases rest with
    | nil =>
      have hname : name ≠ "" := by simpa using hlast
      simp [hname]
    | cons next rest =>
      have hrest := ih (p := p.join name) (by simpa [List.getLast?_cons_cons] using hlast)
      by_cases hname : name = ""
      · subst hname
        rw [List.filter_cons_of_neg (by simp), ih (by simpa [List.getLast?_cons_cons] using hlast)]
        simp only [joinAll, List.foldl_cons, join_join_empty]
      · rw [List.filter_cons_of_pos (by simpa using hname)]
        exact hrest

end Path

/-! ## Places of the files that are found -/

theorem Path.isName_of_not_isHidden {name : FileName} (h : FileTree.isHidden name = false)
    (hne : name ≠ "") : Path.isName name := by
  have hdot : name ≠ "." := by rintro rfl; revert h; decide
  have hdots : name ≠ ".." := by rintro rfl; revert h; decide
  simp [isName, isIdle, hne, hdot, hdots]

namespace FileSystem

variable {fs fs' : FileSystem} {p q : Path} {place base : List FileName} {name : FileName}
  {files : List Path}

theorem resolveFrom_of_resolve? (h : fs.resolve? p = some place) :
    p.isEmpty = false ∧
      fs.resolveFrom (if p.isAbsolute then [] else fs.here) p.segments = some place := by
  unfold resolve? at h
  split at h
  · cases h
  · exact ⟨Bool.eq_false_iff.2 ‹¬_›, h⟩

/-- The place of a folder is found without a slash at the end of its path. -/
theorem resolveFrom_stem (start : List FileName)
    (h : fs.resolveFrom start p.segments = some base) :
    fs.resolveFrom start p.stem = some base := by
  unfold Path.stem
  split
  · rename_i hlast
    obtain ⟨init, hinit⟩ := List.getLast?_eq_some_iff.1 (by simpa using hlast)
    rw [hinit, resolveFrom_append] at h
    obtain ⟨place, hplace, hend⟩ := Option.bind_eq_some_iff.1 h
    rw [hinit, List.dropLast_concat, hplace]
    simp only [resolveFrom, Path.isIdle, beq_self_eq_true, Bool.true_or, if_true] at hend
    split at hend
    · exact hend
    · cases hend
  · exact h

theorem isAbsolute_joinAll {names : List FileName} (hne : names ≠ []) (h : .ofText "" ∉ names)
    (hp : p.isEmpty = false) : (p.joinAll names).isAbsolute = p.isAbsolute := by
  have hsegments := Path.segments_joinAll (p := p) hne h
  obtain ⟨segments⟩ := p
  obtain ⟨name, rest, rfl⟩ := List.exists_cons_of_ne_nil hne
  have hname : name ≠ "" := fun heq ↦ h (by simp [heq])
  have hempty : (Path.joinAll ⟨segments⟩ (name :: rest)).isEmpty = false := by
    simp only [Path.isEmpty, hsegments, beq_eq_false_iff_ne]
    intro heq
    have hmem : name ∈ [.ofText ""] := heq ▸ (by simp)
    exact hname (by simpa using hmem)
  simp only [Path.isAbsolute, hempty, hp, hsegments]
  match segments with
  | [] => simp [Path.stem, hname]
  | [first] =>
    have hfirst : first ≠ "" := by simpa [Path.isEmpty] using hp
    simp [Path.stem, hfirst]
  | first :: second :: _ =>
    unfold Path.stem
    split <;> simp

/-- The place of a path below a folder. -/
theorem eq_append_of_resolve?_joinAll {names : List FileName} (hne : names ≠ [])
    (hnames : ∀ n ∈ names, Path.isName n) (hp : fs.resolve? p = some base)
    (h : fs.resolve? (p.joinAll names) = some place) : place = base ++ names := by
  have hempty : .ofText "" ∉ names := fun hmem ↦ absurd (hnames "" hmem) (by decide)
  obtain ⟨hpne, hbase⟩ := resolveFrom_of_resolve? hp
  obtain ⟨-, hplace⟩ := resolveFrom_of_resolve? h
  rw [isAbsolute_joinAll hne hempty hpne, Path.segments_joinAll hne hempty, resolveFrom_append,
    resolveFrom_stem _ hbase, Option.bind_some] at hplace
  exact eq_append_of_resolveFrom hnames hplace

/-- A path to a file ends with the name of the file. -/
theorem getLast?_of_hasFile (h : fs.HasFile p place) (hname : p.name?.any isSupportedName) :
    place.getLast?.any isSupportedName := by
  obtain ⟨hplace, content, hget⟩ := h
  obtain ⟨-, hfrom⟩ := resolveFrom_of_resolve? hplace
  obtain ⟨name, hsome, hsupported⟩ : ∃ name, p.name? = some name ∧ isSupportedName name := by
    simpa [Option.any_eq_true] using hname
  have hfolder : fs.isFolderAt place = false := by simp [isFolderAt, hget, FileTree.isFolder]
  obtain ⟨segments⟩ := p
  obtain rfl | ⟨init, last, rfl⟩ := List.eq_nil_or_concat segments
  · cases hsome
  rw [List.concat_eq_append, resolveFrom_append] at hfrom
  obtain ⟨above, -, hlast⟩ := Option.bind_eq_some_iff.1 hfrom
  simp only [resolveFrom] at hlast
  split at hlast
  -- A segment that leads nowhere stands after a folder.
  · split at hlast
    · obtain rfl : above = place := by simpa using hlast
      simp_all
    · cases hlast
  · rename_i hidle
    have hlastName : Path.name? ⟨init ++ [last]⟩ = some last := by
      have htrim : Path.trim (init ++ [last]) = init ++ [last] := by
        simp [Path.trim, hidle]
      unfold Path.name?
      split
      · simp_all
      · rename_i heq
        rw [← heq, htrim, List.getLast?_concat]
    obtain rfl : name = last := by
      rw [List.concat_eq_append, hlastName] at hsome
      simpa using hsome.symm
    split at hlast
    · rename_i hdots
      exact absurd hsupported (by rw [beq_iff_eq.1 hdots]; decide)
    · split at hlast
      · obtain rfl : above ++ [name] = place := by simpa using hlast
        simpa using hsupported
      · cases hlast

/-- What is known about the place of a file that a search finds. -/
theorem exists_names_of_mem_discover? (h : fs.discover? p = some files) (hq : q ∈ files) :
    q = p ∧ files = [p] ∧ p.name?.any isSupportedName ∨
      ∃ base names, fs.resolve? p = some base ∧ names ≠ [] ∧ (∀ n ∈ names, Path.isName n) ∧
        names.getLast?.any isSupportedName ∧ q = p.joinAll names := by
  obtain ⟨t, hat, hfiles⟩ := Option.map_eq_some_iff.1 h
  obtain ⟨base, hbase, hget⟩ := Option.bind_eq_some_iff.1 hat
  cases t with
  | file content =>
    dsimp only at hfiles
    split at hfiles
    · rename_i hname
      subst hfiles
      exact .inl ⟨by simpa using hq, rfl, hname⟩
    · subst hfiles
      cases hq
  | folder entries =>
    subst hfiles
    obtain ⟨e, he, rfl⟩ := List.mem_map.1 hq
    obtain ⟨-, hlast, hvisible⟩ :=
      FileTree.mem_names_supported_folder_iff.1 (List.mem_map_of_mem he)
    obtain ⟨names, -, -, rfl, -⟩ := FileTree.mem_supported_iff.1 he
    obtain ⟨last, hsome, hsupported⟩ : ∃ last, names.getLast? = some last ∧
        isSupportedName last = true := by simpa [Option.any_eq_true] using hlast
    have hlastNe : last ≠ "" := by
      rintro rfl
      revert hsupported
      decide
    obtain ⟨init, rfl⟩ := List.getLast?_eq_some_iff.1 hsome
    refine .inr ⟨base, (init ++ [last]).filter (· != .ofText ""), hbase, ?_, fun n hn ↦ ?_, ?_, ?_⟩
    · simp [hlastNe]
    · obtain ⟨hn, hne⟩ := List.mem_filter.1 hn
      exact Path.isName_of_not_isHidden (hvisible n hn) (by simpa using hne)
    · simp [List.filter_append, hlastNe, hsupported]
    · exact (Path.joinAll_filter_ne_empty (by simpa using hlastNe)).symm

/-- Files that are found have supported names. -/
theorem isSupportedName_of_mem_discover? (h : fs.discover? p = some files) (hq : q ∈ files)
    (hfile : fs.HasFile q place) : place.getLast?.any isSupportedName := by
  obtain ⟨rfl, -, hname⟩ | ⟨base, names, hbase, hne, hnames, hlast, rfl⟩ :=
    exists_names_of_mem_discover? h hq
  · exact getLast?_of_hasFile hfile hname
  · obtain ⟨last, hsome, -⟩ : ∃ last, names.getLast? = some last ∧ isSupportedName last := by
      simpa [Option.any_eq_true] using hlast
    rw [eq_append_of_resolve?_joinAll hne hnames hbase hfile.1, List.getLast?_append, hsome]
    rwa [hsome] at hlast

/-- Two paths that a search finds lead to different files. -/
theorem eq_of_mem_discover? (h : fs.discover? p = some files) {q q' : Path} (hq : q ∈ files)
    (hq' : q' ∈ files) (hfile : fs.HasFile q place) (hfile' : fs.HasFile q' place) : q = q' := by
  obtain ⟨rfl, rfl, -⟩ | ⟨base, names, hbase, hne, hnames, -, rfl⟩ :=
    exists_names_of_mem_discover? h hq
  · exact (List.mem_singleton.1 hq').symm
  · obtain ⟨rfl, rfl, -⟩ | ⟨base', names', hbase', hne', hnames', -, rfl⟩ :=
      exists_names_of_mem_discover? h hq'
    · exact List.mem_singleton.1 hq
    · obtain rfl : base = base' := by simpa [hbase] using hbase'
      have heq := eq_append_of_resolve?_joinAll hne hnames hbase hfile.1
      rw [eq_append_of_resolve?_joinAll hne' hnames' hbase hfile'.1] at heq
      rw [List.append_cancel_left heq]

/-! ## The configuration -/

/-- The place of a configuration file has its name. -/
theorem getLast?_of_resolve?_join (hname : Path.isName name)
    (h : fs.resolve? (p.join name) = some place) : place.getLast? = some name := by
  obtain ⟨-, hfrom⟩ := resolveFrom_of_resolve? h
  rw [Path.segments_join, resolveFrom_append] at hfrom
  obtain ⟨above, -, hlast⟩ := Option.bind_eq_some_iff.1 hfrom
  rw [eq_append_of_resolveFrom (by simpa using hname) hlast, List.getLast?_concat]

/-- The configuration is read from files of its name only. -/
theorem configWithWarningsAt_congr (h : fs.outline = fs'.outline)
    (hcontent : ∀ place, place.getLast? = some configFileName →
      fs.root.contentAt? place = fs'.root.contentAt? place) (tables : TableReader) (start : Path) :
    fs.configWithWarningsAt tables start = fs'.configWithWarningsAt tables start := by
  have hfind : fs.findConfig? start = fs'.findConfig? start := by
    simp only [findConfig?_eq_find?, funext (exists?_congr h)]
  have hread : ∀ p, fs.findConfig? start = some p → fs.read p = fs'.read p := by
    intro p hp
    rw [findConfig?_eq_find?] at hp
    obtain ⟨folder, -, rfl⟩ := List.mem_map.1 (List.mem_of_find?_eq_some hp)
    refine read_congr h fun place hplace ↦ hcontent place ?_
    exact getLast?_of_resolve?_join (by decide) hplace
  unfold configWithWarningsAt
  rw [← hfind]
  cases hp : fs.findConfig? start with
  | none => rfl
  | some p => simp only [loadConfigWithWarnings, readConfig, hread p hp]

end FileSystem

/-! ## Runs -/

/-- The text that a fix run leaves in a file. -/
def Engine.FixRun.textLeft (run : FixRun) (content : List Char) : List Char :=
  if run.output.applied = 0 then content else run.output.output

/-- The report as a run gives it that finds the text there. -/
def FileReport.unfixed (x : FileReport) : FileReport := { x with isFixed := false }

namespace Engine

variable {e : Engine} {p : Path} {content : List Char} {x : FileReport}

theorem fields_of_report? (h : e.report? p content = some x) :
    x.path = p ∧ x.content = content ∧ x.isFixed = false := by
  obtain ⟨report, -, hx⟩ := Option.bind_eq_some_iff.1 h
  obtain rfl := Option.some.inj hx
  exact ⟨rfl, rfl, rfl⟩

/-- The report of a fix run is that on the text it leaves. -/
theorem exists_run_of_fixAndReport? (h : e.fixAndReport? p content = some x) :
    ∃ run, e.fixUntilStable? p.toText content false = some run ∧
      e.report? p (run.textLeft content) = some x.unfixed ∧ x.isFixed = run.output.changed := by
  obtain ⟨run, hrun, hx⟩ := Option.bind_eq_some_iff.1 h
  refine ⟨run, hrun, ?_⟩
  by_cases happlied : run.output.applied = 0
  · have hreport : e.report? p content = some x := by
      simpa [FixOutput.changed, happlied] using hx
    obtain ⟨-, -, hfixed⟩ := fields_of_report? hreport
    have hsame : x.unfixed = x := by rw [FileReport.unfixed, ← hfixed]
    exact ⟨by rw [FixRun.textLeft, if_pos happlied, hsame, hreport],
      by simp [hfixed, FixOutput.changed, happlied]⟩
  · have hchanged : run.output.changed = true := by
      simp [FixOutput.changed, Nat.pos_iff_ne_zero, happlied]
    obtain ⟨y, hy, rfl⟩ : ∃ y, e.report? p run.output.output = some y ∧
        { y with isFixed := true } = x := by simpa [hchanged, Option.bind_eq_some_iff] using hx
    obtain ⟨-, -, hfixed⟩ := fields_of_report? hy
    rw [FixRun.textLeft, if_neg happlied, hy, hchanged]
    exact ⟨by rw [FileReport.unfixed, ← hfixed], rfl⟩

end Engine

namespace CheckRun

/-- The run as it is if all texts are there. -/
def unfixed (r : CheckRun) : CheckRun := { r with reports := r.reports.map (·.unfixed) }

@[simp] theorem files_unfixed (r : CheckRun) : r.unfixed.files = r.files := rfl

@[simp] theorem diagnostics_unfixed (r : CheckRun) : r.unfixed.diagnostics = r.diagnostics := by
  simp [diagnostics, unfixed, List.flatMap_map, FileReport.unfixed]

theorem summary_unfixed (r : CheckRun) :
    r.unfixed.summary = { r.summary with fixedFiles := 0 } := by
  have hfixed : r.unfixed.fixed = [] := by
    simp [fixed, unfixed, FileReport.unfixed]
  simp [summary, hfixed]

/-- The texts that a run writes back. -/
def writes (r : CheckRun) : List (Path × List Char) := r.fixed.map fun x ↦ (x.path, x.content)

/-- What a fix run on `fs` has done when it leaves `after`: the tree keeps its outline, each file
that was found and could be read holds the text that fixing it ends with, and everything else holds
what it held. -/
structure Leaves (r : CheckRun) (fs after : FileSystem) : Prop where
  outline : after.outline = fs.outline
  read : ∀ p ∈ r.files, ∀ content, fs.read p = .ok content →
    ∃ run, r.engine.fixUntilStable? p.toText content false = some run ∧
      after.read p = .ok (run.textLeft content)
  kept : ∀ place, (∀ p ∈ r.files, ∀ content, fs.read p = .ok content →
    fs.resolve? p = some place → ∀ run,
      r.engine.fixUntilStable? p.toText content false = some run → run.output.applied = 0) →
    after.root.contentAt? place = fs.root.contentAt? place

end CheckRun

namespace FileSystem

variable {fs : FileSystem} {c : Config} {fix : Bool} {p q : Path} {r : CheckRun} {text : List Char}

theorem check_eq_ok_iff : fs.check c fix p = .ok r ↔
    fs.discover? p = some r.files ∧ r.engine = Engine.ofConfig c ∧
      (fs.readable r.files).mapM (fun w ↦ r.engine.checkText? fix w.1 w.2) = some r.reports := by
  obtain ⟨engine, files, reports⟩ := r
  unfold check
  cases fs.discover? p with
  | none => simp
  | some found =>
    dsimp only
    constructor
    · intro h
      split at h
      · cases h
      · rename_i hreports
        cases h
        exact ⟨rfl, rfl, hreports⟩
    · rintro ⟨hfiles, rfl, hreports⟩
      obtain rfl := Option.some.inj hfiles
      rw [hreports]

theorem mem_readable_iff {files : List Path} :
    (q, text) ∈ fs.readable files ↔ q ∈ files ∧ fs.read q = .ok text := by
  have hread (q' : Path) : (fs.read q').toOption.map (q', ·) = some (q, text) ↔
      q' = q ∧ fs.read q = .ok text := by
    cases hread : fs.read q' with
    | error fault => grind [Except.toOption]
    | ok content => grind [Except.toOption]
  simp only [readable, List.mem_filterMap, hread]
  exact ⟨fun ⟨_, hq, rfl, h⟩ ↦ ⟨hq, h⟩, fun ⟨hq, h⟩ ↦ ⟨q, hq, rfl, h⟩⟩

/-- A fix run has a report for each file that was found and could be read. -/
theorem exists_report_of_read (h : fs.check c true p = .ok r) (hq : q ∈ r.files)
    (hread : fs.read q = .ok text) :
    ∃ x ∈ r.reports, r.engine.fixAndReport? q text = some x := by
  obtain ⟨-, -, hreports⟩ := check_eq_ok_iff.1 h
  have hmem := List.mem_map_of_mem (f := fun w ↦ r.engine.checkText? true w.1 w.2)
    (mem_readable_iff.2 ⟨hq, hread⟩)
  rw [mapM_eq_some_iff.1 hreports] at hmem
  obtain ⟨x, hx, heq⟩ := List.mem_map.1 hmem
  exact ⟨x, hx, heq.symm⟩

/-- A text is written for each file that was found, could be read and had a fix. -/
theorem mem_writes_iff (h : fs.check c true p = .ok r) :
    (q, text) ∈ r.writes ↔ q ∈ r.files ∧ ∃ content run, fs.read q = .ok content ∧
      r.engine.fixUntilStable? q.toText content false = some run ∧ run.output.applied ≠ 0 ∧
      run.textLeft content = text := by
  simp only [CheckRun.writes, CheckRun.fixed, List.mem_map, List.mem_filter]
  constructor
  · rintro ⟨x, ⟨hx, hfixed⟩, heq⟩
    obtain ⟨-, -, hreports⟩ := check_eq_ok_iff.1 h
    obtain ⟨⟨q', content⟩, hmem, hmade⟩ := exists_of_mem_mapM hreports hx
    obtain ⟨hq, hread⟩ := mem_readable_iff.1 hmem
    obtain ⟨run, hrun, hreport, hchanged⟩ := Engine.exists_run_of_fixAndReport? hmade
    obtain ⟨rfl, rfl⟩ := Prod.mk.inj heq
    obtain ⟨rfl, htext, -⟩ := Engine.fields_of_report? hreport
    refine ⟨hq, content, run, hread, hrun, ?_, htext.symm⟩
    rw [hchanged] at hfixed
    exact Nat.pos_iff_ne_zero.1 (by simpa [FixOutput.changed] using hfixed)
  · rintro ⟨hq, content, run, hread, hrun, happlied, rfl⟩
    obtain ⟨x, hx, hmade⟩ := exists_report_of_read h hq hread
    obtain ⟨run', hrun', hreport, hchanged⟩ := Engine.exists_run_of_fixAndReport? hmade
    obtain rfl := Option.some.inj (hrun.symm.trans hrun')
    obtain ⟨hpath, htext, -⟩ := Engine.fields_of_report? hreport
    refine ⟨x, ⟨hx, ?_⟩, Prod.ext hpath htext⟩
    rw [hchanged]
    simpa [FixOutput.changed] using Nat.pos_iff_ne_zero.2 happlied

theorem hasFile_of_mem_writes (h : fs.check c true p = .ok r) :
    ∀ w ∈ r.writes, ∃ place, fs.HasFile w.1 place := by
  intro w hw
  obtain ⟨-, content, -, hread, -⟩ := (mem_writes_iff h).1 hw
  obtain ⟨place, hfile, -⟩ := HasFile.of_read hread
  exact ⟨place, hfile⟩

/-- Nothing is written where no file had a fix. -/
theorem contentAt?_writes_of_forall (h : fs.check c true p = .ok r) {place : List FileName}
    (hplace : ∀ q ∈ r.files, ∀ content, fs.read q = .ok content → fs.resolve? q = some place →
      ∀ run, r.engine.fixUntilStable? q.toText content false = some run →
        run.output.applied = 0) :
    (fs.writeAll r.writes).root.contentAt? place = fs.root.contentAt? place := by
  refine contentAt?_writeAll_of_forall_ne (hasFile_of_mem_writes h) fun w hw hresolve ↦ ?_
  obtain ⟨hq, content, run, hread, hrun, happlied, -⟩ := (mem_writes_iff h).1 hw
  exact happlied (hplace w.1 hq content hread hresolve run hrun)

/-- A file that was found and could be read holds the text that is left of it. -/
theorem read_writes (h : fs.check c true p = .ok r) (hq : q ∈ r.files)
    (hread : fs.read q = .ok text) {run : Engine.FixRun}
    (hrun : r.engine.fixUntilStable? q.toText text false = some run) :
    (fs.writeAll r.writes).read q = .ok (run.textLeft text) := by
  obtain ⟨hfiles, -, -⟩ := check_eq_ok_iff.1 h
  obtain ⟨place, hfile, hcontent⟩ := HasFile.of_read hread
  have houtline := outline_writeAll (hasFile_of_mem_writes h)
  -- Whatever is written to the place is written for this path, and so from this text.
  have honly {q' : Path} {content : List Char} {run' : Engine.FixRun} (hq' : q' ∈ r.files)
      (hread' : fs.read q' = .ok content) (hresolve : fs.resolve? q' = some place)
      (hrun' : r.engine.fixUntilStable? q'.toText content false = some run') :
      content = text ∧ run' = run := by
    obtain rfl := eq_of_mem_discover? hfiles hq' hq (.of_read_of_resolve? hread' hresolve) hfile
    obtain rfl : text = content := by simpa [hread] using hread'
    exact ⟨rfl, Option.some.inj (hrun'.symm.trans hrun)⟩
  refine read_eq_of_contentAt? ((resolve?_congr houtline q).trans hfile.1) ?_
  by_cases happlied : run.output.applied = 0
  · rw [contentAt?_writes_of_forall h, hcontent]
    · simp [Engine.FixRun.textLeft, happlied]
    · intro q' hq' content hread' hresolve run' hrun'
      rwa [(honly hq' hread' hresolve hrun').2]
  · refine contentAt?_writeAll_of_mem (hasFile_of_mem_writes h)
      ((mem_writes_iff h).2 ⟨hq, text, run, hread, hrun, happlied, rfl⟩) hfile.1
      fun w hw hresolve ↦ ?_
    obtain ⟨hq', content, run', hread', hrun', -, hwritten⟩ := (mem_writes_iff h).1 hw
    obtain ⟨rfl, rfl⟩ := honly hq' hread' hresolve hrun'
    exact hwritten.symm

/-- A file that was found and cannot be read stays as it is. -/
theorem read_writes_of_error (h : fs.check c true p = .ok r) (hq : q ∈ r.files)
    {fault : ReadFault} (hread : fs.read q = .error fault) :
    (fs.writeAll r.writes).read q = .error fault := by
  obtain ⟨hfiles, -, -⟩ := check_eq_ok_iff.1 h
  have houtline := outline_writeAll (hasFile_of_mem_writes h)
  refine (read_congr houtline fun place hplace ↦ ?_).trans hread
  refine contentAt?_writes_of_forall h fun q' hq' content hread' hresolve _ _ ↦ ?_
  have hfile' := HasFile.of_read_of_resolve? hread' hresolve
  have hfile : fs.HasFile q place := ⟨by rwa [resolve?_congr houtline] at hplace, hfile'.2⟩
  obtain rfl := eq_of_mem_discover? hfiles hq' hq hfile' hfile
  rw [hread'] at hread
  cases hread

theorem leaves_writes (h : fs.check c true p = .ok r) : r.Leaves fs (fs.writeAll r.writes) where
  outline := outline_writeAll (hasFile_of_mem_writes h)
  read q hq content hread := by
    obtain ⟨x, -, hmade⟩ := exists_report_of_read h hq hread
    obtain ⟨run, hrun, -⟩ := Engine.exists_run_of_fixAndReport? hmade
    exact ⟨run, hrun, read_writes h hq hread hrun⟩
  kept _ hplace := contentAt?_writes_of_forall h hplace

/-- The report on a file in the new tree. -/
theorem report?_writes (h : fs.check c true p = .ok r) (hq : q ∈ r.files) :
    ((fs.writeAll r.writes).read q).toOption.map (r.engine.report? q) =
      (fs.read q).toOption.map fun content ↦
        (r.engine.fixAndReport? q content).map (·.unfixed) := by
  cases hread : fs.read q with
  | error fault => rw [read_writes_of_error h hq hread]; rfl
  | ok content =>
    obtain ⟨x, -, hmade⟩ := exists_report_of_read h hq hread
    obtain ⟨run, hrun, hreport, -⟩ := Engine.exists_run_of_fixAndReport? hmade
    rw [read_writes h hq hread hrun]
    simp [Except.toOption, hreport, hmade]

/-- A run that only reports finds in the new tree what the fix run reported. -/
theorem check_writes (h : fs.check c true p = .ok r) :
    (fs.writeAll r.writes).check c false p = .ok r.unfixed := by
  obtain ⟨hfiles, hengine, hreports⟩ := check_eq_ok_iff.1 h
  have houtline := outline_writeAll (hasFile_of_mem_writes h)
  refine check_eq_ok_iff.2 ⟨(discover?_congr houtline p).trans hfiles, hengine, ?_⟩
  rw [mapM_eq_some_iff] at hreports ⊢
  calc ((fs.writeAll r.writes).readable r.files).map (fun w ↦ r.engine.report? w.1 w.2)
    _ = ((fs.readable r.files).map fun w ↦ r.engine.fixAndReport? w.1 w.2).map
          (Option.map (·.unfixed)) := by
      simp only [readable, List.map_filterMap, Option.map_map]
      exact List.filterMap_congr fun q hq ↦ report?_writes h hq
    _ = (r.reports.map some).map (Option.map (·.unfixed)) := congrArg _ hreports
    _ = (r.reports.map (·.unfixed)).map some := by simp

/-- The configuration is not among the files that are written. -/
theorem configWithWarningsAt_writes (h : fs.check c true p = .ok r) (tables : TableReader)
    (start : Path) : (fs.writeAll r.writes).configWithWarningsAt tables start =
      fs.configWithWarningsAt tables start := by
  obtain ⟨hfiles, -, -⟩ := check_eq_ok_iff.1 h
  refine configWithWarningsAt_congr (outline_writeAll (hasFile_of_mem_writes h))
    (fun place hlast ↦ ?_) tables start
  refine contentAt?_writes_of_forall h fun q hq content hread hresolve _ _ ↦ ?_
  have hsupported :=
    isSupportedName_of_mem_discover? hfiles hq (.of_read_of_resolve? hread hresolve)
  rw [hlast] at hsupported
  exact absurd hsupported (by decide)

/-! ## Two runs of the command -/

variable {s : Surroundings} {o : CheckOptions}

theorem runCheck_of_check (h : fs.check (fs.configWithWarningsAt Toml.reader o.path).config o.fix
    o.path = .ok r) :
    (fs.runCheck s o).outcome = .ok r.summary ∧ (fs.runCheck s o).writes = r.writes := by
  constructor <;> simp only [runCheck, h, CheckRun.writes]

theorem exists_check_of_outcome {summary : CheckSummary}
    (h : (fs.runCheck s o).outcome = .ok summary) :
    ∃ r, fs.check (fs.configWithWarningsAt Toml.reader o.path).config o.fix o.path = .ok r := by
  cases hrun : fs.check (fs.configWithWarningsAt Toml.reader o.path).config o.fix o.path with
  | error fault => simp [runCheck, hrun] at h
  | ok r => exact ⟨r, rfl⟩

/-- A fix run that succeeds leaves the files as it says, and a run that only reports, made on what
is left, finds the same configuration, files and diagnostics and counts the same. -/
theorem fix_run_reports_what_it_leaves (fs : FileSystem) (s s' : Surroundings) (o : CheckOptions)
    (summary : CheckSummary) (hfix : o.fix = true)
    (hok : (fs.runCheck s o).outcome = .ok summary) :
    let after := fs.writeAll (fs.runCheck s o).writes
    let loaded := fs.configWithWarningsAt Toml.reader o.path
    ∃ run again : CheckRun,
      fs.check loaded.config true o.path = .ok run ∧ run.summary = summary ∧
      run.Leaves fs after ∧
      after.configWithWarningsAt Toml.reader o.path = loaded ∧
      after.check loaded.config false o.path = .ok again ∧
      again.files = run.files ∧ again.diagnostics = run.diagnostics ∧
      (after.runCheck s' { o with fix := false }).outcome =
        .ok { summary with fixedFiles := 0 } := by
  intro after loaded
  obtain ⟨run, hrun⟩ := exists_check_of_outcome hok
  obtain ⟨houtcome, hwrites⟩ := runCheck_of_check (s := s) hrun
  rw [hfix] at hrun
  have hsummary : run.summary = summary := by
    rw [houtcome] at hok
    simpa using hok
  have hafter : after = fs.writeAll run.writes := congrArg fs.writeAll hwrites
  have hconfig : after.configWithWarningsAt Toml.reader o.path = loaded := by
    rw [hafter, configWithWarningsAt_writes hrun]
  have hagain : after.check loaded.config false o.path = .ok run.unfixed := by
    rw [hafter]
    exact check_writes hrun
  refine ⟨run, run.unfixed, hrun, hsummary, hafter ▸ leaves_writes hrun, hconfig, hagain,
    run.files_unfixed, run.diagnostics_unfixed, ?_⟩
  have hsecond : (after.runCheck s' { o with fix := false }).outcome = .ok run.unfixed.summary :=
    (runCheck_of_check (by rw [hconfig]; exact hagain)).1
  rw [hsecond, CheckRun.summary_unfixed, hsummary]

/-- A file with a guard to fix, one with a guard that is only reported, one that cannot be read and
one that is not looked at. -/
def guardedSources : FileTree := .folder
  [("b.ts", .file (.text "bar && bar.baz;".toList)),
    ("a.ts", .file (.text "foo != null && foo.bar;".toList)),
    ("c.ts", .file (.binary [255])),
    ("a.txt", .file (.text "foo != null && foo.bar;".toList))]

def guardedTree : FileSystem where
  root := .folder
    [("chainlint.toml", .file (.text "[rules]\ndisabled = []\n".toList)), ("src", guardedSources)]

theorem discover?_guardedTree : guardedTree.discover? ⟨["src"]⟩ =
    some [⟨["src", "a.ts"]⟩, ⟨["src", "b.ts"]⟩, ⟨["src", "c.ts"]⟩] := by
  have hfound : (((guardedSources.search (!·.isHidden) ⟨["src"]⟩ []).filter (!·.isFolder)).filter
      (isSupportedName ·.name)) =
      [⟨⟨["src"]⟩, ["b.ts"], false⟩, ⟨⟨["src"]⟩, ["a.ts"], false⟩,
        ⟨⟨["src"]⟩, ["c.ts"], false⟩] := by
    decide +kernel
  obtain ⟨hba, hac, hbc⟩ : placeLe ["b.ts"] ["a.ts"] = false ∧ placeLe ["a.ts"] ["c.ts"] = true ∧
      placeLe ["b.ts"] ["c.ts"] = true := by
    decide +kernel
  have hsorted : guardedSources.supported ⟨["src"]⟩ =
      [⟨⟨["src"]⟩, ["a.ts"], false⟩, ⟨⟨["src"]⟩, ["b.ts"], false⟩,
        ⟨⟨["src"]⟩, ["c.ts"], false⟩] := by
    rw [FileTree.supported, hfound]
    simp [List.mergeSort, hba, hac, hbc]
  change some ((guardedSources.supported ⟨["src"]⟩).map _) = _
  rw [hsorted]
  rfl

def guardedOptions : CheckOptions := { path := ⟨["src"]⟩, fix := true }

def guardedFixes : CheckRun :=
  let engine := Engine.ofConfig
    (guardedTree.configWithWarningsAt Toml.reader guardedOptions.path).config
  let files : List Path := [⟨["src", "a.ts"]⟩, ⟨["src", "b.ts"]⟩, ⟨["src", "c.ts"]⟩]
  let reports := (guardedTree.readable files).filterMap fun w ↦ engine.checkText? true w.1 w.2
  { engine, files, reports }

theorem check_guardedTree : guardedTree.check
    (guardedTree.configWithWarningsAt Toml.reader guardedOptions.path).config guardedOptions.fix
    guardedOptions.path = .ok guardedFixes :=
  check_eq_ok_iff.2 ⟨discover?_guardedTree, rfl, by decide +kernel⟩

/-- One file is fixed, and the guard that is left is reported by both runs. -/
theorem guarded_tree_reported_alike :
    let s : Surroundings := { workingDirectory := "/" }
    let after := guardedTree.writeAll (guardedTree.runCheck s guardedOptions).writes
    (guardedTree.runCheck s guardedOptions).outcome =
        .ok { files := 3, errors := 0, warnings := 1, fixedFiles := 1 } ∧
      after.read ⟨["src", "a.ts"]⟩ = .ok "foo?.bar;".toList ∧
      after.read ⟨["src", "b.ts"]⟩ = .ok "bar && bar.baz;".toList ∧
      after.root.contentAt? ["src", "a.txt"] = some (.text "foo != null && foo.bar;".toList) ∧
      (after.runCheck s { guardedOptions with fix := false }).outcome =
        .ok { files := 3, errors := 0, warnings := 1, fixedFiles := 0 } := by
  intro s after
  let left (p : Path) (content : List Char) :=
    (guardedFixes.engine.fixUntilStable? p.toText content false).map (·.textLeft content)
  obtain ⟨hsummary, hfixed, hunfixed⟩ :
      guardedFixes.summary = { files := 3, errors := 0, warnings := 1, fixedFiles := 1 } ∧
      left ⟨["src", "a.ts"]⟩ "foo != null && foo.bar;".toList = some "foo?.bar;".toList ∧
      left ⟨["src", "b.ts"]⟩ "bar && bar.baz;".toList = some "bar && bar.baz;".toList := by
    decide +kernel
  have hok : (guardedTree.runCheck s guardedOptions).outcome =
      .ok { files := 3, errors := 0, warnings := 1, fixedFiles := 1 } :=
    (runCheck_of_check check_guardedTree).1.trans (congrArg _ hsummary)
  obtain ⟨run, -, hrun, -, hleaves, -, -, -, -, hagain⟩ :=
    fix_run_reports_what_it_leaves guardedTree s s guardedOptions _ rfl hok
  obtain rfl : guardedFixes = run := Except.ok.inj (check_guardedTree.symm.trans hrun)
  have hread {p : Path} {content text : List Char} (hp : p ∈ guardedFixes.files)
      (hcontent : guardedTree.read p = .ok content) (hleft : left p content = some text) :
      after.read p = .ok text := by
    obtain ⟨run, hrun, hread⟩ := hleaves.read p hp content hcontent
    obtain rfl : run.textLeft content = text := by simpa [left, hrun] using hleft
    exact hread
  refine ⟨hok, hread (by simp [guardedFixes]) (by decide +kernel) hfixed,
    hread (by simp [guardedFixes]) (by decide +kernel) hunfixed, ?_, hagain⟩
  have hne : ∀ p ∈ guardedFixes.files,
      guardedTree.resolve? p ≠ some [.ofText "src", .ofText "a.txt"] := by
    decide +kernel
  exact hleaves.kept _ fun p hp content _ hresolve ↦ absurd hresolve (hne p hp)

end FileSystem

end OptionalChain
