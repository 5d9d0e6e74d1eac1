import OptionalChain.Proofs.FixedFiles

/-!
# Configuration files in the folders above

The lookup of a configuration file goes up a path by its text. If nothing in the path leads up, it
goes through the folders on the way from the place of the path to where the path starts: the root,
or the folder that relative paths start from.
-/

namespace OptionalChain

/-! ## Names on a path -/

namespace Path

variable {p q : Path} {segments : List FileName} {name : FileName}

/-- The segments that lead somewhere. -/
def namesOf (segments : List FileName) : List FileName :=
  segments.filter fun s ↦ !isIdle s

/-- No segment leads up. -/
def IsDownward (p : Path) : Prop := .ofText ".." ∉ p.segments

theorem namesOf_append (xs ys : List FileName) : namesOf (xs ++ ys) = namesOf xs ++ namesOf ys :=
  List.filter_append ..

theorem namesOf_trim (segments : List FileName) : namesOf (trim segments) = namesOf segments := by
  have hidle : namesOf (segments.reverse.takeWhile isIdle) = [] := by
    rw [namesOf, List.filter_eq_nil_iff]
    intro s hs
    simpa using List.all_eq_true.1 List.all_takeWhile s hs
  have hsplit := congrArg namesOf
    (List.takeWhile_append_dropWhile (p := isIdle) (l := segments.reverse))
  rw [namesOf_append, hidle, List.nil_append] at hsplit
  simp only [namesOf, trim, List.filter_reverse] at hsplit ⊢
  rw [hsplit, List.reverse_reverse]

theorem namesOf_cons (first : FileName) (rest : List FileName) :
    namesOf (first :: rest) = namesOf [first] ++ namesOf rest :=
  namesOf_append [first] rest

/-- One name less is on the way to the folder above. -/
theorem namesOf_parent? (h : p.parent? = some q) :
    namesOf q.segments = (namesOf p.segments).dropLast := by
  obtain ⟨first, rest, hp, ⟨-, hrest, hq⟩ | ⟨init, last, hrest, hq⟩⟩ := exists_segments_of_parent? h
  · have hnone : namesOf rest = [] := by rw [← namesOf_trim, hrest]; rfl
    have hfirst : (namesOf [first]).dropLast = [] := by
      cases hidle : isIdle first <;> simp [namesOf, hidle]
    rw [hp, hq, namesOf_cons first, hnone, List.append_nil, hfirst]
    rfl
  · have hlast : namesOf [last] = [last] := by
      simp [namesOf, isIdle_of_trim_eq_append hrest]
    have hnames : namesOf rest = namesOf init ++ [last] := by
      rw [← namesOf_trim, hrest, namesOf_append, hlast]
    have habove : namesOf (if first == "" && (trim init).isEmpty then [.ofText ""] else trim init) =
        namesOf init := by
      rw [← namesOf_trim init]
      split
      · simp_all [namesOf, isIdle]
      · rfl
    rw [hp, hq, namesOf_cons, habove, namesOf_cons first rest, hnames, ← List.append_assoc,
      List.dropLast_concat]

theorem namesOf_eq_nil_of_parent? (h : p.parent? = none) : namesOf p.segments = [] := by
  unfold parent? at h
  split at h
  · rename_i hsegments
    rw [hsegments]
    rfl
  · rename_i first rest hsegments
    dsimp only at h
    split at h
    · rename_i hrest
      obtain rfl : first = "" := by simpa using h
      rw [hsegments, namesOf_cons, ← namesOf_trim rest, List.isEmpty_iff.1 hrest]
      rfl
    · cases h

theorem isAbsolute_iff :
    p.isAbsolute = true ↔ ∃ rest, rest ≠ [] ∧ p.segments = .ofText "" :: rest := by
  obtain ⟨segments⟩ := p
  cases segments with
  | nil => simp [isAbsolute]
  | cons first rest =>
    by_cases hfirst : first = "" <;> simp [isAbsolute, isEmpty, hfirst]

theorem isAbsolute_parent? (h : p.parent? = some q) : q.isAbsolute = p.isAbsolute := by
  obtain ⟨first, rest, hp, ⟨hfirst, -, hq⟩ | ⟨init, last, hrest, hq⟩⟩ :=
    exists_segments_of_parent? h
  · simp [isAbsolute, isEmpty, hp, hq, hfirst]
  · have hne : rest ≠ [] := by
      rintro rfl
      simp [trim] at hrest
    rw [Bool.eq_iff_iff, isAbsolute_iff, isAbsolute_iff, hp, hq]
    by_cases hfirst : first = ""
    · have habove :
          (if first == "" && (trim init).isEmpty then [.ofText ""] else trim init) ≠ [] := by
        split <;> simp_all
      subst hfirst
      exact ⟨fun _ ↦ ⟨rest, hne, rfl⟩, fun _ ↦ ⟨_, habove, rfl⟩⟩
    · simp [hfirst]

/-- A path ends with a slash or is its own stem. -/
theorem segments_eq_stem (p : Path) : p.segments = p.stem ++ [.ofText ""] ∨
    p.segments = p.stem ∧ p.segments.getLast? ≠ some (.ofText "") := by
  unfold stem
  split
  · rename_i hlast
    obtain ⟨init, hinit⟩ := List.getLast?_eq_some_iff.1 (beq_iff_eq.1 hlast)
    exact .inl (by rw [hinit, List.dropLast_concat])
  · rename_i hlast
    exact .inr ⟨rfl, by simpa using hlast⟩

theorem isAbsolute_join (hname : name ≠ "") : (p.join name).isAbsolute = p.isAbsolute := by
  rw [Bool.eq_iff_iff, isAbsolute_iff, isAbsolute_iff, segments_join]
  obtain hstem | ⟨hstem, hlast⟩ := p.segments_eq_stem
  · rw [hstem]
    cases p.stem <;> simp [hname]
  · rw [hstem] at hlast ⊢
    cases hsegments : p.stem with
    | nil => simp [hname]
    | cons first rest =>
      rw [hsegments] at hlast
      cases rest <;> simp_all

theorem isEmpty_joinAll {names : List FileName} (hne : names ≠ []) (hempty : .ofText "" ∉ names) :
    (p.joinAll names).isEmpty = false := by
  rw [isEmpty, segments_joinAll hne hempty, beq_eq_false_iff_ne]
  intro heq
  obtain ⟨name, hname⟩ := List.exists_mem_of_ne_nil names hne
  have hmem : name ∈ [.ofText ""] := heq ▸ List.mem_append_right _ hname
  exact hempty (List.mem_singleton.1 hmem ▸ hname)

theorem namesOf_stem (p : Path) : namesOf p.stem = namesOf p.segments := by
  obtain hstem | ⟨hstem, -⟩ := p.segments_eq_stem
  · rw [hstem, namesOf_append]
    exact (List.append_nil _).symm
  · rw [← hstem]

theorem IsDownward.parent? (hp : p.IsDownward) (h : p.parent? = some q) : q.IsDownward := by
  intro hmem
  have hnames : .ofText ".." ∈ namesOf q.segments := List.mem_filter.2 ⟨hmem, by decide⟩
  rw [namesOf_parent? h] at hnames
  exact hp (List.mem_filter.1 ((List.dropLast_sublist _).subset hnames)).1

/-! ### The place of a path -/

/-- The place where a path starts. -/
def origin (here : List FileName) (p : Path) : List FileName :=
  if p.isAbsolute then [] else here

theorem place_of_isDownward (hp : p.IsDownward) (here : List FileName) :
    p.place here = p.origin here ++ namesOf p.segments := by
  obtain ⟨segments⟩ := p
  simp only [place]
  change segments.foldl _ (origin here ⟨segments⟩) = _
  generalize origin here ⟨segments⟩ = base
  induction segments generalizing base with
  | nil => simp [namesOf]
  | cons s segments ih =>
    have hs : s ≠ ".." := fun heq ↦ hp (by simp [heq])
    have hrest : IsDownward ⟨segments⟩ := fun hmem ↦ hp (List.mem_cons_of_mem _ hmem)
    rw [List.foldl_cons, ih hrest, namesOf_cons]
    cases hidle : isIdle s <;> simp [namesOf, hidle, hs]

end Path

namespace FileTree

variable {t : FileTree} {xs ys : List FileName} {name : FileName}

theorem get?_append (t : FileTree) (xs ys : List FileName) :
    t.get? (xs ++ ys) = (t.get? xs).bind (get? ys) := by
  induction xs generalizing t with
  | nil => rfl
  | cons x xs ih =>
    cases t with
    | file content => rfl
    | folder entries =>
      rw [List.cons_append, get?, get?, Option.bind_assoc]
      exact congrArg _ (funext fun t ↦ ih t)

theorem isSome_of_get?_append (h : (t.get? (xs ++ ys)).isSome) : (t.get? xs).isSome := by
  rw [get?_append] at h
  exact Option.isSome_of_isSome_bind h

/-- Only a folder has something below it. -/
theorem isFolder_of_get?_append (hne : ys ≠ []) (h : (t.get? (xs ++ ys)).isSome) :
    (t.get? xs).any isFolder = true := by
  obtain ⟨name, ys, rfl⟩ := List.exists_cons_of_ne_nil hne
  rw [get?_append] at h
  cases hget : t.get? xs with
  | none => simp [hget] at h
  | some t =>
    cases t with
    | file content => simp [hget, get?] at h
    | folder entries => rfl

end FileTree

namespace FileSystem

variable {fs : FileSystem} {p q file : Path} {place base d : List FileName} {name : FileName}

/-- A downward path to a name leads there exactly if something stands there. -/
theorem resolveFrom_concat_iff (fs : FileSystem) {segments : List FileName}
    (hdown : .ofText ".." ∉ segments) (hname : Path.isName name) :
    fs.resolveFrom base (segments ++ [name]) = some place ↔
      place = base ++ (Path.namesOf segments ++ [name]) ∧ (fs.root.get? place).isSome := by
  obtain ⟨hidle, hup⟩ : Path.isIdle name = false ∧ name ≠ ".." := by simpa [Path.isName] using hname
  induction segments generalizing base with
  | nil =>
    simp only [List.nil_append, resolveFrom, hidle, hup, beq_iff_eq, if_false, Bool.false_eq_true]
    rw [Option.ite_none_right_eq_some, Option.some.injEq]
    constructor
    · rintro ⟨hget, rfl⟩
      exact ⟨rfl, hget⟩
    · rintro ⟨rfl, hget⟩
      exact ⟨hget, rfl⟩
  | cons s segments ih =>
    obtain ⟨hs, hrest⟩ : .ofText ".." ≠ s ∧ .ofText ".." ∉ segments := by simpa using hdown
    rw [List.cons_append, resolveFrom, Path.namesOf_cons]
    cases hsidle : Path.isIdle s with
    | true =>
      have hnone : Path.namesOf [s] = [] := by simp [Path.namesOf, hsidle]
      rw [if_pos rfl, Option.ite_none_right_eq_some, ih hrest, hnone, List.nil_append]
      refine and_iff_right_of_imp fun h ↦ ?_
      obtain ⟨rfl, hget⟩ := h
      exact FileTree.isFolder_of_get?_append (by simp) hget
    | false =>
      have hone : Path.namesOf [s] = [s] := by simp [Path.namesOf, hsidle]
      rw [if_neg Bool.false_ne_true, if_neg (by simpa using hs.symm), Option.ite_none_right_eq_some,
        ih hrest, hone, List.append_assoc, List.append_assoc]
      refine and_iff_right_of_imp fun h ↦ ?_
      obtain ⟨rfl, hget⟩ := h
      rw [← List.append_assoc] at hget
      exact FileTree.isSome_of_get?_append hget

theorem resolve?_join_iff (fs : FileSystem) (hp : p.IsDownward) (hname : Path.isName name) :
    fs.resolve? (p.join name) = some place ↔
      place = p.place fs.here ++ [name] ∧ (fs.root.get? place).isSome := by
  have hne : name ≠ "" := by
    rintro rfl
    exact absurd hname (by decide)
  have hnames : .ofText "" ∉ [name] := by simpa using hne.symm
  have hempty : (p.join name).isEmpty = false := Path.isEmpty_joinAll (List.cons_ne_nil _ _) hnames
  have hstem : .ofText ".." ∉ p.stem := by
    intro hmem
    obtain hsegments | ⟨hsegments, -⟩ := p.segments_eq_stem
    · exact hp (hsegments ▸ List.mem_append_left _ hmem)
    · exact hp (hsegments ▸ hmem)
  rw [resolve?, hempty, if_neg Bool.false_ne_true, Path.isAbsolute_join hne, Path.segments_join,
    resolveFrom_concat_iff fs hstem hname, Path.namesOf_stem, Path.place_of_isDownward hp,
    List.append_assoc]
  rfl

/-! ## The lookup -/

/-- Whether an entry with the name of configuration files stands in the folder at a place. -/
def hasConfigAt (fs : FileSystem) (place : List FileName) : Bool :=
  (fs.root.get? (place ++ [configFileName])).isSome

/-- What is found leads to the configuration file of the nearest folder on the way from `base` up to
`top`. Nothing is found if none of them has such a file. -/
def IsNearestConfig (fs : FileSystem) (top base : List FileName) : Option Path → Prop
  | some file => ∃ d, top <+: d ∧ d <+: base ∧ fs.resolve? file = some (d ++ [configFileName]) ∧
      ∀ d', top <+: d' → d' <+: base → fs.hasConfigAt d' = true → d' <+: d
  | none => ∀ d, top <+: d → d <+: base → fs.hasConfigAt d = false

theorem isName_configFileName : Path.isName configFileName = true := by decide

theorem exists?_join_config (fs : FileSystem) (hp : p.IsDownward) :
    fs.exists? (p.join configFileName) = fs.hasConfigAt (p.place fs.here) := by
  rw [exists?, at?, hasConfigAt, Bool.eq_iff_iff]
  constructor
  · intro h
    obtain ⟨t, ht⟩ := Option.isSome_iff_exists.1 h
    obtain ⟨place, hplace, -⟩ := Option.bind_eq_some_iff.1 ht
    obtain ⟨rfl, hget⟩ := (fs.resolve?_join_iff hp isName_configFileName).1 hplace
    exact hget
  · intro h
    have hplace := (fs.resolve?_join_iff hp isName_configFileName).2 ⟨rfl, h⟩
    simpa [hplace] using h

/-- A folder without the file adds nothing. -/
theorem IsNearestConfig.below {top : List FileName} {found? : Option Path}
    (h : fs.IsNearestConfig top base found?) (hnone : fs.hasConfigAt (base ++ [name]) = false) :
    fs.IsNearestConfig top (base ++ [name]) found? := by
  have hcases {d : List FileName} (hd : d <+: base ++ [name]) (hconfig : fs.hasConfigAt d = true) :
      d <+: base := by
    obtain rfl | hd := List.prefix_concat_iff.1 hd
    · exact absurd hconfig (by simp [hnone])
    · exact hd
  cases found? with
  | some file =>
    obtain ⟨d, htop, hbase, hfile, hnearest⟩ := h
    exact ⟨d, htop, hbase.trans (List.prefix_append _ _), hfile,
      fun d' htop' hbase' hconfig ↦ hnearest d' htop' (hcases hbase' hconfig) hconfig⟩
  | none =>
    intro d htop hbase
    by_contra hconfig
    rw [Bool.not_eq_false] at hconfig
    exact absurd (h d htop (hcases hbase hconfig)) (by simp [hconfig])

/-- The lookup from a downward path finds the configuration file of the nearest folder on the way up
to where the path starts. -/
theorem isNearestConfig_findConfig? (fs : FileSystem) (hp : p.IsDownward) :
    fs.IsNearestConfig (p.origin fs.here) (p.place fs.here) (fs.findConfig? p) := by
  fun_induction findConfig? fs p with
  | case1 folder file h =>
    have hconfig : fs.hasConfigAt (folder.place fs.here) = true := by
      rw [← fs.exists?_join_config hp]
      exact h
    refine ⟨folder.place fs.here, ?_, List.prefix_refl _, ?_, fun d' _ hbase _ ↦ hbase⟩
    · rw [Path.place_of_isDownward hp]
      exact List.prefix_append _ _
    · exact (fs.resolve?_join_iff hp isName_configFileName).2 ⟨rfl, hconfig⟩
  | case2 folder file h hparent =>
    have hconfig : fs.hasConfigAt (folder.place fs.here) = false := by
      rw [← fs.exists?_join_config hp]
      simpa using h
    intro d htop hbase
    rw [Path.place_of_isDownward hp, Path.namesOf_eq_nil_of_parent? hparent, List.append_nil]
      at hbase hconfig
    rwa [← htop.eq_of_length_le hbase.length_le]
  | case3 folder file h above hparent ih =>
    have hconfig : fs.hasConfigAt (folder.place fs.here) = false := by
      rw [← fs.exists?_join_config hp]
      simpa using h
    have habove := hp.parent? hparent
    have horigin : above.origin fs.here = folder.origin fs.here := by
      simp only [Path.origin, Path.isAbsolute_parent? hparent]
    have hnearest := ih habove
    rw [horigin, Path.place_of_isDownward habove, horigin, Path.namesOf_parent? hparent] at hnearest
    rw [Path.place_of_isDownward hp] at hconfig ⊢
    obtain hnames | ⟨init, last, hnames⟩ := List.eq_nil_or_concat (Path.namesOf folder.segments)
    · simpa [hnames] using hnearest
    · rw [List.concat_eq_append] at hnames
      rw [hnames, List.dropLast_concat] at hnearest
      rw [hnames, ← List.append_assoc] at hconfig ⊢
      exact hnearest.below hconfig

end FileSystem

end OptionalChain
