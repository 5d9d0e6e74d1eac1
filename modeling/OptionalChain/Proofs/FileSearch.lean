import Mathlib.Data.List.Lex
import Mathlib.Data.List.Nodup
import OptionalChain.Command.Check

/-!
# What a search of a tree meets

An entry is met exactly if it and all folders on the way to it are kept. In a tree in which each
folder has different names for its entries, none is met twice.
-/

namespace OptionalChain

namespace FileName

theorem codes_injective : Function.Injective codes := by
  rintro ⟨⟨⟨xs⟩⟩⟩ ⟨⟨⟨ys⟩⟩⟩ h
  obtain rfl : xs = ys := List.map_injective_iff.2 (fun _ _ ↦ UInt8.toNat.inj) h
  rfl

instance : LinearOrder FileName := LinearOrder.lift' codes codes_injective

variable {n : FileName} {s : String}

theorem text?_eq_some_iff : n.text? = some s ↔ n = ofText s := by
  unfold text? String.fromUTF8?
  constructor
  · intro h
    split at h
    · obtain rfl := Option.some.inj h
      rfl
    · cases h
  · rintro rfl
    exact dif_pos s.isValidUTF8

end FileName

namespace FileTree

variable {t u : FileTree} {entries : List (FileName × FileTree)} {place names : List FileName}
  {name : FileName} {keep : FileEntry → Bool} {start : Path} {e : FileEntry}

/-! ## Places in a tree -/

mutual

/-- What holds of files, and of a folder whenever it holds of its entries, holds of every tree. -/
theorem induction_entries {P : FileTree → Prop} (file : ∀ content, P (.file content))
    (folder : ∀ entries : List (FileName × FileTree), (∀ x ∈ entries, P x.2) →
      P (.folder entries)) :
    ∀ t : FileTree, P t
  | .file content => file content
  | .folder entries => folder entries (induction_entriesAll file folder entries)

theorem induction_entriesAll {P : FileTree → Prop} (file : ∀ content, P (.file content))
    (folder : ∀ entries : List (FileName × FileTree), (∀ x ∈ entries, P x.2) →
      P (.folder entries)) :
    ∀ entries : List (FileName × FileTree), ∀ x ∈ entries, P x.2
  | [] => List.forall_mem_nil _
  | (_, t) :: rest => List.forall_mem_cons.2
    ⟨induction_entries file folder t, induction_entriesAll file folder rest⟩

end

/-- `t.Lies place u` says that `u` stands at a place in `t`. -/
inductive Lies : FileTree → List FileName → FileTree → Prop where
  | here (t : FileTree) : Lies t [] t
  | entry {entries : List (FileName × FileTree)} {name : FileName} {t u : FileTree}
      {place : List FileName} : (name, t) ∈ entries → Lies t place u →
      Lies (.folder entries) (name :: place) u

/-- The entries of each folder have different names, and no name is empty. -/
inductive IsProper : FileTree → Prop where
  | file (content : Content) : IsProper (.file content)
  | folder {entries : List (FileName × FileTree)} : (entries.map Prod.fst).Nodup →
      .ofText "" ∉ entries.map Prod.fst → (∀ x ∈ entries, IsProper x.2) → IsProper (.folder entries)

theorem lookup_eq_some_iff_mem (h : (entries.map Prod.fst).Nodup) :
    entries.lookup name = some t ↔ (name, t) ∈ entries := by
  induction entries with
  | nil => simp
  | cons entry rest ih =>
    obtain ⟨n, u⟩ := entry
    obtain ⟨hn, hrest⟩ := List.nodup_cons.1 h
    rw [List.lookup_cons, List.mem_cons]
    by_cases heq : name = n
    · subst heq
      have hmem : (name, t) ∉ rest := fun hmem ↦ hn (List.mem_map.2 ⟨_, hmem, rfl⟩)
      simp [hmem, eq_comm]
    · simp [beq_eq_false_iff_ne.2 heq, heq, ih hrest]

/-- In a proper tree one thing stands at a place. -/
theorem IsProper.lies_iff (h : t.IsProper) : t.Lies place u ↔ t.get? place = some u := by
  induction place generalizing t with
  | nil =>
    rw [get?, Option.some.injEq]
    constructor
    · rintro ⟨⟩
      rfl
    · rintro rfl
      exact .here t
  | cons name place ih =>
    cases h with
    | file content => exact ⟨nofun, nofun⟩
    | folder hnodup hempty hentries =>
      rw [get?, Option.bind_eq_some_iff]
      constructor
      · rintro (_ | ⟨hmem, hlies⟩)
        exact ⟨_, (lookup_eq_some_iff_mem hnodup).2 hmem, (ih (hentries _ hmem)).1 hlies⟩
      · rintro ⟨t, hlookup, hget⟩
        have hmem := (lookup_eq_some_iff_mem hnodup).1 hlookup
        exact .entry hmem ((ih (hentries _ hmem)).2 hget)

theorem IsProper.ne_empty_of_lies (h : t.IsProper) (hlies : t.Lies place u) :
    .ofText "" ∉ place := by
  induction hlies with
  | here => exact List.not_mem_nil
  | entry hmem _ ih =>
    cases h with
    | folder hnodup hempty hentries =>
      rw [List.mem_cons, not_or]
      refine ⟨fun heq ↦ hempty ?_, ih (hentries _ hmem)⟩
      rw [heq]
      exact List.mem_map_of_mem hmem

/-! ## Searches -/

theorem searchIn_eq_flatMap (entries : List (FileName × FileTree)) :
    searchIn keep start names entries =
      entries.flatMap fun x ↦ x.2.search keep start (names ++ [x.1]) := by
  induction entries with
  | nil => simp [searchIn]
  | cons entry rest ih => rw [searchIn, ih, List.flatMap_cons]

/-- A search meets what it keeps, if it keeps the folders on the way. -/
theorem mem_search_iff : e ∈ t.search keep start names ↔ keep e = true ∧
    ∃ place u, t.Lies place u ∧ e = ⟨start, names ++ place, u.isFolder⟩ ∧
      ∀ above, above <+: place → above ≠ place → keep ⟨start, names ++ above, true⟩ = true := by
  induction t using induction_entries generalizing names with
  | file content =>
    rw [search]
    constructor
    · intro h
      split at h
      · rename_i hkeep
        obtain rfl := List.mem_singleton.1 h
        refine ⟨hkeep, [], _, .here _, by simp [isFolder], fun above hle hne ↦ ?_⟩
        exact absurd (List.prefix_nil.1 hle) hne
      · cases h
    · rintro ⟨hkeep, place, u, ⟨⟩, rfl, -⟩
      simpa [isFolder] using hkeep
  | folder entries ih =>
    rw [search, searchIn_eq_flatMap]
    constructor
    · intro h
      split at h
      swap
      · cases h
      rename_i hkeep
      obtain rfl | h := List.mem_cons.1 h
      · refine ⟨hkeep, [], _, .here _, by simp [isFolder], fun above hle hne ↦ ?_⟩
        exact absurd (List.prefix_nil.1 hle) hne
      · obtain ⟨⟨name, t⟩, hmem, he⟩ := List.mem_flatMap.1 h
        obtain ⟨hkept, place, u, hlies, rfl, habove⟩ := (ih _ hmem).1 he
        refine ⟨hkept, name :: place, u, .entry hmem hlies, by simp, fun above hle hne ↦ ?_⟩
        obtain rfl | ⟨above, rfl, hbelow⟩ := List.prefix_cons_iff.1 hle
        · simpa using hkeep
        · simpa using habove above hbelow (fun heq ↦ hne (congrArg _ heq))
    · rintro ⟨hkept, place, u, hlies, rfl, habove⟩
      cases hlies with
      | here => simp_all [isFolder]
      | @entry _ name t _ place hmem hlies =>
        have hkeep := habove [] List.nil_prefix (by simp)
        rw [List.append_nil] at hkeep
        rw [if_pos hkeep, List.mem_cons]
        refine .inr (List.mem_flatMap.2 ⟨(name, t), hmem, (ih _ hmem).2 ⟨hkept, place, u, hlies,
          by simp, fun above hle hne ↦ ?_⟩⟩)
        have hcons := (List.prefix_cons_inj name).2 hle
        simpa using habove (name :: above) hcons (by simpa using hne)

/-- No place is met twice. -/
theorem IsProper.nodup_search (h : t.IsProper) (keep : FileEntry → Bool) (start : Path)
    (names : List FileName) : ((t.search keep start names).map (·.names)).Nodup := by
  induction h generalizing names with
  | file content =>
    rw [search]
    split <;> simp
  | @folder entries hnodup hempty hentries ih =>
    have hbelow {x : FileName × FileTree} {place : List FileName}
        (hplace : place ∈ (x.2.search keep start (names ++ [x.1])).map (·.names)) :
        ∃ rest, place = names ++ x.1 :: rest := by
      obtain ⟨e, he, rfl⟩ := List.mem_map.1 hplace
      obtain ⟨-, rest, u, -, rfl, -⟩ := mem_search_iff.1 he
      exact ⟨rest, by simp⟩
    rw [search, searchIn_eq_flatMap]
    split
    swap
    · exact List.nodup_nil
    rw [List.map_cons, List.map_flatMap, List.nodup_cons, List.nodup_flatMap]
    refine ⟨fun hmem ↦ ?_, fun x hx ↦ ih x hx _, ?_⟩
    · obtain ⟨x, -, hplace⟩ := List.mem_flatMap.1 hmem
      obtain ⟨rest, heq⟩ := hbelow hplace
      simp at heq
    · refine (List.pairwise_map.1 hnodup).imp fun {x y} hne place hx hy ↦ hne ?_
      obtain ⟨rest, rfl⟩ := hbelow hx
      obtain ⟨rest', heq⟩ := hbelow hy
      exact (List.cons.inj (List.append_cancel_left heq)).1

/-! ### Hidden names -/

theorem isHidden_entry_concat (start : Path) (init : List FileName) (last : FileName)
    (isFolder : Bool) :
    (FileEntry.mk start (init ++ [last]) isFolder).isHidden = isHidden last := by
  simp [FileEntry.isHidden, FileEntry.depth, FileEntry.name]

/-- What lies below no hidden name is met. -/
theorem mem_search_visible_iff : e ∈ t.search (!·.isHidden) start [] ↔
    ∃ place u, t.Lies place u ∧ e = ⟨start, place, u.isFolder⟩ ∧
      ∀ name ∈ place, isHidden name = false := by
  rw [mem_search_iff]
  simp only [List.nil_append, Bool.not_eq_true']
  constructor
  · rintro ⟨hkeep, place, u, hlies, rfl, habove⟩
    refine ⟨place, u, hlies, rfl, fun name hname ↦ ?_⟩
    -- The name is the last one on the way to an entry that is kept.
    obtain ⟨before, after, rfl⟩ := List.append_of_mem hname
    cases after with
    | nil => rwa [isHidden_entry_concat] at hkeep
    | cons next after =>
      have hkept := habove (before ++ [name]) ⟨next :: after, by simp⟩ (by simp)
      rwa [isHidden_entry_concat] at hkept
  · rintro ⟨place, u, hlies, rfl, hvisible⟩
    have hkept {above : List FileName} (hle : above <+: place) (isFolder : Bool) :
        (FileEntry.mk start above isFolder).isHidden = false := by
      obtain rfl | ⟨init, last, rfl⟩ := List.eq_nil_or_concat above
      · rfl
      · rw [List.concat_eq_append] at hle ⊢
        rw [isHidden_entry_concat]
        exact hvisible last (hle.subset (by simp))
    exact ⟨hkept (List.prefix_refl _) _, place, u, hlies, rfl, fun above hle _ ↦ hkept hle true⟩

/-! ## Supported files -/

theorem mem_supported_iff : e ∈ t.supported start ↔
    ∃ place content, t.Lies place (.file content) ∧ e = ⟨start, place, false⟩ ∧
      isSupportedName e.name ∧ ∀ name ∈ place, isHidden name = false := by
  rw [supported, List.mem_mergeSort, List.mem_filter, List.mem_filter, mem_search_visible_iff]
  constructor
  · rintro ⟨⟨⟨place, u, hlies, rfl, hvisible⟩, hfile⟩, hname⟩
    cases u with
    | file content => exact ⟨place, content, hlies, rfl, hname, hvisible⟩
    | folder entries => cases hfile
  · rintro ⟨place, content, hlies, rfl, hname, hvisible⟩
    exact ⟨⟨⟨place, _, hlies, rfl, hvisible⟩, rfl⟩, hname⟩

/-- The name of an entry below a folder is the last one on the way to it. -/
theorem mem_names_supported_folder_iff :
    place ∈ ((folder entries).supported start).map (·.names) ↔
      (∃ content, (folder entries).Lies place (.file content)) ∧
        place.getLast?.any isSupportedName ∧ ∀ name ∈ place, isHidden name = false := by
  have hname (content : Content) (h : (folder entries).Lies place (.file content)) :
      isSupportedName (FileEntry.mk start place false).name =
        place.getLast?.any isSupportedName := by
    obtain rfl | ⟨init, last, rfl⟩ := List.eq_nil_or_concat place
    · cases h
    · simp [FileEntry.name]
  rw [List.mem_map]
  constructor
  · rintro ⟨e, he, rfl⟩
    obtain ⟨place, content, hlies, rfl, hsupported, hvisible⟩ := mem_supported_iff.1 he
    exact ⟨⟨content, hlies⟩, hname content hlies ▸ hsupported, hvisible⟩
  · rintro ⟨⟨content, hlies⟩, hsupported, hvisible⟩
    have hfound : ⟨start, place, false⟩ ∈ (folder entries).supported start :=
      mem_supported_iff.2 ⟨place, content, hlies, rfl, hname content hlies ▸ hsupported, hvisible⟩
    exact ⟨_, hfound, rfl⟩

theorem placeLe_iff {a b : List FileName} : placeLe a b = true ↔ a ≤ b := by
  simp [placeLe]

/-- The supported files come in strictly increasing order of their places. -/
theorem IsProper.pairwise_supported (h : t.IsProper) (start : Path) :
    ((t.supported start).map (·.names)).Pairwise (· < ·) := by
  have hsorted : (t.supported start).Pairwise fun a b ↦ placeLe a.names b.names = true := by
    refine List.pairwise_mergeSort (fun a b c hab hbc ↦ ?_) (fun a b ↦ ?_) _
    · rw [placeLe_iff] at hab hbc ⊢
      exact le_trans hab hbc
    · rw [Bool.or_eq_true, placeLe_iff, placeLe_iff]
      exact le_total _ _
  have hdistinct : (t.supported start).Pairwise fun a b ↦ a.names ≠ b.names := by
    have hsearch := List.pairwise_map.1 (h.nodup_search (!·.isHidden) start [])
    exact ((List.mergeSort_perm _ _).pairwise_iff fun h ↦ Ne.symm h).2 ((hsearch.filter _).filter _)
  refine List.pairwise_map.2 ((hsorted.and hdistinct).imp fun {a b} hab ↦ ?_)
  exact lt_of_le_of_ne (placeLe_iff.1 hab.1) hab.2

/-- Where a search starts does not matter. -/
theorem names_supported_eq (h : (folder entries).IsProper) (start start' : Path) :
    ((folder entries).supported start).map (·.names) =
      ((folder entries).supported start').map (·.names) := by
  have hsorted := h.pairwise_supported start
  have hsorted' := h.pairwise_supported start'
  refine List.Perm.eq_of_pairwise (fun a b _ _ hab hba ↦ absurd hba (lt_asymm hab))
    hsorted hsorted' ?_
  rw [List.perm_ext_iff_of_nodup (hsorted.imp ne_of_lt) (hsorted'.imp ne_of_lt)]
  intro place
  rw [mem_names_supported_folder_iff, mem_names_supported_folder_iff]

end FileTree

end OptionalChain
