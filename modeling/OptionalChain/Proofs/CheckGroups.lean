import OptionalChain.Proofs.ChainParts

/-!
# Groups of checks

The checks of a run that are made on one path form a group, and a group is judged as a whole. When
the checks before a place all lead strictly to those after it, no group crosses the place, so that
both parts can be judged apart. The levels of a chain are the groups of the checks it takes.
-/

namespace OptionalChain

/-! ## Paths on the way down -/

namespace AccessPath

theorem leads_trans {p q o : AccessPath} (h : p.leads q = true) (h' : q.leads o = true) :
    p.leads o = true := by
  rw [leads_iff] at *
  exact ⟨h.1.trans h'.1, h.2.trans h'.2⟩

theorem leadsStrictly_of_leads_of_leadsStrictly {p q o : AccessPath} (h : p.leads q = true)
    (h' : q.leadsStrictly o = true) : p.leadsStrictly o = true := by
  rw [leadsStrictly_iff] at *
  rw [leads_iff] at h
  have hlength : p.length ≤ q.length := by simpa using h.2.length_le
  exact ⟨hlength.trans_lt h'.1, h.1.trans h'.2.1, h.2.trans h'.2.2⟩

theorem leadsStrictly_of_leadsStrictly_of_leads {p q o : AccessPath} (h : p.leadsStrictly q = true)
    (h' : q.leads o = true) : p.leadsStrictly o = true := by
  rw [leadsStrictly_iff] at *
  rw [leads_iff] at h'
  have hlength : q.length ≤ o.length := by simpa using h'.2.length_le
  exact ⟨h.1.trans_le hlength, h.2.1.trans h'.1, h.2.2.trans h'.2⟩

theorem sameAs_comm (p q : AccessPath) : p.sameAs q = q.sameAs p := by
  rw [Bool.eq_iff_iff, sameAs_iff, sameAs_iff, eq_comm, @eq_comm _ p.places]

theorem sameAs_congr {p q : AccessPath} (h : p.sameAs q = true) (o : AccessPath) :
    o.sameAs p = o.sameAs q := by
  rw [sameAs_iff] at h
  rw [Bool.eq_iff_iff, sameAs_iff, sameAs_iff, h.1, h.2]

theorem not_sameAs_of_leadsStrictly {p q : AccessPath} (h : p.leadsStrictly q = true) :
    p.sameAs q = false := by
  have hlength := (leadsStrictly_iff.1 h).1
  simp [sameAs, hlength.ne]

/-- A path leads to the same one and to those that it leads to strictly. -/
theorem leads_iff_sameAs_or {p q : AccessPath} :
    p.leads q = true ↔ p.sameAs q = true ∨ p.leadsStrictly q = true := by
  constructor
  · intro h
    have hlength : p.length ≤ q.length := by simpa using (leads_iff.1 h).2.length_le
    obtain heq | hlt := hlength.eq_or_lt
    · exact .inl (by simp [sameAs, heq, h])
    · exact .inr (by simp [leadsStrictly, hlt, h])
  · rintro (h | h)
    · exact (Bool.and_eq_true_iff.1 h).2
    · exact (Bool.and_eq_true_iff.1 h).2

theorem pairwise_leads {α : Type} (path : α → AccessPath) {xs : List α}
    (h : xs.IsChain fun x y ↦ (path x).leads (path y) = true) :
    xs.Pairwise fun x y ↦ (path x).leads (path y) = true :=
  haveI : Trans (fun x y : α ↦ (path x).leads (path y) = true)
      (fun x y ↦ (path x).leads (path y) = true) (fun x y ↦ (path x).leads (path y) = true) :=
    ⟨leads_trans⟩
  h.pairwise

end AccessPath

/-! ## Groups -/

namespace Check

/-- The checks made on the path. -/
def group (checks : List Check) (p : AccessPath) : List Check :=
  checks.filter (·.path.sameAs p)

/-- Every check of the first list is on a path that leads strictly to that of every check of the
second one. -/
def AllLead (xs ys : List Check) : Prop :=
  ∀ k ∈ xs, ∀ l ∈ ys, k.path.leadsStrictly l.path = true

theorem group_append (xs ys : List Check) (p : AccessPath) :
    group (xs ++ ys) p = group xs p ++ group ys p :=
  List.filter_append xs ys

theorem group_congr (checks : List Check) {p q : AccessPath} (h : p.sameAs q = true) :
    group checks p = group checks q :=
  List.filter_congr fun k _ ↦ AccessPath.sameAs_congr h k.path

theorem group_of_sameAs {checks : List Check} {p : AccessPath}
    (h : ∀ k ∈ checks, k.path.sameAs p = true) : group checks p = checks :=
  List.filter_eq_self.2 h

theorem group_eq_nil {checks : List Check} {p : AccessPath}
    (h : ∀ k ∈ checks, k.path.sameAs p = false) : group checks p = [] :=
  List.filter_eq_nil_iff.2 fun k hk ↦ by simp [h k hk]

theorem AllLead.group_left {xs ys : List Check} (h : AllLead xs ys) {k : Check} (hk : k ∈ xs) :
    group (xs ++ ys) k.path = group xs k.path := by
  have hnil : group ys k.path = [] := group_eq_nil fun l hl ↦ by
    rw [AccessPath.sameAs_comm]
    exact AccessPath.not_sameAs_of_leadsStrictly (h k hk l hl)
  rw [group_append, hnil, List.append_nil]

theorem AllLead.group_right {xs ys : List Check} (h : AllLead xs ys) {k : Check} (hk : k ∈ ys) :
    group (xs ++ ys) k.path = group ys k.path := by
  have hnil : group xs k.path = [] := group_eq_nil fun l hl ↦
    AccessPath.not_sameAs_of_leadsStrictly (h l hl k hk)
  rw [group_append, hnil, List.nil_append]

end Check

namespace ChainFinder

variable (c : ChainFinder)

/-- The verdict on a group of checks, with the shape of what the first of them is made on. -/
def groupVerdict : List Check → Verdict
  | [] => .disqualified
  | k :: ks => judgeLevel ((k :: ks).map (·.kind)) (c.oracle k.path.target) c.options

/-- No group of the checks is disqualified. -/
def Qualified (checks : List Check) : Prop :=
  ∀ k ∈ checks, c.groupVerdict (Check.group checks k.path) ≠ .disqualified

instance (checks : List Check) : Decidable (c.Qualified checks) :=
  inferInstanceAs (Decidable (∀ k ∈ checks, _))

variable {c}

/-- Checks that lead to others are judged apart from them. -/
theorem qualified_append_iff {xs ys : List Check} (h : Check.AllLead xs ys) :
    c.Qualified (xs ++ ys) ↔ c.Qualified xs ∧ c.Qualified ys := by
  constructor
  · intro hall
    constructor
    · intro k hk
      rw [← h.group_left hk]
      exact hall k (List.mem_append_left ys hk)
    · intro k hk
      rw [← h.group_right hk]
      exact hall k (List.mem_append_right xs hk)
  · rintro ⟨hxs, hys⟩ k hk
    obtain hk | hk := List.mem_append.1 hk
    · rw [h.group_left hk]
      exact hxs k hk
    · rw [h.group_right hk]
      exact hys k hk

/-! ## Levels are groups -/

/-- The checks that operands make. -/
def checksOf (block : List Operand) : List Check :=
  block.filterMap (·.check?)

theorem checksOf_append (xs ys : List Operand) :
    checksOf (xs ++ ys) = checksOf xs ++ checksOf ys :=
  List.filterMap_append

/-- Operands that make checks of the given kinds on a path make these checks and no others. -/
theorem checksOf_of_forall₂ {block : List Operand} {kinds : List CheckKind} {p : AccessPath}
    (h : List.Forall₂ (fun o k ↦ ∃ q : AccessPath, o.check? = some ⟨k, q⟩ ∧ q.sameAs p = true)
      block kinds) :
    (∀ o ∈ block, o.check?.isSome = true) ∧ (checksOf block).map (·.kind) = kinds ∧
      ∀ k ∈ checksOf block, k.path.sameAs p = true := by
  induction h with
  | nil => simp [checksOf]
  | @cons o k block kinds hcheck _ ih =>
    obtain ⟨q, hcheck, hsame⟩ := hcheck
    obtain ⟨hsome, hkinds, hpaths⟩ := ih
    have hcons : checksOf (o :: block) = ⟨k, q⟩ :: checksOf block :=
      List.filterMap_cons_some hcheck
    rw [hcons]
    refine ⟨?_, by rw [List.map_cons, hkinds], ?_⟩
    · exact List.forall_mem_cons.2 ⟨by rw [hcheck]; rfl, hsome⟩
    · exact List.forall_mem_cons.2 ⟨hsame, hpaths⟩

end ChainFinder

namespace Level.Covers

open ChainFinder

variable {l : Level} {block : List Operand}

theorem map_kind_checksOf (h : l.Covers block) : (checksOf block).map (·.kind) = l.checks :=
  (checksOf_of_forall₂ h.checks).2.1

theorem sameAs_of_mem (h : l.Covers block) {k : Check} (hk : k ∈ checksOf block) :
    k.path.sameAs l.path = true :=
  (checksOf_of_forall₂ h.checks).2.2 k hk

theorem exists_checksOf_eq_cons (h : l.Covers block) :
    ∃ k ks, checksOf block = k :: ks ∧ k.path = l.path := by
  obtain ⟨rest, rfl⟩ := List.head?_eq_some_iff.1 h.first
  obtain ⟨kind, hkind⟩ := h.path
  exact ⟨⟨kind, l.path⟩, checksOf rest, List.filterMap_cons_some hkind, rfl⟩

theorem groupVerdict_eq (h : l.Covers block) (c : ChainFinder) :
    c.groupVerdict (checksOf block) = c.verdict l := by
  obtain ⟨k, ks, hchecks, hpath⟩ := h.exists_checksOf_eq_cons
  rw [hchecks, groupVerdict, ← hchecks, h.map_kind_checksOf, hpath, verdict]

end Level.Covers

namespace ChainFinder

section

variable {levels : List Level} {blocks : List (List Operand)}
  (hcovers : List.Forall₂ Level.Covers levels blocks)

include hcovers

theorem exists_level_of_mem {k : Check} (hk : k ∈ checksOf blocks.flatten) :
    ∃ l ∈ levels, k.path.sameAs l.path = true := by
  induction hcovers with
  | nil => cases hk
  | @cons l block levels blocks hl _ ih =>
    rw [List.flatten_cons, checksOf_append] at hk
    obtain hk | hk := List.mem_append.1 hk
    · exact ⟨l, List.mem_cons_self, hl.sameAs_of_mem hk⟩
    · obtain ⟨l', hl', hsame⟩ := ih hk
      exact ⟨l', List.mem_cons_of_mem l hl', hsame⟩

theorem check?_isSome_of_covers {o : Operand} (ho : o ∈ blocks.flatten) :
    o.check?.isSome = true := by
  induction hcovers with
  | nil => cases ho
  | cons hl _ ih =>
    rw [List.flatten_cons] at ho
    obtain ho | ho := List.mem_append.1 ho
    · exact (checksOf_of_forall₂ hl.checks).1 o ho
    · exact ih ho

variable (hleads : levels.Pairwise fun l l' ↦ l.path.leadsStrictly l'.path = true)

include hleads

/-- The checks of levels get deeper from level to level. -/
theorem pairwise_checksOf :
    (checksOf blocks.flatten).Pairwise fun k k' ↦ k.path.leads k'.path = true := by
  induction hcovers with
  | nil => exact .nil
  | @cons l block levels blocks hl hrest ih =>
    obtain ⟨hbefore, hleads⟩ := List.pairwise_cons.1 hleads
    have hto {k : Check} (hk : k ∈ checksOf block) : k.path.leads l.path = true :=
      AccessPath.leads_iff_sameAs_or.2 (.inl (hl.sameAs_of_mem hk))
    have hfrom {p q : AccessPath} (h : q.sameAs p = true) : p.leads q = true :=
      AccessPath.leads_iff_sameAs_or.2 (.inl (by rwa [AccessPath.sameAs_comm]))
    rw [List.flatten_cons, checksOf_append]
    refine List.pairwise_append.2 ⟨List.pairwise_of_forall_mem_list fun k hk k' hk' ↦ ?_,
      ih hleads, fun k hk k' hk' ↦ ?_⟩
    · exact AccessPath.leads_trans (hto hk) (hfrom (hl.sameAs_of_mem hk'))
    · obtain ⟨l', hl', hsame⟩ := exists_level_of_mem hrest hk'
      have hdown : l.path.leads l'.path = true :=
        AccessPath.leads_iff_sameAs_or.2 (.inr (hbefore l' hl'))
      exact AccessPath.leads_trans (hto hk) (AccessPath.leads_trans hdown (hfrom hsame))

/-- The checks on the path of a level are those of its block. -/
theorem exists_group_eq {l : Level} (hl : l ∈ levels) :
    ∃ block, l.Covers block ∧ Check.group (checksOf blocks.flatten) l.path = checksOf block := by
  induction hcovers with
  | nil => cases hl
  | @cons first block levels blocks hfirst hrest ih =>
    obtain ⟨hbefore, hleads⟩ := List.pairwise_cons.1 hleads
    rw [List.flatten_cons, checksOf_append, Check.group_append]
    obtain rfl | hl := List.mem_cons.1 hl
    · have hnil : Check.group (checksOf blocks.flatten) l.path = [] :=
        Check.group_eq_nil fun k hk ↦ by
          obtain ⟨l', hl', hsame⟩ := exists_level_of_mem hrest hk
          rw [AccessPath.sameAs_comm, AccessPath.sameAs_congr hsame]
          exact AccessPath.not_sameAs_of_leadsStrictly (hbefore l' hl')
      refine ⟨block, hfirst, ?_⟩
      rw [hnil, List.append_nil, Check.group_of_sameAs fun k hk ↦ hfirst.sameAs_of_mem hk]
    · have hnil : Check.group (checksOf block) l.path = [] :=
        Check.group_eq_nil fun k hk ↦ by
          have hsame := hfirst.sameAs_of_mem hk
          rw [AccessPath.sameAs_comm, AccessPath.sameAs_congr hsame, AccessPath.sameAs_comm]
          exact AccessPath.not_sameAs_of_leadsStrictly (hbefore l hl)
      rw [hnil, List.nil_append]
      exact ih hleads hl

theorem groupVerdict_level (c : ChainFinder) {l : Level} (hl : l ∈ levels) :
    c.groupVerdict (Check.group (checksOf blocks.flatten) l.path) = c.verdict l := by
  obtain ⟨block, hblock, hgroup⟩ := exists_group_eq hcovers hleads hl
  rw [hgroup, hblock.groupVerdict_eq]

/-- Levels are qualified exactly if the checks they take are. -/
theorem qualified_checksOf_iff (c : ChainFinder) :
    c.Qualified (checksOf blocks.flatten) ↔ ∀ l ∈ levels, c.verdict l ≠ .disqualified := by
  constructor
  · intro hqualified l hl
    obtain ⟨block, hblock, hgroup⟩ := exists_group_eq hcovers hleads hl
    obtain ⟨k, ks, hchecks, hpath⟩ := hblock.exists_checksOf_eq_cons
    have hk : k ∈ Check.group (checksOf blocks.flatten) l.path := by
      rw [hgroup, hchecks]
      exact List.mem_cons_self
    rw [← groupVerdict_level hcovers hleads c hl, ← hpath]
    exact hqualified k (List.mem_filter.1 hk).1
  · intro hlevels k hk
    obtain ⟨l, hl, hsame⟩ := exists_level_of_mem hcovers hk
    rw [Check.group_congr _ hsame, groupVerdict_level hcovers hleads c hl]
    exact hlevels l hl

end

end ChainFinder

end OptionalChain
