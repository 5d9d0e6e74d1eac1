import OptionalChain.Proofs.MovedComments
import OptionalChain.Proofs.Positions

/-!
# Fallbacks at targets

The fix of a fallback makes its access optional, wherever the access stands. Where a value is
assigned to it, or where it is constructed or used as a tag, no program may have an optional access.
-/

namespace OptionalChain

/-! ## Nodes without their spans -/

namespace Node

mutual

/-- The node with all spans left out. -/
def unspanned : Node → Node
  | .mk kind _ cs => .mk kind ⟨0, 0⟩ (unspannedAll cs)

def unspannedAll : List Node → List Node
  | [] => []
  | n :: ns => unspanned n :: unspannedAll ns

end

variable {n m : Node} {kind : Kind} {s : Span} {cs : List Node}

theorem unspannedAll_eq_map (ns : List Node) : unspannedAll ns = ns.map unspanned := by
  induction ns with
  | nil => rfl
  | cons n ns ih => rw [unspannedAll, ih, List.map_cons]

theorem unspanned_mk : (mk kind s cs).unspanned = mk kind ⟨0, 0⟩ (cs.map unspanned) := by
  rw [unspanned, unspannedAll_eq_map]

theorem isAbsent_unspanned (n : Node) : n.unspanned.isAbsent = n.isAbsent := by
  obtain ⟨kind, s, cs⟩ := n
  rfl

theorem forall₂_congr_of_mem {α β : Type} {R S : α → β → Prop} {ys : List β}
    (h : ∀ y ∈ ys, ∀ x, R x y ↔ S x y) (xs : List α) :
    List.Forall₂ R xs ys ↔ List.Forall₂ S xs ys := by
  induction ys generalizing xs with
  | nil => simp
  | cons y ys ih =>
    obtain ⟨hy, hys⟩ := List.forall_mem_cons.1 h
    cases xs with
    | nil => simp
    | cons x xs => rw [List.forall₂_cons, List.forall₂_cons, hy x, ih hys xs]

/-- What a position asks for does not depend on where the text of a node is. -/
theorem accepts_unspanned (r : Position) (n : Node) : r.Accepts n.unspanned ↔ r.Accepts n := by
  induction n using induction_parts generalizing r with
  | step kind s cs ih =>
    have habsent : (cs.map unspanned).map isAbsent = cs.map isAbsent := by
      rw [List.map_map]
      exact List.map_congr_left fun n _ ↦ isAbsent_unspanned n
    have hoptional : (mk kind ⟨0, 0⟩ (cs.map unspanned)).isOptionalStep =
        (mk kind s cs).isOptionalStep := by
      unfold isOptionalStep children Node.kind
      rw [List.length_map]
    rw [unspanned_mk, Position.accepts_mk, Position.accepts_mk, habsent, hoptional,
      List.forall₂_map_right_iff]
    exact and_congr_right fun _ ↦ forall₂_congr_of_mem (fun c hc q ↦ ih c hc q) _

theorem admissible_of_unspanned_eq (h : n.Admissible) (heq : n.unspanned = m.unspanned) :
    m.Admissible := by
  rw [← Position.accepts_free, ← accepts_unspanned, ← heq, accepts_unspanned]
  exact Position.accepts_free.2 h

end Node

/-! ## The access that a fix writes -/

theorem Node.Admissible.stripParens {n : Node} (h : n.Admissible) : n.stripParens.Admissible := by
  fun_induction Node.stripParens n with
  | case1 s e ih => exact ih (h.parts e List.mem_cons_self)
  | case2 => exact h

namespace Fallback

variable {b : Fallback} {n : Node}

/-- The access that the replacement of a fallback spells. -/
def access (b : Fallback) (s : Span) : Node :=
  .member true s (if isBare b.value.kind then b.value else .paren b.value.span b.value) b.key

theorem admissible_access (h : of? n = some b) (hn : n.Admissible) (s : Span) :
    (b.access s).Admissible := by
  obtain ⟨optional, t, u, inner, v, fallback, rfl, hinner⟩ := exists_parts_of_of? h
  have hparen := hn.parts (.paren u inner) List.mem_cons_self
  have hbinary := (hparen.parts inner List.mem_cons_self).stripParens
  rw [hinner] at hbinary
  have hvalue : b.value.Admissible := hbinary.parts b.value List.mem_cons_self
  have hkey : b.key.Admissible :=
    hn.parts b.key (List.mem_cons_of_mem _ (List.mem_singleton_self _))
  refine .mk_of_hasTargets rfl (List.forall_mem_cons.2 ⟨?_, List.forall_mem_singleton.2 hkey⟩)
  split
  · exact hvalue
  · exact .mk_of_hasTargets rfl (List.forall_mem_singleton.2 hvalue)

theorem isAbsent_access (h : of? n = some b) (s : Span) : (b.access s).isAbsent = n.isAbsent := by
  obtain ⟨optional, t, u, inner, v, fallback, rfl, -⟩ := exists_parts_of_of? h
  rfl

/-- The optional access may stand exactly where no position forbids it. -/
theorem accepts_access (h : of? n = some b) {r : Position} (hn : r.Accepts n) (s : Span) :
    r.Accepts (b.access s) ↔ r.isRestricted = false := by
  cases hr : r.isRestricted with
  | true =>
    refine iff_of_false (fun haccess ↦ ?_) (by decide)
    cases (Position.accepts_mk.1 haccess).1 hr
  | false =>
    refine iff_of_true (fun hchecked ↦ ⟨?_, ?_⟩) rfl
    · cases r with
      | unchecked => trivial
      | free => trivial
      | _ => cases hr
    · exact admissible_access h (hn hchecked).2 s

end Fallback

/-! ## Files without errors -/

theorem Outcome.program?_of_strict {o : Outcome} {program : Node} (h : o.strict = .ok program) :
    o.program? = some program ∧ o.issues = [] := by
  unfold strict at h
  split at h
  · cases h
  · cases h
    exact ⟨‹_›, ‹_›⟩
  · cases h

theorem Outcome.strict_eq_ok {o : Outcome} {program : Node} (h : o.program? = some program)
    (hissues : o.issues = []) : o.strict = .ok program := by
  unfold strict
  rw [h, hissues]

open SourceFile (ofText)
open Outcome (markSize)

theorem admissible_of_strict {name : String} {text : List Char} {program : Node}
    (h : (ofText name text).outcome.strict = .ok program) : program.Admissible := by
  obtain ⟨hprogram, hissues⟩ := Outcome.program?_of_strict h
  exact Grammar.admissible_of_parse hprogram (List.map_eq_nil_iff.1 hissues)

namespace PreferOptionalChain

variable {c : Context}

namespace Context

theorem exists_region_of_mem_fallbackReport? {n : Node} {r : Report} {d : Diagnostic}
    (h : c.fallbackReport? n = some r) (hd : d ∈ r.diagnostics) :
    ∃ b region, Fallback.of? n = some b ∧ c.region? n.span = some region ∧
      d = c.diagnostic region (b.replacement c.file) (b.verdict c.oracle c.options) := by
  rw [← searchReports?_access] at h
  obtain ⟨x, hx, y, hy, hmade⟩ := exists_finding_of_mem_diagnostics h hd
  rw [List.mem_singleton.1 hx] at hy
  obtain ⟨b, hb, rfl⟩ := List.mem_map.1 hy
  obtain ⟨region, hregion, hmade⟩ := Option.bind_eq_some_iff.1 hmade
  exact ⟨b, region, (Option.filter_eq_some_iff.1 (Option.mem_toList.1 hb)).1, hregion,
    (Option.some.inj hmade).symm⟩

/-- A fix replaces the text of the access it is reported for. -/
theorem exists_fixed {n : Node} {region : Region} (hn : c.file.Seats n)
    (hforward : n.span.lo ≤ n.span.hi) (hregion : c.region? n.span = some region)
    (replacement : List Char) (v : Verdict) :
    ∃ before after, c.file.text = before ++ c.file.slice n.span ++ after ∧
      (applyFixes c.file.text [c.diagnostic region replacement v] true).output =
        before ++ replacement ++ after := by
  obtain ⟨removed, after, ⟨before, htext, hlo⟩, hhi⟩ :=
    hn.sits.lo.exists_piece hn.sits.hi hforward
  have hslice : c.file.slice n.span = removed := by
    rw [(SourceFile.slice?_eq hn.sits.lo hn.sits.hi hforward).2, hhi]
    exact Text.slice_of_slice? (Text.At.slice? ⟨before, htext, hlo⟩)
  refine ⟨before, after, by rw [hslice, htext, List.append_assoc], ?_⟩
  obtain ⟨r, hr, hrange⟩ := exists_region? hn.sits.lo hn.sits.hi
  obtain rfl := Option.some.inj (hr.symm.trans hregion)
  exact output_applyFixes_diagnostic htext ((congrArg Span.lo hrange).trans hlo.symm)
    ((congrArg Span.hi hrange).trans (by rw [hhi, hlo])) replacement v

end Context

/-- The fix of a fallback in a program without errors makes its access optional. The program that
is meant by it has no optional access where none may stand exactly if the access stands at a free
position: it is not assigned to or changed, not a target of a loop or of destructuring, not
constructed and not the tag of a template, and not the base of an access that is. At any other
position no text that is read without errors, the fixed text included, is read as that program. -/
theorem fallback_fix_admissible_iff {name : String} {text : List Char} {program n : Node}
    {path : List Nat} {r : Report} {d : Diagnostic}
    (h : (ofText name text).outcome.strict = .ok program) (hc : c.file = ofText name text)
    (hn : program.at? path = some n) (hr : c.fallbackReport? n = some r) (hd : d ∈ r.diagnostics) :
    ∃ b, Fallback.of? n = some b ∧
      ((program.replaceAt path (b.access n.span)).Admissible ↔
        (program.position path).isRestricted = false) ∧
      ((program.position path).isRestricted = true → ∀ name' text' program',
        (ofText name' text').outcome.strict = .ok program' →
          program'.unspanned ≠ (program.replaceAt path (b.access n.span)).unspanned) ∧
      (program.Whole → markSize text = 0 → ∃ before after,
        text = before ++ c.file.slice n.span ++ after ∧
          (applyFixes text [d] true).output = before ++ b.replacement c.file ++ after) := by
  obtain ⟨b, region, hb, hregion, rfl⟩ := Context.exists_region_of_mem_fallbackReport? hr hd
  have hadmissible := admissible_of_strict h
  have hiff : (program.replaceAt path (b.access n.span)).Admissible ↔
      (program.position path).isRestricted = false := by
    rw [← Position.accepts_free]
    refine Node.accepts_replaceAt (Position.accepts_free.2 hadmissible) hn ?_
      fun q hq ↦ Fallback.accepts_access hb hq n.span
    exact Fallback.isAbsent_access hb n.span
  refine ⟨b, hb, hiff, fun hrestricted name' text' program' h' heq ↦ ?_, fun hwhole hmark ↦ ?_⟩
  · have hfixed := hiff.1 (Node.admissible_of_unspanned_eq (admissible_of_strict h') heq)
    rw [hrestricted] at hfixed
    cases hfixed
  · have hseats : c.file.Seats program :=
      hc ▸ SourceFile.seats_of_parse (Outcome.program?_of_strict h).1 hwhole hmark
    have hseat := hseats.of_mem_preorder (Node.mem_preorder_iff.2 ⟨path, hn⟩)
    obtain ⟨optional, s, t, inner, u, fallback, rfl, -⟩ := Fallback.exists_parts_of_of? hb
    have hforward := hseat.sits.forward.resolve_left (by simp [Node.kind])
    obtain ⟨before, after, htext, hfixed⟩ := Context.exists_fixed hseat hforward hregion
      (b.replacement c.file) (b.verdict c.oracle c.options)
    have hfile : c.file.text = text := by rw [hc]; rfl
    rw [hfile] at htext hfixed
    exact ⟨before, after, htext, hfixed⟩

def assignedFallback : SourceFile :=
  .ofText "a.ts" "(foo ?? \x7b\x7d).bar = 1;".toList

def assignedProgram : Node :=
  assignedFallback.program?.get (by decide +kernel)

def assignedAccess : Node :=
  (assignedProgram.at? [0, 0, 0]).get (by decide +kernel)

/-- After the fix a value would be assigned to an optional access, so that the text is refused. -/
theorem assigned_fallback_refused :
    assignedFallback.outcome.strict = .ok assignedProgram ∧
      assignedProgram.at? [0, 0, 0] = some assignedAccess ∧
      assignedProgram.position [0, 0, 0] = .target ∧
      (∃ r, Context.fallbackReport? ⟨assignedFallback, .untyped, {}⟩ assignedAccess = some r ∧
        ∃ d ∈ r.diagnostics,
          (applyFixes assignedFallback.text [d] true).output = "foo?.bar = 1;".toList) ∧
      (ofText "a.ts" "foo?.bar = 1;".toList).issues ≠ [] ∧
      ∃ b, Fallback.of? assignedAccess = some b ∧
        ¬(assignedProgram.replaceAt [0, 0, 0] (b.access assignedAccess.span)).Admissible ∧
        ∀ name text program, (ofText name text).outcome.strict = .ok program →
          program.unspanned ≠
            (assignedProgram.replaceAt [0, 0, 0] (b.access assignedAccess.span)).unspanned := by
  have hprogram : assignedFallback.program? = some assignedProgram := (Option.some_get _).symm
  have haccess : assignedProgram.at? [0, 0, 0] = some assignedAccess := (Option.some_get _).symm
  obtain ⟨hissues, hposition, hrefused, r, hr, d, hd, hfixed⟩ : assignedFallback.issues = [] ∧
      assignedProgram.position [0, 0, 0] = .target ∧
      (ofText "a.ts" "foo?.bar = 1;".toList).issues ≠ [] ∧
      ∃ r ∈ Context.fallbackReport? ⟨assignedFallback, .untyped, {}⟩ assignedAccess,
        ∃ d ∈ r.diagnostics,
          (applyFixes assignedFallback.text [d] true).output = "foo?.bar = 1;".toList := by
    decide +kernel
  have hstrict := Outcome.strict_eq_ok hprogram hissues
  obtain ⟨b, hb, hiff, hnone, -⟩ := fallback_fix_admissible_iff hstrict rfl haccess hr hd
  have hrestricted : (assignedProgram.position [0, 0, 0]).isRestricted = true := by
    rw [hposition]
    rfl
  refine ⟨hstrict, haccess, hposition, ⟨r, hr, d, hd, hfixed⟩, hrefused, b, hb,
    fun hadmissible ↦ ?_, hnone hrestricted⟩
  have hfree := hiff.1 hadmissible
  rw [hrestricted] at hfree
  cases hfree

end PreferOptionalChain

end OptionalChain
