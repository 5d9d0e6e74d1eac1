import OptionalChain.Proofs.Walks
import OptionalChain.Source.File

/-!
# Walks that are stopped

A visitor keeps a log of the calls that it got and of its answers. When it asks to stop at one of
them, the log is the first part of what it would be without that wish, and the visitor is left in
the state that it had then.
-/

namespace OptionalChain

variable {σ : Type}

/-- A call of a visitor, and whether it asked to stop. -/
structure Call where
  visit : Hook × Node
  stops : Bool

def Walker.withoutLog (w : Walker (σ × List Call)) : Walker σ :=
  ⟨w.state.1, w.stopped⟩

namespace Visitor

variable (visit : Visitor σ)

/-- The same visitor, which also writes down its calls. -/
def logging : Visitor (σ × List Call) := fun hook n x ↦
  match visit hook n x.1 with
  | .go s => .go (s, x.2 ++ [⟨(hook, n), false⟩])
  | .stop s => .stop (s, x.2 ++ [⟨(hook, n), true⟩])

/-- The same visitor, whose wish to stop is not heard. -/
def tireless : Visitor σ := fun hook n s ↦
  .go (visit hook n s).state

/-- The state that the visits leave, whatever the answers to them are. -/
def after (s : σ) (vs : List (Hook × Node)) : σ :=
  vs.foldl (fun s v ↦ (visit v.1 v.2 s).state) s

/-- The calls for a list of visits up to the first one that asks to stop. -/
def ask (s : σ) : List (Hook × Node) → List Call
  | [] => []
  | v :: vs =>
    match visit v.1 v.2 s with
    | .go s => ⟨v, false⟩ :: ask s vs
    | .stop _ => [⟨v, true⟩]

end Visitor

/-- The calls that a walk makes. -/
def Node.calls (visit : Visitor σ) (n : Node) (s : σ) : List Call :=
  (n.walk visit.logging (s, [])).state.2

namespace Visitor

variable {visit : Visitor σ}

theorem ask_cons_go {s t : σ} {v : Hook × Node} (h : visit v.1 v.2 s = .go t)
    (vs : List (Hook × Node)) : visit.ask s (v :: vs) = ⟨v, false⟩ :: visit.ask t vs := by
  rw [ask, h]

theorem ask_cons_stop {s t : σ} {v : Hook × Node} (h : visit v.1 v.2 s = .stop t)
    (vs : List (Hook × Node)) : visit.ask s (v :: vs) = [⟨v, true⟩] := by
  rw [ask, h]

/-- The calls are for the first visits, one for each and in their order. -/
theorem map_visit_ask (s : σ) (vs : List (Hook × Node)) :
    (visit.ask s vs).map Call.visit = vs.take (visit.ask s vs).length := by
  induction vs generalizing s with
  | nil => rfl
  | cons v vs ih =>
    cases hanswer : visit v.1 v.2 s with
    | go t => rw [ask_cons_go hanswer, List.map_cons, ih, List.length_cons, List.take_succ_cons]
    | stop t => rw [ask_cons_stop hanswer]; rfl

/-- The log grows by the calls that are made, and the visitor does not notice it. -/
theorem foldl_next_logging (s : σ) (log : List Call) (vs : List (Hook × Node)) :
    vs.foldl (Walker.next visit.logging) { state := (s, log) } =
      ⟨(visit.after s (vs.take (visit.ask s vs).length), log ++ visit.ask s vs),
        (visit.ask s vs).any Call.stops⟩ := by
  induction vs generalizing s log with
  | nil => simp [ask, after]
  | cons v vs ih =>
    cases hanswer : visit v.1 v.2 s with
    | go t =>
      have hnext : Walker.next visit.logging { state := (s, log) } v =
          { state := (t, log ++ [⟨v, false⟩]) } := by
        simp [Walker.next, logging, hanswer]
      rw [List.foldl_cons, hnext, ih, ask_cons_go hanswer]
      simp [after, hanswer, Flow.state]
    | stop t =>
      have hnext : Walker.next visit.logging { state := (s, log) } v =
          ⟨(t, log ++ [⟨v, true⟩]), true⟩ := by
        simp [Walker.next, logging, hanswer]
      rw [List.foldl_cons, hnext, Walker.foldl_next_of_stopped visit.logging rfl,
        ask_cons_stop hanswer]
      simp [after, hanswer, Flow.state]

theorem next_withoutLog (w : Walker (σ × List Call)) (v : Hook × Node) :
    Walker.next visit w.withoutLog v = (Walker.next visit.logging w v).withoutLog := by
  obtain ⟨⟨s, log⟩, stopped⟩ := w
  cases stopped with
  | true => rfl
  | false =>
    cases hanswer : visit v.1 v.2 s <;>
      simp [Walker.next, logging, Walker.withoutLog, hanswer]

/-- A visitor that keeps no log goes through the same states. -/
theorem foldl_next_eq (s : σ) (vs : List (Hook × Node)) :
    vs.foldl (Walker.next visit) { state := s } =
      ⟨visit.after s (vs.take (visit.ask s vs).length), (visit.ask s vs).any Call.stops⟩ :=
  calc
    _ = vs.foldl (Walker.next visit) (Walker.withoutLog { state := (s, []) }) := rfl
    _ = (vs.foldl (Walker.next visit.logging) { state := (s, []) }).withoutLog :=
      List.foldl_hom Walker.withoutLog next_withoutLog
    _ = _ := by rw [foldl_next_logging]; rfl

theorem ask_tireless (s : σ) (vs : List (Hook × Node)) :
    visit.tireless.ask s vs = vs.map fun v ↦ ⟨v, false⟩ := by
  induction vs generalizing s with
  | nil => rfl
  | cons v vs ih => rw [ask_cons_go rfl, ih, List.map_cons]

/-! ## Stopping at a given call -/

/-- The call number `n` of the log asks to stop and none before it does. -/
def StopsAt (log : List Call) (n : Nat) : Prop :=
  ∀ i < n, ∀ call ∈ log[i]?, (call.stops = true ↔ i + 1 = n)

instance (log : List Call) (n : Nat) : Decidable (StopsAt log n) :=
  inferInstanceAs (Decidable (∀ i < n, ∀ call ∈ log[i]?, (call.stops = true ↔ i + 1 = n)))

theorem StopsAt.tail {call : Call} {log : List Call} {n : Nat}
    (h : StopsAt (call :: log) (n + 1)) : StopsAt log n := by
  intro i hi c hc
  have hnext := h (i + 1) (Nat.succ_lt_succ hi) c hc
  rw [hnext]
  exact Nat.succ_inj

/-- As many calls are made as the one that stops says, or all if there are fewer visits. -/
theorem StopsAt.length_ask {s : σ} {vs : List (Hook × Node)} {n : Nat} (hn : 1 ≤ n)
    (h : StopsAt (visit.ask s vs) n) :
    (visit.ask s vs).length = min n vs.length ∧
      (visit.ask s vs).any Call.stops = decide (n ≤ vs.length) := by
  induction vs generalizing s n with
  | nil => simp [ask, Nat.one_le_iff_ne_zero.1 hn]
  | cons v vs ih =>
    obtain ⟨m, rfl⟩ := Nat.exists_eq_succ_of_ne_zero (Nat.one_le_iff_ne_zero.1 hn)
    cases hanswer : visit v.1 v.2 s with
    | go t =>
      rw [ask_cons_go hanswer] at h ⊢
      -- The first call goes on, so it is not the one that stops.
      have hm : m ≠ 0 := by
        have hfirst := h 0 (Nat.succ_pos m) _ rfl
        simpa [eq_comm] using hfirst
      obtain ⟨hlength, hany⟩ := ih (Nat.one_le_iff_ne_zero.2 hm) h.tail
      simp [hlength, hany, Nat.succ_min_succ]
    | stop t =>
      rw [ask_cons_stop hanswer] at h ⊢
      have hm : m = 0 := by
        have hfirst := h 0 (Nat.succ_pos m) _ rfl
        simpa [eq_comm] using hfirst
      simp [hm]

end Visitor

namespace Node

open Visitor

theorem calls_eq_ask (visit : Visitor σ) (n : Node) (s : σ) :
    n.calls visit s = visit.ask s n.visits := by
  rw [calls, walk_eq_foldl, foldl_next_logging, List.nil_append]
  unfold Walker.flow
  split <;> rfl

/-- A visitor that is never heard is called for every visit of the tree. -/
theorem map_visit_calls_tireless (visit : Visitor σ) (n : Node) (s : σ) :
    (n.calls visit.tireless s).map Call.visit = n.visits := by
  rw [calls_eq_ask, ask_tireless, List.map_map]
  exact List.map_id _

/-- A visitor that asks to stop at its call number `n`, and not before, is called for the first `n`
visits of the whole walk in their order, or for all of them if there are fewer. No call follows: it
is left in the state that these visits give. -/
theorem stopped_walk_makes_first_calls (visit : Visitor σ) (program : Node) (s : σ) {n : Nat}
    (hn : 1 ≤ n) (h : StopsAt (program.calls visit s) n) :
    (program.calls visit s).map Call.visit =
        ((program.calls visit.tireless s).map Call.visit).take
          (min n (program.calls visit.tireless s).length) ∧
      (program.calls visit.tireless s).map Call.visit = program.visits ∧
      program.walk visit s =
        if n ≤ program.visits.length then .stop (visit.after s (program.visits.take n))
        else .go (visit.after s program.visits) := by
  have htireless := map_visit_calls_tireless visit program s
  have htotal : (program.calls visit.tireless s).length = program.visits.length := by
    rw [← htireless, List.length_map]
  rw [calls_eq_ask] at h
  obtain ⟨hlength, hany⟩ := h.length_ask hn
  refine ⟨?_, htireless, ?_⟩
  · rw [htireless, htotal, calls_eq_ask, map_visit_ask, hlength]
  · rw [walk_eq_foldl, foldl_next_eq, hlength, hany, Walker.flow]
    by_cases hle : n ≤ program.visits.length
    · simp [hle]
    · simp [hle, Nat.min_eq_right (Nat.le_of_not_le hle)]

def loopInArgument : Node :=
  (SourceFile.ofText "a.js" "f(x => \x7b while (a && b.c) g(); \x7d, d.e);".toList).program?.get
    (by decide +kernel)

/-- Of five visits the first two are made. The second is in the condition of a loop in an argument,
and neither the right operand there nor the other argument is visited any more. -/
theorem walk_stopped_in_loop :
    StopsAt (loopInArgument.calls (collect (some 2)) []) 2 ∧
      loopInArgument.visits.map Prod.fst = [.argument, .binary, .member, .argument, .member] ∧
      (loopInArgument.calls (collect (some 2)) []).map (·.visit.1) = [.argument, .binary] := by
  obtain ⟨hstops, hvisits⟩ : StopsAt (loopInArgument.calls (collect (some 2)) []) 2 ∧
      loopInArgument.visits.map Prod.fst = [.argument, .binary, .member, .argument, .member] := by
    decide +kernel
  obtain ⟨hcalls, hwhole, -⟩ :=
    stopped_walk_makes_first_calls (collect (some 2)) loopInArgument [] (by decide) hstops
  have htotal : (loopInArgument.calls (collect (some 2)).tireless []).length = 5 :=
    calc
      _ = (loopInArgument.visits.map Prod.fst).length := by
        rw [List.length_map, ← hwhole, List.length_map]
      _ = 5 := by rw [hvisits]; rfl
  refine ⟨hstops, hvisits, ?_⟩
  calc
    _ = ((loopInArgument.calls (collect (some 2)) []).map Call.visit).map Prod.fst := by
      rw [List.map_map]; rfl
    _ = (loopInArgument.visits.map Prod.fst).take 2 := by
      rw [hcalls, hwhole, htotal, List.map_take]; rfl
    _ = [.argument, .binary] := by rw [hvisits]; rfl

end Node

end OptionalChain
