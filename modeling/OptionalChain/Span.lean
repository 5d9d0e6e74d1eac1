import OptionalChain.Text.Bytes

/-!
# Spans

A span is a half-open range of byte offsets into the text that was parsed.
-/

namespace OptionalChain

structure Span where
  lo : Nat
  hi : Nat
deriving DecidableEq, Repr

namespace Span

def length (s : Span) : Nat := s.hi - s.lo

/-- Whether the offset lies in the span, its end excluded. -/
def has (s : Span) (offset : Nat) : Bool :=
  s.lo ≤ offset && offset < s.hi

/-- Whether the span lies within `outer`. -/
def within (s outer : Span) : Bool :=
  outer.lo ≤ s.lo && s.hi ≤ outer.hi

/-- The span from the start of `s` to the end of `t`. -/
def upTo (s t : Span) : Span := ⟨s.lo, t.hi⟩

theorem within_refl (s : Span) : s.within s = true := by simp [within]

theorem within_trans {s t u : Span} (h₁ : s.within t = true) (h₂ : t.within u = true) :
    s.within u = true := by
  simp only [within, Bool.and_eq_true, decide_eq_true_eq] at *
  omega

end Span

end OptionalChain
