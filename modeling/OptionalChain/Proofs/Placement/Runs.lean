import OptionalChain.Proofs.Placement.Node

/-!
# Runs of parsers

`Runs w c s m Q`: started at `c` in the setting `s`, the parser `m` ends at a place not before `w`,
whether it fails or not, and if it gives a result, `Q` holds of the result and of that place. The
place `w` is where the parser around `m` was started, which may put its cursor back.
-/

namespace OptionalChain.Grammar

open Text (At Boundary)

variable {text : List Char} {α β σ : Type}

/-- What a run that is not to end before `w` ends with. -/
def Ends (w : Place text) (Q : α → Place text → Prop) : EStateM.Result SyntaxError Cursor α → Prop
  | .ok a c => ∃ d : Place text, d.cursor = c ∧ w ≤ d ∧ Q a d
  | .error _ c => ∃ d : Place text, d.cursor = c ∧ w ≤ d

def Runs (w c : Place text) (s : Setting) (m : Parser α) (Q : α → Place text → Prop) : Prop :=
  Ends w Q (m s c.cursor)

variable {w c d : Place text} {s : Setting} {m : Parser α} {f : α → Parser β}
  {Q : α → Place text → Prop} {R : β → Place text → Prop}

namespace Runs

theorem pure {a : α} (hw : w ≤ c) (h : Q a c) : Runs w c s (pure a) Q :=
  ⟨c, rfl, hw, h⟩

theorem throw {e : SyntaxError} (hw : w ≤ c) : Runs w c s (throw e : Parser α) Q :=
  ⟨c, rfl, hw⟩

theorem bind (hm : Runs w c s m Q) (hf : ∀ a d, w ≤ d → Q a d → Runs w d s (f a) R) :
    Runs w c s (m >>= f) R := by
  change Ends w R (EStateM.bind (m s) (fun a ↦ f a s) c.cursor)
  unfold EStateM.bind
  unfold Runs at hm
  split
  · rename_i a c' heq
    rw [heq] at hm
    obtain ⟨d, rfl, hw, hQ⟩ := hm
    exact hf a d hw hQ
  · rename_i e c' heq
    rw [heq] at hm
    exact hm

/-- A parser that was started here ends later than any earlier place. -/
theorem from_le (hw : w ≤ c) (hm : Runs c c s m Q) :
    Runs w c s m fun a d ↦ c ≤ d ∧ Q a d := by
  unfold Runs at hm ⊢
  generalize m s c.cursor = r at hm ⊢
  cases r with
  | ok a c' =>
    obtain ⟨d, hd, hle, hQ⟩ := hm
    exact ⟨d, hd, hw.trans hle, hle, hQ⟩
  | error e c' =>
    obtain ⟨d, hd, hle⟩ := hm
    exact ⟨d, hd, hw.trans hle⟩

theorem mono {Q' : α → Place text → Prop} (hm : Runs w c s m Q)
    (h : ∀ a d, w ≤ d → Q a d → Q' a d) : Runs w c s m Q' := by
  unfold Runs at hm ⊢
  generalize m s c.cursor = r at hm ⊢
  cases r with
  | ok a c' =>
    obtain ⟨d, hd, hle, hQ⟩ := hm
    exact ⟨d, hd, hle, h a d hle hQ⟩
  | error e c' => exact hm

/-- What two accounts of a run say. -/
theorem and {Q' : α → Place text → Prop} (hm : Runs w c s m Q) (hm' : Runs w c s m Q') :
    Runs w c s m fun a d ↦ Q a d ∧ Q' a d := by
  unfold Runs at hm hm' ⊢
  generalize m s c.cursor = r at hm hm' ⊢
  cases r with
  | ok a c' =>
    obtain ⟨d, hd, hle, hQ⟩ := hm
    obtain ⟨d', hd', -, hQ'⟩ := hm'
    obtain rfl : d = d' := Place.ext (hd.trans hd'.symm)
    exact ⟨d, hd, hle, hQ, hQ'⟩
  | error e c' => exact hm

/-- One parser after another. -/
theorem call (hw : w ≤ c) (hm : Runs c c s m Q)
    (hf : ∀ a d, c ≤ d → w ≤ d → Q a d → Runs w d s (f a) R) : Runs w c s (m >>= f) R :=
  (hm.from_le hw).bind fun a d hwd h ↦ hf a d h.1 hwd h.2

/-- The last parser of a sequence. -/
theorem last {Q' : α → Place text → Prop} (hw : w ≤ c) (hm : Runs c c s m Q)
    (h : ∀ a d, c ≤ d → Q a d → Q' a d) : Runs w c s m Q' :=
  (hm.from_le hw).mono fun a d _ hd ↦ h a d hd.1 hd.2

theorem tryCatch {handler : SyntaxError → Parser α} (hm : Runs w c s m Q)
    (hh : ∀ e d, w ≤ d → Runs w d s (handler e) Q) : Runs w c s (tryCatch m handler) Q := by
  unfold Runs at hm ⊢
  have heq : (MonadExcept.tryCatch m handler : Parser α) s c.cursor =
      match m s c.cursor with
      | .error e c' => handler e s c'
      | .ok a c' => .ok a c' := by
    change EStateM.tryCatch (m s) (fun e ↦ handler e s) c.cursor = _
    unfold EStateM.tryCatch
    dsimp only
    cases m s c.cursor <;> rfl
  rw [heq]
  cases hr : m s c.cursor with
  | error e c' =>
    rw [hr] at hm
    obtain ⟨d, rfl, hw⟩ := hm
    exact hh e d hw
  | ok a c' =>
    rw [hr] at hm
    exact hm

theorem ite {p : Prop} [Decidable p] {m' : Parser α} (h : p → Runs w c s m Q)
    (h' : ¬p → Runs w c s m' Q) : Runs w c s (if p then m else m') Q := by
  split
  · exact h ‹_›
  · exact h' ‹_›

end Runs

/-! ## Parsers that only look -/

/-- The cursor stays where it is. -/
def Looks (m : Parser α) : Prop :=
  ∀ s c, ∃ a, m s c = .ok a c

theorem Looks.pure (a : α) : Looks (pure a) :=
  fun _ _ ↦ ⟨a, rfl⟩

theorem Looks.bind (hm : Looks m) (hf : ∀ a, Looks (f a)) : Looks (m >>= f) := by
  intro s c
  obtain ⟨a, ha⟩ := hm s c
  obtain ⟨b, hb⟩ := hf a s c
  refine ⟨b, ?_⟩
  change EStateM.bind (m s) (fun a ↦ f a s) c = _
  unfold EStateM.bind
  rw [ha]
  exact hb

/-- What is seen is known to whatever follows. -/
theorem Runs.lookAt (hm : Looks m) (hw : w ≤ c)
    (h : ∀ a, m s c.cursor = .ok a c.cursor → Runs w c s (f a) R) : Runs w c s (m >>= f) R := by
  obtain ⟨a, ha⟩ := hm s c.cursor
  have hrun : Runs w c s m fun b d ↦ b = a ∧ d = c := by
    unfold Runs
    rw [ha]
    exact ⟨c, rfl, hw, rfl, rfl⟩
  refine hrun.bind fun b d _ hd ↦ ?_
  obtain ⟨rfl, rfl⟩ := hd
  exact h b ha

theorem Runs.look (hm : Looks m) (hw : w ≤ c) (h : ∀ a, Runs w c s (f a) R) :
    Runs w c s (m >>= f) R :=
  .lookAt hm hw fun a _ ↦ h a

theorem looks_read : Looks (read : Parser Setting) := fun s _ ↦ ⟨s, rfl⟩

theorem looks_isTypescript : Looks isTypescript := fun s _ ↦ ⟨s.dialect.typescript, rfl⟩

theorem looks_dialect : Looks dialect := fun s _ ↦ ⟨s.dialect, rfl⟩

theorem looks_token : Looks token := fun _ c ↦ ⟨c.token, rfl⟩

theorem looks_form : Looks form := fun _ c ↦ ⟨c.token.form, rfl⟩

theorem looks_peek : Looks peek := fun _ c ↦ ⟨(Token.scan c.token.span.hi c.rest).token, rfl⟩

theorem looks_peekTwo : Looks peekTwo := fun _ _ ↦ ⟨_, rfl⟩

theorem looks_isWord (name : String) : Looks (isWord name) :=
  fun _ c ↦ ⟨c.token.form == .word name false, rfl⟩

theorem runs_read {f : Setting → Parser β} :
    Runs w c s (read >>= f) R ↔ Runs w c s (f s) R := Iff.rfl

theorem runs_get {f : Cursor → Parser β} :
    Runs w c s (get >>= f) R ↔ Runs w c s (f c.cursor) R := Iff.rfl

theorem runs_pure {a : α} : Runs w c s (pure a >>= f) R ↔ Runs w c s (f a) R := Iff.rfl

theorem runs_dialect {f : Dialect → Parser β} :
    Runs w c s (dialect >>= f) R ↔ Runs w c s (f s.dialect) R := Iff.rfl

theorem runs_budget {f : Nat → Parser β} :
    Runs w c s (budget >>= f) R ↔ Runs w c s (f s.budget) R := Iff.rfl

theorem runs_isTypescript {f : Bool → Parser β} :
    Runs w c s (isTypescript >>= f) R ↔ Runs w c s (f s.dialect.typescript) R := Iff.rfl

theorem runs_token {f : Token → Parser β} :
    Runs w c s (token >>= f) R ↔ Runs w c s (f c.cursor.token) R := Iff.rfl

theorem runs_form {f : TokenForm → Parser β} :
    Runs w c s (form >>= f) R ↔ Runs w c s (f c.cursor.token.form) R := Iff.rfl

theorem runs_here {f : Nat → Parser β} :
    Runs w c s (here >>= f) R ↔ Runs w c s (f c.lo) R := Iff.rfl

theorem runs_peek {f : Token → Parser β} :
    Runs w c s (peek >>= f) R ↔
      Runs w c s (f (Token.scan c.hi c.cursor.rest).token) R := Iff.rfl

theorem runs_peekTwo {f : Token × Token → Parser β} (h : ∀ t, Runs w c s (f t) R) :
    Runs w c s (peekTwo >>= f) R := h _

theorem runs_spanFrom {lo : Nat} {f : Span → Parser β} :
    Runs w c s (spanFrom lo >>= f) R ↔ Runs w c s (f ⟨lo, c.prevEnd⟩) R := Iff.rfl

theorem runs_nodeFrom {lo : Nat} {kind : Kind} {cs : List Node} {f : Node → Parser β} :
    Runs w c s (nodeFrom lo kind cs >>= f) R ↔ Runs w c s (f (.mk kind ⟨lo, c.prevEnd⟩ cs)) R :=
  Iff.rfl

theorem runs_isPunct {p : Punct} {f : Bool → Parser β} :
    Runs w c s (isPunct p >>= f) R ↔ Runs w c s (f (c.cursor.token.form == .punct p)) R := Iff.rfl

theorem runs_isWord {name : String} {f : Bool → Parser β} :
    Runs w c s (isWord name >>= f) R ↔
      Runs w c s (f (c.cursor.token.form == .word name false)) R := Iff.rfl

theorem runs_isEnd {f : Bool → Parser β} :
    Runs w c s (isEnd >>= f) R ↔ Runs w c s (f (c.cursor.token.form == .endOfText)) R := Iff.rfl

theorem runs_isLess {f : Bool → Parser β} :
    Runs w c s (isLess >>= f) R ↔ Runs w c s (f (c.cursor.token.form == .punct (.op .lt) ||
      c.cursor.token.form == .punct (.op .shl))) R := Iff.rfl

theorem runs_within {change : Setting → Setting} :
    Runs w c s (within change m) Q ↔ Runs w c (change s) m Q := Iff.rfl

end OptionalChain.Grammar
