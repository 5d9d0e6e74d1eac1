import Mathlib.Data.List.Forall2
import OptionalChain.Proofs.Placement.Runs

/-!
# Taking tokens

What the parsers do that take single tokens, note errors, look ahead or repeat a step.
-/

namespace OptionalChain.Grammar

open Text (At Boundary)

variable {text : List Char} {α β σ : Type} {w c d : Place text} {s : Setting} {m : Parser α}
  {f : α → Parser β} {Q : α → Place text → Prop} {R : β → Place text → Prop} {lo : Nat}

/-- Any result at any later place. -/
abbrev Anywhere (_ : α) (_ : Place text) : Prop := True

/-! ## One token -/

/-- The token is taken, and the cursor advances. -/
theorem Runs.advance {f : Unit → Parser β} (hw : w ≤ c)
    (h : ∀ d, c ≤ d → w ≤ d → c.Past d → d.cursor = c.cursor.advance → Runs w d s (f ()) R) :
    Runs w c s (Grammar.bump >>= f) R := by
  obtain ⟨d, hd, hle, hprev⟩ := c.exists_advance
  have hbump : Runs c c s bump fun _ d ↦ c.Past d ∧ d.cursor = c.cursor.advance :=
    ⟨d, hd, hle, Place.past_of_taken hle (Nat.le_of_eq hprev.symm), hd⟩
  exact .call hw hbump fun _ d hcd hwd hd ↦ h d hcd hwd hd.1 hd.2

theorem runs_bump (c : Place text) (s : Setting) : Runs c c s bump fun _ d ↦ d.prevEnd = c.hi := by
  obtain ⟨d, hd, hle, hprev⟩ := c.exists_advance
  exact ⟨d, hd, hle, hprev⟩

theorem Runs.bump {f : Unit → Parser β} (hw : w ≤ c)
    (h : ∀ d, c ≤ d → w ≤ d → d.prevEnd = c.hi → Runs w d s (f ()) R) :
    Runs w c s (Grammar.bump >>= f) R :=
  .call hw (runs_bump c s) fun _ d hcd hwd hprev ↦ h d hcd hwd hprev

theorem Runs.spend {f : Unit → Parser β} (hw : w ≤ c)
    (h : ∀ d, c ≤ d → w ≤ d → c.Past d → Runs w d s (f ()) R) :
    Runs w c s (Grammar.bump >>= f) R :=
  .bump hw fun d hcd hwd hprev ↦ h d hcd hwd (Place.past_of_taken hcd (Nat.le_of_eq hprev.symm))

theorem Runs.eat {p : Punct} {f : Bool → Parser β} (hw : w ≤ c)
    (hyes : ∀ d, c ≤ d → w ≤ d → c.Past d → Runs w d s (f true) R) (hno : Runs w c s (f false) R) :
    Runs w c s (Grammar.eat p >>= f) R := by
  unfold Grammar.eat
  rw [bind_assoc, runs_isPunct]
  split
  · rw [bind_assoc]
    exact .spend hw hyes
  · exact hno

theorem Runs.eatWord {name : String} {f : Bool → Parser β} (hw : w ≤ c)
    (hyes : ∀ d, c ≤ d → w ≤ d → c.Past d → Runs w d s (f true) R) (hno : Runs w c s (f false) R) :
    Runs w c s (Grammar.eatWord name >>= f) R := by
  unfold Grammar.eatWord
  rw [bind_assoc, runs_isWord]
  split
  · rw [bind_assoc]
    exact .spend hw hyes
  · exact hno

/-! ## Errors -/

/-- An error was noted. -/
abbrev Noted (_ : α) (d : Place text) : Prop :=
  d.errors ≠ []

theorem runs_note (c : Place text) (s : Setting) (e : SyntaxError) :
    Runs c c s (note e) fun _ d ↦ c.SameSpot d ∧ d.errors ≠ [] := by
  obtain ⟨d, hd, hspot⟩ := c.exists_noted_errors (c.errors ++ [e])
  have herrors : d.errors ≠ [] := by
    rw [Place.errors, hd]
    exact List.append_ne_nil_of_right_ne_nil _ (List.cons_ne_nil e [])
  exact ⟨d, hd, hspot.le fun hnil ↦ absurd hnil herrors, hspot, herrors⟩

theorem runs_takeInvalid (c : Place text) (s : Setting) :
    Runs c c s takeInvalid? fun e? d ↦ e? = none → d = c := by
  unfold takeInvalid?
  rw [runs_form]
  split
  · exact .spend (le_refl c) fun d _ hcd _ ↦ .pure hcd fun h ↦ by cases h
  · exact .pure (le_refl c) fun _ ↦ rfl

theorem runs_recover (c : Place text) (s : Setting) (e : SyntaxError) :
    Runs c c s (recover e) Noted := by
  unfold recover
  refine .call (le_refl c) (runs_takeInvalid c s) fun earlier? d hcd _ _ ↦ ?_
  split
  · refine .call hcd (runs_note d s _) fun _ d' _ hcd' _ ↦ ?_
    exact (runs_note d' s e).last hcd' fun _ _ _ h ↦ h.2
  · exact (runs_note d s e).last hcd fun _ _ _ h ↦ h.2

theorem runs_emitted (c : Place text) (s : Setting) (span : Span) (fault : Fault) :
    Runs c c s (emit span fault) Noted :=
  runs_recover c s _

theorem runs_emit (c : Place text) (s : Setting) (span : Span) (fault : Fault) :
    Runs c c s (emit span fault) Anywhere :=
  (runs_emitted c s span fault).mono fun _ _ _ _ ↦ trivial

/-- Where a token stands that is a valid one, an error is only noted. -/
theorem runs_emit_of_form (h : ∀ e, c.cursor.token.form ≠ .invalid e) (s : Setting) (span : Span)
    (fault : Fault) :
    Runs c c s (emit span fault) fun _ d ↦ c.SameSpot d ∧ d.errors ≠ [] := by
  unfold emit recover takeInvalid?
  rw [bind_assoc, runs_form]
  split
  · rename_i e he
    exact absurd he (h e)
  · exact runs_note c s _

/-- Where an error is noted, no valid token is taken. -/
theorem runs_emit_follows {pos : Nat} (h : c.Follows pos) (s : Setting) (span : Span)
    (fault : Fault) : Runs c c s (emit span fault) fun _ d ↦ d.Follows pos := by
  by_cases hinvalid : ∃ e, c.cursor.token.form = .invalid e
  · exact (runs_emit c s span fault).mono fun _ d hcd _ ↦ h.of_invalid hcd hinvalid
  · exact (runs_emit_of_form (fun e he ↦ hinvalid ⟨e, he⟩) s span fault).mono fun _ d _ hd ↦
      h.of_sameSpot hd.1

/-- An error is noted after the node that was read last. -/
theorem runs_emit_last {n : Node} (h : c.HasLast lo n) (s : Setting) (span : Span)
    (fault : Fault) : Runs c c s (emit span fault) fun _ d ↦ d.HasLast lo n := by
  have htrails : Runs c c s (emit span fault) fun _ d ↦ d.Trails n := by
    by_cases hpath : n.kind.onPath = true
    · exact (runs_emit_follows (h.trails hpath) s span fault).mono fun _ _ _ hd _ ↦ hd
    · exact (runs_emit c s span fault).mono fun _ _ _ _ hpath' ↦ absurd hpath' hpath
  exact htrails.mono fun _ d hcd hd ↦ ⟨h.has.of_le hcd, hd⟩

theorem Runs.emit {span : Span} {fault : Fault} {f : Unit → Parser β} (hw : w ≤ c)
    (h : ∀ d, c ≤ d → w ≤ d → Runs w d s (f ()) R) :
    Runs w c s (Grammar.emit span fault >>= f) R :=
  .call hw (runs_emit c s span fault) fun _ d hcd hwd _ ↦ h d hcd hwd

theorem Runs.failAt {span : Span} {fault : Fault} (hw : w ≤ c) :
    Runs w c s (Grammar.failAt span fault : Parser α) Q := by
  unfold Grammar.failAt
  refine .call hw (runs_takeInvalid c s) fun e? d _ hwd _ ↦ ?_
  split
  · exact .call hwd (runs_recover d s _) fun _ d' _ hwd' _ ↦ .throw hwd'
  · exact .throw hwd

theorem Runs.failHere {fault : Fault} (hw : w ≤ c) :
    Runs w c s (Grammar.failHere fault : Parser α) Q :=
  .failAt hw

theorem Runs.failAtEnd (hw : w ≤ c) : Runs w c s (Grammar.failAtEnd : Parser α) Q :=
  ⟨c, rfl, hw⟩

theorem Runs.failExpected {wanted : String} (hw : w ≤ c) :
    Runs w c s (Grammar.failExpected wanted : Parser α) Q :=
  .failHere hw

/-- A parser that stops. -/
theorem Runs.stop (h : Runs w c s m fun _ _ ↦ False) : Runs w c s (m >>= f) R :=
  .bind h fun _ _ _ hfalse ↦ hfalse.elim

/-- A step that is made only on a condition. -/
theorem Runs.when {b : Prop} [Decidable b] {k : Parser β} (hw : w ≤ c)
    (hm : b → Runs c c s m Anywhere) (h : ∀ d, c ≤ d → w ≤ d → Runs w d s k R) :
    Runs w c s (if b then m >>= fun _ ↦ k else k) R := by
  split
  · exact .call hw (hm ‹_›) fun _ d hcd hwd _ ↦ h d hcd hwd
  · exact h c (le_refl c) hw

/-- A step that is made only on a condition, and keeps what holds. -/
theorem Runs.whenKeeping {b : Prop} [Decidable b] {k : Parser β} {I : Place text → Prop}
    (hw : w ≤ c) (hI : I c) (hm : b → Runs c c s m fun _ d ↦ I d)
    (h : ∀ d, c ≤ d → w ≤ d → I d → Runs w d s k R) :
    Runs w c s (if b then m >>= fun _ ↦ k else k) R := by
  split
  · exact .call hw (hm ‹_›) fun _ d hcd hwd hd ↦ h d hcd hwd hd
  · exact h c (le_refl c) hw hI

/-- A parser that stops on a condition. -/
theorem Runs.guard {b : Prop} [Decidable b] {k : Parser β}
    (hm : b → Runs w c s m fun _ _ ↦ False) (h : ¬b → Runs w c s k R) :
    Runs w c s (if b then m >>= fun _ ↦ k else k) R := by
  split
  · exact .stop (hm ‹_›)
  · exact h ‹_›

/-- One of two parsers and what follows it. -/
theorem Runs.choose {b : Prop} [Decidable b] {m' : Parser α} (hw : w ≤ c)
    (hm : b → Runs c c s m Q) (hm' : ¬b → Runs c c s m' Q)
    (h : ∀ a d, c ≤ d → w ≤ d → Q a d → Runs w d s (f a) R) :
    Runs w c s (if b then m >>= f else m' >>= f) R := by
  split
  · exact .call hw (hm ‹_›) h
  · exact .call hw (hm' ‹_›) h

/-- Another parser after a token, if it is there, and what follows in both cases. -/
theorem Runs.eatThen {p : Punct} {m' : Parser α} (hw : w ≤ c)
    (hm : ∀ d, c ≤ d → c.Past d → Runs d d s m Q) (hm' : Runs c c s m' Q)
    (h : ∀ a d, c ≤ d → w ≤ d → Q a d → Runs w d s (f a) R) :
    Runs w c s (Grammar.eat p >>= fun b ↦ if b = true then m >>= f else m' >>= f) R :=
  .eat hw (fun d hcd hwd hpast ↦ .call hwd (hm d hcd hpast) fun a e hde hwe hQ ↦
    h a e (hcd.trans hde) hwe hQ) (.call hw hm' h)

theorem Runs.eatWordThen {name : String} {m' : Parser α} (hw : w ≤ c)
    (hm : ∀ d, c ≤ d → c.Past d → Runs d d s m Q) (hm' : Runs c c s m' Q)
    (h : ∀ a d, c ≤ d → w ≤ d → Q a d → Runs w d s (f a) R) :
    Runs w c s (Grammar.eatWord name >>= fun b ↦ if b = true then m >>= f else m' >>= f) R :=
  .eatWord hw (fun d hcd hwd hpast ↦ .call hwd (hm d hcd hpast) fun a e hde hwe hQ ↦
    h a e (hcd.trans hde) hwe hQ) (.call hw hm' h)

/-- A step after a token, if it is there. -/
theorem Runs.eatWhen {p : Punct} {k : Parser β} (hw : w ≤ c)
    (hm : ∀ d, c ≤ d → Runs d d s m Anywhere) (h : ∀ d, c ≤ d → w ≤ d → Runs w d s k R) :
    Runs w c s (Grammar.eat p >>= fun b ↦ if b = true then m >>= (fun _ ↦ k) else k) R :=
  .eat hw (fun d hcd hwd _ ↦ .call hwd (hm d hcd) fun _ e hde hwe _ ↦ h e (hcd.trans hde) hwe)
    (h c (le_refl c) hw)

/-- A token that may be there. -/
theorem Runs.eatAny {p : Punct} {g : Bool → Parser β} (hw : w ≤ c)
    (h : ∀ b d, c ≤ d → w ≤ d → Runs w d s (g b) R) : Runs w c s (Grammar.eat p >>= g) R :=
  .eat hw (fun d hcd hwd _ ↦ h true d hcd hwd) (h false c (le_refl c) hw)

theorem Runs.eatWordAny {name : String} {g : Bool → Parser β} (hw : w ≤ c)
    (h : ∀ b d, c ≤ d → w ≤ d → Runs w d s (g b) R) : Runs w c s (Grammar.eatWord name >>= g) R :=
  .eatWord hw (fun d hcd hwd _ ↦ h true d hcd hwd) (h false c (le_refl c) hw)

theorem Runs.rejectInvalid {f : Unit → Parser β} (hw : w ≤ c) (h : Runs w c s (f ()) R) :
    Runs w c s (Grammar.rejectInvalid >>= f) R := by
  unfold Grammar.rejectInvalid
  rw [bind_assoc]
  refine .call hw (runs_takeInvalid c s) fun e? d _ hwd hd ↦ ?_
  split
  · exact .throw hwd
  · rw [hd rfl]
    exact h

theorem Runs.expect {p : Punct} {f : Unit → Parser β} (hw : w ≤ c)
    (h : ∀ d, c ≤ d → w ≤ d → c.Past d → Runs w d s (f ()) R) :
    Runs w c s (Grammar.expect p >>= f) R := by
  unfold Grammar.expect
  rw [bind_assoc]
  refine .eat hw (fun d hcd hwd hpast ↦ h d hcd hwd hpast) ?_
  exact .stop (.failExpected hw)

theorem Runs.expectWord {name : String} {f : Unit → Parser β} (hw : w ≤ c)
    (h : ∀ d, c ≤ d → w ≤ d → c.Past d → Runs w d s (f ()) R) :
    Runs w c s (Grammar.expectWord name >>= f) R := by
  unfold Grammar.expectWord
  rw [bind_assoc]
  refine .eatWord hw (fun d hcd hwd hpast ↦ h d hcd hwd hpast) ?_
  exact .stop (.failExpected hw)

theorem runs_expect (c : Place text) (s : Setting) (p : Punct) :
    Runs c c s (expect p) fun _ d ↦ c.Past d := by
  rw [← bind_pure (expect p)]
  exact .expect (le_refl c) fun _ _ hcd hpast ↦ .pure hcd hpast

/-- A mark that was taken has text. -/
theorem runs_expect_lt (c : Place text) (s : Setting) (p : Punct) :
    Runs c c s (expect p) fun _ d ↦ c.lo < d.prevEnd := by
  unfold expect eat
  rw [bind_assoc, runs_isPunct]
  split
  · rename_i hform
    rw [bind_assoc]
    refine .bump (le_refl c) fun d _ hcd hprev ↦ .pure hcd ?_
    rw [hprev]
    exact c.lo_lt_hi (by simpa using hform)
  · exact .failExpected (le_refl c)

theorem runs_expectWord (c : Place text) (s : Setting) (name : String) :
    Runs c c s (expectWord name) fun _ d ↦ c.Past d := by
  rw [← bind_pure (expectWord name)]
  exact .expectWord (le_refl c) fun _ _ hcd hpast ↦ .pure hcd hpast

/-- Where a statement does not end, the token is on the line of the one before it. -/
theorem Runs.endStatement {f : Bool → Parser β} (hw : w ≤ c)
    (hyes : ∀ d, c ≤ d → w ≤ d → Runs w d s (f true) R)
    (hno : c.cursor.token.newline = false → Runs w c s (f false) R) :
    Runs w c s (Grammar.eatSemicolon >>= f) R := by
  unfold Grammar.eatSemicolon
  rw [bind_assoc]
  refine .eat hw (fun d hcd hwd _ ↦ hyes d hcd hwd) ?_
  have hlook : Runs w c s (f (c.cursor.token.form == .endOfText ||
      c.cursor.token.form == .punct .rbrace || c.cursor.token.newline)) R := by
    cases hend : (c.cursor.token.form == .endOfText || c.cursor.token.form == .punct .rbrace ||
      c.cursor.token.newline) with
    | true => exact hyes c (le_refl c) hw
    | false =>
      simp only [Bool.or_eq_false_iff] at hend
      exact hno hend.2
  exact hlook

theorem Runs.eatSemicolon {f : Bool → Parser β} (hw : w ≤ c)
    (h : ∀ b d, c ≤ d → w ≤ d → Runs w d s (f b) R) : Runs w c s (Grammar.eatSemicolon >>= f) R :=
  .endStatement hw (h true) fun _ ↦ h false c (le_refl c) hw

theorem Runs.expectSemicolon {f : Unit → Parser β} (hw : w ≤ c)
    (h : ∀ d, c ≤ d → w ≤ d → Runs w d s (f ()) R) :
    Runs w c s (Grammar.expectSemicolon >>= f) R := by
  unfold Grammar.expectSemicolon
  rw [bind_assoc]
  refine .eatSemicolon hw fun b d hcd hwd ↦ ?_
  cases b with
  | true => exact h d hcd hwd
  | false =>
    exact .stop (.failExpected hwd)

/-! ## Looking ahead -/

/-- The cursor is put back to an earlier place, which keeps the list of all comments if it stood at
the end of the text. -/
theorem runs_rewind {b : Place text} (hw : w ≤ b) (hbc : b ≤ c) :
    Runs w c s (rewind b.cursor) fun _ d ↦ b ≤ d := by
  obtain ⟨d, hd, hspot⟩ := b.exists_noted b.errors
    (fun m hm ↦ c.standsIn.comments m (List.mem_append_right _ hm)) fun hend ↦ by
      obtain ⟨hend', hcomments⟩ := hbc.ended hend
      exact (c.standsIn.listed_eq hend').trans hcomments
  have hle : b ≤ d := hspot.le fun herrors ↦ by rwa [Place.errors, hd] at herrors
  exact ⟨d, hd, hw.trans hle, hle⟩

theorem Runs.rewind {b : Place text} {f : Unit → Parser β} (hw : w ≤ b) (hbc : b ≤ c)
    (h : ∀ d, b ≤ d → w ≤ d → Runs w d s (f ()) R) :
    Runs w c s (Grammar.rewind b.cursor >>= f) R :=
  .bind (runs_rewind hw hbc) fun _ d hwd hbd ↦ h d hbd hwd

theorem runs_attempt (hm : Runs c c s m Q) :
    Runs c c s (attempt m) fun r d ↦ ∀ a, r = some a → Q a d := by
  unfold attempt
  rw [runs_get]
  refine .bind (Q := fun x d ↦ Runs c d s (EarlyReturn.runK x (fun r ↦ Pure.pure r) fun r ↦
    Pure.pure r) fun r d ↦ ∀ a, r = some a → Q a d) (.tryCatch ?_ fun _ d hcd ↦ ?_) fun _ _ _ h ↦ h
  · refine .bind hm fun a d hcd hQ ↦ .pure hcd (.pure hcd fun b hb ↦ ?_)
    rwa [← Option.some.inj hb]
  · exact .rewind (le_refl c) hcd fun e hce _ ↦ .pure hce (.pure hce fun a ha ↦ by cases ha)

theorem Runs.attempt {f : Option α → Parser β} (hw : w ≤ c) (hm : Runs c c s m Q)
    (hsome : ∀ a d, c ≤ d → w ≤ d → Q a d → Runs w d s (f (some a)) R)
    (hnone : ∀ d, c ≤ d → w ≤ d → Runs w d s (f none) R) :
    Runs w c s (Grammar.attempt m >>= f) R := by
  refine .call hw (runs_attempt hm) fun r d hcd hwd hQ ↦ ?_
  cases r with
  | some a => exact hsome a d hcd hwd (hQ a rfl)
  | none => exact hnone d hcd hwd

/-- What holds of a result also holds of it at later places. -/
def Lasting (Q : α → Place text → Prop) : Prop :=
  ∀ a d e, d ≤ e → Q a d → Q a e

/-- What holds of a result that was read with errors that do not count. -/
def Survives (Q Q' : α → Place text → Prop) : Prop :=
  ∀ a d e, d.SameSpot e → Q a d → Q' a e

theorem Runs.speculate {P : α → Place text → Prop} {f : Option α → Parser β} (hw : w ≤ c)
    (hsurvives : Survives Q P) (hm : Runs c c s m Q)
    (hsome : ∀ a d, c ≤ d → w ≤ d → P a d → Runs w d s (f (some a)) R)
    (hnone : ∀ d, c ≤ d → w ≤ d → Runs w d s (f none) R) :
    Runs w c s (Grammar.speculate m >>= f) R := by
  have hrun : Runs c c s (Grammar.speculate m) fun r d ↦ ∀ a, r = some a → P a d := by
    unfold Grammar.speculate
    rw [runs_get]
    refine .call (le_refl c) (runs_attempt hm) fun r d hcd _ hQ ↦ ?_
    obtain ⟨e, he, hspot⟩ := d.exists_noted_errors c.errors
    have hce : c ≤ e := hspot.le_of_le hcd fun herrors ↦ by rwa [Place.errors, he] at herrors
    exact ⟨e, he, hce, fun a ha ↦ hsurvives a d e hspot (hQ a ha)⟩
  refine .call hw hrun fun r d hcd hwd hQ ↦ ?_
  cases r with
  | some a => exact hsome a d hcd hwd (hQ a rfl)
  | none => exact hnone d hcd hwd

theorem Runs.ahead {test : Parser Bool} {f : Bool → Parser β} (hw : w ≤ c)
    (hm : Runs c c s test Anywhere) (h : ∀ b d, c ≤ d → w ≤ d → Runs w d s (f b) R) :
    Runs w c s (Grammar.ahead test >>= f) R := by
  unfold Grammar.ahead
  rw [bind_assoc, runs_get, bind_assoc]
  refine .attempt hw hm (fun b d hcd hwd _ ↦ ?_) fun d hcd hwd ↦ ?_
  · rw [bind_assoc]
    exact .rewind hw hcd fun e hce hwe ↦ h _ e hce hwe
  · rw [bind_assoc]
    exact .rewind hw hcd fun e hce hwe ↦ h _ e hce hwe

/-! ## Repetition -/

/-- A step goes on with a state, or ends with a result. -/
def Next (I : σ → Place text → Prop) (Q : α → Place text → Prop) : σ ⊕ α → Place text → Prop
  | .inl x, d => I x d
  | .inr a, d => Q a d

theorem Runs.anywhere (hm : Runs w c s m Q) : Runs w c s m Anywhere :=
  hm.mono fun _ _ _ _ ↦ trivial

theorem runs_iterateFrom {step : σ → Parser (σ ⊕ α)} {I : σ → Place text → Prop}
    (hstep : ∀ x d, c ≤ d → I x d → Runs d d s (step x) (Next I Q)) (fuel : Nat) {x : σ}
    (hcd : c ≤ d) (hI : I x d) : Runs c d s (iterateFrom step fuel x) Q := by
  induction fuel generalizing x d with
  | zero => exact .failAtEnd hcd
  | succ fuel ih =>
    unfold iterateFrom
    refine .call hcd (hstep x d hcd hI) fun r e _ hce hnext ↦ ?_
    cases r with
    | inl y => exact ih hce hnext
    | inr a => exact .pure hce hnext

/-- A loop keeps what every step keeps. -/
theorem runs_iterate {step : σ → Parser (σ ⊕ α)} (I : σ → Place text → Prop) {x : σ} (hI : I x c)
    (hstep : ∀ x d, c ≤ d → I x d → Runs d d s (step x) (Next I Q)) :
    Runs c c s (iterate step x) Q := by
  unfold iterate
  rw [runs_budget]
  exact runs_iterateFrom hstep _ (le_refl c) hI

theorem runs_forM {xs : List σ} {g : σ → Parser PUnit} (hw : w ≤ c)
    (h : ∀ x ∈ xs, ∀ d, c ≤ d → Runs d d s (g x) Anywhere) : Runs w c s (xs.forM g) Anywhere := by
  induction xs generalizing c with
  | nil => exact .pure hw trivial
  | cons x xs ih =>
    refine .call hw (h x List.mem_cons_self c (le_refl c)) fun _ d hcd hwd _ ↦ ?_
    exact ih hwd fun y hy e hde ↦ h y (List.mem_cons_of_mem x hy) e (hcd.trans hde)

/-- One parser after the other for the items of a list. -/
theorem runs_mapM {τ : Type} {g : σ → Parser τ} {P : σ → τ → Place text → Prop}
    (hlasting : ∀ x, Lasting (P x)) {xs : List σ}
    (h : ∀ x ∈ xs, ∀ d, c ≤ d → Runs d d s (g x) (P x)) :
    Runs c c s (xs.mapM g) fun ys d ↦ List.Forall₂ (fun x y ↦ P x y d) xs ys := by
  induction xs generalizing c with
  | nil => exact .pure (le_refl c) .nil
  | cons x xs ih =>
    rw [List.mapM_cons]
    refine .call (le_refl c) (h x List.mem_cons_self c (le_refl c)) fun y d hcd _ hy ↦ ?_
    have hrest := ih fun x' hx' e hde ↦ h x' (List.mem_cons_of_mem x hx') e (hcd.trans hde)
    exact .call hcd hrest fun ys e hde hce hys ↦ .pure hce (.cons (hlasting x y d e hde hy) hys)

/-! ## Lists -/

/-- All nodes of a list were read from `lo` on. -/
def Place.HasAll (c : Place text) (lo : Nat) (ns : List Node) : Prop :=
  ∀ n ∈ ns, c.Has lo n

/-- All nodes of a list were read. -/
def Place.HoldsAll (c : Place text) (ns : List Node) : Prop :=
  ∀ n ∈ ns, c.Holds n

namespace Place

variable {n : Node} {ns : List Node}

theorem HasAll.of_le (h : c.HasAll lo ns) (hcd : c ≤ d) : d.HasAll lo ns :=
  fun n hn ↦ (h n hn).of_le hcd

theorem HasAll.part (h : c.HasAll lo ns) (hcd : c ≤ d) : d.HoldsAll ns :=
  fun n hn ↦ (h n hn).part hcd

theorem HoldsAll.of_le (h : c.HoldsAll ns) (hcd : c ≤ d) : d.HoldsAll ns :=
  fun n hn ↦ (h n hn).of_le hcd

theorem hasAll_nil : c.HasAll lo [] :=
  fun _ hn ↦ absurd hn List.not_mem_nil

theorem HasAll.append (h : c.HasAll lo ns) (hcd : c ≤ d) (hn : d.Has lo n) :
    d.HasAll lo (ns ++ [n]) := by
  intro m hm
  obtain hm | hm := List.mem_append.1 hm
  · exact (h m hm).of_le hcd
  · rwa [List.mem_singleton.1 hm]

theorem HoldsAll.append (h : c.HoldsAll ns) (hcd : c ≤ d) (hn : d.Holds n) :
    d.HoldsAll (ns ++ [n]) := by
  intro m hm
  obtain hm | hm := List.mem_append.1 hm
  · exact (h m hm).of_le hcd
  · rwa [List.mem_singleton.1 hm]

theorem holdsAll_nil : c.HoldsAll [] :=
  fun _ hn ↦ absurd hn List.not_mem_nil

theorem HoldsAll.cons (h : c.Holds n) (hs : c.HoldsAll ns) : c.HoldsAll (n :: ns) :=
  List.forall_mem_cons.2 ⟨h, hs⟩

end Place

theorem Runs.endsList {close : Punct} {f : Bool → Parser β} (hw : w ≤ c)
    (hyes : ∀ d, c ≤ d → w ≤ d → c.Past d → Runs w d s (f true) R) (hno : Runs w c s (f false) R) :
    Runs w c s (Grammar.endsList close >>= f) R := by
  unfold Grammar.endsList
  rw [bind_assoc, runs_isEnd]
  split
  · rw [bind_assoc]
    exact .stop (.failExpected hw)
  · exact .eat hw hyes hno

end OptionalChain.Grammar
