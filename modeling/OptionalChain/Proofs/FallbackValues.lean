import OptionalChain.Proofs.FallbackTargets

/-!
# Values of fallbacks

An access on a value or a new empty object, beside the optional access on the value. The two
part where the value is nullish: the first reads the property of the new object, the second is
undefined at once. They also part where `||` turns away a falsy value that is not nullish, which
the verdict has to exclude.

Property keys count here as values, not by their text. A read may change the state, give any
value, or throw. A run that throws has no result.
-/

namespace OptionalChain

/-! ## Realms -/

/-- The key of a property; a private name is none that an object could inherit. -/
inductive PropertyKey where
  | name (text : String)
  | symbol (id : Nat)
  | hidden (text : String)
deriving DecidableEq, Repr

def PropertyKey.isHidden : PropertyKey → Bool
  | hidden _ => true
  | _ => false

/-- What the code around an access decides, in a state of type `σ`: how the property of a value
is read, what a key in brackets evaluates to, which object is made new, which properties every
object inherits, and all that other expressions do. Reading on a new object what it does not
inherit gives `undefined` and changes nothing. -/
structure Realm (σ : Type) where
  get : Datum → PropertyKey → σ → Option (Datum × σ)
  computed : Node → σ → Option (PropertyKey × σ)
  create : σ → Nat × σ
  inherits : σ → PropertyKey → Bool
  other : Node → σ → Option (Link × σ)
  get_create : ∀ s k, k.isHidden = false → inherits (create s).2 k = false →
    get (.object (create s).1 false) k (create s).2 = some (.undefined, (create s).2)

namespace BinaryOp

def isLogical : BinaryOp → Bool
  | .or | .and | .nullish => true
  | _ => false

/-- Whether a logical operator leaves it at the value of its left side. -/
def keeps : BinaryOp → Datum → Bool
  | .nullish, v => !v.isNullish
  | .and, v => !v.isTruthy
  | _, v => v.isTruthy

variable {op : BinaryOp} {v : Datum}

theorem isLogical_of_fallsBack (h : op = .or ∨ op = .nullish) : op.isLogical = true := by
  obtain rfl | rfl := h <;> rfl

theorem isNullish_of_keeps (hop : op = .or ∨ op = .nullish) (h : op.keeps v = true) :
    v.isNullish = false := by
  obtain rfl | rfl := hop
  · cases v <;> first | rfl | cases h
  · exact Bool.not_eq_true' _ ▸ h

end BinaryOp

namespace Realm

variable {σ : Type} (w : Realm σ)

def key (n : Node) (s : σ) : Option (PropertyKey × σ) :=
  match n.kind with
  | .name text => some (.name text, s)
  | .privateName text => some (.hidden text, s)
  | _ => w.computed n s

/-- Reads the property of a value that is present. -/
def property (v : Datum) (key : Node) (s : σ) : Option (Datum × σ) :=
  (w.key key s).bind fun k ↦ w.get v k.1 k.2

def follow (optional : Bool) (key : Node) : Link → σ → Option (Link × σ)
  | .skipped, s => some (.skipped, s)
  | .reached v, s =>
    if v.isNullish then if optional then some (.skipped, s) else none
    else (w.property v key s).map fun r ↦ (.reached r.1, r.2)

/-- Evaluates an expression up to the end of its chain. -/
def link : Node → σ → Option (Link × σ)
  | .paren _ e, s => (link e s).map fun r ↦ (.reached r.1.value, r.2)
  | .nonNull _ e, s => link e s
  | .member optional _ object key, s =>
    (link object s).bind fun r ↦ w.follow optional key r.1 r.2
  | .binary op span left right, s =>
    if op.isLogical then
      (link left s).bind fun l ↦
        if op.keeps l.1.value then some (.reached l.1.value, l.2)
        else (link right l.2).map fun r ↦ (.reached r.1.value, r.2)
    else w.other (.binary op span left right) s
  | .mk .object _ [], s =>
    some (.reached (.object (w.create s).1 false), (w.create s).2)
  | n, s => w.other n s

def value (n : Node) (s : σ) : Option (Datum × σ) :=
  (w.link n s).map fun r ↦ (r.1.value, r.2)

/-- The key evaluates without effects to a name that is not found on an empty object. -/
def Misses (key : Node) (s : σ) : Prop :=
  ∃ k, w.key key s = some (k, s) ∧ k.isHidden = false ∧ w.inherits s k = false

variable {w} {s t : σ} {n : Node} {v : Datum}

/-! ### The parts of an access -/

theorem map_value_reached (o : Option (Datum × σ)) :
    (o.map fun r ↦ (Link.reached r.1, r.2)).map (fun r ↦ (r.1.value, r.2)) = o := by
  rw [Option.map_map]
  exact Option.map_id'

theorem link_member (optional : Bool) (span : Span) (object key : Node) (s : σ) :
    w.link (.member optional span object key) s =
      (w.link object s).bind fun r ↦ w.follow optional key r.1 r.2 := rfl

theorem link_paren (span : Span) (e : Node) (s : σ) :
    w.link (.paren span e) s = (w.value e s).map fun r ↦ (.reached r.1, r.2) := by
  rw [value, Option.map_map]
  rfl

theorem value_paren (span : Span) (e : Node) (s : σ) :
    w.value (.paren span e) s = w.value e s := by
  rw [value, link_paren]
  exact map_value_reached _

theorem value_stripParens (n : Node) (s : σ) : w.value n.stripParens s = w.value n s := by
  fun_induction Node.stripParens n with
  | case1 span e ih => exact ih.trans (value_paren span e s).symm
  | case2 => rfl

theorem value_emptyObject (h : Fallback.isEmptyObject n = true) (s : σ) :
    w.value n s = some (.object (w.create s).1 false, (w.create s).2) := by
  unfold Fallback.isEmptyObject at h
  rw [← value_stripParens]
  split at h
  · rename_i hn
    rw [hn]
    rfl
  · cases h

theorem value_logical {op : BinaryOp} (hop : op.isLogical = true) (span : Span)
    (left right : Node) (s : σ) :
    w.value (.binary op span left right) s =
      (w.value left s).bind fun l ↦ if op.keeps l.1 then some l else w.value right l.2 := by
  have hlink : w.link (.binary op span left right) s =
      (w.link left s).bind fun l ↦
        if op.keeps l.1.value then some (.reached l.1.value, l.2)
        else (w.link right l.2).map fun r ↦ (.reached r.1.value, r.2) := if_pos hop
  rw [value, hlink, value, Option.bind_map, Option.map_bind]
  refine congrArg _ (funext fun l ↦ ?_)
  dsimp only [Function.comp_apply]
  split
  · rfl
  · rw [Option.map_map]
    rfl

/-- An optional access on a nullish value is undefined, whether a step was skipped before or not. -/
theorem value_optional (span : Span) (object key : Node) (s : σ) :
    w.value (.member true span object key) s =
      (w.value object s).bind fun r ↦
        if r.1.isNullish then some (.undefined, r.2) else w.property r.1 key r.2 := by
  rw [value, link_member, value, Option.bind_map, Option.map_bind]
  refine congrArg _ (funext fun r ↦ ?_)
  obtain ⟨l, t⟩ := r
  cases l with
  | skipped => rfl
  | reached v =>
    dsimp only [Function.comp_apply, follow, Link.value]
    split
    · rfl
    · exact map_value_reached _

theorem value_member_paren {object : Node} (h : w.value object s = some (v, t))
    (hv : v.isNullish = false) (optional : Bool) (span inner : Span) (key : Node) :
    w.value (.member optional span (.paren inner object) key) s = w.property v key t := by
  rw [value, link_member, link_paren, h]
  dsimp only [Option.map_some, Option.bind_some, follow]
  rw [if_neg (by rw [hv]; exact Bool.false_ne_true)]
  exact map_value_reached _

theorem value_member_paren_eq_none {object : Node} (h : w.value object s = none)
    (optional : Bool) (span inner : Span) (key : Node) :
    w.value (.member optional span (.paren inner object) key) s = none := by
  rw [value, link_member, link_paren, h]
  rfl

theorem Misses.property_create {key : Node} (h : w.Misses key (w.create s).2) :
    w.property (.object (w.create s).1 false) key (w.create s).2 =
      some (.undefined, (w.create s).2) := by
  obtain ⟨k, hkey, hhidden, hinherits⟩ := h
  rw [property, hkey]
  exact w.get_create s k hhidden hinherits

end Realm

/-! ## The two accesses -/

namespace Fallback

variable {b : Fallback} {n : Node}

theorem emptyObject_of_of? {optional : Bool} {s t u : Span} {inner value fallback key : Node}
    {op : BinaryOp} (h : of? (.member optional s (.paren t inner) key) = some b)
    (hinner : inner.stripParens = .binary op u value fallback) :
    (op = .or ∨ op = .nullish) ∧ isEmptyObject fallback = true := by
  unfold of? at h
  dsimp only at h
  rw [hinner] at h
  dsimp only at h
  split at h
  · rename_i hcond
    simpa using hcond
  · cases h

theorem op_of_of? (h : of? n = some b) : b.op = .or ∨ b.op = .nullish := by
  obtain ⟨optional, s, t, inner, u, fallback, rfl, hinner⟩ := exists_parts_of_of? h
  exact (emptyObject_of_of? h hinner).1

/-- A fallback that is safe is on the values that are nullish and on no others. -/
theorem keeps_of_safe {oracle : Oracle} {o : ChainOptions} (hsafe : b.verdict oracle o = .safe)
    (hop : b.op = .or ∨ b.op = .nullish) {v : Datum} (hv : (oracle b.value).admits v = true) :
    b.op.keeps v = !v.isNullish := by
  obtain hop | hop := hop
  · have hjudge : judgeTruthiness (oracle b.value) o = .safe := by
      rw [verdict, hop] at hsafe
      exact hsafe
    have hfalsy := mayBeFalsy_of_judgeTruthiness hjudge
    rw [hop]
    show v.isTruthy = !v.isNullish
    cases htruthy : v.isTruthy with
    | true => cases v <;> first | rfl | cases htruthy
    | false => rw [Shape.isNullish_of_falsy hfalsy hv htruthy, Bool.not_true]
  · rw [hop]
    rfl

end Fallback

namespace Realm

variable {σ : Type} {w : Realm σ} {s t : σ} {n : Node} {b : Fallback} {v : Datum}

theorem value_access (span : Span) (s : σ) :
    w.value (b.access span) s =
      (w.value b.value s).bind fun r ↦
        if r.1.isNullish then some (.undefined, r.2) else w.property r.1 b.key r.2 := by
  rw [Fallback.access, value_optional]
  split
  · rfl
  · rw [value_paren]

theorem value_access_of_nullish (hr : w.value b.value s = some (v, t)) (hv : v.isNullish = true)
    (span : Span) : w.value (b.access span) s = some (.undefined, t) := by
  rw [value_access, hr, Option.bind_some, if_pos hv]

theorem value_access_of_present (hr : w.value b.value s = some (v, t)) (hv : v.isNullish = false)
    (span : Span) : w.value (b.access span) s = w.property v b.key t := by
  rw [value_access, hr, Option.bind_some, hv]
  rfl

/-- The access that stands before the fix reads the property of the value, or of a new object if
the operator turns the value away. -/
theorem value_of_of? (hb : Fallback.of? n = some b) (s : σ) :
    w.value n s = (w.value b.value s).bind fun r ↦
      if b.op.keeps r.1 then w.property r.1 b.key r.2
      else w.property (.object (w.create r.2).1 false) b.key (w.create r.2).2 := by
  obtain ⟨optional, span, t, inner, u, fallback, rfl, hinner⟩ := Fallback.exists_parts_of_of? hb
  obtain ⟨hop, hempty⟩ := Fallback.emptyObject_of_of? hb hinner
  -- The parenthesis ends what is inside, so that the access is made on a value, skipped steps
  -- or not.
  have hvalue : w.value inner s = (w.value b.value s).bind fun r ↦
      if b.op.keeps r.1 then some r
      else some (.object (w.create r.2).1 false, (w.create r.2).2) := by
    rw [← value_stripParens, hinner, value_logical (BinaryOp.isLogical_of_fallsBack hop)]
    simp only [value_emptyObject hempty]
  cases hr : w.value b.value s with
  | none =>
    rw [hr] at hvalue
    exact value_member_paren_eq_none hvalue optional span t b.key
  | some r =>
    rw [hr, Option.bind_some] at hvalue
    rw [Option.bind_some]
    by_cases hkeeps : b.op.keeps r.1 = true
    · rw [if_pos hkeeps] at hvalue ⊢
      exact value_member_paren hvalue (BinaryOp.isNullish_of_keeps hop hkeeps) optional span t b.key
    · rw [if_neg hkeeps] at hvalue ⊢
      exact value_member_paren hvalue rfl optional span t b.key

section Safe

variable (hb : Fallback.of? n = some b) {oracle : Oracle} {o : ChainOptions}
  (hsafe : b.verdict oracle o = .safe) (hr : w.value b.value s = some (v, t))
  (hsound : (oracle b.value).admits v = true)

include hb hsafe hr hsound

theorem value_of_nullish (hkey : w.Misses b.key (w.create t).2) (hv : v.isNullish = true) :
    w.value n s = some (.undefined, (w.create t).2) := by
  have hkeeps := Fallback.keeps_of_safe hsafe (Fallback.op_of_of? hb) hsound
  rw [value_of_of? hb, hr, Option.bind_some, hkeeps, hv]
  exact hkey.property_create

theorem value_of_present (hv : v.isNullish = false) : w.value n s = w.property v b.key t := by
  have hkeeps := Fallback.keeps_of_safe hsafe (Fallback.op_of_of? hb) hsound
  rw [value_of_of? hb, hr, Option.bind_some, hkeeps, hv]
  rfl

end Safe

/-- A fallback that is safe and the optional access on its value read the same: nothing if the value
is nullish, the property of the value otherwise. -/
theorem safe_fallback_keeps_value (w : Realm σ) (hb : Fallback.of? n = some b) {oracle : Oracle}
    {o : ChainOptions} (hsafe : b.verdict oracle o = .safe)
    (hsound : ∀ v t, w.value b.value s = some (v, t) → (oracle b.value).admits v = true)
    (hkey : ∀ v t, w.value b.value s = some (v, t) → w.Misses b.key (w.create t).2)
    (span : Span) :
    (w.value n s).map Prod.fst = (w.value (b.access span) s).map Prod.fst ∧
      (w.value b.value s = none → w.value n s = none ∧ w.value (b.access span) s = none) ∧
      ∀ v t, w.value b.value s = some (v, t) →
        (v.isNullish = true →
          w.value n s = some (.undefined, (w.create t).2) ∧
            w.value (b.access span) s = some (.undefined, t)) ∧
        (v.isNullish = false →
          w.value n s = w.property v b.key t ∧
            w.value (b.access span) s = w.property v b.key t) := by
  refine ⟨?_, fun hr ↦ ?_, fun v t hr ↦ ⟨fun hv ↦ ⟨?_, ?_⟩, fun hv ↦ ⟨?_, ?_⟩⟩⟩
  · cases hr : w.value b.value s with
    | none =>
      rw [value_of_of? hb, value_access, hr]
      rfl
    | some r =>
      have hv := hsound r.1 r.2 hr
      cases hnullish : r.1.isNullish with
      | true =>
        rw [value_of_nullish hb hsafe hr hv (hkey r.1 r.2 hr) hnullish,
          value_access_of_nullish hr hnullish]
        rfl
      | false =>
        rw [value_of_present hb hsafe hr hv hnullish, value_access_of_present hr hnullish]
  · rw [value_of_of? hb, value_access, hr]
    exact ⟨rfl, rfl⟩
  · exact value_of_nullish hb hsafe hr (hsound v t hr) (hkey v t hr) hv
  · exact value_access_of_nullish hr hv span
  · exact value_of_present hb hsafe hr (hsound v t hr) hv
  · exact value_access_of_present hr hv span

/-- All names have the value `null` at first and later an object whose property counts its reads. -/
def countingReads : Realm Nat where
  get
    | .object 0 _, .name "b", s => some (.string "x", s + 1)
    | _, .name "toString", s => some (.object 1 true, s)
    | _, .hidden _, _ => none
    | _, _, s => some (.undefined, s)
  computed _ s := some (.name "b", s)
  create s := (s + 2, s + 1)
  inherits _ k := k == .name "toString"
  other _ s := some (.reached (if s = 0 then .null else .object 0 false), s)
  get_create s k hhidden hinherits := by
    split
    · rename_i h
      cases h
    · cases hinherits
    · cases hhidden
    · rfl

def declaredFallback : SourceFile :=
  .ofText "a.ts" "let a: object | null; (a || \x7b\x7d)[k];".toList

def declaredAccess : Node :=
  (declaredFallback.program?.bind (·.at? [1, 0])).get (by decide +kernel)

def declaredOracle : Oracle :=
  (Declarations.ofProgram? declaredFallback.program?).oracle

/-- By its declaration `a` is falsy only if it is `null`. -/
theorem declared_fallback_keeps_value : ∃ b, Fallback.of? declaredAccess = some b ∧
    b.verdict declaredOracle {} = .safe ∧
    (countingReads.value declaredAccess 0 = some (.undefined, 1) ∧
      countingReads.value (b.access ⟨0, 0⟩) 0 = some (.undefined, 0)) ∧
    countingReads.value declaredAccess 5 = some (.string "x", 6) ∧
      countingReads.value (b.access ⟨0, 0⟩) 5 = some (.string "x", 6) := by
  obtain ⟨b, hb, hsafe, hnull, hobject, hfirst, hlater, hkey, hkey', hread⟩ :
      ∃ b ∈ Fallback.of? declaredAccess, b.verdict declaredOracle {} = .safe ∧
        (declaredOracle b.value).admits .null = true ∧
        (declaredOracle b.value).admits (.object 0 false) = true ∧
        countingReads.value b.value 0 = some (.null, 0) ∧
        countingReads.value b.value 5 = some (.object 0 false, 5) ∧
        countingReads.key b.key 1 = some (.name "b", 1) ∧
        countingReads.key b.key 6 = some (.name "b", 6) ∧
        countingReads.property (.object 0 false) b.key 5 = some (.string "x", 6) := by
    decide +kernel
  have hatNull := (safe_fallback_keeps_value countingReads hb hsafe (s := 0)
    (fun v t h ↦ by rw [hfirst] at h; cases h; exact hnull)
    (fun v t h ↦ by rw [hfirst] at h; cases h; exact ⟨_, hkey, rfl, rfl⟩) ⟨0, 0⟩).2.2 _ _ hfirst
  have hatObject := (safe_fallback_keeps_value countingReads hb hsafe (s := 5)
    (fun v t h ↦ by rw [hlater] at h; cases h; exact hobject)
    (fun v t h ↦ by rw [hlater] at h; cases h; exact ⟨_, hkey', rfl, rfl⟩) ⟨0, 0⟩).2.2 _ _ hlater
  obtain ⟨hn, haccess⟩ := hatObject.2 rfl
  rw [hread] at hn haccess
  exact ⟨b, hb, hsafe, hatNull.1 rfl, hn, haccess⟩

end Realm

end OptionalChain
