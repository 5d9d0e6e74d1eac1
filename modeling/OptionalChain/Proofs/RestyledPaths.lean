import OptionalChain.Proofs.PathEffects
import OptionalChain.Proofs.StepTokens

/-!
# Accesses in another style

An access can be written with more or fewer parentheses and non-null assertions around its parts,
and its steps with or without markers. The path of the access is the same: markers are not part of a
key, and the parenthesis of a call is found behind whatever is put in before it. A comment between
what is called and its arguments that ends with its line, but not with `\n`, can hide the
parenthesis.
-/

namespace OptionalChain

open Text (At Boundary)

/-- What is cut out of a text stands in it. -/
theorem Text.exists_at_of_slice? {text piece : List Char} {lo hi : Nat}
    (h : slice? lo hi text = some piece) :
    ∃ rest, At text lo (piece ++ rest) ∧ hi = lo + size piece := by
  unfold slice? at h
  split at h
  · rename_i hle
    obtain ⟨tail, htail, h⟩ := Option.bind_eq_some_iff.1 h
    obtain ⟨⟨before, rest⟩, hsplit, h⟩ := Option.bind_eq_some_iff.1 h
    obtain rfl : before = piece := Option.some.inj h
    rw [dropTo?_eq_map_splitAt?] at htail
    obtain ⟨⟨front, tail'⟩, hfront, rfl⟩ := Option.map_eq_some_iff.1 htail
    obtain ⟨htext, hlo⟩ := eq_append_of_splitAt? hfront
    obtain ⟨rfl, hhi⟩ := eq_append_of_splitAt? hsplit
    exact ⟨rest, ⟨front, htext, hlo⟩, by omega⟩
  · cases h

/-! ## Searching in a piece of a text -/

namespace Access

section Piece

variable {a b : Array UInt8} {lo i : Nat} {token : UInt8}

theorem lineEnd?_shift (h : ∀ k < b.size, a[lo + k]? = b[k]?) (i : Nat) :
    lineEnd? a (lo + b.size) (lo + i) = (lineEnd? b b.size i).map (lo + ·) := by
  by_cases hi : i < b.size
  · have hread := Array.getElem?_eq_getElem hi
    rw [lineEnd?_of_lt (by omega) ((h i hi).trans hread), lineEnd?_of_lt hi hread]
    split
    · rfl
    · exact lineEnd?_shift h (i + 1)
  · rw [lineEnd?_of_le (by omega), lineEnd?_of_le (by omega), Option.map_some]
termination_by b.size - i

theorem blockEnd?_shift (h : ∀ k < b.size, a[lo + k]? = b[k]?) (i : Nat) :
    blockEnd? a (lo + b.size) (lo + i) = (blockEnd? b b.size i).map (lo + ·) := by
  by_cases hi : i + 1 < b.size
  · have hclosed : closes? a (lo + i) = closes? b i := by
      rw [closes?, closes?, h i (by omega), Nat.add_assoc, h (i + 1) hi]
    rw [blockEnd?_eq_bind (by omega), blockEnd?_eq_bind hi, hclosed]
    cases closes? b i with
    | none => rfl
    | some closed =>
      cases closed with
      | true => rfl
      | false => exact blockEnd?_shift h (i + 1)
  · rw [blockEnd?_of_le (by omega), blockEnd?_of_le (by omega), Option.map_some]
termination_by b.size - i

def Turn.shift (lo : Nat) : Turn → Turn
  | .found => .found
  | .onward i => .onward (lo + i)

theorem turn?_shift (h : ∀ k < b.size, a[lo + k]? = b[k]?) (token : UInt8) (hi : i + 1 < b.size) :
    turn? a (lo + b.size) token (lo + i) = (turn? b b.size token i).map (Turn.shift lo) := by
  have hread := Array.getElem?_eq_getElem (show i < b.size by omega)
  rw [turn?, turn?, (h i (by omega)).trans hread, hread, lineEnd?_shift h, Nat.add_assoc,
    Nat.add_assoc, h (i + 1) hi, blockEnd?_shift h]
  cases lineEnd? b b.size i <;> cases blockEnd? b b.size (i + 2)
  all_goals
    simp only [Option.bind_eq_bind, Option.bind_some]
    repeat' split
    all_goals rfl

/-- The last byte of a range is the token, or there is none. -/
theorem search?_last {bytes : Array UInt8} {stop : Nat} {x : UInt8} (hi : i + 1 = stop)
    (hread : bytes[i]? = some x) (htoken : token ≠ '/'.toUInt8) :
    search? bytes stop token i = some (if x = token then i else stop) := by
  by_cases hopen : Opens bytes i
  · have hslash : x = '/'.toUInt8 := Option.some.inj (hread.symm.trans hopen.1)
    rw [hopen.search?_eq hi, hslash, if_neg (Ne.symm htoken)]
  · rw [search?_of_not_opens (by omega) hread hopen, search?_of_le (Nat.le_of_eq hi.symm)]
    split <;> rfl

/-- What is found does not depend on where a piece of text stands, nor on what follows it. -/
theorem search?_shift (h : ∀ k < b.size, a[lo + k]? = b[k]?) (htoken : token ≠ '/'.toUInt8)
    (i : Nat) :
    search? a (lo + b.size) token (lo + i) = (search? b b.size token i).map (lo + ·) := by
  by_cases hi : i < b.size
  · by_cases hlast : i + 1 = b.size
    -- The last byte may open a comment with what follows the piece.
    · have hread := Array.getElem?_eq_getElem hi
      rw [search?_last (by omega) ((h i hi).trans hread) htoken, search?_last hlast hread htoken]
      split <;> rfl
    · have hturn := turn?_shift h token (show i + 1 < b.size by omega)
      cases ht : turn? b b.size token i with
      | none =>
        rw [ht] at hturn
        rw [search?_of_turn? (o := none) (by omega) hturn, search?_of_turn? (o := none) hi ht]
        rfl
      | some t =>
        rw [ht] at hturn
        cases t with
        | found => rw [search?_of_found (by omega) hturn, search?_of_found hi ht, Option.map_some]
        | onward j =>
          have hlt := lt_of_turn? hi ht
          rw [search?_of_turn? (o := some (lo + j)) (by omega) hturn,
            search?_of_turn? (o := some j) hi ht]
          exact search?_shift h htoken j
  · rw [search?_of_le (by omega), search?_of_le (by omega), Option.map_some]
termination_by b.size - i

end Piece

variable {token : Char} {stop pos : Nat} {w rest text : List Char}

/-- What can stand between an expression and a call of it. -/
inductive IsGap : List Char → Prop
  | plain {w : List Char} (h : Padding w) : IsGap w
  | optional {w w' : List Char} (h : Padding w) (h' : Padding w') : IsGap (w ++ ('?' :: '.' :: w'))

/-- What can stand before a call is passed. -/
theorem IsGap.search?_eq (hw : IsGap w) (h : At text pos (w ++ rest))
    (hstop : pos + Text.size w ≤ stop) (hsize : stop ≤ Text.size text) :
    search? (Text.bytes text) stop '('.toUInt8 pos =
      search? (Text.bytes text) stop '('.toUInt8 (pos + Text.size w) := by
  have hparen : Token.isSpace '(' = false ∧ '(' ≠ '/' ∧ '('.utf8Size = 1 := by decide
  cases hw with
  | plain hw => exact hw.search?_eq h hparen hstop hsize
  | @optional w w' hw hw' =>
    have hparts : w ++ '?' :: '.' :: w' = w ++ (['?', '.'] ++ w') := rfl
    rw [hparts, Text.size_append, Text.size_append, ← Nat.add_assoc, ← Nat.add_assoc] at hstop ⊢
    rw [hparts, List.append_assoc, List.append_assoc] at h
    rw [hw.search?_eq h hparen (by omega) hsize,
      search?_chars h.append rfl (by simp) (by omega)]
    exact hw'.search?_eq h.append.append hparen hstop hsize

/-! ### The arguments of a call -/

/-- The part of a text from the first parenthesis on. -/
def arguments (w : List Char) : List Char :=
  Text.slice (findToken '(' 0 (Text.size w) w) (Text.size w) w

/-- A piece of a text is searched as if it stood alone. -/
theorem slice_findToken {lo hi : Nat} (h : Text.slice? lo hi text = some w) :
    Text.slice (findToken '(' lo hi text) hi text = arguments w := by
  obtain ⟨rest, hat, rfl⟩ := Text.exists_at_of_slice? h
  have halone : At w 0 (w ++ []) := by
    rw [List.append_nil]
    exact At.start w
  obtain ⟨after, before, hw, hsize⟩ : Boundary w (findToken '(' 0 (Text.size w) w) :=
    boundary_findToken rfl 0 (Nat.zero_add (Text.size w) ▸ (At.start w).size_boundary)
  have hfound {text rest : List Char} {lo : Nat} (hat : At text lo (w ++ rest)) :
      findToken '(' lo (lo + Text.size w) text = lo + Text.size before := by
    have hpiece : ∀ k < (Text.bytes w).size, (Text.bytes text)[lo + k]? = (Text.bytes w)[k]? :=
      fun k hk ↦ hat.getElem?_bytes (by rwa [Text.size_bytes] at hk)
    have hshift : search? _ _ '('.toUInt8 _ = _ := search?_shift hpiece (by decide) 0
    rw [Text.size_bytes, Nat.add_zero] at hshift
    rw [hsize, findToken, findToken, findToken?, findToken?, hshift]
    cases search? (Text.bytes w) (Text.size w) '('.toUInt8 0 <;> rfl
  have hcut {text rest : List Char} {lo : Nat} (hat : At text lo (w ++ rest)) :
      Text.slice (findToken '(' lo (lo + Text.size w) text) (lo + Text.size w) text = after := by
    rw [hfound hat]
    rw [hw, List.append_assoc] at hat
    apply Text.slice_of_slice?
    rw [hw, Text.size_append, ← Nat.add_assoc]
    exact hat.append.slice?
  have hcutAlone := hcut halone
  rw [Nat.zero_add] at hcutAlone
  rw [arguments, hcut hat, hcutAlone]

/-- What stands before the call is not part of its arguments. -/
theorem IsGap.arguments_append (h : IsGap w) (own : List Char) :
    arguments (w ++ own) = arguments own := by
  have hown : Text.slice? (Text.size w) (Text.size (w ++ own)) (w ++ own) = some own := by
    have hpiece := Text.slice?_append w own []
    rwa [List.append_nil, ← Text.size_append] at hpiece
  have hsize : 0 + Text.size w ≤ Text.size (w ++ own) := by
    rw [Text.size_append]
    omega
  have hpassed : findToken '(' 0 (Text.size (w ++ own)) (w ++ own) =
      findToken '(' (Text.size w) (Text.size (w ++ own)) (w ++ own) := by
    rw [findToken, findToken?, h.search?_eq (At.start _) hsize (Nat.le_refl _), Nat.zero_add]
    rfl
  rw [arguments, hpassed, slice_findToken hown]

end Access

/-! ## Accesses in another style -/

namespace Kind

/-- Whether a node of the kind has the path of one of its parts, or one that goes on from there. -/
def passesPath : Kind → Bool
  | .paren | .nonNull | .member _ | .call _ => true
  | _ => false

end Kind

namespace Node

/-- The same tree in two files, with the same text for each of its nodes. -/
inductive Copied (f g : SourceFile) : Node → Node → Prop
  | mk {kind : Kind} {s t : Span} {ns ms : List Node} (text : f.slice s = g.slice t)
      (parts : List.Forall₂ (Copied f g) ns ms) : Copied f g (mk kind s ns) (mk kind t ms)

/-- Two accesses with the same base, keys, arguments and type arguments. Any part that a step is
taken from can have parentheses or be asserted not to be null, in one of them or in both, and any
step can be optional. What stands between an expression and a call of it stays or is a gap in
both. -/
inductive Restyled (f g : SourceFile) : Node → Node → Prop
  | base {n m : Node} (hn : n.kind.passesPath = false) (h : Copied f g n m) : Restyled f g n m
  | parenLeft {s : Span} {n m : Node} (h : Restyled f g n m) : Restyled f g (.paren s n) m
  | parenRight {t : Span} {n m : Node} (h : Restyled f g n m) : Restyled f g n (.paren t m)
  | nonNullLeft {s : Span} {n m : Node} (h : Restyled f g n m) : Restyled f g (.nonNull s n) m
  | nonNullRight {t : Span} {n m : Node} (h : Restyled f g n m) : Restyled f g n (.nonNull t m)
  | member {optional optional' : Bool} {s t : Span} {object object' key key' : Node}
      (hobject : Restyled f g object object') (hkey : Copied f g key key') :
    Restyled f g (.member optional s object key) (.member optional' t object' key')
  | call {optional optional' : Bool} {s t : Span} {callee callee' args args' : Node}
      {typeArgs typeArgs' : Node} {gap gap' own : List Char} (hcallee : Restyled f g callee callee')
      (hargs : Copied f g args args') (htypeArgs : Copied f g typeArgs typeArgs')
      (hleft : f.slice? ⟨callee.span.hi, s.hi⟩ = some (gap ++ own))
      (hright : g.slice? ⟨callee'.span.hi, t.hi⟩ = some (gap' ++ own))
      (hgap : gap = gap' ∨ Access.IsGap gap ∧ Access.IsGap gap') :
    Restyled f g (.call optional s callee args typeArgs)
      (.call optional' t callee' args' typeArgs')

variable {f g : SourceFile} {n m : Node} {ns ms : List Node}

theorem Copied.kind_eq (h : Copied f g n m) : n.kind = m.kind := by
  cases h
  rfl

theorem Copied.slice_eq (h : Copied f g n m) : f.slice n.span = g.slice m.span := by
  cases h with
  | mk text _ => exact text

theorem Copied.children (h : Copied f g n m) :
    List.Forall₂ (Copied f g) n.children m.children := by
  cases h with
  | mk _ parts => exact parts

theorem any_hasEffects_congr (h : List.Forall₂ (fun n m ↦ hasEffects n = hasEffects m) ns ms) :
    ns.any hasEffects = ms.any hasEffects := by
  induction h with
  | nil => rfl
  | cons hhead _ ih => rw [List.any_cons, List.any_cons, hhead, ih]

theorem Copied.hasEffects_eq (h : Copied f g n m) : n.hasEffects = m.hasEffects := by
  induction n using induction_parts generalizing m with
  | step kind s ns ih =>
    cases h with
    | mk _ parts =>
      have hall : ∀ n ∈ ns, ∀ m, Copied f g n m → n.hasEffects = m.hasEffects :=
        fun n hn m h ↦ ih n hn h
      have hparts := (List.forall₂_and_left _ _).2 ⟨hall, parts⟩
      rw [hasEffects_mk, hasEffects_mk, any_hasEffects_congr (hparts.imp fun n m h ↦ h.1 m h.2)]

theorem anyHasEffects_congr (h : List.Forall₂ (Copied f g) ns ms) :
    anyHasEffects ns = anyHasEffects ms := by
  rw [anyHasEffects_eq_any, anyHasEffects_eq_any]
  exact any_hasEffects_congr (h.imp fun _ _ h ↦ h.hasEffects_eq)

end Node

namespace Step

variable {f g : SourceFile} {optional optional' : Bool}
variable {object object' key key' callee callee' typeArgs typeArgs' expr expr' : Node}

/-- The step of a member access is known by its key. -/
theorem place_ofMember_congr (h : Node.Copied f g key key') :
    ((ofMember f optional object key expr).kind, (ofMember f optional object key expr).key) =
      ((ofMember g optional' object' key' expr').kind,
        (ofMember g optional' object' key' expr').key) := by
  cases h with
  | @mk kind s t ns ms _ parts =>
    unfold ofMember
    cases kind with
    | name | privateName => rfl
    | _ =>
      cases parts with
      | nil => rfl
      | cons hhead _ => simp [Node.kind, Node.children, hhead.slice_eq]

theorem key_ofCall : (ofCall f optional callee typeArgs expr).key =
    (if typeArgs.isAbsent then [] else Access.compact (f.slice typeArgs.span)) ++
      Access.compact (Text.slice (Access.findToken '(' (f.clamp callee.span.hi)
        (f.clamp expr.span.hi) f.text) (f.clamp expr.span.hi) f.text) := by
  unfold ofCall Node.present?
  cases h : typeArgs.isAbsent <;> simp

/-- The step of a call is known by its type arguments and by its text from the parenthesis on. -/
theorem key_ofCall_of_slice? {w : List Char}
    (h : f.slice? ⟨callee.span.hi, expr.span.hi⟩ = some w) :
    (ofCall f optional callee typeArgs expr).key =
      (if typeArgs.isAbsent then [] else Access.compact (f.slice typeArgs.span)) ++
        Access.compact (Access.arguments w) := by
  rw [key_ofCall, Access.slice_findToken h]

/-- So what stands before the parenthesis makes no difference. -/
theorem place_ofCall_congr {gap gap' own : List Char}
    (htypeArgs : Node.Copied f g typeArgs typeArgs')
    (hleft : f.slice? ⟨callee.span.hi, expr.span.hi⟩ = some (gap ++ own))
    (hright : g.slice? ⟨callee'.span.hi, expr'.span.hi⟩ = some (gap' ++ own))
    (hgap : gap = gap' ∨ Access.IsGap gap ∧ Access.IsGap gap') :
    ((ofCall f optional callee typeArgs expr).kind, (ofCall f optional callee typeArgs expr).key) =
      ((ofCall g optional' callee' typeArgs' expr').kind,
        (ofCall g optional' callee' typeArgs' expr').key) := by
  have harguments : Access.arguments (gap ++ own) = Access.arguments (gap' ++ own) := by
    obtain rfl | ⟨h, h'⟩ := hgap
    · rfl
    · rw [h.arguments_append, h'.arguments_append]
  have habsent : typeArgs.isAbsent = typeArgs'.isAbsent := by
    unfold Node.isAbsent
    rw [htypeArgs.kind_eq]
  rw [kind_ofCall, kind_ofCall, key_ofCall_of_slice? hleft, key_ofCall_of_slice? hright, habsent,
    htypeArgs.slice_eq, harguments]

end Step

namespace AccessPath

variable {f g : SourceFile} {n m : Node}

/-- A base with steps in each of two files, which read the same. -/
structure Alike (f g : SourceFile) (x y : Node × List Step) : Prop where
  kind_eq : x.1.kind = y.1.kind
  slice_eq : f.slice x.1.span = g.slice y.1.span
  places_eq : x.2.map (fun s ↦ (s.kind, s.key)) = y.2.map fun s ↦ (s.kind, s.key)

/-- Whether an expression can be a base is seen from its tree and its text. -/
theorem isSome_base?_congr (h : Node.Copied f g n m) :
    (base? f n).isSome = (base? g m).isSome := by
  have heffects := h.hasEffects_eq
  cases h with
  | @mk kind s t ns ms text parts =>
    by_cases hawait : kind = .await
    · subst hawait
      cases parts with
      | nil => simp [base?, isBaseKind]
      | cons hhead hrest =>
        cases hrest with
        | nil =>
          simp only [base?, hhead.hasEffects_eq]
          split <;> rfl
        | cons => simp [base?, isBaseKind]
    · rw [base?, base?, text, heffects]
      · split <;> rfl
      all_goals exact fun _ h _ ↦ hawait h

theorem spine?_of_not_passesPath (h : n.kind.passesPath = false) :
    spine? f n = (base? f n).map (·, []) := by
  unfold spine?
  split
  all_goals first | rfl | cases h

/-- What is called and is no expression has no base. -/
theorem spine?_of_not_isCallee (h : isCallee n = false) : spine? f n = none := by
  have hkind : n.kind.passesPath = false ∧ isBaseKind n.kind = false ∧ n.kind ≠ .await := by
    unfold isCallee at h
    cases hkind : n.kind with
    | superRef | importRef => decide
    | _ =>
      rw [hkind] at h
      cases h
  rw [spine?_of_not_passesPath hkind.1, Option.map_eq_none_iff, Option.eq_none_iff_forall_ne_some]
  intro base hbase
  obtain h | h := isBaseKind_of_base? hbase
  · rw [hkind.2.1] at h
    cases h
  · exact hkind.2.2 h

theorem spine?_member_eq (optional : Bool) (s : Span) (object key : Node) :
    spine? f (.member optional s object key) =
      if Node.anyHasEffects key.children then none
      else (spine? f object).map fun x ↦ (x.1, x.2 ++ [.ofMember f optional object key
        (.member optional s object key)]) := by
  rw [Node.member, spine?]
  cases spine? f object with
  | none => rfl
  | some => rfl

theorem spine?_call_eq (optional : Bool) (s : Span) (callee args typeArgs : Node) :
    spine? f (.call optional s callee args typeArgs) =
      if Node.anyHasEffects args.children then none
      else (spine? f callee).map fun x ↦ (x.1, x.2 ++ [.ofCall f optional callee typeArgs
        (.call optional s callee args typeArgs)]) := by
  cases hcallee : isCallee callee with
  | true =>
    rw [Node.call, spine?, hcallee]
    cases spine? f callee with
    | none => rfl
    | some => rfl
  | false => simp [Node.call, spine?, hcallee, spine?_of_not_isCallee hcallee]

/-- Another step of the same kind with the same key can follow. -/
theorem Alike.concat {x y : Option (Node × List Step)} {s t : Step}
    (h : Option.Rel (Alike f g) x y) (hplace : (s.kind, s.key) = (t.kind, t.key)) :
    Option.Rel (Alike f g) (x.map fun p ↦ (p.1, p.2 ++ [s])) (y.map fun p ↦ (p.1, p.2 ++ [t])) := by
  cases h with
  | none => exact .none
  | some h =>
    refine .some ⟨h.kind_eq, h.slice_eq, ?_⟩
    rw [List.map_append, List.map_append, h.places_eq, List.map_singleton, List.map_singleton,
      hplace]

/-- Base and steps of an access are the same in another style. -/
theorem spine?_restyled (h : Node.Restyled f g n m) :
    Option.Rel (Alike f g) (spine? f n) (spine? g m) := by
  induction h with
  | @base n m hn h =>
    rw [spine?_of_not_passesPath hn, spine?_of_not_passesPath (h.kind_eq ▸ hn)]
    have hsome := isSome_base?_congr h
    cases hleft : base? f n with
    | none =>
      rw [hleft, Option.isSome_none, eq_comm, Option.isSome_eq_false_iff,
        Option.isNone_iff_eq_none] at hsome
      rw [hsome]
      exact .none
    | some b =>
      rw [hleft, Option.isSome_some, eq_comm, Option.isSome_iff_exists] at hsome
      obtain ⟨b', hright⟩ := hsome
      obtain rfl := base?_eq_some hleft
      obtain rfl := base?_eq_some hright
      rw [hright]
      exact .some ⟨h.kind_eq, h.slice_eq, rfl⟩
  | parenLeft _ ih => exact ih
  | parenRight _ ih => exact ih
  | nonNullLeft _ ih => exact ih
  | nonNullRight _ ih => exact ih
  | member _ hkey ih =>
    rw [spine?_member_eq, spine?_member_eq, Node.anyHasEffects_congr hkey.children]
    split
    · exact .none
    · exact Alike.concat ih (Step.place_ofMember_congr hkey)
  | call _ hargs htypeArgs hleft hright hgap ih =>
    rw [spine?_call_eq, spine?_call_eq, Node.anyHasEffects_congr hargs.children]
    split
    · exact .none
    · exact Alike.concat ih (Step.place_ofCall_congr htypeArgs hleft hright hgap)

/-- So is its path. -/
theorem of?_restyled (h : Node.Restyled f g n m) :
    Option.Rel (fun p q ↦ p.baseKey = q.baseKey ∧ p.places = q.places) (of? f n) (of? g m) := by
  have hspine := spine?_restyled h
  generalize hleft : spine? f n = x at hspine
  generalize hright : spine? g m = y at hspine
  cases hspine with
  | none =>
    rw [of?, of?, hleft, hright]
    exact .none
  | @some x y h =>
    have hsteps : x.2 = [] ↔ y.2 = [] := by
      rw [← List.map_eq_nil_iff, h.places_eq, List.map_eq_nil_iff]
    have hlone : x.1.kind = .await ∧ x.2 = [] ↔ y.1.kind = .await ∧ y.2 = [] := by
      rw [h.kind_eq, hsteps]
    rw [of?_of_spine (spine?_eq_some_iff.1 hleft), of?_of_spine (spine?_eq_some_iff.1 hright)]
    by_cases hawait : y.1.kind = .await ∧ y.2 = []
    · rw [if_pos (hlone.2 hawait), if_pos hawait]
      exact .none
    · rw [if_neg (hlone.not.2 hawait), if_neg hawait]
      exact .some ⟨congrArg Access.compact h.slice_eq, h.places_eq⟩

theorem render_eq (p : AccessPath) : p.render = p.baseKey ++ p.places.flatMap (·.2) := by
  rw [render, places, List.flatMap_map]

end AccessPath

/-- The file without the byte-order mark. -/
def SourceFile.unmarked (f : SourceFile) : SourceFile :=
  { f with text := Outcome.dropMark f.text }

theorem SourceFile.unmarked_eq {f : SourceFile} (h : Outcome.markSize f.text = 0) :
    f.unmarked = f := by
  rw [unmarked, Outcome.dropMark_eq_of_markSize h]

namespace AccessPath

variable {f g : SourceFile} {n m : Node}

/-- An access in another style has a path exactly if the access has one, and then the two paths are
the same and are written alike. Both files are without byte-order mark, since otherwise their texts
are not cut where the nodes stand. -/
theorem restyling_keeps_path (hf : Outcome.markSize f.text = 0) (hg : Outcome.markSize g.text = 0)
    (h : Node.Restyled f.unmarked g.unmarked n m) :
    (of? f n).isSome = (of? g m).isSome ∧
      ∀ p q, of? f n = some p → of? g m = some q →
        p.sameAs q = true ∧ q.sameAs p = true ∧ p.render = q.render := by
  rw [SourceFile.unmarked_eq hf, SourceFile.unmarked_eq hg] at h
  have hpaths := of?_restyled h
  generalize of? f n = x at hpaths ⊢
  generalize of? g m = y at hpaths ⊢
  cases hpaths with
  | none =>
    refine ⟨rfl, ?_⟩
    intro p q hp
    cases hp
  | @some p q hsame =>
    obtain ⟨hbase, hplaces⟩ := hsame
    refine ⟨rfl, ?_⟩
    rintro p' q' ⟨⟩ ⟨⟩
    refine ⟨sameAs_iff.2 ⟨hbase, hplaces⟩, sameAs_iff.2 ⟨hbase.symm, hplaces.symm⟩, ?_⟩
    rw [render_eq, render_eq, hbase, hplaces]

def plainAccess : SourceFile :=
  .ofText "a.ts" "foo.bar /*c*/(x)[k];".toList

def plainAccessNode : Node :=
  .member false ⟨0, 19⟩
    (.call false ⟨0, 16⟩
      (.member false ⟨0, 7⟩ (.mk (.ident "foo") ⟨0, 3⟩ []) (.mk (.name "bar") ⟨4, 7⟩ []))
      (.mk .arguments ⟨13, 16⟩ [.mk (.argument false) ⟨14, 15⟩ [.mk (.ident "x") ⟨14, 15⟩ []]])
      .absent)
    (.mk .computed ⟨16, 19⟩ [.mk (.ident "k") ⟨17, 18⟩ []])

def styledAccess : SourceFile :=
  .ofText "a.ts" "((foo!)?.bar!)?.(x)?.[k];".toList

def styledAccessNode : Node :=
  .member true ⟨0, 24⟩
    (.call true ⟨0, 19⟩
      (.paren ⟨0, 14⟩ (.nonNull ⟨1, 13⟩
        (.member true ⟨1, 12⟩ (.paren ⟨1, 7⟩ (.nonNull ⟨2, 6⟩ (.mk (.ident "foo") ⟨2, 5⟩ [])))
          (.mk (.name "bar") ⟨9, 12⟩ []))))
      (.mk .arguments ⟨16, 19⟩ [.mk (.argument false) ⟨17, 18⟩ [.mk (.ident "x") ⟨17, 18⟩ []]])
      .absent)
    (.mk .computed ⟨21, 24⟩ [.mk (.ident "k") ⟨22, 23⟩ []])

theorem restyled_styledAccess :
    Node.Restyled plainAccess.unmarked styledAccess.unmarked plainAccessNode styledAccessNode := by
  have hcomment : Access.Padding ('/' :: '*' :: (['c', '*', '/'] ++ [])) := .block rfl .nil
  have hgap : Access.IsGap [' ', '/', '*', 'c', '*', '/'] := .plain (.space rfl hcomment)
  have hgap' : Access.IsGap ['?', '.'] := .optional .nil .nil
  have hleft : plainAccess.unmarked.slice? ⟨7, 16⟩ =
      some ([' ', '/', '*', 'c', '*', '/'] ++ ['(', 'x', ')']) := by decide +kernel
  have hright : styledAccess.unmarked.slice? ⟨14, 19⟩ = some (['?', '.'] ++ ['(', 'x', ')']) := by
    decide +kernel
  refine .member (.call (.parenRight (.nonNullRight (.member (.parenRight (.nonNullRight
    (.base rfl (.mk ?_ .nil)))) (.mk ?_ .nil)))) (.mk ?_ (.cons (.mk ?_ (.cons (.mk ?_ .nil) .nil))
    .nil)) (.mk ?_ .nil) hleft hright (.inr ⟨hgap, hgap'⟩)) (.mk ?_ (.cons (.mk ?_ .nil) .nil))
  all_goals decide +kernel

def hiddenCall : SourceFile :=
  .ofText "a.ts" "(foo // c\r)(x) != null && foo // c\r(x).bar;".toList

/-- The two texts are read as these trees, which have one path. In the third text the comment hides
the arguments of the call that has no parentheses. -/
theorem styled_access_keeps_path :
    (Outcome.markSize plainAccess.text = 0 ∧ Outcome.markSize styledAccess.text = 0 ∧
      Node.Restyled plainAccess.unmarked styledAccess.unmarked plainAccessNode styledAccessNode) ∧
    (plainAccess.program?.map fun n ↦ (n.preorder.drop 2).map fun m ↦ (m.kind, m.span)) =
      some (plainAccessNode.preorder.map fun m ↦ (m.kind, m.span)) ∧
    (styledAccess.program?.map fun n ↦ (n.preorder.drop 2).map fun m ↦ (m.kind, m.span)) =
      some (styledAccessNode.preorder.map fun m ↦ (m.kind, m.span)) ∧
    (∃ p q, of? plainAccess plainAccessNode = some p ∧ of? styledAccess styledAccessNode = some q ∧
      p.sameAs q = true ∧ q.sameAs p = true ∧ p.render = q.render ∧
      q.render = "foo.bar(x)[k]".toList) ∧
    (hiddenCall.program?.map fun n ↦ (n.preorder.filter (·.kind == .call false)).map fun m ↦
      (of? hiddenCall m).map (·.render)) = some [some "foo(x)".toList, some "foo".toList] := by
  have hplain : Outcome.markSize plainAccess.text = 0 := by decide +kernel
  have hstyled : Outcome.markSize styledAccess.text = 0 := by decide +kernel
  obtain ⟨hsome, hsame⟩ := restyling_keeps_path hplain hstyled restyled_styledAccess
  have hrender : (of? plainAccess plainAccessNode).map (·.render) =
      some "foo.bar(x)[k]".toList := by
    decide +kernel
  obtain ⟨p, hp, hpRender⟩ := Option.map_eq_some_iff.1 hrender
  rw [hp, Option.isSome_some, eq_comm, Option.isSome_iff_exists] at hsome
  obtain ⟨q, hq⟩ := hsome
  obtain ⟨hpq, hqp, hequal⟩ := hsame p q hp hq
  refine ⟨⟨hplain, hstyled, restyled_styledAccess⟩, by decide +kernel, by decide +kernel,
    ⟨p, q, hp, hq, hpq, hqp, hequal, ?_⟩, by decide +kernel⟩
  rw [← hequal, hpRender]

end AccessPath

end OptionalChain
