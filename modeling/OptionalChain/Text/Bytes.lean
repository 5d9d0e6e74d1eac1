/-!
# Byte offsets into text

Offsets count the bytes of the UTF-8 encoding. Text is a list of characters, so a
cut is defined only where it falls between two of them.
-/

namespace OptionalChain.Text

/-- Length of the UTF-8 encoding. -/
def size : List Char → Nat
  | [] => 0
  | c :: cs => c.utf8Size + size cs

@[simp] theorem size_nil : size [] = 0 := rfl

@[simp] theorem size_cons (c : Char) (cs : List Char) : size (c :: cs) = c.utf8Size + size cs := rfl

@[simp] theorem size_append (xs ys : List Char) : size (xs ++ ys) = size xs + size ys := by
  induction xs with
  | nil => simp
  | cons c cs ih => simp [ih, Nat.add_assoc]

/-- The bytes of the UTF-8 encoding. -/
def bytes (cs : List Char) : Array UInt8 :=
  (cs.flatMap String.utf8EncodeChar).toArray

@[simp] theorem size_bytes (cs : List Char) : (bytes cs).size = size cs := by
  induction cs with
  | nil => rfl
  | cons c cs ih => simpa [bytes, String.length_utf8EncodeChar] using ih

/-- The text before and after byte `n`, absent when `n` is inside a character or past the end. -/
def splitAt? : Nat → List Char → Option (List Char × List Char)
  | 0, cs => some ([], cs)
  | _ + 1, [] => none
  | n + 1, c :: cs =>
    if c.utf8Size ≤ n + 1 then
      (splitAt? (n + 1 - c.utf8Size) cs).map fun (before, after) => (c :: before, after)
    else none

theorem splitAt?_zero (cs : List Char) : splitAt? 0 cs = some ([], cs) := by
  cases cs <;> rfl

/-- A cut keeps the text and lands on the offset asked for. -/
theorem eq_append_of_splitAt? {n : Nat} {cs before after : List Char}
    (h : splitAt? n cs = some (before, after)) : cs = before ++ after ∧ size before = n := by
  induction cs generalizing n before with
  | nil =>
    cases n with
    | zero => simp_all [splitAt?]
    | succ n => simp [splitAt?] at h
  | cons c cs ih =>
    cases n with
    | zero => simp_all [splitAt?]
    | succ n =>
      rw [splitAt?] at h
      split at h
      · obtain ⟨⟨b, a⟩, hb, he⟩ := Option.map_eq_some_iff.1 h
        obtain ⟨rfl, rfl⟩ := Prod.mk.injEq _ _ _ _ ▸ he
        obtain ⟨h1, h2⟩ := ih hb
        constructor
        · simp [h1]
        · simp [h2]; omega
      · simp at h

theorem splitAt?_append (before after : List Char) :
    splitAt? (size before) (before ++ after) = some (before, after) := by
  induction before with
  | nil => simpa using splitAt?_zero after
  | cons c cs ih =>
    have hc := c.utf8Size_pos
    obtain ⟨n, hn⟩ : ∃ n, size (c :: cs) = n + 1 := ⟨size (c :: cs) - 1, by simp; omega⟩
    rw [hn, List.cons_append, splitAt?, if_pos (by simp at hn; omega)]
    rw [show n + 1 - c.utf8Size = size cs by simp at hn; omega, ih]
    rfl

/-- The text after byte `n`, absent where no cut is possible. -/
def dropTo? : Nat → List Char → Option (List Char)
  | 0, cs => some cs
  | _ + 1, [] => none
  | n + 1, c :: cs => if c.utf8Size ≤ n + 1 then dropTo? (n + 1 - c.utf8Size) cs else none

theorem dropTo?_eq_map_splitAt? (n : Nat) (cs : List Char) :
    dropTo? n cs = (splitAt? n cs).map Prod.snd := by
  induction cs generalizing n with
  | nil => cases n <;> rfl
  | cons c cs ih =>
    cases n with
    | zero => rfl
    | succ n =>
      by_cases h : c.utf8Size ≤ n + 1
      · simp [dropTo?, splitAt?, h, ih, Function.comp_def]
      · simp [dropTo?, splitAt?, h]

/-- Whether a cut at byte `n` falls between two characters or at an end of the text. -/
def isBoundary (n : Nat) (cs : List Char) : Bool :=
  (dropTo? n cs).isSome

/-- The text between two offsets, absent unless both are boundaries in order. -/
def slice? (lo hi : Nat) (cs : List Char) : Option (List Char) :=
  if lo ≤ hi then do
    let tail ← dropTo? lo cs
    let (piece, _) ← splitAt? (hi - lo) tail
    return piece
  else none

/-- The text between two offsets, empty when the cut is not possible. -/
def slice (lo hi : Nat) (cs : List Char) : List Char :=
  (slice? lo hi cs).getD []

theorem slice?_append (before piece after : List Char) :
    slice? (size before) (size before + size piece) (before ++ (piece ++ after)) = some piece := by
  simp [slice?, dropTo?_eq_map_splitAt?, splitAt?_append]

/-- The longest run of leading characters that ends at or before byte `n`. -/
def upTo : Nat → List Char → List Char
  | _, [] => []
  | n, c :: cs => if c.utf8Size ≤ n then c :: upTo (n - c.utf8Size) cs else []

theorem upTo_append (before after : List Char) : upTo (size before) (before ++ after) = before := by
  induction before with
  | nil =>
    cases after with
    | nil => rfl
    | cons c cs => simp [upTo, Nat.not_le.2 c.utf8Size_pos]
  | cons c cs ih => simp [upTo, ih]

end OptionalChain.Text
