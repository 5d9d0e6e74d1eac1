import OptionalChain.Text.Bytes

/-!
# Searching a token

The first place of a byte between two offsets that is not inside a comment. A comment that
reaches past the range hides the rest of it. A search that reads a byte outside the text has no
result.
-/

namespace OptionalChain.Access

section Range

variable (bytes : Array UInt8) (stop : Nat)

/-- The first line feed from byte `i` on, or the end of the range. -/
def lineEnd? (i : Nat) : Option Nat :=
  if i < stop then do
    let b ← bytes[i]?
    if b = '\n'.toUInt8 then return i else lineEnd? (i + 1)
  else some i
termination_by stop - i

/-- Whether bytes `i` and `i + 1` end a block comment. -/
def closes? (i : Nat) : Option Bool := do
  let b ← bytes[i]?
  if b = '*'.toUInt8 then return (← bytes[i + 1]?) = '/'.toUInt8 else return false

/-- The first end of a block comment from byte `i` on, or where the range has no room for one. -/
def blockEnd? (i : Nat) : Option Nat :=
  if i + 1 < stop then do
    if ← closes? bytes i then return i else blockEnd? (i + 1)
  else some i
termination_by stop - i

/-- What a turn of the search leads to: the token is found, or the search goes on from byte `i`. -/
inductive Turn where
  | found
  | onward (i : Nat)
deriving DecidableEq, Repr

/-- A turn of the search at byte `i`. A comment that starts there is passed in one turn. -/
def turn? (token : UInt8) (i : Nat) : Option Turn := do
  let b ← bytes[i]?
  if b = '/'.toUInt8 ∧ bytes[i + 1]? = some '/'.toUInt8 then
    return .onward (← lineEnd? bytes stop i)
  else if b = '/'.toUInt8 ∧ bytes[i + 1]? = some '*'.toUInt8 then
    return .onward ((← blockEnd? bytes stop (i + 2)) + 2)
  else if b = token then return .found
  else return .onward (i + 1)

variable {bytes stop} {token : UInt8} {i j : Nat}

theorem le_of_lineEnd? (h : lineEnd? bytes stop i = some j) : i ≤ j := by
  fun_induction lineEnd? bytes stop i with
  | case1 i _ ih =>
    obtain ⟨b, -, h⟩ := Option.bind_eq_some_iff.1 h
    split at h
    · exact Nat.le_of_eq (Option.some.inj h)
    · exact Nat.le_of_succ_le (ih h)
  | case2 i => exact Nat.le_of_eq (Option.some.inj h)

theorem le_of_blockEnd? (h : blockEnd? bytes stop i = some j) : i ≤ j := by
  fun_induction blockEnd? bytes stop i with
  | case1 i _ ih =>
    obtain ⟨closed, -, h⟩ := Option.bind_eq_some_iff.1 h
    split at h
    · exact Nat.le_of_eq (Option.some.inj h)
    · exact Nat.le_of_succ_le (ih h)
  | case2 i => exact Nat.le_of_eq (Option.some.inj h)

/-- What a turn can lead to. -/
theorem cases_of_turn? {t : Turn} (h : turn? bytes stop token i = some t) :
    (∃ j, bytes[i]? = some '/'.toUInt8 ∧ lineEnd? bytes stop i = some j ∧ t = .onward j) ∨
      (∃ j, blockEnd? bytes stop (i + 2) = some j ∧ t = .onward (j + 2)) ∨
      bytes[i]? = some token ∧ t = .found ∨ t = .onward (i + 1) := by
  obtain ⟨b, hb, h⟩ := Option.bind_eq_some_iff.1 h
  split at h
  · rename_i hopen
    obtain ⟨j, hj, h⟩ := Option.bind_eq_some_iff.1 h
    rw [hopen.1] at hb
    exact .inl ⟨j, hb, hj, (Option.some.inj h).symm⟩
  · split at h
    · obtain ⟨j, hj, h⟩ := Option.bind_eq_some_iff.1 h
      exact .inr (.inl ⟨j, hj, (Option.some.inj h).symm⟩)
    · split at h
      · rename_i htoken
        rw [htoken] at hb
        exact .inr (.inr (.inl ⟨hb, (Option.some.inj h).symm⟩))
      · exact .inr (.inr (.inr (Option.some.inj h).symm))

/-- Every turn gets the search on. -/
theorem lt_of_turn? (hi : i < stop) (h : turn? bytes stop token i = some (.onward j)) : i < j := by
  obtain ⟨k, hslash, hk, h⟩ | ⟨k, hk, h⟩ | ⟨-, h⟩ | h := cases_of_turn? h
  · cases h
    -- The slash that opens the comment is not a line feed.
    rw [lineEnd?, if_pos hi, hslash] at hk
    exact le_of_lineEnd? hk
  · cases h
    have hle := le_of_blockEnd? hk
    omega
  · cases h
  · cases h
    exact Nat.lt_succ_self i

variable (bytes stop)

/-- Searches from byte `i` on. -/
def search? (token : UInt8) (i : Nat) : Option Nat :=
  if _hi : i < stop then
    match _h : turn? bytes stop token i with
    | none => none
    | some .found => some i
    | some (.onward j) => search? token j
  else some stop
termination_by stop - i
decreasing_by
  have hlt := lt_of_turn? ‹i < stop› ‹_›
  omega

end Range

/-- Offset of the byte `token` between two offsets, or the second offset when there is none. -/
def findToken? (token : UInt8) (start stop : Nat) (text : List Char) : Option Nat :=
  search? (Text.bytes text) stop token start

/-- The same for a character of one byte. -/
def findToken (token : Char) (start stop : Nat) (text : List Char) : Nat :=
  (findToken? token.toUInt8 start stop text).getD stop

end OptionalChain.Access
