import OptionalChain.Proofs.Placement.Scan

/-!
# Searching bytes of a text

Tokens are searched in the bytes of a text. A token of one byte stands between two characters, since
no part of a longer character is such a byte. White space and comments are passed wherever they
stand, if the comments that end with their line end with `\n`.
-/

namespace OptionalChain

open Text (At Boundary)

/-! ## Bytes of a text -/

namespace Text

variable {text w cs : List Char} {c d : Char} {pos i : Nat}

theorem toNat_lt_of_utf8Size (hc : c.utf8Size = 1) : c.toNat < 128 :=
  Nat.lt_succ_of_le (UInt32.le_iff_toNat_le.1 (Char.utf8Size_eq_one_iff.1 hc))

theorem toNat_toUInt8 (hc : c.utf8Size = 1) : c.toUInt8.toNat = c.toNat := by
  have hlt := toNat_lt_of_utf8Size hc
  exact (UInt32.toNat_toUInt8 c.val).trans (Nat.mod_eq_of_lt (Nat.lt_trans hlt (by decide)))

/-- Characters of one byte are known by it. -/
theorem eq_of_toUInt8_eq (hc : c.utf8Size = 1) (hd : d.utf8Size = 1)
    (h : c.toUInt8 = d.toUInt8) : c = d := by
  have hnat := congrArg UInt8.toNat h
  rw [toNat_toUInt8 hc, toNat_toUInt8 hd] at hnat
  exact Char.toNat_inj.1 hnat

/-- No byte of a longer character is a character of its own. -/
theorem le_of_mem_utf8EncodeChar {b : UInt8} (hc : c.utf8Size ≠ 1)
    (hb : b ∈ String.utf8EncodeChar c) : 128 ≤ b.toNat := by
  have hlarge : ¬c.val.toNat ≤ 127 := fun h ↦
    hc (Char.utf8Size_eq_one_iff.2 (UInt32.le_iff_toNat_le.2 h))
  unfold String.utf8EncodeChar at hb
  dsimp only at hb
  rw [if_neg hlarge] at hb
  split at hb
  · simp only [List.mem_cons, List.not_mem_nil, or_false] at hb
    obtain rfl | rfl := hb
    all_goals
      simp only [UInt8.toNat_ofNat']
      omega
  · split at hb
    · simp only [List.mem_cons, List.not_mem_nil, or_false] at hb
      obtain rfl | rfl | rfl := hb
      all_goals
        simp only [UInt8.toNat_ofNat']
        omega
    · simp only [List.mem_cons, List.not_mem_nil, or_false] at hb
      obtain rfl | rfl | rfl | rfl := hb
      all_goals
        simp only [UInt8.toNat_ofNat']
        omega

/-- The bytes of a piece of a text stand where the piece does. -/
theorem At.getElem?_bytes (h : At text pos (w ++ cs)) (hi : i < size w) :
    (bytes text)[pos + i]? = (bytes w)[i]? := by
  obtain ⟨before, rfl, rfl⟩ := h
  have hlength (v : List Char) : (v.flatMap String.utf8EncodeChar).length = size v := by
    simpa [bytes] using size_bytes v
  simp only [bytes, List.getElem?_toArray, List.flatMap_append]
  rw [List.getElem?_append_right (by rw [hlength]; omega), hlength, Nat.add_sub_cancel_left,
    List.getElem?_append_left (by rwa [hlength])]

theorem getElem?_bytes_singleton (c : Char) (i : Nat) :
    (bytes [c])[i]? = (String.utf8EncodeChar c)[i]? := by
  rw [bytes, List.flatMap_singleton, List.getElem?_toArray]

theorem At.getElem?_bytes_ascii (h : At text pos (c :: cs)) (hc : c.utf8Size = 1) :
    (bytes text)[pos]? = some c.toUInt8 := by
  have hbyte := At.getElem?_bytes (w := [c]) (i := 0) h (by simp [hc])
  rwa [getElem?_bytes_singleton, String.utf8EncodeChar_eq_singleton hc] at hbyte

/-- Each byte of a character differs from a character of one byte that is not the same. -/
theorem At.exists_byte_ne (h : At text pos (c :: cs)) (hd : d.utf8Size = 1) (hne : c ≠ d)
    (hpos : pos ≤ i) (hi : i < pos + c.utf8Size) :
    ∃ b, (bytes text)[i]? = some b ∧ b ≠ d.toUInt8 := by
  obtain ⟨k, rfl⟩ := Nat.exists_eq_add_of_le hpos
  have hk : k < (String.utf8EncodeChar c).length := by
    rw [String.length_utf8EncodeChar]
    omega
  have hbyte := At.getElem?_bytes (w := [c]) (i := k) h (by simp; omega)
  rw [getElem?_bytes_singleton, List.getElem?_eq_getElem hk] at hbyte
  refine ⟨_, hbyte, fun heq ↦ ?_⟩
  by_cases hc : c.utf8Size = 1
  · simp only [String.utf8EncodeChar_eq_singleton hc, List.getElem_singleton] at heq
    exact hne (eq_of_toUInt8_eq hc hd heq)
  · have hle := le_of_mem_utf8EncodeChar hc (List.getElem_mem hk)
    have hlt := toNat_lt_of_utf8Size hd
    rw [heq, toNat_toUInt8 hd] at hle
    omega

theorem At.getElem?_bytes_iff (h : At text pos cs) (hd : d.utf8Size = 1) :
    (bytes text)[pos]? = some d.toUInt8 ↔ cs.head? = some d := by
  cases cs with
  | nil =>
    have hend : (bytes text)[pos]? = none := by
      rw [Array.getElem?_eq_none_iff, size_bytes, h.size_eq]
      exact Nat.le_refl _
    simp [hend]
  | cons c cs =>
    by_cases hc : c = d
    · subst hc
      simp [h.getElem?_bytes_ascii hd]
    · have hsize := c.utf8Size_pos
      obtain ⟨b, hb, hne⟩ := h.exists_byte_ne hd hc (Nat.le_refl pos) (by omega)
      simp [hb, hne, hc]

/-- A byte that is a character of its own stands where that character does. -/
theorem exists_at_of_getElem?_bytes (h : At text pos (w ++ cs)) (hd : d.utf8Size = 1)
    (hpos : pos ≤ i) (hi : i < pos + size w) (hbyte : (bytes text)[i]? = some d.toUInt8) :
    d ∈ w ∧ Boundary text i := by
  induction w generalizing pos with
  | nil => exact absurd hi (by simpa using hpos)
  | cons c w ih =>
    by_cases hlast : i < pos + c.utf8Size
    · by_cases hc : c = d
      · subst hc
        obtain rfl : pos = i := by omega
        exact ⟨List.mem_cons_self, h.boundary⟩
      · obtain ⟨b, hb, hne⟩ := h.exists_byte_ne hd hc hpos hlast
        exact absurd (Option.some.inj (hb.symm.trans hbyte)) hne
    · rw [size_cons, ← Nat.add_assoc] at hi
      obtain ⟨hmem, hboundary⟩ := ih h.tail (by omega) hi
      exact ⟨List.mem_cons_of_mem c hmem, hboundary⟩

/-- A character of one byte stands wherever its byte does. -/
theorem boundary_of_getElem?_bytes (hd : d.utf8Size = 1)
    (h : (bytes text)[i]? = some d.toUInt8) : Boundary text i := by
  obtain ⟨hi, -⟩ := Array.getElem?_eq_some_iff.1 h
  have hat : At text 0 (text ++ []) := by
    rw [List.append_nil]
    exact At.start text
  exact (exists_at_of_getElem?_bytes hat hd (Nat.zero_le i) (by simpa using hi) h).2

end Text

/-! ## Turns of a search -/

namespace Access

section Bytes

/-- A comment starts at byte `i`. -/
def Opens (bytes : Array UInt8) (i : Nat) : Prop :=
  bytes[i]? = some '/'.toUInt8 ∧
    (bytes[i + 1]? = some '/'.toUInt8 ∨ bytes[i + 1]? = some '*'.toUInt8)

/-- A block comment ends with bytes `i` and `i + 1`. -/
def Closes (bytes : Array UInt8) (i : Nat) : Prop :=
  bytes[i]? = some '*'.toUInt8 ∧ bytes[i + 1]? = some '/'.toUInt8

instance (bytes : Array UInt8) (i : Nat) : Decidable (Opens bytes i) :=
  inferInstanceAs (Decidable (_ ∧ _))

instance (bytes : Array UInt8) (i : Nat) : Decidable (Closes bytes i) :=
  inferInstanceAs (Decidable (_ ∧ _))

variable {bytes : Array UInt8} {stop i : Nat} {token b : UInt8}

theorem lineEnd?_of_le (h : stop ≤ i) : lineEnd? bytes stop i = some i := by
  rw [lineEnd?, if_neg (by omega)]

theorem lineEnd?_of_lt (hi : i < stop) (hb : bytes[i]? = some b) :
    lineEnd? bytes stop i = if b = '\n'.toUInt8 then some i else lineEnd? bytes stop (i + 1) := by
  rw [lineEnd?, if_pos hi, hb]
  rfl

theorem blockEnd?_of_le (h : stop ≤ i + 1) : blockEnd? bytes stop i = some i := by
  rw [blockEnd?, if_neg (by omega)]

theorem closes?_eq (hi : i + 1 < bytes.size) :
    closes? bytes i = some (decide (Closes bytes i)) := by
  have hfirst := Array.getElem?_eq_getElem (Nat.lt_of_succ_lt hi)
  have hsecond := Array.getElem?_eq_getElem hi
  by_cases hstar : bytes[i] = '*'.toUInt8
  · simp [closes?, Closes, hfirst, hsecond, hstar]
  · simp [closes?, Closes, hfirst, hstar]

theorem blockEnd?_eq_bind (hi : i + 1 < stop) :
    blockEnd? bytes stop i = (closes? bytes i).bind fun closed ↦
      if closed then some i else blockEnd? bytes stop (i + 1) := by
  rw [blockEnd?, if_pos hi]
  rfl

theorem blockEnd?_of_lt (hstop : stop ≤ bytes.size) (hi : i + 1 < stop) :
    blockEnd? bytes stop i = if Closes bytes i then some i else blockEnd? bytes stop (i + 1) := by
  rw [blockEnd?_eq_bind hi, closes?_eq (Nat.lt_of_lt_of_le hi hstop)]
  simp

theorem search?_of_le (h : stop ≤ i) : search? bytes stop token i = some stop := by
  rw [search?, dif_neg (by omega)]

theorem search?_of_found (hi : i < stop) (h : turn? bytes stop token i = some .found) :
    search? bytes stop token i = some i := by
  rw [search?, dif_pos hi]
  split <;> simp_all

theorem search?_of_turn? {o : Option Nat} (hi : i < stop)
    (h : turn? bytes stop token i = o.map .onward) :
    search? bytes stop token i = o.bind (search? bytes stop token) := by
  rw [search?, dif_pos hi]
  cases o <;> split <;> simp_all

/-- A line comment is passed first. -/
theorem search?_of_line (hi : i < stop) (hslash : bytes[i]? = some '/'.toUInt8)
    (hnext : bytes[i + 1]? = some '/'.toUInt8) :
    search? bytes stop token i = (lineEnd? bytes stop i).bind (search? bytes stop token) := by
  refine search?_of_turn? hi ?_
  rw [turn?, hslash, hnext]
  cases lineEnd? bytes stop i <;> rfl

/-- So is a block comment. -/
theorem search?_of_block (hi : i < stop) (hslash : bytes[i]? = some '/'.toUInt8)
    (hnext : bytes[i + 1]? = some '*'.toUInt8) :
    search? bytes stop token i =
      (blockEnd? bytes stop (i + 2)).bind fun j ↦ search? bytes stop token (j + 2) := by
  refine (search?_of_turn? (o := (blockEnd? bytes stop (i + 2)).map (· + 2)) hi ?_).trans ?_
  · rw [turn?, hslash, hnext]
    cases blockEnd? bytes stop (i + 2) <;> rfl
  · exact Option.bind_map ..

/-- A byte that opens no comment is the token or is passed. -/
theorem search?_of_not_opens (hi : i < stop) (hb : bytes[i]? = some b) (hopen : ¬Opens bytes i) :
    search? bytes stop token i =
      if b = token then some i else search? bytes stop token (i + 1) := by
  have hline : ¬(b = '/'.toUInt8 ∧ bytes[i + 1]? = some '/'.toUInt8) := fun h ↦
    hopen ⟨by rw [hb, h.1], .inl h.2⟩
  have hblock : ¬(b = '/'.toUInt8 ∧ bytes[i + 1]? = some '*'.toUInt8) := fun h ↦
    hopen ⟨by rw [hb, h.1], .inr h.2⟩
  have hturn : turn? bytes stop token i =
      if b = token then some .found else some (.onward (i + 1)) := by
    rw [turn?, hb]
    simp only [Option.bind_eq_bind, Option.bind_some, if_neg hline, if_neg hblock]
    rfl
  split
  · rename_i htoken
    rw [if_pos htoken] at hturn
    exact search?_of_found hi hturn
  · rename_i htoken
    rw [if_neg htoken] at hturn
    exact search?_of_turn? (o := some (i + 1)) hi hturn

/-- A comment that is opened by the last byte of the range hides nothing. -/
theorem Opens.search?_eq (h : Opens bytes i) (hi : i + 1 = stop) :
    search? bytes stop token i = some stop := by
  obtain ⟨hslash, hline | hblock⟩ := h
  · have hend : lineEnd? bytes stop i = some stop := by
      rw [lineEnd?_of_lt (by omega) hslash, if_neg (by decide), lineEnd?_of_le (by omega), hi]
    rw [search?_of_line (by omega) hslash hline, hend, Option.bind_some]
    exact search?_of_le (Nat.le_refl stop)
  · rw [search?_of_block (by omega) hslash hblock, blockEnd?_of_le (by omega), Option.bind_some]
    exact search?_of_le (by omega)

theorem getElem?_of_found (h : turn? bytes stop token i = some .found) :
    bytes[i]? = some token := by
  obtain ⟨j, -, -, h⟩ | ⟨j, -, h⟩ | ⟨hread, -⟩ | h := cases_of_turn? h
  · cases h
  · cases h
  · exact hread
  · cases h

/-- What is found is the token, or the end of the range. -/
theorem bounds_of_search? {r : Nat} (h : search? bytes stop token i = some r) :
    min i stop ≤ r ∧ (r = stop ∨ r < stop ∧ bytes[r]? = some token) := by
  fun_induction search? bytes stop token i with
  | case1 => cases h
  | case2 i hi hturn =>
    cases h
    exact ⟨Nat.min_le_left _ _, .inr ⟨hi, getElem?_of_found hturn⟩⟩
  | case3 i hi j hturn ih =>
    obtain ⟨hle, hr⟩ := ih h
    have hlt := lt_of_turn? hi hturn
    exact ⟨by omega, hr⟩
  | case4 i hi =>
    cases h
    exact ⟨Nat.min_le_right _ _, .inl rfl⟩

end Bytes

/-! ## Text that is passed -/

section Runs

variable {bytes : Array UInt8} {stop i j : Nat} {token : UInt8}

/-- What no byte of a run changes is the same after it. -/
theorem eq_of_forall_step {α : Type} {f : Nat → α} (hij : i ≤ j)
    (h : ∀ k, i ≤ k → k < j → f k = f (k + 1)) : f i = f j := by
  induction hij with
  | refl => rfl
  | @step j hij ih =>
    have hbefore := ih fun k hik hkj ↦ h k hik (Nat.lt_succ_of_lt hkj)
    exact hbefore.trans (h j hij (Nat.lt_succ_self j))

theorem lineEnd?_eq_some (hstop : stop ≤ bytes.size) (hij : i ≤ j) (hj : j ≤ stop)
    (hbody : ∀ k < j, i ≤ k → bytes[k]? ≠ some '\n'.toUInt8)
    (hend : bytes[j]? = some '\n'.toUInt8 ∨ j = stop) : lineEnd? bytes stop i = some j := by
  have hrun : lineEnd? bytes stop i = lineEnd? bytes stop j := by
    refine eq_of_forall_step hij fun k hik hkj ↦ ?_
    have hread := Array.getElem?_eq_getElem (show k < bytes.size by omega)
    have hne := hbody k hkj hik
    rw [hread, ne_eq, Option.some.injEq] at hne
    exact (lineEnd?_of_lt (by omega) hread).trans (if_neg hne)
  rw [hrun]
  by_cases hlast : j = stop
  · exact lineEnd?_of_le (Nat.le_of_eq hlast.symm)
  · exact (lineEnd?_of_lt (by omega) (hend.resolve_right hlast)).trans (if_pos rfl)

theorem blockEnd?_eq_some (hstop : stop ≤ bytes.size) (hij : i ≤ j) (hj : j + 1 < stop)
    (hbody : ∀ k < j, i ≤ k → ¬Closes bytes k) (hend : Closes bytes j) :
    blockEnd? bytes stop i = some j := by
  have hrun : blockEnd? bytes stop i = blockEnd? bytes stop j :=
    eq_of_forall_step hij fun k hik hkj ↦
      (blockEnd?_of_lt hstop (by omega)).trans (if_neg (hbody k hkj hik))
  exact hrun.trans ((blockEnd?_of_lt hstop hj).trans (if_pos hend))

end Runs

/-- White space and comments. A comment that goes on to the end of its line ends with `\n`. -/
inductive Padding : List Char → Prop
  | nil : Padding []
  | space {c : Char} {w : List Char} (hc : Token.isSpace c = true) (h : Padding w) :
    Padding (c :: w)
  | line {body w : List Char} (hbody : '\n' ∉ body) (h : Padding w) :
    Padding ('/' :: '/' :: (body ++ '\n' :: w))
  | block {body w : List Char} (hbody : Comment.closesBlock false body = true) (h : Padding w) :
    Padding ('/' :: '*' :: (body ++ w))

variable {text cs w body rest : List Char} {token c : Char} {pos stop : Nat}

theorem opens_iff (h : At text pos (c :: cs)) :
    Opens (Text.bytes text) pos ↔ c = '/' ∧ (cs.head? = some '/' ∨ cs.head? = some '*') := by
  have hslash := h.getElem?_bytes_iff (d := '/') rfl
  rw [Opens, hslash, List.head?_cons, Option.some.injEq]
  refine and_congr_right fun hc ↦ ?_
  subst hc
  exact or_congr (h.tail.getElem?_bytes_iff rfl) (h.tail.getElem?_bytes_iff rfl)

/-- A character that opens no comment and is not the token is passed. -/
theorem search?_char (h : At text pos (c :: cs)) (htoken : token.utf8Size = 1) (hne : c ≠ token)
    (hslash : c ≠ '/') (hstop : pos + c.utf8Size ≤ stop) :
    search? (Text.bytes text) stop token.toUInt8 pos =
      search? (Text.bytes text) stop token.toUInt8 (pos + c.utf8Size) := by
  refine eq_of_forall_step (Nat.le_add_right _ _) fun k hk hk' ↦ ?_
  obtain ⟨b, hb, hb'⟩ := h.exists_byte_ne htoken hne hk hk'
  obtain ⟨b', hread, hb''⟩ := h.exists_byte_ne (d := '/') rfl hslash hk hk'
  refine (search?_of_not_opens (by omega) hb fun hopen ↦ ?_).trans (if_neg hb')
  exact hb'' (Option.some.inj (hread.symm.trans hopen.1))

theorem search?_chars (h : At text pos (w ++ rest)) (htoken : token.utf8Size = 1)
    (hw : ∀ c ∈ w, c ≠ token ∧ c ≠ '/') (hstop : pos + Text.size w ≤ stop) :
    search? (Text.bytes text) stop token.toUInt8 pos =
      search? (Text.bytes text) stop token.toUInt8 (pos + Text.size w) := by
  induction w generalizing pos with
  | nil => rfl
  | cons c w ih =>
    obtain ⟨hc, hw⟩ := List.forall_mem_cons.1 hw
    rw [Text.size_cons, ← Nat.add_assoc] at hstop ⊢
    rw [search?_char h htoken hc.1 hc.2 (by omega)]
    exact ih h.tail hw hstop

/-- The end of a line is found behind what has no line feed. -/
theorem lineEnd?_body (h : At text pos (w ++ rest)) (hw : '\n' ∉ w)
    (hstop : pos + Text.size w ≤ stop) (hsize : stop ≤ Text.size text)
    (hend : rest.head? = some '\n' ∨ pos + Text.size w = stop) :
    lineEnd? (Text.bytes text) stop pos = some (pos + Text.size w) := by
  refine lineEnd?_eq_some (by rwa [Text.size_bytes]) (Nat.le_add_right _ _) hstop
    (fun k hk hpos hfeed ↦ ?_) (hend.imp (h.append.getElem?_bytes_iff rfl).2 id)
  exact hw (Text.exists_at_of_getElem?_bytes h rfl hpos hk hfeed).1

/-- The end of a block comment is found with its last two characters. -/
theorem blockEnd?_body {star : Bool} (h : At text pos (body ++ rest))
    (hbody : Comment.closesBlock star body = true) (hstar : star = true → body.head? ≠ some '/')
    (hstop : pos + Text.size body ≤ stop) (hsize : stop ≤ Text.size text) :
    ∃ j, blockEnd? (Text.bytes text) stop pos = some j ∧ j + 2 = pos + Text.size body := by
  have hbytes : stop ≤ (Text.bytes text).size := by rwa [Text.size_bytes]
  induction body generalizing star pos with
  | nil => cases hbody
  | cons c body ih =>
    have hnot : ¬(star && c == '/') = true := by simpa using hstar
    rw [Comment.closesBlock, if_neg hnot] at hbody
    obtain ⟨d, ds, rfl⟩ : ∃ d ds, body = d :: ds := by
      cases body with
      | nil => cases hbody
      | cons d ds => exact ⟨d, ds, rfl⟩
    have hd := d.utf8Size_pos
    simp only [Text.size_cons] at hstop ih ⊢
    by_cases hend : c = '*' ∧ d = '/'
    · obtain ⟨rfl, rfl⟩ := hend
      obtain rfl : ds = [] := List.isEmpty_iff.1 hbody
      have hclosed : Closes (Text.bytes text) pos :=
        ⟨h.getElem?_bytes_ascii rfl, h.tail.getElem?_bytes_ascii rfl⟩
      exact ⟨pos, (blockEnd?_of_lt hbytes hstop).trans (if_pos hclosed), rfl⟩
    · have hrun : blockEnd? (Text.bytes text) stop pos =
          blockEnd? (Text.bytes text) stop (pos + c.utf8Size) := by
        refine eq_of_forall_step (Nat.le_add_right _ _) fun k hk hk' ↦ ?_
        refine (blockEnd?_of_lt hbytes (by omega)).trans (if_neg ?_)
        rintro ⟨hfirst, hsecond⟩
        by_cases hc : c = '*'
        · subst hc
          have hsize : '*'.utf8Size = 1 := rfl
          obtain rfl : k = pos := by omega
          exact hend ⟨rfl, Option.some.inj ((h.tail.getElem?_bytes_iff rfl).1 hsecond)⟩
        · obtain ⟨b, hb, hne⟩ := h.exists_byte_ne (d := '*') rfl hc hk hk'
          exact hne (Option.some.inj (hb.symm.trans hfirst))
      obtain ⟨j, hj, hlast⟩ := ih h.tail hbody (by simpa using fun hc hd ↦ hend ⟨hc, hd⟩) (by omega)
      exact ⟨j, hrun.trans hj, by omega⟩

/-- A line comment is passed with the line feed that ends it. -/
theorem search?_line (h : At text pos ('/' :: '/' :: body ++ '\n' :: rest)) (hbody : '\n' ∉ body)
    (htoken : token.utf8Size = 1 ∧ token ≠ '\n')
    (hstop : pos + Text.size ('/' :: '/' :: body ++ ['\n']) ≤ stop)
    (hsize : stop ≤ Text.size text) :
    search? (Text.bytes text) stop token.toUInt8 pos =
      search? (Text.bytes text) stop token.toUInt8
        (pos + Text.size ('/' :: '/' :: body ++ ['\n'])) := by
  have hfeed : Text.size ['\n'] = 1 := rfl
  rw [Text.size_append, ← Nat.add_assoc, hfeed] at hstop ⊢
  have hend := lineEnd?_body h (by simp [hbody]) (by omega) hsize (.inl rfl)
  rw [search?_of_line (by omega) (h.getElem?_bytes_ascii rfl) (h.tail.getElem?_bytes_ascii rfl),
    hend, Option.bind_some]
  exact search?_char h.append htoken.1 (Ne.symm htoken.2) (by decide) hstop

/-- A block comment is passed with its end. -/
theorem search?_block (h : At text pos ('/' :: '*' :: body ++ rest))
    (hbody : Comment.closesBlock false body = true) (b : UInt8)
    (hstop : pos + Text.size ('/' :: '*' :: body) ≤ stop) (hsize : stop ≤ Text.size text) :
    search? (Text.bytes text) stop b pos =
      search? (Text.bytes text) stop b (pos + Text.size ('/' :: '*' :: body)) := by
  have hopen : At text (pos + 2) (body ++ rest) := h.tail.tail
  have hlength : Text.size ('/' :: '*' :: body) = 2 + Text.size body := by
    rw [Text.size_cons, Text.size_cons, ← Nat.add_assoc]
    rfl
  rw [hlength, ← Nat.add_assoc] at hstop ⊢
  obtain ⟨j, hj, hlast⟩ := blockEnd?_body hopen hbody (by simp) hstop hsize
  rw [search?_of_block (by omega) (h.getElem?_bytes_ascii rfl) (h.tail.getElem?_bytes_ascii rfl),
    hj, Option.bind_some, hlast]

/-- White space and comments are passed. -/
theorem Padding.search?_eq (hw : Padding w) (h : At text pos (w ++ rest))
    (htoken : Token.isSpace token = false ∧ token ≠ '/' ∧ token.utf8Size = 1)
    (hstop : pos + Text.size w ≤ stop) (hsize : stop ≤ Text.size text) :
    search? (Text.bytes text) stop token.toUInt8 pos =
      search? (Text.bytes text) stop token.toUInt8 (pos + Text.size w) := by
  have hspace {c : Char} (hc : Token.isSpace c = true) : c ≠ token ∧ c ≠ '/' := by
    constructor
    · rintro rfl
      exact absurd hc (by simp [htoken.1])
    · rintro rfl
      exact absurd hc (by decide)
  induction hw generalizing pos with
  | nil => rfl
  | @space c w hc _ ih =>
    rw [Text.size_cons, ← Nat.add_assoc] at hstop ⊢
    rw [search?_char h htoken.2.2 (hspace hc).1 (hspace hc).2 (by omega)]
    exact ih h.tail hstop
  | @line body w hbody _ ih =>
    have hparts : '/' :: '/' :: (body ++ '\n' :: w) = '/' :: '/' :: body ++ ['\n'] ++ w := by simp
    rw [hparts, Text.size_append, ← Nat.add_assoc] at hstop ⊢
    rw [hparts, List.append_assoc] at h
    rw [search?_line (by simpa using h) hbody ⟨htoken.2.2, (hspace rfl).1.symm⟩ (by omega) hsize]
    exact ih h.append hstop
  | @block body w hbody _ ih =>
    have hparts : '/' :: '*' :: (body ++ w) = '/' :: '*' :: body ++ w := rfl
    rw [hparts, Text.size_append, ← Nat.add_assoc] at hstop ⊢
    rw [hparts, List.append_assoc] at h
    rw [search?_block h hbody _ (by omega) hsize]
    exact ih h.append hstop

/-! ## Tokens of one byte -/

theorem findToken_le (token : Char) (start stop : Nat) (text : List Char) :
    findToken token start stop text ≤ stop := by
  rw [findToken]
  cases h : findToken? token.toUInt8 start stop text with
  | none => exact Nat.le_refl stop
  | some r =>
    obtain ⟨-, rfl | hr⟩ := bounds_of_search? h
    · exact Nat.le_refl r
    · exact Nat.le_of_lt hr.1

/-- A token is searched from an offset on. -/
theorem le_findToken {start : Nat} (token : Char) (text : List Char) (hle : start ≤ stop) :
    start ≤ findToken token start stop text := by
  rw [findToken]
  cases h : findToken? token.toUInt8 start stop text with
  | none => exact hle
  | some r => exact Nat.le_trans (Nat.le_min.2 ⟨Nat.le_refl _, hle⟩) (bounds_of_search? h).1

theorem boundary_findToken (htoken : token.utf8Size = 1) (start : Nat)
    (hstop : Boundary text stop) : Boundary text (findToken token start stop text) := by
  rw [findToken]
  cases h : findToken? token.toUInt8 start stop text with
  | none => exact hstop
  | some r =>
    obtain ⟨-, rfl | hr⟩ := bounds_of_search? h
    · exact hstop
    · exact Text.boundary_of_getElem?_bytes htoken hr.2

/-- A token behind white space and comments is found. -/
theorem Padding.findToken_eq (hw : Padding w) (h : At text pos (w ++ token :: rest))
    (htoken : Token.isSpace token = false ∧ token ≠ '/' ∧ token.utf8Size = 1)
    (hstop : pos + Text.size w ≤ stop) (hsize : stop ≤ Text.size text) :
    findToken token pos stop text = pos + Text.size w := by
  have hfound : search? (Text.bytes text) stop token.toUInt8 (pos + Text.size w) =
      some (pos + Text.size w) := by
    obtain hlt | rfl := Nat.lt_or_eq_of_le hstop
    · have hopen : ¬Opens (Text.bytes text) (pos + Text.size w) := by
        simp [opens_iff h.append, htoken.2.1]
      exact (search?_of_not_opens hlt (h.append.getElem?_bytes_ascii htoken.2.2) hopen).trans
        (if_pos rfl)
    · exact search?_of_le (Nat.le_refl _)
  rw [findToken, findToken?, hw.search?_eq h htoken hstop hsize, hfound, Option.getD_some]

/-- A line comment that does not end in the range hides the rest of it. -/
theorem findToken_hidden {before : List Char}
    (h : At text pos (before ++ '/' :: '/' :: body ++ rest))
    (hbefore : ∀ c ∈ before, c ≠ token ∧ c ≠ '/') (hbody : '\n' ∉ body)
    (htoken : token.utf8Size = 1) :
    findToken token pos (pos + Text.size (before ++ '/' :: '/' :: body)) text =
      pos + Text.size (before ++ '/' :: '/' :: body) := by
  have hsize := h.append.size_eq
  rw [List.append_assoc] at h
  have hcomment := h.append
  have hopen : 0 < Text.size ('/' :: '/' :: body) :=
    Nat.lt_of_lt_of_le '/'.utf8Size_pos (Nat.le_add_right _ _)
  rw [Text.size_append, ← Nat.add_assoc] at hsize ⊢
  have hend := lineEnd?_body hcomment (by simp [hbody]) (Nat.le_refl _) (by omega) (.inr rfl)
  rw [findToken, findToken?, search?_chars h htoken hbefore (by omega),
    search?_of_line (by omega) (hcomment.getElem?_bytes_ascii rfl)
      (hcomment.tail.getElem?_bytes_ascii rfl), hend, Option.bind_some,
    search?_of_le (Nat.le_refl _), Option.getD_some]

end Access

end OptionalChain
