import AuriOS.Foundation.Program

/-!
# C strings

The routines of `string.c` that the terminal, the history and the shell use, on arrays of bytes.
An array is the list of its bytes.  A pointer to characters that are only read is the list of the
bytes from it to the end of its array, so that `&buffer[k]` is `buffer.drop k`; a routine that
writes gets the array and an index.  An access outside the array stops with `Fault.outOfBounds`.

The second half gives each routine its value on NUL-terminated arguments: `strlen_eq`,
`strlcpy_eq`, `strcmp_ok` and `strncmp_ok`.
-/

namespace AuriOS

open Program

/-- A character. -/
abbrev Byte := BitVec 8

/-- What a run of the shell can end in besides a result. -/
inductive Fault
  /-- An index outside its array. -/
  | outOfBounds
  /-- A Zig safety check failed. -/
  | trap
  /-- A command that does not return: `crash`, `reboot`, `exit`, or a page fault nobody handles. -/
  | stopped
  deriving DecidableEq

/-! ### Bytes and literals -/

/-- The byte of an ASCII character. -/
def byte (c : Char) : Byte := BitVec.ofNat 8 c.toNat

/-- The characters of a string literal. -/
def chars (s : String) : List Byte := s.toList.map byte

/-- A string literal as it lies in memory. -/
def literal (s : String) : List Byte := chars s ++ [0]

/-! ### Arrays -/

/-- `str[i]`, read. -/
def getByte (str : List Byte) (i : ℤ) : Except Fault Byte :=
  if 0 ≤ i ∧ i < str.length then .ok (str.getD i.toNat 0) else .error .outOfBounds

/-- `str[i] = b`. -/
def setByte (str : List Byte) (i : ℤ) (b : Byte) : Except Fault (List Byte) :=
  if 0 ≤ i ∧ i < str.length then .ok (str.set i.toNat b) else .error .outOfBounds

/-- How far `while (p(*str)) str++` moves. -/
def scan (p : Byte → Bool) : List Byte → Except Fault ℕ
  | [] => .error .outOfBounds
  | b :: str => if p b then (· + 1) <$> scan p str else .ok 0

/-! ### The routines -/

/-- `strlen`. -/
def strlen (str : List Byte) : Except Fault ℕ := scan (· ≠ 0) str

/-- `char` is signed. -/
def strcmp : List Byte → List Byte → Except Fault ℤ
  | a :: s1, b :: s2 => if a ≠ 0 ∧ a = b then strcmp s1 s2 else .ok (a.toInt - b.toInt)
  | _, _ => .error .outOfBounds

/-- `strcmp(s1, s2) == 0`. -/
def streq (s1 s2 : List Byte) : Except Fault Bool := do
  let z ← strcmp s1 s2
  pure (z = 0)

/-- The loop runs while `i < n - 1`: the last of the `n` characters is only subtracted. -/
def strncmp : List Byte → List Byte → ℕ → Except Fault ℤ
  | _, _, 0 => .ok 0
  | a :: s1, b :: s2, n + 1 =>
      if 0 < n ∧ a = b ∧ b ≠ 0 then strncmp s1 s2 n else .ok (a.toInt - b.toInt)
  | _, _, _ + 1 => .error .outOfBounds

/-- The loop of `strlcpy` at index `i` with room for `n` more characters. -/
def strlcpyFrom (dest : List Byte) (i : ℕ) : ℕ → List Byte → Except Fault (List Byte)
  | 0, _ => setByte dest i 0
  | _ + 1, [] => .error .outOfBounds
  | n + 1, b :: src =>
      if b ≠ 0 then do
        let dest ← setByte dest i b
        strlcpyFrom dest (i + 1) n src
      else setByte dest i 0

/-- `strlcpy`. -/
def strlcpy (dest src : List Byte) (size : ℕ) : Except Fault (List Byte) :=
  if size = 0 then .ok dest else strlcpyFrom dest 0 (size - 1) src

/-- `*str == ' ' || *str == '\t'`. -/
def isBlank (b : Byte) : Bool := b = byte ' ' ∨ b = byte '\t'

/-- The second loop of `str_trim`, with `end = str + d`. -/
def trimEnd (mem : List Byte) (str : ℕ) : ℕ → Except Fault (List Byte)
  | 0 => .ok mem
  | d + 1 => do
      let b ← getByte mem (str + (d + 1) : ℕ)
      if isBlank b then do
        let mem ← setByte mem (str + (d + 1) : ℕ) 0
        trimEnd mem str d
      else pure mem

/-- `str_trim` of the string at index `str` of an array: the array with the trailing blanks cut
off, and the index of the first character that is none. -/
def strTrim (mem : List Byte) (str : ℕ) : Except Fault (List Byte × ℕ) := do
  let skipped ← scan isBlank (mem.drop str)
  let str := str + skipped
  let b ← getByte mem str
  if b = 0 then pure (mem, str)
  else do
    let len ← strlen (mem.drop str)
    let mem ← trimEnd mem str (len - 1)
    pure (mem, str)

/-! ### Accesses inside the array -/

section Access

variable {str : List Byte} {b : Byte} {n : ℕ}

/-- A character in range is read. -/
theorem getByte_ok (h : str[n]? = some b) : getByte str n = .ok b := by
  obtain ⟨hn, hb⟩ := List.getElem?_eq_some_iff.mp h
  unfold getByte
  rw [if_pos ⟨Int.natCast_nonneg n, by exact_mod_cast hn⟩, Int.toNat_natCast,
    List.getD_eq_getElem _ _ hn, hb]

/-- A character in range is written. -/
theorem setByte_ok (h : n < str.length) (b : Byte) : setByte str n b = .ok (str.set n b) := by
  unfold setByte
  rw [if_pos ⟨Int.natCast_nonneg n, by exact_mod_cast h⟩, Int.toNat_natCast]

/-- The character behind a prefix is read. -/
theorem getByte_append (l r : List Byte) (a : Byte) :
    getByte (l ++ a :: r) (l.length : ℕ) = .ok a :=
  getByte_ok (by simp)

/-- The character behind a prefix is written. -/
theorem setByte_append (l r : List Byte) (a b : Byte) :
    setByte (l ++ a :: r) (l.length : ℕ) b = .ok (l ++ b :: r) := by
  rw [setByte_ok (by simp)]
  simp

end Access

/-! ### Scans -/

section Scan

variable {p : Byte → Bool} {b : Byte}

/-- The loop stops at the first character that fails its test. -/
theorem scan_append {text : List Byte} (htext : ∀ a ∈ text, p a) (hb : p b = false)
    (rest : List Byte) : scan p (text ++ b :: rest) = .ok text.length := by
  induction text with
  | nil => simp [scan, hb]
  | cons a text ih =>
    rw [List.cons_append, scan, if_pos (htext a (by simp)),
      ih fun c hc => htext c (List.mem_cons_of_mem a hc)]
    rfl

/-- A scan over a string stops at its NUL at the latest. -/
theorem scan_takeWhile (h0 : p 0 = false) (text rest : List Byte) :
    scan p (text ++ 0 :: rest) = .ok (text.takeWhile p).length := by
  induction text with
  | nil =>
    rw [List.nil_append, scan, h0]
    rfl
  | cons a text ih =>
    rw [List.cons_append, scan]
    split
    · next ha =>
      rw [ih, List.takeWhile_cons_of_pos ha]
      rfl
    · next ha =>
      rw [List.takeWhile_cons_of_neg ha]
      rfl

end Scan

/-! ### NUL-terminated strings -/

/-- At `str` lie the characters of `text` and a NUL. -/
def IsString (str text : List Byte) : Prop := 0 ∉ text ∧ ∃ rest, str = text ++ 0 :: rest

/-- The array of this size holds this string. -/
def HoldsString (size : ℕ) (array text : List Byte) : Prop :=
  array.length = size ∧ IsString array text

section Strings

variable {str text dest s1 s2 : List Byte}

/-- A literal without NUL is the string of its characters. -/
theorem isString_literal {s : String} (h : 0 ∉ chars s) : IsString (literal s) (chars s) :=
  ⟨h, [], rfl⟩

/-- The text lies before the first NUL. -/
theorem IsString.takeWhile_eq (h : IsString str text) : str.takeWhile (· ≠ 0) = text := by
  obtain ⟨h0, rest, rfl⟩ := h
  rw [List.takeWhile_append_of_pos fun a ha => by simpa using ne_of_mem_of_not_mem ha h0]
  simp

/-- A string has one text. -/
theorem IsString.text_unique {text' : List Byte} (h : IsString str text)
    (h' : IsString str text') : text = text' := h.takeWhile_eq.symm.trans h'.takeWhile_eq

/-- Any array with a NUL in it is a string. -/
theorem exists_isString (h : 0 ∈ str) : ∃ text, IsString str text := by
  obtain ⟨l, r, he, hl⟩ := List.eq_append_cons_of_mem h
  exact ⟨l, hl, r, he⟩

/-- A string is longer than its text. -/
theorem IsString.length_lt (h : IsString str text) : text.length < str.length := by
  obtain ⟨-, rest, rfl⟩ := h
  simp

/-- The tail of a string, from any of its characters or its NUL on. -/
theorem IsString.drop (h : IsString str text) {k : ℕ} (hk : k ≤ text.length) :
    IsString (str.drop k) (text.drop k) := by
  obtain ⟨h0, rest, rfl⟩ := h
  refine ⟨fun hm => h0 (List.mem_of_mem_drop hm), rest, ?_⟩
  rw [List.drop_append_of_le_length hk]

/-- `strlen` is the length of the text. -/
theorem strlen_eq (h : IsString str text) : strlen str = .ok text.length := by
  obtain ⟨h0, rest, rfl⟩ := h
  exact scan_append (fun a ha => by simpa using ne_of_mem_of_not_mem ha h0) (by simp) rest

/-- The loop copies at most that many characters and adds a NUL. -/
theorem strlcpyFrom_eq {rest : List Byte} (n : ℕ) (done old text : List Byte) (h0 : 0 ∉ text)
    (hroom : (text.take n).length < old.length) :
    strlcpyFrom (done ++ old) done.length n (text ++ 0 :: rest) =
      .ok (done ++ text.take n ++ 0 :: old.drop ((text.take n).length + 1)) := by
  induction n generalizing done old text with
  | zero =>
    obtain ⟨o, old, rfl⟩ := List.exists_cons_of_length_pos (Nat.zero_lt_of_lt hroom)
    rw [strlcpyFrom, setByte_append]
    simp
  | succ n ih =>
    obtain ⟨o, old, rfl⟩ := List.exists_cons_of_length_pos (Nat.zero_lt_of_lt hroom)
    cases text with
    | nil =>
      rw [List.nil_append, strlcpyFrom, if_neg (by simp), setByte_append]
      simp
    | cons b text =>
      have hb : b ≠ 0 := (List.ne_of_not_mem_cons h0).symm
      have ih := ih (done ++ [b]) old text (List.not_mem_of_not_mem_cons h0)
        (by simpa using hroom)
      rw [List.cons_append, strlcpyFrom, if_pos hb, setByte_append, ok_bind]
      simpa [List.append_assoc] using ih

/-- `strlcpy` cuts the text to `size - 1` characters and terminates it. -/
theorem strlcpy_eq {size : ℕ} (h : IsString str text) (hsize : 0 < size)
    (hroom : size ≤ dest.length) :
    strlcpy dest str size =
      .ok (text.take (size - 1) ++ 0 :: dest.drop ((text.take (size - 1)).length + 1)) := by
  obtain ⟨h0, rest, rfl⟩ := h
  unfold strlcpy
  rw [if_neg (Nat.ne_of_gt hsize)]
  exact strlcpyFrom_eq (size - 1) [] dest text h0
    (lt_of_le_of_lt (List.length_take_le _ _) (by omega))

/-- The copy is a string in the same array. -/
theorem strlcpy_holdsString {size room : ℕ} {old : List Byte} (h : IsString str text)
    (hdest : HoldsString room dest old) (hsize : 0 < size) (hroom : size ≤ room) :
    ∃ dest', strlcpy dest str size = .ok dest' ∧
      HoldsString room dest' (text.take (size - 1)) := by
  obtain ⟨rfl, -⟩ := hdest
  refine ⟨_, strlcpy_eq h hsize hroom, ?_, fun hm => h.1 (List.mem_of_mem_take hm), _, rfl⟩
  have hle := List.length_take_le (size - 1) text
  simp only [List.length_append, List.length_cons, List.length_drop]
  omega

/-- Two characters have the difference 0 exactly when they are the same. -/
theorem toInt_sub_eq_zero {a b : Byte} : a.toInt - b.toInt = 0 ↔ a = b := by
  rw [sub_eq_zero, BitVec.toInt_inj]

/-- `strcmp` gives 0 exactly on equal texts. -/
theorem strcmp_ok {a b : List Byte} (h1 : IsString s1 a) (h2 : IsString s2 b) :
    ∃ z, strcmp s1 s2 = .ok z ∧ (z = 0 ↔ a = b) := by
  obtain ⟨ha, r1, rfl⟩ := h1
  obtain ⟨hb, r2, rfl⟩ := h2
  induction a generalizing b with
  | nil =>
    cases b with
    | nil => exact ⟨0, by simp [strcmp], by simp⟩
    | cons y b =>
      have hy : 0 ≠ y := List.ne_of_not_mem_cons hb
      refine ⟨_, by rw [List.nil_append, List.cons_append, strcmp, if_neg (by simp)], ?_⟩
      exact toInt_sub_eq_zero.trans (iff_of_false hy (by simp))
  | cons x a ih =>
    have hx : x ≠ 0 := (List.ne_of_not_mem_cons ha).symm
    cases b with
    | nil =>
      refine ⟨_, by rw [List.nil_append, List.cons_append, strcmp, if_neg fun h => hx h.2], ?_⟩
      exact toInt_sub_eq_zero.trans (iff_of_false hx (by simp))
    | cons y b =>
      by_cases hxy : x = y
      · subst hxy
        obtain ⟨z, hz, hiff⟩ :=
          ih (List.not_mem_of_not_mem_cons ha) (List.not_mem_of_not_mem_cons hb)
        refine ⟨z, ?_, by rw [hiff]; simp⟩
        rw [List.cons_append, List.cons_append, strcmp, if_pos ⟨hx, rfl⟩, hz]
      · refine ⟨_, by rw [List.cons_append, List.cons_append, strcmp, if_neg fun h => hxy h.2], ?_⟩
        rw [toInt_sub_eq_zero]
        simp [hxy]

/-- `streq` tells equal texts from others. -/
theorem streq_eq {a b : List Byte} (h1 : IsString s1 a) (h2 : IsString s2 b) :
    streq s1 s2 = .ok (decide (a = b)) := by
  obtain ⟨z, hz, hiff⟩ := strcmp_ok h1 h2
  unfold streq
  rw [hz, ok_bind]
  exact congrArg _ (decide_eq_decide.mpr hiff)

/-- `strncmp` gives 0 exactly on texts that agree that far. -/
theorem strncmp_ok {a b : List Byte} (h1 : IsString s1 a) (h2 : IsString s2 b) (n : ℕ) :
    ∃ z, strncmp s1 s2 n = .ok z ∧ (z = 0 ↔ a.take n = b.take n) := by
  obtain ⟨ha, r1, rfl⟩ := h1
  obtain ⟨hb, r2, rfl⟩ := h2
  induction n generalizing a b with
  | zero => exact ⟨0, by simp [strncmp], by simp⟩
  | succ n ih =>
    cases a with
    | nil =>
      cases b with
      | nil => exact ⟨0, by simp [strncmp], by simp⟩
      | cons y b =>
        have hy : 0 ≠ y := List.ne_of_not_mem_cons hb
        refine ⟨_, by rw [List.nil_append, List.cons_append, strncmp, if_neg fun h => hy h.2.1], ?_⟩
        exact toInt_sub_eq_zero.trans (iff_of_false hy (by simp))
    | cons x a =>
      cases b with
      | nil =>
        have hx : x ≠ 0 := (List.ne_of_not_mem_cons ha).symm
        refine ⟨_, by rw [List.nil_append, List.cons_append, strncmp, if_neg fun h => hx h.2.1], ?_⟩
        exact toInt_sub_eq_zero.trans (iff_of_false hx (by simp))
      | cons y b =>
        by_cases hxy : x = y
        · subst hxy
          have hx : x ≠ 0 := (List.ne_of_not_mem_cons ha).symm
          cases n with
          | zero =>
            refine ⟨_, by rw [List.cons_append, List.cons_append, strncmp, if_neg (by simp)], ?_⟩
            simp
          | succ n =>
            obtain ⟨z, hz, hiff⟩ :=
              ih (List.not_mem_of_not_mem_cons ha) (List.not_mem_of_not_mem_cons hb)
            refine ⟨z, ?_, by rw [hiff]; simp⟩
            rw [List.cons_append, List.cons_append, strncmp,
              if_pos ⟨Nat.succ_pos n, rfl, hx⟩, hz]
        · refine ⟨_, by
            rw [List.cons_append, List.cons_append, strncmp, if_neg fun h => hxy h.2.1], ?_⟩
          rw [toInt_sub_eq_zero]
          simp [hxy]

end Strings

end AuriOS
