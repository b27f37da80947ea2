import AuriOS.Lib.Strings

/-!
# Integers as text

`itoa` of `integer.c`: the digits are written from the last one on, and the text is then reversed in
place.

* `decimal`: the number that a text of digits stands for;
* `itoa_pos`, `itoa_neg`: what `itoa` leaves in its buffer;
* `itoa_ok`: for a positive `int`, `itoa` writes digits that stand for it.
-/

namespace AuriOS

open Program

/-! ### Decimal numbers -/

/-- A decimal digit. -/
def IsDigit (c : Byte) : Prop := byte '0' ≤ c ∧ c ≤ byte '9'

instance (c : Byte) : Decidable (IsDigit c) := inferInstanceAs (Decidable (_ ∧ _))

/-- The value of a digit. -/
def digitValue (c : Byte) : ℕ := c.toNat - (byte '0').toNat

/-- The number that digits stand for, the first one being the most significant; `0` without any. -/
def decimal (digits : List Byte) : ℕ := Nat.ofDigits 10 (digits.reverse.map digitValue)

/-- No digits have the value 0. -/
theorem decimal_nil : decimal [] = 0 := rfl

/-- One more digit is added to ten times the value. -/
theorem decimal_concat (digits : List Byte) (c : Byte) :
    decimal (digits ++ [c]) = decimal digits * 10 + digitValue c := by
  unfold decimal
  rw [List.reverse_concat, List.map_cons, Nat.ofDigits_cons, Nat.add_comm, Nat.mul_comm]

/-- More digits shift the value and add their own. -/
theorem decimal_append (digits later : List Byte) :
    decimal (digits ++ later) = decimal digits * 10 ^ later.length + decimal later := by
  unfold decimal
  rw [List.reverse_append, List.map_append, Nat.ofDigits_append, List.length_map,
    List.length_reverse, Nat.add_comm, Nat.mul_comm]

/-- The character of a digit. -/
def digitChar (n : ℕ) : Byte := BitVec.ofNat 8 (n + (byte '0').toNat)

/-- The digits follow each other from `0` on. -/
theorem digitChar_toNat {n : ℕ} (h : n < 10) : (digitChar n).toNat = n + 48 := by
  change (n + 48) % 2 ^ 8 = n + 48
  exact Nat.mod_eq_of_lt (by omega)

/-- The character of a digit has its value. -/
theorem digitValue_digitChar {n : ℕ} (h : n < 10) : digitValue (digitChar n) = n := by
  unfold digitValue
  rw [digitChar_toNat h]
  exact Nat.add_sub_cancel n 48

/-- The character of a digit is a digit. -/
theorem isDigit_digitChar {n : ℕ} (h : n < 10) : IsDigit (digitChar n) := by
  unfold IsDigit
  rw [BitVec.le_def, BitVec.le_def, digitChar_toNat h]
  exact ⟨Nat.le_add_left 48 n, show n + 48 ≤ 57 by omega⟩

/-- The digits of a number, the last one first. -/
def reversedDigits (n : ℕ) : List Byte := (Nat.digits 10 n).map digitChar

/-- The digits of a number are digits. -/
theorem mem_reversedDigits {n : ℕ} {c : Byte} (h : c ∈ reversedDigits n) : IsDigit c := by
  obtain ⟨d, hd, rfl⟩ := List.mem_map.mp h
  exact isDigit_digitChar (Nat.digits_lt_base (by decide) hd)

/-- The digits of a number in order have its value. -/
theorem decimal_reversedDigits (n : ℕ) : decimal (reversedDigits n).reverse = n := by
  unfold decimal reversedDigits
  rw [List.reverse_reverse, List.map_map]
  have hvalues : (Nat.digits 10 n).map (digitValue ∘ digitChar) = Nat.digits 10 n := by
    refine (List.map_congr_left fun d hd => ?_).trans (List.map_id _)
    exact digitValue_digitChar (Nat.digits_lt_base (by decide) hd)
  rw [hvalues, Nat.ofDigits_digits]

/-! ### Arithmetic in `int` -/

/-- The values of an `int`. -/
def InInt (x : ℤ) : Prop := -2 ^ 31 ≤ x ∧ x < 2 ^ 31

instance (x : ℤ) : Decidable (InInt x) := inferInstanceAs (Decidable (_ ∧ _))

/-- What the processor makes of the result of a signed operation.  In C the operation overflows if
this changes it. -/
def wrapInt (x : ℤ) : ℤ := x.bmod (2 ^ 32)

/-! ### The routine -/

/-- `while (nb > 0) { buffer[i++] = (nb % 10) + '0'; nb /= 10; }`. -/
def itoaDigits (nb i : ℕ) (buffer : List Byte) : Except Fault (ℕ × List Byte) :=
  if h : nb > 0 then do
    let buffer ← setByte buffer i (digitChar (nb % 10))
    itoaDigits (nb / 10) (i + 1) buffer
  else pure (i, buffer)
termination_by nb
decreasing_by exact Nat.div_lt_self h (by decide)

/-- The loop that reverses the text, with room for `n` more rounds; it ends by its own test before
`i` reaches the size of the buffer. -/
def itoaReverse : ℕ → ℕ → List Byte → Except Fault (List Byte)
  | 0, _, _ => throw .outOfBounds
  | n + 1, i, buffer => do
      let len ← strlen buffer
      if i < len / 2 then do
        let tmp ← getByte buffer i
        let b ← getByte buffer ((len : ℤ) - 1 - i)
        let buffer ← setByte buffer i b
        let buffer ← setByte buffer ((len : ℤ) - 1 - i) tmp
        itoaReverse n (i + 1) buffer
      else pure buffer

/-- `itoa`: the buffer, and whether the negation overflowed, after which C promises nothing. -/
def itoa (nb : ℤ) (buffer : List Byte) : Except Fault (List Byte × Bool) := do
  let negative : Bool := nb < 0
  let overflow := negative && !decide (InInt (-nb))
  let nb := if negative then wrapInt (-nb) else nb
  if nb = 0 then do
    let buffer ← setByte buffer 0 (byte '0')
    let buffer ← setByte buffer 1 0
    pure (buffer, overflow)
  else do
    let (i, buffer) ← itoaDigits nb.toNat 0 buffer
    if negative then do
      let buffer ← setByte buffer i (byte '-')
      let buffer ← setByte buffer ((i : ℤ) + 1) 0
      let buffer ← itoaReverse buffer.length 0 buffer
      pure (buffer, overflow)
    else do
      let buffer ← setByte buffer i 0
      let buffer ← itoaReverse buffer.length 0 buffer
      pure (buffer, overflow)

/-! ### What it writes -/

section Itoa

variable {rest : List Byte}

/-- The loop writes the digits, the last one first. -/
theorem itoaDigits_eq {nb : ℕ} (done old : List Byte)
    (hroom : (reversedDigits nb).length ≤ old.length) :
    itoaDigits nb done.length (done ++ old) = .ok (done.length + (reversedDigits nb).length,
      done ++ reversedDigits nb ++ old.drop (reversedDigits nb).length) := by
  induction nb using Nat.strongRecOn generalizing done old with
  | ind nb ih =>
    rw [itoaDigits]
    by_cases hpos : nb > 0
    · have hdigits : reversedDigits nb = digitChar (nb % 10) :: reversedDigits (nb / 10) := by
        unfold reversedDigits
        rw [Nat.digits_def' (by decide) hpos, List.map_cons]
      rw [hdigits, List.length_cons] at hroom
      obtain ⟨o, old, rfl⟩ := List.exists_cons_of_length_pos (Nat.zero_lt_of_lt hroom)
      have ih := ih (nb / 10) (Nat.div_lt_self hpos (by decide)) (done ++ [digitChar (nb % 10)]) old
        (Nat.le_of_succ_le_succ hroom)
      rw [List.length_append, List.length_singleton, List.append_assoc, List.singleton_append] at ih
      rw [dif_pos hpos, setByte_append, ok_bind, ih, hdigits]
      simp
      omega
    · obtain rfl : nb = 0 := Nat.eq_zero_of_not_pos hpos
      rw [dif_neg hpos]
      simp [reversedDigits]
      rfl

/-- The loop stops in the middle of the text. -/
theorem itoaReverse_stop {n i : ℕ} {text : List Byte} (h0 : 0 ∉ text) (hi : ¬ i < text.length / 2) :
    itoaReverse (n + 1) i (text ++ 0 :: rest) = .ok (text ++ 0 :: rest) := by
  rw [itoaReverse, strlen_eq ⟨h0, rest, rfl⟩, ok_bind, if_neg hi]
  rfl

/-- A round exchanges two characters. -/
theorem itoaReverse_step {n : ℕ} {l text r : List Byte} {a b : Byte}
    (h0 : 0 ∉ l ++ (a :: (text ++ [b])) ++ r) (hlr : l.length = r.length) :
    itoaReverse (n + 1) l.length (l ++ (a :: (text ++ [b])) ++ r ++ 0 :: rest) =
      itoaReverse n (l ++ [b]).length (l ++ [b] ++ text ++ (a :: r) ++ 0 :: rest) := by
  have hlen : (l ++ (a :: (text ++ [b])) ++ r).length = 2 * l.length + text.length + 2 := by
    simp [← hlr]
    omega
  have hi : l.length < (l ++ (a :: (text ++ [b])) ++ r).length / 2 := by omega
  have hlast : ((l ++ (a :: (text ++ [b])) ++ r).length : ℤ) - 1 - l.length =
      ((l ++ a :: text).length : ℕ) := by
    rw [hlen]
    simp
    ring
  have hfirst : getByte (l ++ (a :: (text ++ [b])) ++ r ++ 0 :: rest) l.length = .ok a := by
    have happend := getByte_append l (text ++ [b] ++ r ++ 0 :: rest) a
    simpa using happend
  have hsecond : getByte (l ++ (a :: (text ++ [b])) ++ r ++ 0 :: rest)
      ((l ++ a :: text).length : ℕ) = .ok b := by
    have happend := getByte_append (l ++ a :: text) (r ++ 0 :: rest) b
    simpa using happend
  have hset : setByte (l ++ (a :: (text ++ [b])) ++ r ++ 0 :: rest) l.length b =
      .ok (l ++ (b :: (text ++ [b])) ++ r ++ 0 :: rest) := by
    have happend := setByte_append l (text ++ [b] ++ r ++ 0 :: rest) a b
    simpa using happend
  have hset' : setByte (l ++ (b :: (text ++ [b])) ++ r ++ 0 :: rest)
      ((l ++ a :: text).length : ℕ) a = .ok (l ++ [b] ++ text ++ (a :: r) ++ 0 :: rest) := by
    have happend := setByte_append (l ++ b :: text) (r ++ 0 :: rest) b a
    simpa using happend
  rw [itoaReverse, strlen_eq ⟨h0, rest, rfl⟩, ok_bind, if_pos hi, hlast, hfirst, ok_bind, hsecond,
    ok_bind, hset, ok_bind, hset', ok_bind, List.length_append, List.length_singleton]

/-- The text between two ends that were reversed already. -/
theorem itoaReverse_eq {n : ℕ} {l text r : List Byte} (h0 : 0 ∉ l ++ text ++ r)
    (hlr : l.length = r.length) (hn : text.length ≤ n) :
    itoaReverse (n + 1) l.length (l ++ text ++ r ++ 0 :: rest) =
      .ok (l ++ text.reverse ++ r ++ 0 :: rest) := by
  induction text using List.bidirectionalRec generalizing n l r with
  | nil => exact itoaReverse_stop h0 (by simp; omega)
  | singleton a => exact itoaReverse_stop h0 (by simp; omega)
  | cons_append a text b ih =>
    rw [List.length_cons, List.length_append, List.length_singleton] at hn
    obtain ⟨n, rfl⟩ : ∃ m, n = m + 1 := ⟨n - 1, by omega⟩
    have hmem : ∀ c, c ∈ l ++ [b] ++ text ++ (a :: r) ↔ c ∈ l ++ (a :: (text ++ [b])) ++ r := by
      intro c
      simp only [List.mem_append, List.mem_cons, List.not_mem_nil, or_false]
      tauto
    rw [itoaReverse_step h0 hlr, ih (fun hm => h0 ((hmem 0).mp hm)) (by simp [hlr]) (by omega)]
    simp

/-- The reversal of a text that fills an array up to its NUL. -/
theorem itoaReverse_text {text : List Byte} (h0 : 0 ∉ text) :
    itoaReverse (text ++ 0 :: rest).length 0 (text ++ 0 :: rest) =
      .ok (text.reverse ++ 0 :: rest) := by
  have hlength : (text ++ 0 :: rest).length = text.length + rest.length + 1 := by
    rw [List.length_append, List.length_cons, Nat.add_assoc]
  have hends : 0 ∉ ([] : List Byte) ++ text ++ [] := by simpa using h0
  rw [hlength]
  simpa using itoaReverse_eq hends rfl (Nat.le_add_right text.length rest.length)

/-- There is no NUL among the digits of a number. -/
theorem zero_not_mem_reversedDigits (n : ℕ) : 0 ∉ reversedDigits n :=
  fun hm => absurd (mem_reversedDigits hm).1 (by decide)

/-- A number above 0 is written from its last digit on, and reversed. -/
theorem itoa_pos {nb : ℕ} {buffer : List Byte} (hpos : 0 < nb)
    (hroom : (reversedDigits nb).length < buffer.length) :
    itoa nb buffer = .ok ((reversedDigits nb).reverse ++
      0 :: buffer.drop ((reversedDigits nb).length + 1), false) := by
  obtain ⟨o, old, hold⟩ : ∃ o old, buffer.drop (reversedDigits nb).length = o :: old := by
    refine List.exists_cons_of_length_pos ?_
    rw [List.length_drop]
    omega
  have hrest : buffer.drop ((reversedDigits nb).length + 1) = old := by
    rw [← List.tail_drop, hold]
    rfl
  have hwrite := itoaDigits_eq [] buffer (Nat.le_of_lt hroom)
  rw [hold, List.length_nil, Nat.zero_add, List.nil_append, List.nil_append] at hwrite
  have hneg : decide ((nb : ℤ) < 0) = false := decide_eq_false (by omega)
  unfold itoa
  simp only [hneg, Bool.false_eq_true, if_false, Bool.false_and]
  rw [if_neg (by omega), Int.toNat_natCast, hwrite, ok_bind]
  dsimp only
  rw [setByte_append, ok_bind, hrest, itoaReverse_text (zero_not_mem_reversedDigits nb), ok_bind]
  rfl

/-- Below 0 the sign is written last. -/
theorem itoa_neg {nb : ℤ} {m : ℕ} {buffer : List Byte} (hneg : nb < 0)
    (hm : wrapInt (-nb) ≠ 0) (htoNat : (wrapInt (-nb)).toNat = m)
    (hroom : (reversedDigits m).length + 1 < buffer.length) :
    itoa nb buffer = .ok (byte '-' :: (reversedDigits m).reverse ++
      0 :: buffer.drop ((reversedDigits m).length + 2), !decide (InInt (-nb))) := by
  obtain ⟨o, tail, htail⟩ : ∃ o tail, buffer.drop (reversedDigits m).length = o :: tail := by
    refine List.exists_cons_of_length_pos ?_
    rw [List.length_drop]
    omega
  obtain ⟨o', old, hold⟩ : ∃ o' old, tail = o' :: old := by
    refine List.exists_cons_of_length_pos ?_
    have hlength := congrArg List.length htail
    rw [List.length_drop, List.length_cons] at hlength
    omega
  subst hold
  have hrest : buffer.drop ((reversedDigits m).length + 2) = old := by
    rw [← List.drop_drop, htail]
    rfl
  have hwrite := itoaDigits_eq [] buffer (show (reversedDigits m).length ≤ buffer.length by omega)
  rw [htail, List.length_nil, Nat.zero_add, List.nil_append, List.nil_append] at hwrite
  have hend : setByte (reversedDigits m ++ byte '-' :: o' :: old)
      (((reversedDigits m).length : ℕ) + 1) 0 =
        .ok (reversedDigits m ++ [byte '-'] ++ 0 :: old) := by
    have happend := setByte_append (reversedDigits m ++ [byte '-']) old o' 0
    rw [List.length_append, List.length_singleton] at happend
    simpa using happend
  have h0 : 0 ∉ reversedDigits m ++ [byte '-'] := by
    intro hmem
    rcases List.mem_append.mp hmem with hmem | hmem
    · exact zero_not_mem_reversedDigits m hmem
    · exact absurd (List.mem_singleton.mp hmem) (by decide)
  unfold itoa
  simp only [hneg, decide_true, if_true, Bool.true_and]
  rw [if_neg hm, htoNat, hwrite, ok_bind]
  dsimp only
  rw [setByte_append, ok_bind, hend, ok_bind, itoaReverse_text h0, ok_bind, hrest,
    List.reverse_concat]
  rfl

/-- A positive number is written with its digits. -/
theorem itoa_ok {nb : ℕ} {buffer : List Byte} (hpos : 0 < nb)
    (hroom : (reversedDigits nb).length < buffer.length) :
    ∃ digits buffer', itoa nb buffer = .ok (buffer', false) ∧ IsString buffer' digits ∧
      (∀ c ∈ digits, IsDigit c) ∧ decimal digits = nb ∧ buffer'.length = buffer.length := by
  have hdigits : ∀ c ∈ (reversedDigits nb).reverse, IsDigit c :=
    fun c hc => mem_reversedDigits (List.mem_reverse.mp hc)
  refine ⟨_, _, itoa_pos hpos hroom,
    ⟨fun hm => zero_not_mem_reversedDigits nb (List.mem_reverse.mp hm), _, rfl⟩, hdigits,
    decimal_reversedDigits nb, ?_⟩
  rw [List.length_append, List.length_reverse, List.length_cons, List.length_drop]
  omega

end Itoa

end AuriOS
