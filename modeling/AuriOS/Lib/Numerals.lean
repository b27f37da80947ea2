import AuriOS.Lib.Integer

/-!
# Numbers written and read

Decimal numerals, and how `itoa` and `atoi` of `integer.c` go between them and the values of an
`int`.

* `numeral_decimal`: a numeral without leading zeros is the `numeral` of its value;
* `itoa_eq`: `itoa` writes the signed numeral of every `int` but the least, of which only the sign
  is left;
* `atoi_eq`: `atoi` reads the number that is written, reduced to an `int`, and overflows on the way
  exactly when its digits stand for `2 ^ 31` or more;
* `itoa_atoi`: reading and writing back;
* `itoa_round_trip_iff`: writing and reading back, for every `int`.
-/

namespace AuriOS

open Program

/-! ### Numerals -/

/-- The numeral of a number, without leading zeros. -/
def numeral (n : ℕ) : List Byte := if n = 0 then [byte '0'] else (reversedDigits n).reverse

/-- A numeral with a sign in front of it below 0. -/
def signedNumeral (n : ℤ) : List Byte :=
  if n < 0 then byte '-' :: numeral n.natAbs else numeral n.natAbs

section Numerals

variable {n k : ℕ} {text : List Byte} {c : Byte}

/-- A numeral consists of digits. -/
theorem numeral_digits (n : ℕ) : ∀ c ∈ numeral n, IsDigit c := by
  intro c hc
  unfold numeral at hc
  split at hc
  · rw [List.mem_singleton.mp hc]
    decide
  · exact mem_reversedDigits (List.mem_reverse.mp hc)

/-- A numeral has the value it was made of. -/
theorem decimal_numeral (n : ℕ) : decimal (numeral n) = n := by
  unfold numeral
  split
  · next hzero =>
    rw [hzero]
    rfl
  · exact decimal_reversedDigits n

/-- A numeral has a digit. -/
theorem numeral_ne_nil (n : ℕ) : numeral n ≠ [] := by
  unfold numeral
  split
  · exact List.cons_ne_nil _ _
  · next hne =>
    refine List.reverse_ne_nil_iff.mpr fun hnil => hne ?_
    exact Nat.digits_eq_nil_iff_eq_zero.mp (List.map_eq_nil_iff.mp hnil)

/-- A numeral has no NUL. -/
theorem zero_not_mem_numeral (n : ℕ) : 0 ∉ numeral n :=
  fun hm => absurd (numeral_digits n 0 hm).1 (by decide)

/-- A number below a power of ten has at most that many digits. -/
theorem numeral_length_le (hk : 0 < k) (h : n < 10 ^ k) : (numeral n).length ≤ k := by
  unfold numeral
  split
  · exact hk
  · rw [List.length_reverse, reversedDigits, List.length_map]
    exact (Nat.digits_length_le_iff (by decide) n).mpr h

/-- A digit is below ten. -/
theorem digitValue_lt (h : IsDigit c) : digitValue c < 10 := by
  have hle : c.toNat ≤ 57 := h.2
  exact (Nat.sub_le_sub_right hle 48).trans_lt (by decide)

/-- A digit is the character of its value. -/
theorem digitChar_digitValue (h : IsDigit c) : digitChar (digitValue c) = c := by
  have hlo : 48 ≤ c.toNat := h.1
  refine BitVec.eq_of_toNat_eq ?_
  rw [digitChar_toNat (digitValue_lt h)]
  exact Nat.sub_add_cancel hlo

/-- Digits that do not begin with a superfluous zero are the numeral of what they stand for. -/
theorem numeral_decimal (hdigits : ∀ c ∈ text, IsDigit c) (hne : text ≠ [])
    (hlead : text.head? = some (byte '0') → text = [byte '0']) : numeral (decimal text) = text := by
  by_cases hfirst : text.head? = some (byte '0')
  · rw [hlead hfirst]
    decide
  obtain ⟨c, rest, rfl⟩ := List.exists_cons_of_ne_nil hne
  have hc := hdigits c List.mem_cons_self
  have hvalues : ∀ d ∈ (c :: rest).reverse.map digitValue, d < 10 := by
    intro d hd
    obtain ⟨b, hb, rfl⟩ := List.mem_map.mp hd
    exact digitValue_lt (hdigits b (List.mem_reverse.mp hb))
  have hlast : ∀ h : (c :: rest).reverse.map digitValue ≠ [],
      ((c :: rest).reverse.map digitValue).getLast h ≠ 0 := by
    intro h hzero
    rw [List.getLast_map, List.getLast_reverse, List.head_cons] at hzero
    refine hfirst (congrArg some ?_)
    rw [← digitChar_digitValue hc, hzero]
    rfl
  have hback : reversedDigits (decimal (c :: rest)) = (c :: rest).reverse := by
    unfold reversedDigits decimal
    rw [Nat.digits_ofDigits 10 (by decide) _ hvalues hlast, List.map_map]
    refine (List.map_congr_left fun b hb => ?_).trans (List.map_id _)
    exact digitChar_digitValue (hdigits b (List.mem_reverse.mp hb))
  have hpos : decimal (c :: rest) ≠ 0 := by
    intro hzero
    rw [hzero] at hback
    exact absurd (congrArg List.length hback) (by simp [reversedDigits])
  unfold numeral
  rw [if_neg hpos, hback, List.reverse_reverse]

end Numerals

section Int

variable {x : ℤ} {buffer : List Byte}

/-- An `int` does not wrap. -/
theorem wrapInt_of_inInt (h : InInt x) : wrapInt x = x := by
  obtain ⟨hlo, hhi⟩ := h
  exact Int.bmod_eq_of_le_mul_two (by omega) (by omega)

/-- A 32-bit word is an `int`. -/
theorem toInt_inInt (n : BitVec 32) : InInt n.toInt :=
  ⟨by simpa using BitVec.le_toInt n, by simpa using BitVec.toInt_lt (x := n)⟩

/-! ### `itoa` on every `int` -/

/-- What `itoa` writes.  At the least `int`, where its negation overflows, this is what it writes on
a processor that wraps. -/
def itoaText (nb : ℤ) : List Byte := if nb = -2 ^ 31 then [byte '-'] else signedNumeral nb

/-- An `int` has at most ten digits. -/
theorem natAbs_digits_length_le (h : InInt x) : (reversedDigits x.natAbs).length ≤ 10 := by
  obtain ⟨hlo, hhi⟩ := h
  rw [reversedDigits, List.length_map]
  exact (Nat.digits_length_le_iff (by decide) _).mpr (by norm_num; omega)

/-- `itoa` writes the text with its NUL, and overflows at the least `int` alone. -/
theorem itoa_eq (h : InInt x) (hroom : 12 ≤ buffer.length) :
    itoa x buffer = .ok (itoaText x ++ 0 :: buffer.drop ((itoaText x).length + 1),
      decide (x = -2 ^ 31)) := by
  have hlength := natAbs_digits_length_le h
  obtain ⟨hlo, hhi⟩ := h
  unfold itoaText
  rcases lt_trichotomy x 0 with hneg | rfl | hpos
  · by_cases hleast : x = -2 ^ 31
    · -- the negation wraps to the number itself, which has no digit above 0
      subst hleast
      exact itoa_neg (m := 0) (by decide) (by decide) (by decide)
        (show 1 < buffer.length by omega)
    · have hin : InInt (-x) := ⟨by omega, by omega⟩
      have hwrap : wrapInt (-x) = x.natAbs := by
        rw [wrapInt_of_inInt hin]
        omega
      rw [if_neg hleast, signedNumeral, if_pos hneg, numeral, if_neg (by omega)]
      rw [itoa_neg (m := x.natAbs) hneg (by omega) (by rw [hwrap, Int.toNat_natCast]) (by omega),
        List.length_cons, List.length_reverse, decide_eq_true hin, decide_eq_false hleast]
      rfl
  · obtain ⟨a, tail, rfl⟩ := List.exists_cons_of_length_pos (show 0 < buffer.length by omega)
    rw [List.length_cons] at hroom
    obtain ⟨b, tail, rfl⟩ := List.exists_cons_of_length_pos (show 0 < tail.length by omega)
    have hfirst : setByte (a :: b :: tail) 0 (byte '0') = .ok (byte '0' :: b :: tail) :=
      setByte_append [] (b :: tail) a (byte '0')
    have hsecond : setByte (byte '0' :: b :: tail) 1 0 = .ok (byte '0' :: 0 :: tail) :=
      setByte_append [byte '0'] tail b 0
    unfold itoa
    rw [show decide ((0 : ℤ) < 0) = false from rfl]
    simp only [Bool.false_eq_true, if_false, if_true]
    rw [hfirst, ok_bind, hsecond]
    rfl
  · obtain ⟨n, rfl⟩ := Int.eq_ofNat_of_zero_le hpos.le
    rw [if_neg (by omega), signedNumeral, if_neg (by omega), Int.natAbs_natCast, numeral,
      if_neg (by omega), List.length_reverse]
    rw [Int.natAbs_natCast] at hlength
    rw [decide_eq_false (by omega)]
    exact itoa_pos (by omega) (by omega)

/-- The text of an `int` has at most eleven characters. -/
theorem itoaText_length_le (h : InInt x) : (itoaText x).length ≤ 11 := by
  have hnumeral : (numeral x.natAbs).length ≤ 10 := by
    obtain ⟨hlo, hhi⟩ := h
    exact numeral_length_le (by decide) (by norm_num; omega)
  unfold itoaText signedNumeral
  split
  · decide
  · split
    · exact Nat.succ_le_succ hnumeral
    · exact hnumeral.trans (by decide)

/-- The text of an `int` has no NUL. -/
theorem zero_not_mem_itoaText (x : ℤ) : 0 ∉ itoaText x := by
  unfold itoaText signedNumeral
  split
  · decide
  · split
    · intro hm
      rcases List.mem_cons.mp hm with hm | hm
      · exact absurd hm (by decide)
      · exact zero_not_mem_numeral _ hm
    · exact zero_not_mem_numeral _

end Int

/-! ### `atoi` -/

/-- The blanks that `atoi` skips: newline, tabs, space, form feed and carriage return. -/
def isSpace (c : Byte) : Bool :=
  c = byte '\n' ∨ c = byte '\t' ∨ c = 0x0B ∨ c = byte ' ' ∨ c = 0x0C ∨ c = byte '\r'

/-- The loop over the digits, with the number so far and whether an operation overflowed; a NUL is
no digit. -/
def atoiDigits : List Byte → ℤ → Bool → Except Fault (ℤ × Bool)
  | [], _, _ => throw .outOfBounds
  | c :: str, nbr, overflow =>
      if IsDigit c then
        let product := nbr * 10
        let sum := wrapInt product + digitValue c
        atoiDigits str (wrapInt sum) (overflow || !decide (InInt product) || !decide (InInt sum))
      else pure (nbr, overflow)

/-- `atoi`: the number, and whether an operation on the way overflowed, after which C promises
nothing. -/
def atoi (str : List Byte) : Except Fault (ℤ × Bool) := do
  let i ← scan isSpace str
  let c ← getByte str i
  let str := str.drop (if c = byte '+' ∨ c = byte '-' then i + 1 else i)
  let (nbr, overflow) ← atoiDigits str 0 false
  if c = byte '-' then pure (wrapInt (-nbr), overflow || !decide (InInt (-nbr)))
  else pure (nbr, overflow)

/-! ### The number that is written -/

/-- The digits that a text begins with. -/
def leadingDigits (text : List Byte) : List Byte := text.takeWhile (IsDigit ·)

/-- The number that a text begins with, after blanks and perhaps a sign; `0` if it has no digits. -/
def written (text : List Byte) : ℤ :=
  match text.dropWhile isSpace with
  | [] => 0
  | c :: rest =>
      if c = byte '-' then -decimal (leadingDigits rest)
      else if c = byte '+' then decimal (leadingDigits rest)
      else decimal (leadingDigits (c :: rest))

section Atoi

variable {str text buffer : List Byte} {x : ℤ} {n : ℕ}

/-- One digit more, in wrapping arithmetic. -/
theorem wrapInt_digit (x : ℤ) (d : ℕ) :
    wrapInt (wrapInt (wrapInt x * 10) + d) = wrapInt (x * 10 + d) := by
  unfold wrapInt
  rw [Int.bmod_add_bmod, Int.bmod_add_cancel_right, Int.bmod_mul_bmod]

/-- A number may be wrapped before it is negated. -/
theorem wrapInt_neg (x : ℤ) : wrapInt (-wrapInt x) = wrapInt (-x) := by
  unfold wrapInt
  rw [← neg_one_mul, Int.mul_bmod_bmod, neg_one_mul]

/-- An operation overflows on the way to a digit more exactly when the number gets too large. -/
theorem overflow_digit {d : ℕ} (n : ℕ) :
    (decide (2 ^ 31 ≤ n) || !decide (InInt (wrapInt n * 10)) ||
      !decide (InInt (wrapInt (wrapInt n * 10) + d))) = decide (2 ^ 31 ≤ n * 10 + d) := by
  by_cases hn : 2 ^ 31 ≤ n
  · rw [decide_eq_true hn, decide_eq_true (show 2 ^ 31 ≤ n * 10 + d by omega)]
    rfl
  have hwrap : wrapInt n = n := wrapInt_of_inInt ⟨by omega, by omega⟩
  rw [decide_eq_false hn, Bool.false_or, hwrap]
  by_cases hproduct : InInt ((n : ℤ) * 10)
  · have hlt := hproduct.2
    rw [wrapInt_of_inInt hproduct, decide_eq_true hproduct, Bool.not_true, Bool.false_or,
      ← decide_not, decide_eq_decide]
    unfold InInt
    omega
  · have hle : 2 ^ 31 ≤ n * 10 + d := by
      unfold InInt at hproduct
      omega
    rw [decide_eq_false hproduct, decide_eq_true hle]
    rfl

/-- The loop over digits, once `done` was read: by induction on what follows. -/
theorem atoiDigits_eq {digits rest : List Byte} {c : Byte} (hdigits : ∀ d ∈ digits, IsDigit d)
    (hc : ¬ IsDigit c) (done : List Byte) :
    atoiDigits (digits ++ c :: rest) (wrapInt (decimal done)) (decide (2 ^ 31 ≤ decimal done)) =
      .ok (wrapInt (decimal (done ++ digits)), decide (2 ^ 31 ≤ decimal (done ++ digits))) := by
  induction digits generalizing done with
  | nil =>
    rw [List.nil_append, atoiDigits, if_neg hc, List.append_nil]
    rfl
  | cons d digits ih =>
    rw [List.cons_append, atoiDigits, if_pos (hdigits d List.mem_cons_self)]
    dsimp only
    rw [wrapInt_digit, overflow_digit]
    have ih := ih (fun b hb => hdigits b (List.mem_cons_of_mem d hb)) (done ++ [d])
    rw [decimal_concat, List.append_assoc, List.singleton_append] at ih
    exact_mod_cast ih

/-- What a scan over a string stops at. -/
theorem exists_after_takeWhile {p : Byte → Bool} (h0 : p 0 = false) (text rest : List Byte) :
    ∃ b tail, text ++ 0 :: rest = text.takeWhile p ++ b :: tail ∧ p b = false ∧
      b :: tail = text.dropWhile p ++ 0 :: rest := by
  have hsplit : text ++ 0 :: rest = text.takeWhile p ++ (text.dropWhile p ++ 0 :: rest) := by
    rw [← List.append_assoc, List.takeWhile_append_dropWhile]
  cases hdrop : text.dropWhile p with
  | nil => exact ⟨0, rest, by rw [hsplit, hdrop, List.nil_append], h0, rfl⟩
  | cons b tail =>
    refine ⟨b, tail ++ 0 :: rest, by rw [hsplit, hdrop, List.cons_append], ?_, rfl⟩
    have hne : text.dropWhile p ≠ [] := by rw [hdrop]; exact List.cons_ne_nil _ _
    have hhead := List.head_dropWhile_not p hne
    simpa [hdrop] using hhead

/-- The digits that a string begins with. -/
theorem atoiDigits_string (text rest : List Byte) :
    atoiDigits (text ++ 0 :: rest) 0 false = .ok (wrapInt (decimal (leadingDigits text)),
      decide (2 ^ 31 ≤ decimal (leadingDigits text))) := by
  obtain ⟨b, tail, hsplit, hb, -⟩ :=
    exists_after_takeWhile (p := (IsDigit ·)) (by decide) text rest
  have hdigits : ∀ d ∈ leadingDigits text, IsDigit d :=
    fun d hd => of_decide_eq_true (List.mem_takeWhile_imp (p := (IsDigit ·)) hd)
  rw [hsplit]
  exact atoiDigits_eq hdigits (of_decide_eq_false hb) []

/-- The number from a text whose blanks end at `b`. -/
theorem written_of_dropWhile {b : Byte} {rest : List Byte}
    (h : text.dropWhile isSpace = b :: rest) :
    written text = if b = byte '-' then -(decimal (leadingDigits rest) : ℤ)
      else if b = byte '+' then (decimal (leadingDigits rest) : ℤ)
      else (decimal (leadingDigits (b :: rest)) : ℤ) := by
  unfold written
  rw [h]

/-- Blanks alone are read as 0. -/
theorem written_of_blank (h : text.dropWhile isSpace = []) : written text = 0 := by
  unfold written
  rw [h]

/-- The sign of a number that overflowed is not looked at any more. -/
theorem overflow_neg (n : ℕ) :
    (decide (2 ^ 31 ≤ n) || !decide (InInt (-wrapInt n))) = decide (2 ^ 31 ≤ n) := by
  by_cases hn : 2 ^ 31 ≤ n
  · rw [decide_eq_true hn, Bool.true_or]
  · have hwrap : wrapInt n = n := wrapInt_of_inInt ⟨by omega, by omega⟩
    rw [decide_eq_false hn, Bool.false_or, hwrap, decide_eq_true ⟨by omega, by omega⟩]
    rfl

/-- `atoi` reads the number that is written, as far as it fits. -/
theorem atoi_eq (h : IsString str text) :
    atoi str = .ok (wrapInt (written text), decide (2 ^ 31 ≤ (written text).natAbs)) := by
  obtain ⟨-, rest, rfl⟩ := h
  obtain ⟨b, tail, hsplit, hb, htail⟩ :=
    exists_after_takeWhile (p := isSpace) (by decide) text rest
  have hspaces : ∀ c ∈ text.takeWhile isSpace, isSpace c := fun c hc => List.mem_takeWhile_imp hc
  unfold atoi
  rw [hsplit, scan_append hspaces hb, ok_bind, getByte_append, ok_bind]
  dsimp only
  cases hdrop : text.dropWhile isSpace with
  | nil =>
    rw [hdrop, List.nil_append] at htail
    obtain ⟨rfl, rfl⟩ := List.cons.inj htail
    have hdigits := atoiDigits_string [] tail
    rw [List.nil_append] at hdigits
    rw [written_of_blank hdrop, if_neg (by decide), List.drop_left, hdigits, ok_bind,
      if_neg (by decide)]
    rfl
  | cons c text' =>
    rw [hdrop, List.cons_append] at htail
    obtain ⟨rfl, rfl⟩ := List.cons.inj htail
    rw [written_of_dropWhile hdrop]
    by_cases hminus : b = byte '-'
    · rw [if_pos (Or.inr hminus), ← List.drop_drop, List.drop_left, List.drop_one, List.tail_cons,
        atoiDigits_string, ok_bind, if_pos hminus, if_pos hminus]
      simp only [wrapInt_neg, overflow_neg, Int.natAbs_neg, Int.natAbs_natCast]
      rfl
    by_cases hplus : b = byte '+'
    · rw [if_pos (Or.inl hplus), ← List.drop_drop, List.drop_left, List.drop_one, List.tail_cons,
        atoiDigits_string, ok_bind, if_neg hminus, if_neg hminus, if_pos hplus]
      simp only [Int.natAbs_natCast]
      rfl
    · rw [if_neg (not_or.mpr ⟨hplus, hminus⟩), List.drop_left, ← List.cons_append,
        atoiDigits_string, ok_bind, if_neg hminus, if_neg hminus, if_neg hplus]
      simp only [Int.natAbs_natCast]
      rfl

/-! ### There and back -/

/-- A numeral is all digits. -/
theorem leadingDigits_numeral (n : ℕ) : leadingDigits (numeral n) = numeral n :=
  List.takeWhile_eq_self_iff.mpr fun c hc => decide_eq_true (numeral_digits n c hc)

/-- No blank is a digit or a minus sign. -/
theorem isSpace_of_isDigit {c : Byte} (h : IsDigit c) : isSpace c = false := by
  unfold isSpace
  refine decide_eq_false ?_
  rintro (rfl | rfl | rfl | rfl | rfl | rfl) <;> exact absurd h (by decide)

/-- Digits alone are read as their value. -/
theorem written_digits (hdigits : ∀ c ∈ text, IsDigit c) (hne : text ≠ []) :
    written text = decimal text := by
  obtain ⟨c, rest, rfl⟩ := List.exists_cons_of_ne_nil hne
  have hc : IsDigit c := hdigits c List.mem_cons_self
  have hdrop : (c :: rest).dropWhile isSpace = c :: rest :=
    List.dropWhile_cons_of_neg (by simp [isSpace_of_isDigit hc])
  have hleading : leadingDigits (c :: rest) = c :: rest :=
    List.takeWhile_eq_self_iff.mpr fun d hd => decide_eq_true (hdigits d hd)
  have hminus : c ≠ byte '-' := by
    rintro rfl
    exact absurd hc (by decide)
  have hplus : c ≠ byte '+' := by
    rintro rfl
    exact absurd hc (by decide)
  rw [written_of_dropWhile hdrop, if_neg hminus, if_neg hplus, hleading]

/-- A numeral is read as its number. -/
theorem written_numeral (n : ℕ) : written (numeral n) = n := by
  rw [written_digits (numeral_digits n) (numeral_ne_nil n), decimal_numeral]

/-- A signed numeral is read as its number. -/
theorem written_signedNumeral (x : ℤ) : written (signedNumeral x) = x := by
  unfold signedNumeral
  split
  · next hneg =>
    have hdrop : (byte '-' :: numeral x.natAbs).dropWhile isSpace = byte '-' :: numeral x.natAbs :=
      List.dropWhile_cons_of_neg (by decide)
    rw [written_of_dropWhile hdrop, if_pos rfl, leadingDigits_numeral, decimal_numeral]
    omega
  · next hpos =>
    rw [written_numeral]
    omega

/-- A number below `2 ^ 31` without superfluous zeros is read and written back as it was. -/
theorem itoa_atoi (h : IsString str text) (hdigits : ∀ c ∈ text, IsDigit c) (hne : text ≠ [])
    (hlead : text.head? = some (byte '0') → text = [byte '0']) (hsmall : decimal text < 2 ^ 31)
    (hroom : 12 ≤ buffer.length) : ∃ n, atoi str = .ok (n, false) ∧
      itoa n buffer = .ok (text ++ 0 :: buffer.drop (text.length + 1), false) := by
  have hwritten := written_digits hdigits hne
  have hrange : InInt (decimal text) := ⟨by omega, by omega⟩
  have htext : itoaText (decimal text) = text := by
    unfold itoaText signedNumeral
    rw [if_neg (by omega), if_neg (by omega), Int.natAbs_natCast, numeral_decimal hdigits hne hlead]
  refine ⟨decimal text, ?_, ?_⟩
  · rw [atoi_eq h, hwritten, wrapInt_of_inInt hrange, decide_eq_false (by omega)]
  · rw [itoa_eq hrange hroom, htext, decide_eq_false (by omega)]

/-- `itoa` writes the numeral of `n`, of at most 12 bytes with its NUL, and `atoi` reads `n` back
from what it wrote, neither overflowing on the way.  The negation is the one operation of `itoa`
that can overflow: the others divide, or count bytes. -/
structure IntRoundTrip (n : ℤ) (buffer : List Byte) : Prop where
  written : itoa n buffer =
    .ok (signedNumeral n ++ 0 :: buffer.drop ((signedNumeral n).length + 1), false)
  bytes : (signedNumeral n).length + 1 ≤ 12
  negation : n < 0 → InInt (-n)
  read : ∀ buffer' overflow, itoa n buffer = .ok (buffer', overflow) → atoi buffer' = .ok (n, false)

/-- Every `int` but the least one is written and read back. -/
theorem itoa_round_trip_iff (n : BitVec 32) (buffer : List Byte) (hroom : 12 ≤ buffer.length) :
    IntRoundTrip n.toInt buffer ↔ n ≠ BitVec.intMin 32 := by
  have hrange := toInt_inInt n
  have hleast : n = BitVec.intMin 32 ↔ n.toInt = -2 ^ 31 := by
    rw [← BitVec.toInt_inj]
    rfl
  constructor
  · rintro h rfl
    exact absurd (h.negation (by decide)) (by decide)
  · intro hne
    have hne : n.toInt ≠ -2 ^ 31 := fun h => hne (hleast.mpr h)
    have htext : itoaText n.toInt = signedNumeral n.toInt := if_neg hne
    have hitoa := itoa_eq hrange hroom
    have hlength := itoaText_length_le hrange
    have hzero := zero_not_mem_itoaText n.toInt
    rw [htext, decide_eq_false hne] at hitoa
    rw [htext] at hlength hzero
    obtain ⟨hlo, hhi⟩ := hrange
    refine ⟨hitoa, Nat.succ_le_succ hlength, fun _ => ⟨by omega, by omega⟩, ?_⟩
    intro buffer' overflow hbuffer'
    obtain ⟨rfl, -⟩ := Prod.mk.inj (Except.ok.inj (hitoa.symm.trans hbuffer'))
    rw [atoi_eq ⟨hzero, _, rfl⟩, written_signedNumeral, wrapInt_of_inInt ⟨hlo, hhi⟩]
    rw [decide_eq_false (by omega)]

/-- The number -1000 comes back from its text. -/
theorem itoa_round_trip_thousand : IntRoundTrip (-1000) (List.replicate 12 0) :=
  (itoa_round_trip_iff (-1000) (List.replicate 12 0) (by decide)).mpr (by decide)

/-- The least `int` is its own negation, which is not above 0: only its sign is written. -/
theorem itoa_round_trip_least :
    ¬ ∀ (n : BitVec 32) (buffer : List Byte), 12 ≤ buffer.length → IntRoundTrip n.toInt buffer := by
  intro h
  have hleast := h (BitVec.intMin 32) (List.replicate 12 0) (by decide)
  exact absurd (hleast.negation (by decide)) (by decide)

end Atoi

end AuriOS
