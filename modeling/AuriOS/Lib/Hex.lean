import AuriOS.Kernel.Ansi

/-!
# Addresses in hexadecimal

Two routines print a value in hexadecimal, `terminal_print_hex` of `terminal.c` and `print_hex` of
`pmm.zig`, both from the last digit on; `htoi` of `integer.c` reads such a number.

* `hexText`: `0x` and eight digits;
* `terminalPrintHex_sends`, `printHex_eq`: both routines print it;
* `htoi_hexText`: between blanks and anything that is no digit, `htoi` reads the value back.
-/

namespace AuriOS

open Program

/-! ### The text of a value -/

/-- A digit below 16. -/
def hexChar (digit : ℕ) : Byte :=
  if digit < 10 then BitVec.ofNat 8 (digit + (byte '0').toNat)
  else BitVec.ofNat 8 (digit - 10 + (byte 'A').toNat)

/-- The last `n` digits of a number. -/
def hexDigits : ℕ → ℕ → List Byte
  | 0, _ => []
  | n + 1, val => hexDigits n (val / 16) ++ [hexChar (val % 16)]

/-- The text of a word. -/
def hexText (val : BitVec 32) : List Byte := chars "0x" ++ hexDigits 8 val.toNat

/-- There are as many digits as asked for. -/
theorem hexDigits_length (n val : ℕ) : (hexDigits n val).length = n := by
  induction n generalizing val with
  | zero => rfl
  | succ n ih => rw [hexDigits, List.length_append, ih, List.length_singleton]

/-- A word has eight digits behind `0x`. -/
theorem hexText_length (val : BitVec 32) : (hexText val).length = 10 := by
  rw [hexText, List.length_append, hexDigits_length]
  rfl

/-! ### The encoders -/

/-- The character that the C code makes of a nibble. -/
def nibbleChar (nibble : Byte) : Byte :=
  if nibble < 10 then byte '0' + nibble else byte 'A' + (nibble - 10)

/-- The loop of `terminal_print_hex` at index `i`. -/
def terminalPrintHexFrom : ℕ → BitVec 32 → List Byte → Except Fault (List Byte)
  | i + 2, val, buf => do
      let nibble : Byte := (val &&& 0xF).setWidth 8
      let buf ← setByte buf (i + 2 : ℕ) (nibbleChar nibble)
      terminalPrintHexFrom (i + 1) (val >>> 4) buf
  | _, _, buf => pure buf

/-- `terminal_print_hex`; `buf` is what its 11 bytes happen to hold. -/
def terminalPrintHex (val : BitVec 32) (buf : List Byte) (k : Console) : Except Fault Console := do
  let buf ← setByte buf 0 (byte '0')
  let buf ← setByte buf 1 (byte 'x')
  let buf ← terminalPrintHexFrom 9 val buf
  let buf ← setByte buf 10 0
  terminalWritestring k buf

/-- The character that the Zig code makes of a nibble, in checked arithmetic. -/
def printHexChar (nibble : Byte) : Except Fault Byte := do
  if nibble < 10 then
    let c ← checkedAdd 8 (byte '0').toNat nibble.toNat
    pure (BitVec.ofNat 8 c)
  else
    let d ← checkedSub nibble.toNat 10
    let c ← checkedAdd 8 (byte 'A').toNat d
    pure (BitVec.ofNat 8 c)

/-- The loop of `print_hex`, from index `i` down. -/
def printHexFrom : ℕ → BitVec 32 → List Byte → Except Fault (List Byte)
  | 0, _, buf => pure buf
  | i + 1, temp, buf => do
      let nibble : Byte := (temp &&& 0xF).setWidth 8
      let c ← printHexChar nibble
      let buf ← setByte buf i c
      printHexFrom i (temp >>> 4) buf

/-- `print_hex`: what was sent on the serial line, which passes bytes on as they are; `buf` is what
its 8 bytes happen to hold. -/
def printHex (val : BitVec 32) (buf line : List Byte) : Except Fault (List Byte) := do
  let line := line ++ chars "0x"
  let buf ← printHexFrom 8 val buf
  pure (line ++ buf)

section Encoders

variable {pre old post : List Byte} {n : ℕ}

/-- The low four bits are the remainder by sixteen. -/
theorem nibble_eq (val : BitVec 32) :
    (val &&& 0xF).setWidth 8 = BitVec.ofNat 8 (val.toNat % 16) := by
  refine BitVec.eq_of_toNat_eq ?_
  rw [BitVec.toNat_setWidth, BitVec.toNat_and, BitVec.toNat_ofNat]
  exact congrArg (· % 2 ^ 8) (Nat.and_two_pow_sub_one_eq_mod val.toNat 4)

/-- A shift by four bits is the quotient by sixteen. -/
theorem shift_toNat (val : BitVec 32) : (val >>> 4).toNat = val.toNat / 16 := by
  rw [BitVec.toNat_ushiftRight, Nat.shiftRight_eq_div_pow]

/-- Both languages turn a nibble into the same character. -/
theorem nibbleChar_eq : ∀ m < 16, nibbleChar (BitVec.ofNat 8 m) = hexChar m := by decide

/-- Each of the sixteen values has its digit. -/
theorem printHexChar_eq : ∀ m < 16, printHexChar (BitVec.ofNat 8 m) = .ok (hexChar m) := by decide

/-- An array that is not empty, from its end. -/
theorem exists_concat_of_length (hold : old.length = n + 1) :
    ∃ init o, old = init ++ [o] ∧ init.length = n := by
  rcases List.eq_nil_or_concat' old with rfl | ⟨init, o, rfl⟩
  · cases hold
  · rw [List.length_append, List.length_singleton] at hold
    exact ⟨init, o, rfl, Nat.succ.inj hold⟩

/-- A loop that writes the digits from the last one on, behind `pre`. -/
theorem hexLoop_eq {loop : ℕ → BitVec 32 → List Byte → Except Fault (List Byte)}
    (hzero : ∀ val buf, loop 0 val buf = .ok buf)
    (hsucc : ∀ n val buf, loop (n + 1) val buf =
      setByte buf (pre.length + n : ℕ) (hexChar (val.toNat % 16)) >>= loop n (val >>> 4))
    (hold : old.length = n) (val : BitVec 32) :
    loop n val (pre ++ (old ++ post)) = .ok (pre ++ (hexDigits n val.toNat ++ post)) := by
  induction n generalizing old post val with
  | zero =>
    obtain rfl := List.length_eq_zero_iff.mp hold
    exact hzero val _
  | succ n ih =>
    obtain ⟨init, o, rfl, hinit⟩ := exists_concat_of_length hold
    have hset := setByte_append (pre ++ init) post o (hexChar (val.toNat % 16))
    rw [List.length_append, hinit, List.append_assoc, List.append_assoc] at hset
    rw [hsucc, List.append_assoc, List.singleton_append, hset, ok_bind, ih hinit (val >>> 4),
      shift_toNat, hexDigits, List.append_assoc, List.singleton_append]

/-- The loop fills the buffer with the digits behind `0x`. -/
theorem terminalPrintHexFrom_eq (hpre : pre.length = 2) (hold : old.length = n) (val : BitVec 32) :
    terminalPrintHexFrom (n + 1) val (pre ++ (old ++ post)) =
      .ok (pre ++ (hexDigits n val.toNat ++ post)) := by
  refine @hexLoop_eq pre old post n (fun n => terminalPrintHexFrom (n + 1)) (fun val buf => rfl)
    (fun n val buf => ?_) hold val
  rw [terminalPrintHexFrom, nibble_eq, nibbleChar_eq _ (Nat.mod_lt _ (by decide)), hpre,
    Nat.add_comm 2 n]

/-- The loop fills the buffer with the digits. -/
theorem printHexFrom_eq (hold : old.length = n) (val : BitVec 32) :
    printHexFrom n val (old ++ post) = .ok (hexDigits n val.toNat ++ post) := by
  refine @hexLoop_eq [] old post n printHexFrom (fun val buf => rfl) (fun n val buf => ?_) hold val
  rw [printHexFrom, nibble_eq, printHexChar_eq _ (Nat.mod_lt _ (by decide)), ok_bind,
    List.length_nil, Nat.zero_add]

/-- No digit is a NUL. -/
theorem hexChar_ne_zero : ∀ m < 16, hexChar m ≠ 0 := by decide

/-- There is no NUL among the digits. -/
theorem zero_not_mem_hexDigits (n val : ℕ) : 0 ∉ hexDigits n val := by
  induction n generalizing val with
  | zero => exact List.not_mem_nil
  | succ n ih =>
    rw [hexDigits, List.mem_append, not_or]
    refine ⟨ih _, fun hm => ?_⟩
    exact hexChar_ne_zero (val % 16) (Nat.mod_lt _ (by decide)) (List.mem_singleton.mp hm).symm

/-- The terminal is sent the text of the word. -/
theorem terminalPrintHex_sends (val : BitVec 32) {buf : List Byte} (hbuf : buf.length = 11) :
    Sends (terminalPrintHex val buf) (hexText val) := by
  intro k
  obtain ⟨init, last, rfl, hinit⟩ := exists_concat_of_length hbuf
  obtain ⟨a, init, rfl⟩ := List.exists_cons_of_length_eq_add_one hinit
  obtain ⟨b, old, rfl⟩ := List.exists_cons_of_length_eq_add_one (Nat.succ.inj hinit)
  have hold : old.length = 8 := Nat.succ.inj (Nat.succ.inj hinit)
  have hfirst : setByte (a :: b :: old ++ [last]) 0 (byte '0') =
      .ok (byte '0' :: b :: (old ++ [last])) :=
    setByte_append [] (b :: (old ++ [last])) a (byte '0')
  have hsecond : setByte (byte '0' :: b :: (old ++ [last])) 1 (byte 'x') =
      .ok (byte '0' :: byte 'x' :: (old ++ [last])) :=
    setByte_append [byte '0'] (old ++ [last]) b (byte 'x')
  have hloop : terminalPrintHexFrom 9 val (byte '0' :: byte 'x' :: (old ++ [last])) =
      .ok (hexText val ++ [last]) := by
    have hrun := @terminalPrintHexFrom_eq (chars "0x") old [last] 8 rfl hold val
    rw [← List.append_assoc] at hrun
    exact hrun
  have hend : setByte (hexText val ++ [last]) 10 0 = .ok (hexText val ++ [0]) := by
    have hset := setByte_append (hexText val) [] last 0
    rw [hexText_length] at hset
    exact hset
  have hzero : 0 ∉ hexText val := by
    rw [hexText, List.mem_append, not_or]
    exact ⟨by decide, zero_not_mem_hexDigits _ _⟩
  unfold terminalPrintHex
  rw [hfirst, ok_bind, hsecond, ok_bind, hloop, ok_bind, hend, ok_bind]
  exact terminalWritestring_eq ⟨hzero, [], rfl⟩ k

/-- The serial line is sent the text of the word. -/
theorem printHex_eq (val : BitVec 32) {buf : List Byte} (line : List Byte) (hbuf : buf.length = 8) :
    printHex val buf line = .ok (line ++ hexText val) := by
  have hloop := @printHexFrom_eq buf [] 8 hbuf val
  rw [List.append_nil, List.append_nil] at hloop
  unfold printHex
  dsimp only
  rw [hloop, ok_bind, hexText, List.append_assoc]
  rfl

end Encoders

/-! ### The decoder -/

/-- The value of a digit. -/
def htoiValue (c : Byte) : Option (BitVec 32) :=
  if byte '0' ≤ c ∧ c ≤ byte '9' then some ((c - byte '0').setWidth 32)
  else if byte 'a' ≤ c ∧ c ≤ byte 'f' then some ((c - byte 'a').setWidth 32 + 10)
  else if byte 'A' ≤ c ∧ c ≤ byte 'F' then some ((c - byte 'A').setWidth 32 + 10)
  else none

/-- The loop of `htoi` over the digits. -/
def htoiFrom : List Byte → BitVec 32 → Except Fault (BitVec 32)
  | [], _ => throw .outOfBounds
  | c :: hexStr, result =>
      if c ≠ 0 then
        match htoiValue c with
        | some value => htoiFrom hexStr ((result <<< 4) ||| value)
        | none => pure result
      else pure result

/-- `htoi`. -/
def htoi (hexStr : List Byte) : Except Fault (BitVec 32) := do
  let blanks ← scan (· = byte ' ') hexStr
  let hexStr := hexStr.drop blanks
  let zero ← getByte hexStr 0
  if zero = byte '0' then do
    let x ← getByte hexStr 1
    htoiFrom (if x = byte 'x' ∨ x = byte 'X' then hexStr.drop 2 else hexStr) 0
  else htoiFrom hexStr 0

/-- The characters that `htoi` reads. -/
def IsHexDigit (c : Byte) : Prop :=
  (byte '0' ≤ c ∧ c ≤ byte '9') ∨ (byte 'a' ≤ c ∧ c ≤ byte 'f') ∨ (byte 'A' ≤ c ∧ c ≤ byte 'F')

instance (c : Byte) : Decidable (IsHexDigit c) := inferInstanceAs (Decidable (_ ∨ _))

section Decoder

variable {c : Byte}

/-- Each digit is read as its value. -/
theorem htoiValue_hexChar : ∀ m < 16, htoiValue (hexChar m) = some (BitVec.ofNat 32 m) := by decide

/-- What is no digit has no value. -/
theorem htoiValue_of_not (h : ¬ IsHexDigit c) : htoiValue c = none := by
  unfold IsHexDigit at h
  rw [not_or, not_or] at h
  unfold htoiValue
  rw [if_neg h.1, if_neg h.2.1, if_neg h.2.2]

/-- A digit is put below the digits before it. -/
theorem shift_or_digit (r : ℕ) {m : ℕ} (hm : m < 16) :
    (BitVec.ofNat 32 r <<< 4) ||| BitVec.ofNat 32 m = BitVec.ofNat 32 (r * 16 + m) := by
  have hlow : (BitVec.ofNat 32 r <<< 4) &&& BitVec.ofNat 32 m = 0#32 := by
    refine BitVec.eq_of_getLsbD_eq fun i hi => ?_
    rw [BitVec.getLsbD_and, BitVec.getLsbD_shiftLeft, BitVec.getLsbD_ofNat, BitVec.getLsbD_ofNat,
      BitVec.getLsbD_zero]
    by_cases hsmall : i < 4
    · simp [hsmall]
    · have hpow : 2 ^ 4 ≤ 2 ^ i := Nat.pow_le_pow_right (by decide) (Nat.le_of_not_lt hsmall)
      have hbit : m.testBit i = false :=
        Nat.testBit_lt_two_pow (hm.trans_le hpow)
      rw [hbit]
      simp
  rw [← BitVec.add_eq_or_of_and_eq_zero _ _ hlow]
  refine BitVec.eq_of_toNat_eq ?_
  rw [BitVec.toNat_add, BitVec.toNat_shiftLeft, Nat.shiftLeft_eq, BitVec.toNat_ofNat,
    BitVec.toNat_ofNat, BitVec.toNat_ofNat]
  omega

/-- Reading digits appends them to the number read so far. -/
theorem htoiFrom_hexDigits (n val r : ℕ) (rest : List Byte) :
    htoiFrom (hexDigits n val ++ rest) (BitVec.ofNat 32 r) =
      htoiFrom rest (BitVec.ofNat 32 (r * 16 ^ n + val % 16 ^ n)) := by
  induction n generalizing val rest with
  | zero => rw [hexDigits, List.nil_append, pow_zero, Nat.mul_one, Nat.mod_one, Nat.add_zero]
  | succ n ih =>
    have hm : val % 16 < 16 := Nat.mod_lt _ (by decide)
    rw [hexDigits, List.append_assoc, ih, List.singleton_append, htoiFrom,
      if_pos (hexChar_ne_zero _ hm), htoiValue_hexChar _ hm]
    dsimp only
    rw [shift_or_digit _ hm, pow_succ', Nat.mod_mul,
      show (r * 16 ^ n + val / 16 % 16 ^ n) * 16 + val % 16 =
        r * (16 * 16 ^ n) + (val % 16 + 16 * (val / 16 % 16 ^ n)) by ring]

/-- `htoi` reads the text of a value, whatever stands around it. -/
theorem htoi_hexText (val : BitVec 32) (blanks : ℕ) (rest : List Byte) (hc : ¬ IsHexDigit c) :
    htoi (List.replicate blanks (byte ' ') ++ (hexText val ++ c :: rest)) = .ok val := by
  have hscan :
      scan (· = byte ' ') (List.replicate blanks (byte ' ') ++ (hexText val ++ c :: rest)) =
      .ok (List.replicate blanks (byte ' ')).length :=
    scan_append (fun a ha => decide_eq_true (List.eq_of_mem_replicate ha)) (by decide) _
  have hdigits := htoiFrom_hexDigits 8 val.toNat 0 (c :: rest)
  unfold htoi
  rw [hscan, ok_bind]
  dsimp only
  rw [List.drop_left]
  have hfirst : getByte (hexText val ++ c :: rest) 0 = .ok (byte '0') :=
    getByte_append [] (byte 'x' :: (hexDigits 8 val.toNat ++ c :: rest)) (byte '0')
  have hsecond : getByte (hexText val ++ c :: rest) 1 = .ok (byte 'x') :=
    getByte_append [byte '0'] (hexDigits 8 val.toNat ++ c :: rest) (byte 'x')
  have hmark : (hexText val ++ c :: rest).drop 2 = hexDigits 8 val.toNat ++ c :: rest := rfl
  have hend : ∀ result, htoiFrom (c :: rest) result = .ok result := by
    intro result
    rw [htoiFrom, htoiValue_of_not hc]
    exact ite_self _
  rw [hfirst, ok_bind, if_pos rfl, hsecond, ok_bind, if_pos (Or.inl rfl), hmark]
  refine hdigits.trans ((hend _).trans ?_)
  rw [Nat.zero_mul, Nat.zero_add, Nat.mod_eq_of_lt (show val.toNat < 16 ^ 8 from val.isLt),
    BitVec.ofNat_toNat, BitVec.setWidth_eq]

/-- What either routine prints can be typed back. -/
theorem hex_round_trip (val : BitVec 32) :
    (hexText val).length = 10 ∧
      (∀ buf, buf.length = 11 → Sends (terminalPrintHex val buf) (hexText val)) ∧
      (∀ buf line, buf.length = 8 → printHex val buf line = .ok (line ++ hexText val)) ∧
      ∀ blanks c rest, ¬ IsHexDigit c →
        htoi (List.replicate blanks (byte ' ') ++ (hexText val ++ c :: rest)) = .ok val :=
  ⟨hexText_length val, fun _ hbuf => terminalPrintHex_sends val hbuf,
    fun _ line hbuf => printHex_eq val line hbuf,
    fun blanks _ rest hc => htoi_hexText val blanks rest hc⟩

/-- The word `0xDEADBEEF` comes back from its text behind a blank. -/
theorem hex_round_trip_deadbeef :
    htoi (List.replicate 1 (byte ' ') ++ (hexText 0xDEADBEEF ++ 0 :: [])) = .ok 0xDEADBEEF :=
  (hex_round_trip 0xDEADBEEF).2.2.2 1 0 [] (by decide)

end Decoder

end AuriOS
