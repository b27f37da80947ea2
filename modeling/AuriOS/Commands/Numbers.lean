import AuriOS.Kernel.Ansi
import AuriOS.Lib.Numerals

/-!
# Numbers in commands

`print_unit` of `shell.c`, through which `uptime` and `memtest` print their numbers, and the
argument of `memdump`.  Both go through an `int`.

* `printUnit_iff`: the number that is printed is the value that was passed exactly if this is below
  `2 ^ 31`;
* `memdump_iff`: `memdump` obeys the number that is written unless this number is out of range and
  its reduction to an `int` is not.
-/

namespace AuriOS

open Program

/-! ### `print_unit` -/

/-- `print_unit`; `outBuf` is what the 32 bytes of its buffer happen to hold. -/
def printUnit (val : BitVec 32) (unit : List Byte) (newLine : ℤ) (outBuf : List Byte)
    (k : Console) : Except Fault Console := do
  let (outBuf, _) ← itoa val.toInt outBuf
  let k ← terminalWritestring k outBuf
  let k ← terminalWritestring k unit
  if newLine = 1 then terminalWritestring k (literal "\n") else pure k

/-- A number, its unit and perhaps a newline. -/
def withUnit (number unit : List Byte) (newLine : ℤ) : List Byte :=
  number ++ (unit ++ if newLine = 1 then chars "\n" else [])

section PrintUnit

variable {unit u outBuf : List Byte} {newLine : ℤ} {val : BitVec 32}

/-- A number is printed with its unit when the buffer has room for its digits. -/
theorem printUnit_sends (val : BitVec 32) (newLine : ℤ) (hunit : IsString unit u)
    (hroom : 12 ≤ outBuf.length) :
    Sends (printUnit val unit newLine outBuf) (withUnit (itoaText val.toInt) u newLine) := by
  have hnumber : IsString (itoaText val.toInt ++ 0 :: outBuf.drop ((itoaText val.toInt).length + 1))
      (itoaText val.toInt) := ⟨zero_not_mem_itoaText _, _, rfl⟩
  have hnewline : Sends
      (fun k => if newLine = 1 then terminalWritestring k (literal "\n") else pure k)
      (if newLine = 1 then chars "\n" else []) := by
    split
    · exact sends_writestring (isString_literal (by decide))
    · exact sends_pure
  intro k
  unfold printUnit
  rw [itoa_eq (toInt_inInt val) hroom, ok_bind]
  exact (sends_writestring hnumber).then ((sends_writestring hunit).then hnewline) k

/-- From `2 ^ 31` on a value is taken for a negative one. -/
theorem toInt_neg (h : ¬ val.toNat < 2 ^ 31) : val.toInt < 0 := by
  rw [BitVec.toInt_eq_toNat_cond]
  have := val.isLt
  split <;> omega

/-- The least integer is a sign alone. -/
theorem itoaText_sign {x : ℤ} (h : x < 0) : ∃ digits, itoaText x = byte '-' :: digits := by
  unfold itoaText signedNumeral
  rw [if_pos h]
  split
  · exact ⟨[], rfl⟩
  · exact ⟨_, rfl⟩

/-- Below `2 ^ 31` the value is not taken for a negative one; from there on a sign is printed. -/
theorem itoaText_toInt_iff : itoaText val.toInt = numeral val.toNat ↔ val.toNat < 2 ^ 31 := by
  constructor
  · intro h
    by_contra hlarge
    obtain ⟨digits, htext⟩ := itoaText_sign (toInt_neg hlarge)
    have hsign : byte '-' ∈ numeral val.toNat := by
      rw [← h, htext]
      exact List.mem_cons_self
    exact absurd (numeral_digits _ _ hsign) (by decide)
  · intro hsmall
    have htoInt : val.toInt = val.toNat := BitVec.toInt_eq_toNat_of_lt (by omega)
    unfold itoaText signedNumeral
    rw [htoInt, if_neg (by omega), if_neg (by omega), Int.natAbs_natCast]

/-- What `print_unit` prints, and when this is the value and its unit. -/
theorem printUnit_iff (val : BitVec 32) (newLine : ℤ) (hunit : IsString unit u)
    (hsize : outBuf.length = 32) :
    Sends (printUnit val unit newLine outBuf) (withUnit (itoaText val.toInt) u newLine) ∧
      (withUnit (itoaText val.toInt) u newLine = withUnit (numeral val.toNat) u newLine ↔
        val.toNat < 2 ^ 31) := by
  refine ⟨printUnit_sends val newLine hunit (by omega), ?_⟩
  unfold withUnit
  rw [List.append_left_inj]
  exact itoaText_toInt_iff

/-- A day in milliseconds is printed in full. -/
theorem printUnit_day :
    Sends (printUnit 86400000 (literal "ms") 1 (List.replicate 32 0))
      (withUnit (itoaText 86400000) (chars "ms") 1) :=
  (printUnit_iff 86400000 1 (isString_literal (by decide)) (by decide)).1

/-- The first address of the heap that `memtest` can print appears with a sign. -/
theorem printUnit_address :
    ¬ ∀ (val : BitVec 32) (newLine : ℤ) (unit u outBuf : List Byte), IsString unit u →
      outBuf.length = 32 →
        Sends (printUnit val unit newLine outBuf) (withUnit (numeral val.toNat) u newLine) := by
  intro h
  let k : Console := ⟨⟨0, 0, 0, fun _ => 0, [], ⟨0, fun _ => 0⟩⟩, .normal, VgaColor.default⟩
  have hsends := h 0xD0000010 1 (literal "(addr)") (chars "(addr)") (List.replicate 32 0)
    (isString_literal (by decide)) (by decide) k
  rw [printUnit_sends 0xD0000010 1 (isString_literal (s := "(addr)") (by decide))
    (by decide)] at hsends
  rw [putchars_normal rfl (by decide), putchars_normal rfl (by decide)] at hsends
  have hcell := congrArg (fun k => k.terminal.buffer 0) (Except.ok.inj hsends)
  exact absurd hcell (by decide)

end PrintUnit

/-! ### `memdump` -/

/-- `memdump`: the size that `pmm_dump_bitmap` is called with, if it is called. -/
def memdump (argv : List (List Byte)) (k : Console) : Except Fault (Option ℤ × Console) :=
  match argv with
  | [_, arg] => do
      let (size, _) ← atoi arg
      if size < 1 ∨ size > 16384 then do
        let k ← terminalWritestring k (literal "memdump: size must be between 1-16384\n")
        pure (none, k)
      else pure (some size, k)
  | _ => do
      let k ← terminalWritestring k (literal "usage: memdump <size>\n")
      pure (none, k)

/-- The sizes that `memdump` accepts. -/
def DumpSize (n : ℤ) : Prop := 1 ≤ n ∧ n ≤ 16384

instance (n : ℤ) : Decidable (DumpSize n) := inferInstanceAs (Decidable (_ ∧ _))

/-- The dump has the size that is written if this is one; otherwise a message is printed. -/
def DumpsWritten (text : List Byte) (k : Console) (result : Except Fault (Option ℤ × Console)) :
    Prop :=
  if DumpSize (written text) then result = .ok (some (written text), k)
  else ∃ k', result = .ok (none, k') ∧
    putchars k (chars "memdump: size must be between 1-16384\n") = .ok k'

section Memdump

variable {name arg text : List Byte} {k : Console}

/-- An accepted size is an `int`. -/
theorem dumpSize_inInt {n : ℤ} (h : DumpSize n) : InInt n := by
  obtain ⟨hlow, hhigh⟩ := h
  constructor <;> omega

/-- `memdump` accepts the wrapped number in range, and else prints its message. -/
theorem memdump_eq (h : IsString arg text) (name : List Byte) (hk : k.Valid) :
    DumpSize (wrapInt (written text)) ∧
        memdump [name, arg] k = .ok (some (wrapInt (written text)), k) ∨
      ¬ DumpSize (wrapInt (written text)) ∧ ∃ k', memdump [name, arg] k = .ok (none, k') ∧
        putchars k (chars "memdump: size must be between 1-16384\n") = .ok k' := by
  unfold memdump
  dsimp only
  rw [atoi_eq h, ok_bind]
  dsimp only
  by_cases hsize : DumpSize (wrapInt (written text))
  · have hnot : ¬ (wrapInt (written text) < 1 ∨ wrapInt (written text) > 16384) := by
      have := hsize.1
      have := hsize.2
      omega
    rw [if_neg hnot]
    exact Or.inl ⟨hsize, rfl⟩
  · have hout : wrapInt (written text) < 1 ∨ wrapInt (written text) > 16384 := by
      unfold DumpSize at hsize
      omega
    obtain ⟨k', hprint, -⟩ := putchars_ok hk (chars "memdump: size must be between 1-16384\n")
    have hmessage := terminalWritestring_eq
      (isString_literal (s := "memdump: size must be between 1-16384\n") (by decide)) k
    rw [if_pos hout, hmessage, hprint, ok_bind]
    exact Or.inr ⟨hsize, k', rfl, rfl⟩

/-- `memdump` takes another number for the one that is written when this one is no size, but is one
after its reduction to an `int`. -/
theorem memdump_iff (h : IsString arg text) (name : List Byte) (hk : k.Valid) :
    DumpsWritten text k (memdump [name, arg] k) ↔
      (DumpSize (wrapInt (written text)) → DumpSize (written text)) := by
  unfold DumpsWritten
  by_cases hsize : DumpSize (written text)
  · have hwrap : wrapInt (written text) = written text := wrapInt_of_inInt (dumpSize_inInt hsize)
    rw [if_pos hsize]
    rcases memdump_eq h name hk with ⟨-, hrun⟩ | ⟨hnot, -⟩
    · rw [hrun, hwrap]
      exact iff_of_true rfl fun _ => hsize
    · rw [hwrap] at hnot
      exact absurd hsize hnot
  · rw [if_neg hsize]
    rcases memdump_eq h name hk with ⟨hwrap, hrun⟩ | ⟨hnot, hrun⟩
    · refine iff_of_false ?_ fun himp => hsize (himp hwrap)
      rintro ⟨k', hnone, -⟩
      cases hrun.symm.trans hnone
    · exact iff_of_true hrun fun hwrap => absurd hwrap hnot

/-- A dump of eight bytes is one that it writes. -/
theorem memdump_eight :
    DumpsWritten (chars "8") (Console.initial (fun _ => 0) ⟨0, fun _ => 0⟩)
      (memdump [literal "memdump", literal "8"] (Console.initial (fun _ => 0) ⟨0, fun _ => 0⟩)) :=
  (memdump_iff (isString_literal (by decide)) (literal "memdump")
    (Console.initial_valid _ _)).mpr (by decide)

/-- `4294967297` is taken for `1`. -/
theorem memdump_reduced :
    ¬ ∀ (arg text name : List Byte) (k : Console), IsString arg text → k.Valid →
      DumpsWritten text k (memdump [name, arg] k) := by
  intro h
  have hstring : IsString (literal "4294967297") (chars "4294967297") :=
    isString_literal (by decide)
  have hvalid := Console.initial_valid (fun _ => 0) ⟨0, fun _ => 0⟩
  have hdumps := h _ _ (literal "memdump") _ hstring hvalid
  have hrefused : ¬ DumpSize (written (chars "4294967297")) := by decide
  unfold DumpsWritten at hdumps
  rw [if_neg hrefused] at hdumps
  obtain ⟨k', hnone, -⟩ := hdumps
  rcases memdump_eq hstring (literal "memdump") hvalid with ⟨-, hrun⟩ | ⟨hnot, -⟩
  · cases hrun.symm.trans hnone
  · exact hnot (by decide)

end Memdump

end AuriOS
