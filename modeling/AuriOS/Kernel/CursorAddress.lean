import AuriOS.Kernel.ControlSequence

/-!
# Cursor addressing

`set_cursor_ansi` writes the position in decimal and the parser reads it back, cut to 65535, which
is more than the screen has rows or columns.

* `addressed_ok`: what `ESC [ y ; x H` does for any digits;
* `setCursorAnsi_ok`: for every position the cursor ends there, or at the edge of the screen.
-/

namespace AuriOS

open Program SlotCycle

/-- The literal `ANSI_CSI`. -/
def ansiCsi : List Byte := escByte :: literal "["

/-- `set_cursor_ansi`, with the contents of `buf` at its start. -/
def setCursorAnsi (x y : ℤ) (buf : List Byte) (k : Console) : Except Fault Console := do
  let k ← terminalWritestring k ansiCsi
  let (buf, _) ← itoa y buf
  let k ← terminalWritestring k buf
  let k ← terminalWritestring k (literal ";")
  let (buf, _) ← itoa x buf
  let k ← terminalWritestring k buf
  terminalWritestring k (literal "H")

section Address

variable {x y : ℤ} {buf : List Byte} {k : Console}

/-- The introducer of a sequence is the escape and the bracket. -/
theorem isString_ansiCsi : IsString ansiCsi [escByte, byte '['] :=
  ⟨by decide, [], rfl⟩

/-- The digits of an `int` and their NUL fit the buffer. -/
theorem itoa_int_ok (hx : 1 ≤ x ∧ x < 2 ^ 31) (hbuf : buf.length = 16) :
    ∃ digits buf', itoa x buf = .ok (buf', false) ∧ IsString buf' digits ∧
      (∀ c ∈ digits, IsDigit c) ∧
      (decimal digits : ℤ) = x ∧ buf'.length = 16 := by
  obtain ⟨n, rfl⟩ := Int.eq_ofNat_of_zero_le (show 0 ≤ x by omega)
  have hten : (Nat.digits 10 n).length ≤ 10 :=
    (Nat.digits_length_le_iff (by decide) n).mpr (by omega)
  have hroom : (reversedDigits n).length < buf.length := by
    unfold reversedDigits
    rw [List.length_map, hbuf]
    omega
  obtain ⟨digits, buf', hrun, htext, hdigits, hvalue, hlength⟩ := itoa_ok (by omega) hroom
  exact ⟨digits, buf', hrun, htext, hdigits, by rw [hvalue], hlength.trans hbuf⟩

/-- A coordinate that counts from 1, as `terminal_set_cursor` gets it. -/
def coordinate (n : ℕ) : ℕ := (if saturate n = 0 then 1 else saturate n) - 1

/-- The parser's limit lies beyond the edge of the screen. -/
theorem coordinate_clamped (size : ℕ) {n : ℕ} (hn : 1 ≤ n) (hsize : 1 ≤ size ∧ size ≤ 65535) :
    (if coordinate n ≥ size then size - 1 else coordinate n) = min n size - 1 := by
  have hcoordinate : coordinate n = min n 65535 - 1 := by
    unfold coordinate saturate
    rw [if_neg (by omega)]
  rw [hcoordinate]
  split <;> omega

/-- The final `H` moves the cursor to the two numbers read. -/
theorem addressed_ok (hk : k.currentState = .normal) {py px : List Byte}
    (hy : ∀ c ∈ py, IsDigit c) (hx : ∀ c ∈ px, IsDigit c) :
    putchars k (controlSequence py [px] (byte 'H')) =
      .ok ((k.onTerminal
        (terminalSetCursor (coordinate (decimal px)) (coordinate (decimal py)))).inState
        .normal) := by
  have hdigits : ∀ q ∈ py :: [px], ∀ c ∈ q, IsDigit c := by
    intro q hq
    rcases List.mem_pair.mp hq with rfl | rfl
    · exact hy
    · exact hx
  obtain ⟨params, paramIndex, hrun, -, hslots⟩ := feed_parameters hk py [px] hdigits
  have hslot : ∀ i (hi : i < maxParams), params[i] = saturate (decimal ([py, px].getD i [])) := by
    intro i hi
    rw [hslots i hi, collected_eq hi]
    exact congrArg (fun q => saturate (decimal q)) (List.append_nil _)
  have hpositive : ∀ n : ℕ, 1 ≤ if n = 0 then 1 else n := by
    intro n
    split <;> omega
  have hfinal : ansiProcessChar (k.inState (.bracket params paramIndex)) (byte 'H') =
      .ok ((k.onTerminal (terminalSetCursor (coordinate (decimal px))
        (coordinate (decimal py)))).inState .normal) := by
    change processBracket _ params paramIndex (byte 'H') = _
    unfold processBracket
    rw [if_neg (by decide), if_neg (by decide), if_pos rfl, getParam_ok params (by decide), ok_bind,
      getParam_ok params (by decide), ok_bind, hslot 0 (by decide), hslot 1 (by decide)]
    dsimp only
    rw [checkedSub_ok (hpositive _), ok_bind, checkedSub_ok (hpositive _), ok_bind]
    rfl
  unfold controlSequence
  rw [putchars_append, hrun, ok_bind]
  exact (bind_pure _).trans hfinal

/-- What is written is one control sequence. -/
theorem setCursorAnsi_eq (hx : 1 ≤ x ∧ x < 2 ^ 31) (hy : 1 ≤ y ∧ y < 2 ^ 31)
    (hbuf : buf.length = 16) :
    ∃ py px, setCursorAnsi x y buf k = putchars k (controlSequence py [px] (byte 'H')) ∧
      (∀ c ∈ py, IsDigit c) ∧ (∀ c ∈ px, IsDigit c) ∧ (decimal py : ℤ) = y ∧
      (decimal px : ℤ) = x := by
  obtain ⟨py, buf₁, hitoay, htexty, hdigitsy, hvaluey, hbuf₁⟩ := itoa_int_ok hy hbuf
  obtain ⟨px, buf₂, hitoax, htextx, hdigitsx, hvaluex, -⟩ := itoa_int_ok hx hbuf₁
  refine ⟨py, px, ?_, hdigitsy, hdigitsx, hvaluey, hvaluex⟩
  have hparts : controlSequence py [px] (byte 'H') =
      [escByte, byte '['] ++ (py ++ (chars ";" ++ (px ++ chars "H"))) := by
    unfold controlSequence parameterBytes
    simp [chars]
  have hsemi := isString_literal (s := ";") (by decide)
  have hH := isString_literal (s := "H") (by decide)
  unfold setCursorAnsi
  simp only [hparts, putchars_append, hitoay, hitoax, ok_bind,
    terminalWritestring_eq isString_ansiCsi, terminalWritestring_eq htexty,
    terminalWritestring_eq hsemi, terminalWritestring_eq htextx, terminalWritestring_eq hH]

/-- The cursor goes where it was addressed, and nothing is printed: no cell is stored to, and the
screen, the colours and the parser's state are as they were. -/
theorem setCursorAnsi_ok (hx : 1 ≤ x ∧ x < 2 ^ 31) (hy : 1 ≤ y ∧ y < 2 ^ 31)
    (hbuf : buf.length = 16) (hk : k.currentState = .normal) :
    ∃ k', setCursorAnsi x y buf k = .ok k' ∧
      (k'.terminal.column : ℤ) = min x 80 - 1 ∧ (k'.terminal.row : ℤ) = min y 25 - 1 ∧
      k'.terminal.buffer = k.terminal.buffer ∧ k'.terminal.stores = k.terminal.stores ∧
      k'.terminal.color = k.terminal.color ∧ k'.activeColor = k.activeColor ∧
      k'.currentState = .normal := by
  obtain ⟨py, px, hwrite, hdigitsy, hdigitsx, rfl, rfl⟩ := setCursorAnsi_eq (k := k) hx hy hbuf
  have hcolumn := coordinate_clamped vgaWidth (n := decimal px) (by omega) (by decide)
  have hrow := coordinate_clamped vgaHeight (n := decimal py) (by omega) (by decide)
  refine ⟨_, hwrite.trans (addressed_ok hk hdigitsy hdigitsx), ?_, ?_, rfl, rfl, rfl, rfl, rfl⟩
  · change (((if coordinate (decimal px) ≥ vgaWidth then vgaWidth - 1
      else coordinate (decimal px)) : ℕ) : ℤ) = _
    rw [hcolumn]
    change ((min (decimal px) 80 - 1 : ℕ) : ℤ) = _
    omega
  · change (((if coordinate (decimal py) ≥ vgaHeight then vgaHeight - 1
      else coordinate (decimal py)) : ℕ) : ℤ) = _
    rw [hrow]
    change ((min (decimal py) 25 - 1 : ℕ) : ℤ) = _
    omega

/-- The largest column of an `int` and row 20, after boot. -/
theorem setCursorAnsi_ok_edge :
    ∃ k', setCursorAnsi 2147483647 20 (List.replicate 16 0xFF)
        (Console.initial (fun _ => 0) ⟨0, fun _ => 0⟩) = .ok k' ∧
      (k'.terminal.column : ℤ) = min 2147483647 80 - 1 ∧ (k'.terminal.row : ℤ) = min 20 25 - 1 ∧
      k'.terminal.buffer = (Console.initial (fun _ => 0) ⟨0, fun _ => 0⟩).terminal.buffer ∧
      k'.terminal.stores = (Console.initial (fun _ => 0) ⟨0, fun _ => 0⟩).terminal.stores ∧
      k'.terminal.color = (Console.initial (fun _ => 0) ⟨0, fun _ => 0⟩).terminal.color ∧
      k'.activeColor = (Console.initial (fun _ => 0) ⟨0, fun _ => 0⟩).activeColor ∧
      k'.currentState = .normal :=
  setCursorAnsi_ok ⟨by decide, by decide⟩ ⟨by decide, by decide⟩ (by decide) rfl

end Address

end AuriOS
