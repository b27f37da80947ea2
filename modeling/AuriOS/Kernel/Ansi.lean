import AuriOS.Kernel.Terminal

/-!
# The ANSI parser

`ainsi.zig` between `terminal_putchar` and the terminal: bytes are printed, or make up an escape
sequence that moves the cursor, clears or sets the colour.  The build is `ReleaseSafe`, so every
index, integer conversion and sum is checked, and a failed check stops the kernel
(`Fault.trap`).

* `ansiProcessChar_ok`: from a valid console no check fails, and the console stays valid;
* `terminalRun_valid`: so it does over every sequence of calls of the terminal.
-/

namespace AuriOS

open Program

/-! ### Checked arithmetic -/

/-- `a - b` in an unsigned type. -/
def checkedSub (a b : ℕ) : Except Fault ℕ := if b ≤ a then pure (a - b) else throw .trap

/-- `a + b` in a type of this many bits. -/
def checkedAdd (bits a b : ℕ) : Except Fault ℕ :=
  if a + b < 2 ^ bits then pure (a + b) else throw .trap

/-- `@intCast` to a type of this many bits. -/
def intCast (bits n : ℕ) : Except Fault ℕ := if n < 2 ^ bits then pure n else throw .trap

/-- `+|` on `u16`. -/
def satAdd (a b : ℕ) : ℕ := min (a + b) 65535

/-- `*|` on `u16`. -/
def satMul (a b : ℕ) : ℕ := min (a * b) 65535

/-! ### Colours -/

/-- Light grey on black, as the terminal starts. -/
def defaultColor : Byte := 0x07

/-- `csi_to_vga`. -/
def csiToVga (ansiCode : ℕ) : Byte :=
  match ansiCode with
  | 0 => defaultColor
  | 30 | 40 => 0
  | 31 | 41 => 4
  | 32 | 42 => 2
  | 33 | 43 => 6
  | 34 | 44 => 1
  | 35 | 45 => 5
  | 36 | 46 => 3
  | 37 | 47 => 7
  | 90 => 8
  | 91 => 12
  | 92 => 10
  | 93 => 14
  | 94 => 9
  | 95 => 13
  | 96 => 11
  | 97 => 15
  | _ => defaultColor

/-- The codes last set, each a `u8`. -/
structure VgaColor where
  fg : ℕ
  bg : ℕ
  deriving DecidableEq

/-- The codes of light grey on black. -/
def VgaColor.default : VgaColor := ⟨37, 40⟩

/-- The attribute byte of a pair of codes. -/
def VgaColor.toVga (color : VgaColor) : Byte := csiToVga color.fg ||| (csiToVga color.bg <<< 4)

/-- `drain`: what one code of a sequence does to the pair. -/
def VgaColor.drain (color : VgaColor) (csiCode : ℕ) : Except Fault VgaColor :=
  if (30 ≤ csiCode ∧ csiCode ≤ 39) ∨ (90 ≤ csiCode ∧ csiCode ≤ 97) then do
    let fg ← intCast 8 csiCode
    pure { color with fg := fg }
  else if 40 ≤ csiCode ∧ csiCode ≤ 49 then do
    let bg ← intCast 8 csiCode
    pure { color with bg := bg }
  else if csiCode = 0 then pure VgaColor.default
  else pure color

/-! ### The parser -/

/-- `MAX_PARAMS`. -/
def maxParams : ℕ := 8

/-- The states of the parser. -/
inductive State
  | normal
  | escape
  | bracket (params : Vector ℕ maxParams) (paramIndex : ℕ)
  deriving DecidableEq

/-- The terminal and the variables of the parser. -/
structure Console where
  terminal : Terminal
  currentState : State
  activeColor : VgaColor

/-- The terminal is operated, and the parser is left. -/
def Console.onTerminal (k : Console) (f : Terminal → Terminal) : Console :=
  { k with terminal := f k.terminal }

/-- The parser goes to a state. -/
def Console.inState (k : Console) (state : State) : Console := { k with currentState := state }

/-- `params[i]`, read. -/
def getParam (params : Vector ℕ maxParams) (i : ℕ) : Except Fault ℕ :=
  if h : i < maxParams then pure params[i] else throw .trap

/-- `params[i] = value`. -/
def setParam (params : Vector ℕ maxParams) (i value : ℕ) : Except Fault (Vector ℕ maxParams) :=
  if h : i < maxParams then pure (params.set i value) else throw .trap

/-- The loop of `m` from parameter `i` on, with `n` parameters to go. -/
def drainParams (params : Vector ℕ maxParams) : ℕ → ℕ → VgaColor → Except Fault VgaColor
  | _, 0, color => pure color
  | i, n + 1, color => do
      let code ← getParam params i
      let color ← color.drain code
      let i ← checkedAdd 32 i 1
      drainParams params i n color

/-- A byte inside a control sequence. -/
def processBracket (k : Console) (params : Vector ℕ maxParams) (paramIndex : ℕ) (c : Byte) :
    Except Fault Console := do
  if byte '0' ≤ c ∧ c ≤ byte '9' then
    let n ← checkedSub c.toNat (byte '0').toNat
    let param ← getParam params paramIndex
    let params ← setParam params paramIndex (satAdd (satMul param 10) n)
    pure (k.inState (.bracket params paramIndex))
  else if c = byte 'J' then
    let code ← getParam params 0
    let k := match code with
      | 0 => k.onTerminal terminalClearAfterCursor
      | 1 => k.onTerminal terminalClearUntilCursor
      | 2 => k.onTerminal terminalClear
      | _ => k
    pure (k.inState .normal)
  else if c = byte 'H' then
    let y ← getParam params 0
    let y := if y = 0 then 1 else y
    let x ← getParam params 1
    let x := if x = 0 then 1 else x
    let x ← checkedSub x 1
    let y ← checkedSub y 1
    pure ((k.onTerminal (terminalSetCursor x y)).inState .normal)
  else if c = byte ';' then
    let next ← checkedAdd 32 paramIndex 1
    pure (k.inState (.bracket params (next % maxParams)))
  else if c = byte 'm' then
    let color ← drainParams params 0 (paramIndex + 1) k.activeColor
    let k := { k with activeColor := color }
    pure ((k.onTerminal (terminalSetcolor color.toVga)).inState .normal)
  else pure (k.inState .normal)

/-- The byte that begins an escape sequence. -/
def escByte : Byte := 0x1B

/-- `ansi_process_char`. -/
def ansiProcessChar (k : Console) (c : Byte) : Except Fault Console :=
  match k.currentState with
  | .normal =>
      if c = escByte then pure (k.inState .escape)
      else pure (k.onTerminal (terminalPutcharRaw c))
  | .escape =>
      if c = byte '[' then pure (k.inState (.bracket (Vector.replicate maxParams 0) 0))
      else pure (k.inState .normal)
  | .bracket params paramIndex => processBracket k params paramIndex c

/-- The serial echo of the test build is left out. -/
def terminalPutchar (k : Console) (c : Byte) : Except Fault Console := ansiProcessChar k c

/-- `terminal_write`, with the data from its pointer on. -/
def terminalWrite (k : Console) : List Byte → ℕ → Except Fault Console
  | _, 0 => pure k
  | [], _ + 1 => throw .outOfBounds
  | c :: data, size + 1 => do
      let k ← terminalPutchar k c
      terminalWrite k data size

/-- `terminal_writestring`. -/
def terminalWritestring (k : Console) (data : List Byte) : Except Fault Console := do
  let size ← strlen data
  terminalWrite k data size

/-- The characters of a text, one after the other. -/
def putchars (k : Console) (text : List Byte) : Except Fault Console :=
  text.foldlM terminalPutchar k

/-! ### The invariant of the console -/

/-- The terminal is valid and the parser's index is one of a parameter. -/
structure Console.Valid (k : Console) : Prop where
  terminal : k.terminal.Valid
  paramIndex_lt : ∀ params paramIndex, k.currentState = .bracket params paramIndex →
    paramIndex < maxParams

section Valid

variable {k : Console}

/-- An operation that keeps the terminal valid keeps the console valid. -/
theorem Console.Valid.onTerminal (h : k.Valid) {f : Terminal → Terminal}
    (hf : (f k.terminal).Valid) : (k.onTerminal f).Valid :=
  ⟨hf, h.paramIndex_lt⟩

/-- Only the state inside a control sequence has an index. -/
theorem Console.Valid.inState (h : k.Valid) {state : State}
    (hstate : ∀ params paramIndex, state = .bracket params paramIndex → paramIndex < maxParams) :
    (k.inState state).Valid :=
  ⟨h.terminal, hstate⟩

/-- The normal state keeps the console valid. -/
theorem Console.Valid.normal (h : k.Valid) : (k.inState .normal).Valid :=
  h.inState fun _ _ he => State.noConfusion he

/-- The collecting state keeps the console valid while its index is in range. -/
theorem Console.Valid.bracket (h : k.Valid) (params : Vector ℕ maxParams) {paramIndex : ℕ}
    (hlt : paramIndex < maxParams) : (k.inState (.bracket params paramIndex)).Valid :=
  h.inState fun _ _ he => by cases he; exact hlt

/-- A parameter in range is read. -/
theorem getParam_ok (params : Vector ℕ maxParams) {i : ℕ} (hi : i < maxParams) :
    getParam params i = .ok params[i] := by
  unfold getParam
  rw [dif_pos hi]
  rfl

/-- A parameter in range is written. -/
theorem setParam_ok (params : Vector ℕ maxParams) {i : ℕ} (hi : i < maxParams) (value : ℕ) :
    setParam params i value = .ok (params.set i value) := by
  unfold setParam
  rw [dif_pos hi]
  rfl

/-- A subtraction that does not go below zero succeeds. -/
theorem checkedSub_ok {a b : ℕ} (h : b ≤ a) : checkedSub a b = .ok (a - b) := if_pos h

/-- An addition that fits its width succeeds. -/
theorem checkedAdd_ok {bits a b : ℕ} (h : a + b < 2 ^ bits) :
    checkedAdd bits a b = .ok (a + b) := if_pos h

/-- Every code that is stored fits a `u8`. -/
theorem drain_ok (color : VgaColor) (csiCode : ℕ) : ∃ color', color.drain csiCode = .ok color' := by
  unfold VgaColor.drain intCast
  split
  · rw [if_pos (by omega)]
    exact ⟨_, rfl⟩
  · split
    · rw [if_pos (by omega)]
      exact ⟨_, rfl⟩
    · split
      · exact ⟨_, rfl⟩
      · exact ⟨_, rfl⟩

/-- The parameters in range are drained without a fault. -/
theorem drainParams_ok (params : Vector ℕ maxParams) {i n : ℕ} (h : i + n ≤ maxParams)
    (color : VgaColor) : ∃ color', drainParams params i n color = .ok color' := by
  induction n generalizing i color with
  | zero => exact ⟨color, rfl⟩
  | succ n ih =>
    obtain ⟨color₁, hdrain⟩ := drain_ok color params[i]
    obtain ⟨color', hrest⟩ := ih (i := i + 1) (by omega) color₁
    have hmax : maxParams < 2 ^ 32 := by decide
    refine ⟨color', ?_⟩
    rw [drainParams, getParam_ok params (by omega), ok_bind, hdrain, ok_bind,
      checkedAdd_ok (by omega), ok_bind, hrest]

/-- Every character inside a sequence is handled and leaves the console valid. -/
theorem processBracket_ok (h : k.Valid) (params : Vector ℕ maxParams) {paramIndex : ℕ}
    (hlt : paramIndex < maxParams) (c : Byte) :
    ∃ k', processBracket k params paramIndex c = .ok k' ∧ k'.Valid := by
  have hmax : maxParams < 2 ^ 32 := by decide
  have hterminal := h.terminal.toOnScreen
  unfold processBracket
  by_cases hdigit : byte '0' ≤ c ∧ c ≤ byte '9'
  · rw [if_pos hdigit, checkedSub_ok hdigit.1, ok_bind, getParam_ok params hlt, ok_bind,
      setParam_ok params hlt, ok_bind]
    exact ⟨_, rfl, h.bracket _ hlt⟩
  rw [if_neg hdigit]
  by_cases hJ : c = byte 'J'
  · rw [if_pos hJ, getParam_ok params (by decide), ok_bind]
    refine ⟨_, rfl, Console.Valid.normal ?_⟩
    split
    · exact h.onTerminal ((terminalClearAfterCursor_painted hterminal).valid h.terminal)
    · exact h.onTerminal ((terminalClearUntilCursor_painted hterminal).valid h.terminal)
    · exact h.onTerminal (terminalClear_valid hterminal)
    · exact h
  rw [if_neg hJ]
  by_cases hH : c = byte 'H'
  · have hone : ∀ n : ℕ, 1 ≤ if n = 0 then 1 else n := by
      intro n
      split <;> omega
    rw [if_pos hH, getParam_ok params (by decide), ok_bind, getParam_ok params (by decide), ok_bind]
    dsimp only
    rw [checkedSub_ok (hone _), ok_bind, checkedSub_ok (hone _), ok_bind]
    exact ⟨_, rfl, (h.onTerminal (terminalSetCursor_valid hterminal _ _)).normal⟩
  rw [if_neg hH]
  by_cases hsemi : c = byte ';'
  · rw [if_pos hsemi, checkedAdd_ok (by omega), ok_bind]
    exact ⟨_, rfl, h.bracket _ (Nat.mod_lt _ (by decide))⟩
  rw [if_neg hsemi]
  by_cases hm : c = byte 'm'
  · obtain ⟨color, hcolor⟩ :=
      drainParams_ok params (i := 0) (n := paramIndex + 1) (by omega) k.activeColor
    rw [if_pos hm, hcolor, ok_bind]
    exact ⟨_, rfl, Console.Valid.normal
      ⟨terminalSetcolor_valid h.terminal color.toVga, h.paramIndex_lt⟩⟩
  · rw [if_neg hm]
    exact ⟨_, rfl, h.normal⟩

/-- No byte makes the parser trap, and the console stays valid. -/
theorem ansiProcessChar_ok (h : k.Valid) (c : Byte) :
    ∃ k', ansiProcessChar k c = .ok k' ∧ k'.Valid := by
  unfold ansiProcessChar
  split
  · split
    · exact ⟨_, rfl, h.inState fun _ _ he => State.noConfusion he⟩
    · exact ⟨_, rfl, h.onTerminal (terminalPutcharRaw_valid h.terminal.toOnScreen c)⟩
  · split
    · exact ⟨_, rfl, h.bracket _ (by decide)⟩
    · exact ⟨_, rfl, h.normal⟩
  · next params paramIndex hstate =>
    exact processBracket_ok h params (h.paramIndex_lt params paramIndex hstate) c

/-- Writing a given length prints the text of that length, whatever follows it. -/
theorem terminalWrite_append (k : Console) (text rest : List Byte) :
    terminalWrite k (text ++ rest) text.length = putchars k text := by
  induction text generalizing k with
  | nil => cases rest <;> rfl
  | cons c text ih =>
    unfold putchars
    rw [List.cons_append, List.length_cons, terminalWrite, List.foldlM_cons]
    exact congrArg _ (funext fun k => ih k)

/-- A string is printed character by character. -/
theorem terminalWritestring_eq {data text : List Byte} (h : IsString data text) (k : Console) :
    terminalWritestring k data = putchars k text := by
  unfold terminalWritestring
  rw [strlen_eq h, ok_bind]
  obtain ⟨-, rest, rfl⟩ := h
  exact terminalWrite_append k text (0 :: rest)

/-- A text in two parts is printed part by part. -/
theorem putchars_append (k : Console) (a b : List Byte) :
    putchars k (a ++ b) = putchars k a >>= fun k => putchars k b :=
  List.foldlM_append

/-- Whatever the console, the routine sends it this text, and does nothing else. -/
def Sends (routine : Console → Except Fault Console) (text : List Byte) : Prop :=
  ∀ k, routine k = putchars k text

/-- A routine that does nothing sends nothing. -/
theorem sends_pure : Sends pure [] := fun _ => rfl

/-- A string is sent up to its NUL. -/
theorem sends_writestring {data text : List Byte} (h : IsString data text) :
    Sends (fun k => terminalWritestring k data) text := terminalWritestring_eq h

/-- Two routines in sequence send their texts in sequence. -/
theorem Sends.then {f g : Console → Except Fault Console} {a b : List Byte} (hf : Sends f a)
    (hg : Sends g b) : Sends (fun k => f k >>= g) (a ++ b) := by
  intro k
  rw [putchars_append, ← hf k]
  exact congrArg _ (funext hg)

/-- Printing a text and one more character. -/
theorem putchars_concat {k₁ : Console} {text : List Byte} {c : Byte} :
    putchars k (text ++ [c]) = .ok k₁ ↔
      ∃ k₂, putchars k text = .ok k₂ ∧ terminalPutchar k₂ c = .ok k₁ := by
  have hsingle : ∀ k₂, putchars k₂ [c] = terminalPutchar k₂ c := fun k₂ => bind_pure _
  rw [putchars_append, except_bind_eq_ok]
  simp only [hsingle]

/-- Every text can be printed, and leaves the console valid. -/
theorem putchars_ok (h : k.Valid) (text : List Byte) :
    ∃ k', putchars k text = .ok k' ∧ k'.Valid :=
  foldlM_invariant Console.Valid (fun _ c h => ansiProcessChar_ok h c) text h

/-- Every string can be printed, and leaves the console valid. -/
theorem terminalWritestring_ok {data : List Byte} (h : ∃ text, IsString data text) (hk : k.Valid) :
    ∃ k', terminalWritestring k data = .ok k' ∧ k'.Valid := by
  obtain ⟨text, htext⟩ := h
  rw [terminalWritestring_eq htext]
  exact putchars_ok hk text

/-- A character that does not begin an escape sequence is printed. -/
theorem terminalPutchar_normal (hstate : k.currentState = .normal) {c : Byte} (hc : c ≠ escByte) :
    terminalPutchar k c = .ok (k.onTerminal (terminalPutcharRaw c)) := by
  unfold terminalPutchar ansiProcessChar
  rw [hstate]
  exact if_neg hc

/-- Without an escape character the parser only passes characters on. -/
theorem putchars_normal (hstate : k.currentState = .normal) {text : List Byte}
    (hesc : escByte ∉ text) :
    putchars k text =
      .ok (k.onTerminal fun t => text.foldl (fun t c => terminalPutcharRaw c t) t) := by
  induction text generalizing k with
  | nil => rfl
  | cons c text ih =>
    have hc : c ≠ escByte := (List.ne_of_not_mem_cons hesc).symm
    unfold putchars
    rw [List.foldlM_cons, terminalPutchar_normal hstate hc, ok_bind]
    exact ih hstate (List.not_mem_of_not_mem_cons hesc)

end Valid

/-! ### Runs -/

/-- The console after `terminal_initialize`, with whatever video memory and the display controller
held before. -/
def Console.initial (buffer : ℕ → BitVec 16) (crtc : Crtc) : Console where
  terminal := terminalInitialize
    { row := 0, column := 0, color := 0, buffer := buffer, stores := [], crtc := crtc }
  currentState := .normal
  activeColor := VgaColor.default

/-- A call of the terminal. -/
inductive TerminalOp
  | putchar (c : Byte)
  | backspace
  | setCursor (x y : ℕ)
  | moveCursor (offset : ℤ)
  | clear
  | clearUntilCursor
  | clearAfterCursor
  | setcolor (color : Byte)

/-- What an operation does to the console. -/
def TerminalOp.perform (k : Console) : TerminalOp → Except Fault Console
  | .putchar c => terminalPutchar k c
  | .backspace => pure (k.onTerminal terminalBackspace)
  | .setCursor x y => pure (k.onTerminal (terminalSetCursor x y))
  | .moveCursor offset => pure (k.onTerminal (terminalMoveCursor offset))
  | .clear => pure (k.onTerminal terminalClear)
  | .clearUntilCursor => pure (k.onTerminal terminalClearUntilCursor)
  | .clearAfterCursor => pure (k.onTerminal terminalClearAfterCursor)
  | .setcolor color => pure (k.onTerminal (terminalSetcolor color))

/-- The operations are performed one after the other. -/
def terminalRun (k : Console) (ops : List TerminalOp) : Except Fault Console :=
  ops.foldlM TerminalOp.perform k

section Runs

variable {k : Console}

/-- The console of the boot is valid. -/
theorem Console.initial_valid (buffer : ℕ → BitVec 16) (crtc : Crtc) :
    (Console.initial buffer crtc).Valid where
  terminal := terminalInitialize_valid fun _ hi => absurd hi List.not_mem_nil
  paramIndex_lt _ _ he := State.noConfusion he

/-- Every operation succeeds and leaves the console valid. -/
theorem perform_valid (h : k.Valid) (op : TerminalOp) :
    ∃ k', op.perform k = .ok k' ∧ k'.Valid := by
  have ht := h.terminal.toOnScreen
  cases op with
  | putchar c => exact ansiProcessChar_ok h c
  | backspace => exact ⟨_, rfl, h.onTerminal (terminalBackspace_valid ht)⟩
  | setCursor x y => exact ⟨_, rfl, h.onTerminal (terminalSetCursor_valid ht x y)⟩
  | moveCursor offset => exact ⟨_, rfl, h.onTerminal (terminalMoveCursor_valid ht offset)⟩
  | clear => exact ⟨_, rfl, h.onTerminal (terminalClear_valid ht)⟩
  | clearUntilCursor =>
    exact ⟨_, rfl, h.onTerminal ((terminalClearUntilCursor_painted ht).valid h.terminal)⟩
  | clearAfterCursor =>
    exact ⟨_, rfl, h.onTerminal ((terminalClearAfterCursor_painted ht).valid h.terminal)⟩
  | setcolor color => exact ⟨_, rfl, h.onTerminal (terminalSetcolor_valid h.terminal color)⟩

/-- Every sequence of operations succeeds and leaves the console valid. -/
theorem terminalRun_ok (h : k.Valid) (ops : List TerminalOp) :
    ∃ k', terminalRun k ops = .ok k' ∧ k'.Valid :=
  foldlM_invariant Console.Valid (fun _ op h => perform_valid h op) ops h

/-- From `terminal_initialize`, every sequence of calls completes without a failed check; the
cursor is then on the screen, every store so far was to one of its 2000 cells, the parser's index
is one of its eight parameters, and the cursor registers hold the place of the cursor. -/
theorem terminalRun_valid (buffer : ℕ → BitVec 16) (crtc : Crtc) (ops : List TerminalOp) :
    ∃ k, terminalRun (Console.initial buffer crtc) ops = .ok k ∧
      k.terminal.row < 25 ∧ k.terminal.column < 80 ∧
      (∀ i ∈ k.terminal.stores, i < 2000) ∧
      (∀ params paramIndex, k.currentState = .bracket params paramIndex → paramIndex < 8) ∧
      k.terminal.crtc.cursor = k.terminal.row * 80 + k.terminal.column := by
  obtain ⟨k, hrun, h⟩ := terminalRun_ok (Console.initial_valid buffer crtc) ops
  exact ⟨k, hrun, h.terminal.row_lt, h.terminal.column_lt, h.terminal.stores_lt, h.paramIndex_lt,
    h.terminal.cursor_eq⟩

end Runs

end AuriOS
