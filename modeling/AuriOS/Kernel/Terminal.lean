import AuriOS.Foundation.ScrollPage
import AuriOS.Lib.Strings

/-!
# The text terminal

The routines of `terminal.c` on the variables of the file, on the video memory and on the cursor
registers of the display controller.  Video memory is a total map from cell indices, and every
store is recorded, so that a store past the 2000 cells of the screen is visible as such.

* `Terminal.Valid`: the cursor is on the screen, the registers say where, and every store so far
  was to one of the cells;
* `blankAll_painted`, `terminalScroll_painted` and the like: what each loop does, cell by cell;
* `terminalPutcharRaw_put`, `terminalPutcharRaw_newline`: printing a character is
  `ScrollPage.Screen.put`, a newline is `ScrollPage.Screen.newline`.
-/

namespace AuriOS

open Program ScrollPage

def vgaWidth : ℕ := 80
def vgaHeight : ℕ := 25

/-! ### The display controller -/

def vgaCtrlRegister : BitVec 16 := 0x3D4
def vgaDataRegister : BitVec 16 := 0x3D5
def vgaOffsetLow : Byte := 0x0F
def vgaOffsetHigh : Byte := 0x0E
def vgaCursorStart : Byte := 0x0A
def vgaCursorEnd : Byte := 0x0B

/-- The register file behind the two ports, and the register selected. -/
structure Crtc where
  index : Byte
  register : Byte → Byte

/-- `outb` to one of the two ports. -/
def Crtc.outb (port : BitVec 16) (value : Byte) (crtc : Crtc) : Crtc :=
  if port = vgaCtrlRegister then { crtc with index := value }
  else if port = vgaDataRegister then
    { crtc with register := Function.update crtc.register crtc.index value }
  else crtc

/-- `inb` from the data port. -/
def Crtc.inb (crtc : Crtc) : Byte := crtc.register crtc.index

/-- The position in the two cursor registers. -/
def Crtc.cursor (crtc : Crtc) : ℕ :=
  (crtc.register vgaOffsetHigh).toNat * 256 + (crtc.register vgaOffsetLow).toNat

/-! ### The state of `terminal.c` -/

/-- The variables of the terminal, the cursor's registers and the cells that were stored to. -/
structure Terminal where
  /-- `terminal_row`. -/
  row : ℕ
  /-- `terminal_column`. -/
  column : ℕ
  /-- `terminal_color`. -/
  color : Byte
  /-- What `terminal_buffer` points to. -/
  buffer : ℕ → BitVec 16
  /-- The indices of `terminal_buffer` stored to, newest first. -/
  stores : List ℕ
  crtc : Crtc

/-- `terminal_buffer[index] = entry`. -/
def Terminal.store (t : Terminal) (index : ℕ) (entry : BitVec 16) : Terminal :=
  { t with buffer := Function.update t.buffer index entry, stores := index :: t.stores }

/-- A byte is written to a port of the cursor. -/
def Terminal.outb (t : Terminal) (port : BitVec 16) (value : Byte) : Terminal :=
  { t with crtc := t.crtc.outb port value }

/-- The linear position of the cursor. -/
def Terminal.pos (t : Terminal) : ℕ := t.row * vgaWidth + t.column

/-! ### The routines -/

/-- `terminal_enable_cursor`. -/
def terminalEnableCursor (cursorStart cursorEnd : Byte) (t : Terminal) : Terminal :=
  let t := t.outb vgaCtrlRegister vgaCursorStart
  let t := t.outb vgaDataRegister ((t.crtc.inb &&& 0xC0) ||| cursorStart)
  let t := t.outb vgaCtrlRegister vgaCursorEnd
  t.outb vgaDataRegister ((t.crtc.inb &&& 0xE0) ||| cursorEnd)

/-- `terminal_update_cursor`. -/
def terminalUpdateCursor (x y : ℕ) (t : Terminal) : Terminal :=
  let pos : BitVec 16 := BitVec.ofNat 16 (y * vgaWidth + x)
  let t := t.outb vgaCtrlRegister vgaOffsetLow
  let t := t.outb vgaDataRegister ((pos &&& 0xFF).setWidth 8)
  let t := t.outb vgaCtrlRegister vgaOffsetHigh
  t.outb vgaDataRegister (((pos >>> 8) &&& 0xFF).setWidth 8)

/-- `vga_entry_color`. -/
def vgaEntryColor (fg bg : Byte) : Byte := fg ||| (bg <<< 4)

/-- `vga_entry`. -/
def vgaEntry (uc color : Byte) : BitVec 16 := uc.setWidth 16 ||| (color.setWidth 16 <<< 8)

/-- A blank cell of the current colour. -/
def Terminal.blank (t : Terminal) : BitVec 16 := vgaEntry (byte ' ') t.color

/-- The double loop that blanks every cell. -/
@[irreducible] def blankAll : Terminal → Terminal :=
  forLoop (fun y => forLoop (fun x t => t.store (y * vgaWidth + x) t.blank) 0 vgaWidth) 0 vgaHeight

/-- `terminal_initialize`. -/
def terminalInitialize (t : Terminal) : Terminal :=
  let t := { t with row := 0, column := 0, color := vgaEntryColor 7 0 }
  let t := terminalEnableCursor 0 15 (blankAll t)
  terminalUpdateCursor t.column t.row t

/-- `terminal_setcolor`. -/
def terminalSetcolor (color : Byte) (t : Terminal) : Terminal := { t with color := color }

/-- `terminal_putentryat`. -/
def terminalPutentryat (c color : Byte) (x y : ℕ) (t : Terminal) : Terminal :=
  t.store (y * vgaWidth + x) (vgaEntry c color)

/-- The inner loop of `terminal_scroll`: row `y` is copied to the row above. -/
def copyRow (y : ℕ) : Terminal → Terminal :=
  forLoop (fun x t => t.store ((y - 1) * vgaWidth + x) (t.buffer (y * vgaWidth + x))) 0 vgaWidth

/-- `terminal_scroll`. -/
@[irreducible] def terminalScroll (t : Terminal) : Terminal :=
  let t := forLoop copyRow 1 (vgaHeight - 1) t
  forLoop (fun x t => t.store ((vgaHeight - 1) * vgaWidth + x) t.blank) 0 vgaWidth t

/-- `++terminal_row`, and the scroll when that was the last row. -/
def nextRow (t : Terminal) : Terminal :=
  let t := { t with row := t.row + 1 }
  if t.row = vgaHeight then { terminalScroll t with row := vgaHeight - 1 } else t

/-- `terminal_putchar_raw`. -/
def terminalPutcharRaw (c : Byte) (t : Terminal) : Terminal :=
  if c = byte '\n' then
    let t := nextRow { t with column := 0 }
    terminalUpdateCursor t.column t.row t
  else
    let t := terminalPutentryat c t.color t.column t.row t
    let t := { t with column := t.column + 1 }
    let t := if t.column = vgaWidth then nextRow { t with column := 0 } else t
    terminalUpdateCursor t.column t.row t

/-- `terminal_clear`. -/
def terminalClear (t : Terminal) : Terminal :=
  let t := { blankAll t with row := 0, column := 0 }
  terminalUpdateCursor t.column t.row t

/-- `terminal_clear_until_cursor`. -/
def terminalClearUntilCursor (t : Terminal) : Terminal :=
  forLoop (fun i t => t.store i t.blank) 0 (t.row * vgaWidth + t.column) t

/-- `terminal_clear_after_cursor`. -/
def terminalClearAfterCursor (t : Terminal) : Terminal :=
  let limit := vgaWidth * vgaHeight
  let start := t.row * vgaWidth + t.column
  forLoop (fun i t => t.store i t.blank) start (limit - start) t

/-- `terminal_set_cursor`. -/
def terminalSetCursor (x y : ℕ) (t : Terminal) : Terminal :=
  let x := if x ≥ vgaWidth then vgaWidth - 1 else x
  let y := if y ≥ vgaHeight then vgaHeight - 1 else y
  let t := { t with column := x, row := y }
  terminalUpdateCursor t.column t.row t

/-- `terminal_backspace`. -/
def terminalBackspace (t : Terminal) : Terminal :=
  let t := if t.column > 0 then { t with column := t.column - 1 }
    else if t.row > 0 then { t with row := t.row - 1, column := 79 }
    else t
  let t := terminalPutentryat (byte ' ') t.color t.column t.row t
  terminalUpdateCursor t.column t.row t

/-- The offset is an `int`; the sum is exact as long as it stays one. -/
def terminalMoveCursor (offset : ℤ) (t : Terminal) : Terminal :=
  let pos : ℤ := (t.row * vgaWidth + t.column : ℕ) + offset
  let pos : ℤ := if pos < 0 then 0 else pos
  let pos : ℤ := if pos ≥ vgaWidth * vgaHeight then vgaWidth * vgaHeight - 1 else pos
  let t := { t with row := (pos.tdiv vgaWidth).toNat, column := (pos.tmod vgaWidth).toNat }
  terminalUpdateCursor t.column t.row t

/-- The low byte of a cell is its character. -/
theorem vgaEntry_char (uc color : Byte) : (vgaEntry uc color).setWidth 8 = uc := by
  unfold vgaEntry
  ext i hi
  simp only [BitVec.getElem_setWidth, BitVec.getLsbD_or, BitVec.getLsbD_setWidth,
    BitVec.getLsbD_shiftLeft]
  simp [hi, BitVec.getLsbD_eq_getElem]
  omega

/-! ### The cursor registers -/

section Cursor

variable {t : Terminal} {x y : ℕ}

/-- Sending the cursor to its registers leaves its row. -/
@[simp] theorem terminalUpdateCursor_row : (terminalUpdateCursor x y t).row = t.row := rfl

/-- Sending the cursor to its registers leaves its column. -/
@[simp] theorem terminalUpdateCursor_column : (terminalUpdateCursor x y t).column = t.column := rfl

/-- Sending the cursor to its registers leaves the colour. -/
@[simp] theorem terminalUpdateCursor_color : (terminalUpdateCursor x y t).color = t.color := rfl

/-- Sending the cursor to its registers leaves the cells. -/
@[simp] theorem terminalUpdateCursor_buffer : (terminalUpdateCursor x y t).buffer = t.buffer := rfl

/-- Sending the cursor to its registers stores to no cell. -/
@[simp] theorem terminalUpdateCursor_stores : (terminalUpdateCursor x y t).stores = t.stores := rfl

/-- The two bytes sent make up the position. -/
theorem terminalUpdateCursor_cursor (h : y * vgaWidth + x < 2 ^ 16) :
    (terminalUpdateCursor x y t).crtc.cursor = y * vgaWidth + x := by
  have hlow : ∀ p : BitVec 16, ((p &&& 0xFF).setWidth 8 : Byte).toNat = p.toNat % 256 := by
    intro p
    rw [BitVec.toNat_setWidth, BitVec.toNat_and,
      show (0xFF : BitVec 16).toNat = 2 ^ 8 - 1 from rfl, Nat.and_two_pow_sub_one_eq_mod,
      Nat.mod_mod]
  have hregister : (terminalUpdateCursor x y t).crtc.cursor =
      ((((BitVec.ofNat 16 (y * vgaWidth + x) >>> 8) &&& 0xFF).setWidth 8 : Byte)).toNat * 256 +
        ((BitVec.ofNat 16 (y * vgaWidth + x) &&& 0xFF).setWidth 8 : Byte).toNat := rfl
  rw [hregister, hlow, hlow, BitVec.toNat_ushiftRight, BitVec.toNat_ofNat, Nat.mod_eq_of_lt h,
    Nat.shiftRight_eq_div_pow]
  omega

end Cursor

/-! ### Loops over the cells -/

/-- How many cells there are. -/
def vgaCells : ℕ := vgaHeight * vgaWidth

/-- `t'` is `t` with these cells, after stores to cells of the screen only. -/
structure Painted (cell : ℕ → BitVec 16) (t t' : Terminal) : Prop where
  row_eq : t'.row = t.row
  column_eq : t'.column = t.column
  color_eq : t'.color = t.color
  crtc_eq : t'.crtc = t.crtc
  buffer_eq : ∀ i, t'.buffer i = cell i
  stores_lt : (∀ i ∈ t.stores, i < vgaCells) → ∀ i ∈ t'.stores, i < vgaCells

namespace Painted

variable {cell cell' : ℕ → BitVec 16} {t t' t'' : Terminal}

/-- A terminal is painted with its own cells. -/
theorem refl (t : Terminal) : Painted t.buffer t t :=
  ⟨rfl, rfl, rfl, rfl, fun _ => rfl, fun h => h⟩

/-- Painting twice is painting with the cells of the second time. -/
theorem trans (h : Painted cell t t') (h' : Painted cell' t' t'') : Painted cell' t t'' where
  row_eq := h'.row_eq.trans h.row_eq
  column_eq := h'.column_eq.trans h.column_eq
  color_eq := h'.color_eq.trans h.color_eq
  crtc_eq := h'.crtc_eq.trans h.crtc_eq
  buffer_eq := h'.buffer_eq
  stores_lt hs := h'.stores_lt (h.stores_lt hs)

/-- Painting with the same cells is the same. -/
theorem congr (h : Painted cell t t') (hcell : ∀ i, cell i = cell' i) : Painted cell' t t' :=
  ⟨h.row_eq, h.column_eq, h.color_eq, h.crtc_eq, fun i => (h.buffer_eq i).trans (hcell i),
    h.stores_lt⟩

/-- Painting leaves the blank of the current colour. -/
theorem blank_eq (h : Painted cell t t') : t'.blank = t.blank := by
  unfold Terminal.blank
  rw [h.color_eq]

/-- A store to a cell of the screen. -/
theorem store (h : Painted cell t t') {index : ℕ} (hlt : index < vgaCells) (entry : BitVec 16) :
    Painted (Function.update cell index entry) t (t'.store index entry) where
  row_eq := h.row_eq
  column_eq := h.column_eq
  color_eq := h.color_eq
  crtc_eq := h.crtc_eq
  buffer_eq i := by
    change Function.update t'.buffer index entry i = Function.update cell index entry i
    rw [funext h.buffer_eq]
  stores_lt hs i hi := by
    rcases List.mem_cons.mp hi with rfl | hi
    · exact hlt
    · exact h.stores_lt hs i hi

end Painted

section Loops

variable {t : Terminal} {f : ℕ → ℕ} {l n b : ℕ}

/-- A loop that blanks the cells from `b` on, whatever its counter starts at. -/
theorem fill_painted (hf : ∀ k, k < n → f (l + k) = b + k) (hle : b + n ≤ vgaCells) :
    Painted (fun i => if b ≤ i ∧ i < b + n then t.blank else t.buffer i) t
      (forLoop (fun i t => t.store (f i) t.blank) l n t) := by
  -- after `k` rounds the first `k` cells are blank
  refine forLoop_induction (fun k t' =>
    Painted (fun i => if b ≤ i ∧ i < b + k then t.blank else t.buffer i) t t') ?_ ?_
  · exact (Painted.refl t).congr fun i => by rw [if_neg (by omega)]
  · intro k t' hk ht
    rw [hf k hk, ht.blank_eq]
    refine (ht.store (show b + k < vgaCells by omega) t.blank).congr fun i => ?_
    by_cases hi : i = b + k
    · rw [hi, Function.update_self, if_pos (by omega)]
    · rw [Function.update_of_ne hi]
      exact if_congr (by omega) rfl rfl

/-- Clearing paints every cell of the screen blank. -/
theorem blankAll_painted (t : Terminal) :
    Painted (fun i => if i < vgaCells then t.blank else t.buffer i) t (blankAll t) := by
  unfold blankAll
  -- after `k` rows
  refine forLoop_induction
    (fun k t' => Painted (fun i => if i < k * vgaWidth then t.blank else t.buffer i) t t') ?_ ?_
  · exact (Painted.refl t).congr fun i => by rw [Nat.zero_mul, if_neg (Nat.not_lt_zero i)]
  · intro k t' hk ht
    have hmul : (k + 1) * vgaWidth = k * vgaWidth + vgaWidth := Nat.succ_mul k vgaWidth
    have hle : (k + 1) * vgaWidth ≤ vgaCells := Nat.mul_le_mul_right vgaWidth hk
    have hrow := fill_painted (t := t') (f := fun x => (0 + k) * vgaWidth + x) (l := 0)
      (b := k * vgaWidth) (n := vgaWidth) (fun x _ => by rw [Nat.zero_add, Nat.zero_add])
      (hmul ▸ hle)
    refine (ht.trans hrow).congr fun i => ?_
    rw [ht.blank_eq, ht.buffer_eq, hmul]
    split
    · rw [if_pos (by omega)]
    · split
      · rw [if_pos (by omega)]
      · rw [if_neg (by omega)]

/-- Row `k + 1` is copied onto row `k`; the copy reads no cell it has stored to. -/
theorem copyRow_painted {k : ℕ} (hk : k + 1 < vgaHeight) :
    Painted (fun i => if k * vgaWidth ≤ i ∧ i < (k + 1) * vgaWidth then t.buffer (i + vgaWidth)
      else t.buffer i) t (copyRow (k + 1) t) := by
  have hmul : (k + 1) * vgaWidth = k * vgaWidth + vgaWidth := Nat.succ_mul k vgaWidth
  have hmul' : (k + 1 + 1) * vgaWidth = (k + 1) * vgaWidth + vgaWidth := Nat.succ_mul _ _
  have hle : (k + 1 + 1) * vgaWidth ≤ vgaCells := Nat.mul_le_mul_right vgaWidth hk
  rw [hmul]
  refine forLoop_induction (fun x t' => Painted (fun i => if k * vgaWidth ≤ i ∧ i < k * vgaWidth + x
    then t.buffer (i + vgaWidth) else t.buffer i) t t') ?_ ?_
  · exact (Painted.refl t).congr fun i => by rw [if_neg (by omega)]
  · intro x t' hx ht
    have hindex : k * vgaWidth + x < vgaCells := by omega
    rw [Nat.zero_add]
    refine (ht.store hindex (t'.buffer ((k + 1) * vgaWidth + x))).congr fun i => ?_
    by_cases hi : i = k * vgaWidth + x
    · have hsource : k * vgaWidth + x + vgaWidth = (k + 1) * vgaWidth + x := by omega
      rw [hi, Function.update_self, if_pos (by omega), ht.buffer_eq, if_neg (by omega), hsource]
    · rw [Function.update_of_ne hi]
      exact if_congr (by omega) rfl rfl

/-- The rows are copied upwards one after the other, each from a row still in place. -/
theorem copyRows_painted (t : Terminal) :
    Painted (fun i => if i + vgaWidth < vgaCells then t.buffer (i + vgaWidth) else t.buffer i) t
      (forLoop copyRow 1 (vgaHeight - 1) t) := by
  have hall : ∀ i, i < (vgaHeight - 1) * vgaWidth ↔ i + vgaWidth < vgaCells := by
    intro i
    change i < 1920 ↔ i + 80 < 2000
    omega
  simp only [← hall]
  refine forLoop_induction (fun k t' => Painted (fun i => if i < k * vgaWidth
    then t.buffer (i + vgaWidth) else t.buffer i) t t') ?_ ?_
  · exact (Painted.refl t).congr fun i => by rw [Nat.zero_mul, if_neg (Nat.not_lt_zero i)]
  · intro k t' hk ht
    have hmul : (k + 1) * vgaWidth = k * vgaWidth + vgaWidth := Nat.succ_mul k vgaWidth
    rw [Nat.add_comm 1 k]
    refine (ht.trans (copyRow_painted (t := t') (Nat.add_lt_of_lt_sub hk))).congr fun i => ?_
    rw [ht.buffer_eq, ht.buffer_eq]
    by_cases hdone : i < k * vgaWidth
    · rw [if_neg (by omega), if_pos hdone, if_pos (by omega)]
    · by_cases hrow : i < (k + 1) * vgaWidth
      · rw [if_pos ⟨Nat.le_of_not_lt hdone, hrow⟩, if_neg (by omega), if_pos hrow]
      · rw [if_neg (by omega), if_neg hdone, if_neg hrow]

/-- Scrolling moves every row up and blanks the last one. -/
theorem terminalScroll_painted (t : Terminal) :
    Painted (fun i => if i + vgaWidth < vgaCells then t.buffer (i + vgaWidth)
      else if i < vgaCells then t.blank else t.buffer i) t (terminalScroll t) := by
  have hrows := copyRows_painted t
  have hlast := fill_painted (t := forLoop copyRow 1 (vgaHeight - 1) t) (l := 0)
    (f := fun x => (vgaHeight - 1) * vgaWidth + x) (b := (vgaHeight - 1) * vgaWidth)
    (n := vgaWidth) (fun x _ => by rw [Nat.zero_add]) (by decide)
  have hlow : ∀ i, (vgaHeight - 1) * vgaWidth ≤ i ∧ i < (vgaHeight - 1) * vgaWidth + vgaWidth ↔
      ¬ i + vgaWidth < vgaCells ∧ i < vgaCells := by
    intro i
    change 1920 ≤ i ∧ i < 2000 ↔ ¬ i + 80 < 2000 ∧ i < 2000
    omega
  unfold terminalScroll
  refine (hrows.trans hlast).congr fun i => ?_
  rw [hrows.blank_eq, hrows.buffer_eq, if_congr (hlow i) rfl rfl]
  by_cases hup : i + vgaWidth < vgaCells
  · rw [if_neg fun h => h.1 hup, if_pos hup, if_pos hup]
  · by_cases hin : i < vgaCells
    · rw [if_pos ⟨hup, hin⟩, if_neg hup, if_pos hin]
    · rw [if_neg fun h => hin h.2, if_neg hup, if_neg hup, if_neg hin]

end Loops

/-! ### The invariant of the terminal -/

/-- The cursor is on the screen and every store so far was to one of its cells. -/
structure Terminal.OnScreen (t : Terminal) : Prop where
  row_lt : t.row < vgaHeight
  column_lt : t.column < vgaWidth
  stores_lt : ∀ i ∈ t.stores, i < vgaCells

/-- The cursor registers say where the cursor is. -/
structure Terminal.Valid (t : Terminal) : Prop extends t.OnScreen where
  cursor_eq : t.crtc.cursor = t.pos

section Valid

variable {t t' : Terminal} {cell : ℕ → BitVec 16}

/-- A cursor on the screen stands on one of its cells. -/
theorem Terminal.OnScreen.pos_lt (h : t.OnScreen) : t.pos < vgaCells := by
  have hrow := h.row_lt
  have hcolumn := h.column_lt
  unfold Terminal.pos vgaCells
  unfold vgaHeight vgaWidth at *
  omega

/-- Painting leaves the cursor on the screen. -/
theorem Painted.onScreen (hp : Painted cell t t') (h : t.OnScreen) : t'.OnScreen :=
  ⟨hp.row_eq ▸ h.row_lt, hp.column_eq ▸ h.column_lt, hp.stores_lt h.stores_lt⟩

/-- Painting leaves the cursor and its registers as they were. -/
theorem Painted.valid (hp : Painted cell t t') (h : t.Valid) : t'.Valid where
  toOnScreen := hp.onScreen h.toOnScreen
  cursor_eq := by
    unfold Terminal.pos
    rw [hp.crtc_eq, hp.row_eq, hp.column_eq]
    exact h.cursor_eq

/-- Every routine that moves the cursor ends by sending its place to the registers. -/
theorem Terminal.OnScreen.update (h : t.OnScreen) :
    (terminalUpdateCursor t.column t.row t).Valid where
  row_lt := h.row_lt
  column_lt := h.column_lt
  stores_lt := h.stores_lt
  cursor_eq := terminalUpdateCursor_cursor (lt_trans h.pos_lt (by decide))

/-- Any place on the screen will do. -/
theorem Terminal.OnScreen.move (h : t.OnScreen) {row column : ℕ} (hrow : row < vgaHeight)
    (hcolumn : column < vgaWidth) : { t with row := row, column := column }.OnScreen :=
  ⟨hrow, hcolumn, h.stores_lt⟩

/-- A character is painted into the cell of the cursor. -/
theorem putentryat_painted (h : t.OnScreen) (c color : Byte) :
    Painted (Function.update t.buffer t.pos (vgaEntry c color)) t
      (terminalPutentryat c color t.column t.row t) :=
  (Painted.refl t).store h.pos_lt _

/-- The next row is on the screen, if need be after scrolling. -/
theorem nextRow_onScreen (h : t.OnScreen) : (nextRow t).OnScreen := by
  have hrow := h.row_lt
  have hscroll := terminalScroll_painted { t with row := t.row + 1 }
  unfold nextRow
  dsimp only
  split
  · exact ⟨show vgaHeight - 1 < vgaHeight by decide, hscroll.column_eq.trans_lt h.column_lt,
      hscroll.stores_lt h.stores_lt⟩
  · exact ⟨show t.row + 1 < vgaHeight by omega, h.column_lt, h.stores_lt⟩

/-- A character leaves the terminal valid. -/
theorem terminalPutcharRaw_valid (h : t.OnScreen) (c : Byte) : (terminalPutcharRaw c t).Valid := by
  unfold terminalPutcharRaw
  split
  · exact (nextRow_onScreen (h.move h.row_lt (by decide))).update
  · have hput := (putentryat_painted h c t.color).onScreen h
    have hcolumn := hput.column_lt
    dsimp only
    split
    · exact (nextRow_onScreen (hput.move hput.row_lt (by decide))).update
    · next hne =>
      exact Terminal.OnScreen.update
        (hput.move hput.row_lt (lt_of_le_of_ne hput.column_lt hne))

/-- Clearing leaves the terminal valid. -/
theorem terminalClear_valid (h : t.OnScreen) : (terminalClear t).Valid :=
  (((blankAll_painted t).onScreen h).move (by decide) (by decide)).update

/-- Placing the cursor leaves the terminal valid, wherever it is asked to go. -/
theorem terminalSetCursor_valid (h : t.OnScreen) (x y : ℕ) : (terminalSetCursor x y t).Valid := by
  have hx : (if x ≥ vgaWidth then vgaWidth - 1 else x) < vgaWidth := by
    split
    · decide
    · omega
  have hy : (if y ≥ vgaHeight then vgaHeight - 1 else y) < vgaHeight := by
    split
    · decide
    · omega
  exact (h.move hy hx).update

/-- The position is clamped to the screen and split into row and column. -/
theorem terminalMoveCursor_eq (t : Terminal) (offset : ℤ) :
    ∃ n, n < vgaCells ∧ (∀ m : ℕ, t.pos + offset = m → m < vgaCells → n = m) ∧
      terminalMoveCursor offset t = terminalUpdateCursor (n % vgaWidth) (n / vgaWidth)
        { t with row := n / vgaWidth, column := n % vgaWidth } := by
  have hclamp : ∀ p : ℤ, ∃ n : ℕ, n < vgaCells ∧ (∀ m : ℕ, p = m → m < vgaCells → n = m) ∧
      (if (if p < 0 then 0 else p) ≥ (vgaWidth : ℤ) * vgaHeight then (vgaWidth : ℤ) * vgaHeight - 1
        else if p < 0 then 0 else p) = n := by
    intro p
    simp only [show vgaCells = 2000 from rfl, show (vgaWidth : ℤ) * vgaHeight = 2000 from rfl]
    refine ⟨(if (if p < 0 then 0 else p) ≥ 2000 then 2000 - 1 else if p < 0 then 0 else p).toNat,
      ?_, ?_, ?_⟩
    · split <;> split at * <;> omega
    · intro m hm hlt
      split <;> split at * <;> omega
    · split <;> split at * <;> omega
  obtain ⟨n, hn, hexact, heq⟩ := hclamp (t.pos + offset)
  refine ⟨n, hn, hexact, ?_⟩
  unfold terminalMoveCursor
  dsimp only
  change _ = (n : ℤ) at heq
  rw [show ((t.row * vgaWidth + t.column : ℕ) : ℤ) = t.pos from rfl, heq,
    Int.tdiv_eq_ediv_of_nonneg (Int.natCast_nonneg n), Int.tmod_eq_emod_of_nonneg
    (Int.natCast_nonneg n)]
  norm_cast

/-- Moving the cursor leaves the terminal valid, however far it is asked to go. -/
theorem terminalMoveCursor_valid (h : t.OnScreen) (offset : ℤ) :
    (terminalMoveCursor offset t).Valid := by
  obtain ⟨n, hn, -, heq⟩ := terminalMoveCursor_eq t offset
  rw [heq]
  exact (h.move (Nat.div_lt_of_lt_mul (by rwa [Nat.mul_comm])) (Nat.mod_lt n (by decide))).update

/-- The cells in front of the cursor are painted blank. -/
theorem terminalClearUntilCursor_painted (h : t.OnScreen) :
    Painted (fun i => if i < t.pos then t.blank else t.buffer i) t
      (terminalClearUntilCursor t) := by
  have hpos := h.pos_lt
  have hfill : Painted (fun i => if 0 ≤ i ∧ i < 0 + t.pos then t.blank else t.buffer i) t
      (terminalClearUntilCursor t) :=
    fill_painted (f := id) (fun _ _ => rfl) (by omega)
  refine hfill.congr fun i => if_congr ?_ rfl rfl
  omega

/-- The cells from the cursor on are painted blank. -/
theorem terminalClearAfterCursor_painted (h : t.OnScreen) :
    Painted (fun i => if t.pos ≤ i ∧ i < vgaCells then t.blank else t.buffer i) t
      (terminalClearAfterCursor t) := by
  have hpos := h.pos_lt
  have hfill := fill_painted (t := t) (f := id) (l := t.pos) (b := t.pos) (n := vgaCells - t.pos)
    (fun _ _ => rfl) (by omega)
  refine hfill.congr fun i => if_congr ?_ rfl rfl
  omega

/-- A colour leaves the terminal valid. -/
theorem terminalSetcolor_valid (h : t.Valid) (color : Byte) : (terminalSetcolor color t).Valid :=
  ⟨⟨h.row_lt, h.column_lt, h.stores_lt⟩, h.cursor_eq⟩

/-- Enabling the cursor leaves it on the screen. -/
theorem terminalEnableCursor_onScreen (h : t.OnScreen) (cursorStart cursorEnd : Byte) :
    (terminalEnableCursor cursorStart cursorEnd t).OnScreen :=
  ⟨h.row_lt, h.column_lt, h.stores_lt⟩

/-- Sending the cursor changes the registers alone. -/
theorem terminalUpdateCursor_eq (x y : ℕ) (t : Terminal) :
    ∃ crtc, terminalUpdateCursor x y t = { t with crtc := crtc } :=
  ⟨(terminalUpdateCursor x y t).crtc, rfl⟩

/-- Enabling the cursor changes the registers alone. -/
theorem terminalEnableCursor_eq (cursorStart cursorEnd : Byte) (t : Terminal) :
    ∃ crtc, terminalEnableCursor cursorStart cursorEnd t = { t with crtc := crtc } :=
  ⟨(terminalEnableCursor cursorStart cursorEnd t).crtc, rfl⟩

/-- Once the screen is blank, only the registers are written. -/
theorem terminalInitialize_eq (t : Terminal) : ∃ crtc, terminalInitialize t =
    { blankAll { t with row := 0, column := 0, color := vgaEntryColor 7 0 } with
      crtc := crtc } := by
  unfold terminalInitialize
  dsimp only
  generalize blankAll { t with row := 0, column := 0, color := vgaEntryColor 7 0 } = t'
  obtain ⟨crtc, henable⟩ := terminalEnableCursor_eq 0 15 t'
  rw [henable]
  exact terminalUpdateCursor_eq _ _ { t' with crtc := crtc }

/-- After `terminal_initialize` the terminal is valid. -/
theorem terminalInitialize_valid (h : ∀ i ∈ t.stores, i < vgaCells) :
    (terminalInitialize t).Valid := by
  have hstart : { t with row := 0, column := 0, color := vgaEntryColor 7 0 }.OnScreen :=
    ⟨show 0 < vgaHeight by decide, show 0 < vgaWidth by decide, h⟩
  have hblank := (blankAll_painted _).onScreen hstart
  exact (terminalEnableCursor_onScreen hblank 0 15).update

end Valid

/-! ### The terminal as a scrolling screen -/

/-- The cells and the cursor's place, as a screen. -/
def Terminal.screen (t : Terminal) : Screen (BitVec 16) := ⟨t.buffer, t.pos⟩

/-- Sending the cursor to its registers leaves the screen. -/
@[simp] theorem terminalUpdateCursor_screen (x y : ℕ) (t : Terminal) :
    (terminalUpdateCursor x y t).screen = t.screen := rfl

/-- The terminal shows the rows of the page from `top` on. -/
def Terminal.ShowsPage (t : Terminal) (top : ℕ) (page : Page (BitVec 16)) : Prop :=
  Shows vgaWidth vgaHeight t.blank top t.screen page

/-- What a character does to the page. -/
def writePage (color : Byte) (page : Page (BitVec 16)) (c : Byte) : Page (BitVec 16) :=
  if c = byte '\n' then page.newline vgaWidth else page.put (vgaEntry c color)

section Screen

variable {t : Terminal} {c : Byte} {top : ℕ} {page : Page (BitVec 16)}

/-- The next row is in the colour of the last. -/
theorem nextRow_color (t : Terminal) : (nextRow t).color = t.color := by
  have hscroll := terminalScroll_painted { t with row := t.row + 1 }
  unfold nextRow
  dsimp only
  split
  · exact hscroll.color_eq
  · rfl

/-- A character leaves the colour. -/
theorem terminalPutcharRaw_color (c : Byte) (t : Terminal) :
    (terminalPutcharRaw c t).color = t.color := by
  unfold terminalPutcharRaw
  split
  · dsimp only
    rw [terminalUpdateCursor_color, nextRow_color]
  · dsimp only
    split
    · rw [terminalUpdateCursor_color, nextRow_color]
      rfl
    · rfl

/-- Going to the next row leaves the column. -/
theorem nextRow_column (t : Terminal) : (nextRow t).column = t.column := by
  have hscroll := terminalScroll_painted { t with row := t.row + 1 }
  unfold nextRow
  dsimp only
  split
  · exact hscroll.column_eq
  · rfl

/-- A printed character moves the cursor one column on. -/
theorem terminalPutcharRaw_column (h : t.column < vgaWidth) (hc : c ≠ byte '\n') :
    (terminalPutcharRaw c t).column = (t.column + 1) % vgaWidth := by
  unfold terminalPutcharRaw
  rw [if_neg hc]
  dsimp only
  split
  · next hlast =>
    change t.column + 1 = vgaWidth at hlast
    rw [terminalUpdateCursor_column, nextRow_column, hlast, Nat.mod_self]
  · next hlast =>
    change ¬ t.column + 1 = vgaWidth at hlast
    rw [Nat.mod_eq_of_lt (lt_of_le_of_ne h hlast)]
    rfl

/-- A text without a newline moves the column by its length, line after line. -/
theorem foldl_putcharRaw_column {text : List Byte} (h : t.column < vgaWidth)
    (hline : byte '\n' ∉ text) :
    (text.foldl (fun t c => terminalPutcharRaw c t) t).column =
      (t.column + text.length) % vgaWidth := by
  induction text generalizing t with
  | nil => exact (Nat.mod_eq_of_lt h).symm
  | cons c text ih =>
    have hstep := terminalPutcharRaw_column h (List.ne_of_not_mem_cons hline).symm
    have hlt : (terminalPutcharRaw c t).column < vgaWidth := hstep ▸ Nat.mod_lt _ (by decide)
    rw [List.foldl_cons, ih hlt (List.not_mem_of_not_mem_cons hline), hstep, Nat.mod_add_mod,
      List.length_cons, Nat.add_assoc, Nat.add_comm 1]

/-- Going to the next row is settling. -/
theorem nextRow_agrees (hrow : t.row < vgaHeight) (hcolumn : t.column = 0) :
    Screen.Agrees vgaWidth vgaHeight
      (Screen.settle vgaWidth vgaHeight t.blank ⟨t.buffer, (t.row + 1) * vgaWidth⟩)
      (nextRow t).screen := by
  have hscroll := terminalScroll_painted { t with row := t.row + 1 }
  unfold nextRow Screen.settle
  dsimp only
  by_cases hlast : t.row + 1 = vgaHeight
  · rw [if_pos hlast, if_neg (by rw [hlast]; exact Nat.lt_irrefl _)]
    constructor
    case pos_eq =>
      change (vgaHeight - 1) * vgaWidth + (terminalScroll _).column =
        (t.row + 1) * vgaWidth - vgaWidth
      rw [hscroll.column_eq, hcolumn, hlast]
      decide
    case cell_eq =>
      intro i hi
      change (terminalScroll _).buffer i = _
      rw [hscroll.buffer_eq]
      dsimp only
      change (if i + vgaWidth < vgaCells then t.buffer (i + vgaWidth)
        else if i < vgaCells then t.blank else t.buffer i) =
          if i + vgaWidth < vgaCells then t.buffer (i + vgaWidth) else t.blank
      rw [if_pos (show i < vgaCells from hi)]
  · have hlt : (t.row + 1) * vgaWidth < vgaHeight * vgaWidth :=
      Nat.mul_lt_mul_of_pos_right (by omega) (by decide)
    rw [if_neg hlast, if_pos hlt]
    refine ⟨?_, fun i _ => rfl⟩
    change (t.row + 1) * vgaWidth + t.column = (t.row + 1) * vgaWidth
    rw [hcolumn, Nat.add_zero]

/-- A newline starts a new line of the screen. -/
theorem terminalPutcharRaw_newline (h : t.OnScreen) :
    Screen.Agrees vgaWidth vgaHeight (t.screen.newline vgaWidth vgaHeight t.blank)
      (terminalPutcharRaw (byte '\n') t).screen := by
  have hnext := nextRow_agrees (t := { t with column := 0 }) h.row_lt rfl
  unfold Screen.newline terminalPutcharRaw
  rw [if_pos rfl, terminalUpdateCursor_screen,
    show t.screen.pos = t.row * vgaWidth + t.column from rfl,
    place_div h.column_lt]
  exact hnext

/-- Every other character is put on the screen in the current colour. -/
theorem terminalPutcharRaw_put (h : t.OnScreen) (hc : c ≠ byte '\n') :
    Screen.Agrees vgaWidth vgaHeight
      (t.screen.put vgaWidth vgaHeight t.blank (vgaEntry c t.color))
      (terminalPutcharRaw c t).screen := by
  unfold Screen.put terminalPutcharRaw
  rw [if_neg hc, terminalUpdateCursor_screen]
  split
  · next hlast =>
    change t.column + 1 = vgaWidth at hlast
    have hpos : t.screen.pos + 1 = (t.row + 1) * vgaWidth := by
      change t.row * vgaWidth + t.column + 1 = (t.row + 1) * vgaWidth
      rw [Nat.succ_mul]
      omega
    have hnext := nextRow_agrees
      (t := { terminalPutentryat c t.color t.column t.row t with column := 0 }) h.row_lt rfl
    rw [hpos]
    exact hnext
  · next hne =>
    change ¬ t.column + 1 = vgaWidth at hne
    have hlt : t.screen.pos + 1 < vgaHeight * vgaWidth := by
      have hcolumn := h.column_lt
      have hrow : (t.row + 1) * vgaWidth ≤ vgaHeight * vgaWidth :=
        Nat.mul_le_mul_right _ h.row_lt
      change t.row * vgaWidth + t.column + 1 < vgaHeight * vgaWidth
      rw [Nat.succ_mul] at hrow
      omega
    unfold Screen.settle
    rw [if_pos hlt]
    exact ⟨rfl, fun i _ => rfl⟩

/-- Printing a character writes it to the page that is shown. -/
theorem Terminal.ShowsPage.putcharRaw (h : t.OnScreen) (hs : t.ShowsPage top page) (c : Byte) :
    (terminalPutcharRaw c t).ShowsPage (topFor vgaWidth vgaHeight top (writePage t.color page c))
      (writePage t.color page c) := by
  have hblank : (terminalPutcharRaw c t).blank = t.blank :=
    congrArg (vgaEntry (byte ' ')) (terminalPutcharRaw_color c t)
  unfold Terminal.ShowsPage writePage
  rw [hblank]
  split
  · next hc =>
    subst hc
    exact (Shows.newline (by decide) (by decide) hs).congr (terminalPutcharRaw_newline h)
  · next hc => exact (Shows.put (by decide) (by decide) hs _).congr (terminalPutcharRaw_put h hc)

/-- Moving the cursor to a cell in view is seeking its place on the page. -/
theorem Terminal.ShowsPage.moveCursor (hs : t.ShowsPage top page) {offset : ℤ} {n : ℕ}
    (hn : t.pos + offset = n) (hlt : n < vgaCells) :
    (terminalMoveCursor offset t).ShowsPage top (page.seek (top * vgaWidth + n)) := by
  obtain ⟨m, hm, hexact, heq⟩ := terminalMoveCursor_eq t offset
  obtain rfl := hexact n hn hlt
  rw [heq]
  refine Shows.congr (Shows.seek hs hlt) ⟨?_, fun _ _ => rfl⟩
  exact Nat.div_add_mod' m vgaWidth

/-- Where the cursor is before the blank is put. -/
theorem backspace_place (h : t.OnScreen) :
    ∃ row column, row < vgaHeight ∧ column < vgaWidth ∧
      row * vgaWidth + column = t.pos - 1 ∧
      (if t.column > 0 then { t with column := t.column - 1 }
        else if t.row > 0 then { t with row := t.row - 1, column := 79 } else t) =
      { t with row := row, column := column } := by
  have hrow := h.row_lt
  have hcolumn := h.column_lt
  unfold Terminal.pos
  by_cases hc : t.column > 0
  · rw [if_pos hc]
    exact ⟨t.row, t.column - 1, hrow, by omega, by omega, rfl⟩
  · rw [if_neg hc]
    by_cases hr : t.row > 0
    · rw [if_pos hr]
      have hmul : (t.row - 1 + 1) * vgaWidth = (t.row - 1) * vgaWidth + vgaWidth :=
        Nat.succ_mul _ _
      rw [Nat.sub_add_cancel hr] at hmul
      have hwidth : vgaWidth = 79 + 1 := rfl
      exact ⟨t.row - 1, 79, by omega, by decide, by omega, rfl⟩
    · rw [if_neg hr]
      exact ⟨t.row, t.column, hrow, hcolumn, by rw [Nat.eq_zero_of_not_pos hr]; omega, rfl⟩

/-- A backspace blanks the cell in front of the cursor and moves there. -/
theorem terminalBackspace_eq (h : t.OnScreen) :
    ∃ row column, row < vgaHeight ∧ column < vgaWidth ∧
      row * vgaWidth + column = t.pos - 1 ∧
      terminalBackspace t = terminalUpdateCursor column row
        { t with row := row, column := column
                 buffer := Function.update t.buffer (t.pos - 1) t.blank
                 stores := (t.pos - 1) :: t.stores } := by
  obtain ⟨row, column, hrow, hcolumn, hpos, heq⟩ := backspace_place h
  refine ⟨row, column, hrow, hcolumn, hpos, ?_⟩
  unfold terminalBackspace
  dsimp only
  rw [heq, ← hpos]
  rfl

/-- A backspace leaves the terminal valid. -/
theorem terminalBackspace_valid (h : t.OnScreen) : (terminalBackspace t).Valid := by
  obtain ⟨row, column, hrow, hcolumn, hpos, heq⟩ := terminalBackspace_eq h
  rw [heq]
  refine Terminal.OnScreen.update ⟨hrow, hcolumn, fun i hi => ?_⟩
  rcases List.mem_cons.mp hi with rfl | hi
  · have := h.pos_lt
    omega
  · exact h.stores_lt i hi

/-- A backspace is an erase on the page. -/
theorem Terminal.ShowsPage.backspace (h : t.OnScreen) (hs : t.ShowsPage top page)
    (hpos : 0 < t.pos) : (terminalBackspace t).ShowsPage top (page.erase t.blank) := by
  obtain ⟨row, column, -, -, hplace, heq⟩ := terminalBackspace_eq h
  rw [heq]
  exact Shows.congr (Shows.erase hs hpos) ⟨hplace, fun _ _ => rfl⟩

end Screen

end AuriOS
