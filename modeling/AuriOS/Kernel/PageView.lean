import AuriOS.Kernel.Ansi

/-!
# The screen as a view of an unbounded page

Text laid out on a page without end, in rows of 80 characters, and the 25 rows of it that the
screen shows.

* `Sheet.layout`: the ideal page, which never scrolls and never forgets a row;
* `View t s`: the screen of the terminal `t` is the view of the last rows of the sheet `s`, cell by
  cell, and its cursor is the cursor of the sheet;
* `putchars_view`: from a fresh screen and with the parser in its normal state, every text without
  an escape character leaves the view of its layout; `putchars_view_escape` shows that the state of
  the parser matters, because `terminal_clear` leaves it alone.
-/

namespace AuriOS

open Program ScrollPage

/-! ### The ideal page -/

/-- A page in rows of 80 characters; a cell nothing was written to is blank. -/
structure Sheet where
  cell : ℕ → ℕ → Option Byte
  row : ℕ
  column : ℕ

namespace Sheet

/-- A sheet with nothing on it. -/
def empty : Sheet := ⟨fun _ _ => none, 0, 0⟩

/-- A new row begins at a newline and right after the 80th character. -/
def write (s : Sheet) (c : Byte) : Sheet :=
  if c = byte '\n' then { s with row := s.row + 1, column := 0 }
  else
    let cell := fun i j => if i = s.row ∧ j = s.column then some c else s.cell i j
    if s.column + 1 = 80 then ⟨cell, s.row + 1, 0⟩ else ⟨cell, s.row, s.column + 1⟩

/-- The sheet that a text leaves. -/
def layout (text : List Byte) : Sheet := text.foldl write empty

/-- What a cell of the sheet looks like on the screen. -/
def entry (s : Sheet) (color : Byte) (i j : ℕ) : BitVec 16 :=
  vgaEntry ((s.cell i j).getD (byte ' ')) color

end Sheet

/-- The screen shows the last rows of the sheet, and the cursor where it is on the sheet. -/
structure View (t : Terminal) (s : Sheet) : Prop where
  cell_eq : ∀ i j, i < 25 → j < 80 → t.buffer (i * 80 + j) = s.entry t.color (i + (s.row - 24)) j
  row_eq : t.row = min s.row 24
  column_eq : t.column = s.column

/-! ### Sheets and pages -/

/-- The sheet with its rows one after the other. -/
def Sheet.toPage (s : Sheet) (color : Byte) : Page (BitVec 16) where
  cell p := s.entry color (p / vgaWidth) (p % vgaWidth)
  pos := s.row * vgaWidth + s.column

section Sheets

variable {s : Sheet} {c color : Byte} {t : Terminal}

/-- A character leaves the column in the row. -/
theorem Sheet.write_column_lt (h : s.column < vgaWidth) (c : Byte) :
    (s.write c).column < vgaWidth := by
  unfold Sheet.write
  split
  · exact (by decide : 0 < vgaWidth)
  · dsimp only
    split
    · exact (by decide : 0 < vgaWidth)
    · next hne => exact lt_of_le_of_ne h hne

/-- A character never goes back up. -/
theorem Sheet.row_le_write (s : Sheet) (c : Byte) : s.row ≤ (s.write c).row := by
  unfold Sheet.write
  split
  · exact Nat.le_succ _
  · dsimp only
    split
    · exact Nat.le_succ _
    · exact Nat.le_refl _

/-- Writing to the sheet is writing to the page. -/
theorem Sheet.write_toPage (h : s.column < vgaWidth) (c color : Byte) :
    (s.write c).toPage color = writePage color (s.toPage color) c := by
  unfold writePage Sheet.write
  by_cases hc : c = byte '\n'
  · rw [if_pos hc, if_pos hc]
    refine congrArg (Page.mk _) ?_
    change (s.row + 1) * vgaWidth + 0 = ((s.row * vgaWidth + s.column) / vgaWidth + 1) * vgaWidth
    rw [place_div h, Nat.add_zero]
  · rw [if_neg hc, if_neg hc]
    have hcells : (fun p => vgaEntry ((if p / vgaWidth = s.row ∧ p % vgaWidth = s.column then some c
        else s.cell (p / vgaWidth) (p % vgaWidth)).getD (byte ' ')) color) =
        Function.update (s.toPage color).cell (s.row * vgaWidth + s.column) (vgaEntry c color) := by
      funext p
      by_cases hp : p = s.row * vgaWidth + s.column
      · rw [hp, Function.update_self, if_pos ⟨place_div h, place_mod h⟩]
        rfl
      · rw [Function.update_of_ne hp, if_neg]
        · rfl
        · rintro ⟨hrow, hcolumn⟩
          exact hp (by rw [← hrow, ← hcolumn, Nat.div_add_mod'])
    dsimp only
    split
    · next hlast =>
      refine congrArg₂ Page.mk hcells ?_
      change (s.row + 1) * vgaWidth + 0 = s.row * vgaWidth + s.column + 1
      rw [Nat.succ_mul, Nat.add_zero, Nat.add_assoc, hlast]
      rfl
    · exact congrArg₂ Page.mk hcells rfl

/-- The row of the page is the row of the sheet. -/
theorem Sheet.pos_div (h : s.column < vgaWidth) : (s.toPage color).pos / vgaWidth = s.row :=
  place_div h

/-- The terminal shows the sheet from row `row - 24` on, in its own colour. -/
structure ShowsSheet (t : Terminal) (s : Sheet) : Prop where
  onScreen : t.OnScreen
  column_lt : s.column < vgaWidth
  page : t.ShowsPage (s.row - 24) (s.toPage t.color)

/-- One character. -/
theorem ShowsSheet.putcharRaw (h : ShowsSheet t s) (c : Byte) :
    ShowsSheet (terminalPutcharRaw c t) (s.write c) where
  onScreen := (terminalPutcharRaw_valid h.onScreen c).toOnScreen
  column_lt := s.write_column_lt h.column_lt c
  page := by
    have hpage := h.page.putcharRaw h.onScreen c
    rw [← Sheet.write_toPage h.column_lt] at hpage
    have htop : topFor vgaWidth vgaHeight (s.row - 24) ((s.write c).toPage t.color) =
        (s.write c).row - 24 := by
      have hle := s.row_le_write c
      unfold topFor
      rw [Sheet.pos_div (s.write_column_lt h.column_lt c)]
      change max (s.row - 24) ((s.write c).row + 1 - 25) = _
      omega
    rw [htop] at hpage
    rwa [terminalPutcharRaw_color]

/-- A text. -/
theorem ShowsSheet.text (h : ShowsSheet t s) (text : List Byte) :
    ShowsSheet (text.foldl (fun t c => terminalPutcharRaw c t) t) (text.foldl Sheet.write s) := by
  induction text generalizing t s with
  | nil => exact h
  | cons c text ih => exact ih (h.putcharRaw c)

/-- What is shown is the view of the last rows. -/
theorem ShowsSheet.view (h : ShowsSheet t s) : View t s := by
  have hpos := h.page.pos_eq
  have hrow := h.onScreen.row_lt
  have hcolumn := h.onScreen.column_lt
  have hcolumn' := h.column_lt
  change s.row * 80 + s.column = (s.row - 24) * 80 + (t.row * 80 + t.column) at hpos
  change t.row < 25 at hrow
  change t.column < 80 at hcolumn
  change s.column < 80 at hcolumn'
  refine ⟨fun i j hi hj => ?_, by omega, by omega⟩
  have hlt : i * 80 + j < vgaHeight * vgaWidth := by
    change i * 80 + j < 2000
    omega
  refine (h.page.window (i * 80 + j) hlt).trans ?_
  have hplace : (s.row - 24) * vgaWidth + (i * 80 + j) = (i + (s.row - 24)) * vgaWidth + j := by
    change (s.row - 24) * 80 + (i * 80 + j) = (i + (s.row - 24)) * 80 + j
    omega
  change s.entry t.color (((s.row - 24) * vgaWidth + (i * 80 + j)) / vgaWidth)
    (((s.row - 24) * vgaWidth + (i * 80 + j)) % vgaWidth) = _
  rw [hplace, place_div (show j < vgaWidth from hj), place_mod (show j < vgaWidth from hj)]

end Sheets

/-! ### Fresh screens -/

/-- The console right after `terminal_initialize` or `terminal_clear`. -/
inductive FreshScreen : Console → Prop
  | initialized (buffer : ℕ → BitVec 16) (crtc : Crtc) : FreshScreen (Console.initial buffer crtc)
  | cleared {buffer : ℕ → BitVec 16} {crtc : Crtc} {ops : List TerminalOp} {k : Console} :
      terminalRun (Console.initial buffer crtc) ops = .ok k →
      FreshScreen (k.onTerminal terminalClear)

section Fresh

variable {t : Terminal} {k : Console}

/-- A blank screen with the cursor at its beginning shows the empty sheet. -/
theorem showsSheet_empty (h : t.OnScreen) (hrow : t.row = 0) (hcolumn : t.column = 0)
    (hblank : ∀ i, i < vgaCells → t.buffer i = t.blank) : ShowsSheet t Sheet.empty := by
  have hpos : t.pos = 0 := by
    unfold Terminal.pos
    rw [hrow, hcolumn, Nat.zero_mul]
  refine ⟨h, (by decide : 0 < vgaWidth), ?_, ?_, fun i hi => hblank i hi, fun _ _ => rfl⟩
  · change t.pos < vgaHeight * vgaWidth
    rw [hpos]
    decide
  · change 0 * vgaWidth + 0 = 0 * vgaWidth + t.pos
    rw [hpos]

/-- A cleared terminal shows the empty sheet. -/
theorem terminalClear_showsSheet (h : t.OnScreen) :
    ShowsSheet (terminalClear t) Sheet.empty := by
  have hclear := blankAll_painted t
  refine showsSheet_empty (terminalClear_valid h).toOnScreen rfl rfl fun i hi => ?_
  have hblank : (terminalClear t).blank = t.blank :=
    congrArg (vgaEntry (byte ' ')) hclear.color_eq
  rw [hblank]
  exact (hclear.buffer_eq i).trans (if_pos hi)

/-- An initialized terminal shows the empty sheet. -/
theorem terminalInitialize_showsSheet (h : ∀ i ∈ t.stores, i < vgaCells) :
    ShowsSheet (terminalInitialize t) Sheet.empty := by
  have hinit := blankAll_painted { t with row := 0, column := 0, color := vgaEntryColor 7 0 }
  have hvalid := terminalInitialize_valid h
  obtain ⟨crtc, heq⟩ := terminalInitialize_eq t
  rw [heq] at hvalid ⊢
  refine showsSheet_empty hvalid.toOnScreen hinit.row_eq hinit.column_eq fun i hi => ?_
  exact ((hinit.buffer_eq i).trans (if_pos hi)).trans
    (congrArg (vgaEntry (byte ' ')) hinit.color_eq.symm)

/-- A fresh screen shows the empty sheet. -/
theorem FreshScreen.showsSheet (h : FreshScreen k) : ShowsSheet k.terminal Sheet.empty := by
  cases h with
  | initialized buffer crtc =>
    exact terminalInitialize_showsSheet fun _ hi => absurd hi List.not_mem_nil
  | cleared hrun =>
    obtain ⟨k', hrun', hvalid⟩ := terminalRun_ok (Console.initial_valid _ _) _
    obtain rfl := Except.ok.inj (hrun'.symm.trans hrun)
    exact terminalClear_showsSheet hvalid.terminal.toOnScreen

/-- Every text without an escape character, printed on a fresh screen with the parser in its normal
state, leaves exactly the view of the last rows of its layout. -/
theorem putchars_view (h : FreshScreen k) (hstate : k.currentState = .normal) (text : List Byte)
    (hesc : escByte ∉ text) :
    ∃ k', putchars k text = .ok k' ∧ View k'.terminal (Sheet.layout text) :=
  ⟨_, putchars_normal hstate hesc, (h.showsSheet.text text).view⟩

/-- A line printed on the screen that `terminal_initialize` leaves. -/
theorem putchars_view_initialized :
    ∃ k', putchars (Console.initial (fun _ => 0) ⟨0, fun _ => 0⟩) (chars "System ready.\n") =
        .ok k' ∧
      View k'.terminal (Sheet.layout (chars "System ready.\n")) :=
  putchars_view (.initialized _ _) rfl _ (by decide)

/-- After an escape character and a `terminal_clear`, the `a` that is printed next ends the escape
sequence and is not shown. -/
theorem putchars_view_escape :
    ¬ ∀ k, FreshScreen k → ∀ text, escByte ∉ text →
      ∃ k', putchars k text = .ok k' ∧ View k'.terminal (Sheet.layout text) := by
  intro hall
  let start := Console.initial (fun _ => 0) ⟨0, fun _ => 0⟩
  have hrun : terminalRun start [.putchar escByte] = .ok (start.inState .escape) := rfl
  obtain ⟨k', hput, hview⟩ := hall _ (.cleared hrun) [byte 'a'] (by decide)
  have hk' : (((start.inState .escape).onTerminal terminalClear).inState .normal) = k' :=
    Except.ok.inj (Eq.trans rfl hput)
  have hclear := blankAll_painted start.terminal
  have hblank : k'.terminal.buffer 0 = start.terminal.blank := by
    rw [← hk']
    exact (hclear.buffer_eq 0).trans (if_pos (by decide))
  have hshown : k'.terminal.buffer 0 = vgaEntry (byte 'a') k'.terminal.color :=
    hview.cell_eq 0 0 (by decide) (by decide)
  have hchar := congrArg (BitVec.setWidth 8) (hblank.symm.trans hshown)
  rw [Terminal.blank, vgaEntry_char, vgaEntry_char] at hchar
  exact absurd hchar (by decide)

end Fresh

end AuriOS
