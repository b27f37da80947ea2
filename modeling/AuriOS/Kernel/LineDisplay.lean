import AuriOS.Kernel.Navigation

/-!
# The line on the screen

The editor never draws the line as a whole: every key prints, erases and moves from where the cursor
is.  What is on the screen is followed on a page without end (`Page`), of which the screen shows the
last rows.

* `Console.ShowsPage`: the console shows a page, and its parser passes characters on; `print`,
  `move` and `wipe` say what the terminal does to the page;
* `Displays`: the page reads the line from a fixed place on, with the cursor where the editor has
  it;
* `perform_displayed`: every key that edits the line keeps this, and leaves a blank behind a line
  that it shortened;
* `session_plain`: the lines of the history never hold a control character that the editor would
  send to the terminal;
* `editor_display`: the screen shows the line after every key of every sequence.
-/

namespace AuriOS

open Program ScrollPage CommonPrefix

/-! ### Plain texts -/

/-- A text that moves the cursor only to the right: no newline, no escape character. -/
structure PlainText (text : List Byte) : Prop where
  not_esc : escByte ∉ text
  not_newline : byte '\n' ∉ text

/-- The history holds plain texts. -/
structure Recall.Plain (m : Recall) : Prop where
  commands : ∀ command ∈ m.commands, PlainText command
  draft : PlainText m.draft

/-- The line being edited and those of the history are plain. -/
structure Desk.Plain (d : Desk) : Prop where
  line : PlainText d.line.text
  history : d.history.Plain

section Plain

variable {a b line : List Byte} {m : Recall} {d : Desk} {call : KeyCall} {c : Byte}

/-- The empty text is plain. -/
theorem PlainText.nil : PlainText [] := ⟨List.not_mem_nil, List.not_mem_nil⟩

/-- What has only characters of a plain text is plain. -/
theorem PlainText.of_subset (h : PlainText b) (hsub : a ⊆ b) : PlainText a :=
  ⟨fun hm => h.not_esc (hsub hm), fun hm => h.not_newline (hsub hm)⟩

/-- Two plain texts in sequence are plain. -/
theorem PlainText.append (ha : PlainText a) (hb : PlainText b) : PlainText (a ++ b) :=
  ⟨fun hm => (List.mem_append.mp hm).elim ha.not_esc hb.not_esc,
    fun hm => (List.mem_append.mp hm).elim ha.not_newline hb.not_newline⟩

/-- A printable character is plain. -/
theorem Printable.plain (hc : Printable c) : PlainText [c] :=
  ⟨List.mem_singleton.not.mpr (hc.ne (by decide)).symm,
    List.mem_singleton.not.mpr (hc.ne (by decide)).symm⟩

/-- An empty history is plain. -/
theorem Recall.plain_empty : Recall.empty.Plain :=
  ⟨fun _ hm => absurd hm List.not_mem_nil, .nil⟩

/-- The entry that a plain history shows is plain. -/
theorem Recall.Plain.current (h : m.Plain) : PlainText m.current := by
  unfold Recall.current
  split
  · exact h.draft
  · rw [List.getD_eq_getElem?_getD]
    match hget : m.commands[m.cursor - 1]? with
    | none => exact .nil
    | some command => exact h.commands command (List.mem_of_getElem? hget)

/-- A history stays plain while the user navigates from a plain line. -/
theorem Recall.Plain.navigate (h : m.Plain) (hline : PlainText line) (a : ℤ) :
    (m.navigate a line).Plain := by
  unfold Recall.navigate
  split
  · refine ⟨h.commands, ?_⟩
    change PlainText (if m.cursor = 0 then line.take recallLength else m.draft)
    split
    · exact hline.of_subset (List.take_subset _ _)
    · exact h.draft
  · exact ⟨h.commands, h.draft⟩

/-- A history stays plain when a plain line is entered. -/
theorem Recall.Plain.submit (h : m.Plain) (hline : PlainText line) : (m.submit line).Plain := by
  unfold Recall.submit
  split
  · exact h
  · refine ⟨fun command hm => ?_, .nil⟩
    rcases List.mem_cons.mp (List.mem_of_mem_take hm) with rfl | hm
    · exact hline.of_subset (List.take_subset _ _)
    · exact h.commands command hm

/-- A line made of a plain text is plain. -/
theorem plain_atEnd (h : PlainText a) : PlainText (Line.atEnd a).text := by
  rw [atEnd_text]
  exact h.of_subset (List.take_subset _ _)

/-- A plain character keeps the line plain. -/
theorem plain_insert {z : Line} (h : PlainText z.text) (hc : PlainText [c]) :
    PlainText (z.insert c).text := by
  by_cases hlt : z.text.length < 255
  · obtain ⟨hleft, hright⟩ := BoundedZipper.insert_of_lt hlt c
    have hl : PlainText z.left := h.of_subset (List.subset_append_left _ _)
    have hr : PlainText z.right := h.of_subset (List.subset_append_right _ _)
    unfold BoundedZipper.text
    rw [hleft, hright]
    exact (hl.append hc).append hr
  · rwa [BoundedZipper.insert_of_full hlt]

/-- An erase keeps the line plain. -/
theorem plain_erase {z : Line} (h : PlainText z.text) : PlainText z.erase.text :=
  h.of_subset ((List.dropLast_sublist z.left).append (List.Sublist.refl z.right)).subset

/-- Moving left changes no text. -/
theorem moveLeft_text (z : Line) : z.moveLeft.text = z.text := by
  rcases List.eq_nil_or_concat' z.left with hleft | ⟨l, a, hleft⟩
  · rw [BoundedZipper.moveLeft_of_nil hleft]
  · obtain ⟨hleft', hright'⟩ := BoundedZipper.moveLeft_of_append hleft
    unfold BoundedZipper.text
    rw [hleft', hright', hleft, List.append_assoc]
    rfl

/-- Moving right changes no text. -/
theorem moveRight_text (z : Line) : z.moveRight.text = z.text := by
  match hright : z.right with
  | [] => rw [BoundedZipper.moveRight_of_nil hright]
  | a :: r =>
    obtain ⟨hleft', hright'⟩ := BoundedZipper.moveRight_of_cons hright
    unfold BoundedZipper.text
    rw [hleft', hright', hright, List.append_assoc]
    rfl

/-- Tab inserts a part of a name and perhaps a space. -/
theorem plain_completion {names : List (List Byte)} {word ins : List Byte}
    (hnames : ∀ name ∈ names, PlainText name) (h : completion names word = some ins) :
    PlainText ins := by
  have hfound : ∀ name ∈ matching names word, PlainText name :=
    fun name hm => hnames name (List.mem_of_mem_filter hm)
  unfold completion at h
  split at h
  · contradiction
  · split at h
    · contradiction
    · next name hmatching =>
      obtain rfl := Option.some.inj h
      have hname := hfound name (hmatching ▸ List.mem_cons_self)
      exact (hname.of_subset (List.drop_subset _ _)).append
        (Printable.plain ⟨by decide, by decide⟩)
    · next found hnil hsingle =>
      split at h
      · obtain rfl := Option.some.inj h
        match hmatching : matching names word with
        | [] => exact absurd hmatching hnil
        | name :: others =>
          have hname := hfound name (hmatching ▸ List.mem_cons_self)
          have hstarts : commonPrefix (name :: others) <+: name :=
            commonPrefix_prefix_of_mem List.mem_cons_self
          exact hname.of_subset fun _ hm => hstarts.subset (List.drop_subset _ _ hm)
      · contradiction

/-- The names of the commands are plain. -/
theorem commandNames_plain : ∀ name ∈ commandNames, PlainText name := by
  have hnone : ∀ name ∈ commandNames, escByte ∉ name ∧ byte '\n' ∉ name := by decide
  exact fun name hm => ⟨(hnone name hm).1, (hnone name hm).2⟩

/-- A completion keeps the line plain. -/
theorem plain_complete {z : Line} (h : PlainText z.text) :
    PlainText (z.complete commandNames).text := by
  unfold Line.complete
  split
  · exact h
  · next ins hins =>
    have hl : PlainText z.left := h.of_subset (List.subset_append_left _ _)
    exact plain_atEnd (hl.append (plain_completion commandNames_plain hins))

/-- The editor never puts a control character into a line. -/
theorem act_plain (h : d.Plain) (hknown : call.Known) : (d.act call).Plain := by
  cases hknown with
  | printable hc =>
    rw [act_printable d hc]
    exact ⟨plain_insert h.line hc.plain, h.history⟩
  | enter => exact ⟨.nil, h.history.submit h.line⟩
  | backspace => exact ⟨plain_erase h.line, h.history⟩
  | tab => exact ⟨plain_complete h.line, h.history⟩
  | clear => exact ⟨.nil, h.history⟩
  | up =>
    have hm := h.history.navigate h.line 1
    exact ⟨plain_atEnd hm.current, hm⟩
  | down =>
    have hm := h.history.navigate h.line 2
    exact ⟨plain_atEnd hm.current, hm⟩
  | left => exact ⟨(moveLeft_text d.line).symm ▸ h.line, h.history⟩
  | right => exact ⟨(moveRight_text d.line).symm ▸ h.line, h.history⟩

/-- Keys keep the desk plain. -/
theorem acts_plain {calls : List KeyCall} (h : d.Plain) (hknown : ∀ call ∈ calls, call.Known) :
    (calls.foldl Desk.act d).Plain := by
  induction calls generalizing d with
  | nil => exact h
  | cons call calls ih =>
    exact ih (act_plain h (hknown call List.mem_cons_self)) fun c hc =>
      hknown c (List.mem_cons_of_mem _ hc)

/-- In every state that keys lead to, the line and the history are plain. -/
theorem session_plain {W : Type} (commands : Commands W) (buffer : ℕ → BitVec 16) (crtc : Crtc)
    (ops : List TerminalOp) (world : W) (calls : List KeyCall)
    (hknown : ∀ call ∈ calls, call.Known) :
    Completes (fun s => ∃ d, s.Shows d ∧ d.Plain)
      (session commands buffer crtc ops world calls) := by
  rcases session_prompting commands buffer crtc ops world calls hknown with ⟨s, hrun, hs⟩ | hstop
  · exact .of_ok hrun ⟨_, hs, acts_plain ⟨.nil, Recall.plain_empty⟩ hknown⟩
  · exact Or.inr hstop

end Plain

/-! ### Printing, moving and erasing on the page -/

/-- The cells that show a text in this color. -/
def cells (color : Byte) (text : List Byte) : List (BitVec 16) := text.map fun c => vgaEntry c color

/-- A text takes one cell for each of its characters. -/
theorem cells_length (color : Byte) (text : List Byte) : (cells color text).length = text.length :=
  List.length_map _

/-- The cells of two texts follow each other. -/
theorem cells_append (color : Byte) (a b : List Byte) :
    cells color (a ++ b) = cells color a ++ cells color b :=
  List.map_append

/-- The console prints in this color, and its screen shows the page from row `top` on. -/
structure Console.ShowsPage (k : Console) (color : Byte) (top : ℕ) (page : Page (BitVec 16)) :
    Prop where
  normal : k.currentState = .normal
  color_eq : k.terminal.color = color
  onScreen : k.terminal.OnScreen
  shows : k.terminal.ShowsPage top page

section Page

variable {k k₁ : Console} {t : Terminal} {color : Byte} {top p n : ℕ} {page : Page (BitVec 16)}
  {text l : List Byte}

/-- A plain text goes to the page cell by cell. -/
theorem Terminal.ShowsPage.print (h : t.OnScreen) (hs : t.ShowsPage top page)
    (hline : byte '\n' ∉ text) :
    (text.foldl (fun t c => terminalPutcharRaw c t) t).OnScreen ∧
      (text.foldl (fun t c => terminalPutcharRaw c t) t).color = t.color ∧
      (text.foldl (fun t c => terminalPutcharRaw c t) t).ShowsPage
        (topFor vgaWidth vgaHeight top (page.puts (cells t.color text)))
        (page.puts (cells t.color text)) := by
  induction text generalizing t top page with
  | nil =>
    have htop : topFor vgaWidth vgaHeight top page = top :=
      Shows.topFor_of_lt (by decide) hs.pos_eq hs.pos_lt
    refine ⟨h, rfl, ?_⟩
    change t.ShowsPage (topFor vgaWidth vgaHeight top page) page
    rwa [htop]
  | cons c text ih =>
    have hc : c ≠ byte '\n' := (List.ne_of_not_mem_cons hline).symm
    have hput := hs.putcharRaw h c
    have hwrite : writePage t.color page c = page.put (vgaEntry c t.color) := if_neg hc
    rw [hwrite] at hput
    obtain ⟨hscreen, hcolor, hshows⟩ := ih (terminalPutcharRaw_valid h c).toOnScreen hput
      (List.not_mem_of_not_mem_cons hline)
    rw [terminalPutcharRaw_color] at hcolor hshows
    refine ⟨hscreen, hcolor, ?_⟩
    rw [topFor_topFor] at hshows
    · exact hshows
    · rw [Page.puts_pos]
      exact Nat.le_add_right _ _

/-- Printing a plain text puts its cells on the page. -/
theorem Console.ShowsPage.print (hk : k.ShowsPage color top page) (hplain : PlainText text)
    (hprint : putchars k text = .ok k₁) :
    k₁.ShowsPage color (topFor vgaWidth vgaHeight top (page.puts (cells color text)))
      (page.puts (cells color text)) := by
  rw [putchars_normal hk.normal hplain.not_esc] at hprint
  obtain rfl := Except.ok.inj hprint
  obtain ⟨hscreen, hcolor, hshows⟩ := hk.shows.print hk.onScreen hplain.not_newline
  rw [hk.color_eq] at hcolor hshows
  exact ⟨hk.normal, hcolor, hscreen, hshows⟩

/-- The cursor of the page is on the screen. -/
theorem Console.ShowsPage.pos_lt (hk : k.ShowsPage color top page) :
    page.pos < (top + vgaHeight) * vgaWidth := by
  rw [hk.shows.pos_eq, Nat.add_mul]
  exact Nat.add_lt_add_left hk.shows.pos_lt _

/-- Moving the cursor to a cell in view is seeking its place on the page. -/
theorem Console.ShowsPage.move (hk : k.ShowsPage color top page) {offset : ℤ}
    (hn : (page.pos : ℤ) + offset = n) (hle : top * vgaWidth ≤ n)
    (hlt : n < (top + vgaHeight) * vgaWidth) :
    (k.onTerminal (terminalMoveCursor offset)).ShowsPage color top (page.seek n) := by
  have hpos : page.pos = top * vgaWidth + k.terminal.pos := hk.shows.pos_eq
  rw [Nat.add_mul] at hlt
  have hplace : (k.terminal.pos : ℤ) + offset = (n - top * vgaWidth : ℕ) := by omega
  have hshows := hk.shows.moveCursor hplace (Nat.sub_lt_left_of_lt_add hle hlt)
  rw [Nat.add_sub_cancel' hle] at hshows
  refine ⟨hk.normal, ?_, (terminalMoveCursor_valid hk.onScreen offset).toOnScreen, hshows⟩
  obtain ⟨m, -, -, heq⟩ := terminalMoveCursor_eq k.terminal offset
  change (terminalMoveCursor offset k.terminal).color = color
  rw [heq]
  exact hk.color_eq

/-- Backspaces wipe that many cells of the page. -/
theorem Console.ShowsPage.wipe (hk : k.ShowsPage color top page)
    (hle : top * vgaWidth + n ≤ page.pos) :
    (k.onTerminal (backspaces n)).ShowsPage color top
      (page.wipe (vgaEntry (byte ' ') color) n) := by
  -- after `j` backspaces the page is wiped that far
  obtain ⟨hscreen, hcolor, hshows⟩ : (backspaces n k.terminal).OnScreen ∧
      (backspaces n k.terminal).color = color ∧
      (backspaces n k.terminal).ShowsPage top (page.wipe (vgaEntry (byte ' ') color) n) := by
    refine forLoop_induction (fun j (t : Terminal) => t.OnScreen ∧ t.color = color ∧
      t.ShowsPage top (page.wipe (vgaEntry (byte ' ') color) j)) ?_ ?_
    · rw [Page.wipe_zero]
      exact ⟨hk.onScreen, hk.color_eq, hk.shows⟩
    · rintro j t hj ⟨hscreen, hcolor, hshows⟩
      have hpos : page.pos - j = top * vgaWidth + t.pos := hshows.pos_eq
      have hback := hshows.backspace hscreen (by omega)
      have hblank : t.blank = vgaEntry (byte ' ') color := congrArg (vgaEntry (byte ' ')) hcolor
      rw [hblank, Page.erase_wipe (by omega)] at hback
      refine ⟨(terminalBackspace_valid hscreen).toOnScreen, ?_, hback⟩
      obtain ⟨row, column, -, -, -, heq⟩ := terminalBackspace_eq hscreen
      rw [heq]
      exact hcolor
  exact ⟨hk.normal, hcolor, hscreen, hshows⟩

/-- A text is printed behind what the page reads from `p` on.  The screen scrolls where it must, but
never so far that the place `p` leaves it: there is room for 1920 cells from there on. -/
theorem Console.ShowsPage.extend (hk : k.ShowsPage color top page) (hbegins : top * vgaWidth ≤ p)
    (hholds : page.Holds p (cells color l)) (hpos : page.pos = p + l.length)
    (hplain : PlainText text) (hlength : (l ++ text).length ≤ 256)
    (hprint : putchars k text = .ok k₁) :
    ∃ top' page', k₁.ShowsPage color top' page' ∧ top' * vgaWidth ≤ p ∧
      page'.Holds p (cells color (l ++ text)) ∧ page'.pos = p + (l ++ text).length ∧
      ∀ q, p + (l ++ text).length ≤ q → page'.cell q = page.cell q := by
  have hend : (page.puts (cells color text)).pos = p + (l ++ text).length := by
    rw [Page.puts_pos, cells_length, hpos, List.length_append, Nat.add_assoc]
  refine ⟨_, _, hk.print hplain hprint, ?_, ?_, hend, fun q hq => ?_⟩
  · refine topFor_le (by decide) hbegins ?_
    rw [hend]
    exact Nat.add_lt_add_left (lt_of_le_of_lt hlength (by decide)) p
  · rw [cells_append]
    exact hholds.puts (by rw [cells_length, hpos]) _
  · refine Page.puts_cell (Or.inr ?_)
    rwa [cells_length, hpos, Nat.add_assoc, ← List.length_append]

end Page

/-! ### The line on the page -/

/-- The page reads the line from the place `p` on, in full view of the screen together with the cell
behind it, and the cursor of the page is the cursor of the editor. -/
structure Displays (k : Console) (color : Byte) (p : ℕ) (z : Line) (top : ℕ)
    (page : Page (BitVec 16)) : Prop extends k.ShowsPage color top page where
  begins : top * vgaWidth ≤ p
  ends : p + z.text.length < (top + vgaHeight) * vgaWidth
  holds : page.Holds p (cells color z.text)
  pos_eq : page.pos = p + z.left.length

/-- The console displays the line, and a blank behind it if it is shorter than `length`. -/
def Displayed (k : Console) (color : Byte) (p : ℕ) (z : Line) (length : ℕ) : Prop :=
  ∃ top page, Displays k color p z top page ∧
    (z.text.length < length → page.cell (p + z.text.length) = vgaEntry (byte ' ') color)

section Display

variable {W : Type} {commands : Commands W} {s s' : Shell W} {d : Desk} {color : Byte} {p top : ℕ}
  {page : Page (BitVec 16)} {c : Byte}

/-- A line in place is displayed over any line that was no longer. -/
theorem Displays.displayed {k : Console} {z : Line} {length : ℕ} (h : Displays k color p z top page)
    (hlength : length ≤ z.text.length) : Displayed k color p z length :=
  ⟨top, page, h, fun hlt => absurd hlength (Nat.not_le_of_lt hlt)⟩

/-- The cursor moves along the line. -/
theorem Displays.move {k : Console} {z z' : Line} (h : Displays k color p z top page)
    (htext : z'.text = z.text) {offset : ℤ}
    (hoffset : (z.left.length : ℤ) + offset = z'.left.length) :
    Displays (k.onTerminal (terminalMoveCursor offset)) color p z' top
      (page.seek (p + z'.left.length)) := by
  have hle : z'.left.length ≤ z'.text.length := by
    rw [BoundedZipper.text_length]
    exact Nat.le_add_right _ _
  have hpos := h.pos_eq
  have hbegins := h.begins
  have hends := h.ends
  rw [← htext] at hends
  refine ⟨h.toShowsPage.move (by omega) (by omega) (by omega), hbegins, hends, ?_, rfl⟩
  rw [htext]
  exact h.holds.seek _

/-- The cursor goes back to its place in a line that was printed up to its end. -/
theorem Displays.of_page {k : Console} {z : Line} (hk : k.ShowsPage color top page)
    (hbegins : top * vgaWidth ≤ p) (hholds : page.Holds p (cells color z.text))
    (hpos : p + z.text.length ≤ page.pos) {offset : ℤ}
    (hoffset : (page.pos : ℤ) + offset = (p + z.left.length : ℕ)) :
    Displays (k.onTerminal (terminalMoveCursor offset)) color p z top
      (page.seek (p + z.left.length)) := by
  have hle : z.left.length ≤ z.text.length := by
    rw [BoundedZipper.text_length]
    exact Nat.le_add_right _ _
  have hlt := hk.pos_lt
  exact ⟨hk.move hoffset (by omega) (by omega), hbegins, by omega, hholds.seek _, rfl⟩

/-- The characters left of the cursor are where the line begins. -/
theorem Displays.holds_left {k : Console} {z : Line} (h : Displays k color p z top page) :
    page.Holds p (cells color z.left) := by
  have hholds := h.holds
  unfold BoundedZipper.text at hholds
  rw [cells_append] at hholds
  exact (Page.holds_append.mp hholds).1

/-- After a character the new line is displayed. -/
theorem handleChar_displayed (h : s.Shows d) (hplain : d.Plain) (hc : Printable c)
    (hd : Displays s.console color p d.line top page) (hrun : handleChar c s = .ok s') :
    Displayed s'.console color p (d.line.insert c) d.line.text.length := by
  by_cases hlt : d.line.text.length < 255
  · obtain ⟨k, hprint, -⟩ := putchars_ok h.console (c :: d.line.right)
    obtain ⟨buffer', -, hrun'⟩ := handleChar_eq h.edits (hc.ne (by decide)) hlt hprint
    obtain rfl := Except.ok.inj (hrun'.symm.trans hrun)
    obtain ⟨hleft, hright⟩ := BoundedZipper.insert_of_lt hlt c
    have htext : (d.line.insert c).text = d.line.left ++ c :: d.line.right := by
      unfold BoundedZipper.text
      rw [hleft, hright, List.append_assoc]
      rfl
    have hlength : (d.line.insert c).text.length = d.line.text.length + 1 := by
      rw [htext, List.length_append, List.length_cons, BoundedZipper.text_length, Nat.add_assoc]
    have htail : PlainText (c :: d.line.right) :=
      hc.plain.append (hplain.line.of_subset (List.subset_append_right _ _))
    obtain ⟨top', page', hk, hbegins, hholds, hpos, -⟩ :=
      hd.toShowsPage.extend hd.begins hd.holds_left hd.pos_eq htail
        (by rw [← htext, hlength]; omega) hprint
    rw [← htext] at hholds hpos
    refine (Displays.of_page hk hbegins hholds hpos.ge ?_).displayed (hlength ▸ Nat.le_succ _)
    rw [hpos, hlength, BoundedZipper.text_length, hleft, List.length_append, List.length_singleton]
    omega
  · obtain rfl := Except.ok.inj ((handleChar_full h.edits hlt).symm.trans hrun)
    rw [BoundedZipper.insert_of_full hlt]
    exact hd.displayed (Nat.le_refl _)

/-- After a backspace the shorter line is displayed. -/
theorem handleBackspace_displayed (h : s.Shows d) (hplain : d.Plain)
    (hd : Displays s.console color p d.line top page) (hrun : handleBackspace s = .ok s') :
    Displayed s'.console color p d.line.erase d.line.text.length := by
  rcases List.eq_nil_or_concat' d.line.left with hleft | ⟨l, a, hleft⟩
  · obtain rfl := Except.ok.inj ((handleBackspace_nil h.edits hleft).symm.trans hrun)
    rw [BoundedZipper.erase_of_nil hleft]
    exact hd.displayed (Nat.le_refl _)
  · have hback := h.console.onTerminal (terminalBackspace_valid h.console.terminal.toOnScreen)
    obtain ⟨k, hprint, -⟩ := putchars_ok hback (d.line.right ++ [byte ' '])
    obtain ⟨buffer', -, hrun'⟩ := handleBackspace_eq h.edits hleft hprint
    obtain rfl := Except.ok.inj (hrun'.symm.trans hrun)
    have herase := BoundedZipper.erase_of_append hleft
    have htext : d.line.erase.text = l ++ d.line.right := by
      unfold BoundedZipper.text
      rw [herase]
      rfl
    have hlength : d.line.erase.text.length + 1 ≤ 255 := by
      have hfits := d.line.fits
      rw [hleft, List.length_append, List.length_singleton] at hfits
      rw [htext, List.length_append]
      omega
    have htail : PlainText (d.line.right ++ [byte ' ']) :=
      (hplain.line.of_subset (List.subset_append_right _ _)).append
        (Printable.plain ⟨by decide, by decide⟩)
    -- the cell before the cursor is wiped; the characters before it stay
    have hpos : page.pos = p + l.length + 1 := by
      rw [hd.pos_eq, hleft, List.length_append, List.length_singleton, Nat.add_assoc]
    have hbegins := hd.begins
    have hwiped := hd.toShowsPage.wipe (n := 1) (by omega)
    have hl := hd.holds_left
    rw [hleft, cells_append] at hl
    have hholds : (page.wipe (vgaEntry (byte ' ') color) 1).Holds p (cells color l) := by
      refine (Page.holds_append.mp hl).1.congr fun q _ hlt => if_neg fun hq => ?_
      rw [cells_length] at hlt
      omega
    -- the tail goes over it, with a blank behind
    obtain ⟨top', page', hk, hbegins', hholds', hpos', -⟩ :=
      hwiped.extend hbegins hholds (show page.pos - 1 = p + l.length by omega) htail
        (by rw [← List.append_assoc, ← htext, List.length_append, List.length_singleton]; omega)
        hprint
    rw [← List.append_assoc, ← htext] at hholds' hpos'
    rw [cells_append] at hholds'
    rw [List.length_append, List.length_singleton] at hpos'
    obtain ⟨hline, hblank⟩ := Page.holds_append.mp hholds'
    rw [cells_length] at hblank
    refine ⟨top', _, Displays.of_page hk hbegins' hline (by omega) ?_, fun _ => hblank.1⟩
    rw [hpos', htext, herase, List.length_append]
    omega

/-- After Up or Down the recalled line is displayed. -/
theorem shellHistory_displayed (h : s.Shows d) (hplain : d.Plain) (a : ℤ)
    (hd : Displays s.console color p d.line top page) (hrun : shellHistory a s = .ok s') :
    Displayed s'.console color p (d.act (.history a)).line d.line.text.length := by
  have hmove := moveCursor_console h.console (d.line.right.length : ℤ)
  have hback := hmove.onTerminal (f := backspaces d.line.text.length)
    (backspaces_valid hmove.terminal _)
  obtain ⟨k, hprint, -⟩ := putchars_ok hback (d.history.navigate a d.line.text).current
  obtain ⟨buffer', history', hbuffer', -, hrun'⟩ := shellHistory_eq h.edits h.history a hprint
  obtain rfl := Except.ok.inj (hrun'.symm.trans hrun)
  generalize hcurrent : (d.history.navigate a d.line.text).current = current at hprint hbuffer'
  have hlt : current.length < bufferSize := by
    have hlt := hbuffer'.2.length_lt
    rwa [hbuffer'.1] at hlt
  have hact : (d.act (.history a)).line = Line.atEnd current := by
    rw [← hcurrent]
    rfl
  have htake : current.take 255 = current := List.take_of_length_le (Nat.le_of_lt_succ hlt)
  have htext : (Line.atEnd current).text = current := (atEnd_text current).trans htake
  have hleft : (Line.atEnd current).left = current := htake
  have hcurrentPlain : PlainText current :=
    hcurrent ▸ (hplain.history.navigate hplain.line a).current
  -- to the end of the line, and back over all of it
  have hbegins := hd.begins
  have hends := hd.ends
  have hpos := hd.pos_eq
  have hsplit := d.line.text_length
  have hend := hd.toShowsPage.move
    (show (page.pos : ℤ) + (d.line.right.length : ℤ) = (p + d.line.text.length : ℕ) by omega)
    (by omega) hends
  have hwiped := hend.wipe (n := d.line.text.length)
    (show top * vgaWidth + _ ≤ p + d.line.text.length by omega)
  -- the other line is printed where this one began
  obtain ⟨top', page', hk, hbegins', hholds', hpos', hrest⟩ :=
    hwiped.extend (l := []) hbegins trivial
      (show p + d.line.text.length - d.line.text.length = p by omega) hcurrentPlain
      (Nat.le_of_lt hlt) hprint
  rw [List.nil_append] at hholds' hpos' hrest
  have hpos_lt := hk.pos_lt
  rw [hact]
  refine ⟨top', page', ⟨hk, hbegins', ?_, ?_, ?_⟩, fun hshorter => ?_⟩
  · rwa [htext, ← hpos']
  · rwa [htext]
  · rwa [hleft]
  · rw [htext] at hshorter ⊢
    rw [hrest _ (Nat.le_refl _)]
    refine Page.wipe_cell ?_ ?_
    · change p + d.line.text.length - d.line.text.length ≤ p + current.length
      omega
    · exact Nat.add_lt_add_left hshorter p

/-- After a step to the left the same line is displayed. -/
theorem moveLeft_displayed (h : s.Shows d) (hd : Displays s.console color p d.line top page)
    (hrun : shellBufferPosDecrement s = .ok s') :
    Displayed s'.console color p d.line.moveLeft d.line.text.length := by
  have htext := moveLeft_text d.line
  rcases List.eq_nil_or_concat' d.line.left with hleft | ⟨l, a, hleft⟩
  · obtain rfl := Except.ok.inj ((shellBufferPosDecrement_nil h.edits hleft).symm.trans hrun)
    rw [BoundedZipper.moveLeft_of_nil hleft]
    exact hd.displayed (Nat.le_refl _)
  · obtain rfl := Except.ok.inj ((shellBufferPosDecrement_eq h.edits hleft).symm.trans hrun)
    obtain ⟨hleft', -⟩ := BoundedZipper.moveLeft_of_append hleft
    refine (hd.move htext ?_).displayed (congrArg List.length htext).ge
    rw [hleft', hleft, List.length_append, List.length_singleton]
    omega

/-- After a step to the right the same line is displayed. -/
theorem moveRight_displayed (h : s.Shows d) (hd : Displays s.console color p d.line top page)
    (hrun : shellBufferPosIncrement s = .ok s') :
    Displayed s'.console color p d.line.moveRight d.line.text.length := by
  have htext := moveRight_text d.line
  match hright : d.line.right with
  | [] =>
    obtain rfl := Except.ok.inj ((shellBufferPosIncrement_nil h.edits hright).symm.trans hrun)
    rw [BoundedZipper.moveRight_of_nil hright]
    exact hd.displayed (Nat.le_refl _)
  | a :: r =>
    obtain rfl := Except.ok.inj ((shellBufferPosIncrement_eq h.edits hright).symm.trans hrun)
    obtain ⟨hleft', -⟩ := BoundedZipper.moveRight_of_cons hright
    refine (hd.move htext ?_).displayed (congrArg List.length htext).ge
    rw [hleft', List.length_append, List.length_singleton]
    omega

/-! ### Every key of every sequence -/

/-- A key that edits the line where it stands on the screen. -/
inductive KeyCall.Redraws : KeyCall → Prop
  | printable {c : Byte} (hc : Printable c) : Redraws (.handleKey c)
  | backspace : Redraws (.handleKey (byte '\x08'))
  | up : Redraws .up
  | down : Redraws .down
  | left : Redraws .bufferPosDecrement
  | right : Redraws .bufferPosIncrement

variable {call : KeyCall} {calls : List KeyCall} {z : Line} {m : Recall}

/-- A key that redraws the line is one that the shell knows. -/
theorem KeyCall.Redraws.known (h : call.Redraws) : call.Known := by
  cases h with
  | printable hc => exact .printable hc
  | backspace => exact .backspace
  | up => exact .up
  | down => exact .down
  | left => exact .left
  | right => exact .right

/-- Enter is not a key that redraws the line. -/
theorem KeyCall.Redraws.ne_enter (h : call.Redraws) : call ≠ .handleKey (byte '\n') := by
  cases h with
  | printable hc => exact fun he => hc.ne (by decide) (KeyCall.handleKey.inj he)
  | backspace => decide
  | up => decide
  | down => decide
  | left => decide
  | right => decide

/-- One key: what it sends to the terminal makes the page read the new line. -/
theorem perform_displayed (h : s.Shows d) (hplain : d.Plain) (hcall : call.Redraws)
    (hd : Displays s.console color p d.line top page) (hrun : call.perform commands s = .ok s') :
    Displayed s'.console color p (d.act call).line d.line.text.length := by
  cases hcall with
  | @printable c hc =>
    rw [act_printable d hc]
    unfold KeyCall.perform shellHandleKey at hrun
    dsimp only at hrun
    rw [if_neg (hc.ne (by decide)), if_neg (hc.ne (by decide)), if_neg (hc.ne (by decide)),
      if_neg (hc.ne (by decide))] at hrun
    exact handleChar_displayed h hplain hc hd hrun
  | backspace => exact handleBackspace_displayed h hplain hd hrun
  | up => exact shellHistory_displayed h hplain 1 hd hrun
  | down => exact shellHistory_displayed h hplain 2 hd hrun
  | left => exact moveLeft_displayed h hd hrun
  | right => exact moveRight_displayed h hd hrun

/-- By induction on the sequence, with `perform_displayed` as the step. -/
theorem keyRun_displayed (h : s.Shows d) (hplain : d.Plain) (hcalls : ∀ call ∈ calls, call.Redraws)
    (hd : Displays s.console color p d.line top page) :
    ∃ s' top' page', keyRun commands s calls = .ok s' ∧ s'.Shows (calls.foldl Desk.act d) ∧
      Displays s'.console color p (calls.foldl Desk.act d).line top' page' := by
  induction calls generalizing s d top page with
  | nil => exact ⟨s, top, page, rfl, h, hd⟩
  | cons call calls ih =>
    have hcall := hcalls call List.mem_cons_self
    obtain ⟨s₁, hstep, hs₁⟩ := perform_edit_ok commands h hcall.known hcall.ne_enter
    obtain ⟨top₁, page₁, hd₁, -⟩ := perform_displayed h hplain hcall hd hstep
    obtain ⟨s', top', page', hrun, hs', hd'⟩ := ih hs₁ (act_plain hplain hcall.known)
      (fun c hc => hcalls c (List.mem_cons_of_mem _ hc)) hd₁
    refine ⟨s', top', page', ?_, hs', hd'⟩
    unfold keyRun at hrun ⊢
    rw [List.foldlM_cons, hstep, ok_bind, hrun]

/-- Before the first key the screen is the first page, whatever is on it. -/
theorem Prompting.displays (h : Prompting s z m) (hempty : z.text = [])
    (hnormal : s.console.currentState = .normal) :
    ∃ page, Displays s.console s.console.terminal.color s.console.terminal.pos z 0 page := by
  have hscreen := h.console.terminal.toOnScreen
  have hpos := hscreen.pos_lt
  have hleft : z.left = [] := (List.append_eq_nil_iff.mp hempty).1
  refine ⟨⟨fun q => if q < vgaCells then s.console.terminal.buffer q else s.console.terminal.blank,
    s.console.terminal.pos⟩, ⟨hnormal, rfl, hscreen, ⟨hpos, ?_, fun i hi => ?_, fun q hq => ?_⟩⟩,
    ?_, ?_, ?_, ?_⟩
  · exact (Nat.zero_add _).symm.trans (congrArg (· + _) (Nat.zero_mul _).symm)
  · rw [Nat.zero_mul, Nat.zero_add]
    exact (if_pos hi).symm
  · rw [Nat.zero_add] at hq
    exact if_neg (Nat.not_lt_of_le hq)
  · rw [Nat.zero_mul]
    exact Nat.zero_le _
  · rw [hempty, Nat.zero_add]
    exact hpos
  · rw [hempty]
    trivial
  · rw [hleft]
    rfl

/-- From the cell `p` on, or from as many rows above it as were scrolled, the screen shows the text;
the cursor, also the one of the display controller, is where the editor has it. -/
structure Shell.ShowsLine (s : Shell W) (color : Byte) (p scrolled : ℕ) (text : List Byte) :
    Prop where
  begins : scrolled * vgaWidth ≤ p
  ends : p - scrolled * vgaWidth + text.length < vgaCells
  cell_eq : ∀ i (hi : i < text.length),
    s.console.terminal.buffer (p - scrolled * vgaWidth + i) = vgaEntry text[i] color
  pos_eq : (s.console.terminal.pos : ℤ) = (p - scrolled * vgaWidth : ℕ) + s.bufferPos
  cursor_eq : s.console.terminal.crtc.cursor = s.console.terminal.pos

/-- A cell of the page that is in view is on the screen. -/
theorem Displays.buffer_eq {k : Console} (h : Displays k color p z top page) {i : ℕ}
    (hi : i ≤ z.text.length) :
    k.terminal.buffer (p - top * vgaWidth + i) = page.cell (p + i) := by
  have hbegins := h.begins
  have hends := h.ends
  rw [Nat.add_mul] at hends
  have hcell := h.shows.window (p - top * vgaWidth + i) (by omega)
  rwa [show top * vgaWidth + (p - top * vgaWidth + i) = p + i by omega] at hcell

/-- A displayed line is what the screen shows behind the prompt. -/
theorem Displays.showsLine (h : s.Shows d) (hd : Displays s.console color p d.line top page) :
    s.ShowsLine color p top d.line.text := by
  have hbegins := hd.begins
  have hends := hd.ends
  rw [Nat.add_mul] at hends
  refine ⟨hbegins, show _ < vgaHeight * vgaWidth by omega, fun i hi => ?_, ?_,
    h.console.terminal.cursor_eq⟩
  · rw [hd.buffer_eq (Nat.le_of_lt hi), hd.holds.cell_eq (by rwa [cells_length])]
    exact List.getElem_map _
  · have hpos : page.pos = top * vgaWidth + s.console.terminal.pos := hd.shows.pos_eq
    rw [hd.pos_eq] at hpos
    rw [h.edits.pos]
    omega

/-- The shell returns from these keys and from one more, and then the screen shows the line that is
in the buffer: from the place on where the prompt ended, and with a blank behind the line if the
last key made it shorter. -/
def ShowsAfter (commands : Commands W) (s : Shell W) (calls : List KeyCall) (call : KeyCall) :
    Prop :=
  ∃ s₁ s₂ text₁ text₂ scrolled,
    keyRun commands s calls = .ok s₁ ∧ IsString s₁.buffer text₁ ∧
    call.perform commands s₁ = .ok s₂ ∧ IsString s₂.buffer text₂ ∧
    s₂.ShowsLine s.console.terminal.color s.console.terminal.pos scrolled text₂ ∧
    (text₂.length < text₁.length →
      s₂.console.terminal.buffer
          (s.console.terminal.pos - scrolled * vgaWidth + text₂.length) =
        vgaEntry (byte ' ') s.console.terminal.color)

/-- Every sequence of these keys, from a prompt anywhere on the screen and with any history the
editor can have made (the first part), leaves the line on the screen after each key. -/
theorem editor_display (commands : Commands W) :
    (∀ buffer crtc ops world (keys : List Key),
      Completes (fun s => ∃ z m, Prompting s z m ∧ m.Plain)
        (session commands buffer crtc ops world (keys.map Subtype.val))) ∧
    ∀ (s : Shell W) (z : Line) (m : Recall), Prompting s z m → z.text = [] → m.Plain →
      s.console.currentState = .normal →
      ∀ calls call, (∀ c ∈ calls ++ [call], c.Redraws) → ShowsAfter commands s calls call := by
  constructor
  · intro buffer crtc ops world keys
    have hknown : ∀ call ∈ keys.map Subtype.val, call.Known := by
      intro call hcall
      obtain ⟨key, -, rfl⟩ := List.mem_map.mp hcall
      exact delivered_known key.2
    rcases session_plain commands buffer crtc ops world _ hknown with ⟨s, hrun, d, hs, hd⟩ | hstop
    · exact .of_ok hrun ⟨d.line, d.history, hs, hd.history⟩
    · exact Or.inr hstop
  · intro s z m h hempty hplain hnormal calls call hredraws
    obtain ⟨hcalls, hcall⟩ := List.forall_mem_append.mp hredraws
    rw [List.forall_mem_singleton] at hcall
    have hdesk : Desk.Plain ⟨z, m⟩ := ⟨hempty ▸ PlainText.nil, hplain⟩
    obtain ⟨page, hd⟩ := h.displays hempty hnormal
    obtain ⟨s₁, top₁, page₁, hrun, hs₁, hd₁⟩ :=
      keyRun_displayed (d := ⟨z, m⟩) h hdesk hcalls hd
    obtain ⟨s₂, hstep, hs₂⟩ := perform_edit_ok commands hs₁ hcall.known hcall.ne_enter
    obtain ⟨top₂, page₂, hd₂, hblank⟩ := perform_displayed hs₁
      (acts_plain hdesk fun c hc => (hcalls c hc).known) hcall hd₁ hstep
    refine ⟨s₁, s₂, _, _, top₂, hrun, hs₁.edits.buffer.2, hstep, hs₂.edits.buffer.2,
      hd₂.showsLine hs₂, fun hshorter => ?_⟩
    rw [hd₂.buffer_eq (Nat.le_refl _)]
    exact hblank hshorter

/-- A character is typed and erased on the first screen. -/
theorem editor_display_erased :
    ShowsAfter (fun _ _ w => some ([], w))
      (Shell.boot (Console.initial (fun _ => 0) ⟨0, fun _ => 0⟩) ())
      [.handleKey (byte 'a')] (.handleKey (byte '\x08')) :=
  (editor_display (fun _ _ w => some ([], w))).2 _ .empty .empty
    (boot_prompting (Console.initial_valid (fun _ => 0) ⟨0, fun _ => 0⟩) ()) rfl
    Recall.plain_empty rfl _ _ (by
      rw [List.cons_append, List.nil_append, List.forall_mem_cons, List.forall_mem_singleton]
      exact ⟨.printable ⟨by decide, by decide⟩, .backspace⟩)

end Display

end AuriOS
