import AuriOS.Kernel.Output

/-!
# Printing below the line

Enter and the list of candidates begin with a newline from wherever the cursor is in a line that may
take several rows of the screen.

* `enterKeeps_iff`: what Enter prints goes over the line unless it begins with as many newlines as
  the line has rows below that of the cursor, or the screen is cleared first;
* `tabKeeps_iff`: the list keeps the display true exactly when the cursor is at the end of the line;
* `below_iff`: both, in every state in which the screen shows the line.
-/

namespace AuriOS

open Program ScrollPage

/-- The place shows a character of the line that begins at `p`. -/
def OnLine (p : ℕ) (z : Line) (q : ℕ) : Prop := p ≤ q ∧ q < p + z.text.length

/-- The rows that the line takes below the row of the cursor. -/
def rowsBelow (p : ℕ) (z : Line) : ℕ :=
  (p + z.text.length - 1) / vgaWidth - (p + z.left.length) / vgaWidth

/-- The newlines that an output begins with. -/
def Output.newlines : Output → ℕ
  | .printed items => AuriOS.newlines (items.flatMap Printed.visible)
  | .cleared => 0

/-- A line draws this, recorded. -/
def Trace.draw (t : Trace) : Output → Except Fault Trace
  | .printed items => t.putchars (items.flatMap Printed.bytes)
  | .cleared => pure t.clear

/-- From `t` to `t'` no character went to a cell that shows the line, and those of its cells that
are still on the screen show what they showed. -/
structure Trace.Spares (t t' : Trace) (p : ℕ) (z : Line) : Prop where
  places : ∀ q ∈ t'.places, ¬ OnLine p z q
  cell_eq : ∀ q, OnLine p z q → t'.top * vgaWidth ≤ q → t'.cell q = t.cell q

section Below

variable {W : Type}

/-- Enter prints a newline, the output of the line and the next prompt, and spares the line. -/
def EnterKeeps (commands : Commands W) (s : Shell W) (p top : ℕ) (z : Line) (output : Output) :
    Prop :=
  ∃ s' newline drawn trace, handleEnter commands s = .ok s' ∧
    Trace.putchar ⟨s.console, top, []⟩ (byte '\n') = .ok newline ∧ newline.draw output = .ok drawn ∧
    drawn.putchars s'.prompt.rendered = .ok trace ∧ trace.console = s'.console ∧
    Trace.Spares ⟨s.console, top, []⟩ trace p z

/-- If Tab lists the candidates and prints prompt and line anew, this spares the line, and the
cursor is then at the cell of `buffer_pos` in the line that was printed last. -/
def TabKeeps (s : Shell W) (p top : ℕ) (z : Line) : Prop :=
  Lists commandNames z.left →
    ∃ s' prompted trace, commandCompletion s = .ok s' ∧
      Trace.putchars ⟨s.console, top, []⟩
        (candidateList (matching commandNames z.left) ++ s.prompt.rendered) = .ok prompted ∧
      prompted.putchars z.text = .ok trace ∧ trace.console = s'.console ∧
      Trace.Spares ⟨s.console, top, []⟩ trace p z ∧
        (trace.place : ℤ) = prompted.place + s'.bufferPos

variable {commands : Commands W} {s s' : Shell W} {z : Line} {m : Recall} {color : Byte}
  {p top q : ℕ} {page : Page (BitVec 16)} {output : Output} {text : List Byte}

/-! ### Places -/

/-- A text without a newline advances by its length. -/
theorem foldl_advance (hline : byte '\n' ∉ text) : text.foldl advance q = q + text.length := by
  induction text generalizing q with
  | nil => rfl
  | cons c text ih =>
    rw [List.foldl_cons, advance_of_ne q (List.ne_of_not_mem_cons hline).symm,
      ih (List.not_mem_of_not_mem_cons hline), List.length_cons, Nat.add_assoc, Nat.add_comm 1]

/-- Behind a character that is no newline nothing counts. -/
theorem newlines_append {c : Byte} (hc : c ≠ byte '\n') (a b : List Byte) :
    newlines (a ++ c :: b) = newlines a := by
  induction a with
  | nil => exact newlines_of_ne hc b
  | cons d a ih =>
    rw [List.cons_append]
    by_cases hd : d = byte '\n'
    · rw [hd, newlines_newline, newlines_newline, ih]
    · rw [newlines_of_ne hd, newlines_of_ne hd]

/-- A text from the row below the cursor on goes over the line unless it begins with enough
newlines. -/
theorem placed_below_iff (h : ∃ c ∈ text, c ≠ byte '\n') :
    (∀ q ∈ placed (((p + z.left.length) / vgaWidth + 1) * vgaWidth) text, ¬ OnLine p z q) ↔
      rowsBelow p z ≤ newlines text := by
  obtain ⟨hfirst, hrest⟩ := placed_row ((p + z.left.length) / vgaWidth + 1) h
  unfold rowsBelow OnLine
  change (_ + newlines text) * 80 ∈ _ at hfirst
  change ∀ n ∈ _, (_ + newlines text) * 80 ≤ n at hrest
  change _ ↔ (p + z.text.length - 1) / 80 - (p + z.left.length) / 80 ≤ newlines text
  change ((p + z.left.length) / 80 + 1 + newlines text) * 80 ∈ _ at hfirst
  change ∀ n ∈ _, ((p + z.left.length) / 80 + 1 + newlines text) * 80 ≤ n at hrest
  constructor
  · intro hkeeps
    have hfirst := hkeeps _ hfirst
    omega
  · intro hle q hq hon
    have hq := hrest q hq
    omega

/-! ### The prompt -/

/-- The prompt is printed as text and colour sequences; the first character is a bracket. -/
theorem rendered_items {prompt : Prompt} (hp : prompt.Plain) :
    ∃ items : List Printed, items.flatMap Printed.bytes = prompt.rendered ∧
      ∃ rest, items.flatMap Printed.visible = byte '[' :: rest := by
  obtain ⟨user, huser, huser0⟩ := hp.user
  obtain ⟨os, hos, hos0⟩ := hp.os
  have hcolour : ∀ (n : List Byte), (∀ c ∈ n, IsDigit c) → ∀ q ∈ [n], ∀ c ∈ q, IsDigit c :=
    fun n hn q hq => List.mem_singleton.mp hq ▸ hn
  refine ⟨[.sgr (chars "97") [] (hcolour _ (by decide)) (by decide), .text (chars "[") (by decide),
    .sgr (chars "91") [] (hcolour _ (by decide)) (by decide), .text user huser0,
    .sgr (chars "96") [] (hcolour _ (by decide)) (by decide), .text (chars "@") (by decide),
    .sgr (chars "97") [] (hcolour _ (by decide)) (by decide), .text os hos0,
    .sgr (chars "0") [] (hcolour _ (by decide)) (by decide), .text (chars " ~") (by decide),
    .sgr (chars "97") [] (hcolour _ (by decide)) (by decide), .text (chars "]") (by decide),
    .sgr (chars "92") [] (hcolour _ (by decide)) (by decide), .text (chars "$ ") (by decide),
    .sgr (chars "0") [] (hcolour _ (by decide)) (by decide)], ?_,
    user ++ (chars "@" ++ (os ++ chars " ~]$ ")), rfl⟩
  unfold Prompt.rendered
  rw [huser.2.takeWhile_eq, hos.2.takeWhile_eq]
  rfl

/-! ### Enter -/

section Trace

variable {t t' : Trace} {c : Byte}

/-- The traced console is the real one, character by character. -/
theorem Trace.putchar_console (h : t.putchar c = .ok t') :
    terminalPutchar t.console c = .ok t'.console := by
  unfold Trace.putchar at h
  obtain ⟨k, hk, hpure⟩ := except_bind_eq_ok.mp h
  obtain rfl := Except.ok.inj hpure
  exact hk

/-- The traced console is the real one, output by output. -/
theorem Trace.draw_console (h : t.draw output = .ok t') :
    output.draw t.console = .ok t'.console := by
  cases output with
  | printed items => exact Trace.putchars_console h
  | cleared =>
    obtain rfl := Except.ok.inj h
    rfl

/-- Nothing that is in view on a cleared screen was in view before. -/
theorem Trace.clear_ready (h : t.Ready) :
    t.clear.Ready ∧ t.clear.place = (t.top + vgaHeight) * vgaWidth ∧ t.Keeps t.clear [] := by
  refine ⟨⟨h.normal, (terminalClear_valid h.onScreen).toOnScreen⟩, ?_, Nat.le_add_right _ _,
    (List.append_nil _).symm, fun q hle hlt _ => absurd hlt (Nat.not_lt_of_le hle)⟩
  unfold Trace.place
  change (t.top + vgaHeight) * vgaWidth + (0 * vgaWidth + 0) = _
  rw [Nat.zero_mul, Nat.add_zero]

/-- The cells follow from the places. -/
theorem Trace.Keeps.spares_iff {places : List ℕ} (h : t.Keeps t' places) (hnone : t.places = [])
    (hends : p + z.text.length ≤ (t.top + vgaHeight) * vgaWidth) :
    t.Spares t' p z ↔ ∀ q ∈ places, ¬ OnLine p z q := by
  have hplaces : t'.places = places := by
    rw [h.places_eq, hnone, List.nil_append]
  constructor
  · exact fun hspares => hplaces ▸ hspares.places
  · exact fun hnot => ⟨hplaces ▸ hnot, fun q hon hle =>
      h.cell_eq q hle (hon.2.trans_le hends) fun hq => hnot q hq hon⟩

end Trace

/-- Before the key the record is empty, and the place of the cursor is that of the editor. -/
theorem Displays.start (hd : Displays s.console color p z top page) :
    (Trace.mk s.console top []).Ready ∧ (Trace.mk s.console top []).place = p + z.left.length :=
  ⟨⟨hd.normal, hd.onScreen⟩, hd.shows.pos_eq.symm.trans hd.pos_eq⟩

/-- What is drawn after the newline goes over the line unless it begins with enough newlines, or the
screen is cleared. -/
theorem draw_below (hd : Displays s.console color p z top page) {prompt : Prompt}
    (hp : prompt.Plain) (output : Output) :
    ∃ newline drawn trace, Trace.putchar ⟨s.console, top, []⟩ (byte '\n') = .ok newline ∧
      newline.draw output = .ok drawn ∧ drawn.putchars prompt.rendered = .ok trace ∧
      (Trace.Spares ⟨s.console, top, []⟩ trace p z ↔
        output = .cleared ∨ rowsBelow p z ≤ output.newlines) := by
  obtain ⟨hready, hplace⟩ := hd.start
  have hends := hd.ends.le
  obtain ⟨newline, hnewline, hready₁, hplace₁, hkeeps₁⟩ :=
    Trace.putchar_ready hready (by decide : byte '\n' ≠ escByte)
  rw [hplace, advance_newline] at hplace₁
  rw [if_pos rfl] at hkeeps₁
  obtain ⟨promptItems, hbytes, rest, hvisible⟩ := rendered_items hp
  cases output with
  | printed items =>
    obtain ⟨trace, hprint, -, -, hkeeps⟩ := Trace.printed hready₁ (items ++ promptItems)
    rw [List.flatMap_append, hbytes, Trace.putchars_append, except_bind_eq_ok] at hprint
    obtain ⟨drawn, hdrawn, hprint⟩ := hprint
    refine ⟨newline, drawn, trace, hnewline, hdrawn, hprint, ?_⟩
    have hbracket : ∃ c ∈ items.flatMap Printed.visible ++ byte '[' :: rest, c ≠ byte '\n' :=
      ⟨byte '[', List.mem_append_right _ List.mem_cons_self, by decide⟩
    rw [(hkeeps₁.trans hkeeps).spares_iff rfl hends, List.nil_append, List.flatMap_append, hvisible,
      hplace₁, placed_below_iff hbracket, newlines_append (by decide)]
    exact (or_iff_right Output.noConfusion).symm
  | cleared =>
    obtain ⟨hready₂, hplace₂, hkeeps₂⟩ := Trace.clear_ready hready₁
    obtain ⟨trace, hprint, -, -, hkeeps⟩ := Trace.printed hready₂ promptItems
    rw [hbytes] at hprint
    refine ⟨newline, newline.clear, trace, hnewline, rfl, hprint, ?_⟩
    refine iff_of_true ?_ (Or.inl rfl)
    rw [((hkeeps₁.trans hkeeps₂).trans hkeeps).spares_iff rfl hends]
    -- the prompt goes to the rows that came into view
    intro q hq hon
    have htop : (top + vgaHeight) * vgaWidth ≤ (newline.top + vgaHeight) * vgaWidth :=
      Nat.mul_le_mul_right _ (Nat.add_le_add_right hkeeps₁.top_le _)
    have hbehind : (newline.top + vgaHeight) * vgaWidth ≤ q := hplace₂ ▸ le_of_mem_placed hq
    exact absurd hon.2 (Nat.not_lt_of_le (hends.trans (htop.trans hbehind)))

/-- Enter keeps the line if what the line draws begins with enough newlines, or clears the
screen. -/
theorem enterKeeps_iff (h : Prompting s z m) (hd : Displays s.console color p z top page)
    (hdraws : Draws (shellExecute commands) s s' output) (hp : s'.prompt.Plain) :
    EnterKeeps commands s p top z output ↔ output = .cleared ∨ rowsBelow p z ≤ output.newlines := by
  obtain ⟨s₁, hrun, hprompt, hconsole⟩ := handleEnter_draws h hdraws hp.valid
  obtain ⟨newline, drawn, trace, hnewline, hdrawn, hprint, hiff⟩ := draw_below hd hp output
  have hsame : trace.console = s₁.console := by
    have hall := hconsole
    rw [Trace.putchar_console hnewline, ok_bind, Trace.draw_console hdrawn, ok_bind,
      Trace.putchars_console hprint] at hall
    exact Except.ok.inj hall
  rw [← hiff]
  constructor
  · rintro ⟨s₂, newline', drawn', trace', hrun', hnewline', hdrawn', hprint', -, hkeeps⟩
    obtain rfl := Except.ok.inj (hrun.symm.trans hrun')
    obtain rfl := Except.ok.inj (hnewline.symm.trans hnewline')
    obtain rfl := Except.ok.inj (hdrawn.symm.trans hdrawn')
    rw [hprompt] at hprint'
    obtain rfl := Except.ok.inj (hprint.symm.trans hprint')
    exact hkeeps
  · intro hkeeps
    exact ⟨s₁, newline, drawn, trace, hrun, hnewline, hdrawn, hprompt ▸ hprint, hsame, hkeeps⟩

/-! ### Tab -/

/-- The list of candidates has no escape when the names have none. -/
theorem candidateList_visible {found : List (List Byte)} (hfound : ∀ name ∈ found, escByte ∉ name) :
    escByte ∉ candidateList found := by
  intro hmem
  unfold candidateList at hmem
  rcases List.mem_append.mp hmem with hmem | hmem
  · exact absurd hmem (by decide)
  · rcases List.mem_append.mp hmem with hmem | hmem
    · obtain ⟨name, hname, hmem⟩ := List.mem_flatMap.mp hmem
      rcases List.mem_append.mp hmem with hmem | hmem
      · exact hfound name hname hmem
      · exact absurd hmem (by decide)
    · exact absurd hmem (by decide)

/-- The list keeps the display true exactly when nothing stands right of the cursor. -/
theorem tabKeeps_iff (h : Prompting s z m) (hplain : PlainText z.text) (hp : s.prompt.Plain)
    (hd : Displays s.console color p z top page) :
    TabKeeps s p top z ↔ z.right = [] ∨ ¬ Lists commandNames z.left := by
  by_cases hlists : Lists commandNames z.left
  swap
  · exact iff_of_true (fun hl => absurd hl hlists) (Or.inr hlists)
  rw [or_iff_left (not_not.mpr hlists)]
  obtain ⟨hready, hplace⟩ := hd.start
  obtain ⟨s₁, hrun, -, -, hdone, hprint⟩ := commandCompletionWith_ok h.edits h.console
    (shellRenderPrompt_rendered h.prompt) commandList_names (by decide) commandNames_short
  have hpos : s₁.bufferPos = z.left.length := by
    rw [hlists.2.2] at hdone
    exact hdone.2.trans h.edits.pos
  -- the list and the prompt
  have hesc : escByte ∉ candidateList (matching commandNames z.left) :=
    candidateList_visible fun name hname =>
      (commandNames_plain name (prefix_of_mem_matching hname).1).not_esc
  obtain ⟨promptItems, hbytes, -⟩ := rendered_items hp
  obtain ⟨prompted, hprompted, hready₁, hplace₁, hkeeps₁⟩ :=
    Trace.printed hready (.text _ hesc :: promptItems)
  rw [List.flatMap_cons, hbytes] at hprompted
  change Trace.putchars _ (candidateList _ ++ s.prompt.rendered) = _ at hprompted
  -- the line
  obtain ⟨trace, hline, -, hplace₂, hkeeps₂⟩ := Trace.text hready₁ hplain.not_esc
  rw [foldl_advance hplain.not_newline] at hplace₂
  have hsame : trace.console = s₁.console := by
    have hall : Trace.putchars ⟨s.console, top, []⟩
        (candidateList (matching commandNames z.left) ++ s.prompt.rendered ++ z.text) =
          .ok trace := by
      rw [Trace.putchars_append, hprompted, ok_bind, hline]
    rw [tabOutput, if_pos hlists, ← List.append_assoc] at hprint
    exact Except.ok.inj ((Trace.putchars_console hall).symm.trans hprint)
  constructor
  · intro hkeeps
    obtain ⟨s₂, prompted', trace', hrun', hprompted', hline', -, -, hcursor⟩ := hkeeps hlists
    obtain rfl := Except.ok.inj (hrun.symm.trans hrun')
    obtain rfl := Except.ok.inj (hprompted.symm.trans hprompted')
    obtain rfl := Except.ok.inj (hline.symm.trans hline')
    rw [hplace₂, hpos, BoundedZipper.text_length] at hcursor
    exact List.length_eq_zero_iff.mp (by omega)
  · intro hright _
    refine ⟨s₁, prompted, trace, hrun, hprompted, hline, hsame, ?_, ?_⟩
    · rw [(hkeeps₁.trans hkeeps₂).spares_iff rfl hd.ends.le, hplace₁, ← placed_append, hplace]
      -- everything is behind the newline, and the cursor was behind the line
      intro q hq hon
      have hbehind : p + z.left.length < q :=
        (lt_advance _ (byte '\n')).trans_le (le_of_mem_placed hq)
      have hlt := hon.2
      rw [BoundedZipper.text_length, hright, List.length_nil, Nat.add_zero] at hlt
      exact Nat.lt_asymm hbehind hlt
    · rw [hplace₂, hpos, BoundedZipper.text_length, hright]
      rfl

/-! ### Every line, cursor and place -/

/-- What a line draws leaves a plain prompt. -/
theorem Draws.plain {d : Desk} (hcommands : PlainCommands commands) (h : s.ShowsPlain d)
    (hdraws : Draws (shellExecute commands) s s' output) : s'.prompt.Plain := by
  rcases shellExecute_draws hcommands h.shows h.plain.line.not_esc h.prompt with
    ⟨s'', output', hdraws', hp⟩ | hstop
  · exact hdraws'.prompt_eq hdraws h.shows.console ▸ hp
  · obtain ⟨k, hdraw, -⟩ := output.draw_ok h.shows.console
    have hrun := (hdraws s.console).symm.trans (hstop s.console)
    rw [hdraw] at hrun
    cases hrun

/-- In every state that keys lead to, the line and the prompt are plain (the first part).  Where the
screen shows the line, from any place on and with the cursor anywhere in it, the line draws
something or its command does not return; Enter keeps the line exactly when that begins with as many
newlines as the line has rows below the cursor, or clears the screen; and the list of Tab keeps the
display true exactly when the cursor is at the end of the line. -/
theorem below_iff (commands : Commands W) (hcommands : PlainCommands commands) :
    (∀ buffer crtc ops world (keys : List Key), Completes (fun s => ∃ d, s.ShowsPlain d)
      (session commands buffer crtc ops world (keys.map Subtype.val))) ∧
    ∀ (s : Shell W) (d : Desk) (color : Byte) (p top : ℕ) (page : Page (BitVec 16)),
      s.ShowsPlain d → Displays s.console color p d.line top page →
        DrawsOrStops (shellExecute commands) s ∧
        (∀ s' output, Draws (shellExecute commands) s s' output →
          (EnterKeeps commands s p top d.line output ↔
            output = .cleared ∨ rowsBelow p d.line ≤ output.newlines)) ∧
        (TabKeeps s p top d.line ↔ d.line.right = [] ∨ ¬ Lists commandNames d.line.left) := by
  constructor
  · intro buffer crtc ops world keys
    refine session_plainPrompt hcommands buffer crtc ops world fun call hcall => ?_
    obtain ⟨key, -, rfl⟩ := List.mem_map.mp hcall
    exact delivered_known key.2
  · intro s d color p top page h hd
    exact ⟨shellExecute_draws hcommands h.shows h.plain.line.not_esc h.prompt,
      fun s' output hdraws => enterKeeps_iff h.shows hd hdraws (hdraws.plain hcommands h),
      tabKeeps_iff h.shows h.plain.line h.prompt hd⟩

end Below

/-- Commands that print nothing. -/
def silentCommands : Commands Unit := fun _ _ world => some ([], world)

/-- Silent commands are plain. -/
theorem silentCommands_plain : PlainCommands silentCommands := by
  intro command argv world out world' hsome
  cases hsome
  exact ⟨[], rfl⟩

/-- Keys that edit the line lead to a screen that shows it. -/
theorem boot_edited {calls : List KeyCall} (hcalls : ∀ call ∈ calls, call.Redraws) :
    ∃ (s : Shell Unit) (color : Byte) (p top : ℕ) (page : Page (BitVec 16)),
      s.ShowsPlain (calls.foldl Desk.act .initial) ∧
      Displays s.console color p (calls.foldl Desk.act .initial).line top page := by
  have hboot := boot_prompting (Console.initial_valid (fun _ => 0) ⟨0, fun _ => 0⟩) ()
  have hplain : Desk.initial.Plain := ⟨.nil, Recall.plain_empty⟩
  obtain ⟨page, hd⟩ := hboot.displays rfl rfl
  obtain ⟨s, top', page', hrun, -, hd'⟩ : ∃ s top' page', keyRun silentCommands _ calls = .ok s ∧
      s.Shows (calls.foldl Desk.act .initial) ∧
      Displays s.console _ _ (calls.foldl Desk.act .initial).line top' page' :=
    keyRun_displayed (d := .initial) hboot hplain hcalls hd
  have hs := (keyRun_plainPrompt (d := .initial) silentCommands_plain
    ⟨hboot, hplain, Prompt.initial_plain⟩ fun call hcall => (hcalls call hcall).known).elim hrun
  exact ⟨s, _, _, top', page', hs, hd'⟩

/-- `a` is typed, and the cursor moves in front of it. -/
theorem redraws_a_left :
    ∀ call ∈ [KeyCall.handleKey (byte 'a'), .bufferPosDecrement], call.Redraws := by
  rw [List.forall_mem_cons, List.forall_mem_singleton]
  exact ⟨.printable ⟨by decide, by decide⟩, .left⟩

/-- In front of an `a`. -/
theorem below_iff_a : ∃ (s : Shell Unit) (p top : ℕ) (z : Line), z.text = chars "a" ∧ z.left = [] ∧
    (∀ s' output, Draws (shellExecute silentCommands) s s' output →
      (EnterKeeps silentCommands s p top z output ↔
        output = .cleared ∨ rowsBelow p z ≤ output.newlines)) ∧
    (TabKeeps s p top z ↔ z.right = [] ∨ ¬ Lists commandNames z.left) := by
  obtain ⟨s, color, p, top, page, hs, hd⟩ := boot_edited redraws_a_left
  exact ⟨s, p, top, _, by decide, by decide,
    ((below_iff silentCommands silentCommands_plain).2 s _ color p top page hs hd).2⟩

/-- In front of an `a`, Tab lists the commands and leaves the screen cursor behind the `a`. -/
theorem below_moves_cursor : ¬ ∀ (s : Shell Unit) (d : Desk) (color : Byte) (p top : ℕ)
    (page : Page (BitVec 16)), s.ShowsPlain d → Displays s.console color p d.line top page →
      (∀ s' output, Draws (shellExecute silentCommands) s s' output →
        EnterKeeps silentCommands s p top d.line output) ∧ TabKeeps s p top d.line := by
  intro hall
  obtain ⟨s, color, p, top, page, hs, hd⟩ := boot_edited redraws_a_left
  have hkeeps := (hall s _ color p top page hs hd).2
  rw [tabKeeps_iff hs.shows hs.plain.line hs.prompt hd] at hkeeps
  have hlists : Lists commandNames [] := by decide
  exact hkeeps.elim (by decide) (not_not.mpr hlists)

end AuriOS
