import AuriOS.Drivers.Keyboard
import AuriOS.Kernel.Completion

/-!
# A session at the shell

The calls of the keyboard driver, one after the other, from `shell_init` on.  What they do is said
once for an ideal desk: the line as a zipper of at most 255 characters, and the history as a list.

* `perform_ok`: every call does on the shell what it does on the desk, unless it runs a command that
  does not return;
* `session_prompting`: so does every sequence of calls;
* `session_zipper`: the line behaves as a zipper throughout;
* `commandCompletion_keeps_iff`: when Tab leaves the text right of the cursor alone.
-/

namespace AuriOS

open Program

/-! ### Keys on the desk -/

/-- `command_list`, without the NULs. -/
def commandNames : List (List Byte) :=
  ["help", "fetch", "clear", "uptime", "memdump", "memtest", "mia", "mmap", "peek", "poke", "echo",
    "reboot", "exit", "crash", "setprompt"].map chars

/-- A text with the cursor after its last character; there is room for 255. -/
def Line.atEnd (text : List Byte) : Line := .ofText (text.take 255) (List.length_take_le _ _)

/-- What Tab makes of a line. -/
def Line.complete (names : List (List Byte)) (z : Line) : Line :=
  match completion names z.left with
  | none => z
  | some ins => .atEnd (z.left ++ ins)

/-- The line being edited and the history behind it. -/
structure Desk where
  line : Line
  history : Recall

/-- The shell shows this desk. -/
abbrev Shell.Shows {W : Type} (s : Shell W) (d : Desk) : Prop := Prompting s d.line d.history

/-- What a call of the driver does at the ideal desk. -/
def Desk.act (d : Desk) : KeyCall → Desk
  | .handleKey c =>
      if c = formFeed then ⟨.empty, d.history⟩
      else if c = byte '\n' then ⟨.empty, d.history.submit d.line.text⟩
      else if c = byte '\x08' then ⟨d.line.erase, d.history⟩
      else if c = byte '\t' then ⟨d.line.complete commandNames, d.history⟩
      else ⟨d.line.insert c, d.history⟩
  | .history a =>
      let history := d.history.navigate a d.line.text
      ⟨.atEnd history.current, history⟩
  | .bufferPosDecrement => ⟨d.line.moveLeft, d.history⟩
  | .bufferPosIncrement => ⟨d.line.moveRight, d.history⟩

section Session

variable {W : Type} (commands : Commands W)

/-- The routine of the shell that the driver calls. -/
def KeyCall.perform (call : KeyCall) (s : Shell W) : Except Fault (Shell W) :=
  match call with
  | .handleKey c => shellHandleKey commands c s
  | .history a => shellHistory a s
  | .bufferPosDecrement => shellBufferPosDecrement s
  | .bufferPosIncrement => shellBufferPosIncrement s

/-- The calls are performed one after the other. -/
def keyRun (s : Shell W) (calls : List KeyCall) : Except Fault (Shell W) :=
  calls.foldlM (fun s call => call.perform commands s) s

/-- The terminal is set up and printed to, `shell_init` shows the prompt, and keys are pressed. -/
def session (buffer : ℕ → BitVec 16) (crtc : Crtc) (ops : List TerminalOp) (world : W)
    (calls : List KeyCall) : Except Fault (Shell W) := do
  let k ← terminalRun (Console.initial buffer crtc) ops
  let s ← shellInit (Shell.boot k world)
  keyRun commands s calls

variable {commands} {s : Shell W} {d : Desk} {call : KeyCall} {c : Byte}

/-- A result that is not an error. -/
theorem exists_of_isOk {σ : Type} {result : Except Fault σ} (h : result.isOk = true) :
    ∃ s, result = .ok s := by
  cases result with
  | ok s => exact ⟨s, rfl⟩
  | error e => exact Bool.noConfusion h

/-! ### One key -/

/-- A printable character is no control character. -/
theorem Printable.ne (h : Printable c) {a : Byte} (ha : a.toNat < 0x20) : c ≠ a := by
  rintro rfl
  exact absurd h.1 (Nat.not_le_of_lt ha)

/-- Backspaces leave the terminal valid. -/
theorem backspaces_valid {t : Terminal} (h : t.Valid) (n : ℕ) : (backspaces n t).Valid :=
  forLoop_induction (fun _ (t : Terminal) => t.Valid) h
    fun _ _ _ ht => terminalBackspace_valid ht.toOnScreen

/-- Moving the cursor leaves the console valid. -/
theorem moveCursor_console {k : Console} (h : k.Valid) (offset : ℤ) :
    (k.onTerminal (terminalMoveCursor offset)).Valid :=
  h.onTerminal (terminalMoveCursor_valid h.terminal.toOnScreen offset)

/-- The command list holds the names of the commands. -/
theorem commandList_names : List.Forall₂ IsString commandList commandNames := by
  unfold commandList commandNames
  rw [List.forall₂_map_left_iff, List.forall₂_map_right_iff, List.forall₂_same]
  have h0 : ∀ name ∈ ["help", "fetch", "clear", "uptime", "memdump", "memtest", "mia", "mmap",
      "peek", "poke", "echo", "reboot", "exit", "crash", "setprompt"], 0 ∉ chars name := by decide
  exact fun name hname => isString_literal (h0 name hname)

/-- Every command name has room in the line. -/
theorem commandNames_short : ∀ name ∈ commandNames, name.length < 250 := by decide

/-- A byte is a character of the line, unless it is a NUL and there is room for it. -/
theorem handleChar_shows (h : s.Shows d) (hc : d.line.text.length < 255 → c ≠ 0) :
    ∃ s', handleChar c s = .ok s' ∧ s'.Shows ⟨d.line.insert c, d.history⟩ := by
  by_cases hlt : d.line.text.length < 255
  · obtain ⟨k, hprint, hk⟩ := putchars_ok h.console (c :: d.line.right)
    obtain ⟨buffer', hbuffer', hrun⟩ :=
      handleChar_eq h.edits (hc hlt) hlt hprint
    obtain ⟨hleft, hright⟩ := BoundedZipper.insert_of_lt hlt c
    refine ⟨_, hrun, ⟨?_, ?_⟩, h.history, moveCursor_console hk _, h.prompt⟩
    · unfold BoundedZipper.text
      rw [hleft, hright]
      simpa using hbuffer'
    · rw [hleft, List.length_append, List.length_singleton]
      push_cast
      rfl
  · refine ⟨s, handleChar_full h.edits hlt, ?_⟩
    rw [BoundedZipper.insert_of_full hlt]
    exact h

/-- A backspace erases in the line and leaves the history. -/
theorem handleBackspace_shows (h : s.Shows d) :
    ∃ s', handleBackspace s = .ok s' ∧ s'.Shows ⟨d.line.erase, d.history⟩ := by
  rcases List.eq_nil_or_concat' d.line.left with hleft | ⟨l, a, hleft⟩
  · refine ⟨s, handleBackspace_nil h.edits hleft, ?_⟩
    rw [BoundedZipper.erase_of_nil hleft]
    exact h
  · have hback := h.console.onTerminal (terminalBackspace_valid h.console.terminal.toOnScreen)
    obtain ⟨k, hprint, hk⟩ := putchars_ok hback (d.line.right ++ [byte ' '])
    obtain ⟨buffer', hbuffer', hrun⟩ := handleBackspace_eq h.edits hleft hprint
    have herase := BoundedZipper.erase_of_append hleft
    refine ⟨_, hrun, ⟨?_, ?_⟩, h.history, moveCursor_console hk _, h.prompt⟩
    · unfold BoundedZipper.text
      rw [herase]
      exact hbuffer'
    · rw [herase]

/-- Tab completes the line and leaves the history. -/
theorem commandCompletion_shows (h : s.Shows d) : ∃ s', commandCompletion s = .ok s' ∧
    s'.Shows ⟨d.line.complete commandNames, d.history⟩ ∧
    Completed s s' d.line (completion commandNames d.line.left) := by
  obtain ⟨out, hout⟩ := shellRenderPrompt_eq h.prompt
  obtain ⟨s', hrun, hk, hsame, hdone, -⟩ := commandCompletionWith_ok h.edits h.console hout
    commandList_names (by decide) commandNames_short
  refine ⟨s', hrun, ⟨?_, hsame.history_eq ▸ h.history, hk, hsame.prompt_eq ▸ h.prompt⟩, hdone⟩
  unfold Line.complete
  generalize completion commandNames d.line.left = ins at hdone
  cases ins with
  | none =>
    obtain ⟨hbuffer, hpos⟩ := hdone
    exact ⟨hbuffer ▸ h.edits.buffer, hpos ▸ h.edits.pos⟩
  | some ins =>
    obtain ⟨hbuffer, hpos⟩ := hdone
    have hfits : (d.line.left ++ ins).take 255 = d.line.left ++ ins := by
      refine List.take_of_length_le ?_
      have hlt := hbuffer.2.length_lt
      rw [hbuffer.1] at hlt
      exact Nat.le_pred_of_lt hlt
    refine ⟨?_, ?_⟩
    · change HoldsString bufferSize s'.buffer ((d.line.left ++ ins).take 255 ++ [])
      rwa [hfits, List.append_nil]
    · change s'.bufferPos = (((d.line.left ++ ins).take 255).length : ℤ)
      rwa [hfits]

/-- Up and Down act as on the ideal desk. -/
theorem shellHistory_shows (h : s.Shows d) (a : ℤ) :
    ∃ s', shellHistory a s = .ok s' ∧ s'.Shows (d.act (.history a)) := by
  have hmove := moveCursor_console h.console (d.line.right.length : ℤ)
  have hback := hmove.onTerminal (f := backspaces d.line.text.length)
    (backspaces_valid hmove.terminal _)
  obtain ⟨k, hprint, hk⟩ := putchars_ok hback (d.history.navigate a d.line.text).current
  obtain ⟨buffer', history', hbuffer', hr', hrun⟩ := shellHistory_eq h.edits h.history a hprint
  have hfits : (d.history.navigate a d.line.text).current.take 255 =
      (d.history.navigate a d.line.text).current := by
    refine List.take_of_length_le ?_
    have hlt := hbuffer'.2.length_lt
    rw [hbuffer'.1] at hlt
    exact Nat.le_pred_of_lt hlt
  refine ⟨_, hrun, ⟨?_, ?_⟩, hr', hk, h.prompt⟩
  · change HoldsString bufferSize buffer'
      ((d.history.navigate a d.line.text).current.take 255 ++ [])
    rwa [hfits, List.append_nil]
  · change _ = (((d.history.navigate a d.line.text).current.take 255).length : ℤ)
    rw [hfits]

/-- The left arrow moves in the line and leaves the history. -/
theorem moveLeft_shows (h : s.Shows d) : ∃ s', shellBufferPosDecrement s = .ok s' ∧
    s'.Shows ⟨d.line.moveLeft, d.history⟩ := by
  rcases List.eq_nil_or_concat' d.line.left with hleft | ⟨l, a, hleft⟩
  · refine ⟨s, shellBufferPosDecrement_nil h.edits hleft, ?_⟩
    rw [BoundedZipper.moveLeft_of_nil hleft]
    exact h
  · obtain ⟨hleft', hright'⟩ := BoundedZipper.moveLeft_of_append hleft
    refine ⟨_, shellBufferPosDecrement_eq h.edits hleft, ⟨?_, ?_⟩, h.history,
      moveCursor_console h.console _, h.prompt⟩
    · have hbuffer := h.edits.buffer
      unfold BoundedZipper.text at hbuffer ⊢
      rw [hleft', hright']
      rw [hleft] at hbuffer
      simpa using hbuffer
    · rw [hleft']

/-- The right arrow moves in the line and leaves the history. -/
theorem moveRight_shows (h : s.Shows d) : ∃ s', shellBufferPosIncrement s = .ok s' ∧
    s'.Shows ⟨d.line.moveRight, d.history⟩ := by
  match hright : d.line.right with
  | [] =>
    refine ⟨s, shellBufferPosIncrement_nil h.edits hright, ?_⟩
    rw [BoundedZipper.moveRight_of_nil hright]
    exact h
  | a :: r =>
    obtain ⟨hleft', hright'⟩ := BoundedZipper.moveRight_of_cons hright
    refine ⟨_, shellBufferPosIncrement_eq h.edits hright, ⟨?_, ?_⟩, h.history,
      moveCursor_console h.console _, h.prompt⟩
    · have hbuffer := h.edits.buffer
      unfold BoundedZipper.text at hbuffer ⊢
      rw [hleft', hright']
      rw [hright] at hbuffer
      simpa using hbuffer
    · rw [hleft']

/-- A printable character goes into the line. -/
theorem act_printable (d : Desk) (hc : Printable c) :
    d.act (.handleKey c) = ⟨d.line.insert c, d.history⟩ := by
  unfold Desk.act
  dsimp only
  rw [if_neg (hc.ne (by decide)), if_neg (hc.ne (by decide)), if_neg (hc.ne (by decide)),
    if_neg (hc.ne (by decide))]

/-- Any call but that of Enter returns, a byte from wherever included, if it is no NUL that finds
room in the line. -/
theorem perform_call_ok (commands : Commands W) (h : s.Shows d)
    (hzero : call = .handleKey 0 → ¬ d.line.text.length < 255)
    (henter : call ≠ .handleKey (byte '\n')) :
    ∃ s', call.perform commands s = .ok s' ∧ s'.Shows (d.act call) := by
  cases call with
  | handleKey c =>
    have hnewline : c ≠ byte '\n' := fun he => henter (he ▸ rfl)
    unfold KeyCall.perform shellHandleKey Desk.act
    dsimp only
    by_cases hff : c = formFeed
    · rw [if_pos hff, if_pos hff]
      exact shellInit_ok h.history (h.console.onTerminal
        (terminalClear_valid h.console.terminal.toOnScreen)) h.prompt
    rw [if_neg hff, if_neg hff, if_neg hnewline, if_neg hnewline]
    by_cases hback : c = byte '\x08'
    · rw [if_pos hback, if_pos hback]
      exact handleBackspace_shows h
    rw [if_neg hback, if_neg hback]
    by_cases htab : c = byte '\t'
    · rw [if_pos htab, if_pos htab]
      obtain ⟨s', hrun, hs', -⟩ := commandCompletion_shows h
      exact ⟨s', hrun, hs'⟩
    rw [if_neg htab, if_neg htab]
    refine handleChar_shows h fun hlt hc => ?_
    exact hzero (hc ▸ rfl) hlt
  | history a => exact shellHistory_shows h a
  | bufferPosDecrement => exact moveLeft_shows h
  | bufferPosIncrement => exact moveRight_shows h

/-- Every such call does on the shell what it does on the desk, unless a command does not return. -/
theorem perform_call_completes (commands : Commands W) (h : s.Shows d)
    (hzero : call = .handleKey 0 → ¬ d.line.text.length < 255) :
    Completes (fun s' => s'.Shows (d.act call)) (call.perform commands s) := by
  by_cases henter : call = .handleKey (byte '\n')
  · subst henter
    exact handleEnter_ok commands h
  · obtain ⟨s', hrun, hs'⟩ := perform_call_ok commands h hzero henter
    exact .of_ok hrun hs'

/-- The keyboard driver passes no NUL on. -/
theorem KeyCall.Known.ne_zero (h : call.Known) : call ≠ .handleKey 0 := by
  cases h with
  | printable hc => exact fun he => hc.ne (by decide) (KeyCall.handleKey.inj he)
  | _ => decide

/-- A key that runs no command always returns. -/
theorem perform_edit_ok (commands : Commands W) (h : s.Shows d) (hknown : call.Known)
    (henter : call ≠ .handleKey (byte '\n')) :
    ∃ s', call.perform commands s = .ok s' ∧ s'.Shows (d.act call) :=
  perform_call_ok commands h (fun he => absurd he hknown.ne_zero) henter

/-- Every key succeeds and acts as on the ideal desk. -/
theorem perform_ok (commands : Commands W) (h : s.Shows d) (hknown : call.Known) :
    Completes (fun s' => s'.Shows (d.act call)) (call.perform commands s) :=
  perform_call_completes commands h fun he => absurd he hknown.ne_zero

/-! ### Sequences of keys -/

/-- After the boot the shell prompts with an empty line and history. -/
theorem boot_prompting {k : Console} (hk : k.Valid) (world : W) :
    Prompting (Shell.boot k world) .empty .empty :=
  ⟨⟨holdsString_zero (by decide), rfl⟩, represents_zero, hk, Prompt.initial_valid⟩

/-- Two runs of keys follow each other. -/
theorem keyRun_append (commands : Commands W) (s : Shell W) (calls calls' : List KeyCall) :
    keyRun commands s (calls ++ calls') =
      (keyRun commands s calls).bind fun s => keyRun commands s calls' := by
  unfold keyRun
  rw [List.foldlM_append]
  rfl

/-- Every run of keys succeeds and acts as on the ideal desk. -/
theorem keyRun_ok (commands : Commands W) (h : s.Shows d) (calls : List KeyCall)
    (hknown : ∀ call ∈ calls, call.Known) :
    Completes (fun s' => s'.Shows (calls.foldl Desk.act d)) (keyRun commands s calls) := by
  induction calls generalizing s d with
  | nil => exact .of_ok rfl h
  | cons call calls ih =>
    refine (perform_ok commands h (hknown call List.mem_cons_self)).bind fun s' hs' => ?_
    exact ih hs' fun c hc => hknown c (List.mem_cons_of_mem _ hc)

/-- The empty desk of a fresh kernel. -/
def Desk.initial : Desk := ⟨.empty, .empty⟩

/-- A session shows what its keys make of the empty desk. -/
theorem session_prompting (commands : Commands W) (buffer : ℕ → BitVec 16) (crtc : Crtc)
    (ops : List TerminalOp) (world : W) (calls : List KeyCall)
    (hknown : ∀ call ∈ calls, call.Known) :
    Completes (fun s => s.Shows (calls.foldl Desk.act .initial))
      (session commands buffer crtc ops world calls) := by
  obtain ⟨k, hrun, hk⟩ := terminalRun_ok (Console.initial_valid buffer crtc) ops
  obtain ⟨s, hinit, hs⟩ := shellInit_ok (s := Shell.boot k world) represents_zero hk
    Prompt.initial_valid
  unfold session
  rw [hrun, ok_bind, hinit, ok_bind]
  exact keyRun_ok commands (d := Desk.initial) hs calls hknown

/-- Keys that run no command always return. -/
theorem keyRun_edit_ok (commands : Commands W) (h : s.Shows d) (calls : List KeyCall)
    (hknown : ∀ call ∈ calls, call.Known)
    (henter : .handleKey (byte '\n') ∉ calls) :
    ∃ s', keyRun commands s calls = .ok s' ∧ s'.Shows (calls.foldl Desk.act d) := by
  induction calls generalizing s d with
  | nil => exact ⟨s, rfl, h⟩
  | cons call calls ih =>
    obtain ⟨s₁, hstep, hs₁⟩ := perform_edit_ok commands h
      (hknown call List.mem_cons_self) fun he => henter (he ▸ List.mem_cons_self)
    obtain ⟨s', hrun, hs'⟩ := ih hs₁ (fun c hc => hknown c (List.mem_cons_of_mem _ hc))
      fun hc => henter (List.mem_cons_of_mem _ hc)
    refine ⟨s', ?_, hs'⟩
    unfold keyRun at hrun ⊢
    rw [List.foldlM_cons, hstep, ok_bind, hrun]

/-- A session without Enter always comes to show what its keys make of the empty desk. -/
theorem session_edit_prompting (commands : Commands W) (buffer : ℕ → BitVec 16) (crtc : Crtc)
    (ops : List TerminalOp) (world : W) (calls : List KeyCall) (hknown : ∀ call ∈ calls, call.Known)
    (henter : .handleKey (byte '\n') ∉ calls) :
    ∃ s, session commands buffer crtc ops world calls = .ok s ∧
      s.Shows (calls.foldl Desk.act .initial) := by
  obtain ⟨k, hrun, hk⟩ := terminalRun_ok (Console.initial_valid buffer crtc) ops
  obtain ⟨s, hinit, hs⟩ := shellInit_ok (s := Shell.boot k world) represents_zero hk
    Prompt.initial_valid
  unfold session
  rw [hrun, ok_bind, hinit, ok_bind]
  exact keyRun_edit_ok commands (d := Desk.initial) hs calls hknown henter

/-- A key that the keyboard driver delivers. -/
abbrev Key := { call : KeyCall // call.Delivered }

/-- No command name occurs twice. -/
theorem commandNames_nodup : commandNames.Nodup := by decide

/-- Tab inserts before the text right of the cursor only where there is no such text or nothing to
insert: what it inserts is written over that text. -/
theorem commandCompletion_keeps_iff {z : Line} {m : Recall} (h : Prompting s z m) :
    ∃ s', shellHandleKey commands (byte '\t') s = .ok s' ∧
      ((∃ ins, IsString s'.buffer (z.left ++ ins ++ z.right) ∧
          s'.bufferPos = (z.left ++ ins).length) ↔
        z.right = [] ∨ NothingToInsert commandNames z.left) := by
  obtain ⟨s', hrun, -, hdone⟩ := commandCompletion_shows (d := ⟨z, m⟩) h
  refine ⟨s', hrun, ?_⟩
  rw [← completion_eq_none_iff commandNames_nodup]
  change Completed s s' z (completion commandNames z.left) at hdone
  generalize completion commandNames z.left = ins at hdone
  cases ins with
  | none =>
    obtain ⟨hbuffer, hpos⟩ := hdone
    refine iff_of_true ⟨[], ?_, ?_⟩ (Or.inr rfl)
    · rw [hbuffer, List.append_nil]
      exact h.edits.buffer.2
    · rw [hpos, List.append_nil]
      exact h.edits.pos
  | some ins =>
    obtain ⟨hbuffer, hpos⟩ := hdone
    rw [or_iff_left (Option.some_ne_none ins)]
    constructor
    · rintro ⟨ins', hbuffer', hpos'⟩
      have htext := congrArg List.length (hbuffer'.text_unique hbuffer.2)
      rw [hpos, Int.ofNat_inj] at hpos'
      rw [List.length_append, ← hpos'] at htext
      exact List.length_eq_zero_iff.mp (Nat.add_left_cancel htext)
    · intro hright
      refine ⟨ins, ?_, hpos⟩
      rw [hright, List.append_nil]
      exact hbuffer.2

/-- Of the letter `h`, Tab makes `help `. -/
theorem commandCompletion_keeps_h : ∃ (s s' : Shell Unit) (z : Line) (m : Recall),
    Prompting s z m ∧ z.left = [byte 'h'] ∧
    shellHandleKey (fun _ _ w => some ([], w)) (byte '\t') s = .ok s' ∧
    IsString s'.buffer (chars "help ") ∧
    ∃ ins, IsString s'.buffer (z.left ++ ins ++ z.right) ∧
      s'.bufferPos = (z.left ++ ins).length := by
  obtain ⟨s, -, hs⟩ := session_edit_prompting (fun _ _ w => some ([], w)) (fun _ => 0)
    ⟨0, fun _ => 0⟩ [] () [.handleKey (byte 'h')]
    (by
      rw [List.forall_mem_singleton]
      exact .printable ⟨by decide, by decide⟩)
    (by decide)
  obtain ⟨s', hrun, hshows, -⟩ := commandCompletion_shows hs
  have htab : shellHandleKey (fun _ _ w => some ([], w)) (byte '\t') s = .ok s' := hrun
  obtain ⟨t, ht, hiff⟩ := commandCompletion_keeps_iff hs
  obtain rfl : s' = t := Except.ok.inj (htab.symm.trans ht)
  exact ⟨s, s', _, _, hs, rfl, htab, hshows.edits.buffer.2, hiff.mpr (Or.inl rfl)⟩

/-- With `h` left and `x` right of the cursor, Tab leaves `help ` and no `x`. -/
theorem commandCompletion_overwrites : ¬ ∀ (s s' : Shell Unit) (z : Line) (m : Recall),
    Prompting s z m → shellHandleKey (fun _ _ w => some ([], w)) (byte '\t') s = .ok s' →
      ∃ ins, IsString s'.buffer (z.left ++ ins ++ z.right) ∧
        s'.bufferPos = (z.left ++ ins).length := by
  intro hall
  obtain ⟨s, -, hs⟩ := session_edit_prompting (fun _ _ w => some ([], w)) (fun _ => 0)
    ⟨0, fun _ => 0⟩ [] () [.handleKey (byte 'h'), .handleKey (byte 'x'), .bufferPosDecrement]
    (by
      rw [List.forall_mem_cons, List.forall_mem_cons, List.forall_mem_singleton]
      exact ⟨.printable ⟨by decide, by decide⟩, .printable ⟨by decide, by decide⟩, .left⟩)
    (by decide)
  obtain ⟨s', hrun, hs', -⟩ := commandCompletion_shows hs
  obtain ⟨ins, hkept, -⟩ := hall s s' _ _ hs hrun
  have htext := hkept.text_unique hs'.edits.buffer.2
  change [byte 'h'] ++ ins ++ [byte 'x'] = chars "help " at htext
  have hlast := congrArg List.getLast? htext
  rw [List.getLast?_concat] at hlast
  exact absurd hlast (by decide)

end Session

end AuriOS
