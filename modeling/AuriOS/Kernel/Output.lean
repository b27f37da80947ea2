import AuriOS.Kernel.Dispatch
import AuriOS.Kernel.LineDisplay
import AuriOS.Kernel.Traced

/-!
# What a line prints

What running a line does to the terminal does not depend on the terminal: text and colour sequences
are printed, or the screen is cleared.  The commands whose bodies are elsewhere are assumed to print
text and colour sequences (`PlainCommands`), as the texts of their sources are.

* `shellExecute_draws`: every line without an escape byte has such an output, unless its command
  does not return, and leaves names without an escape byte in the prompt;
* `session_plainPrompt`: so do all keys that the keyboard driver delivers.
-/

namespace AuriOS

open Program Words

/-- What running a line does to the terminal. -/
inductive Output
  | printed (items : List Printed)
  | cleared

/-- The output is drawn on a console. -/
def Output.draw : Output → Console → Except Fault Console
  | .printed items, k => putchars k (items.flatMap Printed.bytes)
  | .cleared, k => pure (k.onTerminal terminalClear)

/-- Neither name of the prompt has an escape byte. -/
structure Prompt.Plain (p : Prompt) : Prop where
  user : ∃ name, HoldsString nameSize p.user name ∧ escByte ∉ name
  os : ∃ name, HoldsString nameSize p.os name ∧ escByte ∉ name

section Output

variable {W : Type}

/-- The commands print text and colour sequences. -/
def PlainCommands (commands : Commands W) : Prop :=
  ∀ command argv world out world', commands command argv world = some (out, world') →
    ∃ items : List Printed, items.flatMap Printed.bytes = out

/-- Whatever the console, the routine draws this on it, and leaves this shell otherwise. -/
def Draws (routine : Shell W → Except Fault (Shell W)) (s s' : Shell W) (output : Output) : Prop :=
  ∀ k, routine { s with console := k } = output.draw k >>= fun k => pure { s' with console := k }

/-- The routine draws something and leaves a plain prompt, or it does not return. -/
def DrawsOrStops (routine : Shell W → Except Fault (Shell W)) (s : Shell W) : Prop :=
  (∃ s' output, Draws routine s s' output ∧ s'.prompt.Plain) ∨
    ∀ k, routine { s with console := k } = .error .stopped

variable {commands : Commands W} {s s' : Shell W} {routine : Shell W → Except Fault (Shell W)}
  {argv args : List (List Byte)} {k : Console} {output : Output}

/-- A plain prompt is valid. -/
theorem Prompt.Plain.valid {p : Prompt} (h : p.Plain) : p.Valid := by
  obtain ⟨user, huser, -⟩ := h.user
  obtain ⟨os, hos, -⟩ := h.os
  exact ⟨⟨user, huser⟩, ⟨os, hos⟩⟩

/-- The prompt of the boot is plain. -/
theorem Prompt.initial_plain : Prompt.initial.Plain :=
  ⟨⟨_, initialized_holdsString (by decide) (by decide), by decide⟩,
    ⟨_, initialized_holdsString (by decide) (by decide), by decide⟩⟩

/-- Every output can be drawn, and leaves the console valid. -/
theorem Output.draw_ok (output : Output) (hk : k.Valid) :
    ∃ k', output.draw k = .ok k' ∧ k'.Valid := by
  cases output with
  | printed items => exact putchars_ok hk _
  | cleared => exact ⟨_, rfl, hk.onTerminal (terminalClear_valid hk.terminal.toOnScreen)⟩

/-! ### The commands -/

/-- A routine that sends a text to the console. -/
theorem drawsOrStops_of_sends {f : Console → Except Fault Console} {out : List Byte}
    (hf : Sends f out) (hesc : escByte ∉ out) (hp : s.prompt.Plain)
    (hroutine : ∀ k,
      routine { s with console := k } = f k >>= fun k => pure { s with console := k }) :
    DrawsOrStops routine s := by
  refine Or.inl ⟨s, .printed [.text out hesc], fun k => ?_, hp⟩
  rw [hroutine, hf k, Output.draw, List.flatMap_singleton]
  rfl

/-- A plain command draws something, or does not return. -/
theorem runCommand_draws (hcommands : PlainCommands commands) (command : Command)
    (argv : List (List Byte)) (hp : s.prompt.Plain) :
    DrawsOrStops (runCommand commands command argv) s := by
  cases hcommand : commands command argv s.world with
  | none =>
    refine Or.inr fun k => ?_
    unfold runCommand
    dsimp only
    rw [hcommand]
    rfl
  | some result =>
    obtain ⟨out, world⟩ := result
    obtain ⟨items, hitems⟩ := hcommands command argv s.world out world hcommand
    refine Or.inl ⟨{ s with world := world }, .printed items, fun k => ?_, hp⟩
    unfold runCommand
    dsimp only
    rw [hcommand, Output.draw, hitems]

/-- `echo` draws the words of its line. -/
theorem runEcho_draws (cmdName : List Byte) (hargv : List.Forall₂ IsString argv args)
    (hplain : ∀ arg ∈ args, escByte ∉ arg) (hp : s.prompt.Plain) :
    DrawsOrStops (fun s => echo (cmdName :: argv) s.console >>= fun k =>
      pure { s with console := k }) s := by
  obtain ⟨out, hout, hsub⟩ := echo_text cmdName hargv
  refine drawsOrStops_of_sends hout (fun hmem => ?_) hp fun k => rfl
  rcases List.mem_append.mp (hsub hmem) with hmem | hmem
  · obtain ⟨arg, harg, hmem⟩ := List.mem_flatten.mp hmem
    exact hplain arg harg hmem
  · exact absurd hmem (by decide)

/-- What is copied into the prompt is plain. -/
theorem runSetprompt_draws (hargv : List.Forall₂ IsString argv args)
    (hplain : ∀ arg ∈ args, escByte ∉ arg) (hp : s.prompt.Plain) :
    DrawsOrStops (fun s => setprompt argv s.prompt s.console >>= fun r =>
      pure { s with prompt := r.1, console := r.2 }) s := by
  have hcut : ∀ word ∈ args, escByte ∉ word.take (nameSize - 1) := fun word hword hmem =>
    hplain word hword (List.mem_of_mem_take hmem)
  rcases setprompt_cases hp.valid hargv with husage | ⟨p', hset, ⟨word, hword, huser⟩, hos⟩
  · have hmessage := sends_writestring (isString_literal
      (s := "Usage: setprompt <user> <os>\n") (by decide))
    refine drawsOrStops_of_sends hmessage (by decide) hp fun k => ?_
    dsimp only
    rw [husage, bind_assoc]
    rfl
  · refine Or.inl ⟨{ s with prompt := p' }, .printed [], fun k => ?_, ⟨_, huser, hcut word hword⟩,
      ?_⟩
    · dsimp only
      rw [hset]
      rfl
    · rcases hos with hsame | ⟨word', hword', hos⟩
      · exact hsame ▸ hp.os
      · exact ⟨_, hos, hcut word' hword'⟩

/-- The message for an unknown command is drawn. -/
theorem commandNotFound_draws {cmdName name : List Byte} (hname : IsString cmdName name)
    (hesc : escByte ∉ name) (hp : s.prompt.Plain) : DrawsOrStops (commandNotFound cmdName) s := by
  have hmessage := sends_writestring (isString_literal (s := "command not found: ") (by decide))
  have hnewline : Sends (fun k => terminalPutchar k (byte '\n')) (chars "\n") :=
    fun _ => (bind_pure _).symm
  have hesc' : escByte ∉ chars "command not found: " ++ (name ++ chars "\n") := by
    intro hmem
    rcases List.mem_append.mp hmem with hmem | hmem
    · exact absurd hmem (by decide)
    · rcases List.mem_append.mp hmem with hmem | hmem
      · exact hesc hmem
      · exact absurd hmem (by decide)
  refine drawsOrStops_of_sends (hmessage.then ((sends_writestring hname).then hnewline)) hesc' hp
    fun k => ?_
  unfold commandNotFound
  simp only [bind_assoc]

/-- Whatever the chain comes down to draws something. -/
theorem Branch.draws {cmdName : List Byte} (hcommands : PlainCommands commands)
    (h : Branch commands cmdName (cmdName :: argv) routine)
    (hargv : List.Forall₂ IsString (cmdName :: argv) args) (hplain : ∀ arg ∈ args, escByte ∉ arg)
    (hp : s.prompt.Plain) : DrawsOrStops routine s := by
  cases h with
  | plain command => exact runCommand_draws hcommands command [] hp
  | withArgs command =>
    rw [readStrings_eq hargv]
    exact runCommand_draws hcommands command args hp
  | clear => exact Or.inl ⟨s, .cleared, fun _ => rfl, hp⟩
  | echo =>
    cases hargv with
    | cons _ hargv =>
      exact runEcho_draws cmdName hargv
        (fun arg harg => hplain arg (List.mem_cons_of_mem _ harg)) hp
  | setprompt => exact runSetprompt_draws hargv hplain hp
  | notFound =>
    cases hargv with
    | cons hname _ => exact commandNotFound_draws hname (hplain _ List.mem_cons_self) hp

/-! ### The line -/

variable {z : Line} {m : Recall} {call : KeyCall}

/-- The words of a line have its bytes. -/
theorem subset_of_mem_lineWords {line word : List Byte} (h : word ∈ lineWords line) :
    word ⊆ line := by
  obtain ⟨w, hw, rfl⟩ := List.mem_map.mp h
  obtain ⟨pre, post, hl, -⟩ := mem_words_iff.mp hw
  intro b hb
  refine strip_subset line ?_
  rw [hl]
  exact List.mem_append_right _ (List.mem_append_left _ hb)

/-- Every line without an escape byte draws something, unless its command does not return. -/
theorem shellExecute_draws (hcommands : PlainCommands commands) (h : Prompting s z m)
    (hesc : escByte ∉ z.text) (hp : s.prompt.Plain) : DrawsOrStops (shellExecute commands) s := by
  obtain ⟨history', buffer', -, -, hcase⟩ :=
    shellExecute_eq commands h.edits.buffer.2 h.history
  rcases hcase with ⟨-, hrun⟩ | ⟨cmdName, argv, hstrings, hrun⟩
  · exact Or.inl ⟨{ s with history := history', buffer := buffer' }, .printed [], hrun, hp⟩
  · have hplain : ∀ word ∈ (lineWords z.text).take 16, escByte ∉ word := fun word hword hmem =>
      hesc (subset_of_mem_lineWords (List.mem_of_mem_take hword) hmem)
    obtain ⟨name, args, hname, -, -⟩ := List.forall₂_cons_left_iff.mp hstrings
    have hbranch := dispatch_branch commands hname (cmdName :: argv)
    have hdraws := hbranch.draws (s := { s with history := history', buffer := buffer' }) hcommands
      hstrings hplain hp
    rcases hdraws with ⟨s', output, hdraws, hp'⟩ | hstop
    · exact Or.inl ⟨s', output, fun k => (hrun k).trans (hdraws k), hp'⟩
    · exact Or.inr fun k => (hrun k).trans (hstop k)

/-- A routine has one output in the sense that matters: the prompt is the same. -/
theorem Draws.prompt_eq {s'' : Shell W} {output' : Output} (h : Draws routine s s' output)
    (h' : Draws routine s s'' output') (hk : k.Valid) : s'.prompt = s''.prompt := by
  obtain ⟨k₁, hdraw, -⟩ := output.draw_ok hk
  obtain ⟨k₂, hdraw', -⟩ := output'.draw_ok hk
  have hsame := (h k).symm.trans (h' k)
  rw [hdraw, hdraw', ok_bind, ok_bind] at hsame
  have hshell := Except.ok.inj hsame
  exact (Shell.mk.inj hshell).2.2.2.2.1

/-- Enter prints a newline, the output of the line and the prompt. -/
theorem handleEnter_draws (h : Prompting s z m) (hdraws : Draws (shellExecute commands) s s' output)
    (hp : s'.prompt.Valid) :
    ∃ s₁, handleEnter commands s = .ok s₁ ∧ s₁.prompt = s'.prompt ∧
      (terminalPutchar s.console (byte '\n') >>= fun k => output.draw k >>= fun k =>
        putchars k s'.prompt.rendered) = .ok s₁.console := by
  obtain ⟨k₁, hnewline, hk₁⟩ := ansiProcessChar_ok h.console (byte '\n')
  obtain ⟨k₂, hdraw, hk₂⟩ := output.draw_ok hk₁
  obtain ⟨k₃, hprint, -⟩ := putchars_ok hk₂ s'.prompt.rendered
  have hrun : shellExecute commands { s with console := k₁ } = .ok { s' with console := k₂ } := by
    rw [hdraws k₁, hdraw]
    rfl
  have hexecuted : Completes (fun t => Executed { s with console := k₁ } t (m.submit z.text))
      (shellExecute commands { s with console := k₁ }) :=
    shellExecute_ok h.edits.buffer.2 h.history hk₁ h.prompt
  have hlength : s'.buffer.length = bufferSize :=
    (hexecuted.elim hrun).buffer_length.trans h.edits.buffer.1
  obtain ⟨buffer', hclear, -⟩ := setByte_zero_holdsString (by decide) hlength
  refine ⟨{ s' with buffer := buffer', bufferPos := 0, console := k₃ }, ?_, rfl, ?_⟩
  · unfold handleEnter
    rw [terminalPutchar, hnewline, ok_bind, hrun, ok_bind]
    dsimp only
    rw [hclear, ok_bind, shellRenderPrompt_rendered hp, hprint]
    rfl
  · rw [terminalPutchar, hnewline, ok_bind, hdraw, ok_bind, hprint]

/-! ### The prompt through a session -/

/-- A character leaves the prompt. -/
theorem handleChar_prompt {c : Byte} :
    Yields (fun s' => s'.prompt = s.prompt) (handleChar c s) := by
  unfold handleChar
  refine .bind fun len => ?_
  split
  · exact .bind fun _ => .bind fun _ => .bind fun _ => .bind fun _ => .bind fun _ => .ok rfl
  · exact .ok rfl

/-- A backspace leaves the prompt. -/
theorem handleBackspace_prompt : Yields (fun s' => s'.prompt = s.prompt) (handleBackspace s) := by
  unfold handleBackspace
  split
  · exact .bind fun _ => .bind fun _ => .bind fun _ => .bind fun _ => .bind fun _ => .bind fun _ =>
      .ok rfl
  · exact .ok rfl

/-- Up and Down leave the prompt. -/
theorem shellHistory_prompt {a : ℤ} :
    Yields (fun s' => s'.prompt = s.prompt) (shellHistory a s) := by
  unfold shellHistory
  refine .bind fun _ => ?_
  dsimp only
  split
  all_goals
    exact .bind fun _ => .bind fun _ => .bind fun _ => .bind fun _ => .bind fun _ => .ok rfl

/-- The start of the shell leaves the prompt. -/
theorem shellInit_prompt (h : shellInit s = .ok s') : s'.prompt = s.prompt := by
  unfold shellInit at h
  obtain ⟨_, -, h⟩ := except_bind_eq_ok.mp h
  exact (congrArg Shell.prompt (Except.ok.inj h)).symm

/-- Only Enter changes the prompt. -/
theorem perform_prompt (h : Prompting s z m) (henter : call ≠ .handleKey (byte '\n'))
    (hrun : call.perform commands s = .ok s') : s'.prompt = s.prompt := by
  cases call with
  | handleKey c =>
    have hnewline : c ≠ byte '\n' := fun he => henter (he ▸ rfl)
    unfold KeyCall.perform shellHandleKey at hrun
    dsimp only at hrun
    by_cases hff : c = formFeed
    · rw [if_pos hff] at hrun
      exact (shellInit_prompt hrun).trans rfl
    rw [if_neg hff, if_neg hnewline] at hrun
    by_cases hback : c = byte '\x08'
    · rw [if_pos hback] at hrun
      exact handleBackspace_prompt _ hrun
    rw [if_neg hback] at hrun
    by_cases htab : c = byte '\t'
    · rw [if_pos htab] at hrun
      obtain ⟨s₁, hrun₁, -, hsame, -⟩ := commandCompletionWith_ok h.edits h.console
        (shellRenderPrompt_rendered h.prompt) commandList_names (by decide) commandNames_short
      obtain rfl := Except.ok.inj (hrun₁.symm.trans hrun)
      exact hsame.prompt_eq
    · rw [if_neg htab] at hrun
      exact handleChar_prompt _ hrun
  | history a => exact shellHistory_prompt _ hrun
  | bufferPosDecrement =>
    unfold KeyCall.perform shellBufferPosDecrement at hrun
    dsimp only at hrun
    split at hrun
    · exact (congrArg Shell.prompt (Except.ok.inj hrun)).symm
    · exact (congrArg Shell.prompt (Except.ok.inj hrun)).symm
  | bufferPosIncrement =>
    unfold KeyCall.perform shellBufferPosIncrement at hrun
    dsimp only at hrun
    obtain ⟨_, -, hrun⟩ := except_bind_eq_ok.mp hrun
    split at hrun
    · exact (congrArg Shell.prompt (Except.ok.inj hrun)).symm
    · exact (congrArg Shell.prompt (Except.ok.inj hrun)).symm

variable {d : Desk} {calls : List KeyCall}

/-- The shell shows the desk, and all that it may print is plain. -/
structure Shell.ShowsPlain (s : Shell W) (d : Desk) : Prop where
  shows : s.Shows d
  plain : d.Plain
  prompt : s.prompt.Plain

/-- A key keeps the prompt plain. -/
theorem perform_plainPrompt (hcommands : PlainCommands commands) (h : s.ShowsPlain d)
    (hknown : call.Known) :
    Completes (fun s' => s'.ShowsPlain (d.act call)) (call.perform commands s) := by
  rcases perform_ok commands h.shows hknown with ⟨s', hrun, hs'⟩ | hstop
  · refine .of_ok hrun ⟨hs', act_plain h.plain hknown, ?_⟩
    by_cases henter : call = .handleKey (byte '\n')
    · subst henter
      obtain ⟨k, hnewline, -⟩ := ansiProcessChar_ok h.shows.console (byte '\n')
      rcases shellExecute_draws hcommands h.shows h.plain.line.not_esc h.prompt with
        ⟨t, output, hdraws, ht⟩ | hstop
      · obtain ⟨s₁, hrun₁, hprompt, -⟩ := handleEnter_draws h.shows hdraws ht.valid
        obtain rfl : s₁ = s' := Except.ok.inj (hrun₁.symm.trans hrun)
        exact hprompt ▸ ht
      · change handleEnter commands s = _ at hrun
        unfold handleEnter at hrun
        rw [terminalPutchar, hnewline, ok_bind, hstop] at hrun
        cases hrun
    · exact perform_prompt h.shows henter hrun ▸ h.prompt
  · exact Or.inr hstop

/-- Keys keep the prompt plain. -/
theorem keyRun_plainPrompt (hcommands : PlainCommands commands) (h : s.ShowsPlain d)
    (hknown : ∀ call ∈ calls, call.Known) :
    Completes (fun s' => s'.ShowsPlain (calls.foldl Desk.act d)) (keyRun commands s calls) := by
  induction calls generalizing s d with
  | nil => exact .of_ok rfl h
  | cons call calls ih =>
    refine (perform_plainPrompt hcommands h (hknown call List.mem_cons_self)).bind fun s' hs' => ?_
    exact ih hs' fun c hc => hknown c (List.mem_cons_of_mem _ hc)

/-- In every state that keys lead to, the line, the history and the prompt are plain. -/
theorem session_plainPrompt (hcommands : PlainCommands commands) (buffer : ℕ → BitVec 16)
    (crtc : Crtc) (ops : List TerminalOp) (world : W) (hknown : ∀ call ∈ calls, call.Known) :
    Completes (fun s => ∃ d, s.ShowsPlain d) (session commands buffer crtc ops world calls) := by
  obtain ⟨k, hrun, hk⟩ := terminalRun_ok (Console.initial_valid buffer crtc) ops
  obtain ⟨s, hinit, hs⟩ := shellInit_ok (s := Shell.boot k world) represents_zero hk
    Prompt.initial_valid
  have hplain : s.prompt.Plain := shellInit_prompt hinit ▸ Prompt.initial_plain
  unfold session
  rw [hrun, ok_bind, hinit, ok_bind]
  rcases keyRun_plainPrompt (d := Desk.initial) hcommands ⟨hs, ⟨.nil, Recall.plain_empty⟩, hplain⟩
    hknown with ⟨s', hrun', hs'⟩ | hstop
  · exact .of_ok hrun' ⟨_, hs'⟩
  · exact Or.inr hstop

end Output

end AuriOS
