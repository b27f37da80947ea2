import AuriOS.Kernel.LineEditor
import AuriOS.Kernel.Parse

/-!
# Running a line

What Enter does to the shell, up to the fresh prompt.

* `dispatch_branch`: what the chain of `strcmp` comes down to;
* `Branch.keepsLine`: each of it returns and leaves the line, the cursor and the history alone, or
  it does not return;
* `shellExecute_eq`: running a line is dispatching its first sixteen words;
* `shellExecute_ok`, `handleEnter_ok`: a line that was run is in the history, if it was not empty,
  and the editor is empty again.
-/

namespace AuriOS

open Program Words

/-- The routine returns with this, or a command does not return; nothing else goes wrong. -/
def Completes {σ : Type} (Q : σ → Prop) (result : Except Fault σ) : Prop :=
  (∃ s, result = .ok s ∧ Q s) ∨ result = .error .stopped

section Completes

variable {σ τ : Type} {Q : σ → Prop} {Q' : τ → Prop} {result : Except Fault σ}

/-- A result that satisfies the condition completes with it. -/
theorem Completes.of_ok {s : σ} (hs : result = .ok s) (hQ : Q s) : Completes Q result :=
  Or.inl ⟨s, hs, hQ⟩

/-- What completes goes on to what completes. -/
theorem Completes.bind {f : σ → Except Fault τ} (h : Completes Q result)
    (hf : ∀ s, Q s → Completes Q' (f s)) : Completes Q' (result >>= f) := by
  rcases h with ⟨s, rfl, hs⟩ | rfl
  · exact hf s hs
  · exact Or.inr rfl

/-- A result of what completes satisfies the condition. -/
theorem Completes.elim {s : σ} (h : Completes Q result) (hs : result = .ok s) : Q s := by
  rcases h with ⟨s', hs', hQ⟩ | he
  · obtain rfl : s = s' := Except.ok.inj (hs.symm.trans hs')
    exact hQ
  · rw [hs] at he
    cases he

end Completes

/-! ### Running a command -/

/-- The commands get the words themselves. -/
theorem readStrings_eq {argv args : List (List Byte)} (h : List.Forall₂ IsString argv args) :
    argv.mapM readString = .ok args := by
  induction h with
  | nil => rfl
  | @cons arg text argv args harg h ih =>
    have hread : readString arg = .ok text := by
      obtain ⟨-, rest, hmem⟩ := id harg
      rw [readString, strlen_eq harg, ok_bind, hmem, List.take_left]
      rfl
    rw [List.mapM_cons, hread, ok_bind, ih]
    rfl

section Run

variable {W : Type} {commands : Commands W} {s s' : Shell W} {cmdName text : List Byte}
  {argv args : List (List Byte)} {routine : Shell W → Except Fault (Shell W)}

/-- What a command leaves alone, and what it keeps. -/
structure KeepsLine (s s' : Shell W) : Prop where
  buffer_eq : s'.buffer = s.buffer
  bufferPos_eq : s'.bufferPos = s.bufferPos
  history_eq : s'.history = s.history
  console : s'.console.Valid
  prompt : s'.prompt.Valid

/-- A new console keeps the line. -/
theorem keepsLine_console {k : Console} (hp : s.prompt.Valid) (hk : k.Valid) :
    KeepsLine s { s with console := k } := ⟨rfl, rfl, rfl, hk, hp⟩

/-- A command that returns keeps the line. -/
theorem runCommand_ok (command : Command) (argv : List (List Byte)) (hs : s.console.Valid)
    (hp : s.prompt.Valid) : Completes (KeepsLine s) (runCommand commands command argv s) := by
  unfold runCommand
  split
  · exact Or.inr rfl
  · next out world _ =>
    obtain ⟨k, hout, hk⟩ := putchars_ok hs out
    rw [hout, ok_bind]
    exact .of_ok rfl ⟨rfl, rfl, rfl, hk, hp⟩

/-- What the chain comes down to for these arguments. -/
inductive Branch (commands : Commands W) (cmdName : List Byte) (argv : List (List Byte)) :
    (Shell W → Except Fault (Shell W)) → Prop
  | plain (command : Command) : Branch commands cmdName argv (runCommand commands command [])
  | withArgs (command : Command) : Branch commands cmdName argv fun s =>
      argv.mapM readString >>= fun texts => runCommand commands command texts s
  | clear : Branch commands cmdName argv fun s =>
      pure { s with console := s.console.onTerminal terminalClear }
  | echo : Branch commands cmdName argv fun s =>
      echo argv s.console >>= fun k => pure { s with console := k }
  | setprompt : Branch commands cmdName argv fun s =>
      setprompt argv s.prompt s.console >>= fun r => pure { s with prompt := r.1, console := r.2 }
  | notFound : Branch commands cmdName argv (commandNotFound cmdName)

/-- Every entry of the chain is named by a string. -/
theorem dispatchTable_branch (commands : Commands W) : ∀ entry ∈ dispatchTable commands,
    (∃ name, IsString entry.1 name) ∧
      ∀ cmdName argv, Branch commands cmdName argv (entry.2 argv) := by
  have hname : ∀ name : String, 0 ∉ chars name → ∃ text, IsString (literal name) text :=
    fun name h0 => ⟨_, isString_literal h0⟩
  unfold dispatchTable
  simp only [List.forall_mem_cons]
  refine ⟨⟨hname "help" (by decide), fun _ _ => .plain .help⟩,
    ⟨hname "clear" (by decide), fun _ _ => .clear⟩,
    ⟨hname "fetch" (by decide), fun _ _ => .plain .fetch⟩,
    ⟨hname "crash" (by decide), fun _ _ => .plain .crash⟩,
    ⟨hname "reboot" (by decide), fun _ _ => .plain .reboot⟩,
    ⟨hname "exit" (by decide), fun _ _ => .plain .poweroff⟩,
    ⟨hname "uptime" (by decide), fun _ _ => .withArgs .uptime⟩,
    ⟨hname "echo" (by decide), fun _ _ => .echo⟩,
    ⟨hname "memdump" (by decide), fun _ _ => .withArgs .memdump⟩,
    ⟨hname "mia" (by decide), fun _ _ => .plain .mia⟩,
    ⟨hname "mmap" (by decide), fun _ _ => .plain .mmuViewMappings⟩,
    ⟨hname "peek" (by decide), fun _ _ => .withArgs .peek⟩,
    ⟨hname "poke" (by decide), fun _ _ => .withArgs .poke⟩,
    ⟨hname "memtest" (by decide), fun _ _ => .plain .memtest⟩,
    ⟨hname "setprompt" (by decide), fun _ _ => .setprompt⟩,
    fun entry he => absurd he List.not_mem_nil⟩

/-- The first entry with the name of the command decides, whatever the shell. -/
theorem dispatch_branch (commands : Commands W) (hname : IsString cmdName text)
    (argv : List (List Byte)) :
    Branch commands cmdName argv fun s => dispatch cmdName argv s (dispatchTable commands) := by
  have htable := dispatchTable_branch commands
  generalize dispatchTable commands = table at htable ⊢
  induction table with
  | nil => exact .notFound
  | cons entry table ih =>
    obtain ⟨⟨name, hentry⟩, hbody⟩ := htable entry List.mem_cons_self
    have hrun : (fun s => dispatch cmdName argv s (entry :: table)) = fun s =>
        if decide (text = name) then entry.2 argv s else dispatch cmdName argv s table := by
      funext s
      rw [dispatch, streq_eq hname hentry, ok_bind]
    rw [hrun]
    cases decide (text = name) with
    | true => exact hbody cmdName argv
    | false => exact ih fun entry he => htable entry (List.mem_cons_of_mem _ he)

/-- The message for an unknown command keeps the line. -/
theorem commandNotFound_ok (hname : IsString cmdName text) (hs : s.console.Valid)
    (hp : s.prompt.Valid) : Completes (KeepsLine s) (commandNotFound cmdName s) := by
  obtain ⟨k₁, h₁, hk₁⟩ := terminalWritestring_ok
    ⟨_, isString_literal (by decide : 0 ∉ chars "command not found: ")⟩ hs
  obtain ⟨k₂, h₂, hk₂⟩ := terminalWritestring_ok ⟨text, hname⟩ hk₁
  obtain ⟨k₃, h₃, hk₃⟩ := ansiProcessChar_ok hk₂ (byte '\n')
  unfold commandNotFound
  rw [h₁, ok_bind, h₂, ok_bind, terminalPutchar, h₃]
  exact .of_ok rfl (keepsLine_console hp hk₃)

/-- Whatever the chain comes down to, the line is left alone. -/
theorem Branch.keepsLine (h : Branch commands cmdName (cmdName :: argv) routine)
    (hargv : List.Forall₂ IsString (cmdName :: argv) args) (hs : s.console.Valid)
    (hp : s.prompt.Valid) : Completes (KeepsLine s) (routine s) := by
  cases h with
  | plain command => exact runCommand_ok command [] hs hp
  | withArgs command =>
    dsimp only
    rw [readStrings_eq hargv, ok_bind]
    exact runCommand_ok command args hs hp
  | clear =>
    exact .of_ok rfl (keepsLine_console hp
      (hs.onTerminal (terminalClear_valid hs.terminal.toOnScreen)))
  | echo =>
    cases hargv with
    | cons _ hargv =>
      obtain ⟨k, hecho, hk⟩ := echo_ok cmdName hargv hs
      dsimp only
      rw [hecho]
      exact .of_ok rfl (keepsLine_console hp hk)
  | setprompt =>
    obtain ⟨p, k, hset, hp', hk⟩ := setprompt_ok hp hargv hs
    dsimp only
    rw [hset]
    exact .of_ok rfl ⟨rfl, rfl, rfl, hk, hp'⟩
  | notFound =>
    cases hargv with
    | cons hname _ => exact commandNotFound_ok hname hs hp

/-- What the history is after a line was run. -/
def Recall.submit (m : Recall) (line : List Byte) : Recall := if line = [] then m else m.push line

/-- Pushing a string enters its text in the history. -/
theorem historyPush_submit {h : History} {m : Recall} {str text : List Byte} (hr : Represents h m)
    (hstr : IsString str text) :
    ∃ h', historyPush h (some str) = .ok h' ∧ Represents h' (m.submit text) := by
  unfold Recall.submit
  split
  · next hempty => exact ⟨h, historyPush_nothing (hempty ▸ hstr), hr⟩
  · next hne => exact historyPush_represents hr hstr hne

/-- What is left after a line was run; the words of the line are cut apart in the buffer. -/
structure Executed (s s' : Shell W) (m : Recall) : Prop where
  buffer_length : s'.buffer.length = s.buffer.length
  history : Represents s'.history m
  console : s'.console.Valid
  prompt : s'.prompt.Valid

/-- A command gets strings that hold the first sixteen words, whatever the console. -/
theorem shellExecute_eq (commands : Commands W) {line : List Byte} {m : Recall}
    (hbuffer : IsString s.buffer line) (hr : Represents s.history m) : ∃ history' buffer',
    Represents history' (m.submit line) ∧ buffer'.length = s.buffer.length ∧
    ((lineWords line = [] ∧ ∀ k, shellExecute commands { s with console := k } =
        .ok { s with history := history', buffer := buffer', console := k }) ∨
      ∃ cmdName argv, List.Forall₂ IsString (cmdName :: argv) ((lineWords line).take 16) ∧
        ∀ k, shellExecute commands { s with console := k } = dispatch cmdName (cmdName :: argv)
          { s with history := history', buffer := buffer', console := k }
          (dispatchTable commands)) := by
  obtain ⟨history', hpush, hr'⟩ := historyPush_submit hr hbuffer
  obtain ⟨h0, rest, hbuffer⟩ := hbuffer
  have hparsed := parsesInto_parsedLine h0
  have hparse := hparsed.result rest
  rw [← hbuffer] at hparse
  refine ⟨history', parsedLine line ++ 0 :: rest, hr', ?_, ?_⟩
  · rw [hbuffer, List.length_append, List.length_append, hparsed.length_eq]
  by_cases hempty : strip line = []
  · have hwords := (lineWords_eq_nil_iff line).mpr hempty
    have hnone : min 16 (words isSep (strip line)).length = 0 := by
      rw [← lineWords_length, hwords]
      rfl
    refine Or.inl ⟨hwords, fun k => ?_⟩
    unfold shellExecute
    dsimp only
    rw [hpush, ok_bind, hparse, ok_bind]
    dsimp only
    rw [if_pos hnone]
    rfl
  · right
    have hne : lineWords line ≠ [] := fun hnil => hempty ((lineWords_eq_nil_iff line).mp hnil)
    have hcount : min 16 (words isSep (strip line)).length ≠ 0 := by
      have hpos := List.length_pos_iff.mpr hne
      rw [lineWords_length] at hpos
      omega
    have hpointers : (((words isSep (strip line)).take 16).map
          (fun w : Word Byte => some (leading line + w.start)) ++ [none]).take
            (min 16 (words isSep (strip line)).length) =
        (((words isSep (strip line)).take 16).map fun w => leading line + w.start).map some := by
      rw [List.take_left' (by rw [List.length_map, List.length_take]), List.map_map]
      rfl
    have hstrings : List.Forall₂ IsString
        ((((words isSep (strip line)).take 16).map fun w => leading line + w.start).map
          fun i => (parsedLine line ++ 0 :: rest).drop i)
        ((lineWords line).take 16) := by
      unfold lineWords
      rw [← List.map_take, List.map_map, List.forall₂_map_left_iff, List.forall₂_map_right_iff,
        List.forall₂_same]
      exact fun w hw => (hparsed.arguments rest w hw).2.2
    obtain ⟨cmdName, argv, hargv⟩ : ∃ cmdName argv,
        (((words isSep (strip line)).take 16).map fun w => leading line + w.start).map
          (fun i => (parsedLine line ++ 0 :: rest).drop i) = cmdName :: argv := by
      refine List.exists_cons_of_ne_nil fun hnil => ?_
      rw [hnil] at hstrings
      have htake := List.forall₂_nil_left_iff.mp hstrings
      rw [List.take_eq_nil_iff] at htake
      exact absurd (htake.resolve_left (by decide)) hne
    rw [hargv] at hstrings
    refine ⟨cmdName, argv, hstrings, fun k => ?_⟩
    unfold shellExecute
    dsimp only
    rw [hpush, ok_bind, hparse, ok_bind]
    dsimp only
    rw [if_neg hcount, if_neg hempty, hpointers, argPointers_eq, hargv, ok_bind]

/-- Enter executes the line and enters it in the history. -/
theorem shellExecute_ok {m : Recall} {line : List Byte} (hbuffer : IsString s.buffer line)
    (hr : Represents s.history m) (hs : s.console.Valid) (hp : s.prompt.Valid) :
    Completes (fun s' => Executed s s' (m.submit line)) (shellExecute commands s) := by
  obtain ⟨history', buffer', hr', hlength, hcase⟩ := shellExecute_eq commands hbuffer hr
  rcases hcase with ⟨-, hrun⟩ | ⟨cmdName, argv, hstrings, hrun⟩
  · exact .of_ok (hrun s.console) ⟨hlength, hr', hs, hp⟩
  · obtain ⟨name, args, hname, -, -⟩ := List.forall₂_cons_left_iff.mp hstrings
    have hbranch := dispatch_branch commands hname (cmdName :: argv)
    have hkeeps := hbranch.keepsLine (s := { s with history := history', buffer := buffer' })
        hstrings
      hs hp
    rcases hkeeps with ⟨s', hdispatch, hkeeps⟩ | hstop
    · refine .of_ok ((hrun s.console).trans hdispatch) ⟨?_, ?_, hkeeps.console, hkeeps.prompt⟩
      · rw [hkeeps.buffer_eq]
        exact hlength
      · rw [hkeeps.history_eq]
        exact hr'
    · exact Or.inr ((hrun s.console).trans hstop)

/-! ### The shell at its prompt -/

/-- The shell waits for a key, with this line in the editor and this history behind it. -/
structure Prompting (s : Shell W) (z : Line) (m : Recall) : Prop where
  edits : Edits s z
  history : Represents s.history m
  console : s.console.Valid
  prompt : s.prompt.Valid

variable {z : Line} {m : Recall}

/-- `shell_init` empties the editor and keeps the history. -/
theorem shellInit_ok (hr : Represents s.history m) (hs : s.console.Valid) (hp : s.prompt.Valid) :
    ∃ s', shellInit s = .ok s' ∧ Prompting s' .empty m := by
  obtain ⟨out, hout⟩ := shellRenderPrompt_eq hp
  obtain ⟨k, hprint, hk⟩ := putchars_ok hs out
  refine ⟨{ s with buffer := List.replicate bufferSize 0, bufferPos := 0, console := k }, ?_,
    ⟨holdsString_zero (by decide), rfl⟩, hr, hk, hp⟩
  unfold shellInit
  dsimp only
  rw [hout, hprint]
  rfl

/-- Enter runs the line and leaves an empty one. -/
theorem handleEnter_ok (commands : Commands W) (h : Prompting s z m) :
    Completes (fun s' => Prompting s' .empty (m.submit z.text)) (handleEnter commands s) := by
  obtain ⟨k₁, hnewline, hk₁⟩ := ansiProcessChar_ok h.console (byte '\n')
  unfold handleEnter
  rw [terminalPutchar, hnewline, ok_bind]
  refine (shellExecute_ok (s := { s with console := k₁ }) h.edits.buffer.2 h.history hk₁
    h.prompt).bind fun s' hs' => ?_
  have hlength : s'.buffer.length = bufferSize := hs'.buffer_length.trans h.edits.buffer.1
  obtain ⟨buffer', hclear, hbuffer'⟩ := setByte_zero_holdsString (by decide) hlength
  obtain ⟨out, hout⟩ := shellRenderPrompt_eq hs'.prompt
  obtain ⟨k₂, hprint, hk₂⟩ := putchars_ok hs'.console out
  rw [hclear, ok_bind, hout, hprint]
  exact .of_ok rfl ⟨⟨hbuffer', rfl⟩, hs'.history, hk₂, hs'.prompt⟩

end Run

end AuriOS
