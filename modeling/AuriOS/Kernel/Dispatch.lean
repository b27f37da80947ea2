import AuriOS.Kernel.Execution

/-!
# What a command is called with

The words of the line reach the command they name through the array of `shell_parse`, which has room
for sixteen.

* `dispatch_echo`: the chain finds `echo`;
* `echo_line_iff`: a line with more words loses those behind the sixteenth, and `echo` prints what
  it should only if they print nothing.
-/

namespace AuriOS

open Program Words

section Dispatch

variable {W : Type} {commands : Commands W} {s : Shell W} {z : Line} {m : Recall}
  {cmd : List Byte} {cmdName text : List Byte} {argv args : List (List Byte)}

/-- One branch of the chain. -/
theorem dispatch_literal (h : IsString cmdName text) {name : String} (h0 : 0 ∉ chars name)
    (body : List (List Byte) → Shell W → Except Fault (Shell W)) (argv : List (List Byte))
    (s : Shell W)
    (table : List (List Byte × (List (List Byte) → Shell W → Except Fault (Shell W)))) :
    dispatch cmdName argv s ((literal name, body) :: table) =
      if text = chars name then body argv s else dispatch cmdName argv s table := by
  rw [dispatch, streq_eq h (isString_literal h0), ok_bind]
  exact if_congr decide_eq_true_iff rfl rfl

/-- The chain finds `echo`. -/
theorem dispatch_echo (h : IsString cmdName (chars "echo")) (argv : List (List Byte))
    (s : Shell W) :
    dispatch cmdName argv s (dispatchTable commands) =
      echo argv s.console >>= fun k => pure { s with console := k } := by
  unfold dispatchTable
  rw [dispatch_literal h (by decide), if_neg (by decide), dispatch_literal h (by decide),
    if_neg (by decide), dispatch_literal h (by decide), if_neg (by decide),
    dispatch_literal h (by decide), if_neg (by decide), dispatch_literal h (by decide),
    if_neg (by decide), dispatch_literal h (by decide), if_neg (by decide),
    dispatch_literal h (by decide), if_neg (by decide), dispatch_literal h (by decide), if_pos rfl]

/-! ### Lines of `echo` -/

/-- With an argument there is something to print. -/
theorem flatMap_words_ne_nil (h : args ≠ []) : args.flatMap (· ++ chars " ") ≠ [] := by
  obtain ⟨arg, args, rfl⟩ := List.exists_cons_of_ne_nil h
  rw [List.flatMap_cons, List.append_assoc]
  exact List.append_ne_nil_of_right_ne_nil _ (List.cons_ne_nil _ _)

/-- The words from some place on may be left out without a change of the text only if there are
none, or if no word but `-n` is there at all. -/
theorem echoText_take_iff {n : ℕ} (hn : 0 < n) (args : List (List Byte)) :
    echoText (args.take n) = echoText args ↔
      args.length ≤ n ∨ ∀ arg ∈ args, arg = chars "-n" := by
  by_cases hlength : args.length ≤ n
  · rw [List.take_of_length_le hlength]
    exact iff_of_true rfl (Or.inl hlength)
  have hdropped : args.drop n ≠ [] := fun hnil => hlength (List.drop_eq_nil_iff.mp hnil)
  have hhead : (args.take n).head? = args.head? := by
    obtain ⟨n, rfl⟩ := Nat.exists_eq_add_of_le' hn
    cases args with
    | nil => rfl
    | cons arg args => rfl
  have hwords := congrArg (List.dropWhile (· = chars "-n")) (List.take_append_drop n args)
  rw [List.dropWhile_append] at hwords
  rw [or_iff_right hlength]
  unfold echoText
  rw [hhead, List.append_left_inj, ← hwords]
  by_cases hflags : (args.take n).dropWhile (· = chars "-n") = []
  · have hall := List.dropWhile_eq_nil_iff.mp hflags
    rw [hflags, List.isEmpty_nil, if_pos rfl, List.flatMap_nil]
    constructor
    · intro hnothing arg harg
      have hrest : (args.drop n).dropWhile (· = chars "-n") = [] := by
        by_contra hne
        exact flatMap_words_ne_nil hne hnothing.symm
      rw [← List.take_append_drop n args] at harg
      rcases List.mem_append.mp harg with harg | harg
      · exact of_decide_eq_true (hall arg harg)
      · exact of_decide_eq_true (List.dropWhile_eq_nil_iff.mp hrest arg harg)
    · intro hflag
      have hrest : (args.drop n).dropWhile (· = chars "-n") = [] :=
        List.dropWhile_eq_nil_iff.mpr fun arg harg =>
          decide_eq_true (hflag arg (List.mem_of_mem_drop harg))
      rw [hrest]
      rfl
  · have hsome : ((args.take n).dropWhile (· = chars "-n")).isEmpty = false := by
      simpa using hflags
    rw [hsome, if_neg Bool.false_ne_true, List.flatMap_append]
    refine iff_of_false (fun heq => ?_) fun hflag => hflags ?_
    · exact flatMap_words_ne_nil hdropped (List.append_right_eq_self.mp heq.symm)
    · exact List.dropWhile_eq_nil_iff.mpr fun arg harg =>
        decide_eq_true (hflag arg (List.mem_of_mem_take harg))

/-- The word behind the flags stays the same if it is not left out. -/
theorem head_dropWhile_take {n : ℕ} {flag help : List Byte}
    (h : (args.dropWhile (· = flag)).head? ≠ some help) :
    ((args.take n).dropWhile (· = flag)).head? ≠ some help := by
  have hwords := congrArg (List.dropWhile (· = flag)) (List.take_append_drop n args)
  rw [List.dropWhile_append] at hwords
  rw [← hwords] at h
  cases hkept : (args.take n).dropWhile (· = flag) with
  | nil => exact nofun
  | cons arg kept =>
    rw [hkept] at h
    exact h

/-- A line whose first word is `echo` prints the first fifteen words behind it. -/
theorem echo_line_run (commands : Commands W) (h : Prompting s z m)
    (hfirst : lineWords z.text = chars "echo" :: args)
    (hhelp : (args.dropWhile (· = chars "-n")).head? ≠ some (chars "-h")) :
    ∃ s', shellExecute commands s = .ok s' ∧
      putchars s.console (echoText (args.take 15)) = .ok s'.console := by
  obtain ⟨history', buffer', -, -, hcase⟩ :=
    shellExecute_eq commands h.edits.buffer.2 h.history
  rcases hcase with ⟨hnil, -⟩ | ⟨cmdName, argv, hstrings, hrun⟩
  · rw [hfirst] at hnil
    exact absurd hnil (List.cons_ne_nil _ _)
  · rw [hfirst, List.take_succ_cons, List.forall₂_cons] at hstrings
    obtain ⟨k, hprint, -⟩ := putchars_ok h.console (echoText (args.take 15))
    refine ⟨{ s with history := history', buffer := buffer', console := k }, ?_, hprint⟩
    rw [hrun s.console, dispatch_echo hstrings.1,
      echo_sends hstrings.2 (head_dropWhile_take hhelp), hprint]
    rfl

/-- A line whose first word is `echo`: the words behind the sixteenth are not printed. -/
theorem echo_line_iff (commands : Commands W) (h : Prompting s z m)
    (hfirst : lineWords z.text = chars "echo" :: args)
    (hhelp : (args.dropWhile (· = chars "-n")).head? ≠ some (chars "-h")) :
    (∃ s', shellExecute commands s = .ok s' ∧
        putchars s.console (echoText (args.take 15)) = .ok s'.console) ∧
      (echoText (args.take 15) = echoText args ↔
        args.length ≤ 15 ∨ ∀ arg ∈ args, arg = chars "-n") :=
  ⟨echo_line_run commands h hfirst hhelp, echoText_take_iff (by decide) args⟩

end Dispatch

/-- A shell with this line in the editor. -/
def Shell.withLine (line : List Byte) (console : Console) : Shell Unit :=
  { Shell.boot console () with
    buffer := line ++ List.replicate (bufferSize - line.length) 0
    bufferPos := line.length }

/-- The shell with a given line has the given console. -/
theorem withLine_console (line : List Byte) (console : Console) :
    (Shell.withLine line console).console = console := rfl

/-- The shell with a given line prompts with it. -/
theorem withLine_prompting {line : List Byte} {console : Console} (h0 : 0 ∉ line)
    (hroom : line.length ≤ 255) (hk : console.Valid) :
    Prompting (Shell.withLine line console) (.ofText line hroom) .empty := by
  have htext : (BoundedZipper.ofText line hroom).text = line := List.append_nil _
  obtain ⟨n, hn⟩ : ∃ n, bufferSize - line.length = n + 1 := ⟨255 - line.length, by
    unfold bufferSize
    omega⟩
  refine ⟨⟨?_, rfl⟩, represents_zero, hk, Prompt.initial_valid⟩
  rw [htext]
  refine ⟨?_, h0, List.replicate n 0, ?_⟩
  · change (line ++ List.replicate (bufferSize - line.length) 0).length = bufferSize
    rw [List.length_append, List.length_replicate]
    unfold bufferSize
    omega
  · change line ++ List.replicate (bufferSize - line.length) 0 = _
    rw [hn, List.replicate_succ]

/-- `echo -n hello world`. -/
theorem echo_line_hello :
    (∃ s', shellExecute (fun _ _ w => some ([], w)) (Shell.withLine (chars "echo -n hello world")
          (Console.initial (fun _ => 0) ⟨0, fun _ => 0⟩)) = .ok s' ∧
        putchars (Console.initial (fun _ => 0) ⟨0, fun _ => 0⟩)
          (echoText ([chars "-n", chars "hello", chars "world"].take 15)) = .ok s'.console) ∧
      (echoText ([chars "-n", chars "hello", chars "world"].take 15) =
          echoText [chars "-n", chars "hello", chars "world"] ↔
        [chars "-n", chars "hello", chars "world"].length ≤ 15 ∨
          ∀ arg ∈ [chars "-n", chars "hello", chars "world"], arg = chars "-n") :=
  echo_line_iff (fun _ _ w => some ([], w))
    (withLine_prompting (by decide) (by decide)
      (Console.initial_valid (fun _ => 0) ⟨0, fun _ => 0⟩))
    (by decide) (by decide)

/-- Of the letters `a` to `o`, behind a flag, `echo` prints `a` to `n`. -/
theorem echo_line_drops : ¬ ∀ (s : Shell Unit) (z : Line) (m : Recall) (args : List (List Byte)),
    Prompting s z m → lineWords z.text = chars "echo" :: args →
      (args.dropWhile (· = chars "-n")).head? ≠ some (chars "-h") →
        ∃ s', shellExecute (fun _ _ w => some ([], w)) s = .ok s' ∧
          putchars s.console (echoText args) = .ok s'.console := by
  intro hall
  obtain ⟨k, hk, hnormal⟩ : ∃ k : Console, k.Valid ∧ k.currentState = .normal :=
    ⟨_, Console.initial_valid (fun _ => 0) ⟨0, fun _ => 0⟩, rfl⟩
  have hroom : (chars "echo -n a b c d e f g h i j k l m n o").length ≤ 255 := by decide
  have hprompting := withLine_prompting (by decide) hroom hk
  have hwords : lineWords (chars "echo -n a b c d e f g h i j k l m n o") =
      chars "echo" :: chars "-n" :: (chars "abcdefghijklmno").map fun c => [c] := by decide
  obtain ⟨s', hrun, hprint⟩ := hall _ _ _ _ hprompting hwords (by decide)
  obtain ⟨s'', hrun', hprint'⟩ :=
    echo_line_run (fun _ _ w => some ([], w)) hprompting hwords (by decide)
  obtain rfl : s'' = s' := Except.ok.inj (hrun'.symm.trans hrun)
  have hsame := hprint'.trans hprint.symm
  rw [withLine_console, putchars_normal hnormal (by decide), putchars_normal hnormal (by decide)]
    at hsame
  have hcolumn := congrArg (fun k => k.terminal.column) (Except.ok.inj hsame)
  have hlt := hk.terminal.column_lt
  change (List.foldl _ k.terminal _).column = (List.foldl _ k.terminal _).column at hcolumn
  rw [foldl_putcharRaw_column hlt (by decide), foldl_putcharRaw_column hlt (by decide)] at hcolumn
  change (k.terminal.column + 28) % 80 = (k.terminal.column + 30) % 80 at hcolumn
  omega

end AuriOS
