import AuriOS.Kernel.Ansi

/-!
# The `echo` command

`echo.c`: leading `-n` flags, the words, each followed by a space, and a newline unless `-n` was
given; `-h` among the leading flags prints the help instead.

* `echo_sends`: without `-h` it prints `echoText`;
* `echo_text`: what it prints is made of its words and its messages.
-/

namespace AuriOS

open Program

/-- The second loop of `echo`, and what follows it. -/
def echoWords (skipNewline : Bool) : List (List Byte) → Console → Except Fault Console
  | [], k => if skipNewline then pure k else terminalWritestring k (literal "\n")
  | arg :: argv, k => do
      let k ← terminalWritestring k arg
      let k ← terminalWritestring k (literal " ")
      echoWords skipNewline argv k

/-- What `-h` prints. -/
def echoHelp (k : Console) : Except Fault Console := do
  let k ← terminalWritestring k (literal "echo - repeats your input to the console\n\n")
  let k ← terminalWritestring k (literal "-h   - show this command\n")
  let k ← terminalWritestring k (literal "-n   - do not output the trailing new line")
  terminalWritestring k (literal "\n")

/-- The first loop of `echo`. -/
def echoFlags : Bool → List (List Byte) → Console → Except Fault Console
  | skipNewline, [], k => echoWords skipNewline [] k
  | skipNewline, arg :: argv, k => do
      let b ← getByte arg 0
      if b = byte '-' then do
        let isN ← streq arg (literal "-n")
        if isN then echoFlags true argv k
        else do
          let isH ← streq arg (literal "-h")
          if isH then echoHelp k else echoWords skipNewline (arg :: argv) k
      else echoWords skipNewline (arg :: argv) k

/-- `echo`, on the pointers of its arguments. -/
def echo (argv : List (List Byte)) (k : Console) : Except Fault Console :=
  echoFlags false argv.tail k

/-! ### What it prints -/

section Echo

/-- The words behind the leading `-n` flags, each with a space, and a newline if there is no
flag. -/
def echoText (args : List (List Byte)) : List Byte :=
  (args.dropWhile (· = chars "-n")).flatMap (· ++ chars " ") ++
    if args.head? = some (chars "-n") then [] else chars "\n"

variable {argv args : List (List Byte)}

/-- The words are printed each with a blank after it, and the newline unless it is skipped. -/
theorem echoWords_sends (skipNewline : Bool) (h : List.Forall₂ IsString argv args) :
    Sends (echoWords skipNewline argv)
      (args.flatMap (· ++ chars " ") ++ if skipNewline then [] else chars "\n") := by
  induction h with
  | nil =>
    intro k
    unfold echoWords
    cases skipNewline with
    | true => rfl
    | false => exact sends_writestring (isString_literal (by decide)) k
  | @cons arg text argv args harg h ih =>
    intro k
    have hspace := sends_writestring (isString_literal (s := " ") (by decide))
    rw [echoWords, List.flatMap_cons, List.append_assoc, List.append_assoc]
    exact (sends_writestring harg).then (hspace.then ih) k

/-- The first character of a string. -/
theorem getByte_first {str text : List Byte} (h : IsString str text) :
    getByte str 0 = .ok (text.headD 0) := by
  obtain ⟨-, rest, rfl⟩ := h
  cases text with
  | nil => exact getByte_append [] rest 0
  | cons a text => exact getByte_append [] (text ++ 0 :: rest) a

/-- The flags are read one after the other; behind them stands no `-h`. -/
theorem echoFlags_sends (skipNewline : Bool) (h : List.Forall₂ IsString argv args)
    (hhelp : (args.dropWhile (· = chars "-n")).head? ≠ some (chars "-h")) :
    Sends (echoFlags skipNewline argv)
      ((args.dropWhile (· = chars "-n")).flatMap (· ++ chars " ") ++
      if skipNewline ∨ args.head? = some (chars "-n") then [] else chars "\n") := by
  induction h generalizing skipNewline with
  | nil =>
    intro k
    have hwords := echoWords_sends skipNewline (.nil : List.Forall₂ IsString [] []) k
    rw [echoFlags]
    simpa using hwords
  | @cons arg text argv args harg h ih =>
    intro k
    have hn := streq_eq harg (isString_literal (s := "-n") (by decide))
    have hh := streq_eq harg (isString_literal (s := "-h") (by decide))
    rw [echoFlags, getByte_first harg, ok_bind]
    by_cases hflag : text = chars "-n"
    · have hdash : text.headD 0 = byte '-' := by rw [hflag]; rfl
      have hdrop : (text :: args).dropWhile (· = chars "-n") = args.dropWhile (· = chars "-n") :=
        List.dropWhile_cons_of_pos (decide_eq_true hflag)
      rw [hdrop] at hhelp ⊢
      have hhead : (text :: args).head? = some (chars "-n") := congrArg some hflag
      have ih := ih true hhelp k
      rw [if_pos hdash, hn, ok_bind, if_pos (decide_eq_true hflag), ih, if_pos (Or.inl rfl),
        if_pos (Or.inr hhead)]
    · have hdrop : (text :: args).dropWhile (· = chars "-n") = text :: args :=
        List.dropWhile_cons_of_neg (by simp [hflag])
      rw [hdrop] at hhelp ⊢
      have hnotHelp : text ≠ chars "-h" := fun he => hhelp (congrArg some he)
      have hwords := echoWords_sends skipNewline (.cons harg h) k
      have hnewline :
          (if skipNewline ∨ (text :: args).head? = some (chars "-n") then [] else chars "\n") =
          if skipNewline then [] else chars "\n" := by simp [hflag]
      rw [hnewline, ← hwords]
      split
      · rw [hn, ok_bind, if_neg (by simp [hflag]), hh, ok_bind, if_neg (by simp [hnotHelp])]
      · rfl

/-- Without `-h` the command prints the text of its words. -/
theorem echo_sends {cmdName : List Byte} (h : List.Forall₂ IsString argv args)
    (hhelp : (args.dropWhile (· = chars "-n")).head? ≠ some (chars "-h")) :
    Sends (echo (cmdName :: argv)) (echoText args) := by
  intro k
  have hflags := echoFlags_sends false h hhelp k
  unfold echo echoText
  simpa using hflags

/-- The text of `-h`. -/
def echoHelpText : List Byte :=
  chars "echo - repeats your input to the console\n\n" ++ (chars "-h   - show this command\n" ++
    (chars "-n   - do not output the trailing new line" ++ chars "\n"))

/-- The help text is printed as it stands. -/
theorem echoHelp_sends : Sends echoHelp echoHelpText := by
  have hlines := sends_writestring
    (isString_literal (s := "echo - repeats your input to the console\n\n") (by decide))
  have hh := sends_writestring (isString_literal (s := "-h   - show this command\n") (by decide))
  have hn := sends_writestring
    (isString_literal (s := "-n   - do not output the trailing new line") (by decide))
  have hnewline := sends_writestring (isString_literal (s := "\n") (by decide))
  exact hlines.then (hh.then (hn.then hnewline))

/-- The bytes of the messages. -/
def echoMessages : List Byte := chars " \n" ++ echoHelpText

/-- Whatever the flags, a text is printed that is made of the words and the messages. -/
theorem echoFlags_text (skipNewline : Bool) (h : List.Forall₂ IsString argv args) :
    ∃ out, Sends (echoFlags skipNewline argv) out ∧ out ⊆ args.flatten ++ echoMessages := by
  have hwords : ∀ (skipNewline : Bool) (args : List (List Byte)),
      args.flatMap (· ++ chars " ") ++ (if skipNewline then [] else chars "\n") ⊆
        args.flatten ++ echoMessages := by
    intro skipNewline args b hb
    have hblank : ∀ b ∈ chars " \n", b ∈ args.flatten ++ echoMessages := fun b hb =>
      List.mem_append_right _ (List.mem_append_left _ hb)
    rcases List.mem_append.mp hb with hb | hb
    · obtain ⟨arg, harg, hb⟩ := List.mem_flatMap.mp hb
      rcases List.mem_append.mp hb with hb | hb
      · exact List.mem_append_left _ (List.mem_flatten.mpr ⟨arg, harg, hb⟩)
      · exact hblank b (List.mem_append_left (chars "\n") hb)
    · split at hb
      · exact absurd hb List.not_mem_nil
      · exact hblank b (List.mem_append_right (chars " ") hb)
  induction h generalizing skipNewline with
  | nil => exact ⟨_, echoWords_sends skipNewline .nil, hwords skipNewline []⟩
  | @cons arg text argv args harg h ih =>
    have hn := streq_eq harg (isString_literal (s := "-n") (by decide))
    have hh := streq_eq harg (isString_literal (s := "-h") (by decide))
    have hrest := echoWords_sends skipNewline (.cons harg h)
    have hrun : ∀ k, echoFlags skipNewline (arg :: argv) k =
        if text.headD 0 = byte '-' then
          if text = chars "-n" then echoFlags true argv k
          else if text = chars "-h" then echoHelp k else echoWords skipNewline (arg :: argv) k
        else echoWords skipNewline (arg :: argv) k := by
      intro k
      rw [echoFlags, getByte_first harg, ok_bind, hn, ok_bind, hh, ok_bind]
      simp only [decide_eq_true_eq]
    obtain ⟨out, hout, hsub⟩ := ih true
    by_cases hdash : text.headD 0 = byte '-'
    · by_cases hflag : text = chars "-n"
      · refine ⟨out, fun k => by rw [hrun, if_pos hdash, if_pos hflag, hout], fun b hb => ?_⟩
        rw [List.flatten_cons, List.append_assoc]
        exact List.mem_append_right text (hsub hb)
      · by_cases hhelp : text = chars "-h"
        · exact ⟨_, fun k => by rw [hrun, if_pos hdash, if_neg hflag, if_pos hhelp, echoHelp_sends],
            fun b hb => List.mem_append_right _ (List.mem_append_right _ hb)⟩
        · exact ⟨_, fun k => by rw [hrun, if_pos hdash, if_neg hflag, if_neg hhelp, hrest],
            hwords skipNewline _⟩
    · exact ⟨_, fun k => by rw [hrun, if_neg hdash, hrest], hwords skipNewline _⟩

/-- What `echo` prints is made of its words and its messages. -/
theorem echo_text (cmdName : List Byte) (h : List.Forall₂ IsString argv args) :
    ∃ out, Sends (echo (cmdName :: argv)) out ∧ out ⊆ args.flatten ++ echoMessages :=
  echoFlags_text false h

/-- On strings, `echo` prints and returns. -/
theorem echo_ok (cmdName : List Byte) {k : Console} (h : List.Forall₂ IsString argv args)
    (hk : k.Valid) : ∃ k', echo (cmdName :: argv) k = .ok k' ∧ k'.Valid := by
  obtain ⟨out, hout, -⟩ := echo_text cmdName h
  obtain ⟨k', hprint, hk'⟩ := putchars_ok hk out
  exact ⟨k', (hout k).trans hprint, hk'⟩

end Echo

end AuriOS
