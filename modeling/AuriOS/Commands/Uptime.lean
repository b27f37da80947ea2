import AuriOS.Commands.Echo
import AuriOS.Commands.Numbers
import AuriOS.Foundation.Listing

/-!
# The `uptime` command

`uptime.c`: options, and the ticks since the start in one of four forms.

* `uptime_sends`: what is printed, for all arguments;
* `uptime_reads_iff`: read back, it is the time, except that `-r` goes through an `int`.
-/

namespace AuriOS

open Program Listing

/-! ### `uptime.c` -/

/-- What `-h` prints. -/
def uptimeHelp (k : Console) : Except Fault Console := do
  let k ← terminalWritestring k (literal "uptime - show uptime since machine started\n")
  let k ← terminalWritestring k (literal "-h     - show this message\n")
  let k ← terminalWritestring k (literal "-r     - show uptime in miliseconds\n")
  let k ← terminalWritestring k (literal "-s     - show uptime in seconds\n")
  terminalWritestring k (literal "-p     - show uptime in a pretty format\n")

/-- The line of the hours, which is left out when there are none. -/
def uptimeHours (hours : BitVec 32) (outBuf : List Byte) (k : Console) : Except Fault Console :=
  if hours ≠ 0 then printUnit hours (literal (if 1 < hours then " hours" else " hour")) 1 outBuf k
  else .ok k

/-- What follows the loop over the options. -/
def uptimePrint (ticks : BitVec 32) (outBuf : List Byte) (raw sec pretty : Bool) (k : Console) :
    Except Fault Console :=
  let totalSeconds := ticks / 1000
  let seconds := totalSeconds % 60
  let totalMinutes := totalSeconds / 60
  let minutes := totalMinutes % 60
  let hours := totalMinutes / 60
  if raw then printUnit ticks (literal "ms") 1 outBuf k
  else if sec then printUnit totalSeconds (literal "s") 1 outBuf k
  else if pretty then do
    let k ← terminalWritestring k (literal "Current Uptime: \n")
    let k ← uptimeHours hours outBuf k
    let k ← printUnit minutes (literal (if 1 < minutes then " minutes" else " minute")) 1 outBuf k
    let k ← printUnit seconds (literal (if 1 < seconds then " seconds" else " second")) 1 outBuf k
    terminalWritestring k (literal "\n")
  else do
    let k ← terminalWritestring k (literal "Current Uptime: ")
    let k ← printUnit hours (literal "h ") 0 outBuf k
    let k ← printUnit minutes (literal "m ") 0 outBuf k
    printUnit seconds (literal "s") 1 outBuf k

/-- The loop over the options. -/
def uptimeFlags (ticks : BitVec 32) (outBuf : List Byte) :
    Bool → Bool → Bool → List (List Byte) → Console → Except Fault Console
  | raw, sec, pretty, [], k => uptimePrint ticks outBuf raw sec pretty k
  | raw, sec, pretty, arg :: argv, k => do
      let b ← getByte arg 0
      if b = byte '-' then do
        let isH ← streq arg (literal "-h")
        if isH then uptimeHelp k
        else do
          let isR ← streq arg (literal "-r")
          if isR then uptimeFlags ticks outBuf true sec pretty argv k
          else do
            let isS ← streq arg (literal "-s")
            if isS then uptimeFlags ticks outBuf raw true pretty argv k
            else do
              let isP ← streq arg (literal "-p")
              if isP then uptimeFlags ticks outBuf raw sec true argv k
              else uptimePrint ticks outBuf raw sec pretty k
      else uptimePrint ticks outBuf raw sec pretty k

/-- `uptime`, on the pointers of its arguments, when `get_tick` returns `ticks`; `outBuf` is what
the buffers of `print_unit` happen to hold. -/
def uptime (argv : List (List Byte)) (ticks : BitVec 32) (outBuf : List Byte) (k : Console) :
    Except Fault Console :=
  uptimeFlags ticks outBuf false false false argv.tail k

/-! ### What it prints -/

/-- The five texts that `uptime` prints. -/
inductive UptimeForm
  | help
  | raw
  | seconds
  | pretty
  | clock
  deriving DecidableEq

/-- The form that the flags so far and the options to come ask for. -/
def UptimeForm.choose (raw sec pretty : Bool) (options : List (List Byte)) : UptimeForm :=
  if chars "-h" ∈ options then .help
  else if raw ∨ chars "-r" ∈ options then .raw
  else if sec ∨ chars "-s" ∈ options then .seconds
  else if pretty ∨ chars "-p" ∈ options then .pretty
  else .clock

/-- The options in front of the first argument that is none. -/
def uptimeOptions (args : List (List Byte)) : List (List Byte) :=
  args.takeWhile fun a => a = chars "-h" ∨ a = chars "-r" ∨ a = chars "-s" ∨ a = chars "-p"

/-- The form that the arguments of a command line choose. -/
def uptimeForm (args : List (List Byte)) : UptimeForm :=
  .choose false false false (uptimeOptions args)

/-- A number with a unit on a line of its own. -/
def unitLine (n : ℕ) (many one : List Byte) : List Byte :=
  numeral n ++ if 1 < n then many else one

/-- The line of the hours. -/
def hoursLine (n : ℕ) : List Byte := unitLine n (chars " hours\n") (chars " hour\n")

/-- The line of the minutes. -/
def minutesLine (n : ℕ) : List Byte := unitLine n (chars " minutes\n") (chars " minute\n")

/-- The line of the seconds. -/
def secondsLine (n : ℕ) : List Byte := unitLine n (chars " seconds\n") (chars " second\n")

/-- The text of the help. -/
def uptimeHelpText : List Byte :=
  chars "uptime - show uptime since machine started\n" ++ (chars "-h     - show this message\n" ++
    (chars "-r     - show uptime in miliseconds\n" ++ (chars "-s     - show uptime in seconds\n" ++
      chars "-p     - show uptime in a pretty format\n")))

/-- The text of each form, for this many ticks. -/
def UptimeForm.text (ticks : BitVec 32) : UptimeForm → List Byte
  | .help => uptimeHelpText
  | .raw => withUnit (itoaText ticks.toInt) (chars "ms") 1
  | .seconds => withUnit (numeral (ticks.toNat / 1000)) (chars "s") 1
  | .pretty =>
      let t := ticks.toNat / 1000
      chars "Current Uptime: \n" ++ ((if t / 60 / 60 ≠ 0 then hoursLine (t / 60 / 60) else []) ++
        (minutesLine (t / 60 % 60) ++ (secondsLine (t % 60) ++ chars "\n")))
  | .clock =>
      let t := ticks.toNat / 1000
      chars "Current Uptime: " ++ (withUnit (numeral (t / 60 / 60)) (chars "h ") 0 ++
        (withUnit (numeral (t / 60 % 60)) (chars "m ") 0 ++
          withUnit (numeral (t % 60)) (chars "s") 1))

section Uptime

variable {ticks : BitVec 32} {outBuf : List Byte} {argv args : List (List Byte)}

/-- A text without NUL is printed as it stands. -/
theorem sends_text (text : String) (h : 0 ∉ chars text) :
    Sends (fun k => terminalWritestring k (literal text)) (chars text) :=
  sends_writestring (isString_literal h)

/-- The help text is printed as it stands. -/
theorem uptimeHelp_sends : Sends uptimeHelp uptimeHelpText :=
  (sends_text _ (by decide)).then ((sends_text _ (by decide)).then ((sends_text _ (by decide)).then
    ((sends_text _ (by decide)).then (sends_text _ (by decide)))))

/-- A number below `2 ^ 31` appears as it is. -/
theorem printUnit_small (val : BitVec 32) (h : val.toNat < 2 ^ 31) (unit : String)
    (hunit : 0 ∉ chars unit) (newLine : ℤ) (hsize : outBuf.length = 32) :
    Sends (printUnit val (literal unit) newLine outBuf)
      (withUnit (numeral val.toNat) (chars unit) newLine) := by
  rw [← itoaText_toInt_iff.mpr h]
  exact printUnit_sends val newLine (isString_literal hunit) (by omega)

/-- A line of the pretty form is printed with the number and its unit. -/
theorem printUnit_line (val : BitVec 32) (h : val.toNat < 2 ^ 31) (many one : String)
    (hmany : 0 ∉ chars many) (hone : 0 ∉ chars one) (hsize : outBuf.length = 32) :
    Sends (printUnit val (literal (if 1 < val then many else one)) 1 outBuf)
      (unitLine val.toNat (chars many ++ chars "\n") (chars one ++ chars "\n")) := by
  have hlt : 1 < val ↔ 1 < val.toNat := BitVec.lt_def
  unfold unitLine
  by_cases hval : 1 < val
  · rw [if_pos hval, if_pos (hlt.mp hval)]
    exact printUnit_small val h many hmany 1 hsize
  · rw [if_neg hval, if_neg (mt hlt.mpr hval)]
    exact printUnit_small val h one hone 1 hsize

/-- The hours are printed unless there are none. -/
theorem uptimeHours_sends (hours : BitVec 32) (h : hours.toNat < 2 ^ 31)
    (hsize : outBuf.length = 32) :
    Sends (uptimeHours hours outBuf) (if hours.toNat ≠ 0 then hoursLine hours.toNat else []) := by
  have hzero : hours ≠ 0 ↔ hours.toNat ≠ 0 := by
    rw [ne_eq, ne_eq, ← BitVec.toNat_inj]
    rfl
  intro k
  unfold uptimeHours
  by_cases hnone : hours ≠ 0
  · rw [if_pos hnone, if_pos (hzero.mp hnone)]
    exact printUnit_line hours h " hours" " hour" (by decide) (by decide) hsize k
  · rw [if_neg hnone, if_neg (mt hzero.mpr hnone)]
    rfl

/-- The uptime is printed in the form that the flags choose. -/
theorem uptimePrint_sends (ticks : BitVec 32) (raw sec pretty : Bool) (hsize : outBuf.length = 32) :
    Sends (uptimePrint ticks outBuf raw sec pretty)
      ((UptimeForm.choose raw sec pretty []).text ticks) := by
  have hlt := ticks.isLt
  have hseconds : (ticks / 1000).toNat = ticks.toNat / 1000 := BitVec.toNat_udiv
  have hsecond : (ticks / 1000 % 60).toNat = ticks.toNat / 1000 % 60 := by
    rw [BitVec.toNat_umod, hseconds]
    rfl
  have hminute : (ticks / 1000 / 60 % 60).toNat = ticks.toNat / 1000 / 60 % 60 := by
    rw [BitVec.toNat_umod, BitVec.toNat_udiv, hseconds]
    rfl
  have hhour : (ticks / 1000 / 60 / 60).toNat = ticks.toNat / 1000 / 60 / 60 := by
    rw [BitVec.toNat_udiv, BitVec.toNat_udiv, hseconds]
    rfl
  unfold uptimePrint UptimeForm.choose
  cases raw with
  | true => exact printUnit_sends ticks 1 (isString_literal (by decide)) (by omega)
  | false =>
    cases sec with
    | true =>
      have h := printUnit_small (ticks / 1000) (by omega) "s" (by decide) 1 hsize
      rw [hseconds] at h
      exact h
    | false =>
      cases pretty with
      | true =>
        have hh := uptimeHours_sends (ticks / 1000 / 60 / 60) (by omega) hsize
        have hm := printUnit_line (ticks / 1000 / 60 % 60) (by omega)
          " minutes" " minute" (by decide) (by decide) hsize
        have hs := printUnit_line (ticks / 1000 % 60) (by omega)
          " seconds" " second" (by decide) (by decide) hsize
        rw [hhour] at hh
        rw [hminute] at hm
        rw [hsecond] at hs
        exact (sends_text "Current Uptime: \n" (by decide)).then
          (hh.then (hm.then (hs.then (sends_text "\n" (by decide)))))
      | false =>
        have hh := printUnit_small (ticks / 1000 / 60 / 60) (by omega) "h " (by decide) 0 hsize
        have hm := printUnit_small (ticks / 1000 / 60 % 60) (by omega) "m " (by decide) 0 hsize
        have hs := printUnit_small (ticks / 1000 % 60) (by omega) "s" (by decide) 1 hsize
        rw [hhour] at hh
        rw [hminute] at hm
        rw [hsecond] at hs
        exact (sends_text "Current Uptime: " (by decide)).then (hh.then (hm.then hs))

/-- How one argument acts on the choice of the form. -/
theorem choose_cons (raw sec pretty : Bool) (text : List Byte) (options : List (List Byte)) :
    (text = chars "-h" → UptimeForm.choose raw sec pretty (text :: options) = .help) ∧
      (text = chars "-r" → UptimeForm.choose raw sec pretty (text :: options) =
        .choose true sec pretty options) ∧
      (text = chars "-s" → UptimeForm.choose raw sec pretty (text :: options) =
        .choose raw true pretty options) ∧
      (text = chars "-p" → UptimeForm.choose raw sec pretty (text :: options) =
        .choose raw sec true options) := by
  have hne : chars "-h" ≠ chars "-r" ∧ chars "-h" ≠ chars "-s" ∧ chars "-h" ≠ chars "-p" ∧
      chars "-r" ≠ chars "-s" ∧ chars "-r" ≠ chars "-p" ∧ chars "-s" ≠ chars "-p" := by decide
  obtain ⟨hhr, hhs, hhp, hrs, hrp, hsp⟩ := hne
  unfold UptimeForm.choose
  simp only [List.mem_cons]
  refine ⟨?_, ?_, ?_, ?_⟩ <;> rintro rfl
  · rw [if_pos (Or.inl rfl)]
  · simp [hhr]
  · simp [hhs, hrs]
  · simp [hhp, hrp, hsp]

/-- By induction on the arguments: an option changes a flag, anything else ends the loop. -/
theorem uptimeFlags_sends (raw sec pretty : Bool) (h : List.Forall₂ IsString argv args)
    (hsize : outBuf.length = 32) :
    Sends (uptimeFlags ticks outBuf raw sec pretty argv)
      ((UptimeForm.choose raw sec pretty (uptimeOptions args)).text ticks) := by
  induction h generalizing raw sec pretty with
  | nil => exact uptimePrint_sends ticks raw sec pretty hsize
  | @cons arg text argv args harg h ih =>
    intro k
    have hequal : ∀ s : String, 0 ∉ chars s →
        streq arg (literal s) = .ok (decide (text = chars s)) := fun s hs =>
      streq_eq harg (isString_literal hs)
    have hprint := uptimePrint_sends ticks raw sec pretty hsize k
    have hoption : ∀ {a : List Byte}, a = chars "-h" ∨ a = chars "-r" ∨ a = chars "-s" ∨
        a = chars "-p" → a.headD 0 = byte '-' := by
      rintro a (rfl | rfl | rfl | rfl) <;> rfl
    rw [uptimeFlags, getByte_first harg, ok_bind]
    by_cases hknown : text = chars "-h" ∨ text = chars "-r" ∨ text = chars "-s" ∨ text = chars "-p"
    · have hoptions : uptimeOptions (text :: args) = text :: uptimeOptions args :=
        List.takeWhile_cons_of_pos (by simpa using hknown)
      rw [hoptions, if_pos (hoption hknown), hequal _ (by decide), ok_bind]
      obtain ⟨hchooseH, hchooseR, hchooseS, hchooseP⟩ :=
        choose_cons raw sec pretty text (uptimeOptions args)
      by_cases hH : text = chars "-h"
      · rw [if_pos (decide_eq_true hH), hchooseH hH]
        exact uptimeHelp_sends k
      rw [if_neg (by simpa using hH), hequal _ (by decide), ok_bind]
      by_cases hR : text = chars "-r"
      · rw [if_pos (decide_eq_true hR), hchooseR hR]
        exact ih true sec pretty k
      rw [if_neg (by simpa using hR), hequal _ (by decide), ok_bind]
      by_cases hS : text = chars "-s"
      · rw [if_pos (decide_eq_true hS), hchooseS hS]
        exact ih raw true pretty k
      have hP : text = chars "-p" := ((hknown.resolve_left hH).resolve_left hR).resolve_left hS
      rw [if_neg (by simpa using hS), hequal _ (by decide), ok_bind, if_pos (decide_eq_true hP),
        hchooseP hP]
      exact ih raw sec true k
    · have hoptions : uptimeOptions (text :: args) = [] :=
        List.takeWhile_cons_of_neg (by simpa using hknown)
      simp only [not_or] at hknown
      obtain ⟨hH, hR, hS, hP⟩ := hknown
      rw [hoptions, ← hprint]
      split
      · rw [hequal _ (by decide), ok_bind, if_neg (by simpa using hH), hequal _ (by decide),
          ok_bind, if_neg (by simpa using hR), hequal _ (by decide), ok_bind,
          if_neg (by simpa using hS), hequal _ (by decide), ok_bind, if_neg (by simpa using hP)]
      · rfl

/-- The command prints the text of the form that its arguments choose. -/
theorem uptime_sends {cmdName : List Byte} (h : List.Forall₂ IsString argv args)
    (hsize : outBuf.length = 32) :
    Sends (uptime (cmdName :: argv) ticks outBuf) ((uptimeForm args).text ticks) :=
  uptimeFlags_sends false false false h hsize

end Uptime

/-! ### Reading it back -/

/-- The number that a text begins with. -/
def readNumber (text : List Byte) : Option (ℕ × List Byte) :=
  if leadingDigits text = [] then none
  else some (decimal (leadingDigits text), text.dropWhile (IsDigit ·))

/-- A number with this unit. -/
def readMarked (unit text : List Byte) : Option (ℕ × List Byte) := do
  let (n, text) ← readNumber text
  let text ← dropText unit text
  pure (n, text)

/-- A number with one of two units. -/
def readUnit (many one text : List Byte) : Option (ℕ × List Byte) := do
  let (n, text) ← readNumber text
  let (_, text) ← readFlag many one text
  pure (n, text)

/-- The time that is printed: milliseconds with `-r`, else seconds. -/
def UptimeForm.read (text : List Byte) : UptimeForm → Option ℕ
  | .help => none
  | .raw => (readMarked (chars "ms\n") text).map Prod.fst
  | .seconds => (readMarked (chars "s\n") text).map Prod.fst
  | .pretty => do
      let text ← dropText (chars "Current Uptime: \n") text
      let (h, text) := (readUnit (chars " hours\n") (chars " hour\n") text).getD (0, text)
      let (m, text) ← readUnit (chars " minutes\n") (chars " minute\n") text
      let (s, _) ← readUnit (chars " seconds\n") (chars " second\n") text
      pure (h * 3600 + m * 60 + s)
  | .clock => do
      let text ← dropText (chars "Current Uptime: ") text
      let (h, text) ← readMarked (chars "h ") text
      let (m, text) ← readMarked (chars "m ") text
      let (s, _) ← readMarked (chars "s\n") text
      pure (h * 3600 + m * 60 + s)

/-- What is to be read: the milliseconds with `-r`, else the seconds. -/
def UptimeForm.time (ticks : BitVec 32) : UptimeForm → ℕ
  | .raw => ticks.toNat
  | _ => ticks.toNat / 1000

section Reading

variable {ticks : BitVec 32} {outBuf : List Byte} {argv args : List (List Byte)}

/-- A numeral ends where no digit follows. -/
theorem readNumber_numeral (n : ℕ) {c : Byte} (hc : ¬ IsDigit c) (rest : List Byte) :
    readNumber (numeral n ++ c :: rest) = some (n, c :: rest) := by
  have hdigits : ∀ d ∈ numeral n, decide (IsDigit d) = true := fun d hd =>
    decide_eq_true (numeral_digits n d hd)
  have hlead : leadingDigits (numeral n ++ c :: rest) = numeral n := by
    unfold leadingDigits
    rw [List.takeWhile_append_of_pos hdigits, List.takeWhile_cons_of_neg (by simpa using hc),
      List.append_nil]
  unfold readNumber
  rw [hlead, if_neg (numeral_ne_nil n), decimal_numeral, List.dropWhile_append_of_pos hdigits,
    List.dropWhile_cons_of_neg (by simpa using hc)]

/-- A sign is no number. -/
theorem readNumber_negative {x : ℤ} (h : x < 0) (rest : List Byte) :
    readNumber (itoaText x ++ rest) = none := by
  obtain ⟨digits, hsign⟩ := itoaText_sign h
  rw [hsign]
  rfl

section Units

variable {c : Byte}

/-- A number is read back from before its unit. -/
theorem readMarked_withUnit (n : ℕ) (hc : ¬ IsDigit c) (unit : List Byte) (newLine : ℤ)
    (rest : List Byte) :
    readMarked (c :: unit ++ if newLine = 1 then chars "\n" else [])
      (withUnit (numeral n) (c :: unit) newLine ++ rest) = some (n, rest) := by
  unfold readMarked withUnit
  rw [List.append_assoc, List.cons_append, List.cons_append, readNumber_numeral n hc]
  have hmark := dropText_append (c :: unit ++ if newLine = 1 then chars "\n" else []) rest
  rw [List.cons_append, List.cons_append] at hmark
  simp only [Option.bind_eq_bind, Option.bind_some, hmark]
  rfl

/-- A number is read back from a line with either unit. -/
theorem readUnit_unitLine (n : ℕ) (hc : ¬ IsDigit c) (many one : List Byte)
    (h : ∀ rest, dropText (c :: many) (c :: one ++ rest) = none) (rest : List Byte) :
    readUnit (c :: many) (c :: one) (unitLine n (c :: many) (c :: one) ++ rest) =
      some (n, rest) := by
  unfold readUnit unitLine
  by_cases hn : 1 < n
  · rw [if_pos hn, List.append_assoc, List.cons_append, readNumber_numeral n hc]
    have hflag := readFlag_yes (c :: many) (c :: one) rest
    rw [List.cons_append] at hflag
    simp only [Option.bind_eq_bind, Option.bind_some, hflag]
    rfl
  · rw [if_neg hn, List.append_assoc, List.cons_append, readNumber_numeral n hc]
    have hflag := readFlag_no (h rest)
    rw [List.cons_append] at hflag
    simp only [Option.bind_eq_bind, Option.bind_some, hflag]
    rfl

end Units

/-- Without hours the minutes come first. -/
theorem readUnit_minutesLine (n : ℕ) (rest : List Byte) :
    readUnit (chars " hours\n") (chars " hour\n") (minutesLine n ++ rest) = none := by
  have hspace : ¬ IsDigit (byte ' ') := by decide
  unfold minutesLine unitLine readUnit
  split
  · rw [List.append_assoc, show chars " minutes\n" = byte ' ' :: chars "minutes\n" from rfl,
      List.cons_append, readNumber_numeral n hspace]
    rfl
  · rw [List.append_assoc, show chars " minute\n" = byte ' ' :: chars "minute\n" from rfl,
      List.cons_append, readNumber_numeral n hspace]
    rfl

/-- The pretty form reads back to its hours, minutes and seconds. -/
theorem read_pretty (h m s : ℕ) :
    UptimeForm.pretty.read (chars "Current Uptime: \n" ++ ((if h ≠ 0 then hoursLine h else []) ++
      (minutesLine m ++ (secondsLine s ++ chars "\n")))) = some (h * 3600 + m * 60 + s) := by
  have hspace : ¬ IsDigit (byte ' ') := by decide
  have hminutes := readUnit_unitLine m hspace (chars "minutes\n") (chars "minute\n")
    (fun _ => rfl) (secondsLine s ++ chars "\n")
  have hseconds := readUnit_unitLine s hspace (chars "seconds\n") (chars "second\n")
    (fun _ => rfl) (chars "\n")
  have hhours : (readUnit (chars " hours\n") (chars " hour\n")
      ((if h ≠ 0 then hoursLine h else []) ++
        (minutesLine m ++ (secondsLine s ++ chars "\n")))).getD
      (0, (if h ≠ 0 then hoursLine h else []) ++ (minutesLine m ++ (secondsLine s ++ chars "\n"))) =
        (h, minutesLine m ++ (secondsLine s ++ chars "\n")) := by
    by_cases hzero : h = 0
    · rw [if_neg (not_not.mpr hzero), List.nil_append, readUnit_minutesLine, hzero]
      rfl
    · have hline := readUnit_unitLine h hspace (chars "hours\n") (chars "hour\n")
        (fun _ => rfl) (minutesLine m ++ (secondsLine s ++ chars "\n"))
      rw [if_pos hzero]
      exact congrArg (Option.getD · _) hline
  unfold UptimeForm.read
  rw [dropText_append]
  simp only [Option.bind_eq_bind, Option.bind_some, hhours]
  exact (congrArg (Option.bind · _) hminutes).trans (congrArg (Option.bind · _) hseconds)

/-- The clock form reads back to its hours, minutes and seconds. -/
theorem read_clock (h m s : ℕ) :
    UptimeForm.clock.read (chars "Current Uptime: " ++ (withUnit (numeral h) (chars "h ") 0 ++
      (withUnit (numeral m) (chars "m ") 0 ++ withUnit (numeral s) (chars "s") 1))) =
        some (h * 3600 + m * 60 + s) := by
  have hhours := readMarked_withUnit h (c := byte 'h') (by decide) (chars " ") 0
    (withUnit (numeral m) (chars "m ") 0 ++ withUnit (numeral s) (chars "s") 1)
  have hminutes := readMarked_withUnit m (c := byte 'm') (by decide) (chars " ") 0
    (withUnit (numeral s) (chars "s") 1)
  have hseconds := readMarked_withUnit s (c := byte 's') (by decide) [] 1 []
  rw [List.append_nil] at hseconds
  unfold UptimeForm.read
  rw [dropText_append]
  simp only [Option.bind_eq_bind, Option.bind_some]
  exact (congrArg (Option.bind · _) hhours).trans ((congrArg (Option.bind · _) hminutes).trans
    (congrArg (Option.bind · _) hseconds))

/-- The form in seconds reads back to its seconds. -/
theorem read_seconds (s : ℕ) :
    UptimeForm.seconds.read (withUnit (numeral s) (chars "s") 1) = some s := by
  have hseconds := readMarked_withUnit s (c := byte 's') (by decide) [] 1 []
  rw [List.append_nil] at hseconds
  exact congrArg (Option.map Prod.fst) hseconds

/-- The milliseconds go through an `int`: from `2 ^ 31` on there is a sign in front of them. -/
theorem read_raw_iff :
    UptimeForm.raw.read (withUnit (itoaText ticks.toInt) (chars "ms") 1) = some ticks.toNat ↔
      ticks.toNat < 2 ^ 31 := by
  constructor
  · intro hread
    by_contra hlarge
    unfold UptimeForm.read readMarked withUnit at hread
    rw [readNumber_negative (toInt_neg hlarge)] at hread
    cases hread
  · intro hsmall
    have hticks := readMarked_withUnit ticks.toNat (c := byte 'm') (by decide) (chars "s") 1 []
    rw [List.append_nil] at hticks
    rw [itoaText_toInt_iff.mpr hsmall]
    exact congrArg (Option.map Prod.fst) hticks

/-- Hours, minutes and seconds make up the seconds again. -/
theorem clock_total (n : ℕ) : n / 60 / 60 * 3600 + n / 60 % 60 * 60 + n % 60 = n := by
  omega

/-- Read back, the text of a form is the time. -/
theorem UptimeForm.read_text_iff {form : UptimeForm} (hhelp : form ≠ .help) :
    form.read (form.text ticks) = some (form.time ticks) ↔
      (form = .raw → ticks.toNat < 2 ^ 31) := by
  cases form with
  | help => exact absurd rfl hhelp
  | raw => exact read_raw_iff.trans ⟨fun h _ => h, fun h => h rfl⟩
  | seconds => exact iff_of_true (read_seconds _) (fun h => by cases h)
  | pretty =>
    refine iff_of_true ?_ (fun h => by cases h)
    exact (read_pretty _ _ _).trans (congrArg some (clock_total _))
  | clock =>
    refine iff_of_true ?_ (fun h => by cases h)
    exact (read_clock _ _ _).trans (congrArg some (clock_total _))

/-- `uptime` prints one of its five texts.  But for the text of `-h`, what it prints, read back, is
the time since the start; with `-r` this holds below `2 ^ 31` milliseconds, which is less than 25
days. -/
theorem uptime_reads_iff (ticks : BitVec 32) (cmdName : List Byte)
    (h : List.Forall₂ IsString argv args) (hsize : outBuf.length = 32) :
    Sends (uptime (cmdName :: argv) ticks outBuf) ((uptimeForm args).text ticks) ∧
      (uptimeForm args ≠ .help →
        ((uptimeForm args).read ((uptimeForm args).text ticks) =
            some ((uptimeForm args).time ticks) ↔
          (uptimeForm args = .raw → ticks.toNat < 2 ^ 31))) :=
  ⟨uptime_sends h hsize, UptimeForm.read_text_iff⟩

/-- `uptime -r` on the 35th day. -/
theorem uptime_reads_negative :
    Sends (uptime [literal "uptime", literal "-r"] 3000000000 (List.replicate 32 0))
        (withUnit (itoaText (-1294967296)) (chars "ms") 1) ∧
      UptimeForm.raw.read (withUnit (itoaText (-1294967296)) (chars "ms") 1) ≠
        some 3000000000 := by
  obtain ⟨hsends, hread⟩ := uptime_reads_iff 3000000000 (literal "uptime")
    (.cons (isString_literal (s := "-r") (by decide)) .nil)
    (List.length_replicate (a := (0 : Byte)))
  exact ⟨hsends, fun h => absurd ((hread (by decide)).mp h (by decide)) (by decide)⟩

end Reading

end AuriOS
