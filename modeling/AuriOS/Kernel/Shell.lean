import AuriOS.Commands.Echo
import AuriOS.Commands.SetPrompt
import AuriOS.Kernel.History

/-!
# The shell

The line editor and the command dispatch of `shell.c`.  A shell holds the buffer and its cursor,
the console it prints to, the history, the prompt and `world`, the rest of the kernel.

The commands whose bodies are elsewhere are a parameter, `commands`: each gets the words of the
line, prints some text and changes `world`, or does not return.  All of them reach the terminal
through `terminal_putchar` only.  The results assume that none of them changes a variable of the
shell, of the history or of the terminal; this is so in the source but for `poke`, which writes a
byte to any address it is given.  `clear`, `echo` and `setprompt` are here as they are in the
source.
-/

namespace AuriOS

open Program

def bufferSize : ℕ := 256
def maxCmdArgs : ℕ := 16

/-- The commands whose bodies are a parameter. -/
inductive Command
  | help
  | fetch
  | crash
  | reboot
  | poweroff
  | uptime
  | memdump
  | mia
  | mmuViewMappings
  | peek
  | poke
  | memtest
  deriving DecidableEq

/-- What a command prints and what it does to the rest of the kernel; `none` if it does not
return. -/
abbrev Commands (W : Type) := Command → List (List Byte) → W → Option (List Byte × W)

/-- The shell's variables, with the console and the world that its commands see. -/
structure Shell (W : Type) where
  buffer : List Byte
  /-- `buffer_pos`. -/
  bufferPos : ℤ
  console : Console
  history : History
  prompt : Prompt
  world : W

/-- The shell before `shell_init`: the static variables have their initial values. -/
def Shell.boot {W : Type} (console : Console) (world : W) : Shell W where
  buffer := List.replicate bufferSize 0
  bufferPos := 0
  console := console
  history := History.zero
  prompt := Prompt.initial
  world := world

/-- `command_list`, up to its `NULL`. -/
def commandList : List (List Byte) :=
  ["help", "fetch", "clear", "uptime", "memdump", "memtest", "mia", "mmap", "peek", "poke", "echo",
    "reboot", "exit", "crash", "setprompt"].map literal

/-- `&buffer[i]`. -/
def addressOf (buffer : List Byte) (i : ℤ) : Except Fault (List Byte) :=
  if 0 ≤ i then pure (buffer.drop i.toNat) else throw .outOfBounds

section Shell

variable {W : Type}

/-- `shell_init`. -/
def shellInit (s : Shell W) : Except Fault (Shell W) := do
  let s := { s with buffer := List.replicate bufferSize 0, bufferPos := 0 }
  let k ← shellRenderPrompt s.prompt s.console
  pure { s with console := k }

/-! ### Commands -/

/-- `args[argc] = ptr`: the pointers stored so far are `args`. -/
def storeArg (args : List (Option ℕ)) (ptr : Option ℕ) : Except Fault (List (Option ℕ)) :=
  if args.length < maxCmdArgs + 1 then pure (args ++ [ptr]) else throw .outOfBounds

/-- The outer loop of `shell_parse` at index `i`, with room for `n` more arguments.  A pointer into
the line is the index it points to. -/
def parseFrom : ℕ → List Byte → ℕ → List (Option ℕ) → Except Fault (List Byte × List (Option ℕ))
  | n, cmd, i, args => do
      let b ← getByte cmd i
      if b = 0 then pure (cmd, args)
      else
        match n with
        | 0 => pure (cmd, args)
        | n + 1 => do
            let args ← storeArg args (some i)
            let word ← scan (fun b => b ≠ 0 && b ≠ byte ' ') (cmd.drop i)
            let i := i + word
            let b ← getByte cmd i
            if b = byte ' ' then do
              let cmd ← setByte cmd i 0
              let i := i + 1
              let blanks ← scan (· = byte ' ') (cmd.drop i)
              parseFrom n cmd (i + blanks) args
            else do
              let blanks ← scan (· = byte ' ') (cmd.drop i)
              parseFrom n cmd (i + blanks) args

/-- `shell_parse`: the line cut into words, `argc`, and what was stored to `args`. -/
def shellParse (cmd : List Byte) : Except Fault (List Byte × ℕ × List (Option ℕ)) := do
  let (cmd, start) ← strTrim cmd 0
  let b ← getByte cmd start
  if b = 0 then pure (cmd, 0, [])
  else do
    let (cmd, args) ← parseFrom maxCmdArgs cmd start []
    let argc := args.length
    let args ← storeArg args none
    pure (cmd, argc, args)

/-- The strings at the pointers `args[0]` to `args[argc - 1]`. -/
def argPointers (cmd : List Byte) : List (Option ℕ) → Except Fault (List (List Byte))
  | [] => pure []
  | some i :: args => do
      let argv ← argPointers cmd args
      pure (cmd.drop i :: argv)
  | none :: _ => throw .outOfBounds

/-- The text at a pointer. -/
def readString (str : List Byte) : Except Fault (List Byte) := do
  let len ← strlen str
  pure (str.take len)

variable (commands : Commands W)

/-- A command whose body is elsewhere. -/
def runCommand (command : Command) (argv : List (List Byte)) (s : Shell W) :
    Except Fault (Shell W) :=
  match commands command argv s.world with
  | none => throw .stopped
  | some (out, world) => do
      let k ← putchars s.console out
      pure { s with console := k, world := world }

/-- The branches of `shell_execute`, in their order. -/
def dispatchTable : List (List Byte × (List (List Byte) → Shell W → Except Fault (Shell W))) :=
  let plain (command : Command) := fun _ => runCommand commands command []
  let withArgs (command : Command) := fun argv s => do
    let texts ← argv.mapM readString
    runCommand commands command texts s
  [(literal "help", plain .help),
    (literal "clear", fun _ s => pure { s with console := s.console.onTerminal terminalClear }),
    (literal "fetch", plain .fetch),
    (literal "crash", plain .crash),
    (literal "reboot", plain .reboot),
    (literal "exit", plain .poweroff),
    (literal "uptime", withArgs .uptime),
    (literal "echo", fun argv s => do
      let k ← echo argv s.console
      pure { s with console := k }),
    (literal "memdump", withArgs .memdump),
    (literal "mia", plain .mia),
    (literal "mmap", plain .mmuViewMappings),
    (literal "peek", withArgs .peek),
    (literal "poke", withArgs .poke),
    (literal "memtest", plain .memtest),
    (literal "setprompt", fun argv s => do
      let (prompt, k) ← setprompt argv s.prompt s.console
      pure { s with prompt := prompt, console := k })]

/-- The message of `shell_execute` for a word that is no command. -/
def commandNotFound (cmdName : List Byte) (s : Shell W) : Except Fault (Shell W) := do
  let k ← terminalWritestring s.console (literal "command not found: ")
  let k ← terminalWritestring k cmdName
  let k ← terminalPutchar k (byte '\n')
  pure { s with console := k }

/-- The chain of `strcmp`. -/
def dispatch (cmdName : List Byte) (argv : List (List Byte)) (s : Shell W) :
    List (List Byte × (List (List Byte) → Shell W → Except Fault (Shell W))) →
      Except Fault (Shell W)
  | [] => commandNotFound cmdName s
  | (name, body) :: table => do
      let found ← streq cmdName name
      if found then body argv s else dispatch cmdName argv s table

/-- `shell_execute(buffer)`. -/
def shellExecute (s : Shell W) : Except Fault (Shell W) := do
  let history ← historyPush s.history (some s.buffer)
  let (buffer, argc, args) ← shellParse s.buffer
  let s := { s with history := history, buffer := buffer }
  if argc = 0 then pure s
  else do
    let argv ← argPointers buffer (args.take argc)
    match argv with
    | [] => throw .outOfBounds
    | cmdName :: _ => dispatch cmdName argv s (dispatchTable commands)

/-! ### Completion -/

/-- How far the two strings agree. -/
def commandRecognition : List Byte → List Byte → Except Fault ℕ
  | a :: s, b :: t =>
      if a ≠ 0 ∧ b ≠ 0 ∧ a = b then (· + 1) <$> commandRecognition s t else pure 0
  | _, _ => throw .outOfBounds

/-- Whether a space lies among the `n` characters from `i` on. -/
def hasSpace (buffer : List Byte) : ℕ → ℕ → Except Fault Bool
  | _, 0 => pure false
  | i, n + 1 => do
      let b ← getByte buffer i
      if b = byte ' ' then pure true else hasSpace buffer (i + 1) n

/-- The loop over the command list, with the matches found so far and `lcp`. -/
def collectMatches (buffer : List Byte) (prefixLen : ℕ) :
    List (List Byte) → List (List Byte) → ℤ → Except Fault (List (List Byte) × ℤ)
  | [], found, lcp => pure (found, lcp)
  | name :: table, found, lcp => do
      let z ← strncmp name buffer prefixLen
      if z = 0 then do
        let found := if found.length < 32 then found ++ [name] else found
        if lcp < 0 then do
          let len ← strlen name
          collectMatches buffer prefixLen table found len
        else do
          let common ← commandRecognition (found.headD []) name
          collectMatches buffer prefixLen table found (if (common : ℤ) < lcp then common else lcp)
      else collectMatches buffer prefixLen table found lcp

/-- The loop of `shell_insert_completion` at index `i`, with `n` characters to go. -/
def insertFrom (text : List Byte) : ℤ → ℕ → List Byte → Console →
    Except Fault (List Byte × Console)
  | _, 0, buffer, k => pure (buffer, k)
  | i, n + 1, buffer, k =>
      if i ≥ bufferSize - 2 then pure (buffer, k)
      else do
        let ch ← getByte text i
        let buffer ← setByte buffer i ch
        let k ← terminalPutchar k ch
        insertFrom text (i + 1) n buffer k

/-- `shell_insert_completion`. -/
def shellInsertCompletion (text : List Byte) (len : ℤ) (addSpace : Bool) (s : Shell W) :
    Except Fault (Shell W) := do
  let (buffer, k) ← insertFrom text s.bufferPos (len - s.bufferPos).toNat s.buffer s.console
  let buffer ← setByte buffer len 0
  if addSpace ∧ len < bufferSize - 1 then do
    let buffer ← setByte buffer len (byte ' ')
    let buffer ← setByte buffer (len + 1) 0
    let k ← terminalPutchar k (byte ' ')
    pure { s with buffer := buffer, bufferPos := len + 1, console := k }
  else pure { s with buffer := buffer, bufferPos := len, console := k }

/-- The list of candidates. -/
def writeMatches : List (List Byte) → Console → Except Fault Console
  | [], k => pure k
  | name :: found, k => do
      let k ← terminalWritestring k name
      let k ← terminalWritestring k (literal "  ")
      writeMatches found k

/-- `command_completion` over a table of names. -/
def commandCompletionWith (table : List (List Byte)) (s : Shell W) : Except Fault (Shell W) := do
  let spaced ← hasSpace s.buffer 0 s.bufferPos.toNat
  if spaced then pure s
  else do
    -- an `int` passed for the `unsigned` of `strncmp`
    let (found, lcp) ← collectMatches s.buffer (s.bufferPos % 2 ^ 32).toNat table [] (-1)
    match found with
    | [] => pure s
    | [name] => do
        let len ← strlen name
        shellInsertCompletion name len true s
    | name :: _ =>
        if lcp > s.bufferPos then shellInsertCompletion name lcp false s
        else do
          let k ← terminalPutchar s.console (byte '\n')
          let k ← writeMatches found k
          let k ← terminalPutchar k (byte '\n')
          let k ← shellRenderPrompt s.prompt k
          let k ← terminalWritestring k s.buffer
          pure { s with console := k }

/-- `command_completion`, on the kernel's own command list. -/
def commandCompletion (s : Shell W) : Except Fault (Shell W) := commandCompletionWith commandList s

/-! ### Keys -/

/-- `for (x = pos; x < pos + n; x++) buffer[x - 1] = buffer[x]`. -/
def shiftLeft : ℤ → ℕ → List Byte → Except Fault (List Byte)
  | _, 0, buffer => pure buffer
  | x, n + 1, buffer => do
      let b ← getByte buffer x
      let buffer ← setByte buffer (x - 1) b
      shiftLeft (x + 1) n buffer

/-- `for (x = pos + n; x > pos; x--) buffer[x] = buffer[x - 1]`. -/
def shiftRight (pos : ℤ) : ℕ → List Byte → Except Fault (List Byte)
  | 0, buffer => pure buffer
  | n + 1, buffer => do
      let b ← getByte buffer (pos + n)
      let buffer ← setByte buffer (pos + n + 1) b
      shiftRight pos n buffer

/-- The branch of `shell_handle_key` for a backspace. -/
def handleBackspace (s : Shell W) : Except Fault (Shell W) := do
  if s.bufferPos > 0 then
    let len ← strlen s.buffer
    let tail : ℤ := len - s.bufferPos
    let buffer ← shiftLeft s.bufferPos (len - s.bufferPos).toNat s.buffer
    let buffer ← setByte buffer (len - 1) 0
    let pos := s.bufferPos - 1
    let k := s.console.onTerminal terminalBackspace
    let rest ← addressOf buffer pos
    let k ← terminalWritestring k rest
    let k ← terminalPutchar k (byte ' ')
    let k := k.onTerminal (terminalMoveCursor (-(tail + 1)))
    pure { s with buffer := buffer, bufferPos := pos, console := k }
  else pure s

/-- The last branch of `shell_handle_key`, for a character that is inserted. -/
def handleChar (c : Byte) (s : Shell W) : Except Fault (Shell W) := do
  let len ← strlen s.buffer
  if len < bufferSize - 1 then
    let tail : ℤ := len - s.bufferPos
    let buffer ← shiftRight s.bufferPos (len - s.bufferPos).toNat s.buffer
    let buffer ← setByte buffer s.bufferPos c
    let buffer ← setByte buffer (len + 1) 0
    let rest ← addressOf buffer s.bufferPos
    let k ← terminalWritestring s.console rest
    let k := k.onTerminal (terminalMoveCursor (-tail))
    pure { s with buffer := buffer, bufferPos := s.bufferPos + 1, console := k }
  else pure s

/-- The branch of `shell_handle_key` for a newline. -/
def handleEnter (s : Shell W) : Except Fault (Shell W) := do
  let k ← terminalPutchar s.console (byte '\n')
  let s ← shellExecute commands { s with console := k }
  let buffer ← setByte s.buffer 0 0
  let k ← shellRenderPrompt s.prompt s.console
  pure { s with buffer := buffer, bufferPos := 0, console := k }

/-- The key that clears the screen. -/
def formFeed : Byte := 0x0C

/-- `shell_handle_key`. -/
def shellHandleKey (c : Byte) (s : Shell W) : Except Fault (Shell W) :=
  if c = formFeed then
    shellInit { s with console := s.console.onTerminal terminalClear, bufferPos := 0 }
  else if c = byte '\n' then handleEnter commands s
  else if c = byte '\x08' then handleBackspace s
  else if c = byte '\t' then commandCompletion s
  else handleChar c s

/-- `n` calls of `terminal_backspace`. -/
def backspaces : ℕ → Terminal → Terminal := forLoop (fun _ => terminalBackspace) 0

/-- `1` is the up arrow. -/
def shellHistory (a : ℤ) (s : Shell W) : Except Fault (Shell W) := do
  let oldLen ← strlen s.buffer
  let k := s.console.onTerminal (terminalMoveCursor (oldLen - s.bufferPos))
  let (_, history) ← if a = 1 then historyPrev s.history (some s.buffer) else historyNext s.history
  let k := k.onTerminal (backspaces oldLen)
  let current ← historyGetcurrentcommand history
  let buffer ← strlcpy s.buffer current bufferSize
  let pos ← strlen buffer
  let k ← terminalWritestring k buffer
  pure { s with buffer := buffer, bufferPos := pos, history := history, console := k }

/-- `shell_buffer_pos_decrement`. -/
def shellBufferPosDecrement (s : Shell W) : Except Fault (Shell W) :=
  if s.bufferPos ≤ 0 then pure s
  else pure { s with bufferPos := s.bufferPos - 1
                     console := s.console.onTerminal (terminalMoveCursor (-1)) }

/-- `shell_buffer_pos_increment`. -/
def shellBufferPosIncrement (s : Shell W) : Except Fault (Shell W) := do
  let len ← strlen s.buffer
  if s.bufferPos ≥ len then pure s
  else pure { s with bufferPos := s.bufferPos + 1
                     console := s.console.onTerminal (terminalMoveCursor 1) }

end Shell

end AuriOS
