import AuriOS.Kernel.Ansi

/-!
# The prompt

`setprompt.c`: the prompt is rendered from a template with two placeholders, the names that
`setprompt` copies into their 64 bytes.

* `Prompt.Valid`: both names are strings in their arrays; `setprompt_ok` keeps it;
* `shellRenderPrompt_sends`: rendering prints the template with the names in it.
-/

namespace AuriOS

open Program

def nameSize : ℕ := 64

/-- `PROMPT_TEMPLATE`, with the colours of `colors.h`. -/
def promptTemplate : String :=
  "\x1b[97m[\x1b[91m%user%\x1b[96m@\x1b[97m%os%\x1b[0m ~\x1b[97m]\x1b[92m$ \x1b[0m"

/-- `prompt_user` and `prompt_os`. -/
structure Prompt where
  user : List Byte
  os : List Byte

/-- A static array of `size` bytes initialized with a literal. -/
def initialized (size : ℕ) (s : String) : List Byte :=
  chars s ++ List.replicate (size - (chars s).length) 0

/-- The names and the template that the kernel is built with. -/
def Prompt.initial : Prompt where
  user := initialized nameSize "root"
  os := initialized nameSize "auri-os"

/-- `prompt_match`: the placeholder, a literal, lies at `s`. -/
def promptMatch : List Byte → List Byte → Except Fault Bool
  | _, [] => pure true
  | [], _ :: _ => throw .outOfBounds
  | b :: s, t :: tok => if b ≠ t then pure false else promptMatch s tok

/-- The loop of `shell_render_prompt`, with `i` about to skip this many characters. -/
def renderPromptFrom (p : Prompt) : ℕ → List Byte → Console → Except Fault Console
  | _, [], _ => throw .outOfBounds
  | skip + 1, _ :: fmt, k => renderPromptFrom p skip fmt k
  | 0, b :: fmt, k =>
      if b = 0 then pure k
      else do
        let user ← promptMatch (b :: fmt) (chars "%user%")
        if user then do
          let k ← terminalWritestring k p.user
          renderPromptFrom p 5 fmt k
        else do
          let os ← promptMatch (b :: fmt) (chars "%os%")
          if os then do
            let k ← terminalWritestring k p.os
            renderPromptFrom p 3 fmt k
          else do
            let k ← terminalPutchar k b
            renderPromptFrom p 0 fmt k

/-- `shell_render_prompt`, with its fixed template. -/
def shellRenderPrompt (p : Prompt) (k : Console) : Except Fault Console :=
  renderPromptFrom p 0 (literal promptTemplate) k

/-- `setprompt`, on the pointers of its arguments. -/
def setprompt (argv : List (List Byte)) (p : Prompt) (k : Console) :
    Except Fault (Prompt × Console) :=
  match argv with
  | _ :: user :: rest => do
      let user ← strlcpy p.user user nameSize
      match rest with
      | os :: _ => do
          let os ← strlcpy p.os os nameSize
          pure (⟨user, os⟩, k)
      | [] => pure (⟨user, p.os⟩, k)
  | _ => do
      let k ← terminalWritestring k (literal "Usage: setprompt <user> <os>\n")
      pure (p, k)

/-! ### What is printed -/

/-- Both names are strings in their 64 bytes. -/
structure Prompt.Valid (p : Prompt) : Prop where
  user : ∃ name, HoldsString nameSize p.user name
  os : ∃ name, HoldsString nameSize p.os name

section Prompt

variable {p : Prompt} {fmt text out user os : List Byte}

/-- An initialized array holds its string when there is room for the NUL. -/
theorem initialized_holdsString {size : ℕ} {s : String} (h0 : 0 ∉ chars s)
    (hlt : (chars s).length < size) : HoldsString size (initialized size s) (chars s) := by
  obtain ⟨n, hn⟩ : ∃ n, size - (chars s).length = n + 1 := ⟨size - (chars s).length - 1, by omega⟩
  refine ⟨?_, h0, List.replicate n 0, by rw [initialized, hn]; rfl⟩
  rw [initialized, List.length_append, List.length_replicate]
  omega

/-- The prompt of the boot is valid. -/
theorem Prompt.initial_valid : Prompt.initial.Valid :=
  ⟨⟨_, initialized_holdsString (by decide) (by decide)⟩,
    ⟨_, initialized_holdsString (by decide) (by decide)⟩⟩

/-- What is rendered for these names. -/
def promptText (user os : List Byte) : List Byte :=
  chars "\x1b[97m[\x1b[91m" ++ (user ++ (chars "\x1b[96m@\x1b[97m" ++ (os ++
    chars "\x1b[0m ~\x1b[97m]\x1b[92m$ \x1b[0m")))

/-- A token matches a format that starts with it. -/
theorem promptMatch_self (tok fmt : List Byte) : promptMatch (tok ++ fmt) tok = .ok true := by
  induction tok with
  | nil => cases fmt <;> rfl
  | cons t tok ih =>
    rw [List.cons_append, promptMatch, if_neg (not_not.mpr rfl)]
    exact ih

/-- A format that starts otherwise does not match. -/
theorem promptMatch_of_ne {b t : Byte} (hne : b ≠ t) (fmt tok : List Byte) :
    promptMatch (b :: fmt) (t :: tok) = .ok false := if_pos hne

/-- Characters outside of the placeholders are printed. -/
theorem render_text (h0 : 0 ∉ text) (hplain : byte '%' ∉ text)
    (h : Sends (renderPromptFrom p 0 fmt) out) :
    Sends (renderPromptFrom p 0 (text ++ fmt)) (text ++ out) := by
  intro k
  induction text generalizing k with
  | nil => exact h k
  | cons b text ih =>
    have hb : b ≠ 0 := (List.ne_of_not_mem_cons h0).symm
    have hpercent : b ≠ byte '%' := (List.ne_of_not_mem_cons hplain).symm
    have huser : promptMatch (b :: (text ++ fmt)) (chars "%user%") = .ok false :=
      promptMatch_of_ne hpercent _ _
    have hos : promptMatch (b :: (text ++ fmt)) (chars "%os%") = .ok false :=
      promptMatch_of_ne hpercent _ _
    have ih := ih (List.not_mem_of_not_mem_cons h0) (List.not_mem_of_not_mem_cons hplain)
    rw [List.cons_append, renderPromptFrom, if_neg hb, huser, ok_bind, if_neg Bool.false_ne_true,
      hos, ok_bind, if_neg Bool.false_ne_true]
    exact congrArg _ (funext ih)

/-- The placeholders are replaced by the names. -/
theorem render_user (huser : IsString p.user user) (h : Sends (renderPromptFrom p 0 fmt) out) :
    Sends (renderPromptFrom p 0 (chars "%user%" ++ fmt)) (user ++ out) := by
  intro k
  have hmatch := promptMatch_self (chars "%user%") fmt
  change renderPromptFrom p 0 (byte '%' :: (chars "user%" ++ fmt)) k = _
  change promptMatch (byte '%' :: (chars "user%" ++ fmt)) _ = _ at hmatch
  rw [renderPromptFrom, if_neg (by decide), hmatch, ok_bind, if_pos rfl]
  exact (sends_writestring huser).then h k

/-- The token of the system name renders as that name. -/
theorem render_os (hos : IsString p.os os) (h : Sends (renderPromptFrom p 0 fmt) out) :
    Sends (renderPromptFrom p 0 (chars "%os%" ++ fmt)) (os ++ out) := by
  intro k
  have huser : promptMatch (byte '%' :: (chars "os%" ++ fmt)) (chars "%user%") = .ok false := rfl
  have hmatch := promptMatch_self (chars "%os%") fmt
  change renderPromptFrom p 0 (byte '%' :: (chars "os%" ++ fmt)) k = _
  change promptMatch (byte '%' :: (chars "os%" ++ fmt)) _ = _ at hmatch
  rw [renderPromptFrom, if_neg (by decide), huser, ok_bind, if_neg Bool.false_ne_true, hmatch,
    ok_bind, if_pos rfl]
  exact (sends_writestring hos).then h k

/-- Rendering prints the template with the names in it. -/
theorem shellRenderPrompt_sends (huser : IsString p.user user) (hos : IsString p.os os) :
    Sends (shellRenderPrompt p) (promptText user os) := by
  have hend : Sends (renderPromptFrom p 0 (chars "\x1b[0m ~\x1b[97m]\x1b[92m$ \x1b[0m" ++ [0]))
      (chars "\x1b[0m ~\x1b[97m]\x1b[92m$ \x1b[0m") := by
    have hnothing : Sends (renderPromptFrom p 0 [0]) [] := fun _ => rfl
    rw [← List.append_nil (chars "\x1b[0m ~\x1b[97m]\x1b[92m$ \x1b[0m"), List.append_assoc]
    exact render_text (by decide) (by decide) hnothing
  have htemplate : literal promptTemplate = chars "\x1b[97m[\x1b[91m" ++ (chars "%user%" ++
      (chars "\x1b[96m@\x1b[97m" ++ (chars "%os%" ++
        (chars "\x1b[0m ~\x1b[97m]\x1b[92m$ \x1b[0m" ++ [0])))) := by decide
  unfold shellRenderPrompt promptText
  rw [htemplate]
  exact render_text (by decide) (by decide)
    (render_user huser (render_text (by decide) (by decide) (render_os hos hend)))

/-- What is rendered. -/
def Prompt.rendered (p : Prompt) : List Byte :=
  promptText (p.user.takeWhile (· ≠ 0)) (p.os.takeWhile (· ≠ 0))

/-- A valid prompt prints its rendered text. -/
theorem shellRenderPrompt_rendered (hp : p.Valid) : Sends (shellRenderPrompt p) p.rendered := by
  obtain ⟨user, -, huser⟩ := hp.user
  obtain ⟨os, -, hos⟩ := hp.os
  unfold Prompt.rendered
  rw [huser.takeWhile_eq, hos.takeWhile_eq]
  exact shellRenderPrompt_sends huser hos

/-- Rendering prints one text, whatever the console. -/
theorem shellRenderPrompt_eq (hp : p.Valid) : ∃ out, ∀ k, shellRenderPrompt p k = putchars k out :=
  ⟨p.rendered, shellRenderPrompt_rendered hp⟩

/-- Without a name there is a usage line; otherwise each name that is given is copied, cut to 63
characters. -/
theorem setprompt_cases {argv args : List (List Byte)} (hp : p.Valid)
    (h : List.Forall₂ IsString argv args) :
    (∀ k, setprompt argv p k =
        terminalWritestring k (literal "Usage: setprompt <user> <os>\n") >>= fun k => pure (p, k)) ∨
      ∃ p', (∀ k, setprompt argv p k = .ok (p', k)) ∧
        (∃ word ∈ args, HoldsString nameSize p'.user (word.take (nameSize - 1))) ∧
        (p'.os = p.os ∨ ∃ word ∈ args, HoldsString nameSize p'.os (word.take (nameSize - 1))) := by
  obtain ⟨oldUser, hold⟩ := hp.user
  obtain ⟨oldOs, holdOs⟩ := hp.os
  cases h with
  | nil => exact Or.inl fun _ => rfl
  | @cons _ name _ _ _ h =>
    cases h with
    | nil => exact Or.inl fun _ => rfl
    | @cons user word rest words hword h =>
      obtain ⟨user', hcopy, huser⟩ :=
        strlcpy_holdsString hword hold (by decide : 0 < nameSize) (Nat.le_refl _)
      have hmem : word ∈ name :: word :: words := List.mem_cons_of_mem _ List.mem_cons_self
      cases h with
      | nil =>
        refine Or.inr ⟨⟨user', p.os⟩, fun k => ?_, ⟨word, hmem, huser⟩, Or.inl rfl⟩
        rw [setprompt, hcopy]
        rfl
      | @cons os word' rest words hword' h =>
        obtain ⟨os', hcopy', hos⟩ :=
          strlcpy_holdsString hword' holdOs (by decide : 0 < nameSize) (Nat.le_refl _)
        refine Or.inr ⟨⟨user', os'⟩, fun k => ?_, ⟨word, hmem, huser⟩, Or.inr ⟨word', ?_, hos⟩⟩
        · rw [setprompt, hcopy, ok_bind]
          dsimp only
          rw [hcopy']
          rfl
        · exact List.mem_cons_of_mem _ (List.mem_cons_of_mem _ List.mem_cons_self)

/-- `setprompt` keeps the prompt and the console valid, whatever its arguments. -/
theorem setprompt_ok {argv args : List (List Byte)} (hp : p.Valid)
    (h : List.Forall₂ IsString argv args) {k : Console} (hk : k.Valid) :
    ∃ p' k', setprompt argv p k = .ok (p', k') ∧ p'.Valid ∧ k'.Valid := by
  rcases setprompt_cases hp h with husage | ⟨p', hset, ⟨word, -, huser⟩, hos⟩
  · obtain ⟨k', hrun, hk'⟩ := putchars_ok hk (chars "Usage: setprompt <user> <os>\n")
    refine ⟨p, k', ?_, hp, hk'⟩
    rw [husage, terminalWritestring_eq (isString_literal (by decide)), hrun]
    rfl
  · refine ⟨p', k, hset k, ⟨⟨_, huser⟩, ?_⟩, hk⟩
    rcases hos with hsame | ⟨word', -, hos⟩
    · exact hsame ▸ hp.os
    · exact ⟨_, hos⟩

end Prompt

end AuriOS
