import AuriOS.Kernel.Dispatch
import AuriOS.Kernel.Session

/-!
# Completing a word

Tab behind a word without a space, for every table of names: which line it leaves, and when it lists
the names.

* `Tabbed`: the line by the number of names that start with the word;
* `commandCompletionWith_tabbed`: Tab leaves this line with the cursor at its end, and lists the
  names exactly when there are several that share no more than the word.
-/

namespace AuriOS

open Program CommonPrefix

/-- The line that belongs to a word if these names start with it. -/
structure Tabbed (found : List (List Byte)) (word line : List Byte) : Prop where
  of_nil : found = [] → line = word
  of_single : ∀ name, found = [name] → line = name ++ [byte ' ']
  /-- The longest common prefix. -/
  of_several : 2 ≤ found.length → word <+: line ∧ ∀ p, p <+: line ↔ ∀ name ∈ found, p <+: name

section Tab

variable {names : List (List Byte)} {word : List Byte}

/-- Several names are completed to their common prefix. -/
theorem append_completion (hspace : byte ' ' ∉ word) (hseveral : 2 ≤ (matching names word).length) :
    word ++ (completion names word).getD [] = commonPrefix (matching names word) := by
  have hprefix : word <+: commonPrefix (matching names word) := by
    cases hfound : matching names word with
    | nil =>
      rw [hfound] at hseveral
      exact absurd hseveral (by decide)
    | cons first others =>
      refine prefix_commonPrefix fun name hname => ?_
      rw [← hfound] at hname
      exact (prefix_of_mem_matching hname).2
  obtain ⟨rest, hrest⟩ := hprefix
  rw [completion_of_several hspace hseveral, ← hrest]
  split
  · rw [List.drop_left]
    rfl
  · next hlonger =>
    rw [List.length_append] at hlonger
    have hnil : rest = [] := List.length_eq_zero_iff.mp (by omega)
    rw [hnil]
    rfl

/-- The completion is what Tab should make of the candidates. -/
theorem completion_tabbed (hspace : byte ' ' ∉ word) :
    Tabbed (matching names word) word (word ++ (completion names word).getD []) := by
  refine ⟨fun hfound => ?_, fun name hfound => ?_, fun hseveral => ?_⟩
  · rw [completion_of_nil hspace hfound]
    exact List.append_nil word
  · obtain ⟨rest, rfl⟩ : word <+: name :=
      (prefix_of_mem_matching (hfound ▸ List.mem_singleton_self name)).2
    rw [completion_of_single hspace hfound, List.drop_left, Option.getD_some, List.append_assoc]
  · refine ⟨List.prefix_append _ _, fun p => ?_⟩
    rw [append_completion hspace hseveral]
    constructor
    · exact fun hp name hname => hp.trans (commonPrefix_prefix_of_mem hname)
    · intro hp
      cases hfound : matching names word with
      | nil =>
        rw [hfound] at hseveral
        exact absurd hseveral (by decide)
      | cons first others =>
        rw [hfound] at hp
        exact prefix_commonPrefix hp

/-- There is nothing to insert if the line stays the word. -/
theorem lists_iff (hspace : byte ' ' ∉ word) : Lists names word ↔
    2 ≤ (matching names word).length ∧ word ++ (completion names word).getD [] = word := by
  unfold Lists
  rw [and_iff_right hspace]
  refine and_congr_right fun hseveral => ?_
  rw [List.append_right_eq_self, completion_of_several hspace hseveral]
  split
  · next hlonger =>
    refine iff_of_false (Option.some_ne_none _) fun hnil => ?_
    rw [Option.getD_some, List.drop_eq_nil_iff] at hnil
    exact absurd hlonger (Nat.not_lt_of_le hnil)
  · exact iff_of_true rfl rfl

/-- What Tab inserts is shorter than the list would be. -/
theorem length_completion_lt :
    ((completion names word).getD []).length < (candidateList (matching names word)).length := by
  have hlist : ∀ found : List (List Byte), (candidateList found).length =
      2 + (found.map fun name => name.length + 2).sum := by
    intro found
    unfold candidateList
    rw [List.length_append, List.length_append, List.length_flatMap]
    simp only [List.length_append]
    change 1 + ((found.map fun name => name.length + 2).sum + 1) = _
    omega
  rw [hlist]
  by_cases hspace : byte ' ' ∈ word
  · have hnone : completion names word = none := if_pos hspace
    rw [hnone]
    exact Nat.lt_of_lt_of_le Nat.zero_lt_two (Nat.le_add_right _ _)
  cases hfound : matching names word with
  | nil =>
    rw [completion_of_nil hspace hfound]
    exact Nat.zero_lt_two
  | cons first others =>
    have hfirst : first.length ≤ ((first :: others).map fun name => name.length + 2).sum := by
      rw [List.map_cons, List.sum_cons]
      omega
    cases others with
    | nil =>
      rw [completion_of_single hspace hfound, Option.getD_some, List.length_append,
        List.length_drop, List.length_singleton]
      omega
    | cons second others =>
      have hseveral : 2 ≤ (matching names word).length := by
        rw [hfound]
        exact Nat.succ_le_succ (Nat.succ_le_succ (Nat.zero_le _))
      have hline := congrArg List.length (append_completion hspace hseveral)
      have hle : (commonPrefix (matching names word)).length ≤ first.length :=
        (commonPrefix_prefix_of_mem (hfound ▸ List.mem_cons_self)).length_le
      rw [List.length_append] at hline
      omega

variable {W : Type} {s : Shell W} {z : Line}

/-- Tab behind a word: the line is what the names that start with the word make of it, the cursor is
at its end, and besides what was inserted only the list, the prompt and the line anew are
printed. -/
theorem commandCompletionWith_tabbed (h : Edits s z) (hs : s.console.Valid) (hp : s.prompt.Valid)
    {table : List (List Byte)} (htable : List.Forall₂ IsString table names)
    (hlen : names.length ≤ 32) (hshort : ∀ name ∈ names, name.length < 250)
    (hspace : byte ' ' ∉ z.left) (hend : z.right = []) :
    ∃ s' line prompt printed, commandCompletionWith table s = .ok s' ∧
      HoldsString bufferSize s'.buffer line ∧ s'.bufferPos = line.length ∧
      Tabbed (matching names z.left) z.left line ∧
      (∀ k, shellRenderPrompt s.prompt k = putchars k prompt) ∧
      putchars s.console printed = .ok s'.console ∧
      printed = (if 2 ≤ (matching names z.left).length ∧ line = z.left then
        candidateList (matching names z.left) ++ (prompt ++ line) else line.drop z.left.length) ∧
      (candidateList (matching names z.left) <:+: printed ↔
        2 ≤ (matching names z.left).length ∧ line = z.left) := by
  obtain ⟨prompt, hprompt⟩ := shellRenderPrompt_eq hp
  obtain ⟨s', hrun, -, -, hdone, hprint⟩ := commandCompletionWith_ok h hs hprompt htable hlen hshort
  have htext : z.text = z.left := by
    rw [BoundedZipper.text, hend, List.append_nil]
  have hline : HoldsString bufferSize s'.buffer (z.left ++ (completion names z.left).getD []) ∧
      s'.bufferPos = (z.left ++ (completion names z.left).getD []).length := by
    cases hins : completion names z.left with
    | none =>
      rw [hins] at hdone
      rw [Option.getD_none, List.append_nil, hdone.1, hdone.2]
      exact ⟨htext ▸ h.buffer, h.pos⟩
    | some ins =>
      rw [hins] at hdone
      exact hdone
  have hprinted : tabOutput names z prompt = if 2 ≤ (matching names z.left).length ∧
      z.left ++ (completion names z.left).getD [] = z.left then
        candidateList (matching names z.left) ++
          (prompt ++ (z.left ++ (completion names z.left).getD []))
      else (z.left ++ (completion names z.left).getD []).drop z.left.length := by
    unfold tabOutput
    by_cases hlists : Lists names z.left
    · have hlists' := (lists_iff hspace).mp hlists
      rw [if_pos hlists, if_pos hlists', htext, hlists'.2]
    · rw [if_neg hlists, if_neg (mt (lists_iff hspace).mpr hlists), List.drop_left]
  refine ⟨s', _, prompt, _, hrun, hline.1, hline.2, completion_tabbed hspace, hprompt, hprint,
    hprinted, ?_⟩
  rw [hprinted]
  split
  · next hlists => exact iff_of_true (List.prefix_append _ _).isInfix hlists
  · next hlists =>
    refine iff_of_false (fun hinfix => ?_) hlists
    rw [List.drop_left] at hinfix
    exact absurd hinfix.length_le (Nat.not_le_of_lt length_completion_lt)

end Tab

/-- Tab behind `me`. -/
theorem commandCompletionWith_tabbed_me :
    ∃ s' line prompt printed, commandCompletionWith commandList
        (Shell.withLine (chars "me") (Console.initial (fun _ => 0) ⟨0, fun _ => 0⟩)) = .ok s' ∧
      HoldsString bufferSize s'.buffer line ∧ s'.bufferPos = line.length ∧
      Tabbed (matching commandNames (chars "me")) (chars "me") line ∧
      (∀ k, shellRenderPrompt Prompt.initial k = putchars k prompt) ∧
      putchars (Console.initial (fun _ => 0) ⟨0, fun _ => 0⟩) printed = .ok s'.console ∧
      printed = (if 2 ≤ (matching commandNames (chars "me")).length ∧ line = chars "me" then
        candidateList (matching commandNames (chars "me")) ++ (prompt ++ line)
          else line.drop (chars "me").length) ∧
      (candidateList (matching commandNames (chars "me")) <:+: printed ↔
        2 ≤ (matching commandNames (chars "me")).length ∧ line = chars "me") := by
  have hroom : (chars "me").length ≤ 255 := by decide
  have hprompting := withLine_prompting (by decide) hroom
    (Console.initial_valid (fun _ => 0) ⟨0, fun _ => 0⟩)
  exact commandCompletionWith_tabbed hprompting.edits hprompting.console hprompting.prompt
    commandList_names (by decide) commandNames_short (show byte ' ' ∉ chars "me" by decide) rfl

end AuriOS
