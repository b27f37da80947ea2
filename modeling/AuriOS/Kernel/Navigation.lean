import AuriOS.Kernel.Session

/-!
# Recalling lines

What the history gives back to the editor, and when its navigation starts over.

* `recall_exact_iff`: a line comes back as it was, from the history and from the draft, exactly when
  it has at most 254 characters;
* `reset_iff`: a fresh prompt starts the navigation over exactly when a command was pushed, or when
  there was nothing to start over;
* `down_iff`: while the live line is edited, Down leaves it alone exactly if it is the draft.
-/

namespace AuriOS

open Program

variable {W : Type} {commands : Commands W} {s s' : Shell W} {d : Desk} {z : Line} {m : Recall}

/-! ### Typing -/

/-- Printable characters typed at the end of a line that has room for them. -/
theorem type_text {text : List Byte} (hprintable : ∀ c ∈ text, Printable c)
    (hright : d.line.right = []) (hroom : d.line.text.length + text.length ≤ 255) :
    ((text.map .handleKey).foldl Desk.act d).line.text = d.line.text ++ text ∧
      ((text.map .handleKey).foldl Desk.act d).history = d.history := by
  induction text generalizing d with
  | nil => exact ⟨(List.append_nil _).symm, rfl⟩
  | cons c text ih =>
    rw [List.length_cons] at hroom
    have hc := hprintable c List.mem_cons_self
    obtain ⟨hleft', hright'⟩ :=
      BoundedZipper.insert_of_lt (show d.line.text.length < 255 by omega) c
    have htext : (d.line.insert c).text = d.line.text ++ [c] := by
      unfold BoundedZipper.text
      rw [hleft', hright', hright, List.append_nil, List.append_nil]
    have hstep : d.act (.handleKey c) = ⟨d.line.insert c, d.history⟩ := act_printable d hc
    rw [List.map_cons, List.foldl_cons, hstep]
    obtain ⟨hline, hhistory⟩ := ih (d := ⟨d.line.insert c, d.history⟩)
      (fun b hb => hprintable b (List.mem_cons_of_mem _ hb)) (hright'.trans hright)
      (by change (d.line.insert c).text.length + _ ≤ _
          rw [htext, List.length_append, List.length_singleton]
          omega)
    refine ⟨hline.trans ?_, hhistory⟩
    change (d.line.insert c).text ++ text = _
    rw [htext, List.append_assoc]
    rfl

/-! ### Lines that come back -/

/-- The calls that the driver makes for Up and Down. -/
def KeyCall.up : KeyCall := .history 1
def KeyCall.down : KeyCall := .history 2

/-- A line takes the first 255 characters of its text. -/
theorem atEnd_text (text : List Byte) : (Line.atEnd text).text = text.take 255 :=
  List.append_nil _

/-- A command recalled at once is what the history kept of it. -/
theorem submit_up {line : List Byte} (hne : line ≠ []) :
    (Desk.act ⟨.empty, m.submit line⟩ .up).line.text = line.take recallLength := by
  have hsubmit : m.submit line = m.push line := if_neg hne
  have hcommands : (m.push line).commands ≠ [] := by
    change List.take (15 + 1) (line.take recallLength :: m.commands) ≠ []
    exact List.cons_ne_nil _ _
  have hcurrent : ((m.submit line).navigate 1 []).current = line.take recallLength := by
    rw [hsubmit]
    have hcursor : min (0 + 1) (m.push line).commands.length = 1 :=
      Nat.min_eq_left (List.length_pos_iff.mpr hcommands)
    unfold Recall.navigate Recall.current Recall.prev
    rw [if_pos rfl]
    dsimp only
    change (if min (0 + 1) (m.push line).commands.length = 0 then _ else
      (m.push line).commands.getD (min (0 + 1) (m.push line).commands.length - 1) []) = _
    rw [hcursor, if_neg Nat.one_ne_zero]
    rfl
  change (Line.atEnd ((m.submit line).navigate 1 []).current).text = _
  rw [atEnd_text, hcurrent, List.take_take]
  rfl

/-- While the user is `k` commands back at most, the draft is the line that was set aside, and the
editor holds it again when the cursor is back on it. -/
structure SetAside (d : Desk) (line : List Byte) (k : ℕ) : Prop where
  draft : d.history.draft = line.take recallLength
  cursor_le : d.history.cursor ≤ k
  line_of_zero : d.history.cursor = 0 → d.line.text = line.take recallLength

section SetAside

variable {line : List Byte} {k n : ℕ}

/-- What was cut to the length of an entry is not cut again. -/
theorem take_recallLength_twice (line : List Byte) :
    (line.take recallLength).take recallLength = line.take recallLength := by
  rw [List.take_take, Nat.min_self]

/-- An arrow key shows the draft when it leads to it. -/
theorem navigate_line (a : ℤ) (hdraft : (d.act (.history a)).history.draft = line.take recallLength)
    (hcursor : (d.act (.history a)).history.cursor = 0) :
    (d.act (.history a)).line.text = line.take recallLength := by
  change (Line.atEnd (d.act (.history a)).history.current).text = _
  rw [atEnd_text, Recall.current, if_pos hcursor, hdraft, List.take_take]
  rfl

/-- The first press of Up sets the line aside. -/
theorem setAside_first (hcursor : d.history.cursor = 0) : SetAside (d.act .up) d.line.text 1 := by
  have hdraft : (d.act .up).history.draft = d.line.text.take recallLength := if_pos hcursor
  refine ⟨hdraft, ?_, navigate_line 1 hdraft⟩
  change min (d.history.cursor + 1) d.history.commands.length ≤ 1
  rw [hcursor]
  exact Nat.min_le_left _ _

/-- The line stays set aside on the way up. -/
theorem SetAside.up (h : SetAside d line k) : SetAside (d.act .up) line (k + 1) := by
  have hdraft : (d.act .up).history.draft = line.take recallLength := by
    change (if d.history.cursor = 0 then d.line.text.take recallLength else d.history.draft) = _
    split
    · next hcursor => rw [h.line_of_zero hcursor, take_recallLength_twice]
    · exact h.draft
  refine ⟨hdraft, ?_, navigate_line 1 hdraft⟩
  exact (Nat.min_le_left _ _).trans (Nat.succ_le_succ h.cursor_le)

/-- The line stays set aside on the way down. -/
theorem SetAside.down (h : SetAside d line k) : SetAside (d.act .down) line (k - 1) :=
  ⟨h.draft, Nat.sub_le_sub_right h.cursor_le 1, navigate_line 2 h.draft⟩

/-- The line is set aside by any number of presses of Up. -/
theorem setAside_ups (hcursor : d.history.cursor = 0) :
    SetAside ((List.replicate (k + 1) .up).foldl Desk.act d) d.line.text (k + 1) := by
  induction k with
  | zero => exact setAside_first hcursor
  | succ k ih =>
    rw [List.replicate_succ', List.foldl_concat]
    exact ih.up

/-- The line stays set aside through any number of presses of Down. -/
theorem SetAside.downs (h : SetAside d line k) :
    SetAside ((List.replicate n KeyCall.down).foldl Desk.act d) line (k - n) := by
  induction n with
  | zero => exact h
  | succ n ih =>
    rw [List.replicate_succ', List.foldl_concat, ← Nat.sub_sub]
    exact ih.down

/-- After as many presses of Down the editor holds what was set aside. -/
theorem ups_downs_text (hcursor : d.history.cursor = 0) (hk : 1 ≤ k) (hn : k ≤ n) :
    ((List.replicate k KeyCall.up ++ List.replicate n KeyCall.down).foldl Desk.act d).line.text =
      d.line.text.take recallLength := by
  obtain ⟨k, rfl⟩ := Nat.exists_eq_add_of_le' hk
  rw [List.foldl_append]
  have hdowns := (setAside_ups (k := k) hcursor).downs (n := n)
  refine hdowns.line_of_zero ?_
  have hle := hdowns.cursor_le
  rw [Nat.sub_eq_zero_of_le hn] at hle
  exact Nat.le_zero.mp hle

end SetAside

/-- A line is recalled in full exactly when it fits an entry. -/
theorem take_eq_iff_length_le {line : List Byte} :
    line.take recallLength = line ↔ line.length ≤ recallLength :=
  List.take_eq_self_iff line

/-- The buffer holds one line only. -/
theorem shows_text_iff {line : List Byte} (h : s.Shows d) :
    IsString s.buffer line ↔ d.line.text = line := by
  constructor
  · exact fun hline => h.edits.buffer.2.text_unique hline
  · rintro rfl
    exact h.edits.buffer.2

/-- A line typed into a fresh shell. -/
theorem typed_shows (commands : Commands W) {text : List Byte}
    (hprintable : ∀ c ∈ text, Printable c) (hroom : text.length ≤ 255) (world : W) :
    ∃ s d, session commands (fun _ => 0) ⟨0, fun _ => 0⟩ [] world (text.map .handleKey) = .ok s ∧
      s.Shows d ∧ d.line.text = text ∧ d.history = .empty := by
  obtain ⟨s, hrun, hs⟩ := session_edit_prompting commands (fun _ => 0) ⟨0, fun _ => 0⟩ []
    world (text.map .handleKey) (by
      intro call hcall
      obtain ⟨c, hc, rfl⟩ := List.mem_map.mp hcall
      exact .printable (hprintable c hc))
    (by
      intro hcall
      obtain ⟨c, hc, hnewline⟩ := List.mem_map.mp hcall
      exact (hprintable c hc).ne (by decide) (KeyCall.handleKey.inj hnewline))
  obtain ⟨htext, hhistory⟩ := type_text (d := Desk.initial) hprintable rfl
    (by rwa [show Desk.initial.line.text.length = 0 from rfl, Nat.zero_add])
  exact ⟨s, _, hrun, hs, htext, hhistory⟩

/-- A line comes back exactly when it has at most 254 characters: from the history, after Enter, and
from the draft, after presses of Up and at least as many of Down. -/
theorem recall_exact_iff (h : Prompting s z m) (hne : z.text ≠ []) :
    (∀ s', shellHandleKey commands (byte '\n') s = .ok s' →
      ((∃ s'', shellHistory 1 s' = .ok s'' ∧ IsString s''.buffer z.text) ↔ z.text.length ≤ 254)) ∧
    (s.history.cursor = 0 → ∀ k n, 1 ≤ k → k ≤ n →
      ((∃ s', keyRun commands s
          (List.replicate k KeyCall.up ++ List.replicate n KeyCall.down) = .ok s' ∧
        IsString s'.buffer z.text) ↔ z.text.length ≤ 254)) := by
  constructor
  · intro s' henter
    have hs' := (handleEnter_ok commands h).elim henter
    obtain ⟨s'', hup, hs''⟩ := shellHistory_shows (d := ⟨.empty, m.submit z.text⟩) hs' 1
    have htext : IsString s''.buffer z.text ↔ z.text.length ≤ 254 := by
      refine (shows_text_iff hs'').trans ?_
      change (Desk.act ⟨.empty, m.submit z.text⟩ .up).line.text = z.text ↔ _
      rw [submit_up hne]
      exact take_eq_iff_length_le
    rw [← htext]
    constructor
    · rintro ⟨t, ht, hstring⟩
      obtain rfl : s'' = t := Except.ok.inj (hup.symm.trans ht)
      exact hstring
    · exact fun hstring => ⟨s'', hup, hstring⟩
  · intro hcursor k n hk hn
    have hzero : m.cursor = 0 := by
      have hc := h.history.cursor_eq
      rw [hcursor] at hc
      exact_mod_cast hc.symm
    obtain ⟨s', hrun, hs'⟩ := keyRun_edit_ok commands (d := ⟨z, m⟩) h
      (List.replicate k KeyCall.up ++ List.replicate n KeyCall.down) (by
        intro call hcall
        rcases List.mem_append.mp hcall with hcall | hcall
        · exact List.eq_of_mem_replicate hcall ▸ .up
        · exact List.eq_of_mem_replicate hcall ▸ .down)
      (by simp [KeyCall.up, KeyCall.down])
    have htext : IsString s'.buffer z.text ↔ z.text.length ≤ 254 := by
      rw [shows_text_iff hs', ups_downs_text (d := ⟨z, m⟩) hzero hk hn]
      exact take_eq_iff_length_le
    rw [← htext]
    constructor
    · rintro ⟨t, ht, hstring⟩
      obtain rfl : s' = t := Except.ok.inj (hrun.symm.trans ht)
      exact hstring
    · exact fun hstring => ⟨s', hrun, hstring⟩

/-- The line `echo a b`, whose words `shell_parse` cuts apart in the buffer, comes back. -/
theorem recall_exact_echo : ∃ (s s' : Shell Unit) (z : Line) (m : Recall), Prompting s z m ∧
    z.text = chars "echo a b" ∧
    shellHandleKey (fun _ _ w => some ([], w)) (byte '\n') s = .ok s' ∧
    (∃ s'', shellHistory 1 s' = .ok s'' ∧ IsString s''.buffer z.text) ∧
    ∀ k n, 1 ≤ k → k ≤ n → ∃ s', keyRun (fun _ _ w => some ([], w)) s
        (List.replicate k KeyCall.up ++ List.replicate n KeyCall.down) = .ok s' ∧
      IsString s'.buffer z.text := by
  have hprintable : ∀ c ∈ chars "echo a b", Printable c := by
    unfold Printable
    decide
  obtain ⟨s, d, hrun, hs, htext, hhistory⟩ := typed_shows (fun _ _ w => some ([], w)) hprintable
    (by decide) ()
  obtain ⟨s', henter⟩ : ∃ s', (session (fun _ _ w => some ([], w)) (fun _ => 0) ⟨0, fun _ => 0⟩ []
      () ((chars "echo a b").map .handleKey) >>=
        shellHandleKey (fun _ _ w => some ([], w)) (byte '\n')) = .ok s' :=
    exists_of_isOk (by decide +kernel)
  rw [hrun, ok_bind] at henter
  have hne : d.line.text ≠ [] := by
    rw [htext]
    decide
  have hfits : d.line.text.length ≤ 254 := by
    rw [htext]
    decide
  have hcursor : s.history.cursor = 0 := by
    rw [hs.history.cursor_eq, hhistory]
    rfl
  refine ⟨s, s', d.line, d.history, hs, htext, henter,
    ((recall_exact_iff hs hne).1 s' henter).mpr hfits, fun k n hk hn => ?_⟩
  exact ((recall_exact_iff hs hne).2 hcursor k n hk hn).mpr hfits

/-- Of 255 characters, Up and Down bring 254 back. -/
theorem recall_cut : ¬ ∀ (s : Shell Unit) (z : Line) (m : Recall), Prompting s z m → z.text ≠ [] →
    s.history.cursor = 0 → ∀ k n, 1 ≤ k → k ≤ n →
      ∃ s', keyRun (fun _ _ w => some ([], w)) s
          (List.replicate k KeyCall.up ++ List.replicate n KeyCall.down) = .ok s' ∧
        IsString s'.buffer z.text := by
  intro hall
  have hprintable : ∀ c ∈ List.replicate 255 (byte 'a'), Printable c := by
    intro c hc
    rw [List.eq_of_mem_replicate hc]
    exact ⟨by decide, by decide⟩
  obtain ⟨s, d, -, hs, htext, hhistory⟩ := typed_shows (fun _ _ w => some ([], w))
    hprintable (by rw [List.length_replicate]) ()
  have hne : d.line.text ≠ [] := by
    rw [htext]
    exact List.cons_ne_nil _ _
  have hcursor : d.history.cursor = 0 := by
    rw [hhistory]
    rfl
  obtain ⟨s', hrun, hstring⟩ := hall s d.line d.history hs hne
    (by rw [hs.history.cursor_eq, hcursor]; rfl) 1 1 (Nat.le_refl 1) (Nat.le_refl 1)
  have hs' := (keyRun_ok _ hs [.up, .down] (by
    rw [List.forall_mem_cons, List.forall_mem_singleton]
    exact ⟨.up, .down⟩)).elim hrun
  have htext' := (shows_text_iff hs').mp hstring
  have hcut := ups_downs_text (n := 1) hcursor (Nat.le_refl 1) (Nat.le_refl 1)
  have hlength := congrArg List.length (hcut.symm.trans htext')
  rw [htext, List.length_take, List.length_replicate] at hlength
  exact absurd hlength (by decide)

/-! ### Prompts that start over -/

/-- The calls that the driver makes for Enter and Ctrl-L. -/
def KeyCall.enter : KeyCall := .handleKey (byte '\n')
def KeyCall.clear : KeyCall := .handleKey formFeed

/-- The navigation of the history stands at its beginning. -/
def StartsOver (h : History) : Prop := h.cursor = 0 ∧ IsString h.draft []

/-- A key that only edits the line. -/
def KeyCall.Edits : KeyCall → Prop
  | .handleKey c => c ≠ byte '\n' ∧ c ≠ formFeed
  | .history _ => False
  | .bufferPosDecrement => True
  | .bufferPosIncrement => True

/-- The navigation starts over when the ideal one does. -/
theorem startsOver_iff {h : History} (hr : Represents h m) :
    StartsOver h ↔ m.cursor = 0 ∧ m.draft = [] := by
  refine and_congr ?_
    ⟨fun hdraft => hr.draft.2.text_unique hdraft, fun hdraft => hdraft ▸ hr.draft.2⟩
  rw [hr.cursor_eq]
  exact Int.natCast_eq_zero

/-- An editing key leaves the history. -/
theorem act_edits_history {call : KeyCall} (h : call.Edits) : (d.act call).history = d.history := by
  cases call with
  | handleKey c =>
    unfold Desk.act
    dsimp only
    rw [if_neg h.2, if_neg h.1]
    split
    · rfl
    · split <;> rfl
  | history a => exact h.elim
  | bufferPosDecrement => rfl
  | bufferPosIncrement => rfl

/-- Editing keys leave the history. -/
theorem edits_history {calls : List KeyCall} (h : ∀ call ∈ calls, call.Edits) :
    (calls.foldl Desk.act d).history = d.history := by
  induction calls generalizing d with
  | nil => rfl
  | cons call calls ih =>
    rw [List.foldl_cons, ih fun c hc => h c (List.mem_cons_of_mem _ hc),
      act_edits_history (h call List.mem_cons_self)]

/-- A key that makes a fresh prompt starts the navigation over if it pushes a command; otherwise it
leaves the navigation where it was. -/
theorem act_reset_iff {reset : KeyCall} (hreset : reset = .enter ∨ reset = .clear) :
    ((d.act reset).history.cursor = 0 ∧ (d.act reset).history.draft = []) ↔
      (reset = .enter ∧ d.line.text ≠ []) ∨ (d.history.cursor = 0 ∧ d.history.draft = []) := by
  have hne : KeyCall.clear ≠ KeyCall.enter := by decide
  rcases hreset with rfl | rfl
  · change ((d.history.submit d.line.text).cursor = 0 ∧ (d.history.submit d.line.text).draft = []) ↔
      _
    unfold Recall.submit
    by_cases hempty : d.line.text = []
    · rw [if_pos hempty]
      exact ⟨Or.inr, fun h => h.resolve_left fun hpush => hpush.2 hempty⟩
    · rw [if_neg hempty]
      exact iff_of_true ⟨rfl, rfl⟩ (Or.inl ⟨rfl, hempty⟩)
  · change (d.history.cursor = 0 ∧ d.history.draft = []) ↔ _
    exact ⟨Or.inr, fun h => h.resolve_left fun hpush => hne hpush.1⟩

/-- Where the navigation starts over, the first press of Up recalls the newest command, if there is
one, and sets the line aside, as far as 254 characters go. -/
theorem up_of_startsOver (h : s.Shows d) (hcursor : d.history.cursor = 0) :
    ∃ s', shellHistory 1 s = .ok s' ∧
      IsString s'.history.draft (d.line.text.take 254) ∧
      IsString s'.buffer (d.history.commands.headD (d.line.text.take 254)) := by
  obtain ⟨s', hrun, hs'⟩ := shellHistory_shows h 1
  have hdraft : (d.act .up).history.draft = d.line.text.take 254 := if_pos hcursor
  refine ⟨s', hrun, hdraft ▸ hs'.history.draft.2, (shows_text_iff hs').mpr ?_⟩
  change (Line.atEnd (d.act .up).history.current).text = _
  have hfits : (d.act .up).history.current.length ≤ 255 := by
    obtain ⟨array, -, hlength, hcurrent⟩ := hs'.history.current
    exact Nat.le_pred_of_lt (hlength ▸ hcurrent.length_lt)
  rw [atEnd_text, List.take_of_length_le hfits]
  have hcursor' : (d.act .up).history.cursor = min 1 d.history.commands.length := by
    change min (d.history.cursor + 1) d.history.commands.length = _
    rw [hcursor]
  have hcommands : (d.act .up).history.commands = d.history.commands := rfl
  unfold Recall.current
  rw [hcursor', hcommands, hdraft]
  cases d.history.commands with
  | nil => rfl
  | cons command commands => rfl

/-- In every state that keys lead to: after Enter or the key that clears the screen the navigation
starts over exactly when a command was pushed or when the navigation stood at its beginning before.
Where it does, the next press of Up, after any editing, recalls the newest command and sets the line
aside. -/
theorem reset_iff (buffer : ℕ → BitVec 16) (crtc : Crtc) (ops : List TerminalOp) (world : W)
    (keys : List Key) (hrun : session commands buffer crtc ops world (keys.map Subtype.val) = .ok s)
    {reset : KeyCall} (hreset : reset = .enter ∨ reset = .clear)
    (hstep : reset.perform commands s = .ok s') :
    (StartsOver s'.history ↔
      (reset = .enter ∧ ¬ IsString s.buffer []) ∨ StartsOver s.history) ∧
    (StartsOver s'.history → ∃ m, Represents s'.history m ∧
      ∀ edits : List Key, (∀ key ∈ edits, key.1.Edits) →
        ∃ t t' line, keyRun commands s' (edits.map Subtype.val) = .ok t ∧ IsString t.buffer line ∧
          shellHistory 1 t = .ok t' ∧ IsString t'.history.draft (line.take 254) ∧
          IsString t'.buffer (m.commands.headD (line.take 254))) := by
  have hknown : ∀ keys : List Key, ∀ call ∈ keys.map Subtype.val, call.Known := by
    intro keys call hcall
    obtain ⟨key, -, rfl⟩ := List.mem_map.mp hcall
    exact delivered_known key.2
  have hs := (session_prompting commands buffer crtc ops world _ (hknown keys)).elim hrun
  generalize (keys.map Subtype.val).foldl Desk.act .initial = d at hs
  have hresetKnown : reset.Known := by
    rcases hreset with rfl | rfl
    · exact .enter
    · exact .clear
  have hs' := (perform_ok commands hs hresetKnown).elim hstep
  constructor
  · rw [startsOver_iff hs'.history, startsOver_iff hs.history, act_reset_iff hreset,
      shows_text_iff hs]
  · intro hover
    have hcursor := ((startsOver_iff hs'.history).mp hover).1
    refine ⟨_, hs'.history, fun edits hedits => ?_⟩
    have hedits' : ∀ call ∈ edits.map Subtype.val, call.Edits := by
      intro call hcall
      obtain ⟨key, hkey, rfl⟩ := List.mem_map.mp hcall
      exact hedits key hkey
    obtain ⟨t, ht, hshows⟩ := keyRun_edit_ok commands hs' _ (hknown edits)
      fun hmem => (hedits' _ hmem).1 rfl
    have hhistory := edits_history (d := d.act reset) hedits'
    obtain ⟨t', hup, hdraft, hbuffer⟩ := up_of_startsOver hshows (by rw [hhistory]; exact hcursor)
    rw [hhistory] at hbuffer
    exact ⟨t, t', _, ht, hshows.edits.buffer.2, hup, hdraft, hbuffer⟩

/-- The keys for the command `ls` and then Up. -/
def lsUp : List Key :=
  [⟨.handleKey (byte 'l'), .initial, 0x26, rfl⟩, ⟨.handleKey (byte 's'), .initial, 0x1F, rfl⟩,
    ⟨.enter, .initial, 0x1C, rfl⟩, ⟨.up, ⟨false, false, true⟩, 0x48, rfl⟩]

/-- After these Enter pushes the command that Up has recalled, and the navigation starts over. -/
theorem reset_iff_ls : ∃ s s' : Shell Unit,
    session (fun _ _ w => some ([], w)) (fun _ => 0) ⟨0, fun _ => 0⟩ [] ()
      (lsUp.map Subtype.val) = .ok s ∧
    KeyCall.enter.perform (fun _ _ w => some ([], w)) s = .ok s' ∧
    ¬ StartsOver s.history ∧ StartsOver s'.history ∧
    ∃ m, Represents s'.history m ∧ ∀ edits : List Key, (∀ key ∈ edits, key.1.Edits) →
      ∃ t t' line, keyRun (fun _ _ w => some ([], w)) s' (edits.map Subtype.val) = .ok t ∧
        IsString t.buffer line ∧ shellHistory 1 t = .ok t' ∧
        IsString t'.history.draft (line.take 254) ∧
        IsString t'.buffer (m.commands.headD (line.take 254)) := by
  obtain ⟨s, hrun⟩ : ∃ s, session (fun _ _ w => some ([], w)) (fun _ => 0) ⟨0, fun _ => 0⟩ [] ()
      (lsUp.map Subtype.val) = .ok s := exists_of_isOk (by decide +kernel)
  obtain ⟨s', hstep⟩ : ∃ s', (session (fun _ _ w => some ([], w)) (fun _ => 0) ⟨0, fun _ => 0⟩ []
      () (lsUp.map Subtype.val) >>= KeyCall.enter.perform fun _ _ w => some ([], w)) = .ok s' :=
    exists_of_isOk (by decide +kernel)
  rw [hrun, ok_bind] at hstep
  have hshows := (session_prompting (fun _ _ w => some ([], w)) (fun _ => 0) ⟨0, fun _ => 0⟩ [] ()
    (lsUp.map Subtype.val) (by
      intro call hcall
      obtain ⟨key, -, rfl⟩ := List.mem_map.mp hcall
      exact delivered_known key.2)).elim hrun
  obtain ⟨hiff, hnext⟩ :=
    reset_iff (fun _ => 0) ⟨0, fun _ => 0⟩ [] () lsUp hrun (Or.inl rfl) hstep
  have hpushed : ¬ IsString s.buffer [] := by
    rw [shows_text_iff hshows]
    decide
  have hover : StartsOver s'.history := hiff.mpr (Or.inl ⟨rfl, hpushed⟩)
  refine ⟨s, s', hrun, hstep, ?_, hover, hnext hover⟩
  rw [startsOver_iff hshows.history]
  decide

/-- After `a` and Up, which sets `a` aside, clearing the screen leaves `a` as the draft. -/
theorem reset_keeps_draft : ¬ ∀ (keys : List Key) (s s' : Shell Unit) (reset : KeyCall),
    session (fun _ _ w => some ([], w)) (fun _ => 0) ⟨0, fun _ => 0⟩ [] ()
      (keys.map Subtype.val) = .ok s → reset = .enter ∨ reset = .clear →
    reset.perform (fun _ _ w => some ([], w)) s = .ok s' → StartsOver s'.history := by
  intro hall
  have ha : KeyCall.Delivered (.handleKey (byte 'a')) := ⟨.initial, 0x1E, rfl⟩
  have hup : KeyCall.up.Delivered := ⟨⟨false, false, true⟩, 0x48, rfl⟩
  obtain ⟨s, hrun, hs⟩ := session_edit_prompting (fun _ _ w => some ([], w)) (fun _ => 0)
    ⟨0, fun _ => 0⟩ [] () [.handleKey (byte 'a'), .up] (by
      rw [List.forall_mem_cons, List.forall_mem_singleton]
      exact ⟨delivered_known ha, delivered_known hup⟩) (by decide)
  obtain ⟨s', hstep, hs'⟩ :=
    perform_edit_ok (fun _ _ w => some ([], w)) hs .clear (by decide)
  have hover := hall [⟨_, ha⟩, ⟨_, hup⟩] s s' .clear hrun (Or.inr rfl) hstep
  have hdraft := ((startsOver_iff hs'.history).mp hover).2
  exact absurd hdraft (by decide)

/-! ### Down on the live line -/

/-- Down leaves the text of the line as it is. -/
def DownKeepsLine (s : Shell W) : Prop :=
  ∀ line, IsString s.buffer line → ∃ s', shellHistory 2 s = .ok s' ∧ IsString s'.buffer line

/-- The line was set aside or cleared, and is what it was then. -/
def DraftIsLine (s : Shell W) : Prop :=
  ∀ line, IsString s.buffer line → IsString s.history.draft line

/-- On the live line Down shows the draft. -/
theorem down_of_cursor (h : s.Shows d) (hcursor : d.history.cursor = 0) :
    ∃ s', shellHistory 2 s = .ok s' ∧ IsString s'.buffer d.history.draft := by
  obtain ⟨s', hrun, hs'⟩ := shellHistory_shows h 2
  refine ⟨s', hrun, (shows_text_iff hs').mpr ?_⟩
  have hcurrent : (d.act .down).history.current = d.history.draft := by
    have hstays : d.history.cursor - 1 = 0 := by rw [hcursor]
    exact if_pos hstays
  have hfits : d.history.draft.length ≤ 255 := by
    have hlt := h.history.draft.2.length_lt
    rw [h.history.draft.1] at hlt
    exact Nat.le_pred_of_lt hlt
  change (Line.atEnd (d.act .down).history.current).text = _
  rw [atEnd_text, hcurrent, List.take_of_length_le hfits]

/-- On the line itself, Down keeps it exactly when it is the draft. -/
theorem downKeepsLine_iff (h : s.Shows d) (hcursor : d.history.cursor = 0) :
    DownKeepsLine s ↔ DraftIsLine s := by
  obtain ⟨s', hrun, hs'⟩ := down_of_cursor h hcursor
  constructor
  · intro hkeeps line hline
    obtain ⟨t, ht, hstring⟩ := hkeeps line hline
    obtain rfl : s' = t := Except.ok.inj (hrun.symm.trans ht)
    rw [hstring.text_unique hs']
    exact h.history.draft.2
  · intro hdraft line hline
    refine ⟨s', hrun, ?_⟩
    rw [(hdraft line hline).text_unique h.history.draft.2]
    exact hs'

/-- In every state that keys lead to and whose navigation cursor is on the live line. -/
theorem down_iff (commands : Commands W) (buffer : ℕ → BitVec 16) (crtc : Crtc)
    (ops : List TerminalOp) (world : W) (calls : List KeyCall)
    (hknown : ∀ call ∈ calls, call.Known) :
    Completes (fun s => s.history.cursor = 0 → (DownKeepsLine s ↔ DraftIsLine s))
      (session commands buffer crtc ops world calls) := by
  rcases session_prompting commands buffer crtc ops world calls hknown with ⟨s, hrun, hs⟩ | hstop
  · refine .of_ok hrun fun hcursor => downKeepsLine_iff hs ?_
    rw [hs.history.cursor_eq] at hcursor
    exact_mod_cast hcursor
  · exact Or.inr hstop

/-- After `a` and Up without a history. -/
theorem down_iff_set_aside :
    Completes (fun s : Shell Unit => s.history.cursor = 0 → (DownKeepsLine s ↔ DraftIsLine s))
      (session (fun _ _ w => some ([], w)) (fun _ => 0) ⟨0, fun _ => 0⟩ [] ()
        [.handleKey (byte 'a'), .up]) :=
  down_iff (fun _ _ w => some ([], w)) (fun _ => 0) ⟨0, fun _ => 0⟩ [] ()
    [.handleKey (byte 'a'), .up] (by
      rw [List.forall_mem_cons, List.forall_mem_singleton]
      exact ⟨.printable ⟨by decide, by decide⟩, .up⟩)

/-- The line `a`, just typed, is replaced by the empty draft. -/
theorem down_drops_line : ¬ ∀ calls : List KeyCall, (∀ call ∈ calls, call.Known) →
    Completes (fun s : Shell Unit => s.history.cursor = 0 → DownKeepsLine s)
      (session (fun _ _ w => some ([], w)) (fun _ => 0) ⟨0, fun _ => 0⟩ [] () calls) := by
  intro hall
  have hprintable : ∀ c ∈ [byte 'a'], Printable c := by
    rw [List.forall_mem_singleton]
    exact ⟨by decide, by decide⟩
  obtain ⟨s, d, hrun, hs, htext, hhistory⟩ := typed_shows (fun _ _ w => some ([], w)) hprintable
    (by decide) ()
  have hcursor : d.history.cursor = 0 := by
    rw [hhistory]
    rfl
  have hkeeps := (hall [.handleKey (byte 'a')] (by
    rw [List.forall_mem_singleton]
    exact .printable ⟨by decide, by decide⟩)).elim hrun (by rw [hs.history.cursor_eq, hcursor]; rfl)
  have hdraft := (downKeepsLine_iff hs hcursor).mp hkeeps d.line.text hs.edits.buffer.2
  have heq := hdraft.text_unique hs.history.draft.2
  rw [htext, hhistory] at heq
  exact absurd heq (List.cons_ne_nil _ _)

end AuriOS
