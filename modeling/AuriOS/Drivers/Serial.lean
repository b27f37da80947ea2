import AuriOS.Kernel.Session

/-!
# Bytes from the serial line

In the test build `serial.c` passes every byte of the serial line to `shell_handle_key`, a NUL too,
which the keyboard driver never does.

* `session_bytes`: the editor stays the line of the desk as long as every NUL finds the line full;
* `keepsBounds_iff`: a NUL that finds room is the only event after which the cursor stands outside
  the line.
-/

namespace AuriOS

open Program

/-! ### The driver -/

/-- `serial_callback`: the line status register says whether there is a byte. -/
def serialCallback (lineStatus c : Byte) : Option KeyCall :=
  if lineStatus &&& 1 ≠ 0 then some (.handleKey c) else none

/-! ### Events in any order -/

section Events

variable {W : Type} (commands : Commands W) (buffer : ℕ → BitVec 16) (crtc : Crtc)
  (ops : List TerminalOp) (world : W)

/-- The buffer has its size, and the cursor stands on the string in it. -/
structure CursorOnLine (s : Shell W) : Prop where
  size : s.buffer.length = 256
  pos : ∃ len : ℕ, strlen s.buffer = .ok len ∧ 0 ≤ s.bufferPos ∧ s.bufferPos ≤ len

/-- After every event the cursor stands on the line, and no index left an array on the way: a
command that does not return is all that may stop the run. -/
def KeepsBounds (calls : List KeyCall) : Prop :=
  ∀ n, Completes CursorOnLine (session commands buffer crtc ops world (calls.take n))

/-- Every NUL arrives when the line has its 255 characters. -/
def NulsFindFull (calls : List KeyCall) : Prop :=
  ∀ n, calls[n]? = some (.handleKey 0) →
    Completes (fun s => strlen s.buffer = .ok 255)
      (session commands buffer crtc ops world (calls.take n))

variable {commands buffer crtc ops world} {calls : List KeyCall} {s : Shell W} {d : Desk}

/-- A session with one more call performs that call last. -/
theorem session_concat (calls : List KeyCall) (call : KeyCall) :
    session commands buffer crtc ops world (calls ++ [call]) =
      session commands buffer crtc ops world calls >>= call.perform commands := by
  have hsingle : ∀ s : Shell W, keyRun commands s [call] = call.perform commands s :=
    fun s => bind_pure _
  have happend : ∀ s : Shell W, keyRun commands s (calls ++ [call]) =
      keyRun commands s calls >>= call.perform commands := by
    intro s
    unfold keyRun
    rw [List.foldlM_append]
    exact congrArg _ (funext hsingle)
  unfold session
  simp only [happend, bind_assoc]

/-- What the calls promise about NULs, their first calls promise too. -/
theorem NulsFindFull.take (h : NulsFindFull commands buffer crtc ops world calls) (n : ℕ) :
    NulsFindFull commands buffer crtc ops world (calls.take n) := by
  intro m hm
  rw [List.getElem?_take] at hm
  split at hm
  · next hlt =>
    rw [List.take_take, Nat.min_eq_left hlt.le]
    exact h m hm
  · cases hm

/-- A shell that shows its display has its cursor on the line. -/
theorem shows_cursorOnLine (h : s.Shows d) : CursorOnLine s := by
  refine ⟨h.edits.buffer.1, d.line.text.length, strlen_eq h.edits.buffer.2, ?_, ?_⟩
  · rw [h.edits.pos]
    exact Int.natCast_nonneg _
  · rw [h.edits.pos, BoundedZipper.text_length]
    push_cast
    omega

/-- By induction on the events: the next one finds the desk. -/
theorem session_bytes (h : NulsFindFull commands buffer crtc ops world calls) :
    Completes (fun s => s.Shows (calls.foldl Desk.act .initial))
      (session commands buffer crtc ops world calls) := by
  induction calls using List.reverseRecOn with
  | nil =>
    exact session_prompting commands buffer crtc ops world [] fun _ hc => absurd hc List.not_mem_nil
  | append_singleton calls call ih =>
    have hbefore := h.take calls.length
    rw [List.take_left] at hbefore
    rw [session_concat, List.foldl_concat]
    rcases ih hbefore with ⟨s, hrun, hs⟩ | hstop
    · rw [hrun, ok_bind]
      refine perform_call_completes commands hs fun hcall hroom => ?_
      have hnul := h calls.length (by rw [List.getElem?_concat_length, hcall])
      rw [List.take_left] at hnul
      have hlength := hnul.elim hrun
      rw [strlen_eq hs.edits.buffer.2] at hlength
      have hfull := Except.ok.inj hlength
      omega
    · rw [hstop]
      exact Or.inr rfl

/-- A NUL that finds room leaves the cursor behind the end of the line. -/
theorem nul_misplaces (commands : Commands W) (h : s.Shows d) (hroom : d.line.text.length < 255) :
    ∃ s', KeyCall.perform commands (.handleKey 0) s = .ok s' ∧ ¬ CursorOnLine s' ∧
      IsString s'.buffer d.line.left ∧ s'.bufferPos = d.line.left.length + 1 := by
  obtain ⟨s', hrun, hstring, hpos⟩ := handleChar_zero h.edits hroom
  refine ⟨s', hrun, ?_, hstring, hpos⟩
  rintro ⟨-, len, hlen, -, hle⟩
  rw [strlen_eq hstring] at hlen
  obtain rfl := Except.ok.inj hlen
  omega

/-- For every sequence of events, of any bytes: the cursor stays on the line and every index inside
its array exactly if no NUL finds room in the line. -/
theorem keepsBounds_iff (commands : Commands W) (buffer : ℕ → BitVec 16) (crtc : Crtc)
    (ops : List TerminalOp) (world : W) (calls : List KeyCall) :
    KeepsBounds commands buffer crtc ops world calls ↔
      NulsFindFull commands buffer crtc ops world calls := by
  constructor
  · intro hkeeps n
    -- the events before this one have not misplaced the cursor
    induction n using Nat.strongRecOn with
    | ind n ih =>
      intro hnul
      have hlt : n < calls.length := (List.getElem?_eq_some_iff.mp hnul).1
      have hbefore : NulsFindFull commands buffer crtc ops world (calls.take n) := by
        intro m hm
        rw [List.getElem?_take] at hm
        split at hm
        · next hmn =>
          rw [List.take_take, Nat.min_eq_left hmn.le]
          exact ih m hmn hm
        · cases hm
      rcases session_bytes hbefore with ⟨s, hrun, hs⟩ | hstop
      · refine .of_ok hrun ?_
        rw [strlen_eq hs.edits.buffer.2]
        by_contra hlength
        have hle := BoundedZipper.text_length_le ((calls.take n).foldl Desk.act .initial).line
        have hroom : ((calls.take n).foldl Desk.act .initial).line.text.length < 255 :=
          Nat.lt_of_le_of_ne hle fun he => hlength (congrArg Except.ok he)
        obtain ⟨s', hstep, hmisplaced, -⟩ := nul_misplaces commands hs hroom
        have hnext : session commands buffer crtc ops world (calls.take (n + 1)) = .ok s' := by
          rw [List.take_add_one, hnul, Option.toList_some, session_concat, hrun, ok_bind, hstep]
        exact hmisplaced ((hkeeps (n + 1)).elim hnext)
      · exact Or.inr hstop
  · intro hfull n
    rcases session_bytes (hfull.take n) with ⟨s, hrun, hs⟩ | hstop
    · exact .of_ok hrun (shows_cursorOnLine hs)
    · exact Or.inr hstop

end Events

/-- After a NUL on the empty line, Backspace writes to `buffer[-1]`. -/
theorem keepsBounds_nul : ¬ ∀ calls : List KeyCall,
    KeepsBounds (fun _ _ w => some ([], w)) (fun _ => 0) ⟨0, fun _ => 0⟩ [] () calls := by
  intro hall
  obtain ⟨s, hrun, hs⟩ := session_edit_prompting (fun _ _ w => some ([], w)) (fun _ => 0)
    ⟨0, fun _ => 0⟩ [] () [] (fun _ hc => absurd hc List.not_mem_nil) List.not_mem_nil
  obtain ⟨s', hstep, -, hstring, hpos⟩ :=
    nul_misplaces (fun _ _ w => some ([], w)) hs (by decide)
  have hback : KeyCall.perform (fun _ _ w => some ([], w)) (.handleKey (byte '\x08')) s' =
      .error .outOfBounds := by
    have hone : s'.bufferPos = 1 := hpos
    change handleBackspace s' = _
    unfold handleBackspace
    rw [if_pos (by rw [hone]; decide), strlen_eq hstring, ok_bind, hone]
    rfl
  have hfault := hall [.handleKey 0, .handleKey (byte '\x08')] 2
  have hcalls : session (fun _ _ w => some ([], w)) (fun _ => 0) ⟨0, fun _ => 0⟩ [] ()
      ([.handleKey 0, .handleKey (byte '\x08')] : List KeyCall) = .error .outOfBounds := by
    rw [← List.singleton_append, session_concat, ← List.nil_append [KeyCall.handleKey 0],
      session_concat, hrun, ok_bind, hstep, ok_bind, hback]
  rcases hfault with ⟨t, ht, -⟩ | hstop
  · cases hcalls.symm.trans ht
  · cases hcalls.symm.trans hstop

end AuriOS
