import AuriOS.Foundation.BoundedZipper
import AuriOS.Kernel.Shell

/-!
# The line editor

The buffer of the shell and `buffer_pos` are a text zipper of at most 255 characters.

* `Edits s z`: the buffer of `s` holds the text of the zipper `z`, NUL-terminated in its 256 bytes,
  and `buffer_pos` stands between its halves;
* `handleChar_eq`, `handleBackspace_eq`, `shellHistory_eq`: what each key does to the buffer and
  what it sends to the terminal.
-/

namespace AuriOS

open Program

/-- A line in the editor. -/
abbrev Line := BoundedZipper Byte 255

/-- The shell edits this line. -/
structure Edits {W : Type} (s : Shell W) (z : Line) : Prop where
  buffer : HoldsString bufferSize s.buffer z.text
  pos : s.bufferPos = z.left.length

/-! ### Moving the tail of the line -/

section Loops

variable {l r rest : List Byte} {a : Byte}

/-- The tail moves one cell down over the character before it. -/
theorem shiftLeft_eq : shiftLeft (l.length + 1 : ℕ) r.length (l ++ a :: (r ++ rest)) =
    .ok (l ++ r ++ (a :: r).getLast (List.cons_ne_nil a r) :: rest) := by
  induction r generalizing l a with
  | nil => simp [shiftLeft, pure, Except.pure]
  | cons b r ih =>
    have hread : getByte (l ++ a :: (b :: r ++ rest)) (l.length + 1 : ℕ) = .ok b :=
      getByte_ok (by simp)
    have hwrite : setByte (l ++ a :: (b :: r ++ rest)) ((l.length + 1 : ℕ) - 1) b =
        .ok (l ++ [b] ++ b :: (r ++ rest)) := by
      rw [show ((l.length + 1 : ℕ) : ℤ) - 1 = (l.length : ℕ) by push_cast; ring, setByte_append]
      simp
    have ih := ih (l := l ++ [b]) (a := b)
    rw [List.length_cons, shiftLeft, hread, ok_bind, hwrite, ok_bind,
      show ((l.length + 1 : ℕ) : ℤ) + 1 = ((l ++ [b]).length + 1 : ℕ) by simp, ih]
    simp

/-- The tail moves one cell up; the cell it leaves is written next. -/
theorem shiftRight_eq (z : Byte) : shiftRight (l.length : ℕ) r.length (l ++ (r ++ z :: rest)) =
    .ok (l ++ r.headD z :: (r ++ rest)) := by
  induction r using List.reverseRecOn generalizing z rest with
  | nil => rfl
  | append_singleton r b ih =>
    have hread : getByte (l ++ (r ++ [b] ++ z :: rest)) ((l.length : ℕ) + (r.length : ℕ)) =
        .ok b := by
      rw [← Nat.cast_add]
      exact getByte_ok (by simp)
    have hwrite : setByte (l ++ (r ++ [b] ++ z :: rest)) ((l.length : ℕ) + (r.length : ℕ) + 1) b =
        .ok (l ++ (r ++ b :: b :: rest)) := by
      have happend := setByte_append (l ++ r ++ [b]) rest z b
      rw [show ((l ++ r ++ [b]).length : ℤ) = (l.length : ℕ) + (r.length : ℕ) + 1 by simp; ring]
        at happend
      simpa using happend
    rw [List.length_append, List.length_singleton, shiftRight, hread, ok_bind, hwrite, ok_bind, ih]
    cases r <;> simp

end Loops

/-! ### Keys that edit -/

section Keys

variable {W : Type} {s : Shell W} {z : Line} {k₁ : Console} {c a : Byte}

/-- No NUL stands in front of the cursor. -/
theorem Edits.not_mem_left (h : Edits s z) : 0 ∉ z.left :=
  fun hm => h.buffer.2.1 (List.mem_append_left _ hm)

/-- No NUL stands behind the cursor, up to the end of the line. -/
theorem Edits.not_mem_right (h : Edits s z) : 0 ∉ z.right :=
  fun hm => h.buffer.2.1 (List.mem_append_right _ hm)

/-- A byte goes in before the cursor, and what then lies at the cursor is printed as a string. -/
theorem handleChar_cells (h : Edits s z) (c : Byte) (hlt : z.text.length < 255) {text : List Byte}
    (htext : ∀ rest, IsString (c :: z.right ++ 0 :: rest) text)
    (hk : putchars s.console text = .ok k₁) :
    ∃ rest, (z.left ++ c :: z.right ++ 0 :: rest).length = bufferSize ∧
      handleChar c s = .ok { s with
        buffer := z.left ++ c :: z.right ++ 0 :: rest, bufferPos := z.left.length + 1
        console := k₁.onTerminal (terminalMoveCursor (-(z.right.length : ℤ))) } := by
  obtain ⟨hsize, h0, rest, hbuffer⟩ := h.buffer
  obtain ⟨b, rest, rfl⟩ : ∃ b rest', rest = b :: rest' := by
    cases rest with
    | nil =>
      rw [hbuffer, List.length_append, List.length_singleton] at hsize
      change z.text.length + 1 = 256 at hsize
      omega
    | cons b rest => exact ⟨b, rest, rfl⟩
  have hlen : s.buffer.length = z.left.length + z.right.length + 2 + rest.length := by
    rw [hbuffer]
    simp [BoundedZipper.text]
    omega
  refine ⟨rest, ?_, ?_⟩
  · rw [← hsize, hlen]
    simp
    omega
  have hshift : shiftRight s.bufferPos ((z.text.length : ℤ) - s.bufferPos).toNat s.buffer =
      .ok (z.left ++ (z.right).headD 0 :: (z.right ++ b :: rest)) := by
    rw [h.pos, hbuffer, BoundedZipper.text_length,
      show (((z.left.length + z.right.length : ℕ) : ℤ) - z.left.length).toNat = z.right.length by
        omega, BoundedZipper.text, List.append_assoc]
    exact shiftRight_eq 0
  have hput : setByte (z.left ++ (z.right).headD 0 :: (z.right ++ b :: rest)) s.bufferPos c =
      .ok (z.left ++ c :: (z.right ++ b :: rest)) := by
    rw [h.pos]
    exact setByte_append _ _ _ _
  have hend : setByte (z.left ++ c :: (z.right ++ b :: rest)) ((z.text.length : ℤ) + 1) 0 =
      .ok (z.left ++ c :: z.right ++ 0 :: rest) := by
    have happend := setByte_append (z.left ++ c :: z.right) rest b 0
    rw [show ((z.left ++ c :: z.right).length : ℤ) = (z.text.length : ℤ) + 1 by
      rw [BoundedZipper.text_length, List.length_append, List.length_cons]; push_cast; ring]
      at happend
    simpa using happend
  have haddress : addressOf (z.left ++ c :: z.right ++ 0 :: rest) s.bufferPos =
      .ok (c :: z.right ++ 0 :: rest) := by
    rw [h.pos]
    unfold addressOf
    rw [if_pos (Int.natCast_nonneg _), Int.toNat_natCast, List.append_assoc, List.drop_left]
    rfl
  unfold handleChar
  rw [strlen_eq h.buffer.2, ok_bind, if_pos (show z.text.length < bufferSize - 1 from hlt)]
  dsimp only
  rw [hshift, ok_bind, hput, ok_bind, hend, ok_bind, haddress, ok_bind,
    terminalWritestring_eq (htext rest), hk, ok_bind, h.pos, BoundedZipper.text_length,
    show ((z.left.length + z.right.length : ℕ) : ℤ) - z.left.length = z.right.length by omega]
  rfl

/-- A character goes in before the cursor, and the tail of the line is printed after it. -/
theorem handleChar_eq (h : Edits s z) (hc : c ≠ 0) (hlt : z.text.length < 255)
    (hk : putchars s.console (c :: z.right) = .ok k₁) :
    ∃ buffer', HoldsString bufferSize buffer' (z.left ++ c :: z.right) ∧
      handleChar c s = .ok { s with
        buffer := buffer', bufferPos := z.left.length + 1
        console := k₁.onTerminal (terminalMoveCursor (-(z.right.length : ℤ))) } := by
  have hright : 0 ∉ c :: z.right := by
    intro hm
    rcases List.mem_cons.mp hm with hm | hm
    · exact hc hm.symm
    · exact h.not_mem_right hm
  have hall : 0 ∉ z.left ++ c :: z.right := by
    rw [List.mem_append, not_or]
    exact ⟨h.not_mem_left, hright⟩
  obtain ⟨rest, hsize, hrun⟩ :=
    handleChar_cells h c hlt (fun rest => ⟨hright, rest, rfl⟩) hk
  exact ⟨_, ⟨hsize, hall, rest, rfl⟩, hrun⟩

/-- A NUL ends the line at the cursor, which moves past it all the same. -/
theorem handleChar_zero (h : Edits s z) (hlt : z.text.length < 255) :
    ∃ s', handleChar 0 s = .ok s' ∧ IsString s'.buffer z.left ∧
      s'.bufferPos = z.left.length + 1 := by
  have hnothing : ∀ rest, IsString (0 :: z.right ++ 0 :: rest) [] := fun rest =>
    ⟨List.not_mem_nil, z.right ++ 0 :: rest, rfl⟩
  obtain ⟨rest, -, hrun⟩ := handleChar_cells h 0 hlt hnothing rfl
  exact ⟨_, hrun, ⟨h.not_mem_left, z.right ++ 0 :: rest, by rw [List.append_assoc]; rfl⟩, rfl⟩

/-- Nothing happens when the line is full. -/
theorem handleChar_full (h : Edits s z) (hfull : ¬ z.text.length < 255) :
    handleChar c s = .ok s := by
  unfold handleChar
  rw [strlen_eq h.buffer.2, ok_bind, if_neg (show ¬ z.text.length < bufferSize - 1 from hfull)]
  rfl

/-- The character before the cursor goes; the tail is printed one cell further left, with a blank
over the last cell. -/
theorem handleBackspace_eq (h : Edits s z) {l : List Byte} (hleft : z.left = l ++ [a])
    (hk : putchars (s.console.onTerminal terminalBackspace) (z.right ++ [byte ' ']) = .ok k₁) :
    ∃ buffer', HoldsString bufferSize buffer' (l ++ z.right) ∧
      handleBackspace s = .ok { s with
        buffer := buffer', bufferPos := l.length
        console := k₁.onTerminal (terminalMoveCursor (-((z.right.length : ℤ) + 1))) } := by
  obtain ⟨hsize, h0, rest, hbuffer⟩ := h.buffer
  have hpos : s.bufferPos = (l.length + 1 : ℕ) := by
    rw [h.pos, hleft, List.length_append, List.length_singleton]
  have hlength : z.text.length = l.length + z.right.length + 1 := by
    rw [BoundedZipper.text_length, hleft, List.length_append, List.length_singleton]
    omega
  have hbuffer' : s.buffer = l ++ a :: (z.right ++ 0 :: rest) := by
    rw [hbuffer, BoundedZipper.text, hleft]
    simp
  have h0' : 0 ∉ l ++ z.right := by
    intro hm
    rcases List.mem_append.mp hm with hm | hm
    · exact h.not_mem_left (by rw [hleft]; exact List.mem_append_left _ hm)
    · exact h.not_mem_right hm
  refine ⟨l ++ z.right ++ 0 :: 0 :: rest, ⟨?_, h0', 0 :: rest, rfl⟩, ?_⟩
  · rw [← hsize, hbuffer']
    simp
    omega
  have hshift : shiftLeft s.bufferPos ((z.text.length : ℤ) - s.bufferPos).toNat s.buffer =
      .ok (l ++ z.right ++ (a :: z.right).getLast (List.cons_ne_nil a z.right) :: 0 :: rest) := by
    rw [hpos, hlength, hbuffer',
      show (((l.length + z.right.length + 1 : ℕ) : ℤ) - (l.length + 1 : ℕ)).toNat =
        z.right.length by omega]
    exact shiftLeft_eq
  have hend : setByte (l ++ z.right ++ (a :: z.right).getLast (List.cons_ne_nil a z.right) ::
      0 :: rest) ((z.text.length : ℤ) - 1) 0 = .ok (l ++ z.right ++ 0 :: 0 :: rest) := by
    rw [hlength, show ((l.length + z.right.length + 1 : ℕ) : ℤ) - 1 = ((l ++ z.right).length : ℕ) by
      rw [List.length_append]; omega]
    exact setByte_append _ _ _ _
  have haddress : addressOf (l ++ z.right ++ 0 :: 0 :: rest) (s.bufferPos - 1) =
      .ok (z.right ++ 0 :: 0 :: rest) := by
    unfold addressOf
    rw [hpos, show ((l.length + 1 : ℕ) : ℤ) - 1 = (l.length : ℕ) by omega,
      if_pos (Int.natCast_nonneg _), Int.toNat_natCast, List.append_assoc, List.drop_left]
    rfl
  have hrest : IsString (z.right ++ 0 :: 0 :: rest) z.right := ⟨h.not_mem_right, 0 :: rest, rfl⟩
  obtain ⟨k₂, hprint, hblank⟩ := putchars_concat.mp hk
  unfold handleBackspace
  rw [if_pos (by rw [hpos]; omega), strlen_eq h.buffer.2, ok_bind]
  dsimp only
  rw [hshift, ok_bind, hend, ok_bind, haddress, ok_bind, terminalWritestring_eq hrest, hprint,
    ok_bind, hblank, ok_bind, hpos, hlength,
    show ((l.length + 1 : ℕ) : ℤ) - 1 = (l.length : ℕ) by omega,
    show ((l.length + z.right.length + 1 : ℕ) : ℤ) - (l.length + 1 : ℕ) = z.right.length by omega]
  rfl

/-- Nothing happens at the beginning of the line. -/
theorem handleBackspace_nil (h : Edits s z) (hleft : z.left = []) : handleBackspace s = .ok s := by
  unfold handleBackspace
  rw [if_neg]
  · rfl
  · rw [h.pos, hleft]
    simp

/-- The cursor goes one character to the left. -/
theorem shellBufferPosDecrement_eq (h : Edits s z) {l : List Byte} (hleft : z.left = l ++ [a]) :
    shellBufferPosDecrement s = .ok { s with
      bufferPos := l.length, console := s.console.onTerminal (terminalMoveCursor (-1)) } := by
  have hpos : s.bufferPos = (l.length + 1 : ℕ) := by
    rw [h.pos, hleft, List.length_append, List.length_singleton]
  unfold shellBufferPosDecrement
  rw [if_neg (by rw [hpos]; omega), hpos, show ((l.length + 1 : ℕ) : ℤ) - 1 = (l.length : ℕ) by
    omega]
  rfl

/-- The cursor stays at the start of the line. -/
theorem shellBufferPosDecrement_nil (h : Edits s z) (hleft : z.left = []) :
    shellBufferPosDecrement s = .ok s :=
  if_pos (by rw [h.pos, hleft]; exact Int.le_refl 0)

/-- The cursor goes one character to the right. -/
theorem shellBufferPosIncrement_eq (h : Edits s z) {r : List Byte} (hright : z.right = a :: r) :
    shellBufferPosIncrement s = .ok { s with
      bufferPos := (z.left ++ [a]).length
      console := s.console.onTerminal (terminalMoveCursor 1) } := by
  have hlt : ¬ s.bufferPos ≥ (z.text.length : ℕ) := by
    rw [h.pos, BoundedZipper.text_length, hright, List.length_cons]
    omega
  unfold shellBufferPosIncrement
  rw [strlen_eq h.buffer.2, ok_bind, if_neg hlt, h.pos, List.length_append, List.length_singleton]
  rfl

/-- The cursor stays at the end of the line. -/
theorem shellBufferPosIncrement_nil (h : Edits s z) (hright : z.right = []) :
    shellBufferPosIncrement s = .ok s := by
  unfold shellBufferPosIncrement
  rw [strlen_eq h.buffer.2, ok_bind]
  exact if_pos (by rw [h.pos, BoundedZipper.text_length, hright]; exact Int.le_refl _)

/-- The navigation an arrow key makes with a line in the editor. -/
def Recall.navigate (m : Recall) (a : ℤ) (line : List Byte) : Recall :=
  if a = 1 then m.prev (some line) else m.next

/-- The line is erased from its end on, and the line the history stands on is printed. -/
theorem shellHistory_eq {m : Recall} (h : Edits s z) (hr : Represents s.history m) (a : ℤ)
    (hk : putchars ((s.console.onTerminal (terminalMoveCursor z.right.length)).onTerminal
      (backspaces z.text.length)) (m.navigate a z.text).current = .ok k₁) :
    ∃ buffer' history', HoldsString bufferSize buffer' (m.navigate a z.text).current ∧
      Represents history' (m.navigate a z.text) ∧
      shellHistory a s = .ok { s with
        buffer := buffer', bufferPos := (m.navigate a z.text).current.length
        history := history', console := k₁ } := by
  obtain ⟨array, history', hnavigate, hr'⟩ : ∃ array history',
      (if a = 1 then historyPrev s.history (some s.buffer) else historyNext s.history) =
        .ok (array, history') ∧ Represents history' (m.navigate a z.text) := by
    unfold Recall.navigate
    split
    · obtain ⟨array, history', hprev, hr', -⟩ :=
        historyPrev_represents hr (Option.Rel.some h.buffer.2)
      exact ⟨array, history', hprev, hr'⟩
    · obtain ⟨array, history', hnext, hr', -⟩ := historyNext_represents hr
      exact ⟨array, history', hnext, hr'⟩
  obtain ⟨current, hcurrent, hsize, hstring⟩ := hr'.current
  obtain ⟨buffer', hcopy, hbuffer'⟩ :=
    strlcpy_holdsString hstring h.buffer (by decide : 0 < bufferSize) (Nat.le_refl _)
  have hfits : (m.navigate a z.text).current.take (bufferSize - 1) =
      (m.navigate a z.text).current := by
    refine List.take_of_length_le ?_
    have hlt := hstring.length_lt
    rw [hsize] at hlt
    exact Nat.le_pred_of_lt hlt
  rw [hfits] at hbuffer'
  refine ⟨buffer', history', hbuffer', hr', ?_⟩
  have hmove : (z.text.length : ℤ) - s.bufferPos = z.right.length := by
    rw [h.pos, BoundedZipper.text_length]
    omega
  unfold shellHistory
  rw [strlen_eq h.buffer.2, ok_bind, hmove]
  dsimp only
  split at hnavigate <;> rename_i ha
  · rw [if_pos ha, hnavigate, ok_bind, hcurrent, ok_bind, hcopy, ok_bind,
      strlen_eq hbuffer'.2, ok_bind, terminalWritestring_eq hbuffer'.2, hk]
    rfl
  · rw [if_neg ha, hnavigate, ok_bind, hcurrent, ok_bind, hcopy, ok_bind,
      strlen_eq hbuffer'.2, ok_bind, terminalWritestring_eq hbuffer'.2, hk]
    rfl

end Keys

end AuriOS
