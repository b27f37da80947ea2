import Mathlib

/-!
# Words of a text

The words of a list are its longest parts without a separator.

* `words`: all of them in order, each with the index where it starts;
* `mem_words_iff`, `words_sorted`: these are the maximal parts, each of them once;
* `wordsFrom_word`, `wordsFrom_gap`: reading on over a word, and over the separators behind it.
-/

namespace Words

/-- A part of a list and where it starts. -/
structure Word (α : Type) where
  start : ℕ
  text : List α
  deriving DecidableEq

section Definitions

variable {α : Type} (sep : α → Bool)

/-- The words that start at index `i` or later; `fresh` says that one may start at `i`. -/
def wordsFrom : Bool → ℕ → List α → List (Word α)
  | _, _, [] => []
  | fresh, i, a :: l =>
      if sep a then wordsFrom true (i + 1) l
      else if fresh then ⟨i, a :: l.takeWhile (! sep ·)⟩ :: wordsFrom false (i + 1) l
      else wordsFrom false (i + 1) l

/-- The words of a list. -/
def words (l : List α) : List (Word α) := wordsFrom sep true 0 l

/-- A part without separators, and with a separator or the end of the list on both sides. -/
def IsWord (l : List α) (w : Word α) : Prop :=
  ∃ pre post, l = pre ++ (w.text ++ post) ∧ pre.length = w.start ∧ w.text ≠ [] ∧
    (∀ a ∈ w.text, sep a = false) ∧ (∀ a ∈ pre.getLast?, sep a = true) ∧
    ∀ a ∈ post.head?, sep a = true

end Definitions

variable {α : Type} {sep : α → Bool} {l done word gap rest : List α} {a : α} {w : Word α}
  {fresh : Bool} {i k : ℕ}

/-! ### The words are the maximal parts -/

/-- Before a separator or the end, a part without separators is all there is. -/
theorem takeWhile_append_of_head (hword : ∀ b ∈ word, sep b = false)
    (hrest : ∀ b ∈ rest.head?, sep b = true) : (word ++ rest).takeWhile (! sep ·) = word := by
  have hstop : rest.takeWhile (! sep ·) = [] := by
    cases rest with
    | nil => rfl
    | cons b rest =>
      have hb := hrest b rfl
      rw [List.takeWhile_cons_of_neg]
      simp [hb]
  rw [List.takeWhile_append_of_pos fun b hb => by simp [hword b hb], hstop, List.append_nil]

/-- There is one word that may start at the end of `done`. -/
theorem isWord_at (w : Word α) : IsWord sep (done ++ a :: l) w ∧ w.start = done.length ↔
    sep a = false ∧ (∀ b ∈ done.getLast?, sep b = true) ∧
      w = ⟨done.length, a :: l.takeWhile (! sep ·)⟩ := by
  constructor
  · rintro ⟨⟨pre, post, hl, hpre, hne, hword, hbefore, hafter⟩, hstart⟩
    obtain ⟨rfl, htail⟩ := List.append_inj hl (hstart.symm.trans hpre.symm)
    obtain ⟨b, text, htext⟩ := List.exists_cons_of_ne_nil hne
    rw [htext, List.cons_append] at htail
    obtain ⟨rfl, rfl⟩ := List.cons.inj htail
    rw [htext, List.forall_mem_cons] at hword
    refine ⟨hword.1, hbefore, ?_⟩
    obtain ⟨start, text'⟩ := w
    obtain rfl : start = done.length := hstart
    obtain rfl : text' = a :: text := htext
    rw [takeWhile_append_of_head hword.2 hafter]
  · rintro ⟨ha, hbefore, rfl⟩
    refine ⟨⟨done, l.dropWhile (! sep ·), ?_, rfl, List.cons_ne_nil _ _, ?_, hbefore, ?_⟩, rfl⟩
    · rw [List.cons_append, List.takeWhile_append_dropWhile]
    · rw [List.forall_mem_cons]
      refine ⟨ha, fun b hb => ?_⟩
      simpa using List.mem_takeWhile_imp hb
    · intro b hb
      have hdrop := List.head?_dropWhile_not (! sep ·) l
      rw [Option.mem_def.mp hb] at hdrop
      simpa using hdrop

/-- By induction on what is left to read: `fresh` says that a word may start behind `done`. -/
theorem mem_wordsFrom_iff (hfresh : fresh = true ↔ ∀ b ∈ done.getLast?, sep b = true)
    (w : Word α) :
    w ∈ wordsFrom sep fresh done.length l ↔ IsWord sep (done ++ l) w ∧ done.length ≤ w.start := by
  induction l generalizing done fresh with
  | nil =>
    refine iff_of_false List.not_mem_nil ?_
    rintro ⟨⟨pre, post, hl, hpre, hne, -⟩, hle⟩
    have hlength := congrArg List.length hl
    have hpos := List.length_pos_iff.mpr hne
    rw [List.append_nil, List.length_append, List.length_append] at hlength
    omega
  | cons a l ih =>
    have hat := @isWord_at α sep l done a w
    have hlater : ∀ {fresh}, (fresh = true ↔ sep a = true) →
        (w ∈ wordsFrom sep fresh (done.length + 1) l ↔
          IsWord sep (done ++ a :: l) w ∧ done.length + 1 ≤ w.start) := by
      intro fresh hfresh
      have ih := @ih (done ++ [a]) fresh (by simpa using hfresh)
      rwa [List.length_append, List.length_singleton, List.append_assoc,
        List.singleton_append] at ih
    have hsplit : (IsWord sep (done ++ a :: l) w ∧ done.length ≤ w.start) ↔
        (IsWord sep (done ++ a :: l) w ∧ w.start = done.length) ∨
          (IsWord sep (done ++ a :: l) w ∧ done.length + 1 ≤ w.start) := by
      rw [← and_or_left]
      exact and_congr_right' (by omega)
    rw [hsplit, hat, wordsFrom]
    by_cases ha : sep a = true
    · rw [if_pos ha, hlater (by simp [ha])]
      exact (or_iff_right fun h => by simp [ha] at h).symm
    rw [if_neg ha]
    have ha' : sep a = false := by simpa using ha
    cases fresh with
    | true =>
      rw [if_pos rfl, List.mem_cons, hlater (by simp [ha'])]
      have hbefore := hfresh.mp rfl
      exact or_congr_left ⟨fun h => ⟨ha', hbefore, h⟩, fun h => h.2.2⟩
    | false =>
      rw [if_neg (by decide), hlater (by simp [ha'])]
      refine (or_iff_right fun h => ?_).symm
      exact absurd (hfresh.mpr h.2.1) (by decide)

/-- The list of words holds the maximal runs of non-separators and nothing else. -/
theorem mem_words_iff : w ∈ words sep l ↔ IsWord sep l w := by
  have hmem := @mem_wordsFrom_iff α sep l [] true (by simp) w
  exact hmem.trans (and_iff_left (Nat.zero_le _))

/-- No word found from an index starts before it. -/
theorem le_start_of_mem (h : w ∈ wordsFrom sep fresh i l) : i ≤ w.start := by
  induction l generalizing fresh i with
  | nil => exact absurd h List.not_mem_nil
  | cons a l ih =>
    rw [wordsFrom] at h
    split at h
    · exact (Nat.le_succ i).trans (ih h)
    · split at h
      · rcases List.mem_cons.mp h with rfl | h
        · exact Nat.le_refl _
        · exact (Nat.le_succ i).trans (ih h)
      · exact (Nat.le_succ i).trans (ih h)

/-- No word is listed twice. -/
theorem wordsFrom_sorted (sep : α → Bool) (fresh : Bool) (i : ℕ) (l : List α) :
    (wordsFrom sep fresh i l).Pairwise (·.start < ·.start) := by
  induction l generalizing fresh i with
  | nil => exact List.Pairwise.nil
  | cons a l ih =>
    rw [wordsFrom]
    split
    · exact ih true (i + 1)
    · split
      · exact List.pairwise_cons.mpr ⟨fun w hw => le_start_of_mem hw, ih false (i + 1)⟩
      · exact ih false (i + 1)

/-- The words come in the order of their starts. -/
theorem words_sorted (sep : α → Bool) (l : List α) :
    (words sep l).Pairwise (·.start < ·.start) := wordsFrom_sorted sep true 0 l

/-! ### Reading on -/

/-- Where no word is going on, none has to be waited for. -/
theorem wordsFrom_of_head (hrest : ∀ b ∈ rest.head?, sep b = true) :
    wordsFrom sep false i rest = wordsFrom sep true i rest := by
  cases rest with
  | nil => rfl
  | cons b rest =>
    have hb := hrest b rfl
    rw [wordsFrom, wordsFrom, if_pos hb, if_pos hb]

/-- The rest of a word already begun gives no further word. -/
theorem wordsFrom_inside (hword : ∀ b ∈ word, sep b = false) :
    wordsFrom sep false i (word ++ rest) = wordsFrom sep false (i + word.length) rest := by
  induction word generalizing i with
  | nil => rfl
  | cons b word ih =>
    rw [List.forall_mem_cons] at hword
    rw [List.cons_append, wordsFrom, if_neg (by simp [hword.1]), if_neg (by decide), ih hword.2,
      List.length_cons, Nat.add_right_comm, Nat.add_assoc]

/-- The first word, and the words behind it. -/
theorem wordsFrom_word (hne : word ≠ []) (hword : ∀ b ∈ word, sep b = false)
    (hrest : ∀ b ∈ rest.head?, sep b = true) :
    wordsFrom sep true i (word ++ rest) =
      ⟨i, word⟩ :: wordsFrom sep true (i + word.length) rest := by
  obtain ⟨b, word, rfl⟩ := List.exists_cons_of_ne_nil hne
  rw [List.forall_mem_cons] at hword
  rw [List.cons_append, wordsFrom, if_neg (by simp [hword.1]), if_pos rfl,
    takeWhile_append_of_head hword.2 hrest, wordsFrom_inside hword.2, wordsFrom_of_head hrest,
    List.length_cons, Nat.add_right_comm, Nat.add_assoc]

/-- A list that is one word. -/
theorem wordsFrom_single (hne : word ≠ []) (hword : ∀ b ∈ word, sep b = false) :
    wordsFrom sep true i word = [⟨i, word⟩] := by
  have hone : wordsFrom sep true i (word ++ []) =
      ⟨i, word⟩ :: wordsFrom sep true (i + word.length) [] :=
    wordsFrom_word hne hword fun b hb => absurd hb (by simp)
  rwa [List.append_nil] at hone

/-- Separators are skipped. -/
theorem wordsFrom_gap (hgap : ∀ b ∈ gap, sep b = true) :
    wordsFrom sep true i (gap ++ rest) = wordsFrom sep true (i + gap.length) rest := by
  induction gap generalizing i with
  | nil => rfl
  | cons b gap ih =>
    rw [List.forall_mem_cons] at hgap
    rw [List.cons_append, wordsFrom, if_pos hgap.1, ih hgap.2, List.length_cons, Nat.add_right_comm,
      Nat.add_assoc]

/-- The words do not depend on where counting starts. -/
theorem wordsFrom_add (sep : α → Bool) (fresh : Bool) (i k : ℕ) (l : List α) :
    wordsFrom sep fresh (k + i) l =
      (wordsFrom sep fresh i l).map fun w => ⟨k + w.start, w.text⟩ := by
  induction l generalizing fresh i with
  | nil => rfl
  | cons a l ih =>
    rw [wordsFrom, wordsFrom, Nat.add_assoc]
    split
    · exact ih true (i + 1)
    · split
      · rw [List.map_cons, ih false (i + 1)]
      · exact ih false (i + 1)

end Words
