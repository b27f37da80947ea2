import Mathlib

/-!
# Text zippers of bounded length

A line being edited is what lies left of the cursor and what lies right of it, and holds at most
`n` characters.  At the ends of the line, and when it is full, an operation that is not possible
leaves the zipper alone.
-/

/-- The text before the cursor and the text from the cursor on. -/
structure BoundedZipper (α : Type) (n : ℕ) where
  left : List α
  right : List α
  fits : left.length + right.length ≤ n

namespace BoundedZipper

variable {α : Type} {n : ℕ}

/-- A zipper is determined by its two sides. -/
@[ext] theorem ext {z z' : BoundedZipper α n} (hleft : z.left = z'.left)
    (hright : z.right = z'.right) : z = z' := by
  obtain ⟨_, _, _⟩ := z
  obtain ⟨_, _, _⟩ := z'
  cases hleft
  cases hright
  rfl

/-- The whole line. -/
def text (z : BoundedZipper α n) : List α := z.left ++ z.right

/-- The text is as long as the two sides together. -/
theorem text_length (z : BoundedZipper α n) : z.text.length = z.left.length + z.right.length :=
  List.length_append

/-- The text never exceeds the capacity. -/
theorem text_length_le (z : BoundedZipper α n) : z.text.length ≤ n := z.text_length.trans_le z.fits

/-! ### Operations -/

/-- A line with the cursor at its end. -/
def ofText (text : List α) (h : text.length ≤ n) : BoundedZipper α n := ⟨text, [], h⟩

/-- The empty text, with the cursor on it. -/
def empty : BoundedZipper α n := ⟨[], [], Nat.zero_le n⟩

/-- A character is put before the cursor, if the line has room. -/
def insert (z : BoundedZipper α n) (a : α) : BoundedZipper α n :=
  if h : z.left.length + z.right.length < n then
    ⟨z.left ++ [a], z.right, by rw [List.length_append, List.length_singleton]; omega⟩
  else z

/-- The character before the cursor is removed. -/
def erase (z : BoundedZipper α n) : BoundedZipper α n :=
  ⟨z.left.dropLast, z.right, by have := z.fits; rw [List.length_dropLast]; omega⟩

/-- The cursor goes one symbol to the left, where there is one. -/
def moveLeft (z : BoundedZipper α n) : BoundedZipper α n :=
  match h : z.left.getLast? with
  | none => z
  | some a => ⟨z.left.dropLast, a :: z.right, by
      have hpos := List.length_pos_of_mem (List.mem_of_getLast? h)
      have hfits := z.fits
      rw [List.length_dropLast, List.length_cons]
      omega⟩

/-- The cursor goes one symbol to the right, where there is one. -/
def moveRight (z : BoundedZipper α n) : BoundedZipper α n :=
  match h : z.right with
  | [] => z
  | a :: right => ⟨z.left ++ [a], right, by
      have hfits := z.fits
      rw [h, List.length_cons] at hfits
      rw [List.length_append, List.length_singleton]
      omega⟩

/-! ### At and away from the ends -/

section Ends

variable {z : BoundedZipper α n} {left right : List α} {a : α}

/-- With room left, an insertion puts the symbol before the cursor. -/
theorem insert_of_lt (h : z.text.length < n) (a : α) :
    (z.insert a).left = z.left ++ [a] ∧ (z.insert a).right = z.right := by
  unfold insert
  rw [dif_pos (by rwa [← text_length])]
  exact ⟨rfl, rfl⟩

/-- A full zipper takes no more symbols. -/
theorem insert_of_full (h : ¬ z.text.length < n) (a : α) : z.insert a = z := by
  unfold insert
  rw [dif_neg (by rwa [← text_length])]

/-- There is nothing to erase at the left end. -/
theorem erase_of_nil (h : z.left = []) : z.erase = z := by
  ext1
  · change z.left.dropLast = z.left
    rw [h]
    rfl
  · rfl

/-- An erase drops the symbol before the cursor. -/
theorem erase_of_append (h : z.left = left ++ [a]) : z.erase.left = left := by
  change z.left.dropLast = left
  rw [h, List.dropLast_concat]

/-- The cursor stays at the left end. -/
theorem moveLeft_of_nil (h : z.left = []) : z.moveLeft = z := by
  unfold moveLeft
  split
  · rfl
  · next hlast =>
    rw [h] at hlast
    contradiction

/-- A move left takes the symbol before the cursor to the other side. -/
theorem moveLeft_of_append (h : z.left = left ++ [a]) :
    z.moveLeft.left = left ∧ z.moveLeft.right = a :: z.right := by
  have hlast : z.left.getLast? = some a := by rw [h, List.getLast?_concat]
  unfold moveLeft
  split
  · next hnone =>
    rw [hlast] at hnone
    contradiction
  · next b hsome =>
    obtain rfl : a = b := Option.some.inj (hlast.symm.trans hsome)
    exact ⟨(congrArg List.dropLast h).trans List.dropLast_concat, rfl⟩

/-- The cursor stays at the right end. -/
theorem moveRight_of_nil (h : z.right = []) : z.moveRight = z := by
  unfold moveRight
  split
  · rfl
  · next hcons =>
    rw [h] at hcons
    contradiction

/-- A move right takes the symbol after the cursor to the other side. -/
theorem moveRight_of_cons (h : z.right = a :: right) :
    z.moveRight.left = z.left ++ [a] ∧ z.moveRight.right = right := by
  unfold moveRight
  split
  · next hnil =>
    rw [h] at hnil
    contradiction
  · next b rest hcons =>
    obtain ⟨rfl, rfl⟩ := List.cons.inj (h.symm.trans hcons)
    exact ⟨rfl, rfl⟩

end Ends

end BoundedZipper
