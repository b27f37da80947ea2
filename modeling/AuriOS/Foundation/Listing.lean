import Mathlib

/-!
# Listings

A listing is the texts of its records, one behind the other.

`Reads write read` says that a reader takes the text of a record off the front of any text.  Then
the whole listing reads back (`readAll_write`), up to a text that does not begin with a record.
-/

namespace Listing

variable {α β : Type*}

/-- `read` takes what `write` makes of a record off any text. -/
def Reads (write : α → List β) (read : List β → Option (α × List β)) : Prop :=
  ∀ a rest, read (write a ++ rest) = some (a, rest)

/-- A fixed text is taken off. -/
def dropText [DecidableEq β] : List β → List β → Option (List β)
  | [], text => some text
  | _ :: _, [] => none
  | a :: mark, b :: text => if a = b then dropText mark text else none

/-- One of two fixed texts, which mean yes and no. -/
def readFlag [DecidableEq β] (yes no text : List β) : Option (Bool × List β) :=
  match dropText yes text with
  | some rest => some (true, rest)
  | none => (dropText no text).map (false, ·)

/-- At most `n` records, and what is left of the text. -/
def readAll (read : List β → Option (α × List β)) : ℕ → List β → List α × List β
  | 0, text => ([], text)
  | n + 1, text =>
      match read text with
      | none => ([], text)
      | some (a, rest) => (a :: (readAll read n rest).1, (readAll read n rest).2)

section Marks

variable [DecidableEq β]

/-- Dropping a mark from a text that starts with it leaves the rest. -/
theorem dropText_append (mark text : List β) : dropText mark (mark ++ text) = some text := by
  induction mark with
  | nil => rfl
  | cons a mark ih =>
    rw [List.cons_append, dropText, if_pos rfl]
    exact ih

/-- The first of the two words reads as `true`. -/
theorem readFlag_yes (yes no rest : List β) :
    readFlag yes no (yes ++ rest) = some (true, rest) := by
  rw [readFlag, dropText_append]

/-- Neither of the two texts is the beginning of the other. -/
theorem readFlag_no {yes no rest : List β} (h : dropText yes (no ++ rest) = none) :
    readFlag yes no (no ++ rest) = some (false, rest) := by
  rw [readFlag, h, dropText_append]
  rfl

end Marks

section Records

variable {write : α → List β} {read : List β → Option (α × List β)}

/-- The records of a listing, by induction on them. -/
theorem readAll_write (h : Reads write read) {stop : List β} (hstop : read stop = none)
    {as : List α} {n : ℕ} (hn : as.length ≤ n) :
    readAll read n (as.flatMap write ++ stop) = (as, stop) := by
  induction as generalizing n with
  | nil =>
    cases n with
    | zero => rfl
    | succ n =>
      rw [List.flatMap_nil, List.nil_append, readAll, hstop]
  | cons a as ih =>
    obtain ⟨m, rfl⟩ : ∃ m, n = m + 1 := ⟨n - 1, by rw [List.length_cons] at hn; omega⟩
    rw [List.flatMap_cons, List.append_assoc, readAll, h]
    dsimp only
    rw [ih (Nat.le_of_succ_le_succ hn)]

end Records

end Listing
