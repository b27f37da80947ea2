import Mathlib

/-!
# Rings that keep the most recent entries

A ring of `n` slots with a head, the slot written next, keeps the last `n` values pushed:

* `behind n head back` is the slot `back` places behind the head;
* `Holds R n slots head recent` says that the slots behind the head hold, newest first, the values
  of the list `recent`, where `R` relates what a slot contains to the value it stands for;
* `Holds.push`: a push overwrites the slot at the head and turns the ring by one.  The list then
  starts with the new value and is cut to `n` values, whether or not the ring has wrapped.
-/

namespace RecentRing

variable {α β : Type} {R : α → β → Prop} {n head : ℕ} {slots : ℕ → α} {recent : List β}

/-! ### Slots behind the head -/

/-- The slot `back` places behind `head`. -/
def behind (n head back : ℕ) : ℕ := if back ≤ head then head - back else head + n - back

/-- The slot computed with a remainder. -/
theorem mod_eq_behind {back : ℕ} (hhead : head < n) (hback : 1 ≤ back) (hle : back ≤ n) :
    (head + n - back) % n = behind n head back := by
  unfold behind
  split
  · have hlt : head - back < n := by omega
    rw [show head + n - back = head - back + n by omega, Nat.add_mod_right, Nat.mod_eq_of_lt hlt]
  · exact Nat.mod_eq_of_lt (by omega)

/-- The slot after the head. -/
def next (n head : ℕ) : ℕ := if head + 1 = n then 0 else head + 1

/-- The remainder computes the next slot. -/
theorem mod_eq_next (hhead : head < n) : (head + 1) % n = next n head := by
  unfold next
  split
  · next h => rw [h, Nat.mod_self]
  · exact Nat.mod_eq_of_lt (by omega)

/-- The next slot is in the ring. -/
theorem next_lt (hhead : head < n) : next n head < n := by
  unfold next
  split <;> omega

/-- Right behind the next head lies the present one. -/
theorem behind_next_one : behind n (next n head) 1 = head := by
  unfold behind next
  split <;> split <;> omega

/-- Turning the ring moves every other slot one place further behind. -/
theorem behind_next_succ {back : ℕ} (hback : 1 ≤ back) (hlt : back < n) :
    behind n (next n head) (back + 1) = behind n head back := by
  unfold behind next
  split <;> split <;> split <;> omega

/-- The slots behind the head are other slots. -/
theorem behind_ne {back : ℕ} (hback : 1 ≤ back) (hlt : back < n) :
    behind n head back ≠ head := by
  unfold behind
  split <;> omega

/-! ### What the ring holds -/

/-- The slots behind the head hold the values of `recent`, newest first. -/
structure Holds (R : α → β → Prop) (n : ℕ) (slots : ℕ → α) (head : ℕ) (recent : List β) : Prop where
  head_lt : head < n
  length_le : recent.length ≤ n
  read : ∀ {back : ℕ} {b : β}, 1 ≤ back → recent[back - 1]? = some b →
    R (slots (behind n head back)) b

namespace Holds

/-- A ring with nothing in it holds the empty history. -/
theorem empty (hn : 0 < n) : Holds R n slots 0 [] where
  head_lt := hn
  length_le := Nat.zero_le n
  read _ h := by simp at h

/-- Writing the head slot and advancing puts one more item in front of the history. -/
theorem push {a : α} {b : β} {slots' : ℕ → α} (h : Holds R n slots head recent) (hab : R a b)
    (hself : slots' head = a) (hother : ∀ {i : ℕ}, i ≠ head → slots' i = slots i) :
    Holds R n slots' (next n head) ((b :: recent).take n) where
  head_lt := next_lt h.head_lt
  length_le := List.length_take_le _ _
  read {back c} hback hc := by
    rw [List.getElem?_take] at hc
    split at hc
    · next hlt =>
      obtain rfl | ⟨k, rfl⟩ : back = 1 ∨ ∃ k, back = k + 1 + 1 :=
        hback.eq_or_lt.imp Eq.symm fun h2 => ⟨back - 2, by omega⟩
      · obtain rfl : b = c := by simpa using hc
        rw [behind_next_one, hself]
        exact hab
      · have hk : recent[k]? = some c := by simpa using hc
        rw [behind_next_succ (Nat.succ_pos k) (by omega),
          hother (behind_ne (Nat.succ_pos k) (by omega))]
        exact h.read (Nat.succ_pos k) hk
    · contradiction

end Holds

end RecentRing
