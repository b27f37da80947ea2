import Mathlib

/-!
# A counter that wraps, read now and then

Ticks arrive and are counted modulo `N`.  `arrivals n` of them come before reading `n` and after the
reading before it; how many were counted since the beginning is `elapsed`.

* `isLeast_elapsed_mod_iff`: the first reading at which the count modulo `N` reaches a target is the
  first one at which the count itself does, as long as a count below the target cannot grow beyond
  `N` between two readings.
-/

namespace WrappingCounter

/-- The ticks before reading `n`. -/
def elapsed (arrivals : ℕ → ℕ) (n : ℕ) : ℕ := ∑ i ∈ Finset.range (n + 1), arrivals i

variable {arrivals : ℕ → ℕ} {N target n : ℕ}

/-- At the first check only its own arrivals have elapsed. -/
theorem elapsed_zero (arrivals : ℕ → ℕ) : elapsed arrivals 0 = arrivals 0 :=
  Finset.sum_range_one arrivals

/-- Every further check adds its own arrivals. -/
theorem elapsed_succ (arrivals : ℕ → ℕ) (n : ℕ) :
    elapsed arrivals (n + 1) = elapsed arrivals n + arrivals (n + 1) :=
  Finset.sum_range_succ arrivals (n + 1)

/-- The counter does not go round between two readings before the target. -/
structure Keeps (arrivals : ℕ → ℕ) (N target : ℕ) : Prop where
  first : arrivals 0 < N
  next : ∀ n, target + arrivals (n + 1) ≤ N

/-- While the target was not reached, the count fits the counter. -/
theorem Keeps.elapsed_lt (h : Keeps arrivals N target)
    (hbefore : ∀ k < n, elapsed arrivals k < target) :
    elapsed arrivals n < N := by
  cases n with
  | zero => exact (elapsed_zero arrivals).trans_lt h.first
  | succ n =>
    rw [elapsed_succ]
    exact (Nat.add_lt_add_right (hbefore n (Nat.lt_succ_self n)) _).trans_le (h.next n)

/-- The readings that come too early are the same, by induction from the first one on. -/
theorem Keeps.before_iff (h : Keeps arrivals N target) :
    (∀ k < n, elapsed arrivals k % N < target) ↔ ∀ k < n, elapsed arrivals k < target := by
  refine ⟨fun hmod k => ?_, fun hexact k hk => ?_⟩
  · induction k using Nat.strongRecOn with
    | ind k ih =>
      intro hk
      have hfits := h.elapsed_lt fun j hj => ih j hj (hj.trans hk)
      have hlt := hmod k hk
      rwa [Nat.mod_eq_of_lt hfits] at hlt
  · exact (Nat.mod_le _ _).trans_lt (hexact k hk)

/-- The least number with a property has it, and none below it does. -/
theorem isLeast_iff {p : ℕ → Prop} : IsLeast {k | p k} n ↔ p n ∧ ∀ k < n, ¬ p k :=
  and_congr_right fun _ => ⟨fun h _ hk hp => Nat.not_le_of_lt hk (h hp),
    fun h k hp => Nat.le_of_not_lt fun hk => h k hk hp⟩

/-- A counter kept below its modulus reaches the target when the unbounded one does. -/
theorem isLeast_elapsed_mod_iff (h : Keeps arrivals N target) :
    IsLeast {n | target ≤ elapsed arrivals n % N} n ↔
      IsLeast {n | target ≤ elapsed arrivals n} n := by
  rw [isLeast_iff, isLeast_iff]
  simp only [Nat.not_le]
  rw [h.before_iff]
  refine and_congr_left fun hbefore => ?_
  rw [Nat.mod_eq_of_lt (h.elapsed_lt hbefore)]

end WrappingCounter
