import Mathlib
import AuriOS.Foundation.Program

/-!
# Footprints

A memory is a function from addresses to values, and a step writes some of its cells.  The footprint
of a step says which: outside of it the step changes nothing, and inside of it what the step leaves
does not depend on what was there before.

* `runEach_of_not_covers`, `runEach_of_covers`: steps one after the other have the union of their
  footprints;
* `runEach_eq_self_iff`: a cell is safe from them in every memory exactly when no footprint covers
  it;
* `forLoop_grid`: two nested loops run the steps of a grid, row by row.
-/

namespace Footprint

open Program

variable {ι A V : Type}

/-- Step `i` writes the cells that `covers i`. -/
structure HasFootprint (step : ι → (A → V) → A → V) (covers : ι → A → Prop) : Prop where
  frame : ∀ {i a} (m), ¬ covers i a → step i m a = m a
  fixed : ∀ {i a} (m m'), covers i a → step i m a = step i m' a

/-- For each `i` of the list in turn, step `i`. -/
def runEach (step : ι → (A → V) → A → V) (l : List ι) (m : A → V) : A → V :=
  l.foldl (fun m i => step i m) m

variable {step : ι → (A → V) → A → V} {covers : ι → A → Prop} {l : List ι} {m m' : A → V} {a : A}

/-- The steps of a list run in the list's order. -/
theorem runEach_cons (step : ι → (A → V) → A → V) (i : ι) (l : List ι) (m : A → V) :
    runEach step (i :: l) m = runEach step l (step i m) := rfl

/-- What no step covers keeps its value. -/
theorem runEach_of_not_covers (h : HasFootprint step covers) (ha : ¬ ∃ i ∈ l, covers i a) :
    runEach step l m a = m a := by
  induction l generalizing m with
  | nil => rfl
  | cons i l ih =>
    rw [List.exists_mem_cons_iff, not_or] at ha
    rw [runEach_cons, ih ha.2, h.frame m ha.1]

/-- What some step covers does not depend on the memory before the run. -/
theorem runEach_of_covers (h : HasFootprint step covers) (ha : ∃ i ∈ l, covers i a) :
    runEach step l m a = runEach step l m' a := by
  induction l generalizing m m' with
  | nil =>
    obtain ⟨i, hi, -⟩ := ha
    exact absurd hi List.not_mem_nil
  | cons i l ih =>
    rw [runEach_cons, runEach_cons]
    by_cases hlater : ∃ j ∈ l, covers j a
    · exact ih hlater
    · -- `i` is the last step that writes the cell
      have hi : covers i a := (List.or_exists_of_exists_mem_cons ha).resolve_right hlater
      rw [runEach_of_not_covers h hlater, runEach_of_not_covers h hlater, h.fixed m m' hi]

/-- The steps leave a cell alone in every memory exactly when none of them writes it. -/
theorem runEach_eq_self_iff [Nontrivial V] (h : HasFootprint step covers) :
    (∀ m, runEach step l m a = m a) ↔ ¬ ∃ i ∈ l, covers i a := by
  constructor
  · intro hself ha
    obtain ⟨v, v', hne⟩ := exists_pair_ne V
    have hsame : runEach step l (fun _ => v) a = runEach step l (fun _ => v') a :=
      runEach_of_covers h ha
    rw [hself, hself] at hsame
    exact hne hsame
  · intro ha m
    exact runEach_of_not_covers h ha

/-! ### Nested loops -/

/-- The steps of a grid, row by row. -/
def grid (width height : ℕ) (f : ℕ → ℕ → ι) : List ι :=
  (List.range' 0 height).flatMap fun y => (List.range' 0 width).map (f y)

variable {width height : ℕ} {f : ℕ → ℕ → ι}

/-- A grid has a point with a property when some row and column give one. -/
theorem exists_mem_grid_iff {P : ι → Prop} :
    (∃ i ∈ grid width height f, P i) ↔ ∃ y < height, ∃ x < width, P (f y x) := by
  unfold grid
  simp only [List.mem_flatMap, List.mem_map, List.mem_range'_1, Nat.zero_le, true_and, Nat.zero_add]
  constructor
  · rintro ⟨_, ⟨y, hy, x, hx, rfl⟩, hP⟩
    exact ⟨y, hy, x, hx, hP⟩
  · rintro ⟨y, hy, x, hx, hP⟩
    exact ⟨_, ⟨y, hy, x, hx, rfl⟩, hP⟩

/-- Two nested counting loops are the run over their grid. -/
theorem forLoop_grid {body : ℕ → ℕ → (A → V) → A → V}
    (hbody : ∀ y x m, body y x m = step (f y x) m) (m : A → V) :
    forLoop (fun y m => forLoop (fun x m => body y x m) 0 width m) 0 height m =
      runEach step (grid width height f) m := by
  unfold runEach grid
  rw [List.foldl_flatMap, forLoop_eq_foldl]
  congr 1
  funext m y
  rw [List.foldl_map, forLoop_eq_foldl]
  congr 1
  funext m x
  exact hbody y x m

end Footprint
