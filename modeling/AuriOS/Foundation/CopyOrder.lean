import Mathlib

/-!
# Cells copied one after the other

A memory is a function from addresses to values.  For each index `i` of a list the cell at `g i` is
copied to `f i`, one index after the other, and a cell may be the source of one copy and the target
of another.

* `copyEach_of_intact`: every target gets what its source held in the beginning, as long as no
  source is overwritten before it is read;
* `copyEach_iff`: in any other order some memory is copied wrongly.
-/

namespace CopyOrder

variable {ι A V : Type} [DecidableEq A]

/-- For each `i` in turn, the cell `g i` is copied to `f i`. -/
def copyEach (f g : ι → A) (l : List ι) (m : A → V) : A → V :=
  l.foldl (fun m i => Function.update m (f i) (m (g i))) m

variable {f g : ι → A} {l l₁ l₂ : List ι} {m : A → V} {a : A} {i j : ι}

/-- The copies run in the list's order. -/
theorem copyEach_cons (f g : ι → A) (i : ι) (l : List ι) (m : A → V) :
    copyEach f g (i :: l) m = copyEach f g l (Function.update m (f i) (m (g i))) := rfl

/-- Two lists of copies run one after the other. -/
theorem copyEach_append (f g : ι → A) (l₁ l₂ : List ι) (m : A → V) :
    copyEach f g (l₁ ++ l₂) m = copyEach f g l₂ (copyEach f g l₁ m) := List.foldl_append

/-- Renaming the items renames what is copied and where. -/
theorem copyEach_map {κ : Type} (h : κ → ι) (l : List κ) (m : A → V) :
    copyEach f g (l.map h) m = copyEach (f ∘ h) (g ∘ h) l m := List.foldl_map

/-- Only the targets change. -/
theorem copyEach_of_notMem (ha : a ∉ l.map f) : copyEach f g l m a = m a := by
  induction l generalizing m with
  | nil => rfl
  | cons i l ih =>
    rw [List.map_cons, List.mem_cons, not_or] at ha
    rw [copyEach_cons, ih ha.2, Function.update_of_ne ha.1]

/-- The order in which every source is still intact when it is read. -/
def Intact (f g : ι → A) (l : List ι) : Prop := l.Pairwise fun j i => f j ≠ g i

/-- A copy whose source is intact when it is read delivers the old value. -/
theorem copyEach_of_intact (hf : (l.map f).Nodup) (h : Intact f g l) (hi : i ∈ l) :
    copyEach f g l m (f i) = m (g i) := by
  induction l generalizing m with
  | nil => exact absurd hi List.not_mem_nil
  | cons j l ih =>
    rw [List.map_cons, List.nodup_cons] at hf
    obtain ⟨hj, hl⟩ := List.pairwise_cons.mp h
    rw [copyEach_cons]
    rcases List.mem_cons.mp hi with rfl | hi
    · rw [copyEach_of_notMem hf.1, Function.update_self]
    · rw [ih hf.2 hl hi, Function.update_of_ne (hj i hi).symm]

/-- A source that was overwritten is copied with what was written there. -/
theorem copyEach_overwritten (hf : ((l₁ ++ j :: l₂).map f).Nodup) (hi : i ∈ l₂) (hji : f j = g i) :
    copyEach f g (l₁ ++ j :: l₂) m (f i) = copyEach f g (l₁ ++ j :: l₂) m (f j) := by
  rw [List.map_append, List.map_cons] at hf
  obtain ⟨hj, hl₂⟩ := List.nodup_cons.mp (List.nodup_append.mp hf).2.1
  obtain ⟨before, after, rfl⟩ := List.append_of_mem hi
  rw [copyEach_append, copyEach_cons, copyEach_of_notMem hj, Function.update_self, copyEach_append,
    copyEach_cons]
  rw [List.map_append, List.map_cons] at hj hl₂
  have hafter := (List.nodup_cons.mp (List.nodup_append.mp hl₂).2.1).1
  rw [copyEach_of_notMem hafter, Function.update_self, ← hji,
    copyEach_of_notMem fun hmem => hj (List.mem_append_left _ hmem), Function.update_self]

/-- The memories that are copied rightly are all memories only if every source is intact. -/
theorem copyEach_iff [Nontrivial V] (hf : (l.map f).Nodup) (hg : (l.map g).Nodup) :
    (∀ m : A → V, ∀ i ∈ l, copyEach f g l m (f i) = m (g i)) ↔ Intact f g l := by
  refine ⟨fun hall => ?_, fun h m i hi => copyEach_of_intact hf h hi⟩
  refine List.pairwise_iff_forall_sublist.mpr fun {j i} hsub hji => ?_
  obtain ⟨r, l₂, rfl, hj, hi⟩ := List.cons_sublist_iff.mp hsub
  rw [List.singleton_sublist] at hi
  obtain ⟨l₁, t, rfl⟩ := List.append_of_mem hj
  have hne : g j ≠ g i := by
    rw [List.map_append] at hg
    exact (List.nodup_append.mp hg).2.2 _ (List.mem_map_of_mem hj) _ (List.mem_map_of_mem hi)
  -- a memory that tells the two sources apart
  obtain ⟨u, v, huv⟩ := exists_pair_ne V
  have hright := hall (Function.update (fun _ => u) (g i) v)
  have hsplit : l₁ ++ j :: t ++ l₂ = l₁ ++ j :: (t ++ l₂) := by
    rw [List.append_assoc, List.cons_append]
  rw [hsplit] at hf hright
  have hi' : i ∈ t ++ l₂ := List.mem_append_right t hi
  have hsame := copyEach_overwritten (m := Function.update (fun _ => u) (g i) v) hf hi' hji
  rw [hright i (List.mem_append_right _ (List.mem_cons_of_mem _ hi')),
    hright j (List.mem_append_right _ List.mem_cons_self), Function.update_self,
    Function.update_of_ne hne] at hsame
  exact huv hsame.symm

end CopyOrder
