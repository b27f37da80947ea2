import Mathlib

/-!
# Items put into slots in turn

Items are put into `n` slots one after the other, and into the first slot again after the last one.
A slot keeps everything it was given.
-/

namespace SlotCycle

variable {α : Type} {n i : ℕ}

/-- What slot `i` holds in the end. -/
def collected (n : ℕ) (items : List (List α)) (i : ℕ) : List α :=
  (items.zipIdx.filter fun item => item.2 % n = i).flatMap Prod.fst

/-- Before the first update every slot is empty. -/
theorem collected_nil (n i : ℕ) : collected n ([] : List (List α)) i = [] := rfl

/-- One more item goes into the slot whose turn it is. -/
theorem collected_concat (items : List (List α)) (item : List α) :
    collected n (items ++ [item]) i =
      collected n items i ++ if items.length % n = i then item else [] := by
  unfold collected
  rw [List.zipIdx_append, List.filter_append, List.flatMap_append, Nat.zero_add]
  congr 1
  by_cases hturn : items.length % n = i
  · simp [List.zipIdx, hturn]
  · simp [List.zipIdx, hturn]

/-- The first round fills every slot; the other rounds add to it. -/
theorem collected_eq (hi : i < n) (items : List (List α)) :
    collected n items i = items.getD i [] ++ collected n (items.drop n) i := by
  induction items using List.reverseRecOn with
  | nil => simp [collected_nil]
  | append_singleton items item ih =>
    rw [collected_concat, ih]
    rcases Nat.lt_or_ge items.length n with hlt | hge
    · rw [List.drop_eq_nil_of_le (by omega : items.length ≤ n),
        List.drop_eq_nil_of_le (by simpa using hlt), collected_nil, List.append_nil,
          List.append_nil,
        Nat.mod_eq_of_lt hlt]
      rcases Nat.lt_trichotomy i items.length with hin | rfl | hout
      · rw [if_neg (Nat.ne_of_gt hin), List.append_nil, List.getD_append _ _ _ _ hin]
      · rw [if_pos rfl, List.getD_eq_default _ _ (Nat.le_refl _), List.nil_append,
          List.getD_append_right _ _ _ _ (Nat.le_refl _), Nat.sub_self]
        rfl
      · rw [if_neg (Nat.ne_of_lt hout), List.append_nil,
          List.getD_eq_default _ _ (Nat.le_of_lt hout), List.getD_eq_default]
        rw [List.length_append, List.length_singleton]
        exact hout
    · have hturn : (items.drop n).length % n = items.length % n := by
        rw [List.length_drop, ← Nat.mod_eq_sub_mod hge]
      rw [List.drop_append_of_le_length hge, collected_concat, hturn, List.append_assoc,
        List.getD_append _ _ _ _ (Nat.lt_of_lt_of_le hi hge)]

end SlotCycle
