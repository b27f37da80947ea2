import Mathlib

/-!
# Longest common prefixes

`agree a b` is how far two lists agree, and `commonPrefix` the longest list that every list of a
family starts with, computed by comparing the first with each of the others.
-/

namespace CommonPrefix

variable {α : Type} [DecidableEq α]

/-- How far two lists agree. -/
def agree : List α → List α → ℕ
  | a :: as, b :: bs => if a = b then agree as bs + 1 else 0
  | _, _ => 0

/-- Up to where they agree, one is a prefix of the other. -/
theorem take_prefix {as bs : List α} {n : ℕ} (h : n ≤ agree as bs) : as.take n <+: bs := by
  induction n generalizing as bs with
  | zero => exact List.nil_prefix
  | succ n ih =>
    cases as with
    | nil => exact absurd h (Nat.not_succ_le_zero n)
    | cons a as =>
      cases bs with
      | nil => exact absurd h (Nat.not_succ_le_zero n)
      | cons b bs =>
        unfold agree at h
        split at h
        · next hab =>
          rw [List.take_succ_cons, List.cons_prefix_cons]
          exact ⟨hab, ih (Nat.le_of_succ_le_succ h)⟩
        · exact absurd h (Nat.not_succ_le_zero n)

/-- Lists with a common prefix agree at least on that prefix. -/
theorem length_le_agree {p as bs : List α} (ha : p <+: as) (hb : p <+: bs) :
    p.length ≤ agree as bs := by
  induction p generalizing as bs with
  | nil => exact Nat.zero_le _
  | cons c p ih =>
    obtain ⟨as, rfl⟩ := ha
    obtain ⟨bs, rfl⟩ := hb
    rw [List.cons_append, List.cons_append, agree, if_pos rfl]
    exact Nat.succ_le_succ (ih (List.prefix_append p as) (List.prefix_append p bs))

/-- The length of the longest prefix that `first` and all the others share. -/
def commonLength (first : List α) (others : List (List α)) : ℕ :=
  others.foldl (fun n other => min n (agree first other)) first.length

/-- A length is common when the first text has it and every other agrees that far. -/
theorem le_commonLength_iff {first : List α} {others : List (List α)} {n : ℕ} :
    n ≤ commonLength first others ↔ n ≤ first.length ∧ ∀ other ∈ others, n ≤ agree first other := by
  have hfold : ∀ m, n ≤ others.foldl (fun n other => min n (agree first other)) m ↔
      n ≤ m ∧ ∀ other ∈ others, n ≤ agree first other := by
    induction others with
    | nil => simp
    | cons other others ih =>
      intro m
      rw [List.foldl_cons, ih, Nat.le_min, List.forall_mem_cons, and_assoc]
  exact hfold first.length

/-- The longest list that all lists of the family start with. -/
def commonPrefix : List (List α) → List α
  | [] => []
  | first :: others => first.take (commonLength first others)

/-- A list starts with the common prefix of a family it belongs to. -/
theorem commonPrefix_prefix_of_mem {family : List (List α)} {a : List α} (ha : a ∈ family) :
    commonPrefix family <+: a := by
  cases family with
  | nil => exact absurd ha List.not_mem_nil
  | cons first others =>
    rcases List.mem_cons.mp ha with rfl | ha
    · exact List.take_prefix _ _
    · exact take_prefix ((le_commonLength_iff.mp (Nat.le_refl _)).2 a ha)

/-- The common prefix has the common length. -/
theorem length_commonPrefix (first : List α) (others : List (List α)) :
    (commonPrefix (first :: others)).length = commonLength first others := by
  have hle := (le_commonLength_iff.mp (Nat.le_refl (commonLength first others))).1
  rw [commonPrefix, List.length_take, Nat.min_eq_left hle]

/-- A list that all lists of the family start with is a prefix of the common prefix. -/
theorem prefix_commonPrefix {first p : List α} {others : List (List α)}
    (h : ∀ a ∈ first :: others, p <+: a) : p <+: commonPrefix (first :: others) := by
  have hfirst := h first (List.mem_cons_self)
  refine List.prefix_of_prefix_length_le hfirst (commonPrefix_prefix_of_mem List.mem_cons_self) ?_
  rw [length_commonPrefix, le_commonLength_iff]
  exact ⟨hfirst.length_le, fun other hother =>
    length_le_agree hfirst (h other (List.mem_cons_of_mem first hother))⟩

/-- The common prefix goes on after a shared prefix exactly when all lists go on alike. -/
theorem lt_length_commonPrefix_iff {first p : List α} {others : List (List α)}
    (h : ∀ a ∈ first :: others, p <+: a) :
    p.length < (commonPrefix (first :: others)).length ↔
      ∃ c, ∀ a ∈ first :: others, p ++ [c] <+: a := by
  constructor
  · intro hlonger
    obtain ⟨rest, hrest⟩ := prefix_commonPrefix h
    cases rest with
    | nil =>
      rw [List.append_nil] at hrest
      rw [hrest] at hlonger
      exact absurd hlonger (Nat.lt_irrefl _)
    | cons c rest =>
      refine ⟨c, fun a ha => List.IsPrefix.trans ⟨rest, ?_⟩ (commonPrefix_prefix_of_mem ha)⟩
      rw [← hrest, List.append_assoc]
      rfl
  · rintro ⟨c, hc⟩
    have hle := (prefix_commonPrefix hc).length_le
    rw [List.length_append, List.length_singleton] at hle
    exact hle

end CommonPrefix
