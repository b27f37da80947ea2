import AuriOS.Foundation.RecursiveTable

/-!
# The frames in use by a recursive table

The frames that hold a two-level table, and those its leaves point to, are owned: by the root, by
a slot, or by a leaf of one of the slots in `S`.  `owner` reads the owner map off the memory.  The
map is *exclusive* when no frame has two owners.  Under a self map the edits of a table act on it
by updates at one owner (`owner_install`, `owner_write`), a store into a leaf's frame does not
change it (`owner_store`), and a frame without an owner can be given to any of them without
losing exclusiveness (`Exclusive.update`).
-/

namespace RecursiveTable

/-- What a frame is used for. -/
inductive Owner (I : Type)
  | root
  | table (i : I)
  | leaf (i j : I)
  deriving DecidableEq

/-- No frame has two owners. -/
def Exclusive {O F : Type} (own : O → Option F) : Prop :=
  ∀ o o' f, own o = some f → own o' = some f → o = o'

/-- Giving an unowned frame to one owner keeps the ownership exclusive. -/
theorem Exclusive.update {O F : Type} [DecidableEq O] {own : O → Option F} (h : Exclusive own)
    {f : F} (hf : ∀ o, own o ≠ some f) (o : O) : Exclusive (Function.update own o (some f)) := by
  intro o₁ o₂ g h₁ h₂
  by_cases ho₁ : o₁ = o <;> by_cases ho₂ : o₂ = o
  · rw [ho₁, ho₂]
  · rw [ho₁, Function.update_self] at h₁
    rw [Function.update_of_ne ho₂, ← h₁] at h₂
    exact absurd h₂ (hf o₂)
  · rw [ho₂, Function.update_self] at h₂
    rw [Function.update_of_ne ho₁, ← h₂] at h₁
    exact absurd h₁ (hf o₁)
  · rw [Function.update_of_ne ho₁] at h₁
    rw [Function.update_of_ne ho₂] at h₂
    exact h o₁ o₂ g h₁ h₂

variable {F I E P : Type} [DecidableEq I] [Min P] (decode : E → Option (F × P)) (S : I → Prop)
  [DecidablePred S] (r : I)

/-- The frame of an owner, for a table in `root` with self map `r`. -/
def owner (mem : Mem F I E) (root : F) : Owner I → Option F
  | .root => some root
  | .table i => if i = r then none else table decode mem root i
  | .leaf i j => if S i then (walk decode mem root i j).map Prod.fst else none

variable {decode S r} {mem mem' : Mem F I E} {root t f : F} {i j : I} {p : P} {e entry empty : E}

/-- A frame without an owner is neither the root nor a table. -/
theorem fresh_of_owner (hself : SelfMap decode mem root r)
    (hf : ∀ o, owner decode S r mem root o ≠ some t) : Fresh decode mem root t := by
  have hroot : t ≠ root := fun h => hf .root (congrArg some h.symm)
  refine ⟨hroot, fun k hk => ?_⟩
  by_cases hkr : k = r
  · rw [hkr] at hk
    exact hroot (Option.some.inj (hk.symm.trans hself))
  · exact hf (.table k) ((if_neg hkr).trans hk)

/-- The owner map depends on the root and on the tables of its slots only. -/
theorem owner_congr (hroot : ∀ k, mem' root k = mem root k)
    (ht : ∀ k t j, S k → table decode mem root k = some t → mem' t j = mem t j) :
    owner decode S r mem' root = owner decode S r mem root := by
  funext o
  cases o with
  | root => rfl
  | table k => rw [owner, owner, table, hroot, ← table]
  | leaf k j =>
    rw [owner, owner]
    split
    · next hk => rw [walk_congr (hroot k) fun t h => ht k t j hk h]
    · rfl

/-- The table of a tracked leaf's slot is there. -/
theorem table_of_owner_leaf (h : owner decode S r mem root (.leaf i j) = some f) :
    S i ∧ ∃ t, table decode mem root i = some t := by
  rw [owner] at h
  split at h
  · next hi =>
    refine ⟨hi, ?_⟩
    cases ht : table decode mem root i with
    | none =>
      rw [walk_of_table_none ht] at h
      exact absurd h (by simp)
    | some t => exact ⟨t, rfl⟩
  · exact absurd h (by simp)

/-- The frame of a tracked leaf holds neither the root nor a table. -/
theorem leaf_ne (hself : SelfMap decode mem root r) (hexcl : Exclusive (owner decode S r mem root))
    (hf : owner decode S r mem root (.leaf i j) = some f) :
    root ≠ f ∧ ∀ k t, table decode mem root k = some t → t ≠ f := by
  have hfr : root ≠ f := fun h => by
    have := hexcl .root (.leaf i j) root rfl (h ▸ hf)
    simp at this
  refine ⟨hfr, fun k t ht h => ?_⟩
  by_cases hkr : k = r
  · exact hfr ((Option.some.inj (hself.symm.trans (hkr ▸ ht))).trans h)
  · have := hexcl (.table k) (.leaf i j) f ((if_neg hkr).trans (h ▸ ht)) hf
    simp at this

variable [DecidableEq F]

/-- **A new table.** Installing an empty table in a frame without an owner gives the frame to its
slot. -/
theorem owner_install (hself : SelfMap decode mem root r) (hinj : SlotsInjective decode mem root)
    (hf : ∀ o, owner decode S r mem root o ≠ some t) (habsent : table decode mem root i = none)
    (hentry : decode entry = some (t, p)) (hempty : decode empty = none) (hir : i ≠ r)
    (hS : ¬ S r) :
    owner decode S r (install mem root i entry t empty) root =
      Function.update (owner decode S r mem root) (.table i) (some t) := by
  have hfresh := fresh_of_owner hself hf
  funext o
  cases o with
  | root =>
    rw [Function.update_of_ne (by simp)]
    rfl
  | table k =>
    by_cases hk : k = i
    · rw [hk, Function.update_self, owner, if_neg hir, table_install hfresh.1 hentry, if_pos rfl]
    · rw [Function.update_of_ne (by simpa using hk), owner, owner, table_install hfresh.1 hentry,
        if_neg hk]
  | leaf k j =>
    rw [Function.update_of_ne (by simp), owner, owner]
    split
    · next hk =>
      have hkr : k ≠ r := fun h => hS (h ▸ hk)
      rw [walk_install hself hinj hfresh habsent hentry hempty k j hkr]
    · rfl

/-- **A new leaf.** Writing an entry of the table of a tracked slot gives the frame of the entry to
that leaf. -/
theorem owner_write (hself : SelfMap decode mem root r) (hinj : SlotsInjective decode mem root)
    (hir : i ≠ r) (hi : S i) (ht : table decode mem root i = some t) (he : decode e = some (f, p)) :
    owner decode S r (write mem t j e) root =
      Function.update (owner decode S r mem root) (.leaf i j) (some f) := by
  have hroot : root ≠ t := fun h => hir (hinj i r t ht (h ▸ hself))
  funext o
  cases o with
  | root =>
    rw [Function.update_of_ne (by simp)]
    rfl
  | table k => rw [Function.update_of_ne (by simp), owner, owner, table_write_of_ne hroot]
  | leaf k l =>
    have hwalk := walk_write hself hinj hir ht (e := e) (j := j) k l
    by_cases hkl : k = i ∧ l = j
    · obtain ⟨rfl, rfl⟩ := hkl
      obtain ⟨q, hq⟩ := table_eq_some_iff.mp ht
      rw [Function.update_self, owner, if_pos hi, hwalk, if_pos ⟨rfl, rfl⟩, hq, he]
      rfl
    · rw [Function.update_of_ne (by simpa using hkl), owner, owner, hwalk, if_neg hkl]

/-- **A store into a leaf** keeps every owner. -/
theorem owner_store (hself : SelfMap decode mem root r)
    (hexcl : Exclusive (owner decode S r mem root))
    (hf : owner decode S r mem root (.leaf i j) = some f) (w : I) (e : E) :
    owner decode S r (write mem f w e) root = owner decode S r mem root := by
  obtain ⟨hroot, htable⟩ := leaf_ne hself hexcl hf
  exact owner_congr (fun k => write_of_ne _ _ _ _ _ _ hroot)
    fun k t l _ ht => write_of_ne _ _ _ _ _ _ (htable k t ht)

/-- A store into a leaf keeps every translation. -/
theorem walk_store (hself : SelfMap decode mem root r)
    (hexcl : Exclusive (owner decode S r mem root))
    (hf : owner decode S r mem root (.leaf i j) = some f) (w : I) (e : E) (k l : I) :
    walk decode (write mem f w e) root k l = walk decode mem root k l := by
  obtain ⟨hroot, htable⟩ := leaf_ne hself hexcl hf
  exact walk_congr (write_of_ne _ _ _ _ _ _ hroot)
    fun t ht => write_of_ne _ _ _ _ _ _ (htable k t ht)

end RecursiveTable
