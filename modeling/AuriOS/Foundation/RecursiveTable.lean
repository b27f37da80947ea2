import Mathlib

/-!
# Two-level translation tables that map themselves

A memory is a family of tables: frame `f`, entry `i`.  An entry decodes to a frame with rights,
or to nothing.  `walk` translates a pair of indices by looking `i` up in the root and `j` in the
table found there, the rights of the two entries being met.

A *self map* is a root entry `r` that decodes to the root: then `walk r r` reaches the root and
`walk r k` the table of slot `k` (`walk_self`, `walk_window`), so that the tables can be edited
through the translation they define.  Under a self map, when distinct present slots have distinct
tables (`SlotsInjective`), the two edits of a table manager act on the translation like updates of
a map: `walk_write` for an entry of an existing table, `walk_install` for a new empty table.
-/

namespace RecursiveTable

variable {F I E P : Type}

/-- A memory of tables. -/
abbrev Mem (F I E : Type) := F → I → E

/-- Overwrite one entry of one table. -/
def write [DecidableEq F] [DecidableEq I] (mem : Mem F I E) (f : F) (i : I) (e : E) : Mem F I E :=
  Function.update mem f (Function.update (mem f) i e)

/-- Overwrite a whole table. -/
def fill [DecidableEq F] (mem : Mem F I E) (f : F) (e : E) : Mem F I E :=
  Function.update mem f fun _ => e

section Memory

variable [DecidableEq F] (mem : Mem F I E) (f g : F) (i j : I) (e : E)

/-- Filling a table gives each of its slots the same entry and leaves the other tables. -/
theorem fill_apply : fill mem f e g j = if g = f then e else mem g j := by
  by_cases hg : g = f
  · subst hg
    simp [fill]
  · simp [fill, hg]

variable [DecidableEq I]

/-- Writing an entry changes one slot of one table. -/
theorem write_apply : write mem f i e g j = if g = f ∧ j = i then e else mem g j := by
  by_cases hg : g = f
  · subst hg
    by_cases hj : j = i
    · subst hj
      simp [write]
    · simp [write, hj]
  · simp [write, hg]

/-- Writing an entry leaves the other tables alone. -/
theorem write_of_ne (h : g ≠ f) : write mem f i e g j = mem g j := by
  rw [write_apply, if_neg fun hc => h hc.1]

end Memory

-- what is known about the entries: the frame and the rights of a present one
variable (decode : E → Option (F × P))

/-- The table of a root slot. -/
def table (mem : Mem F I E) (root : F) (i : I) : Option F :=
  (decode (mem root i)).map Prod.fst

/-- The translation of a pair of indices. -/
def walk [Min P] (mem : Mem F I E) (root : F) (i j : I) : Option (F × P) :=
  (decode (mem root i)).bind fun t =>
    (decode (mem t.1 j)).map fun leaf => (leaf.1, min t.2 leaf.2)

/-- Root entry `r` decodes to the root. -/
def SelfMap (mem : Mem F I E) (root : F) (r : I) : Prop :=
  table decode mem root r = some root

/-- Distinct present slots have distinct tables. -/
def SlotsInjective (mem : Mem F I E) (root : F) : Prop :=
  ∀ i i' t, table decode mem root i = some t → table decode mem root i' = some t → i = i'

section Walk

variable {decode} {mem mem' : Mem F I E} {root : F} {r i j k : I} {t : F}

/-- A directory slot names the table its entry decodes to. -/
theorem table_eq_some_iff :
    table decode mem root i = some t ↔ ∃ p, decode (mem root i) = some (t, p) := by
  simp [table]

/-- A directory slot names no table exactly when its entry decodes to nothing. -/
theorem table_eq_none_iff : table decode mem root i = none ↔ decode (mem root i) = none := by
  simp [table]

section Congruence

variable [Min P]

/-- The frame part of a walk is the frame found in the table of the slot. -/
theorem walk_frame (ht : table decode mem root i = some t) :
    (walk decode mem root i j).map Prod.fst = (decode (mem t j)).map Prod.fst := by
  obtain ⟨p, hp⟩ := table_eq_some_iff.mp ht
  simp [walk, hp, Function.comp_def]

/-- A walk ends at a directory slot without a table. -/
theorem walk_of_table_none (h : table decode mem root i = none) :
    walk decode mem root i j = none := by
  rw [walk, table_eq_none_iff.mp h, Option.bind_none]

/-- Through the self map the root is reached as a page. -/
theorem walk_self (h : SelfMap decode mem root r) :
    (walk decode mem root r r).map Prod.fst = some root := by
  rw [walk_frame h]
  exact h

/-- Through the self map the table of a slot is reached as a page. -/
theorem walk_window (h : SelfMap decode mem root r) :
    (walk decode mem root r k).map Prod.fst = table decode mem root k :=
  walk_frame h

/-- The translation depends on the root and on the tables of its present slots only. -/
theorem walk_congr (hroot : mem' root i = mem root i)
    (ht : ∀ t, table decode mem root i = some t → mem' t j = mem t j) :
    walk decode mem' root i j = walk decode mem root i j := by
  rw [walk, walk, hroot]
  cases hd : decode (mem root i) with
  | none => rfl
  | some t => rw [Option.bind_some, Option.bind_some, ht t.1 (table_eq_some_iff.mpr ⟨t.2, hd⟩)]

end Congruence

variable [DecidableEq F] [DecidableEq I]

/-- Writing outside the root keeps every slot. -/
theorem table_write_of_ne {e : E} (h : root ≠ t) (k : I) :
    table decode (write mem t j e) root k = table decode mem root k := by
  rw [table, table, write_of_ne _ _ _ _ _ _ h]

/-- **An entry of an existing table.** Writing entry `j` of the table of slot `i` changes the
translation of `(i, j)` alone. -/
theorem walk_write [Min P] (hself : SelfMap decode mem root r)
    (hinj : SlotsInjective decode mem root)
    (hir : i ≠ r) (ht : table decode mem root i = some t) {e : E} (i' j' : I) :
    walk decode (write mem t j e) root i' j' =
      if i' = i ∧ j' = j then
        (decode (mem root i)).bind fun s => (decode e).map fun leaf => (leaf.1, min s.2 leaf.2)
      else walk decode mem root i' j' := by
  have hroot : root ≠ t := fun h => hir (hinj i r t ht (h ▸ hself))
  split
  · next h =>
    obtain ⟨rfl, rfl⟩ := h
    obtain ⟨p, hp⟩ := table_eq_some_iff.mp ht
    simp [walk, write_of_ne _ _ _ _ _ _ hroot, hp, write_apply]
  · next h =>
    refine walk_congr (write_of_ne _ _ _ _ _ _ hroot) fun t' ht' => ?_
    rw [write_apply, if_neg]
    rintro ⟨rfl, rfl⟩
    exact h ⟨hinj i' i t' ht' ht, rfl⟩

/-- The memory after an empty table `t` was put into slot `i`. -/
def install (mem : Mem F I E) (root : F) (i : I) (entry : E) (t : F) (empty : E) : Mem F I E :=
  fill (write mem root i entry) t empty

variable {entry empty : E} {p : P}

/-- Frame `t` is neither the root nor a table. -/
def Fresh (decode : E → Option (F × P)) (mem : Mem F I E) (root t : F) : Prop :=
  t ≠ root ∧ ∀ k, table decode mem root k ≠ some t

/-- Installing a table changes one slot of the directory. -/
theorem install_root (ht : t ≠ root) (k : I) :
    install mem root i entry t empty root k = if k = i then entry else mem root k := by
  rw [install, fill_apply, if_neg (Ne.symm ht), write_apply]
  simp

/-- After an installation the slot names the new table and the others what they named. -/
theorem table_install (ht : t ≠ root) (hentry : decode entry = some (t, p)) (k : I) :
    table decode (install mem root i entry t empty) root k =
      if k = i then some t else table decode mem root k := by
  rw [table, install_root ht]
  split
  · simp [hentry]
  · rfl

/-- The directory stays its own table in the recursive slot. -/
theorem selfMap_install (hself : SelfMap decode mem root r) (hir : i ≠ r) (ht : t ≠ root)
    (hentry : decode entry = some (t, p)) :
    SelfMap decode (install mem root i entry t empty) root r := by
  rw [SelfMap, table_install ht hentry, if_neg (Ne.symm hir)]
  exact hself

/-- A fresh table keeps the directory's slots distinct. -/
theorem slotsInjective_install (hinj : SlotsInjective decode mem root)
    (hfresh : Fresh decode mem root t) (hentry : decode entry = some (t, p)) :
    SlotsInjective decode (install mem root i entry t empty) root := by
  intro k k' u hk hk'
  rw [table_install hfresh.1 hentry] at hk hk'
  split at hk <;> split at hk'
  · next h h' => rw [h, h']
  · obtain rfl := Option.some.inj hk
    exact absurd hk' (hfresh.2 k')
  · obtain rfl := Option.some.inj hk'
    exact absurd hk (hfresh.2 k)
  · exact hinj k k' u hk hk'

/-- **A new table.** Installing a fresh empty table in an absent slot keeps the translation of
every pair of indices outside the window. -/
theorem walk_install [Min P] (hself : SelfMap decode mem root r)
    (hinj : SlotsInjective decode mem root) (hfresh : Fresh decode mem root t)
    (habsent : table decode mem root i = none) (hentry : decode entry = some (t, p))
    (hempty : decode empty = none) (i' j' : I) (hir : i' ≠ r) :
    walk decode (install mem root i entry t empty) root i' j' = walk decode mem root i' j' := by
  by_cases hi : i' = i
  · subst hi
    rw [walk_of_table_none habsent, walk, install_root hfresh.1, if_pos rfl, hentry,
      Option.bind_some, install, fill_apply, if_pos rfl, hempty]
    rfl
  · refine walk_congr (by rw [install_root hfresh.1, if_neg hi]) fun u hu => ?_
    have htu : u ≠ t := fun h => hfresh.2 i' (h ▸ hu)
    have hur : u ≠ root := fun h => hir (hinj i' r u hu (h ▸ hself))
    rw [install, fill_apply, if_neg htu, write_of_ne _ _ _ _ _ _ hur]

end Walk

end RecursiveTable
