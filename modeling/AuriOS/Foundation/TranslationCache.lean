import Mathlib

/-!
# Translation caches

A processor translates pages by tables in memory and may keep what it has looked up.  At any moment
it may look up a page that is present, or forget one; a page is forgotten for certain when it is
flushed.  A program writes memory and flushes pages.

A translation *lingers* when it was in force at some moment of the program and its page was not
flushed afterwards.  These are exactly the entries that the cache may end with (`exec_cache`,
`exec_of_lingers`), so a program keeps the cache coherent, whatever is looked up, exactly when
nothing lingers but what is in force in the end (`coherent_iff`).
-/

namespace TranslationCache

variable {M P T : Type}

/-- What a program does. -/
inductive Op (M P : Type)
  | write (mem : M)
  | flush (p : P)

/-- Memory, and the translations kept. -/
structure State (M P T : Type) where
  mem : M
  cache : P → Option T

/-- Memory after a program. -/
def memAfter : M → List (Op M P) → M
  | mem, [] => mem
  | _, .write mem :: ops => memAfter mem ops
  | mem, .flush _ :: ops => memAfter mem ops

/-- The memory after two lists of operations in sequence. -/
theorem memAfter_append (mem : M) (ops ops' : List (Op M P)) :
    memAfter mem (ops ++ ops') = memAfter (memAfter mem ops) ops' := by
  induction ops generalizing mem with
  | nil => rfl
  | cons op ops ih =>
    cases op with
    | write mem' => exact ih mem'
    | flush q => exact ih mem

-- the tables: the translation of each page, if it is present
variable (translate : M → P → Option T)

/-- Every entry is the translation in force. -/
def Coherent (c : State M P T) : Prop := ∀ p x, c.cache p = some x → translate c.mem p = some x

/-! ### What lingers -/

/-- A page is not flushed by a program. -/
def Unflushed (p : P) (ops : List (Op M P)) : Prop := ∀ q, Op.flush q ∈ ops → q ≠ p

/-- A translation in force at some moment of a program after which its page is not flushed. -/
def Lingers (p : P) (x : T) : M → List (Op M P) → Prop
  | mem, [] => translate mem p = some x
  | mem, .write mem' :: ops => (translate mem p = some x ∧ Unflushed p ops) ∨ Lingers p x mem' ops
  | mem, .flush q :: ops =>
      (translate mem p = some x ∧ Unflushed p (.flush q :: ops)) ∨ Lingers p x mem ops

/-- The memories of a program, one after the other. -/
def moments : M → List (Op M P) → List M
  | mem, [] => [mem]
  | mem, .write mem' :: ops => mem :: moments mem' ops
  | mem, .flush _ :: ops => moments mem ops

section Lingering

variable {translate} {ops : List (Op M P)} {mem mem' : M} {p : P} {x : T}

/-- A translation that memory gives now lingers until it is flushed. -/
theorem lingers_now (h : translate mem p = some x) (hops : Unflushed p ops) :
    Lingers translate p x mem ops := by
  cases ops with
  | nil => exact h
  | cons op ops =>
    cases op with
    | write mem' => exact Or.inl ⟨h, fun q hq => hops q (List.mem_cons_of_mem _ hq)⟩
    | flush q => exact Or.inl ⟨h, hops⟩

/-- The memory before the operations is one of its moments. -/
theorem mem_moments (mem : M) (ops : List (Op M P)) : mem ∈ moments mem ops := by
  induction ops with
  | nil => exact List.mem_singleton_self mem
  | cons op ops ih =>
    cases op with
    | write mem' => exact List.mem_cons_self
    | flush q => exact ih

/-- What lingers was in force at some moment. -/
theorem exists_moment_of_lingers (h : Lingers translate p x mem ops) :
    ∃ mem' ∈ moments mem ops, translate mem' p = some x := by
  induction ops generalizing mem with
  | nil => exact ⟨mem, mem_moments mem [], h⟩
  | cons op ops ih =>
    cases op with
    | write mem' =>
      rcases h with ⟨hnow, -⟩ | hlater
      · exact ⟨mem, mem_moments mem _, hnow⟩
      · obtain ⟨m, hm, htranslate⟩ := ih hlater
        exact ⟨m, List.mem_cons_of_mem mem hm, htranslate⟩
    | flush q =>
      rcases h with ⟨hnow, -⟩ | hlater
      · exact ⟨mem, mem_moments mem _, hnow⟩
      · exact ih hlater

/-- What lingers after a flush of its page is in force. -/
theorem lingers_flush_last (ops : List (Op M P))
    (h : Lingers translate p x mem (ops ++ [.flush p])) :
    translate (memAfter mem (ops ++ [.flush p])) p = some x := by
  have hflushed : ∀ ops : List (Op M P), ¬ Unflushed p (ops ++ [.flush p]) := fun ops hops =>
    hops p (List.mem_append_right ops (List.mem_singleton_self _)) rfl
  induction ops generalizing mem with
  | nil =>
    rcases h with ⟨-, hops⟩ | hlater
    · exact absurd hops (hflushed [])
    · exact hlater
  | cons op ops ih =>
    cases op with
    | write mem' =>
      rcases h with ⟨-, hops⟩ | hlater
      · exact absurd hops (hflushed ops)
      · exact ih hlater
    | flush q =>
      rcases h with ⟨-, hops⟩ | hlater
      · exact absurd hops (hflushed (.flush q :: ops))
      · exact ih hlater

/-- Every moment is the first one or begins with a write. -/
theorem moment_cases (h : mem' ∈ moments mem ops) : mem' = mem ∨ Op.write mem' ∈ ops := by
  induction ops generalizing mem with
  | nil => exact Or.inl (List.mem_singleton.mp h)
  | cons op ops ih =>
    cases op with
    | write m =>
      rcases List.mem_cons.mp h with rfl | h
      · exact Or.inl rfl
      · rcases ih h with rfl | hwrite
        · exact Or.inr List.mem_cons_self
        · exact Or.inr (List.mem_cons_of_mem _ hwrite)
    | flush q => exact (ih h).imp_right (List.mem_cons_of_mem _)

/-- Memory after a program is the first memory, or one that was written. -/
theorem memAfter_cases (mem : M) (ops : List (Op M P)) :
    (memAfter mem ops = mem ∧ ∀ m ∈ moments mem ops, m = mem) ∨
      Op.write (memAfter mem ops) ∈ ops := by
  induction ops generalizing mem with
  | nil => exact Or.inl ⟨rfl, fun m hm => List.mem_singleton.mp hm⟩
  | cons op ops ih =>
    cases op with
    | write mem' =>
      rcases ih mem' with ⟨hafter, -⟩ | hwrite
      · rw [memAfter, hafter]
        exact Or.inr List.mem_cons_self
      · exact Or.inr (List.mem_cons_of_mem _ hwrite)
    | flush q => exact (ih mem).imp_right (List.mem_cons_of_mem _)

end Lingering

/-! ### Runs -/

section Exec

variable [DecidableEq P]

/-- The runs of a program, with lookups at any moment. -/
inductive Exec : List (Op M P) → State M P T → State M P T → Prop
  | done (c : State M P T) : Exec [] c c
  | fill {ops : List (Op M P)} {c c' : State M P T} {p : P} {x : T} : translate c.mem p = some x →
      Exec ops ⟨c.mem, Function.update c.cache p (some x)⟩ c' → Exec ops c c'
  | evict {ops : List (Op M P)} {c c' : State M P T} (p : P) :
      Exec ops ⟨c.mem, Function.update c.cache p none⟩ c' → Exec ops c c'
  | write {ops : List (Op M P)} {c c' : State M P T} {mem : M} :
      Exec ops ⟨mem, c.cache⟩ c' → Exec (.write mem :: ops) c c'
  | flush {ops : List (Op M P)} {c c' : State M P T} {p : P} :
      Exec ops ⟨c.mem, Function.update c.cache p none⟩ c' → Exec (.flush p :: ops) c c'

variable {translate} {c c' : State M P T} {ops : List (Op M P)} {mem : M} {p : P} {x : T}

/-- An execution changes memory as its operations alone prescribe. -/
theorem exec_mem (h : Exec translate ops c c') : c'.mem = memAfter c.mem ops := by
  induction h with
  | done c => rfl
  | fill _ _ ih => exact ih
  | evict _ _ ih => exact ih
  | write _ ih => exact ih
  | flush _ ih => exact ih

/-- An entry at the end was there from the start, or lingers. -/
theorem exec_cache (h : Exec translate ops c c') (hx : c'.cache p = some x) :
    (c.cache p = some x ∧ Unflushed p ops) ∨ Lingers translate p x c.mem ops := by
  -- an entry of an updated cache is the new one or an old one
  have hupdate : ∀ {cache : P → Option T} {q : P} {entry : Option T},
      Function.update cache q entry p = some x →
        (q = p ∧ entry = some x) ∨ (q ≠ p ∧ cache p = some x) := by
    intro cache q entry hcache
    by_cases hq : q = p
    · subst hq
      rw [Function.update_self] at hcache
      exact Or.inl ⟨rfl, hcache⟩
    · rw [Function.update_of_ne (Ne.symm hq)] at hcache
      exact Or.inr ⟨hq, hcache⟩
  induction h with
  | done c => exact Or.inl ⟨hx, fun q hq => absurd hq List.not_mem_nil⟩
  | fill htranslate _ ih =>
    rcases ih hx with ⟨hcache, hops⟩ | hlingers
    · rcases hupdate hcache with ⟨rfl, hentry⟩ | ⟨-, hold⟩
      · obtain rfl := Option.some.inj hentry
        exact Or.inr (lingers_now htranslate hops)
      · exact Or.inl ⟨hold, hops⟩
    · exact Or.inr hlingers
  | evict q _ ih =>
    rcases ih hx with ⟨hcache, hops⟩ | hlingers
    · rcases hupdate hcache with ⟨-, hentry⟩ | ⟨-, hold⟩
      · exact absurd hentry (by simp)
      · exact Or.inl ⟨hold, hops⟩
    · exact Or.inr hlingers
  | write _ ih =>
    rcases ih hx with ⟨hcache, hops⟩ | hlingers
    · refine Or.inl ⟨hcache, fun q hq => ?_⟩
      rcases List.mem_cons.mp hq with heq | hq
      · exact absurd heq (by simp)
      · exact hops q hq
    · exact Or.inr (Or.inr hlingers)
  | @flush ops c c' q _ ih =>
    rcases ih hx with ⟨hcache, hops⟩ | hlingers
    · rcases hupdate hcache with ⟨-, hentry⟩ | ⟨hq, hold⟩
      · exact absurd hentry (by simp)
      · refine Or.inl ⟨hold, fun r hr => ?_⟩
        rcases List.mem_cons.mp hr with heq | hr
        · obtain rfl := Op.flush.inj heq
          exact hq
        · exact hops r hr
    · exact Or.inr (Or.inr hlingers)

/-- Without a lookup an entry stays until it is flushed. -/
theorem exec_quiet (translate : M → P → Option T) (ops : List (Op M P)) (c : State M P T) :
    ∃ c', Exec translate ops c c' ∧ ∀ p, Unflushed p ops → c'.cache p = c.cache p := by
  induction ops generalizing c with
  | nil => exact ⟨c, .done c, fun _ _ => rfl⟩
  | cons op ops ih =>
    have hrest : ∀ {p}, Unflushed p (op :: ops) → Unflushed p ops :=
      fun hops q hq => hops q (List.mem_cons_of_mem _ hq)
    cases op with
    | write mem' =>
      obtain ⟨c', hexec, hcache⟩ := ih ⟨mem', c.cache⟩
      exact ⟨c', .write hexec, fun p hops => hcache p (hrest hops)⟩
    | flush q =>
      obtain ⟨c', hexec, hcache⟩ := ih ⟨c.mem, Function.update c.cache q none⟩
      refine ⟨c', .flush hexec, fun p hops => (hcache p (hrest hops)).trans ?_⟩
      exact Function.update_of_ne (Ne.symm (hops q List.mem_cons_self)) none c.cache

/-- What lingers may be in the cache at the end. -/
theorem exec_of_lingers (h : Lingers translate p x mem ops) (cache : P → Option T) :
    ∃ c', Exec translate ops ⟨mem, cache⟩ c' ∧ c'.cache p = some x := by
  -- a lookup now, and none afterwards
  have hnow : ∀ {mem : M} {ops : List (Op M P)} (cache : P → Option T),
      translate mem p = some x → Unflushed p ops →
        ∃ c', Exec translate ops ⟨mem, cache⟩ c' ∧ c'.cache p = some x := by
    intro mem ops cache htranslate hops
    obtain ⟨c', hexec, hcache⟩ := exec_quiet translate ops ⟨mem, Function.update cache p (some x)⟩
    exact ⟨c', .fill htranslate hexec,
      (hcache p hops).trans (Function.update_self p (some x) cache)⟩
  induction ops generalizing mem cache with
  | nil => exact hnow cache h fun q hq => absurd hq List.not_mem_nil
  | cons op ops ih =>
    cases op with
    | write mem' =>
      rcases h with ⟨htranslate, hops⟩ | hlater
      · refine hnow cache htranslate fun q hq => ?_
        rcases List.mem_cons.mp hq with heq | hq
        · exact absurd heq (by simp)
        · exact hops q hq
      · obtain ⟨c', hexec, hx⟩ := ih hlater cache
        exact ⟨c', .write hexec, hx⟩
    | flush q =>
      rcases h with ⟨htranslate, hops⟩ | hlater
      · exact hnow cache htranslate hops
      · obtain ⟨c', hexec, hx⟩ := ih hlater (Function.update cache q none)
        exact ⟨c', .flush hexec, hx⟩

/-- **Coherence.** From a coherent cache a program ends with a coherent cache, whatever is looked up
in between, exactly when nothing lingers but what is in force in the end. -/
theorem coherent_iff (h : Coherent translate c) :
    (∀ c', Exec translate ops c c' → Coherent translate c') ↔
      ∀ p x, Lingers translate p x c.mem ops → translate (memAfter c.mem ops) p = some x := by
  constructor
  · intro hall p x hlingers
    obtain ⟨c', hexec, hx⟩ := exec_of_lingers hlingers c.cache
    rw [← exec_mem hexec]
    exact hall c' hexec p x hx
  · intro hall c' hexec p x hx
    rw [exec_mem hexec]
    rcases exec_cache hexec hx with ⟨hcache, hops⟩ | hlingers
    · exact hall p x (lingers_now (h p x hcache) hops)
    · exact hall p x hlingers

end Exec

end TranslationCache
