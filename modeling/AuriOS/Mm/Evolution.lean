import AuriOS.Mm.Ownership

/-!
# How the machine evolves

Whatever the heap and the page-fault handler do to the machine is a sequence of `MemoryStep`s: a
frame is taken and mapped, the allocator fails, a word is stored in a page of the heap, a variable
of the heap is set, a line is logged.  `Paging` survives every step (`Paging.step`).  Two facts
about the past:

* `DirectoryHistory`, which survives every step: the directory has changed only inside calls of
  `mmu_map_page` below the window, each of which installed at most one table, cleared, in an empty
  slot;
* `Kept`: every frame the allocator handed out still has an owner.  Mapping an absent page keeps it
  so; mapping over a page that is there loses that page's frame (`lost_backed`).
-/

namespace AuriOS

open Program RecursiveTable

/-- One change of the machine. -/
inductive MemoryStep : Machine → Machine → Prop
  /-- A frame is taken from the allocator and mapped in the heap. -/
  | back {s s' : Machine} (virt a : BitVec 32) : HeapSlot (pdIndex virt) → Backed s virt a s' →
      MemoryStep s s'
  /-- The allocator has no frame left. -/
  | noFrame {s : Machine} : s.bitmap.Full → MemoryStep s { s with trace := .alloc 0 :: s.trace }
  /-- A word is stored in a page of the heap. -/
  | store {s : Machine} (va w : BitVec 32) (f : BitVec 20) : s.owner (pageOwner va) = some f →
      MemoryStep s (s.stored va f w)
  | vars {s : Machine} (heapEnd head : BitVec 32) :
      MemoryStep s { s with heapEnd := heapEnd, head := head }
  | klog {s : Machine} (level msg : String) :
      MemoryStep s { s with trace := .klog level msg :: s.trace }

/-- A sequence of changes. -/
def Evolves : Machine → Machine → Prop := Relation.ReflTransGen MemoryStep

section Step

variable {s s' : Machine}

/-- Every step keeps the tables as they should be. -/
theorem Paging.step (h : Paging s) (hstep : MemoryStep s s') : Paging s' := by
  cases hstep with
  | back virt a _ hb => exact hb.paging
  | noFrame _ => exact h.record _
  | store va w f hf => exact h.stored hf w
  | vars heapEnd head => exact h.of_tables rfl rfl rfl (fun _ hf => hf) rfl fun _ he => he
  | klog level msg => exact h.record _

/-- Every run keeps the tables as they should be. -/
theorem Paging.evolves (h : Paging s) (hev : Evolves s s') : Paging s' :=
  run_invariant Paging hev h Paging.step

/-- No step changes `kernel_directory`. -/
theorem kernelDirectory_step (hstep : MemoryStep s s') :
    s'.kernelDirectory = s.kernelDirectory := by
  cases hstep with
  | back virt a _ hb => exact hb.kernelDirectory_eq
  | _ => rfl

/-- No run changes `kernel_directory`. -/
theorem kernelDirectory_evolves (hev : Evolves s s') : s'.kernelDirectory = s.kernelDirectory :=
  run_invariant (fun t => t.kernelDirectory = s.kernelDirectory) hev rfl
    fun h hstep => (kernelDirectory_step hstep).trans h

/-- No step changes the directory's frame. -/
theorem root_step (hstep : MemoryStep s s') : s'.root = s.root :=
  congrArg frameOf (kernelDirectory_step hstep)

/-- No run changes the directory's frame. -/
theorem root_evolves (hev : Evolves s s') : s'.root = s.root :=
  congrArg frameOf (kernelDirectory_evolves hev)

/-- What is recorded stays recorded. -/
theorem trace_step (hstep : MemoryStep s s') : ∃ evs, s'.trace = evs ++ s.trace := by
  cases hstep with
  | back virt a _ hb =>
    obtain ⟨c, evs, htrace, -⟩ := hb.trace
    exact ⟨.mapPage c :: (evs ++ [.alloc a]), by rw [htrace]; simp⟩
  | noFrame _ => exact ⟨[_], rfl⟩
  | store va w f _ => exact ⟨[_], rfl⟩
  | vars heapEnd head => exact ⟨[], rfl⟩
  | klog level msg => exact ⟨[_], rfl⟩

/-- A run only adds to the record. -/
theorem trace_evolves (hev : Evolves s s') : ∃ evs, s'.trace = evs ++ s.trace := by
  induction hev with
  | refl => exact ⟨[], rfl⟩
  | tail _ hstep ih =>
    obtain ⟨evs, hevs⟩ := ih
    obtain ⟨evs', hevs'⟩ := trace_step hstep
    exact ⟨evs' ++ evs, by rw [hevs', hevs, List.append_assoc]⟩

/-- A full bitmap stays full. -/
theorem full_step (hstep : MemoryStep s s') (h : s.bitmap.Full) : s'.bitmap.Full := by
  cases hstep with
  | back virt a _ hb =>
    obtain ⟨bm, halloc, -⟩ := hb.bitmap
    exact absurd h halloc.not_full
  | _ => exact h

/-- A full bitmap stays full. -/
theorem full_evolves (hev : Evolves s s') (h : s.bitmap.Full) : s'.bitmap.Full :=
  run_invariant (fun t => t.bitmap.Full) hev h fun h hstep => full_step hstep h

end Step

/-! ### The directory's history -/

/-- A call of `mmu_map_page` below the window that left the directory in frame `root` alone, or
put a new table into an empty slot: cleared, but for the entry of the mapped page. -/
structure InstallsAtMost (root : BitVec 20) (c : MapCall) : Prop where
  below_window : c.virtAddr < 0xFFC00000
  slots : ∀ k, c.after root k = c.before root k ∨
    (k = pdIndex c.virtAddr ∧ table decodeEntry c.before root k = none ∧
      ∃ t, table decodeEntry c.after root k = some t ∧
        ∀ j, j ≠ ptIndex c.virtAddr → c.after t j = 0)

/-- From the record `t₀` and the directory `d₀` on, the directory has changed in calls of
`mmu_map_page` only. -/
inductive DirectoryHistory (root : BitVec 20) (t₀ : List Event) (d₀ : BitVec 10 → BitVec 32) :
    List Event → (BitVec 10 → BitVec 32) → Prop
  | start : DirectoryHistory root t₀ d₀ t₀ d₀
  | call {t : List Event} {c : MapCall} : DirectoryHistory root t₀ d₀ t (c.before root) →
      InstallsAtMost root c → DirectoryHistory root t₀ d₀ (.mapPage c :: t) (c.after root)
  | other {t : List Event} {d : BitVec 10 → BitVec 32} {e : Event} :
      DirectoryHistory root t₀ d₀ t d → (∀ c, e ≠ .mapPage c) →
      DirectoryHistory root t₀ d₀ (e :: t) d

section History

variable {s s' : Machine} {t₀ : List Event} {d₀ : BitVec 10 → BitVec 32}

/-- Events other than mappings leave the directory's history. -/
theorem DirectoryHistory.append {root : BitVec 20} {t : List Event} {d : BitVec 10 → BitVec 32}
    (h : DirectoryHistory root t₀ d₀ t d) {evs : List Event} (hevs : ∀ c, .mapPage c ∉ evs) :
    DirectoryHistory root t₀ d₀ (evs ++ t) d := by
  induction evs with
  | nil => exact h
  | cons e evs ih =>
    exact .other (ih fun c hc => hevs c (List.mem_cons_of_mem _ hc))
      fun c hc => hevs c (hc ▸ List.mem_cons_self)

/-- A present slot keeps its entry. -/
theorem DirectoryHistory.present {root : BitVec 20} {t : List Event} {d : BitVec 10 → BitVec 32}
    (h : DirectoryHistory root t₀ d₀ t d) {k : BitVec 10} (hk : (decodeEntry (d₀ k)).isSome) :
    d k = d₀ k := by
  induction h with
  | start => rfl
  | @call t c _ hc ih =>
    rcases hc.slots k with hsame | ⟨-, habsent, -⟩
    · rw [hsame, ih]
    · rw [table_eq_none_iff, ih] at habsent
      rw [habsent] at hk
      exact absurd hk (by simp)
  | other _ _ ih => exact ih

/-- The events of a `Backed` step. -/
theorem Backed.events {virt a : BitVec 32} (hb : Backed s virt a s') :
    ∃ c evs, s'.trace = .mapPage c :: (evs ++ s.trace) ∧ c.virtAddr = virt ∧ c.before = s.mem ∧
      c.after = s'.mem ∧ (∀ c', .mapPage c' ∉ evs) ∧
      (∀ va f, .store va f ∈ evs → 0xFFC00000 ≤ va.toNat) ∧
      ∀ b, .alloc b ∈ evs → ∃ o, s'.owner o = some (frameOf b) := by
  obtain ⟨c, evs, htrace, hvirt, hbefore, hafter, hevs⟩ := hb.trace
  refine ⟨c, evs ++ [.alloc a], by rw [htrace]; simp, hvirt, hbefore, hafter, ?_, ?_, ?_⟩
  · intro c' hc'
    rcases List.mem_append.mp hc' with hc' | hc'
    · rcases hevs _ hc' with ⟨va, h⟩ | ⟨va, f, h, -⟩ | ⟨b, h, -⟩ <;> simp at h
    · simp at hc'
  · intro va f hst
    rcases List.mem_append.mp hst with hst | hst
    · rcases hevs _ hst with ⟨va', h⟩ | ⟨va', f', h, hva⟩ | ⟨b, h, -⟩
      · simp at h
      · rw [Event.store.injEq] at h
        rwa [h.1]
      · simp at h
    · simp at hst
  · intro b hal
    rcases List.mem_append.mp hal with hal | hal
    · rcases hevs _ hal with ⟨va, h⟩ | ⟨va, f, h, -⟩ | ⟨b', h, howned⟩
      · simp at h
      · simp at h
      · rw [Event.alloc.injEq] at h
        rw [h]
        exact ⟨_, howned⟩
    · rw [List.mem_singleton, Event.alloc.injEq] at hal
      exact ⟨_, hal ▸ hb.owner_page⟩

/-- Every step continues the directory's history. -/
theorem directoryHistory_step (h : Paging s) (hstep : MemoryStep s s')
    (hist : DirectoryHistory s.root t₀ d₀ s.trace (s.mem s.root)) :
    DirectoryHistory s'.root t₀ d₀ s'.trace (s'.mem s'.root) := by
  rw [root_step hstep]
  cases hstep with
  | back virt a hvirt hb =>
    have hroot : s'.root = s.root := congrArg frameOf hb.kernelDirectory_eq
    obtain ⟨c, evs, htrace, rfl, hbefore, hafter, hmap, -⟩ := hb.events
    rw [htrace, ← hafter]
    refine .call ?_ ⟨pdIndex_ne_window.mp hvirt.2, fun k => ?_⟩
    · rw [hbefore]
      exact hist.append hmap
    · rw [hbefore, hafter]
      rcases hb.directory k with hsame | ⟨hk, habsent, t, ht, hempty⟩
      · exact Or.inl hsame
      · refine Or.inr ⟨hk, habsent, t, ?_, hempty⟩
        rw [← hroot]
        exact ht
  | noFrame _ => exact .other hist (by simp)
  | store va w f hf =>
    have hne := (leaf_ne h.recursive.selfMap h.exclusive hf).1
    have hmem : (s.stored va f w).mem s.root = s.mem s.root := by
      funext k
      exact write_of_ne _ _ _ _ _ _ hne
    rw [hmem]
    exact .other hist (by simp)
  | vars heapEnd head => exact hist
  | klog level msg => exact .other hist (by simp)

/-- Every run continues the directory's history. -/
theorem directoryHistory_evolves (h : Paging s) (hev : Evolves s s')
    (hist : DirectoryHistory s.root t₀ d₀ s.trace (s.mem s.root)) :
    DirectoryHistory s'.root t₀ d₀ s'.trace (s'.mem s'.root) := by
  induction hev with
  | refl => exact hist
  | tail hev hstep ih => exact directoryHistory_step (h.evolves hev) hstep ih

end History

/-! ### The fate of frames -/

/-- Every frame the allocator handed out has an owner. -/
def Kept (s : Machine) : Prop :=
  ∀ a, .alloc a ∈ s.trace → a ≠ 0 → ∃ o, s.owner o = some (frameOf a)

section Fate

variable {s s' : Machine}

/-- Mapping a new frame loses none when the page had none. -/
theorem kept_backed {virt a : BitVec 32} (hb : Backed s virt a s') (hk : Kept s)
    (habsent : s.owner (pageOwner virt) = none) : Kept s' := by
  obtain ⟨c, evs, htrace, -, -, -, -, -, halloc⟩ := hb.events
  intro b hb' hb0
  rw [htrace] at hb'
  rcases List.mem_cons.mp hb' with h | hb'
  · simp at h
  · rcases List.mem_append.mp hb' with hb' | hb'
    · exact halloc b hb'
    · obtain ⟨o, ho⟩ := hk b hb' hb0
      refine ⟨o, hb.owner_mono o _ ?_ ho⟩
      rintro rfl
      rw [habsent] at ho
      exact absurd ho (by simp)

/-- Mapping a new frame at a page that has one loses that one. -/
theorem lost_backed {virt a : BitVec 32} {f : BitVec 20} (h : Paging s) (hb : Backed s virt a s')
    (hf : s.owner (pageOwner virt) = some f) (o : Owner (BitVec 10)) : s'.owner o ≠ some f := by
  have hroot : s'.root = s.root := congrArg frameOf hb.kernelDirectory_eq
  -- every other owner had its frame before
  have hold : ∀ o', o' ≠ pageOwner virt → s.owner o' ≠ some f :=
    fun o' hne ho' => hne (h.exclusive _ _ f ho' hf)
  cases o with
  | root =>
    have hsame : s'.owner .root = s.owner .root := congrArg some hroot
    rw [hsame]
    exact hold _ (by simp [pageOwner])
  | table k =>
    by_cases hk : k = 1023
    · rw [hk]
      exact Option.some_ne_none f ∘ Eq.symm
    · have hslots : s'.mem s.root k = s.mem s.root k := by
        refine (hb.directory k).resolve_right ?_
        rintro ⟨rfl, hnone, -⟩
        obtain ⟨-, t, ht⟩ := table_of_owner_leaf hf
        exact absurd (hnone.symm.trans ht) (by simp)
      have hsame : s'.table k = s.table k := by
        rw [Machine.table, Machine.table, RecursiveTable.table, RecursiveTable.table, hroot, hslots]
      rw [owner_table hk, hsame, ← owner_table hk]
      exact hold _ (by simp [pageOwner])
  | leaf i j =>
    by_cases hij : .leaf i j = pageOwner virt
    · obtain ⟨bm, halloc, -⟩ := hb.bitmap
      rw [hij, hb.owner_page]
      exact fun hc => halloc.frame_ne (h.used _ _ hf) (Option.some.inj hc)
    · rw [hb.owner_leaf i j hij]
      exact hold _ hij

end Fate

end AuriOS
