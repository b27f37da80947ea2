import AuriOS.Foundation.FrameOwners
import AuriOS.Mm.AddressSpace

/-!
# Who owns a frame

A frame in use is the page directory, a page table, or mapped at a page between `0xD0000000` and
the recursive window.  `Paging` says that the allocator's bitmap and the tables agree on this: no
frame has two owners, owned frames are marked used, and frame 0, which doubles as the allocator's
failure value, is owned only after the allocator ran out of frames.

Frames get owners in one way: a frame is taken from the allocator and mapped by `mmu_map_page`,
both when the heap grows and when a page fault is handled.  `mapFrame_ok` is that operation,
`Backed` what it does: the one invariant `Paging` carries the directory's history, the fate of
every frame and the contents of the pages.
-/

namespace AuriOS

open Program RecursiveTable

/-- The directory slots from the start of the heap up to the window. -/
def HeapSlot (k : BitVec 10) : Prop := 0x340 ≤ k.toNat ∧ k ≠ 1023

instance : DecidablePred HeapSlot := fun _ => inferInstanceAs (Decidable (_ ∧ _))

/-- The window is no slot of the heap. -/
theorem not_heapSlot_window : ¬ HeapSlot 1023 := fun h => h.2 rfl

/-- The heap's slots are those from `HEAP_START` to the window. -/
theorem heapSlot_iff {va : BitVec 32} :
    HeapSlot (pdIndex va) ↔ heapStart ≤ va ∧ va < 0xFFC00000 := by
  have hstart : heapStart.toNat = 0xD0000000 := rfl
  rw [HeapSlot, ← pdIndex_ne_window, BitVec.le_def, hstart, pdIndex_toNat]
  refine and_congr_left fun _ => ?_
  omega

/-- The owner of the page of an address. -/
def pageOwner (va : BitVec 32) : Owner (BitVec 10) := .leaf (pdIndex va) (ptIndex va)

namespace Machine

/-- The frame of an owner. -/
def owner (s : Machine) : Owner (BitVec 10) → Option (BitVec 20) :=
  RecursiveTable.owner decodeEntry HeapSlot 1023 s.mem s.root

end Machine

/-- The owner of a heap page has the frame that the walk finds. -/
theorem owner_pageOwner {s : Machine} {va : BitVec 32} (h : HeapSlot (pdIndex va)) :
    s.owner (pageOwner va) = (walk s.mem s.root va).map Prod.fst :=
  if_pos h

/-- The owner of a slot has the table that the directory names. -/
theorem owner_table {s : Machine} {k : BitVec 10} (h : k ≠ 1023) :
    s.owner (.table k) = s.table k :=
  if_neg h

/-- Two addresses have one owner exactly when they are in one page. -/
theorem pageOwner_eq_iff {va va' : BitVec 32} :
    pageOwner va = pageOwner va' ↔ va.toNat / pageSize = va'.toNat / pageSize := by
  rw [← page_eq_iff, pageOwner, pageOwner, Owner.leaf.injEq]

/-! ### The allocator -/

section Allocated

variable {bm bm' : Bitmap} {a : BitVec 32}

/-- With a free frame the bitmap is not full. -/
theorem Bitmap.IsFree.not_full {f : ℕ} (h : bm.IsFree f) : ¬ bm.Full := by
  intro hfull
  have hused := hfull f h.1
  rw [h.2] at hused
  exact absurd hused (by simp)

/-- The frame that was taken was free. -/
theorem Allocated.isFree (h : Allocated bm a bm') : bm.IsFree (frameOf a).toNat :=
  Bitmap.isFree_iff.mpr h.free

/-- A frame is only taken when the bitmap is not full. -/
theorem Allocated.not_full (h : Allocated bm a bm') : ¬ bm.Full := h.isFree.not_full

/-- The allocator does not hand out a frame that is used. -/
theorem Allocated.frame_ne (h : Allocated bm a bm') {f : BitVec 20}
    (hf : bm.used f.toNat = true) : frameOf a ≠ f := by
  rintro rfl
  rw [h.free] at hf
  exact absurd hf (by simp)

/-- Taking a frame sets none free. -/
theorem Allocated.used_mono (h : Allocated bm a bm') {f : ℕ} (hf : bm.used f = true) :
    bm'.used f = true :=
  (h.used_eq f).mpr (Or.inl hf)

end Allocated

/-! ### The invariant -/

/-- The tables and the allocator agree on the frames in use. -/
structure Paging (s : Machine) : Prop where
  recursive : Recursive s
  exclusive : Exclusive s.owner
  /-- Owned frames are marked used. -/
  used : ∀ o f, s.owner o = some f → s.bitmap.used f.toNat = true
  zero_used : s.bitmap.used 0 = true
  /-- Frame 0 is owned only after the allocator ran out. -/
  owner_zero : ∀ o, s.owner o = some 0 → .alloc 0 ∈ s.trace ∧ s.bitmap.Full
  /-- Heap pages are writable. -/
  table_writable : ∀ k t p, HeapSlot k → decodeEntry (s.mem s.root k) = some (t, p) →
    p.writable = true
  leaf_writable : ∀ va f p, HeapSlot (pdIndex va) → walk s.mem s.root va = some (f, p) →
    p.writable = true

section Paging

variable {s : Machine}

/-- A frame that is not used has no owner. -/
theorem Paging.not_owned (h : Paging s) {f : BitVec 20} (hf : s.bitmap.used f.toNat = false)
    (o : Owner (BitVec 10)) : s.owner o ≠ some f := by
  intro ho
  rw [h.used o f ho] at hf
  exact absurd hf (by simp)

/-- While a frame is free, frame 0 has no owner. -/
theorem Paging.zero_not_owned (h : Paging s) {f : ℕ} (hf : s.bitmap.IsFree f)
    (o : Owner (BitVec 10)) : s.owner o ≠ some 0 := by
  intro ho
  exact hf.not_full (h.owner_zero o ho).2

/-- After the boot only the directory and the first table have frames. -/
theorem Booted.owner_cases {t : BitVec 20} (h : Booted s t) {o : Owner (BitVec 10)} {f : BitVec 20}
    (ho : s.owner o = some f) : (o = .root ∧ f = s.root) ∨ (o = .table 0 ∧ f = t) := by
  cases o with
  | root => exact Or.inl ⟨rfl, (Option.some.inj ho).symm⟩
  | table k =>
    rw [Machine.owner, RecursiveTable.owner] at ho
    split at ho
    · exact absurd ho (by simp)
    · next hk =>
      obtain ⟨p, hp⟩ := table_eq_some_iff.mp ho
      by_cases hk0 : k = 0
      · rw [hk0, h.slot_zero] at hp
        exact Or.inr ⟨by rw [hk0], (Prod.mk.inj (Option.some.inj hp)).1.symm⟩
      · rw [h.slot_absent k hk0 hk] at hp
        exact absurd hp (by simp)
  | leaf i j =>
    obtain ⟨hi, t', ht'⟩ := table_of_owner_leaf ho
    obtain ⟨p, hp⟩ := table_eq_some_iff.mp ht'
    have hi0 : i ≠ 0 := by
      rintro rfl
      exact absurd hi.1 (by decide)
    rw [h.slot_absent i hi0 hi.2] at hp
    exact absurd hp (by simp)

/-- After the boot no heap page has a frame. -/
theorem Booted.owner_leaf_none {t : BitVec 20} (h : Booted s t) (i j : BitVec 10) :
    s.owner (.leaf i j) = none := by
  rw [Option.eq_none_iff_forall_ne_some]
  intro f hf
  rcases h.owner_cases hf with ⟨hc, -⟩ | ⟨hc, -⟩ <;> exact absurd hc (by simp)

/-- After boot the directory and the first table are owned. -/
theorem Booted.paging {t : BitVec 20} (h : Booted s t) : Paging s where
  recursive := h.recursive
  exclusive := by
    intro o o' f ho ho'
    rcases h.owner_cases ho with ⟨rfl, hf⟩ | ⟨rfl, hf⟩ <;>
      rcases h.owner_cases ho' with ⟨rfl, hf'⟩ | ⟨rfl, hf'⟩
    · rfl
    · exact absurd (hf'.symm.trans hf) h.table_ne_root
    · exact absurd (hf.symm.trans hf') h.table_ne_root
    · rfl
  used := by
    intro o f ho
    rcases h.owner_cases ho with ⟨-, rfl⟩ | ⟨-, rfl⟩
    · exact h.root_used
    · exact h.table_used
  zero_used := h.zero_used
  owner_zero := by
    intro o ho
    rcases h.owner_cases ho with ⟨-, hf⟩ | ⟨-, hf⟩
    · exact absurd hf.symm h.root_ne_zero
    · exact absurd hf.symm h.table_ne_zero
  table_writable := by
    intro k u p hk hp
    have hk0 : k ≠ 0 := by
      rintro rfl
      exact absurd hk.1 (by decide)
    rw [h.slot_absent k hk0 hk.2] at hp
    exact absurd hp (by simp)
  leaf_writable := by
    intro va f p hva hp
    obtain ⟨-, hlt⟩ := heapSlot_iff.mp hva
    have hge := (heapSlot_iff.mp hva).1
    rw [h.walk_eq hlt, if_neg] at hp
    · exact absurd hp (by simp)
    · rw [BitVec.le_def] at hge
      have hstart : heapStart.toNat = 0xD0000000 := rfl
      omega

end Paging

/-! ### The two edits -/

section Edits

variable {s : Machine} {k : BitVec 10} {a : BitVec 32}

/-- An installed table gives its frame to the slot. -/
theorem owner_installed (h : Paging s) (hk : HeapSlot k) (habsent : s.table k = none)
    (ha : ∀ o, s.owner o ≠ some (frameOf a)) (isUser : Bool) (bm : Bitmap) (evs : List Event) :
    (s.installed k isUser a bm evs).owner =
      Function.update s.owner (.table k) (some (frameOf a)) :=
  owner_install h.recursive.selfMap h.recursive.injective ha habsent (decodeEntry_pdeWord _ _)
    decodeEntry_zero hk.2 not_heapSlot_window

/-- A new table for a slot of the heap. -/
theorem paging_installed (h : Paging s) (hk : HeapSlot k) (habsent : s.table k = none)
    (ha : ∀ o, s.owner o ≠ some (frameOf a)) {bm : Bitmap}
    (hbm : ∀ f, s.bitmap.used f = true → bm.used f = true)
    (hframes : bm.frames = s.bitmap.frames) (haused : bm.used (frameOf a).toNat = true)
    (hzero : frameOf a = 0 → a = 0 ∧ bm.Full) (isUser : Bool) (evs : List Event) :
    Paging (s.installed k isUser a bm evs) := by
  have howner := owner_installed h hk habsent ha isUser bm evs
  have hfresh := fresh_of_owner h.recursive.selfMap ha
  constructor
  case recursive => exact recursive_installed h.recursive hk.2 hfresh isUser bm evs
  case exclusive =>
    rw [howner]
    exact h.exclusive.update ha _
  case used =>
    intro o f ho
    rw [howner] at ho
    by_cases hok : o = .table k
    · rw [hok, Function.update_self] at ho
      rw [← Option.some.inj ho]
      exact haused
    · rw [Function.update_of_ne hok] at ho
      exact hbm _ (h.used o f ho)
  case zero_used => exact hbm 0 h.zero_used
  case owner_zero =>
    intro o ho
    rw [howner] at ho
    by_cases hok : o = .table k
    · rw [hok, Function.update_self] at ho
      obtain ⟨rfl, hfull⟩ := hzero (Option.some.inj ho)
      exact ⟨List.mem_append_right _ List.mem_cons_self, hfull⟩
    · rw [Function.update_of_ne hok] at ho
      obtain ⟨hmem, hfull⟩ := h.owner_zero o ho
      refine ⟨List.mem_append_right _ (List.mem_cons_of_mem _ hmem), fun f hf => hbm f (hfull f ?_)⟩
      rwa [← hframes]
  case table_writable =>
    intro k' t p hk' hp
    replace hp : decodeEntry (install s.mem s.root k (pdeWord (frameOf a) isUser) (frameOf a) 0
      s.root k') = some (t, p) := hp
    rw [install_root hfresh.1] at hp
    split at hp
    · rw [decodeEntry_pdeWord] at hp
      rw [← (Prod.mk.inj (Option.some.inj hp)).2]
    · exact h.table_writable k' t p hk' hp
  case leaf_writable =>
    intro va f p hva hp
    refine h.leaf_writable va f p hva ?_
    rw [← hp]
    exact (walk_install h.recursive.selfMap h.recursive.injective hfresh habsent
      (decodeEntry_pdeWord _ _) decodeEntry_zero _ _ hva.2).symm

/-- A mapped page gives its frame to the page. -/
theorem owner_mapped {t : BitVec 20} (phys : BitVec 32) {virt : BitVec 32} (h : Paging s)
    (hk : HeapSlot (pdIndex virt)) (ht : s.table (pdIndex virt) = some t)
    (isWriteable isUser : Bool) (before : PhysMem) :
    (s.mapped t phys virt isWriteable isUser before).owner =
      Function.update s.owner (pageOwner virt) (some (frameOf phys)) :=
  owner_write h.recursive.selfMap h.recursive.injective hk.2 hk ht (decodeEntry_pteWord _ _ _)

/-- A frame without an owner, mapped at a page of the heap. -/
theorem paging_mapped {t : BitVec 20} {phys virt : BitVec 32} (h : Paging s)
    (hk : HeapSlot (pdIndex virt)) (ht : s.table (pdIndex virt) = some t)
    (hphys : ∀ o, s.owner o ≠ some (frameOf phys))
    (hused : s.bitmap.used (frameOf phys).toNat = true) (hphys0 : frameOf phys ≠ 0) (isUser : Bool)
    (before : PhysMem) : Paging (s.mapped t phys virt true isUser before) := by
  have howner := owner_mapped phys h hk ht true isUser before
  have hroot := table_ne_root h.recursive hk.2 ht
  constructor
  case recursive => exact recursive_mapped h.recursive hk.2 ht phys true isUser before
  case exclusive =>
    rw [howner]
    exact h.exclusive.update hphys _
  case used =>
    intro o f ho
    rw [howner] at ho
    by_cases hok : o = pageOwner virt
    · rw [hok, Function.update_self] at ho
      rw [← Option.some.inj ho]
      exact hused
    · rw [Function.update_of_ne hok] at ho
      exact h.used o f ho
  case zero_used => exact h.zero_used
  case owner_zero =>
    intro o ho
    rw [howner] at ho
    by_cases hok : o = pageOwner virt
    · rw [hok, Function.update_self] at ho
      exact absurd (Option.some.inj ho) hphys0
    · rw [Function.update_of_ne hok] at ho
      obtain ⟨hmem, hfull⟩ := h.owner_zero o ho
      exact ⟨List.mem_append_right _ hmem, hfull⟩
  case table_writable =>
    intro k t' p hk' hp
    refine h.table_writable k t' p hk' ?_
    rw [← hp]
    exact congrArg decodeEntry (write_of_ne _ _ _ _ _ _ hroot).symm
  case leaf_writable =>
    intro va f p hva hp
    have hwalk := walk_write h.recursive.selfMap h.recursive.injective hk.2 ht
      (e := pteWord (frameOf phys) true isUser) (j := ptIndex virt) (pdIndex va) (ptIndex va)
    replace hp := hwalk.symm.trans hp
    split at hp
    · obtain ⟨q, hq⟩ := table_eq_some_iff.mp ht
      rw [show decodeEntry (s.mem s.root (pdIndex virt)) = some (t, q) from hq,
        decodeEntry_pteWord] at hp
      rw [← (Prod.mk.inj (Option.some.inj hp)).2]
      have := h.table_writable _ _ _ hk hq
      change (q.writable && true) = true
      rw [this]
      rfl
    · exact h.leaf_writable va f p hva hp

end Edits

/-! ### Changes elsewhere in the machine -/

section Elsewhere

variable {s s' : Machine}

/-- `Paging` depends on the tables, on the used frames, and on what was recorded. -/
theorem Paging.of_tables (h : Paging s) (hmem : s'.mem = s.mem)
    (hkd : s'.kernelDirectory = s.kernelDirectory) (hcr3 : s'.cr3 = s.cr3)
    (hused : ∀ f, s.bitmap.used f = true → s'.bitmap.used f = true)
    (hframes : s'.bitmap.frames = s.bitmap.frames) (htrace : ∀ e ∈ s.trace, e ∈ s'.trace) :
    Paging s' := by
  have hroot : s'.root = s.root := congrArg frameOf hkd
  have howner : s'.owner = s.owner := by rw [Machine.owner, Machine.owner, hmem, hroot]
  refine ⟨⟨?_, ?_, ?_⟩, ?_, ?_, hused 0 h.zero_used, ?_, ?_, ?_⟩
  · rw [hcr3, hkd]
    exact h.recursive.cr3_eq
  · rw [hmem, hroot]
    exact h.recursive.selfMap
  · rw [hmem, hroot]
    exact h.recursive.injective
  · rw [howner]
    exact h.exclusive
  · rw [howner]
    exact fun o f ho => hused _ (h.used o f ho)
  · rw [howner]
    intro o ho
    obtain ⟨hmem, hfull⟩ := h.owner_zero o ho
    exact ⟨htrace _ hmem, fun f hf => hused f (hfull f (by rwa [← hframes]))⟩
  · rw [hmem, hroot]
    exact h.table_writable
  · rw [hmem, hroot]
    exact h.leaf_writable

/-- The allocator's answer 0 changes nothing but the record. -/
theorem Paging.record (h : Paging s) (e : Event) : Paging { s with trace := e :: s.trace } :=
  h.of_tables rfl rfl rfl (fun _ hf => hf) rfl fun _ he => List.mem_cons_of_mem _ he

/-- The state after `pmm_alloc_frame` returned `a`. -/
theorem Paging.allocated (h : Paging s) {a : BitVec 32} {bm : Bitmap}
    (ha : Allocated s.bitmap a bm) :
    Paging { s with bitmap := bm, trace := .alloc a :: s.trace } :=
  h.of_tables rfl rfl rfl (fun _ hf => ha.used_mono hf) ha.frames_eq
    fun _ he => List.mem_cons_of_mem _ he

/-- A store into a page of the heap. -/
theorem Paging.stored (h : Paging s) {va : BitVec 32} {f : BitVec 20} {i j : BitVec 10}
    (hf : s.owner (.leaf i j) = some f) (w : BitVec 32) : Paging (s.stored va f w) := by
  have hself := h.recursive.selfMap
  obtain ⟨hroot, -⟩ := leaf_ne hself h.exclusive hf
  have howner : (s.stored va f w).owner = s.owner := owner_store hself h.exclusive hf _ _
  have hslot : ∀ k, (s.stored va f w).mem s.root k = s.mem s.root k :=
    fun k => write_of_ne _ _ _ _ _ _ hroot
  have htable : ∀ k, RecursiveTable.table decodeEntry (s.stored va f w).mem s.root k =
      RecursiveTable.table decodeEntry s.mem s.root k :=
    table_write_of_ne hroot
  refine ⟨⟨h.recursive.cr3_eq, (htable 1023).trans hself, ?_⟩, ?_, ?_, h.zero_used, ?_, ?_, ?_⟩
  · intro k k' t ht ht'
    exact h.recursive.injective k k' t ((htable k).symm.trans ht) ((htable k').symm.trans ht')
  · rw [howner]
    exact h.exclusive
  · rw [howner]
    exact h.used
  · rw [howner]
    intro o ho
    obtain ⟨hmem, hfull⟩ := h.owner_zero o ho
    exact ⟨List.mem_cons_of_mem _ hmem, hfull⟩
  · intro k t p hk hp
    exact h.table_writable k t p hk ((congrArg decodeEntry (hslot k)).symm.trans hp)
  · intro va' g p hva hp
    exact h.leaf_writable va' g p hva
      ((walk_store hself h.exclusive hf _ _ _ _).symm.trans hp)

end Elsewhere

/-! ### Mapping a new frame -/

/-- What it does to take the frame at `a` from the allocator and map it at `virt`. -/
structure Backed (s : Machine) (virt a : BitVec 32) (s' : Machine) : Prop where
  paging : Paging s'
  kernelDirectory_eq : s'.kernelDirectory = s.kernelDirectory
  heapEnd_eq : s'.heapEnd = s.heapEnd
  head_eq : s'.head = s.head
  owner_page : s'.owner (pageOwner virt) = some (frameOf a)
  /-- Only the page itself can lose a frame. -/
  owner_mono : ∀ o f, o ≠ pageOwner virt → s.owner o = some f → s'.owner o = some f
  owner_leaf : ∀ i j, .leaf i j ≠ pageOwner virt → s'.owner (.leaf i j) = s.owner (.leaf i j)
  /-- Besides frame 0, only frames that were free get an owner. -/
  owner_new : ∀ o f, s'.owner o = some f →
    s.owner o = some f ∨ s.bitmap.used f.toNat = false ∨ f = 0
  /-- What is mapped already keeps its contents. -/
  mem_leaf : ∀ i j f, s.owner (.leaf i j) = some f → s'.mem f = s.mem f
  /-- Of the frames in use only the directory and the table of the page are written, and frame 0
  when there is no frame left. -/
  mem_used : ∀ f, s.bitmap.used f.toNat = true → f ≠ s.root → s.table (pdIndex virt) ≠ some f →
    (f = 0 → ¬ s'.bitmap.Full) → s'.mem f = s.mem f
  /-- The directory changes in one slot at most, which was empty and gets a new table, empty but
  for the entry of the page. -/
  directory : ∀ k, s'.mem s.root k = s.mem s.root k ∨
    (k = pdIndex virt ∧ s.table k = none ∧
      ∃ t, s'.table k = some t ∧ ∀ j, j ≠ ptIndex virt → s'.mem t j = 0)
  /-- Besides the frame at `a` only a table for an empty slot is taken from the allocator. -/
  bitmap : ∃ bm, Allocated s.bitmap a bm ∧
    (((∃ t, s.table (pdIndex virt) = some t) ∧ s'.bitmap = bm) ∨
      (s.table (pdIndex virt) = none ∧ ∃ b, pmmAllocFrame bm = .ok (b, s'.bitmap)))
  /-- The call of `mmu_map_page` is recorded, and nothing else but its allocation of a table and
  accesses to the window. -/
  trace : ∃ c evs, s'.trace = .mapPage c :: (evs ++ .alloc a :: s.trace) ∧
    c.virtAddr = virt ∧ c.before = s.mem ∧ c.after = s'.mem ∧
    ∀ e ∈ evs, (∃ va, e = .invlpg va) ∨ (∃ va f, e = .store va f ∧ 0xFFC00000 ≤ va.toNat) ∨
      ∃ b, e = .alloc b ∧ s'.owner (.table (pdIndex virt)) = some (frameOf b)

/-- The state halfway through `mmu_map_page`: the table of slot `k` is there, in frame `t`, and the
frame at `a` still has no owner. -/
structure Ensured (s : Machine) (k : BitVec 10) (a : BitVec 32) (s₁ : Machine) (t : BitVec 20)
    (evs : List Event) : Prop where
  paging : Paging s₁
  kernelDirectory_eq : s₁.kernelDirectory = s.kernelDirectory
  heapEnd_eq : s₁.heapEnd = s.heapEnd
  head_eq : s₁.head = s.head
  table_eq : s₁.table k = some t
  not_owned : ∀ o, s₁.owner o ≠ some (frameOf a)
  used : s₁.bitmap.used (frameOf a).toNat = true
  owner_mono : ∀ o f, s.owner o = some f → s₁.owner o = some f
  owner_leaf : ∀ i j, s₁.owner (.leaf i j) = s.owner (.leaf i j)
  owner_new : ∀ o f, s₁.owner o = some f →
    s.owner o = some f ∨ s.bitmap.used f.toNat = false ∨ f = 0
  mem_leaf : ∀ i j f, s.owner (.leaf i j) = some f → s₁.mem f = s.mem f
  mem_used : ∀ f, s.bitmap.used f.toNat = true → f ≠ s.root → (f = 0 → ¬ s₁.bitmap.Full) →
    s₁.mem f = s.mem f
  directory : ∀ k', s₁.mem s.root k' = s.mem s.root k' ∨
    (k' = k ∧ s.table k' = none ∧ ∀ j, s₁.mem t j = 0)
  bitmap : ((∃ t, s.table k = some t) ∧ s₁.bitmap = s.bitmap) ∨
    (s.table k = none ∧ ∃ b, pmmAllocFrame s.bitmap = .ok (b, s₁.bitmap))
  trace_eq : s₁.trace = evs ++ s.trace
  trace : ∀ e ∈ evs, (∃ va, e = .invlpg va) ∨
    (∃ va f, e = .store va f ∧ 0xFFC00000 ≤ va.toNat) ∨
      ∃ b, e = .alloc b ∧ s₁.owner (.table k) = some (frameOf b)

section MapFrame

variable (fault : BitVec 32 → Bool → Kernel Unit) {s : Machine} {virt a : BitVec 32}

/-- What a call does in the window is a flush or a store above its start. -/
theorem WindowEvent.cases {d t : BitVec 20} {k : BitVec 10} {e : Event} (h : WindowEvent d t k e) :
    (∃ va, e = .invlpg va) ∨ ∃ va f, e = .store va f ∧ 0xFFC00000 ≤ va.toNat := by
  rcases h with ⟨va, rfl⟩ | ⟨va, f, rfl, hva⟩
  · exact Or.inl ⟨va, rfl⟩
  · exact Or.inr ⟨va, f, rfl, by omega⟩

/-- A frame the allocator hands out has no owner, and neither has frame 0 while it answers. -/
theorem Paging.fresh (h : Paging s) {b : BitVec 32} {bm : Bitmap}
    (hb : pmmAllocFrame s.bitmap = .ok (b, bm)) (hzero : ∀ o, s.owner o ≠ some 0)
    (o : Owner (BitVec 10)) : s.owner o ≠ some (frameOf b) := by
  by_cases hb0 : b = 0
  · rw [hb0]
    exact hzero o
  · exact h.not_owned (allocated_of_ne_zero hb hb0).free o

/-- **The first half of `mmu_map_page`.** -/
theorem ensured_ok (h : Paging s) (hk : HeapSlot (pdIndex virt))
    (hzero : ∀ o, s.owner o ≠ some 0) (ha : ∀ o, s.owner o ≠ some (frameOf a))
    (haused : s.bitmap.used (frameOf a).toNat = true) (ha0 : frameOf a ≠ 0) (isUser : Bool) :
    ∃ s₁ t evs, ensureTableWith fault (recursivePd + (4 : BitVec 32) * (virt >>> 22))
        ((0xFFC00000 : BitVec 32) + ((virt >>> 22) <<< 12)) isUser s = .ok ((), s₁) ∧
      Ensured s (pdIndex virt) a s₁ t evs := by
  cases ht : s.table (pdIndex virt) with
  | some t =>
    refine ⟨s, t, [], ensureTableWith_present fault h.recursive (shiftRight_pdIndex virt) ht isUser,
      h, rfl, rfl, rfl, ht, ha, haused, fun _ _ ho => ho, fun _ _ => rfl,
      fun _ _ ho => Or.inl ho, fun _ _ _ _ => rfl, fun _ _ _ _ => rfl, fun _ => Or.inl rfl,
      Or.inl ⟨⟨t, ht⟩, rfl⟩, rfl, by simp⟩
  | none =>
    obtain ⟨b, bm, hb⟩ := exists_pmmAllocFrame s.bitmap
    have hfree := h.fresh hb hzero
    have hfresh := fresh_of_owner h.recursive.selfMap hfree
    obtain ⟨evs, hrun, hevs⟩ := ensureTableWith_absent fault h.recursive (shiftRight_pdIndex virt)
      hk.2 ht hb hfresh.1 isUser
    have howner := owner_installed h hk ht hfree isUser bm evs
    -- what the allocator did to the bitmap
    have hbm : (∀ f, s.bitmap.used f = true → bm.used f = true) ∧ bm.frames = s.bitmap.frames ∧
        bm.used (frameOf b).toNat = true ∧ (frameOf b = 0 → b = 0 ∧ bm.Full) ∧
        frameOf b ≠ frameOf a ∧
        (s.bitmap.used (frameOf b).toNat = false ∨ frameOf b = 0 ∧ bm.Full) := by
      rcases pmmAllocFrame_cases s.bitmap with ⟨hfull, hok⟩ | ⟨b', bm', hok, hall⟩
      · rw [hb] at hok
        obtain ⟨rfl, rfl⟩ := Prod.mk.inj (Except.ok.inj hok)
        exact ⟨fun _ hf => hf, rfl, h.zero_used, fun _ => ⟨rfl, hfull⟩, Ne.symm ha0,
          Or.inr ⟨rfl, hfull⟩⟩
      · rw [hb] at hok
        obtain ⟨rfl, rfl⟩ := Prod.mk.inj (Except.ok.inj hok)
        refine ⟨fun _ hf => hall.used_mono hf, hall.frames_eq, (hall.used_eq _).mpr (Or.inr rfl),
          fun hb0 => absurd hb0 (hall.frame_ne h.zero_used), hall.frame_ne haused, Or.inl hall.free⟩
    obtain ⟨hmono, hframes, hused, hb0, hba, hnew⟩ := hbm
    refine ⟨_, frameOf b, evs ++ [.alloc b], hrun, ?_⟩
    constructor
    case paging => exact paging_installed h hk ht hfree hmono hframes hused hb0 isUser evs
    case kernelDirectory_eq => rfl
    case heapEnd_eq => rfl
    case head_eq => rfl
    case table_eq =>
      exact (table_install hfresh.1 (decodeEntry_pdeWord _ _) _).trans (if_pos rfl)
    case not_owned =>
      intro o
      rw [howner]
      by_cases ho : o = .table (pdIndex virt)
      · rw [ho, Function.update_self]
        exact fun hc => hba (Option.some.inj hc)
      · rw [Function.update_of_ne ho]
        exact ha o
    case used => exact hmono _ haused
    case owner_mono =>
      intro o f ho
      rw [howner, Function.update_of_ne]
      · exact ho
      · rintro rfl
        rw [owner_table hk.2, ht] at ho
        exact absurd ho (by simp)
    case owner_leaf =>
      intro i j
      rw [howner, Function.update_of_ne (by simp)]
    case owner_new =>
      intro o f ho
      rw [howner] at ho
      by_cases hok : o = .table (pdIndex virt)
      · rw [hok, Function.update_self] at ho
        obtain rfl := Option.some.inj ho
        exact Or.inr (hnew.imp_right And.left)
      · rw [Function.update_of_ne hok] at ho
        exact Or.inl ho
    case mem_used =>
      intro f hf hroot hf0
      have hfb : f ≠ frameOf b := by
        rintro rfl
        rcases hnew with hnew | ⟨hzero, hfull⟩
        · rw [hf] at hnew
          exact absurd hnew (by decide)
        · exact hf0 hzero hfull
      funext l
      change install s.mem s.root _ _ (frameOf b) 0 f l = _
      rw [install, fill_apply, if_neg hfb, write_of_ne _ _ _ _ _ _ hroot]
    case mem_leaf =>
      intro i j f ho
      have hf : f ≠ frameOf b := fun hc => hfree _ (hc ▸ ho)
      have hroot := (leaf_ne h.recursive.selfMap h.exclusive ho).1
      funext l
      change install s.mem s.root _ _ (frameOf b) 0 f l = _
      rw [install, fill_apply, if_neg hf, write_of_ne _ _ _ _ _ _ (Ne.symm hroot)]
    case directory =>
      intro k'
      by_cases hk' : k' = pdIndex virt
      · refine Or.inr ⟨hk', hk' ▸ ht, fun j => ?_⟩
        change install s.mem s.root _ _ (frameOf b) 0 (frameOf b) j = 0
        rw [install, fill_apply, if_pos rfl]
      · exact Or.inl ((install_root hfresh.1 k').trans (if_neg hk'))
    case bitmap => exact Or.inr ⟨ht, b, hb⟩
    case trace_eq =>
      rw [List.append_assoc]
      rfl
    case trace =>
      intro e he
      rcases List.mem_append.mp he with he | he
      · rcases (hevs e he).cases with hinv | hstore
        · exact Or.inl hinv
        · exact Or.inr (Or.inl hstore)
      · refine Or.inr (Or.inr ⟨b, List.mem_singleton.mp he, ?_⟩)
        rw [howner, Function.update_self]

/-- **A new frame for a page of the heap.** -/
theorem mapFrame_ok (h : Paging s) (hk : HeapSlot (pdIndex virt)) {bm : Bitmap}
    (halloc : Allocated s.bitmap a bm) :
    ∃ s', mmuMapPageWith fault a virt true false
        { s with bitmap := bm, trace := .alloc a :: s.trace } = .ok ((), s') ∧
      Backed s virt a s' := by
  have ha0 : frameOf a ≠ 0 := halloc.frame_ne h.zero_used
  have haused : bm.used (frameOf a).toNat = true := (halloc.used_eq _).mpr (Or.inr rfl)
  obtain ⟨s₁, t, evs, hensure, hs₁⟩ := ensured_ok (a := a) fault (h.allocated halloc) hk
    (h.zero_not_owned halloc.isFree) (h.not_owned halloc.free) haused ha0 false
  have hrun := mmuMapPageWith_eq fault a true hensure hs₁.paging.recursive hs₁.table_eq
  have howner := owner_mapped a hs₁.paging hk hs₁.table_eq true false s.mem
  have hroot : s₁.root = s.root := congrArg frameOf hs₁.kernelDirectory_eq
  have hne : s.root ≠ t := hroot ▸ table_ne_root hs₁.paging.recursive hk.2 hs₁.table_eq
  refine ⟨_, hrun, ?_⟩
  constructor
  case paging =>
    exact paging_mapped hs₁.paging hk hs₁.table_eq hs₁.not_owned hs₁.used ha0 false s.mem
  case kernelDirectory_eq => exact hs₁.kernelDirectory_eq
  case heapEnd_eq => exact hs₁.heapEnd_eq
  case head_eq => exact hs₁.head_eq
  case owner_page => rw [howner, Function.update_self]
  case owner_mono =>
    intro o f hne ho
    rw [howner, Function.update_of_ne hne]
    exact hs₁.owner_mono o f ho
  case owner_leaf =>
    intro i j hne
    rw [howner, Function.update_of_ne hne]
    exact hs₁.owner_leaf i j
  case owner_new =>
    intro o f ho
    rw [howner] at ho
    by_cases hok : o = pageOwner virt
    · rw [hok, Function.update_self] at ho
      obtain rfl := Option.some.inj ho
      exact Or.inr (Or.inl halloc.free)
    · rw [Function.update_of_ne hok] at ho
      refine (hs₁.owner_new o f ho).imp_right (Or.imp_left fun hfree => ?_)
      exact Bool.eq_false_of_not_eq_true fun hused =>
        Bool.false_ne_true (hfree.symm.trans (halloc.used_mono hused))
  case mem_used =>
    intro f hf hfroot htable hf0
    have hft : f ≠ t := by
      rintro rfl
      have ho : s₁.owner (.table (pdIndex virt)) = some f :=
        (owner_table hk.2).trans hs₁.table_eq
      rcases hs₁.owner_new _ _ ho with hold | hfree | rfl
      · exact htable ((owner_table hk.2).symm.trans hold)
      · exact Bool.false_ne_true (hfree.symm.trans (halloc.used_mono hf))
      · exact hf0 rfl (hs₁.paging.owner_zero _ ho).2
    refine Eq.trans ?_ (hs₁.mem_used f (halloc.used_mono hf) hfroot hf0)
    funext l
    exact write_of_ne _ _ _ _ _ _ hft
  case mem_leaf =>
    intro i j f ho
    have htf : t ≠ f := (leaf_ne hs₁.paging.recursive.selfMap hs₁.paging.exclusive
      (hs₁.owner_mono _ _ ho)).2 _ _ hs₁.table_eq
    rw [← hs₁.mem_leaf i j f ho]
    funext l
    exact write_of_ne _ _ _ _ _ _ (Ne.symm htf)
  case directory =>
    intro k
    have hslot : ∀ l, (s₁.mapped t a virt true false s.mem).mem s.root l = s₁.mem s.root l :=
      fun l => write_of_ne _ _ _ _ _ _ hne
    rcases hs₁.directory k with hsame | ⟨hk', habsent, hempty⟩
    · exact Or.inl ((hslot k).trans hsame)
    · refine Or.inr ⟨hk', habsent, t, ?_, fun j hj => ?_⟩
      · rw [hk']
        exact (table_write_of_ne (hroot ▸ hne) _).trans hs₁.table_eq
      · refine (write_apply _ _ _ _ _ _).trans ?_
        rw [if_neg fun hc => hj hc.2]
        exact hempty j
  case bitmap => exact ⟨bm, halloc, hs₁.bitmap⟩
  case trace =>
    refine ⟨⟨a, virt, true, false, s.mem, _⟩,
      .invlpg virt :: .store (entryAddr virt) t :: evs, ?_, rfl, rfl, rfl, ?_⟩
    · rw [Machine.mapped, hs₁.trace_eq]
      rfl
    · intro e he
      rcases List.mem_cons.mp he with rfl | he
      · exact Or.inl ⟨_, rfl⟩
      · rcases List.mem_cons.mp he with rfl | he
        · refine Or.inr (Or.inl ⟨_, _, rfl, ?_⟩)
          have := entryAddr_page virt
          omega
        · rcases hs₁.trace e he with hinv | hstore | ⟨b, hb, howned⟩
          · exact Or.inl hinv
          · exact Or.inr (Or.inl hstore)
          · refine Or.inr (Or.inr ⟨b, hb, ?_⟩)
            rw [howner, Function.update_of_ne (by simp [pageOwner])]
            exact howned

end MapFrame

end AuriOS
