import AuriOS.Mm.Window

/-!
# The address space

`mmu_init` builds a directory with three kinds of slots: slot 0 has the identity table of the
first 4 MiB, slot 1023 the directory itself, the others nothing (`Booted`, `mmuInit_booted`).
From there on `mmu_map_page` acts on the translation like the update of a map at one page
(`mmuMapPage_refines`), in every run in which the tables it allocates are fresh: the tables are
edited through addresses they translate themselves, and `Recursive` is what every call keeps.
-/

namespace AuriOS

open Program RecursiveTable WordBitmap

/-! ### The allocator's answer as a frame -/

/-- A non-zero answer of the allocator is the address of a frame that was free and is now used. -/
structure Allocated (bm : Bitmap) (a : BitVec 32) (bm' : Bitmap) : Prop where
  addr_toNat : a.toNat = (frameOf a).toNat * pageSize
  free : bm.used (frameOf a).toNat = false
  below : ∀ g < (frameOf a).toNat, bm.used g = true
  used_eq : ∀ g, bm'.used g = true ↔ bm.used g = true ∨ g = (frameOf a).toNat
  frames_eq : bm'.frames = bm.frames

/-- An allocation finds the bitmap full, or takes a frame. -/
theorem pmmAllocFrame_cases (bm : Bitmap) :
    (bm.Full ∧ pmmAllocFrame bm = .ok (0, bm)) ∨
      ∃ a bm', pmmAllocFrame bm = .ok (a, bm') ∧ Allocated bm a bm' := by
  rcases pmmAllocFrame_eq bm with ⟨hnone, h⟩ | ⟨f, bm', hf, h, hm⟩
  · exact Or.inl ⟨lowestClear_eq_none_iff_full.mp hnone, h⟩
  · obtain ⟨hclear, hlt, hbelow⟩ := lowestClear_eq_some_iff.mp hf
    have hf20 : f < 2 ^ 20 := lt_of_lt_of_le hlt (bm.frames_le.trans (by norm_num))
    have hframe : (frameOf (frameAddr f)).toNat = f := by
      rw [frameOf_toNat, frameAddr_toNat hf20]
      simp only [pageSize]
      omega
    refine Or.inr ⟨_, bm', h, ?_, ?_, ?_, ?_, hm.frames_eq⟩
    · rw [hframe, frameAddr_toNat hf20]
    · rw [hframe]
      exact hclear
    · rw [hframe]
      exact hbelow
    · intro g
      rw [hframe, hm.used_eq]
      have hg : f ≤ g ∧ g < f + 1 ↔ g = f := by omega
      simp only [hg]
      by_cases hgf : g = f <;> simp [hgf]

/-- Frame 0 is given as address 0 and as no other. -/
theorem Allocated.frame_zero_iff {bm bm' : Bitmap} {a : BitVec 32} (h : Allocated bm a bm') :
    frameOf a = 0 ↔ a = 0 := by
  constructor
  · intro hzero
    apply BitVec.eq_of_toNat_eq
    rw [h.addr_toNat, hzero]
    rfl
  · rintro rfl
    rfl

/-! ### Physical accesses -/

section Physical

variable (fault : BitVec 32 → Bool → Kernel Unit) {s : Machine}

/-- Before paging is on an address is its own translation. -/
theorem translate_physical (h : s.cr3 = none) (va : BitVec 32) :
    (s.translate va).map Prod.fst = some (frameOf va) := by
  rw [Machine.translate, h]
  rfl

/-- The words of a frame follow each other inside it. -/
theorem frameWord {a : BitVec 32} (ha : a.toNat = (frameOf a).toNat * pageSize) {j : ℕ}
    (hj : j < 1024) :
    frameOf (a + 4 * BitVec.ofNat 32 j) = frameOf a ∧
      (wordIndex (a + 4 * BitVec.ofNat 32 j)).toNat = j := by
  have h4 : (4 : BitVec 32).toNat = 4 := rfl
  have hlt := (frameOf a).isLt
  have haddr : (a + 4 * BitVec.ofNat 32 j).toNat = (frameOf a).toNat * 4096 + 4 * j := by
    rw [BitVec.toNat_add, BitVec.toNat_mul, h4, BitVec.toNat_ofNat, ha]
    simp only [pageSize]
    omega
  constructor
  · apply BitVec.eq_of_toNat_eq
    rw [frameOf_toNat (a + _), haddr]
    omega
  · rw [wordIndex_toNat, haddr]
    omega

/-- The machine before paging is on. -/
def Machine.early (bm : Bitmap) (mem : PhysMem) (kernelDirectory : BitVec 32)
    (trace : List Event) : Machine where
  bitmap := bm
  mem := mem
  kernelDirectory := kernelDirectory
  cr3 := none
  heapEnd := 0
  head := 0
  trace := trace

section Early

variable (bm : Bitmap) (mem : PhysMem) (kd : BitVec 32) (tr : List Event)

/-- Before paging a store goes to the physical address. -/
theorem storeWith_early (a w : BitVec 32) :
    storeWith fault a w (.early bm mem kd tr) =
      .ok ((), .early bm (write mem (frameOf a) (wordIndex a) w) kd (.store a (frameOf a) :: tr)) :=
  storeWith_ok fault (translate_physical rfl a) w

/-- Filling a frame before paging is on. -/
theorem storeWordsWith_early {a : BitVec 32} (ha : a.toNat = (frameOf a).toNat * pageSize)
    (word : ℕ → BitVec 32) :
    ∃ evs, storeWordsWith fault a word 1024 0 (.early bm mem kd tr) =
        .ok ((), .early bm (Function.update mem (frameOf a) fun j => word j.toNat) kd
          (evs ++ tr)) ∧ ∀ e ∈ evs, ∃ va f, e = .store va f := by
  obtain ⟨evs, hrun, hevs⟩ := storeWordsWith_ok fault (s := .early bm mem kd tr)
    (f := frameOf a) a word
    (fun _ _ _ _ hj => (translate_physical rfl _).trans (congrArg some (frameWord ha hj).1))
    (fun j hj => (frameWord ha hj).2) 1024 0 rfl mem tr (fun _ _ => rfl)
    (fun j hj => absurd hj (by omega))
  refine ⟨evs, hrun, fun e he => ?_⟩
  obtain ⟨j, -, rfl⟩ := hevs e he
  exact ⟨_, _, rfl⟩

/-- Before paging an allocation is recorded as later. -/
theorem allocFrame_early {bm bm' : Bitmap} {a : BitVec 32} (h : pmmAllocFrame bm = .ok (a, bm')) :
    allocFrame (.early bm mem kd tr) = .ok (a, .early bm' mem kd (.alloc a :: tr)) :=
  allocFrame_ok h

end Early

end Physical

/-! ### `mmu_init` -/

/-- The state after `mmu_init` and `mmu_enable`, with the first table in frame `t`. -/
structure Booted (s : Machine) (t : BitVec 20) : Prop where
  cr3_eq : s.cr3 = some s.kernelDirectory
  heapEnd_eq : s.heapEnd = 0
  head_eq : s.head = 0
  slot_zero : decodeEntry (s.mem s.root 0) = some (t, ⟨true, false⟩)
  slot_self : decodeEntry (s.mem s.root 1023) = some (s.root, ⟨true, false⟩)
  slot_absent : ∀ k, k ≠ 0 → k ≠ 1023 → decodeEntry (s.mem s.root k) = none
  identity : ∀ j, decodeEntry (s.mem t j) = some (j.setWidth 20, ⟨true, false⟩)
  table_ne_root : t ≠ s.root
  root_ne_zero : s.root ≠ 0
  table_ne_zero : t ≠ 0
  root_used : s.bitmap.used s.root.toNat = true
  table_used : s.bitmap.used t.toNat = true
  zero_used : s.bitmap.used 0 = true
  /-- Two frames were allocated, and no page was mapped. -/
  trace : ∀ e ∈ s.trace, (∃ va f, e = .store va f) ∨
    ∃ a, e = .alloc a ∧ (frameOf a = s.root ∨ frameOf a = t)

/-- An address other than 0 is a pointer. -/
theorem ptrFromInt_of_ne_zero {a : BitVec 32} (h : a ≠ 0) (s : Machine) :
    ptrFromInt a s = .ok (a, s) := by
  rw [ptrFromInt, if_neg h]
  rfl

/-- Address 0 is no pointer. -/
theorem ptrFromInt_zero (s : Machine) : ptrFromInt 0 s = .error .trap := rfl

/-- An address other than 0 is a frame that was taken. -/
theorem allocated_of_ne_zero {bm bm' : Bitmap} {a : BitVec 32}
    (h : pmmAllocFrame bm = .ok (a, bm')) (ha : a ≠ 0) : Allocated bm a bm' := by
  rcases pmmAllocFrame_cases bm with ⟨-, hzero⟩ | ⟨b, bm₁, hok, hall⟩
  · rw [hzero] at h
    exact absurd (Prod.mk.inj (Except.ok.inj h)).1.symm ha
  · rw [hok] at h
    obtain ⟨rfl, rfl⟩ := Prod.mk.inj (Except.ok.inj h)
    exact hall

section Init

variable (fault : BitVec 32 → Bool → Kernel Unit)

/-- Memory as `mmu_init` leaves it, with the directory in frame `d` and the first table in frame
`t`. -/
def initialTables (mem : PhysMem) (d t : BitVec 20) : PhysMem :=
  write (write (Function.update (Function.update (Function.update mem d fun _ => 0) t fun _ => 0) t
    fun j => (identityEntry j.toNat).toWord) d 0 (pdeWord t false)) d 1023 (pdeWord d false)

/-- With two frames to take, `mmu_init` completes. -/
theorem mmuInit_ok {bm bm₁ bm₂ : Bitmap} {pd pt : BitVec 32} (mem : PhysMem)
    (hpd : pmmAllocFrame bm = .ok (pd, bm₁)) (hpd0 : pd ≠ 0)
    (hpt : pmmAllocFrame bm₁ = .ok (pt, bm₂)) (hpt0 : pt ≠ 0) :
    ∃ evs, mmuInitWith fault (.boot bm mem) =
        .ok ((), .early bm₂ (initialTables mem (frameOf pd) (frameOf pt)) pd evs) ∧
      ∀ e ∈ evs, (∃ va f, e = .store va f) ∨ e = .alloc pd ∨ e = .alloc pt := by
  have hpdA : Allocated bm pd bm₁ := allocated_of_ne_zero hpd hpd0
  have hptA : Allocated bm₁ pt bm₂ := allocated_of_ne_zero hpt hpt0
  obtain ⟨evs₁, hzero₁, hevs₁⟩ := storeWordsWith_early fault bm₁ mem pd [.alloc pd]
    hpdA.addr_toNat fun _ => 0
  obtain ⟨evs₂, hzero₂, hevs₂⟩ := storeWordsWith_early fault bm₂
    (Function.update mem (frameOf pd) fun _ => 0) pd (.alloc pt :: (evs₁ ++ [.alloc pd]))
    hptA.addr_toNat fun _ => 0
  obtain ⟨evs₃, hfill, hevs₃⟩ := storeWordsWith_early fault bm₂
    (Function.update (Function.update mem (frameOf pd) fun _ => 0) (frameOf pt) fun _ => 0) pd
    (evs₂ ++ .alloc pt :: (evs₁ ++ [.alloc pd])) hptA.addr_toNat
    fun i => (identityEntry i).toWord
  have hfirst : wordIndex pd = 0 :=
    BitVec.eq_of_toNat_eq (by
      rw [wordIndex_toNat, hpdA.addr_toNat]
      simp only [pageSize]
      change _ = 0
      omega)
  obtain ⟨hlastFrame, hlast⟩ := frameWord hpdA.addr_toNat (show 1023 < 1024 by decide)
  replace hlast : wordIndex (pd + 4 * 1023) = 1023 := BitVec.eq_of_toNat_eq hlast
  replace hlastFrame : frameOf (pd + 4 * 1023) = frameOf pd := hlastFrame
  refine ⟨.store (pd + 4 * 1023) (frameOf pd) :: .store pd (frameOf pd) ::
    (evs₃ ++ (evs₂ ++ .alloc pt :: (evs₁ ++ [.alloc pd]))), ?_, ?_⟩
  · change mmuInitWith fault (.early bm mem 0 []) = _
    rw [mmuInitWith, bind_of_ok (allocFrame_early _ _ _ hpd),
      bind_of_ok (ptrFromInt_of_ne_zero hpd0 _), modify_bind_apply]
    refine (bind_of_ok hzero₁).trans ?_
    rw [bind_of_ok (allocFrame_early _ _ _ hpt), bind_of_ok (ptrFromInt_of_ne_zero hpt0 _)]
    refine (bind_of_ok hzero₂).trans ((bind_of_ok hfill).trans ?_)
    rw [frameField_eq, frameField_eq]
    refine (bind_of_ok (storeWith_early fault _ _ _ _ _ _)).trans ?_
    rw [storeWith_early, hfirst, hlast, hlastFrame]
    rfl
  · intro e he
    simp only [List.mem_cons, List.mem_append, List.not_mem_nil, or_false] at he
    rcases he with rfl | rfl | he | he | rfl | he | rfl
    · exact Or.inl ⟨_, _, rfl⟩
    · exact Or.inl ⟨_, _, rfl⟩
    · exact Or.inl (hevs₃ e he)
    · exact Or.inl (hevs₂ e he)
    · exact Or.inr (Or.inr rfl)
    · exact Or.inl (hevs₁ e he)
    · exact Or.inr (Or.inl rfl)

/-- An allocation always returns. -/
theorem exists_pmmAllocFrame (bm : Bitmap) : ∃ a bm', pmmAllocFrame bm = .ok (a, bm') := by
  rcases pmmAllocFrame_cases bm with ⟨-, h⟩ | ⟨a, bm', h, -⟩
  · exact ⟨_, _, h⟩
  · exact ⟨_, _, h⟩

/-- A completed `mmu_init` took two frames: without them it stops at a null pointer. -/
theorem mmuInit_inv {bm : Bitmap} {mem : PhysMem} {s : Machine}
    (h : mmuInitWith fault (.boot bm mem) = .ok ((), s)) :
    ∃ pd pt bm₁ bm₂ evs, pd ≠ 0 ∧ pt ≠ 0 ∧ Allocated bm pd bm₁ ∧ Allocated bm₁ pt bm₂ ∧
      s = .early bm₂ (initialTables mem (frameOf pd) (frameOf pt)) pd evs ∧
      ∀ e ∈ evs, (∃ va f, e = .store va f) ∨ e = .alloc pd ∨ e = .alloc pt := by
  obtain ⟨pd, bm₁, hpd⟩ := exists_pmmAllocFrame bm
  obtain ⟨pt, bm₂, hpt⟩ := exists_pmmAllocFrame bm₁
  have hpd0 : pd ≠ 0 := by
    rintro rfl
    change mmuInitWith fault (.early bm mem 0 []) = _ at h
    rw [mmuInitWith, bind_of_ok (allocFrame_early _ _ _ hpd),
      bind_of_error (ptrFromInt_zero _)] at h
    exact absurd h (by simp)
  have hpdA : Allocated bm pd bm₁ := allocated_of_ne_zero hpd hpd0
  have hpt0 : pt ≠ 0 := by
    rintro rfl
    obtain ⟨evs₁, hzero₁, -⟩ := storeWordsWith_early fault bm₁ mem pd [.alloc pd]
      hpdA.addr_toNat fun _ => 0
    change mmuInitWith fault (.early bm mem 0 []) = _ at h
    rw [mmuInitWith, bind_of_ok (allocFrame_early _ _ _ hpd),
      bind_of_ok (ptrFromInt_of_ne_zero hpd0 _), modify_bind_apply] at h
    replace h := rest_of_bind hzero₁ h
    rw [bind_of_ok (allocFrame_early _ _ _ hpt), bind_of_error (ptrFromInt_zero _)] at h
    exact absurd h (by simp)
  obtain ⟨evs, hrun, hevs⟩ := mmuInit_ok fault mem hpd hpd0 hpt hpt0
  rw [hrun] at h
  exact ⟨pd, pt, bm₁, bm₂, evs, hpd0, hpt0, hpdA, allocated_of_ne_zero hpt hpt0,
    (Prod.mk.inj (Except.ok.inj h)).2.symm, hevs⟩

/-- The first directory has the identity table and itself. -/
theorem initialTables_root {mem : PhysMem} {d t : BitVec 20} (k : BitVec 10) (h : t ≠ d) :
    initialTables mem d t d k = if k = 1023 then pdeWord d false
      else if k = 0 then pdeWord t false else 0 := by
  simp only [initialTables, write_apply, Function.update_self, Function.update_of_ne (Ne.symm h),
    true_and]

/-- The first table maps its pages to themselves. -/
theorem initialTables_first {mem : PhysMem} {d t : BitVec 20} (j : BitVec 10) (h : t ≠ d) :
    initialTables mem d t t j = (identityEntry j.toNat).toWord := by
  rw [initialTables, write_of_ne _ _ _ _ _ _ h, write_of_ne _ _ _ _ _ _ h, Function.update_self]

/-- **`mmu_init` and `mmu_enable`.** -/
theorem mmuInit_booted {bm : Bitmap} {mem : PhysMem} {s : Machine}
    (h : (do mmuInitWith fault; mmuEnable : Kernel Unit) (.boot bm mem) = .ok ((), s)) :
    ∃ t, Booted s t := by
  obtain ⟨⟨⟩, s₀, h₀, h⟩ := bind_eq_ok.mp h
  obtain rfl := (Prod.mk.inj (Except.ok.inj h)).2
  obtain ⟨pd, pt, bm₁, bm₂, evs, hpd0, hpt0, hpd, hpt, rfl, hevs⟩ := mmuInit_inv fault h₀
  have hne : frameOf pt ≠ frameOf pd := by
    intro heq
    have hused := (hpd.used_eq (frameOf pd).toNat).mpr (Or.inr rfl)
    have hfree := hpt.free
    rw [heq, hused] at hfree
    exact absurd hfree (by simp)
  have hroot0 : frameOf pd ≠ 0 := fun h0 => hpd0 (hpd.frame_zero_iff.mp h0)
  have hpos : 0 < (frameOf pd).toNat :=
    Nat.pos_of_ne_zero fun h0 => hroot0 (BitVec.eq_of_toNat_eq h0)
  refine ⟨frameOf pt, ?_⟩
  constructor
  case cr3_eq => rfl
  case heapEnd_eq => rfl
  case head_eq => rfl
  case slot_zero =>
    refine (congrArg decodeEntry (initialTables_root 0 hne)).trans ?_
    exact decodeEntry_pdeWord _ _
  case slot_self =>
    refine (congrArg decodeEntry (initialTables_root 1023 hne)).trans ?_
    exact decodeEntry_pdeWord _ _
  case slot_absent =>
    intro k hk0 hk
    refine (congrArg decodeEntry (initialTables_root k hne)).trans ?_
    rw [if_neg hk, if_neg hk0]
    exact decodeEntry_zero
  case identity =>
    intro j
    refine (congrArg decodeEntry (initialTables_first j hne)).trans ?_
    rw [identityEntry, decodeEntry_pte, BitVec.ofNat_toNat,
      BitVec.setWidth_setWidth_of_le _ (by omega)]
    rfl
  case table_ne_root => exact hne
  case root_ne_zero => exact hroot0
  case table_ne_zero => exact fun h0 => hpt0 (hpt.frame_zero_iff.mp h0)
  case root_used =>
    exact (hpt.used_eq _).mpr (Or.inl ((hpd.used_eq _).mpr (Or.inr rfl)))
  case table_used => exact (hpt.used_eq _).mpr (Or.inr rfl)
  case zero_used =>
    exact (hpt.used_eq 0).mpr (Or.inl ((hpd.used_eq 0).mpr (Or.inl (hpd.below 0 hpos))))
  case trace =>
    intro e he
    rcases hevs e he with hstore | rfl | rfl
    · exact Or.inl hstore
    · exact Or.inr ⟨pd, rfl, Or.inl rfl⟩
    · exact Or.inr ⟨pt, rfl, Or.inr rfl⟩

end Init

/-- After the boot the directory maps itself. -/
theorem Booted.recursive {s : Machine} {t : BitVec 20} (h : Booted s t) : Recursive s := by
  have htable : ∀ k u, s.table k = some u → (k = 0 ∧ u = t) ∨ (k = 1023 ∧ u = s.root) := by
    intro k u hu
    obtain ⟨p, hp⟩ := table_eq_some_iff.mp hu
    by_cases hk0 : k = 0
    · rw [hk0, h.slot_zero] at hp
      exact Or.inl ⟨hk0, (Prod.mk.inj (Option.some.inj hp)).1.symm⟩
    · by_cases hk : k = 1023
      · rw [hk, h.slot_self] at hp
        exact Or.inr ⟨hk, (Prod.mk.inj (Option.some.inj hp)).1.symm⟩
      · rw [h.slot_absent k hk0 hk] at hp
        exact absurd hp (by simp)
  refine ⟨h.cr3_eq, table_eq_some_iff.mpr ⟨_, h.slot_self⟩, ?_⟩
  intro k k' u hu hu'
  rcases htable k u hu with ⟨rfl, hut⟩ | ⟨rfl, hut⟩ <;>
    rcases htable k' u hu' with ⟨rfl, hut'⟩ | ⟨rfl, hut'⟩
  · rfl
  · exact absurd (hut.symm.trans hut') h.table_ne_root
  · exact absurd (hut'.symm.trans hut) h.table_ne_root
  · rfl

/-! ### Runs of `mmu_map_page` -/

/-- The addresses outside the last slot are those below the window. -/
theorem pdIndex_ne_window {va : BitVec 32} : pdIndex va ≠ 1023 ↔ va < 0xFFC00000 := by
  have := va.isLt
  have hwindow : (0xFFC00000 : BitVec 32).toNat = 0xFFC00000 := rfl
  have hlast : (1023 : BitVec 10).toNat = 1023 := rfl
  rw [BitVec.lt_def, hwindow, Ne, ← BitVec.toNat_inj, pdIndex_toNat, hlast]
  omega

/-- Addresses with the same indices lie in the same page. -/
theorem page_eq_iff {va va' : BitVec 32} :
    pdIndex va = pdIndex va' ∧ ptIndex va = ptIndex va' ↔
      va.toNat / pageSize = va'.toNat / pageSize := by
  rw [← BitVec.toNat_inj, ← BitVec.toNat_inj, pdIndex_toNat, pdIndex_toNat, ptIndex_toNat,
    ptIndex_toNat, pageSize]
  omega

/-- If a call of `mmu_map_page` has to allocate a table, it gets a non-zero frame that is neither
the directory nor a table. -/
def FreshTable (s : Machine) (virt : BitVec 32) : Prop :=
  s.table (pdIndex virt) = none → ∀ a bm, pmmAllocFrame s.bitmap = .ok (a, bm) →
    a ≠ 0 ∧ Fresh decodeEntry s.mem s.root (frameOf a)

section MapPage

variable (fault : BitVec 32 → Bool → Kernel Unit) {s : Machine} {virt : BitVec 32}

/-- Installing a fresh table keeps the directory mapping itself. -/
theorem recursive_installed (h : Recursive s) {k : BitVec 10} (hk : k ≠ 1023) {a : BitVec 32}
    (hfresh : Fresh decodeEntry s.mem s.root (frameOf a)) (isUser : Bool) (bm : Bitmap)
    (evs : List Event) : Recursive (s.installed k isUser a bm evs) where
  cr3_eq := h.cr3_eq
  selfMap := selfMap_install h.selfMap hk hfresh.1 (decodeEntry_pdeWord _ _)
  injective := slotsInjective_install h.injective hfresh (decodeEntry_pdeWord _ _)

/-- A table of another slot is not the directory. -/
theorem table_ne_root (h : Recursive s) {k : BitVec 10} (hk : k ≠ 1023) {t : BitVec 20}
    (ht : s.table k = some t) : s.root ≠ t := by
  rintro rfl
  exact hk (h.injective k 1023 _ ht h.selfMap)

/-- Mapping a page keeps the directory mapping itself. -/
theorem recursive_mapped (h : Recursive s) (hk : pdIndex virt ≠ 1023) {t : BitVec 20}
    (ht : s.table (pdIndex virt) = some t) (phys : BitVec 32) (isWriteable isUser : Bool)
    (before : PhysMem) : Recursive (s.mapped t phys virt isWriteable isUser before) := by
  have hroot := table_ne_root h hk ht
  refine ⟨h.cr3_eq, (table_write_of_ne hroot 1023).trans h.selfMap, ?_⟩
  intro k k' u hu hu'
  exact h.injective k k' u ((table_write_of_ne hroot k).symm.trans hu)
    ((table_write_of_ne hroot k').symm.trans hu')

/-- After its first half `mmu_map_page` finds the table of the slot, and no translation below the
window has changed. -/
theorem ensureTableWith_spec (h : Recursive s) (hk : pdIndex virt ≠ 1023)
    (hfresh : FreshTable s virt) (isUser : Bool) :
    ∃ s₁ t evs, ensureTableWith fault (recursivePd + (4 : BitVec 32) * (virt >>> 22))
        ((0xFFC00000 : BitVec 32) + ((virt >>> 22) <<< 12)) isUser s = .ok ((), s₁) ∧
      Recursive s₁ ∧ s₁.kernelDirectory = s.kernelDirectory ∧
      s₁.table (pdIndex virt) = some t ∧ s₁.trace = evs ++ s.trace ∧
      (∀ e ∈ evs, (∃ a, e = .alloc a) ∨ WindowEvent s.root t (pdIndex virt) e) ∧
      ∀ va, pdIndex va ≠ 1023 → walk s₁.mem s.root va = walk s.mem s.root va := by
  cases ht : s.table (pdIndex virt) with
  | some t =>
    exact ⟨s, t, [], ensureTableWith_present fault h (shiftRight_pdIndex virt) ht isUser, h, rfl,
      ht, rfl,
      by simp, fun _ _ => rfl⟩
  | none =>
    obtain ⟨a, bm, halloc⟩ := exists_pmmAllocFrame s.bitmap
    obtain ⟨-, hfr⟩ := hfresh ht a bm halloc
    obtain ⟨evs, hrun, hevs⟩ := ensureTableWith_absent fault h (shiftRight_pdIndex virt)
      hk ht halloc hfr.1 isUser
    refine ⟨_, frameOf a, evs ++ [.alloc a], hrun, recursive_installed h hk hfr isUser bm evs, rfl,
      ?_, ?_, ?_, ?_⟩
    · exact (table_install hfr.1 (decodeEntry_pdeWord _ _) _).trans (if_pos rfl)
    · rw [List.append_assoc]
      rfl
    · intro e he
      rcases List.mem_append.mp he with he | he
      · exact Or.inr (hevs e he)
      · exact Or.inl ⟨a, List.mem_singleton.mp he⟩
    · intro va hva
      exact walk_install h.selfMap h.injective hfr ht (decodeEntry_pdeWord _ _) decodeEntry_zero
        _ _ hva

/-- **`mmu_map_page` as an update of the translation.** -/
theorem mmuMapPageWith_spec (h : Recursive s) (hk : pdIndex virt ≠ 1023)
    (hfresh : FreshTable s virt) (phys : BitVec 32) (isWriteable isUser : Bool) :
    ∃ s' t evs, mmuMapPageWith fault phys virt isWriteable isUser s = .ok ((), s') ∧
      Recursive s' ∧ s'.kernelDirectory = s.kernelDirectory ∧
      s'.table (pdIndex virt) = some t ∧ s'.trace = evs ++ s.trace ∧
      (∀ va f, .store va f ∈ evs → WindowEvent s.root t (pdIndex virt) (.store va f)) ∧
      (walk s'.mem s.root virt).map Prod.fst = some (frameOf phys) ∧
      ∀ va, pdIndex va ≠ 1023 → va.toNat / pageSize ≠ virt.toNat / pageSize →
        walk s'.mem s.root va = walk s.mem s.root va := by
  obtain ⟨s₁, t, evs, hrun, h₁, hkd, ht, htrace, hevs, hwalk⟩ :=
    ensureTableWith_spec fault h hk hfresh isUser
  have hroot : s₁.root = s.root := congrArg frameOf hkd
  have hne := table_ne_root h₁ hk ht
  have hupdate := fun i j => walk_write h₁.selfMap h₁.injective hk ht
    (e := pteWord (frameOf phys) isWriteable isUser) (j := ptIndex virt) i j
  let call : MapCall := ⟨phys, virt, isWriteable, isUser, s.mem,
    write s₁.mem t (ptIndex virt) (pteWord (frameOf phys) isWriteable isUser)⟩
  refine ⟨_, t, mapEvents t call ++ evs, mmuMapPageWith_eq fault phys isWriteable hrun h₁ ht,
    recursive_mapped h₁ hk ht phys isWriteable isUser s.mem, hkd,
    (table_write_of_ne hne _).trans ht, ?_, ?_, ?_, ?_⟩
  · rw [List.append_assoc, ← htrace]
    rfl
  · intro va f hmem
    rcases List.mem_append.mp hmem with hmem | hmem
    · simp only [mapEvents, List.mem_cons, reduceCtorEq, Event.store.injEq, false_or,
        List.not_mem_nil, or_false] at hmem
      obtain ⟨rfl, rfl⟩ := hmem
      exact Or.inr ⟨_, _, rfl, Or.inr ⟨entryAddr_page virt, rfl⟩⟩
    · rcases hevs _ hmem with ⟨a, ha⟩ | hw
      · exact absurd ha (by simp)
      · exact hw
  · obtain ⟨p, hp⟩ := table_eq_some_iff.mp ht
    have hentry := (hupdate (pdIndex virt) (ptIndex virt)).trans (if_pos ⟨rfl, rfl⟩)
    rw [hp, decodeEntry_pteWord, hroot] at hentry
    exact congrArg (Option.map Prod.fst) hentry
  · intro va hva hpage
    rw [← hwalk va hva, ← hroot]
    refine (hupdate (pdIndex va) (ptIndex va)).trans (if_neg fun hc => hpage ?_)
    exact page_eq_iff.mp hc

end MapPage

/-- One call of `mmu_map_page` below the window, with the bitmap as its other users left it. -/
inductive MapStep : Machine → Machine → Prop
  | call {s s' : Machine} (bm : Bitmap) (phys virt : BitVec 32) (isWriteable isUser : Bool) :
      virt < 0xFFC00000 → FreshTable { s with bitmap := bm } virt →
      mmuMapPage phys virt isWriteable isUser { s with bitmap := bm } = .ok ((), s') →
      MapStep s s'

/-- The bitmap is no part of the tables. -/
theorem recursive_setBitmap {s : Machine} (h : Recursive s) (bm : Bitmap) :
    Recursive { s with bitmap := bm } :=
  ⟨h.cr3_eq, h.selfMap, h.injective⟩

/-- Every call keeps the directory, and keeps it mapping itself. -/
theorem recursive_step {s s' : Machine} (h : Recursive s) (hstep : MapStep s s') :
    Recursive s' ∧ s'.kernelDirectory = s.kernelDirectory := by
  cases hstep with
  | call bm phys virt isWriteable isUser hvirt hfresh hrun =>
    obtain ⟨s₁, -, -, hrun₁, h₁, hkd, -⟩ := mmuMapPageWith_spec onFault
      (recursive_setBitmap h bm) (pdIndex_ne_window.mpr hvirt) hfresh phys isWriteable isUser
    rw [mmuMapPage, hrun₁] at hrun
    obtain rfl := (Prod.mk.inj (Except.ok.inj hrun)).2
    exact ⟨h₁, hkd⟩

/-- A run of calls keeps the directory, and keeps it mapping itself. -/
theorem recursive_run {s₀ s : Machine} (h₀ : Recursive s₀)
    (hrun : Relation.ReflTransGen MapStep s₀ s) :
    Recursive s ∧ s.kernelDirectory = s₀.kernelDirectory := by
  refine run_invariant (fun s => Recursive s ∧ s.kernelDirectory = s₀.kernelDirectory) hrun
    ⟨h₀, rfl⟩ fun h hstep => ?_
  obtain ⟨hrec, hkd⟩ := recursive_step h.1 hstep
  exact ⟨hrec, hkd.trans h.2⟩

/-- What holds of the tables in every state of a run. -/
structure MapsByWindow (s : Machine) : Prop where
  /-- Slot 1023 points to the directory. -/
  selfMap : s.table 1023 = some s.root
  /-- The address of the slot of `virt` in the window resolves to the directory. -/
  directory_window : ∀ virt : BitVec 32,
    (walk s.mem s.root (recursivePd + (4 : BitVec 32) * (virt >>> 22))).map Prod.fst = some s.root
  /-- The address of the entry of `virt` in the window resolves to the table of its slot. -/
  table_window : ∀ virt : BitVec 32,
    (walk s.mem s.root (entryAddr virt)).map Prod.fst = s.table (pdIndex virt)
  /-- A call stores through the window only, into the directory and the table of the slot; then
  the page of `virt` is `phys` and every other page below the window is what it was. -/
  mapPage : ∀ (bm : Bitmap) (phys virt : BitVec 32) (isWriteable isUser : Bool), virt < 0xFFC00000 →
    FreshTable { s with bitmap := bm } virt →
    ∃ s' t evs, mmuMapPage phys virt isWriteable isUser { s with bitmap := bm } = .ok ((), s') ∧
      s'.table (pdIndex virt) = some t ∧ s'.trace = evs ++ s.trace ∧
      (∀ va f, .store va f ∈ evs → WindowEvent s.root t (pdIndex virt) (.store va f)) ∧
      (walk s'.mem s'.root virt).map Prod.fst = some (frameOf phys) ∧
      ∀ va : BitVec 32, va < 0xFFC00000 → va.toNat / pageSize ≠ virt.toNat / pageSize →
        walk s'.mem s'.root va = walk s.mem s.root va

/-- A directory that maps itself is reached through the window. -/
theorem mapsByWindow_of_recursive {s : Machine} (h : Recursive s) : MapsByWindow s where
  selfMap := h.selfMap
  directory_window := by
    intro virt
    rw [← translate_eq h.cr3_eq]
    exact (translate_pdeAddr h.cr3_eq h.selfMap (shiftRight_pdIndex virt)).1
  table_window := by
    intro virt
    have hlt := (ptIndex virt).isLt
    rw [← translate_eq h.cr3_eq]
    exact (translate_entryAddr h.cr3_eq h.selfMap (shiftRight_pdIndex virt)
      (by rw [shiftRight_ptIndex]; omega)).1
  mapPage := by
    intro bm phys virt isWriteable isUser hvirt hfresh
    obtain ⟨s', t, evs, hrun, -, hkd, ht, htrace, hevs, hvirt', hother⟩ := mmuMapPageWith_spec
      onFault (recursive_setBitmap h bm) (pdIndex_ne_window.mpr hvirt) hfresh phys
      isWriteable isUser
    have hroot : s'.root = s.root := congrArg frameOf hkd
    refine ⟨s', t, evs, hrun, ht, htrace, hevs, ?_, fun va hva hpage => ?_⟩
    · rw [hroot]
      exact hvirt'
    · rw [hroot]
      exact hother va (pdIndex_ne_window.mpr hva) hpage

/-- The translation `mmu_init` builds: the identity below 4 MiB, nothing up to the window. -/
theorem Booted.walk_eq {s : Machine} {t : BitVec 20} (h : Booted s t) {va : BitVec 32}
    (hva : va < 0xFFC00000) :
    walk s.mem s.root va =
      if va.toNat < 0x400000 then some (frameOf va, ⟨true, false⟩) else none := by
  have hlt := va.isLt
  have hpd := pdIndex_toNat va
  split
  · next hlow =>
    have hzero : pdIndex va = 0 := BitVec.eq_of_toNat_eq (by rw [hpd]; change _ = 0; omega)
    have hframe : (ptIndex va).setWidth 20 = frameOf va := by
      apply BitVec.eq_of_toNat_eq
      rw [BitVec.toNat_setWidth, ptIndex_toNat, frameOf_toNat]
      omega
    rw [walk, RecursiveTable.walk, hzero, h.slot_zero, Option.bind_some, h.identity, hframe]
    rfl
  · next hhigh =>
    refine walk_of_table_none (table_eq_none_iff.mpr (h.slot_absent _ ?_ ?_))
    · intro hzero
      rw [hzero] at hpd
      change 0 = _ at hpd
      omega
    · exact pdIndex_ne_window.mpr hva

/-- **The address space.** After `mmu_init` and `mmu_enable` the translation is the identity below
4 MiB and undefined up to the window; in every run of calls of `mmu_map_page` below the window
that get fresh tables, the directory stays where it is and maps itself, and each call updates the
translation at its page alone. -/
theorem mmuMapPage_refines {bm : Bitmap} {mem : PhysMem} {s₀ : Machine}
    (hboot : (do mmuInit; mmuEnable : Kernel Unit) (.boot bm mem) = .ok ((), s₀)) :
    (∀ va : BitVec 32, va < 0xFFC00000 → walk s₀.mem s₀.root va =
      if va.toNat < 0x400000 then some (frameOf va, ⟨true, false⟩) else none) ∧
    ∀ s, Relation.ReflTransGen MapStep s₀ s → s.root = s₀.root ∧ MapsByWindow s := by
  obtain ⟨t, hbooted⟩ := mmuInit_booted onFault hboot
  refine ⟨fun va hva => hbooted.walk_eq hva, fun s hrun => ?_⟩
  obtain ⟨hrec, hkd⟩ := recursive_run hbooted.recursive hrun
  exact ⟨congrArg frameOf hkd, mapsByWindow_of_recursive hrec⟩

/-- A machine with eight frames, of which frame 0 is used. -/
theorem mmuMapPage_refines_eight : ∃ s₀,
    (do mmuInit; mmuEnable : Kernel Unit) (.boot ⟨[0x01#8], by decide⟩ fun _ _ => 0) =
      .ok ((), s₀) ∧
    (∀ va : BitVec 32, va < 0xFFC00000 → walk s₀.mem s₀.root va =
      if va.toNat < 0x400000 then some (frameOf va, ⟨true, false⟩) else none) ∧
    ∀ s, Relation.ReflTransGen MapStep s₀ s → s.root = s₀.root ∧ MapsByWindow s := by
  have hpd : pmmAllocFrame ⟨[0x01#8], by decide⟩ = .ok (0x1000, ⟨[0x03#8], by decide⟩) := by rfl
  have hpt : pmmAllocFrame ⟨[0x03#8], by decide⟩ = .ok (0x2000, ⟨[0x07#8], by decide⟩) := by rfl
  obtain ⟨evs, hrun, -⟩ := mmuInit_ok onFault (fun _ _ => 0) hpd (by decide) hpt (by decide)
  have hboot := bind_of_ok (f := fun _ => mmuEnable) hrun
  exact ⟨_, hboot, mmuMapPage_refines hboot⟩

end AuriOS
