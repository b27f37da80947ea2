import AuriOS.Lib.HeapRuns
import AuriOS.Lib.PageRuns

/-!
# Runs of `malloc`, `free` and page faults

A run from `memory_init` on in which calls of `malloc` and `free` alternate with page faults.
While growth and faults stay below the recursive window the heap stays well formed
(`memoryCall_spec`), and three results tell what becomes of the tables and the frames:

* `memoryRun_directory`: the directory changes only by new tables in empty slots;
* `memoryRun_kept`: no frame is lost, if the heap does not grow over pages that a fault backed;
* `malloc_null_unchanged_iff`: a call of `malloc` that fails has no effect exactly when the
  allocator had no frame to begin with.
-/

namespace AuriOS

open Program BlockList RecursiveTable

/-! ### Calls -/

/-- One call of `malloc` that `okMalloc` allows, of `free` with `NULL` or a live pointer, or of the
page-fault handler for an address that `okFault` allows.  Live pointers are remembered with their
rounded sizes. -/
inductive MemoryCall (okMalloc okFault : Machine → BitVec 32 → Prop) :
    Machine × Live → Machine × Live → Prop
  | malloc {s s' : Machine} {live : Live} (size p : BitVec 32) : okMalloc s size →
      malloc size s = .ok (p, s') → MemoryCall okMalloc okFault (s, live)
        (s', if p = 0 then live else Function.update live p (some (alignUp size 8)))
  | freeNull {s s' : Machine} {live : Live} : free 0 s = .ok ((), s') →
      MemoryCall okMalloc okFault (s, live) (s', live)
  | free {s s' : Machine} {live : Live} (p size : BitVec 32) : live p = some size →
      free p s = .ok ((), s') →
      MemoryCall okMalloc okFault (s, live) (s', Function.update live p none)
  | fault {s s' : Machine} {live : Live} (va : BitVec 32) (write : Bool) : okFault s va →
      mmuHandlePageFault va (s.errorCode va write) s = .ok ((), s') →
      MemoryCall okMalloc okFault (s, live) (s', live)

/-- If the heap has to grow, the rounding to pages does not wrap, and there is room for the pages
below the window or the frames do not last that far. -/
def WithinRoom (s : Machine) (size : BitVec 32) : Prop :=
  s.Grows size → (alignUp size 8).toNat + 16 + 4095 < 2 ^ 32 ∧
    (pagesFor size ≤ s.room ∨ s.bitmap.freeFrames ≤ s.room + s.missingTables)

/-- The address is below the window. -/
def BelowWindow (_ : Machine) (va : BitVec 32) : Prop := va < 0xFFC00000

section Calls

variable {okMalloc okFault : Machine → BitVec 32 → Prop} {bm : Bitmap} {mem : PhysMem}
  {s s₀ s' : Machine} {live live' : Live} {bs bs' : List Block} {p size a va : BitVec 32}
  {n pages : ℕ}

/-- A call that one rule allows is allowed by a weaker one. -/
theorem MemoryCall.imp {okMalloc' : Machine → BitVec 32 → Prop} {z z' : Machine × Live}
    (hok : ∀ s size, okMalloc s size → okMalloc' s size) (h : MemoryCall okMalloc okFault z z') :
    MemoryCall okMalloc' okFault z z' := by
  cases h with
  | malloc size p hsize hrun => exact .malloc size p (hok _ _ hsize) hrun
  | freeNull hrun => exact .freeNull hrun
  | free p size hlive hrun => exact .free p size hlive hrun
  | fault va write hva hrun => exact .fault va write hva hrun

/-- A handled page fault leaves the list alone. -/
theorem RunInv.backed {mayFail : Prop} (hinv : RunInv mayFail s live bs)
    (hb : Backed s (va &&& 0xFFFFF000) a s') (habsent : s.owner (pageOwner va) = none) :
    RunInv mayFail s' live bs := by
  have hblocks := hinv.heap.blocks
  have hpages := hblocks.pages.backed hb
  obtain ⟨bm, halloc, -⟩ := hb.bitmap
  have hend := congrArg BitVec.toNat hb.heapEnd_eq
  have habsent' : s.owner (pageOwner (va &&& 0xFFFFF000)) = none :=
    (pageOwner_mask va).symm ▸ habsent
  refine ⟨⟨?_, hinv.heap.separated, fun hnil => ?_⟩, hinv.live, hinv.ne_nil, fun hno => ?_⟩
  · exact (hblocks.carry hpages rfl hend.ge hb.head_eq
      fun a' ha' => hb.heapWord hblocks.pages habsent' ha').self
  · exact absurd (hinv.heap.full_of_nil hnil) halloc.not_full
  · exact hend ▸ hinv.tiled hno

/-- `malloc` moves the machine by its own steps, however it ends. -/
theorem MallocResult.evolves (hres : MallocResult s bs n pages p s' bs') : Evolves s s' := by
  cases hres with
  | fit _ _ _ _ hst => exact hst.evolves
  | grow _ _ hg _ hst => exact hg.evolves.trans hst.evolves
  | fail _ _ hg hfull => exact hg.evolves.tail (.noFrame hfull)

/-- What a call of `malloc` does, for any size. -/
theorem malloc_spec (hinv : RunInv True s live bs) (hok : WithinRoom s size)
    (hrun : malloc size s = .ok (p, s')) :
    (size = 0 ∧ p = 0 ∧ s' = s) ∨ ∃ bs', MallocResult s bs (alignUp size 8).toNat (pagesFor size) p
      s' bs' ∧ RunInv True s'
        (if p = 0 then live else Function.update live p (some (alignUp size 8)))
        bs' := by
  by_cases h0 : size = 0
  · rw [h0, malloc_zero] at hrun
    obtain ⟨rfl, rfl⟩ := Prod.mk.inj (Except.ok.inj hrun)
    exact Or.inl ⟨h0, rfl, rfl⟩
  · obtain ⟨q, t, bs', hrun', hres, hinv'⟩ := malloc_result hinv.heap h0 fun hnone =>
      have hroom := hok ((hinv.heap.grows_iff size).mpr hnone)
      ⟨hroom.1, growthStays_of_supply hinv.heap.blocks.pages hroom.2⟩
    rw [hrun'] at hrun
    obtain ⟨rfl, rfl⟩ := Prod.mk.inj (Except.ok.inj hrun)
    exact Or.inr ⟨bs', hres, hres.runInv hinv le_rfl (fun _ => trivial) hinv'⟩

/-- **One call.** -/
theorem memoryCall_spec (hmalloc : ∀ s size, okMalloc s size → WithinRoom s size)
    (hfault : ∀ s va, okFault s va → BelowWindow s va) (hinv : RunInv True s live bs)
    (hstep : MemoryCall okMalloc okFault (s, live) (s', live')) :
    ∃ bs', RunInv True s' live' bs' ∧ Evolves s s' := by
  cases hstep with
  | malloc size p hok hrun =>
    rcases malloc_spec hinv (hmalloc _ _ hok) hrun with ⟨-, rfl, rfl⟩ | ⟨bs', hres, hinv'⟩
    · rw [if_pos rfl]
      exact ⟨bs, hinv, .refl⟩
    · exact ⟨bs', hinv', hres.evolves⟩
  | freeNull hrun =>
    rw [free_zero] at hrun
    obtain rfl := (Prod.mk.inj (Except.ok.inj hrun)).2
    exact ⟨bs, hinv, .refl⟩
  | free p size hlive hrun =>
    obtain ⟨bs', us, hst, hinv', -⟩ := free_runInv hinv hlive hrun
    exact ⟨bs', hinv', hst.evolves⟩
  | fault va write hok hrun =>
    obtain ⟨hslot, habsent, a, hb⟩ :=
      mmuHandlePageFaultWith_backed onFault hinv.heap.blocks.pages.paging (hfault _ _ hok) hrun
    have hmask : HeapSlot (pdIndex (va &&& 0xFFFFF000)) := by
      rw [(Owner.leaf.inj (pageOwner_mask va)).1]
      exact hslot
    exact ⟨bs, hinv.backed hb habsent, .single (.back _ a hmask hb)⟩

/-- `memory_init` moves the machine by its own steps, however it ends. -/
theorem InitResult.evolves (hres : InitResult s s' bs) : Evolves s s' := by
  have hvars : Evolves s { s with heapEnd := heapVirtStart } := .single (.vars _ s.head)
  cases hres with
  | @mapped s₁ t hg hst =>
    have hhead : Evolves s₁ { s₁ with head := heapVirtStart } := .single (.vars s₁.heapEnd _)
    exact (((hvars.trans hg.evolves).trans hhead).trans hst.evolves).tail (.klog _ _)
  | failed _ hg hfull => exact ((hvars.trans hg.evolves).tail (.noFrame hfull)).tail (.klog _ _)

/-- The state a run starts from. -/
theorem startMemory_runInv (hstart : startMemory (.boot bm mem) = .ok ((), s₀)) :
    ∃ s t bs, Booted s t ∧ InitResult s s₀ bs ∧ RunInv True s₀ (fun _ => none) bs := by
  obtain ⟨s, t, hbooted, hinit⟩ := startMemory_booted hstart
  obtain ⟨s', bs, hrun, hres, hinv⟩ := memoryInit_result hbooted.paging hbooted.head_eq
  rw [hinit] at hrun
  obtain rfl := (Prod.mk.inj (Except.ok.inj hrun)).2
  refine ⟨s, t, bs, hbooted, hres, hinv, ⟨by simp, fun b hb => ?_⟩, fun h => absurd trivial h,
    fun h => absurd trivial h⟩
  obtain ⟨hmem, hused⟩ := mem_usedBlocks.mp hb
  cases hres with
  | mapped _ _ =>
    rw [List.mem_singleton.mp hmem] at hused
    exact absurd hused (by decide)
  | failed _ _ _ => exact absurd hmem (by simp)

/-- The invariant of the heap holds in every state of a run. -/
theorem memoryRun_inv (hmalloc : ∀ s size, okMalloc s size → WithinRoom s size)
    (hfault : ∀ s va, okFault s va → BelowWindow s va)
    (hstart : startMemory (.boot bm mem) = .ok ((), s₀))
    (hrun : Relation.ReflTransGen (MemoryCall okMalloc okFault) (s₀, fun _ => none) (s, live)) :
    ∃ bs, RunInv True s live bs ∧ Evolves s₀ s := by
  obtain ⟨-, -, bs, -, -, hinv⟩ := startMemory_runInv hstart
  refine run_invariant (fun z : Machine × Live => ∃ bs, RunInv True z.1 z.2 bs ∧ Evolves s₀ z.1)
    hrun ⟨bs, hinv, .refl⟩ fun ⟨_, hinv, hev⟩ hstep => ?_
  obtain ⟨bs', hinv', hev'⟩ := memoryCall_spec hmalloc hfault hinv hstep
  exact ⟨bs', hinv', hev.trans hev'⟩

end Calls

/-! ### The directory -/

/-- From the state `s₁` on the directory has changed only by calls of `mmu_map_page` below the
window, each of which installed at most one cleared table in an empty slot. -/
structure DirectoryKept (s₁ s : Machine) : Prop where
  history : DirectoryHistory s₁.root s₁.trace (s₁.mem s₁.root) s.trace (s.mem s₁.root)
  slot_zero : s.mem s₁.root 0 = s₁.mem s₁.root 0
  slot_self : s.mem s₁.root 1023 = s₁.mem s₁.root 1023
  below_window : ∀ c, .mapPage c ∈ s.trace → c.virtAddr < 0xFFC00000

section Directory

variable {bm : Bitmap} {mem : PhysMem} {s₁ s₂ s : Machine} {live : Live}

/-- What comes after `mmu_init`. -/
def startPaging : Kernel Unit := do
  mmuEnable
  memoryInit

/-- The start is the start of the tables and then that of the heap. -/
theorem startMemory_eq_ok (hinit : mmuInit (.boot bm mem) = .ok ((), s₁))
    (hstart : startPaging s₁ = .ok ((), s₂)) : startMemory (.boot bm mem) = .ok ((), s₂) :=
  (bind_of_ok hinit).trans hstart

/-- Every mapping of the record was made below the window. -/
theorem DirectoryHistory.below_window {root : BitVec 20} {t₀ t : List Event}
    {d₀ d : BitVec 10 → BitVec 32} (h : DirectoryHistory root t₀ d₀ t d)
    (h₀ : ∀ c, .mapPage c ∉ t₀) {c : MapCall} (hc : .mapPage c ∈ t) :
    c.virtAddr < 0xFFC00000 := by
  induction h with
  | start => exact absurd hc (h₀ c)
  | @call t c' _ hinstalls ih =>
    rcases List.mem_cons.mp hc with hc | hc
    · rw [Event.mapPage.inj hc]
      exact hinstalls.below_window
    · exact ih hc
  | @other t d e _ hother ih =>
    rcases List.mem_cons.mp hc with hc | hc
    · exact absurd hc.symm (hother c)
    · exact ih hc

/-- **The directory in a run.**  While growth and page faults stay below the window, the directory
changes only by cleared tables in empty slots. -/
theorem memoryRun_directory (hinit : mmuInit (.boot bm mem) = .ok ((), s₁))
    (hstart : startPaging s₁ = .ok ((), s₂))
    (hrun : Relation.ReflTransGen (MemoryCall WithinRoom BelowWindow) (s₂, fun _ => none)
      (s, live)) : DirectoryKept s₁ s := by
  obtain ⟨-, -, hev⟩ := memoryRun_inv (fun _ _ h => h) (fun _ _ h => h)
    (startMemory_eq_ok hinit hstart) hrun
  -- the state after `mmu_enable` has the memory and the record of `s₁`
  have hboot : (do mmuInit; mmuEnable : Kernel Unit) (.boot bm mem) =
      .ok ((), { s₁ with cr3 := some s₁.kernelDirectory }) := bind_of_ok hinit
  obtain ⟨t, hbooted⟩ := mmuInit_booted onFault hboot
  obtain ⟨s', bs, hinit', hres, -⟩ := memoryInit_result hbooted.paging hbooted.head_eq
  obtain rfl := (Prod.mk.inj (Except.ok.inj (hstart.symm.trans hinit'))).2
  have hev' := hres.evolves.trans hev
  have hist := directoryHistory_evolves hbooted.paging hev' .start
  rw [root_evolves hev'] at hist
  refine ⟨hist, hist.present ?_, hist.present ?_, fun c hc => hist.below_window ?_ hc⟩
  · rw [hbooted.slot_zero]
    rfl
  · rw [hbooted.slot_self]
    rfl
  · intro c hc
    rcases hbooted.trace _ hc with ⟨va, f, h⟩ | ⟨a, h, -⟩ <;> simp at h

/-- A fault in the window at an empty slot of the directory puts the new frame there as it is. -/
theorem mmuHandlePageFault_window (h : Paging s) (hfree : ¬ s.bitmap.Full) {va : BitVec 32}
    (hva : pdIndex va = 1023) (habsent : s.table (ptIndex va) = none) (isWrite : Bool) :
    ∃ s' c, mmuHandlePageFault va (s.errorCode va isWrite) s = .ok ((), s') ∧
      .mapPage c ∈ s'.trace ∧ pdIndex c.virtAddr = 1023 ∧
      ∃ f, s'.table (ptIndex va) = some f ∧ f ≠ s.root ∧ s'.mem f = s.mem f := by
  have htrans : s.translate va = none := by
    rw [translate_eq h.recursive.cr3_eq, walk, hva]
    refine Option.map_eq_none_iff.mp ((walk_frame h.recursive.selfMap).trans ?_)
    exact habsent
  have hstart : heapStart ≤ va := by
    have hto : heapStart.toNat = 0xD0000000 := rfl
    have hpd := congrArg BitVec.toNat hva
    rw [pdIndex_toNat] at hpd
    change _ = 1023 at hpd
    rw [BitVec.le_def, hto]
    omega
  obtain ⟨hpd, hpt⟩ := Owner.leaf.inj (pageOwner_mask va)
  rcases pmmAllocFrame_cases s.bitmap with ⟨hfull, -⟩ | ⟨a, bm, halloc, hall⟩
  · exact absurd hfull hfree
  have ha : a ≠ 0 := mt hall.frame_zero_iff.mpr (hall.frame_ne h.zero_used)
  have hne : frameOf a ≠ s.root := fun hc => h.not_owned hall.free .root (congrArg some hc.symm)
  refine ⟨_, _, (mmuHandlePageFaultWith_backs onFault htrans hstart halloc ha).trans
    (mmuMapPageWith_window onFault h (hpd.trans hva) a bm), List.mem_cons_self, hpd.trans hva,
    frameOf a, ?_, hne, ?_⟩
  · change RecursiveTable.table decodeEntry (write s.mem s.root (ptIndex (va &&& 0xFFFFF000))
      (pteWord (frameOf a) true false)) s.root (ptIndex va) = some (frameOf a)
    rw [hpt, RecursiveTable.table, write_apply, if_pos ⟨rfl, rfl⟩, decodeEntry_pteWord]
    rfl
  · funext j
    exact write_of_ne _ _ _ _ _ _ hne

end Directory

/-- On a machine of 64 frames `memory_init` succeeds. -/
theorem smallMachine_start :
    ∃ s₁ s₂, mmuInit (.boot smallBitmap fun _ _ => 0) = .ok ((), s₁) ∧
      startPaging s₁ = .ok ((), s₂) ∧ Started 61 s₂ := by
  obtain ⟨s₂, hstart, hstarted⟩ := smallBitmap_started
  obtain ⟨⟨⟩, s₁, hinit, hrest⟩ := bind_eq_ok.mp hstart
  exact ⟨s₁, s₂, hinit, hrest, hstarted⟩

/-- A fault at `0xFFF41000` makes a frame that was not cleared the table of slot `0x341`. -/
theorem memoryRun_window :
    ∃ s₁ s₂ s, mmuInit (.boot smallBitmap fun _ _ => 0) = .ok ((), s₁) ∧
      startPaging s₁ = .ok ((), s₂) ∧
      Relation.ReflTransGen (MemoryCall (fun _ _ => True) fun _ _ => True) (s₂, fun _ => none)
        (s, fun _ => none) ∧ ¬ DirectoryKept s₁ s := by
  obtain ⟨s₁, s₂, hinit, hstart, hstarted⟩ := smallMachine_start
  have h := startMemory_pages (startMemory_eq_ok hinit hstart)
  obtain ⟨s, c, hrun, hmem, hslot, -⟩ := mmuHandlePageFault_window h.paging
    (hstarted.not_full (by decide)) (show pdIndex 0xFFF41000 = 1023 by decide)
    (hstarted.table_none _ (by decide) (by decide)) true
  refine ⟨s₁, s₂, s, hinit, hstart, .single (.fault _ true trivial hrun), fun hkept => ?_⟩
  exact pdIndex_ne_window.mpr (hkept.below_window c hmem) hslot

/-- A call of `malloc` keeps the directory of the small machine. -/
theorem memoryRun_directory_malloc :
    ∃ s₁ s₂ s, ∃ live : Live, mmuInit (.boot smallBitmap fun _ _ => 0) = .ok ((), s₁) ∧
      MemoryCall WithinRoom BelowWindow (s₂, fun _ => none) (s, live) ∧ DirectoryKept s₁ s := by
  obtain ⟨s₁, s₂, hinit, hstart, hstarted⟩ := smallMachine_start
  obtain ⟨s, p, -, hgrows, hmalloc⟩ :=
    smallMachine_fits (startMemory_eq_ok hinit hstart) hstarted.head_ne
  have hstep : MemoryCall WithinRoom BelowWindow (s₂, fun _ => none) (s, _) :=
    .malloc 100 p (fun h => absurd h hgrows) hmalloc
  exact ⟨s₁, s₂, s, _, hinit, hstep, memoryRun_directory hinit hstart (.single hstep)⟩

/-! ### The frames -/

/-- The pages that the growth for a request maps are absent: those for which there is a frame. -/
def GrowsOverAbsent (s : Machine) (size : BitVec 32) : Prop :=
  WithinRoom s size ∧ (s.Grows size → ∀ i < pagesFor size, s.Reaches i →
    s.translate (s.heapEnd + BitVec.ofNat 32 (4096 * i)) = none)

section Frames

variable {bm : Bitmap} {mem : PhysMem} {s₀ s s' : Machine} {live live' : Live} {bs bs' : List Block}
  {p size a va : BitVec 32} {n pages : ℕ}

/-- Every frame that was handed out has an owner, and every owner keeps its frame. -/
def KeepsFrames (s s' : Machine) : Prop := Kept s' ∧ ∀ o f, s.owner o = some f → s'.owner o = some f

/-- A store keeps every frame with its owner. -/
theorem StoredIn.keepsFrames {A : Set ℕ} (hst : StoredIn A s s') (hk : Kept s) :
    KeepsFrames s s' := by
  obtain ⟨evs, hevs, hin⟩ := hst.trace
  refine ⟨fun b hb hb0 => ?_, fun o f ho => hst.owner_eq ▸ ho⟩
  rw [hevs] at hb
  rcases List.mem_append.mp hb with hb | hb
  · obtain ⟨va, f, hc, -⟩ := hin _ hb
    simp at hc
  · rw [hst.owner_eq]
    exact hk b hb hb0

/-- Growth over absent pages. -/
theorem Grown.keepsFrames (hg : Grown n s s') (h : HeapPages s) (hk : Kept s)
    (habsent : ∀ i < n, s.Reaches i →
      s.translate (s.heapEnd + BitVec.ofNat 32 (4096 * i)) = none) : KeepsFrames s s' := by
  have hend := hg.heapEnd_eq h
  have hwindow := (hg.heapPages h).le_window
  have haligned := h.aligned
  have hstart := h.start_le
  refine hg.kept h hk fun va hlo hhi => ?_
  -- the page of `va` is page `i` of the growth
  let i := (va.toNat - s.heapEnd.toNat) / 4096
  have hi : i < n := by
    simp only [i]
    omega
  have hto : (s.heapEnd + BitVec.ofNat 32 (4096 * i)).toNat = s.heapEnd.toNat + 4096 * i := by
    have hoff : 4096 * i ≤ va.toNat - s.heapEnd.toNat := Nat.mul_div_le _ _
    rw [BitVec.toNat_add, BitVec.toNat_ofNat, Nat.mod_eq_of_lt (a := 4096 * i) (by omega)]
    omega
  have hpage : pageOwner va = pageOwner (s.heapEnd + BitVec.ofNat 32 (4096 * i)) := by
    rw [pageOwner_eq_iff, hto, pageSize]
    simp only [i]
    omega
  rw [hpage, owner_eq_translate h.paging (by omega) (by omega), habsent i hi (hg.reaches h hi),
    Option.map_none]

/-- `malloc` keeps every frame with its owner when it grows over absent pages. -/
theorem MallocResult.keepsFrames (hres : MallocResult s bs n pages p s' bs') (h : HeapInv s bs)
    (hk : Kept s) (habsent : (∀ x ∈ bs, ¬ Fits n x) → ∀ i < pages, s.Reaches i →
      s.translate (s.heapEnd + BitVec.ofNat 32 (4096 * i)) = none) : KeepsFrames s s' := by
  have hpages := h.blocks.pages
  cases hres with
  | fit _ _ _ _ hst => exact hst.keepsFrames hk
  | grow hnone _ hg _ hst =>
    obtain ⟨hk₁, hmono⟩ := hg.keepsFrames hpages hk (habsent hnone)
    obtain ⟨hk', hmono'⟩ := hst.keepsFrames hk₁
    exact ⟨hk', fun o f ho => hmono' o f (hmono o f ho)⟩
  | fail hnone hlt hg _ =>
    obtain ⟨hk₁, hmono⟩ := hg.keepsFrames hpages hk fun i hi => habsent hnone i (by omega)
    refine ⟨fun b hb hb0 => ?_, hmono⟩
    rcases List.mem_cons.mp hb with hb | hb
    · exact absurd (Event.alloc.inj hb) hb0
    · exact hk₁ b hb hb0

/-- **One call loses no frame.** -/
theorem memoryCall_keepsFrames (hinv : RunInv True s live bs) (hk : Kept s)
    (hstep : MemoryCall GrowsOverAbsent BelowWindow (s, live) (s', live')) : KeepsFrames s s' := by
  cases hstep with
  | malloc size p hok hrun =>
    rcases malloc_spec hinv hok.1 hrun with ⟨-, -, rfl⟩ | ⟨bs', hres, -⟩
    · exact ⟨hk, fun _ _ ho => ho⟩
    · exact hres.keepsFrames hinv.heap hk fun hnone =>
        hok.2 ((hinv.heap.grows_iff size).mpr hnone)
  | freeNull hrun =>
    rw [free_zero] at hrun
    obtain rfl := (Prod.mk.inj (Except.ok.inj hrun)).2
    exact ⟨hk, fun _ _ ho => ho⟩
  | free p size hlive hrun =>
    obtain ⟨-, us, hst, -, -⟩ := free_runInv hinv hlive hrun
    exact hst.keepsFrames hk
  | fault va write hok hrun =>
    obtain ⟨-, habsent, a, hb⟩ :=
      mmuHandlePageFaultWith_backed onFault hinv.heap.blocks.pages.paging hok hrun
    rw [← pageOwner_mask] at habsent
    refine ⟨kept_backed hb hk habsent, fun o f ho => hb.owner_mono o f ?_ ho⟩
    rintro rfl
    rw [habsent] at ho
    exact absurd ho (by simp)

/-- `memory_init` loses no frame. -/
theorem InitResult.kept {t : BitVec 20} (hres : InitResult s s' bs) (h : Booted s t) : Kept s' := by
  have hpages := h.paging.heapPages_start
  have hk : Kept { s with heapEnd := heapVirtStart } := by
    intro b hb _
    rw [owner_vars s _ s.head]
    rcases h.trace _ hb with ⟨va, f, hc⟩ | ⟨b', hc, hframe⟩
    · simp at hc
    · obtain rfl := Event.alloc.inj hc
      rcases hframe with hroot | htable
      · exact ⟨.root, congrArg some hroot.symm⟩
      · refine ⟨.table 0, ?_⟩
        rw [owner_table (by decide), htable]
        exact table_eq_some_iff.mpr ⟨_, h.slot_zero⟩
  have habsent : ∀ va : BitVec 32,
      ({ s with heapEnd := heapVirtStart } : Machine).owner (pageOwner va) = none :=
    fun va => h.owner_leaf_none _ _
  cases hres with
  | @mapped s₁ u hg hst =>
    have hk₁ : Kept { s₁ with head := heapVirtStart } :=
      (hg.kept hpages hk fun va _ _ => habsent va).1.vars s₁.heapEnd heapVirtStart
    intro b hb hb0
    exact (hst.keepsFrames hk₁).1 b ((List.mem_cons.mp hb).resolve_left (by simp)) hb0
  | @failed k s₁ _ hg _ =>
    have hk₁ := (hg.kept hpages hk fun va _ _ => habsent va).1
    intro b hb hb0
    rcases List.mem_cons.mp hb with hb | hb
    · simp at hb
    · rcases List.mem_cons.mp hb with hb | hb
      · exact absurd (Event.alloc.inj hb) hb0
      · exact hk₁ b hb hb0

/-- **No frame is lost in a run** in which the heap grows over absent pages only; and every call
leaves every frame where it is. -/
theorem memoryRun_kept (hstart : startMemory (.boot bm mem) = .ok ((), s₀))
    (hrun : Relation.ReflTransGen (MemoryCall GrowsOverAbsent BelowWindow) (s₀, fun _ => none)
      (s, live)) :
    Kept s ∧ ∀ s' live', MemoryCall GrowsOverAbsent BelowWindow (s, live) (s', live') →
      KeepsFrames s s' := by
  have hmain : ∃ bs, RunInv True s live bs ∧ Kept s := by
    obtain ⟨_, _, bs, hbooted, hres, hinv⟩ := startMemory_runInv hstart
    refine run_invariant (fun z : Machine × Live => ∃ bs, RunInv True z.1 z.2 bs ∧ Kept z.1) hrun
      ⟨bs, hinv, hres.kept hbooted⟩ fun ⟨_, hinv, hk⟩ hstep => ?_
    obtain ⟨bs', hinv', -⟩ := memoryCall_spec (fun _ _ h => h.1) (fun _ _ h => h) hinv hstep
    exact ⟨bs', hinv', (memoryCall_keepsFrames hinv hk hstep).1⟩
  obtain ⟨bs, hinv, hk⟩ := hmain
  exact ⟨hk, fun s' live' hstep => memoryCall_keepsFrames hinv hk hstep⟩

/-- A request for the whole first block leaves no free block. -/
theorem malloc_firstBlock (hinv : RunInv True s (fun _ => none) [firstBlock]) :
    ∃ s' live bs, MemoryCall WithinRoom BelowWindow (s, fun _ => none) (s', live) ∧
      RunInv True s' live bs ∧ (∀ b ∈ bs, b.free = false) ∧ s'.heapEnd = s.heapEnd ∧
      s'.owner = s.owner ∧ s'.bitmap = s.bitmap := by
  have hmem : firstBlock ∈ [firstBlock] := List.mem_singleton_self _
  have hfits : Fits (alignUp 0xFFF0 8).toNat firstBlock := ⟨rfl, by decide⟩
  have hroom : WithinRoom s 0xFFF0 := fun hg => absurd hfits ((hinv.heap.grows_iff _).mp hg _ hmem)
  obtain ⟨p, s', -, hrun, -⟩ := malloc_result hinv.heap (show (0xFFF0 : BitVec 32) ≠ 0 by decide)
    fun hnone => absurd hfits (hnone _ hmem)
  have hcall : MemoryCall WithinRoom BelowWindow (s, fun _ => none) (s', _) :=
    .malloc 0xFFF0 p hroom hrun
  rcases malloc_spec hinv hroom hrun with ⟨h0, -⟩ | ⟨bs', hres, hinv'⟩
  · exact absurd h0 (by decide)
  obtain ⟨rfl, -, hst⟩ := hres.first hfits
  refine ⟨s', _, _, hcall, hinv', ?_, hst.heapEnd_eq, hst.owner_eq, hst.bitmap_eq⟩
  have htaken : taken firstBlock (alignUp 0xFFF0 8).toNat = [⟨0xD0000000, 0xFFF0, false⟩] := by
    decide
  rw [htaken]
  simp

/-- A fault backs the page at the end of the heap; then the heap grows over it. -/
theorem memoryRun_loses :
    ∃ s₀ s, ∃ live : Live, startMemory (.boot smallBitmap fun _ _ => 0) = .ok ((), s₀) ∧
      Relation.ReflTransGen (MemoryCall WithinRoom BelowWindow) (s₀, fun _ => none) (s, live) ∧
      ¬ Kept s := by
  obtain ⟨s₀, hstart, hstarted⟩ := smallBitmap_started
  have hend₀ := (startMemory_heap hstart hstarted.head_ne).2
  obtain ⟨s₁, live₁, bs, hcall₁, hinv₁, hused, hend₁, howner₁, hbitmap₁⟩ :=
    malloc_firstBlock (runInv_start hstart hstarted.head_ne)
  have hend : s₁.heapEnd = 0xD0010000 := hend₁.trans (BitVec.eq_of_toNat_eq hend₀)
  have hp₁ := hinv₁.heap.blocks.pages.paging
  -- the page fault
  have hslot : HeapSlot (pdIndex 0xD0010000) := by decide
  have hmask : (0xD0010000 : BitVec 32) &&& 0xFFFFF000 = 0xD0010000 := by decide
  have habsent : s₁.owner (pageOwner 0xD0010000) = none :=
    howner₁ ▸ hstarted.owner_none _ (by decide)
  have htrans : s₁.translate 0xD0010000 = none := by
    rw [owner_eq_translate hp₁ (by decide) (by decide)] at habsent
    exact Option.map_eq_none_iff.mp habsent
  have hfree₁ : s₁.bitmap.freeFrames = 44 := by
    have := hstarted.freeFrames_eq
    rw [hbitmap₁]
    omega
  have hnot : ¬ s₁.bitmap.Full := by
    rw [Bitmap.full_iff_freeFrames]
    omega
  obtain ⟨a, s₂, hfault, hb⟩ := mmuHandlePageFaultWith_ok onFault hp₁ hslot htrans hnot true
  rw [hmask] at hb
  have ha : a ≠ 0 := by
    obtain ⟨bm, hall, -⟩ := hb.bitmap
    exact mt hall.frame_zero_iff.mpr (hall.frame_ne hp₁.zero_used)
  have hcall₂ : MemoryCall WithinRoom BelowWindow (s₁, live₁) (s₂, live₁) :=
    .fault 0xD0010000 true (by rw [BelowWindow]; decide) hfault
  have hinv₂ : RunInv True s₂ live₁ bs := hinv₁.backed (hmask ▸ hb) habsent
  have hend₂ : s₂.heapEnd = 0xD0010000 := hb.heapEnd_eq.trans hend
  have hfree₂ : ¬ s₂.bitmap.Full := by
    have := (hb.supply hslot).1
    rw [Bitmap.full_iff_freeFrames]
    omega
  -- the growth
  have hone : pagesFor 100 = 1 := by decide
  have hroom : WithinRoom s₂ 100 := by
    refine fun _ => ⟨by decide, Or.inl ?_⟩
    rw [hone, Machine.room, hend₂]
    decide
  obtain ⟨p, s₃, -, hrun, -⟩ := malloc_result hinv₂.heap (show (100 : BitVec 32) ≠ 0 by decide)
    fun hnone =>
      have hgrow := hroom ((hinv₂.heap.grows_iff 100).mpr hnone)
      ⟨hgrow.1, growthStays_of_supply hinv₂.heap.blocks.pages hgrow.2⟩
  have hcall₃ : MemoryCall WithinRoom BelowWindow (s₂, live₁) (s₃, _) := .malloc 100 p hroom hrun
  refine ⟨s₀, s₃, _, hstart, ((Relation.ReflTransGen.single hcall₁).tail hcall₂).tail hcall₃, ?_⟩
  have hpage : s₂.owner (pageOwner s₂.heapEnd) = some (frameOf a) := hend₂ ▸ hb.owner_page
  have hrecorded : .alloc a ∈ s₂.trace := by
    obtain ⟨c, evs, htrace, -⟩ := hb.trace
    rw [htrace]
    simp
  rcases malloc_spec hinv₂ hroom hrun with ⟨h0, -⟩ | ⟨bs', hres, -⟩
  · exact absurd h0 (by decide)
  rw [hone] at hres
  cases hres with
  | fit hbs _ hfits _ _ =>
    have := hused _ (hbs ▸ List.mem_append_right _ List.mem_cons_self)
    rw [hfits.1] at this
    exact absurd this (by simp)
  | @grow _ s' _ _ _ hg _ hst =>
    intro hk
    obtain ⟨evs, hevs⟩ := trace_evolves (hg.evolves.trans hst.evolves)
    obtain ⟨o, ho⟩ := hk a (hevs ▸ List.mem_append_right _ hrecorded) ha
    rw [hst.owner_eq] at ho
    cases hg with
    | @page _ _ u _ _ _ hb' hg =>
      cases hg with
      | done =>
        rw [owner_vars u _ u.head] at ho
        exact lost_backed hinv₂.heap.blocks.pages.paging hb' hpage o ho
  | @fail k s' _ hk hg hfull =>
    obtain rfl : k = 0 := by omega
    cases hg with
    | done => exact absurd hfull hfree₂

/-- A call of `malloc` on the small machine keeps every frame. -/
theorem memoryRun_kept_malloc :
    ∃ s₀ s, ∃ live : Live, MemoryCall GrowsOverAbsent BelowWindow (s₀, fun _ => none) (s, live) ∧
      Kept s := by
  obtain ⟨s₀, hstart, hstarted⟩ := smallBitmap_started
  obtain ⟨s, p, -, hgrows, hmalloc⟩ := smallMachine_fits hstart hstarted.head_ne
  have hstep : MemoryCall GrowsOverAbsent BelowWindow (s₀, fun _ => none) (s, _) :=
    .malloc 100 p ⟨fun h => absurd h hgrows, fun h => absurd h hgrows⟩ hmalloc
  exact ⟨s₀, s, _, hstep, (memoryRun_kept hstart (.single hstep)).1⟩

end Frames

/-! ### Failed calls -/

/-- A program leaves `heap_end` alone. -/
def SameEnd (s s' : Machine) : Prop := s'.heapEnd = s.heapEnd

instance : Std.Refl SameEnd := ⟨fun _ => rfl⟩

instance : IsTrans Machine SameEnd := ⟨fun _ _ _ h h' => h'.trans h⟩

section SameEnd

variable {fault : BitVec 32 → Bool → Kernel Unit}

/-- Recording an event leaves `heap_end`. -/
theorem record_sameEnd (e : Event) : Respects SameEnd (record e) := .modify fun _ => rfl

/-- Allocating a frame leaves `heap_end`. -/
theorem allocFrame_sameEnd : Respects SameEnd allocFrame := by
  refine Respects.bind (fun s a s' h => ?_) fun a => (record_sameEnd _).bind fun _ => .pure a
  unfold callPmm at h
  split at h
  · rw [← (Prod.mk.inj (Except.ok.inj h)).2]
    rfl
  · exact absurd h (by simp)

/-- An access leaves `heap_end` when its faults do. -/
theorem accessWith_sameEnd (hfault : ∀ va w, Respects SameEnd (fault va w)) (n : ℕ)
    (va : BitVec 32) (w : Bool) : Respects SameEnd (accessWith fault n va w) := by
  induction n with
  | zero => exact .throw _
  | succ n ih =>
    refine .get_bind fun t => ?_
    split
    · exact .pure _
    · exact (hfault va w).bind fun _ => ih

/-- A load leaves `heap_end` when its faults do. -/
theorem loadWith_sameEnd (hfault : ∀ va w, Respects SameEnd (fault va w)) (va : BitVec 32) :
    Respects SameEnd (loadWith fault va) :=
  (accessWith_sameEnd hfault _ va false).bind fun _ => .get_bind fun _ => .pure _

/-- A store leaves `heap_end` when its faults do. -/
theorem storeWith_sameEnd (hfault : ∀ va w, Respects SameEnd (fault va w)) (va w : BitVec 32) :
    Respects SameEnd (storeWith fault va w) :=
  (accessWith_sameEnd hfault _ va true).bind fun _ => .modify fun _ => rfl

/-- Stores in a row leave `heap_end` when their faults do. -/
theorem storeWordsWith_sameEnd (hfault : ∀ va w, Respects SameEnd (fault va w)) (base : BitVec 32)
    (word : ℕ → BitVec 32) (n i : ℕ) : Respects SameEnd (storeWordsWith fault base word n i) := by
  induction n generalizing i with
  | zero => exact .pure _
  | succ n ih => exact (storeWith_sameEnd hfault _ _).bind fun _ => ih _

/-- `mmu_map_page` leaves `heap_end` when its faults do. -/
theorem mmuMapPageWith_sameEnd (hfault : ∀ va w, Respects SameEnd (fault va w))
    (phys virt : BitVec 32) (w u : Bool) :
    Respects SameEnd (mmuMapPageWith fault phys virt w u) := by
  refine .get_bind fun _ => Respects.bind ?_ fun _ => (storeWith_sameEnd hfault _ _).bind fun _ =>
    (record_sameEnd _).bind fun _ => .get_bind fun _ => record_sameEnd _
  refine (loadWith_sameEnd hfault _).bind fun _ => .ite (.pure _) ?_
  exact allocFrame_sameEnd.bind fun _ => (storeWith_sameEnd hfault _ _).bind fun _ =>
    (record_sameEnd _).bind fun _ => storeWordsWith_sameEnd hfault _ _ _ _

/-- The page fault handler leaves `heap_end` when its own faults do. -/
theorem mmuHandlePageFaultWith_sameEnd (hfault : ∀ va w, Respects SameEnd (fault va w))
    (va code : BitVec 32) : Respects SameEnd (mmuHandlePageFaultWith fault va code) :=
  .ite (.throw _) <| .ite (allocFrame_sameEnd.bind fun _ =>
    .ite (mmuMapPageWith_sameEnd hfault _ _ _ _) (.throw _)) (.throw _)

/-- A page fault leaves `heap_end`, however deep it is nested. -/
theorem pageFault_sameEnd (n : ℕ) (va : BitVec 32) (w : Bool) :
    Respects SameEnd (pageFault n va w) := by
  induction n generalizing va w with
  | zero => exact .throw _
  | succ n ih => exact .get_bind fun _ => mmuHandlePageFaultWith_sameEnd ih _ _

/-- However it ends, `heap_map_pages` has advanced `heap_end` by whole pages, and by at least one
if there was a frame. -/
theorem heapMapPages_end {n : ℕ} {s s' : Machine} {ok : Bool}
    (hrun : heapMapPages n s = .ok (ok, s')) :
    ∃ k ≤ n, s'.heapEnd = s.heapEnd + BitVec.ofNat 32 (4096 * k) ∧
      (s.bitmap.used 0 = true → k = 0 → n = 0 ∨ s.bitmap.Full) := by
  induction n generalizing s with
  | zero =>
    obtain rfl := (Prod.mk.inj (Except.ok.inj hrun)).2
    exact ⟨0, le_rfl, by simp, fun _ _ => Or.inl rfl⟩
  | succ n ih =>
    rcases pmmAllocFrame_cases s.bitmap with ⟨hfull, halloc⟩ | ⟨a, bm, halloc, hall⟩
    · rw [heapMapPages, bind_of_ok (allocFrame_ok halloc), if_pos rfl] at hrun
      obtain rfl := (Prod.mk.inj (Except.ok.inj hrun)).2
      exact ⟨0, Nat.zero_le _, by simp, fun _ _ => Or.inr hfull⟩
    · rw [heapMapPages, bind_of_ok (allocFrame_ok halloc)] at hrun
      by_cases ha : a = 0
      · rw [if_pos ha] at hrun
        obtain rfl := (Prod.mk.inj (Except.ok.inj hrun)).2
        exact ⟨0, Nat.zero_le _, by simp,
          fun hzero _ => absurd (hall.frame_zero_iff.mpr ha) (hall.frame_ne hzero)⟩
      · rw [if_neg ha, get_bind_apply] at hrun
        obtain ⟨⟨⟩, u, hmap, hrest⟩ := bind_eq_ok.mp hrun
        have hend : SameEnd { s with bitmap := bm, trace := .alloc a :: s.trace } u :=
          mmuMapPageWith_sameEnd (pageFault_sameEnd faultFuel) a s.heapEnd true false _ _ _ hmap
        rw [SameEnd] at hend
        rw [modify_bind_apply] at hrest
        obtain ⟨k, hk, hend', -⟩ := ih hrest
        refine ⟨k + 1, by omega, ?_, fun _ h0 => absurd h0 (Nat.succ_ne_zero k)⟩
        rw [hend', hend, BitVec.add_assoc, ← BitVec.ofNat_add, pageSize, Nat.mul_succ, Nat.add_comm]

end SameEnd

/-- What a failed call should leave as it was: the end and the list of the heap, the bitmap and all
mappings. -/
structure SystemUnchanged (s s' : Machine) : Prop where
  heapEnd_eq : s'.heapEnd = s.heapEnd
  head_eq : s'.head = s.head
  word_eq : ∀ a, s'.heapWord a = s.heapWord a
  bitmap_eq : s'.bitmap = s.bitmap
  translate_eq : ∀ va, s'.translate va = s.translate va

section Failed

variable {bm : Bitmap} {mem : PhysMem} {s₀ s s' : Machine} {live : Live} {bs : List Block}
  {p size block : BitVec 32}

/-- The program returns only results that satisfy `P`. -/
def Returns {α : Type} (P : α → Prop) (x : Kernel α) : Prop :=
  ∀ s a s', x s = .ok (a, s') → P a

/-- Programs in sequence return what the last of them returns. -/
theorem Returns.bind {α β : Type} {P : β → Prop} {x : Kernel α} {f : α → Kernel β}
    (hf : ∀ a, Returns P (f a)) : Returns P (x >>= f) := by
  intro s b s' h
  obtain ⟨a, t, -, hft⟩ := bind_eq_ok.mp h
  exact hf a t b s' hft

/-- A pure program returns its value. -/
theorem Returns.pure {α : Type} {P : α → Prop} {a : α} (ha : P a) :
    Returns P (Pure.pure a : Kernel α) := by
  intro s b s' h
  rw [← (Prod.mk.inj (Except.ok.inj h)).1]
  exact ha

/-- Taking a block returns the address behind its header. -/
theorem takeBlock_returns (block size : BitVec 32) :
    Returns (· = block + headerSize) (takeBlock block size) :=
  .bind fun _ => .bind fun _ => .pure rfl

/-- Appending a block returns the block. -/
theorem appendBlock_returns (block : BitVec 32) : Returns (· = block) (appendBlock block) :=
  .bind fun _ => .bind fun _ => .bind fun _ => .bind fun _ => .bind fun _ => .bind fun _ =>
    .bind fun _ => .bind fun _ => .pure rfl

/-- The end of `malloc` returns `NULL` only when `heap_map_pages` failed. -/
theorem mallocGrow_null (h : HeapPages s) (hrun : mallocGrow size s = .ok (0, s')) :
    heapMapPages (growPages (size + headerSize)) s = .ok (false, s') := by
  obtain ⟨block, t, hgrow, hrest⟩ := bind_eq_ok.mp hrun
  rw [heapGrow, get_bind_apply] at hgrow
  obtain ⟨ok, u, hmap, hgrow⟩ := bind_eq_ok.mp hgrow
  have hstart := h.start_le
  have hwindow := h.le_window
  cases ok with
  | false =>
    obtain ⟨rfl, rfl⟩ := Prod.mk.inj (Except.ok.inj hgrow)
    obtain rfl := (Prod.mk.inj (Except.ok.inj hrest)).2
    exact hmap
  | true =>
    have hblock : block = s.heapEnd := appendBlock_returns s.heapEnd u block t hgrow
    have h0 : block ≠ 0 := by
      rw [hblock]
      intro hc
      rw [hc] at hstart
      exact absurd hstart (by decide)
    rw [if_neg h0] at hrest
    have hp := congrArg BitVec.toNat (takeBlock_returns block size t 0 s' hrest)
    have hheader : headerSize.toNat = 16 := rfl
    rw [hblock, BitVec.toNat_add, hheader] at hp
    change 0 = _ at hp
    omega

/-- A call of `malloc` that returns `NULL`: for no bytes, or after a growth that failed. -/
theorem malloc_null (h : HeapInv s bs) (hrun : malloc size s = .ok (0, s')) :
    (size = 0 ∧ s' = s) ∨
      (size ≠ 0 ∧ s.Grows size ∧ heapMapPages (pagesFor size) s = .ok (false, s')) := by
  by_cases h0 : size = 0
  · rw [h0, malloc_zero] at hrun
    exact Or.inl ⟨h0, ((Prod.mk.inj (Except.ok.inj hrun)).2).symm⟩
  · have hmalloc : malloc size s = mallocLoop (alignUp size 8) listFuel s.head s := by
      rw [malloc, if_neg h0]
      rfl
    rw [hmalloc] at hrun
    rcases mallocLoop_eq (alignUp size 8) (l := []) h.blocks h.blocks.head_first h.length_lt with
      ⟨l, b, r, block, rfl, -, hfits, hblock, heq⟩ | ⟨hnone, heq⟩
    · obtain ⟨p, t, htake, hp, -⟩ := takeBlock_result h hfits (alignUp_eight_mod size) hblock
      rw [heq, htake] at hrun
      obtain rfl := (Prod.mk.inj (Except.ok.inj hrun)).1
      rw [Block.payload] at hp
      change 0 = _ at hp
      omega
    · rw [heq] at hrun
      exact Or.inr ⟨h0, (h.grows_iff size).mpr hnone, mallocGrow_null h.blocks.pages hrun⟩

/-- Without a wrap the growth has as many pages as the request needs. -/
theorem pagesFor_eq (h : (alignUp size 8).toNat + 16 + 4095 < 2 ^ 32) :
    pagesFor size = ((alignUp size 8).toNat + 16 + 4095) / 4096 := by
  have hheader : headerSize.toNat = 16 := rfl
  have hneeded : (alignUp size 8 + headerSize).toNat = (alignUp size 8).toNat + 16 := by
    rw [BitVec.toNat_add, hheader]
    omega
  rw [pagesFor, growPages_eq (by omega), hneeded]

/-- A growth that had a frame has moved `heap_end`. -/
theorem heapMapPages_moves {n : ℕ} {ok : Bool} (hrun : heapMapPages n s = .ok (ok, s'))
    (hzero : s.bitmap.used 0 = true) (hpos : n ≠ 0) (hn : 4096 * n < 2 ^ 32)
    (hfree : ¬ s.bitmap.Full) : s'.heapEnd ≠ s.heapEnd := by
  obtain ⟨k, hk, hend, hfull⟩ := heapMapPages_end hrun
  have hk0 : k ≠ 0 := fun h0 => (hfull hzero h0).elim hpos hfree
  intro hc
  rw [hc] at hend
  have hoff := congrArg BitVec.toNat (BitVec.self_eq_add_right.mp hend)
  rw [BitVec.toNat_ofNat, Nat.mod_eq_of_lt (by omega)] at hoff
  change _ = 0 at hoff
  omega

/-- **A failed call of `malloc`** changes nothing exactly when the allocator had no frame to begin
with; a growth that fails later keeps the frames it took, and `heap_end` stays advanced. -/
theorem malloc_null_unchanged_iff (hstart : startMemory (.boot bm mem) = .ok ((), s₀))
    (hrun : Relation.ReflTransGen (MemoryCall WithinRoom BelowWindow) (s₀, fun _ => none) (s, live))
    (hround : (alignUp size 8).toNat + 16 + 4095 < 2 ^ 32)
    (hnull : malloc size s = .ok (0, s')) :
    SystemUnchanged s s' ↔ size = 0 ∨ s.bitmap.Full := by
  obtain ⟨bs, hinv, -⟩ := memoryRun_inv (fun _ _ h => h) (fun _ _ h => h) hstart hrun
  have hpages := hinv.heap.blocks.pages
  rcases malloc_null hinv.heap hnull with ⟨rfl, rfl⟩ | ⟨h0, -, hmap⟩
  · exact iff_of_true ⟨rfl, rfl, fun _ => rfl, rfl, fun _ => rfl⟩ (Or.inl rfl)
  have hn := pagesFor_eq hround
  constructor
  · intro hsame
    refine Or.inr (by_contra fun hfree => ?_)
    exact heapMapPages_moves hmap hpages.paging.zero_used (by omega) (by omega) hfree
      hsame.heapEnd_eq
  · intro hfull
    replace hfull := hfull.resolve_left h0
    obtain ⟨m, hm⟩ : ∃ m, pagesFor size = m + 1 := ⟨pagesFor size - 1, by omega⟩
    rcases pmmAllocFrame_cases s.bitmap with ⟨-, halloc⟩ | ⟨a, bm', -, hall⟩
    · rw [hm, heapMapPages, bind_of_ok (allocFrame_ok halloc), if_pos rfl] at hmap
      obtain rfl := (Prod.mk.inj (Except.ok.inj hmap)).2
      exact ⟨rfl, rfl, fun _ => rfl, rfl, fun _ => rfl⟩
    · exact absurd hfull hall.not_full

/-- When a call of `malloc` returns `NULL`: for no bytes, or when no block fits and the last page of
the growth gets no frame. -/
theorem malloc_null_iff (h : HeapInv s bs) (hroom : WithinRoom s size) :
    (∃ s', malloc size s = .ok (0, s')) ↔
      size = 0 ∨ (s.Grows size ∧ pagesFor size ≠ 0 ∧ ¬ s.Reaches (pagesFor size - 1)) := by
  have hpages := h.blocks.pages
  constructor
  · rintro ⟨s', hrun⟩
    rcases malloc_null h hrun with ⟨h0, -⟩ | ⟨-, hgrows, hmap⟩
    · exact Or.inl h0
    · have hok := heapMapPages_ok_iff hpages (growthStays_of_supply hpages (hroom hgrows).2)
      refine Or.inr ⟨hgrows, not_or.mp (mt hok.mpr ?_)⟩
      rintro ⟨t, ht⟩
      rw [hmap] at ht
      exact absurd (Prod.mk.inj (Except.ok.inj ht)).1 (by simp)
  · intro hcond
    by_cases h0 : size = 0
    · exact ⟨s, h0 ▸ malloc_zero s⟩
    · obtain ⟨hgrows, hpos, hnot⟩ := hcond.resolve_left h0
      have hnone := (h.grows_iff size).mp hgrows
      obtain ⟨p, s', bs', hrun, hres, -⟩ := malloc_result h h0 fun _ =>
        ⟨(hroom hgrows).1, growthStays_of_supply hpages (hroom hgrows).2⟩
      cases hres with
      | fit hbs _ hfits _ _ =>
        exact absurd hfits (hnone _ (hbs ▸ List.mem_append_right _ List.mem_cons_self))
      | grow _ _ hg _ _ =>
        exact absurd (hg.reaches hpages (Nat.sub_lt (Nat.pos_of_ne_zero hpos) Nat.one_pos)) hnot
      | fail _ _ _ _ => exact ⟨_, hrun⟩

/-- With one frame left, a request for 18 pages takes it and fails. -/
theorem tinyMachine_null :
    ∃ s₀ s', startMemory (.boot tinyBitmap fun _ _ => 0) = .ok ((), s₀) ∧
      malloc 0x11000 s₀ = .ok (0, s') ∧ ¬ s₀.bitmap.Full := by
  obtain ⟨s₀, hstart, hstarted⟩ := tinyMachine_start
  obtain ⟨hinv, hend⟩ := startMemory_heap hstart hstarted.head_ne
  have hfree := hstarted.freeFrames_eq
  have hpages : pagesFor 0x11000 = 18 := by decide
  have hgrows : s₀.Grows 0x11000 := by
    refine (hinv.grows_iff _).mpr fun x hx hfits => ?_
    rw [List.mem_singleton.mp hx] at hfits
    exact absurd hfits.2 (by decide)
  have hroom : WithinRoom s₀ 0x11000 := by
    refine fun _ => ⟨by decide, Or.inl ?_⟩
    rw [hpages, Machine.room, hend]
    decide
  obtain ⟨s', hnull⟩ := (malloc_null_iff hinv hroom).mpr <| Or.inr ⟨hgrows, by decide, fun h => by
    rw [Machine.Reaches, hpages] at h
    omega⟩
  refine ⟨s₀, s', hstart, hnull, ?_⟩
  rw [Bitmap.full_iff_freeFrames]
  omega

/-- A growth that runs out of frames returns `NULL` and leaves pages mapped. -/
theorem malloc_null_changes :
    ∃ s₀ s', startMemory (.boot tinyBitmap fun _ _ => 0) = .ok ((), s₀) ∧
      malloc 0x11000 s₀ = .ok (0, s') ∧ ¬ SystemUnchanged s₀ s' := by
  obtain ⟨s₀, s', hstart, hnull, hfree⟩ := tinyMachine_null
  obtain ⟨-, -, bs, -, -, hinv⟩ := startMemory_runInv hstart
  refine ⟨s₀, s', hstart, hnull, fun hsame => ?_⟩
  rcases malloc_null hinv.heap hnull with ⟨h0, -⟩ | ⟨-, -, hmap⟩
  · exact absurd h0 (by decide)
  · exact heapMapPages_moves hmap hinv.heap.blocks.pages.paging.zero_used (by decide) (by decide)
      hfree
      hsame.heapEnd_eq

/-- On the tiny machine a request of 17 pages returns `NULL` with the state changed. -/
theorem malloc_null_unchanged_iff_tiny :
    ∃ s₀ s', malloc 0x11000 s₀ = .ok (0, s') ∧
      (SystemUnchanged s₀ s' ↔ (0x11000 : BitVec 32) = 0 ∨ s₀.bitmap.Full) := by
  obtain ⟨s₀, s', hstart, hnull, -⟩ := tinyMachine_null
  exact ⟨s₀, s', hnull, malloc_null_unchanged_iff hstart .refl (by decide) hnull⟩

end Failed

end AuriOS
