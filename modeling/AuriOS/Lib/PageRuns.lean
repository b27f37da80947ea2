import AuriOS.Lib.HeapInvariant

/-!
# Runs of growth and demand paging

The pages of the heap are mapped by two routines that do not know of each other: `heap_map_pages`
at the end of the heap, and the page-fault handler anywhere from `0xD0000000` on.  In every run of
the two, and of stores to the pages they mapped, below the recursive window:

* `pageRun_framesApart`: no frame is used twice and the heap is present and writable, as long as
  the allocator has not failed;
* `mapCall_handlesNoFrame_iff`: a call of `mmu_map_page` that needs a table when no frame is left
  installs frame 0, and neither caller notices.
-/

namespace AuriOS

open Program RecursiveTable

/-! ### Steps -/

/-- One step below the window: the heap grows, a page fault is handled, or a word is stored in a
page that is present. -/
inductive PageStep : Machine → Machine → Prop
  | grow {s s' : Machine} (n : ℕ) (ok : Bool) : GrowthStays s n →
      heapMapPages n s = .ok (ok, s') → PageStep s s'
  | fault {s s' : Machine} (va : BitVec 32) (write : Bool) : 0xD0000000 ≤ va.toNat →
      va.toNat < 0xFFC00000 → mmuHandlePageFault va (s.errorCode va write) s = .ok ((), s') →
      PageStep s s'
  | store {s s' : Machine} (va w : BitVec 32) : 0xD0000000 ≤ va.toNat → va.toNat < 0xFFC00000 →
      (s.translate va).isSome → AuriOS.store va w s = .ok ((), s') → PageStep s s'

section Steps

variable {bm : Bitmap} {mem : PhysMem} {s₀ s s' : Machine} {va : BitVec 32} {f : BitVec 20}

/-- A heap address is owned by the frame it translates to. -/
theorem owner_eq_translate (h : Paging s) (hlo : 0xD0000000 ≤ va.toNat)
    (hhi : va.toNat < 0xFFC00000) : s.owner (pageOwner va) = (s.translate va).map Prod.fst := by
  rw [owner_pageOwner (heapSlot_of_range hlo hhi), translate_eq h.recursive.cr3_eq]

/-- Every step keeps the heap present. -/
theorem pageStep_heapPages (h : HeapPages s) (hstep : PageStep s s') : HeapPages s' := by
  cases hstep with
  | grow n ok hstays hrun =>
    rcases heapMapPages_stays h hstays with ⟨t, hg, hok⟩ | ⟨k, t, -, hg, -, hok⟩ <;>
      obtain rfl := (Prod.mk.inj (Except.ok.inj (hrun.symm.trans hok))).2
    · exact hg.heapPages h
    · exact (hg.heapPages h).record _
  | fault va write _ hhi hrun =>
    obtain ⟨-, -, a, hb⟩ :=
      mmuHandlePageFaultWith_backed onFault h.paging (BitVec.lt_def.mpr hhi) hrun
    exact h.backed hb
  | store va w hlo hhi hpresent hrun =>
    obtain ⟨t, ht⟩ := Option.isSome_iff_exists.mp hpresent
    have hf : s.owner (pageOwner va) = some t.1 := by
      rw [owner_eq_translate h.paging hlo hhi, ht]
      rfl
    rw [store_ok h.paging hf] at hrun
    obtain rfl := (Prod.mk.inj (Except.ok.inj hrun)).2
    exact h.stored hf w

/-- Once `memory_init` has run, the heap is mapped. -/
theorem startMemory_pages (hstart : startMemory (.boot bm mem) = .ok ((), s₀)) : HeapPages s₀ := by
  obtain ⟨s, t, hbooted, hinit⟩ := startMemory_booted hstart
  obtain ⟨s', bs, hrun, -, hinv⟩ := memoryInit_result hbooted.paging hbooted.head_eq
  rw [hinit] at hrun
  obtain rfl := (Prod.mk.inj (Except.ok.inj hrun)).2
  exact hinv.blocks.pages

/-- The heap is present in every state of a run. -/
theorem pageRun_heapPages (hstart : startMemory (.boot bm mem) = .ok ((), s₀))
    (hrun : Relation.ReflTransGen PageStep s₀ s) : HeapPages s :=
  run_invariant HeapPages hrun (startMemory_pages hstart) pageStep_heapPages

end Steps

/-! ### No frame is used twice -/

/-- The frames in use are apart, and the heap is present and writable. -/
structure FramesApart (s : Machine) : Prop where
  /-- The directory, the tables and the pages of the heap have different frames. -/
  exclusive : Exclusive s.owner
  /-- These frames are marked used, and none is frame 0. -/
  used : ∀ o f, s.owner o = some f → f ≠ 0 ∧ s.bitmap.used f.toNat = true
  /-- Every page below `heap_end` is present and writable. -/
  writable : ∀ va : BitVec 32, 0xD0000000 ≤ va.toNat → va.toNat < s.heapEnd.toNat →
    ∃ f p, s.translate va = some (f, p) ∧ p.writable = true
  /-- So no access there faults. -/
  access : ∀ va : BitVec 32, 0xD0000000 ≤ va.toNat → va.toNat < s.heapEnd.toNat →
    (∃ v, load va s = .ok (v, s)) ∧ ∀ w, ∃ f, store va w s = .ok ((), s.stored va f w)
  /-- Different pages below the window have different frames. -/
  noAlias : ∀ va va' : BitVec 32, ∀ f p p', 0xD0000000 ≤ va.toNat → va.toNat < 0xFFC00000 →
    0xD0000000 ≤ va'.toNat → va'.toNat < 0xFFC00000 → s.translate va = some (f, p) →
    s.translate va' = some (f, p') → va.toNat / pageSize = va'.toNat / pageSize

section Apart

variable {bm : Bitmap} {mem : PhysMem} {s₀ s : Machine}

/-- A present heap has its frames apart while no allocation has failed. -/
theorem HeapPages.framesApart (h : HeapPages s) (hzero : .alloc 0 ∉ s.trace) : FramesApart s := by
  constructor
  case exclusive => exact h.paging.exclusive
  case used =>
    intro o f hf
    refine ⟨?_, h.paging.used o f hf⟩
    rintro rfl
    exact hzero (h.paging.owner_zero o hf).1
  case writable =>
    intro va hlo hhi
    have hwindow := lt_of_lt_of_le hhi h.le_window
    obtain ⟨f, hf⟩ := h.present va hlo hhi
    rw [owner_eq_translate h.paging hlo hwindow] at hf
    obtain ⟨⟨f', p⟩, ht, rfl⟩ := Option.map_eq_some_iff.mp hf
    refine ⟨f', p, ht, h.paging.leaf_writable va f' p (heapSlot_of_range hlo hwindow) ?_⟩
    rw [← translate_eq h.paging.recursive.cr3_eq]
    exact ht
  case access =>
    intro va hlo hhi
    obtain ⟨f, hf⟩ := h.present va hlo hhi
    exact ⟨⟨_, load_ok h.paging hf⟩, fun w => ⟨f, store_ok h.paging hf w⟩⟩
  case noAlias =>
    intro va va' f p p' hlo hhi hlo' hhi' ht ht'
    have hf : s.owner (pageOwner va) = some f := by
      rw [owner_eq_translate h.paging hlo hhi, ht]
      rfl
    have hf' : s.owner (pageOwner va') = some f := by
      rw [owner_eq_translate h.paging hlo' hhi', ht']
      rfl
    exact pageOwner_eq_iff.mp (h.paging.exclusive _ _ f hf hf')

/-- **No frame is used twice** in any run of growth, page faults and stores in which the allocator
has not failed. -/
theorem pageRun_framesApart (hstart : startMemory (.boot bm mem) = .ok ((), s₀))
    (hrun : Relation.ReflTransGen PageStep s₀ s) (hzero : .alloc 0 ∉ s.trace) :
    FramesApart s :=
  (pageRun_heapPages hstart hrun).framesApart hzero

end Apart

/-! ### When a table is needed and no frame is left -/

/-- A caller of `mmu_map_page`. -/
inductive MapCaller
  /-- The loop of `heap_map_pages`, with `n` more pages to come. -/
  | heapMapPages (n : ℕ)
  /-- The page-fault handler. -/
  | pageFault (va : BitVec 32) (write : Bool)

namespace MapCaller

variable (s : Machine)

/-- The virtual address it passes. -/
def page : MapCaller → BitVec 32
  | heapMapPages _ => s.heapEnd
  | pageFault va _ => va &&& 0xFFFFF000

/-- It calls `mmu_map_page`, below the window, once it got a frame. -/
def Calls : MapCaller → Prop
  | heapMapPages _ => s.heapEnd.toNat < 0xFFC00000
  | pageFault va _ => heapStart ≤ va ∧ va.toNat < 0xFFC00000 ∧ s.translate va = none

/-- `heap_map_pages` returns 0; the handler does not return. -/
def ReportsFailure : MapCaller → Prop
  | heapMapPages n => ∃ s', AuriOS.heapMapPages (n + 1) s = .ok (false, s')
  | pageFault va write => ∀ s', mmuHandlePageFault va (s.errorCode va write) s ≠ .ok ((), s')

end MapCaller

/-- What a call of `mmu_map_page` should do when its caller got the frame at `a` and left the
bitmap `bm`, which has none for the table it needs: frame 0 is not installed and not written, the
directory stays as it is, and the caller reports the failure. -/
def HandlesNoFrame (s : Machine) (a : BitVec 32) (bm : Bitmap) (c : MapCaller) : Prop :=
  s.table (pdIndex (c.page s)) = none → bm.Full →
    (∀ s', mmuMapPage a (c.page s) true false
        { s with bitmap := bm, trace := .alloc a :: s.trace } =
      .ok ((), s') → (∀ k, k ≠ 1023 → s'.table k ≠ some 0) ∧ s'.mem 0 = s.mem 0 ∧
        ∀ k, s'.mem s.root k = s.mem s.root k) ∧ c.ReportsFailure s

section NoFrame

variable {bm : Bitmap} {mem : PhysMem} {s₀ s : Machine} {a virt : BitVec 32} {c : MapCaller}

/-- Every caller maps a page in the heap's slots. -/
theorem MapCaller.Calls.heapSlot (hc : c.Calls s) (h : HeapPages s) :
    HeapSlot (pdIndex (c.page s)) := by
  cases c with
  | heapMapPages n => exact heapSlot_of_range h.start_le hc
  | pageFault va write =>
    obtain ⟨hlo, hhi, -⟩ := hc
    have hpage : pdIndex (va &&& 0xFFFFF000) = pdIndex va := (Owner.leaf.inj (pageOwner_mask va)).1
    rw [MapCaller.page, hpage]
    exact heapSlot_of_range (BitVec.le_def.mp hlo) hhi

/-- Without a frame for the table, frame 0 becomes the table, and is cleared. -/
theorem mmuMapPage_noFrame (h : Paging s) (hslot : HeapSlot (pdIndex virt))
    (halloc : Allocated s.bitmap a bm) (hfull : bm.Full) (hnone : s.table (pdIndex virt) = none) :
    ∃ s', mmuMapPage a virt true false { s with bitmap := bm, trace := .alloc a :: s.trace } =
        .ok ((), s') ∧ s'.table (pdIndex virt) = some 0 ∧
          ∀ j, j ≠ ptIndex virt → s'.mem 0 j = 0 := by
  have hp := h.allocated halloc
  have hzero : ∀ o, s.owner o ≠ some 0 := h.zero_not_owned halloc.isFree
  have hfail : pmmAllocFrame bm = .ok (0, bm) := by
    rcases pmmAllocFrame_cases bm with ⟨-, hok⟩ | ⟨b, bm', -, hall⟩
    · exact hok
    · exact absurd hfull hall.not_full
  have hframe : frameOf 0 = 0 := by decide
  have hfresh := fresh_of_owner h.recursive.selfMap hzero
  obtain ⟨evs, hensure, -⟩ := ensureTableWith_absent onFault hp.recursive (shiftRight_pdIndex virt)
    hslot.2 hnone hfail (hframe ▸ hfresh.1) false
  have hpaging := paging_installed hp hslot hnone (hframe ▸ hzero) (fun _ hf => hf) rfl
    (hframe ▸ hp.zero_used) (fun _ => ⟨rfl, hfull⟩) false evs
  have htable : Machine.table
      (Machine.installed { s with bitmap := bm, trace := .alloc a :: s.trace }
      (pdIndex virt) false 0 bm evs) (pdIndex virt) = some 0 :=
    (table_install (hframe ▸ hfresh.1) (decodeEntry_pdeWord _ _) _).trans (if_pos rfl)
  refine ⟨_, mmuMapPageWith_eq onFault a true hensure hpaging.recursive htable, ?_, fun j hj => ?_⟩
  · exact (table_write_of_ne (table_ne_root hpaging.recursive hslot.2 htable) _).trans htable
  · change write (install s.mem s.root (pdIndex virt) (pdeWord (frameOf 0) false) (frameOf 0) 0) 0
      (ptIndex virt) (pteWord (frameOf a) true false) 0 j = 0
    rw [write_apply, if_neg fun hc => hj hc.2, install, fill_apply, hframe, if_pos rfl]

/-- **A table without a frame.**  In every run, a call of `mmu_map_page` handles the lack of a
frame exactly when there is no lack: the table is present or a frame is left for it. -/
theorem mapCall_handlesNoFrame_iff (hstart : startMemory (.boot bm mem) = .ok ((), s₀))
    (hrun : Relation.ReflTransGen PageStep s₀ s) (hc : c.Calls s) {bm' : Bitmap}
    (halloc : pmmAllocFrame s.bitmap = .ok (a, bm')) (ha : a ≠ 0) :
    HandlesNoFrame s a bm' c ↔ (∃ t, s.table (pdIndex (c.page s)) = some t) ∨ ¬ bm'.Full := by
  have h := pageRun_heapPages hstart hrun
  constructor
  · intro hhandles
    rw [or_iff_not_imp_left]
    intro hnone hfull
    replace hnone := Option.eq_none_iff_forall_ne_some.mpr (not_exists.mp hnone)
    obtain ⟨s', hmap, hzero, -⟩ := mmuMapPage_noFrame h.paging (hc.heapSlot h)
      (allocated_of_ne_zero halloc ha) hfull hnone
    exact ((hhandles hnone hfull).1 s' hmap).1 _ (hc.heapSlot h).2 hzero
  · rintro (⟨t, ht⟩ | hfree) hnone hfull
    · rw [ht] at hnone
      exact absurd hnone (by simp)
    · exact absurd hfull hfree

end NoFrame

/-! ### A small machine -/

/-- A bitmap of 24 frames, of which the first four are used. -/
def tinyBitmap : Bitmap := ⟨[0x0F, 0, 0], by decide⟩

/-- On this machine `memory_init` leaves one frame. -/
theorem tinyMachine_start :
    ∃ s₀, startMemory (.boot tinyBitmap fun _ _ => 0) = .ok ((), s₀) ∧ Started 18 s₀ := by
  have hpd : pmmAllocFrame tinyBitmap = .ok (0x4000, ⟨[0x1F, 0, 0], by decide⟩) := by decide
  have hpt : pmmAllocFrame ⟨[0x1F, 0, 0], by decide⟩ = .ok (0x5000, ⟨[0x3F, 0, 0], by decide⟩) := by
    decide
  obtain ⟨s₀, hstart, hstarted⟩ := startMemory_ok (fun _ _ => 0) hpd (by decide) hpt (by decide)
    (by decide)
  have hfree : Bitmap.freeFrames ⟨[0x3F, 0, 0], by decide⟩ = 18 := by decide
  exact ⟨s₀, hstart, hfree ▸ hstarted⟩

/-- A fault backs the page at `0xD0400000`, whose table is missing, a word is stored there, and the
heap grows by a page. -/
theorem pageRun_framesApart_start :
    ∃ s₀ s, startMemory (.boot smallBitmap fun _ _ => 0) = .ok ((), s₀) ∧ s₀.head ≠ 0 ∧
      s₀.table 0x341 = none ∧ Relation.ReflTransGen PageStep s₀ s ∧ s.heapEnd.toNat = 0xD0011000 ∧
      FramesApart s := by
  obtain ⟨s₀, hstart, hstarted⟩ := smallBitmap_started
  have h₀ := startMemory_pages hstart
  have hslot : HeapSlot (pdIndex 0xD0400000) := by decide
  have hmask : (0xD0400000 : BitVec 32) &&& 0xFFFFF000 = 0xD0400000 := by decide
  have hfree := hstarted.freeFrames_eq
  -- the page fault
  have habsent : s₀.translate 0xD0400000 = none := by
    have hnone := hstarted.owner_none 0xD0400000 (by decide)
    rw [owner_eq_translate h₀.paging (by decide) (by decide)] at hnone
    exact Option.map_eq_none_iff.mp hnone
  obtain ⟨a, s₁, hfault, hb⟩ := mmuHandlePageFaultWith_ok onFault h₀.paging hslot habsent
    (hstarted.not_full (by decide)) true
  rw [hmask] at hb
  have h₁ := h₀.backed hb
  have hsupply₁ := (hb.supply hslot).1
  have hpage := hb.owner_page
  -- the store
  have hstore : store 0xD0400000 1 s₁ = .ok ((), s₁.stored 0xD0400000 (frameOf a) 1) :=
    store_ok h₁.paging hpage 1
  have hpresent : (s₁.translate 0xD0400000).isSome := by
    rw [owner_eq_translate h₁.paging (by decide) (by decide)] at hpage
    obtain ⟨t, ht, -⟩ := Option.map_eq_some_iff.mp hpage
    rw [ht]
    rfl
  have h₂ := h₁.stored hpage 1
  -- the growth
  have hend : (s₁.stored 0xD0400000 (frameOf a) 1).heapEnd.toNat = 0xD0010000 :=
    (congrArg BitVec.toNat hb.heapEnd_eq).trans (startMemory_heap hstart hstarted.head_ne).2
  have hstays : GrowthStays (s₁.stored 0xD0400000 (frameOf a) 1) 1 :=
    growthStays_of_supply h₂ (Or.inl (by rw [Machine.room, hend]; decide))
  have hfree₂ : (s₁.stored 0xD0400000 (frameOf a) 1).bitmap.freeFrames = s₁.bitmap.freeFrames := rfl
  obtain ⟨s₃, hg, hgrow⟩ : ∃ s₃, Grown 1 (s₁.stored 0xD0400000 (frameOf a) 1) s₃ ∧
      heapMapPages 1 (s₁.stored 0xD0400000 (frameOf a) 1) = .ok (true, s₃) := by
    rcases heapMapPages_stays h₂ hstays with hdone | ⟨k, t, hk, hg, hfull, -⟩
    · exact hdone
    · have hk0 : k = 0 := by omega
      subst hk0
      have := hg.supply.1
      rw [Bitmap.full_iff_freeFrames] at hfull
      omega
  have hrun : Relation.ReflTransGen PageStep s₀ s₃ :=
    ((Relation.ReflTransGen.single (.fault 0xD0400000 true (by decide) (by decide) hfault)).tail
      (.store 0xD0400000 1 (by decide) (by decide) hpresent hstore)).tail
        (.grow 1 true hstays hgrow)
  have hzero : .alloc 0 ∉ s₃.trace := by
    have hzero₁ := hb.zeroWhenFull fun hmem => absurd hmem hstarted.no_failure
    have hzero₂ : ZeroWhenFull (s₁.stored 0xD0400000 (frameOf a) 1) := fun hmem =>
      hzero₁ ((List.mem_cons.mp hmem).resolve_left (by simp))
    intro hmem
    have hfull := hg.zeroWhenFull hzero₂ hmem
    have := hg.supply.1
    rw [Bitmap.full_iff_freeFrames] at hfull
    omega
  refine ⟨s₀, s₃, hstart, hstarted.head_ne, hstarted.table_none _ (by decide) (by decide), hrun, ?_,
    pageRun_framesApart hstart hrun hzero⟩
  rw [hg.heapEnd_eq h₂, hend]

/-- The last frame is for the page at `0xD0400000`, whose table is missing: frame 0 becomes the
table, and the handler returns. -/
theorem mapCall_installs_zero :
    ∃ s₀ a bm, startMemory (.boot tinyBitmap fun _ _ => 0) = .ok ((), s₀) ∧ s₀.head ≠ 0 ∧
      (MapCaller.pageFault 0xD0400000 true).Calls s₀ ∧ pmmAllocFrame s₀.bitmap = .ok (a, bm) ∧
      a ≠ 0 ∧ ¬ HandlesNoFrame s₀ a bm (.pageFault 0xD0400000 true) ∧
      ∃ s', mmuHandlePageFault 0xD0400000 (s₀.errorCode 0xD0400000 true) s₀ = .ok ((), s') ∧
        s'.table 0x341 = some 0 := by
  obtain ⟨s₀, hstart, hstarted⟩ := tinyMachine_start
  have h := startMemory_pages hstart
  have hfree := hstarted.freeFrames_eq
  have htable := hstarted.table_none 0x341 (by decide) (by decide)
  have hva : pdIndex 0xD0400000 = 0x341 := by decide
  have hmask : (0xD0400000 : BitVec 32) &&& 0xFFFFF000 = 0xD0400000 := by decide
  have habsent : s₀.translate 0xD0400000 = none := by
    rw [translate_eq h.paging.recursive.cr3_eq]
    exact walk_of_table_none (hva ▸ htable)
  rcases pmmAllocFrame_cases s₀.bitmap with ⟨hfull, -⟩ | ⟨a, bm, halloc, hall⟩
  · rw [Bitmap.full_iff_freeFrames.mp hfull] at hfree
    exact absurd hfree (by decide)
  have ha : a ≠ 0 := mt hall.frame_zero_iff.mpr (hall.frame_ne h.paging.zero_used)
  have hfull : bm.Full := by
    have := hall.freeFrames_eq
    refine Bitmap.full_iff_freeFrames.mpr ?_
    omega
  have hslot : HeapSlot (pdIndex 0xD0400000) := by decide
  obtain ⟨s', hmap, hzero, -⟩ := mmuMapPage_noFrame h.paging hslot hall hfull (hva ▸ htable)
  refine ⟨s₀, a, bm, hstart, hstarted.head_ne, ⟨by decide, by decide, habsent⟩, halloc, ha,
    fun hhandles => ?_,
    s', ?_, hva ▸ hzero⟩
  · have hnone : s₀.table (pdIndex (MapCaller.page s₀ (.pageFault 0xD0400000 true))) = none := by
      rw [MapCaller.page, hmask, hva]
      exact htable
    refine ((hhandles hnone hfull).1 s' ?_).1 0x341 (by decide) (hva ▸ hzero)
    rw [MapCaller.page, hmask]
    exact hmap
  · refine (mmuHandlePageFaultWith_backs onFault habsent (by decide) halloc ha).trans ?_
    rw [hmask]
    exact hmap

/-- With more frames one is left for that table. -/
theorem mapCall_handlesNoFrame_iff_start :
    ∃ s₀ a bm, startMemory (.boot smallBitmap fun _ _ => 0) = .ok ((), s₀) ∧
      (MapCaller.pageFault 0xD0400000 true).Calls s₀ ∧ pmmAllocFrame s₀.bitmap = .ok (a, bm) ∧
      a ≠ 0 ∧ s₀.table (pdIndex ((MapCaller.pageFault 0xD0400000 true).page s₀)) = none ∧
      HandlesNoFrame s₀ a bm (.pageFault 0xD0400000 true) := by
  obtain ⟨s₀, hstart, hstarted⟩ := smallBitmap_started
  have h := startMemory_pages hstart
  have hfree := hstarted.freeFrames_eq
  have hpage : pdIndex ((MapCaller.pageFault 0xD0400000 true).page s₀) = 0x341 := by
    rw [MapCaller.page]
    decide
  have htable := hstarted.table_none 0x341 (by decide) (by decide)
  have habsent : s₀.translate 0xD0400000 = none := by
    rw [translate_eq h.paging.recursive.cr3_eq]
    exact walk_of_table_none ((show pdIndex 0xD0400000 = 0x341 by decide) ▸ htable)
  rcases pmmAllocFrame_cases s₀.bitmap with ⟨hfull, -⟩ | ⟨a, bm, halloc, hall⟩
  · exact absurd hfull (hstarted.not_full (by decide))
  have ha : a ≠ 0 := mt hall.frame_zero_iff.mpr (hall.frame_ne h.paging.zero_used)
  have hleft : ¬ bm.Full := by
    have := hall.freeFrames_eq
    rw [Bitmap.full_iff_freeFrames]
    omega
  have hcalls : (MapCaller.pageFault 0xD0400000 true).Calls s₀ := ⟨by decide, by decide, habsent⟩
  exact ⟨s₀, a, bm, hstart, hcalls, halloc, ha, hpage ▸ htable,
    (mapCall_handlesNoFrame_iff hstart .refl hcalls halloc ha).mpr (Or.inr hleft)⟩

end AuriOS
