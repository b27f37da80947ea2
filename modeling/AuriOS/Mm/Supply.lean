import AuriOS.Mm.Evolution

/-!
# The supply of frames

How far the heap can grow depends on two numbers: the frames the allocator can still hand out
(`freeFrames`) and the tables the heap's address range still lacks (`missingTables`).  Every
frame handed out lowers the first by one (`Allocated.freeFrames_eq`); mapping a page takes one
frame, and one more for a missing table (`Backed.supply`).
-/

namespace AuriOS

open Program RecursiveTable

/-- The number of frames the allocator can still hand out. -/
def Bitmap.freeFrames (bm : Bitmap) : ℕ :=
  ((Finset.range bm.frames).filter fun f => bm.used f = false).card

/-- The slots of the heap that have no table yet. -/
def Machine.missingSlots (s : Machine) : Finset ℕ :=
  (Finset.Ico 0x340 1023).filter fun k => s.table (BitVec.ofNat 10 k) = none

/-- The number of tables the heap still lacks. -/
def Machine.missingTables (s : Machine) : ℕ := s.missingSlots.card

/-- The bitmap is full exactly when no frame is left. -/
theorem Bitmap.full_iff_freeFrames {bm : Bitmap} : bm.Full ↔ bm.freeFrames = 0 := by
  rw [freeFrames, Finset.card_eq_zero, Finset.filter_eq_empty_iff]
  refine forall_congr' fun f => ?_
  rw [Finset.mem_range, Bool.not_eq_false]

section Supply

variable {bm bm' : Bitmap} {s s' : Machine} {a virt : BitVec 32}

/-- Taking a frame leaves one less. -/
theorem Allocated.freeFrames_eq (h : Allocated bm a bm') :
    bm.freeFrames = bm'.freeFrames + 1 := by
  have hmem : (frameOf a).toNat ∈ (Finset.range bm.frames).filter fun f => bm.used f = false :=
    Finset.mem_filter.mpr ⟨Finset.mem_range.mpr h.isFree.1, h.free⟩
  have herase : ((Finset.range bm'.frames).filter fun f => bm'.used f = false) =
      ((Finset.range bm.frames).filter fun f => bm.used f = false).erase (frameOf a).toNat := by
    ext f
    have hused := h.used_eq f
    rw [Finset.mem_erase, Finset.mem_filter, Finset.mem_filter, h.frames_eq, ← Bool.not_eq_true,
      ← Bool.not_eq_true, hused]
    tauto
  rw [Bitmap.freeFrames, Bitmap.freeFrames, herase, Finset.card_erase_add_one hmem]

/-- An allocation takes a frame unless there is none. -/
theorem freeFrames_of_allocFrame (h : pmmAllocFrame bm = .ok (a, bm')) :
    bm.freeFrames ≤ bm'.freeFrames + 1 ∧
      (¬ bm'.Full → bm.freeFrames = bm'.freeFrames + 1) := by
  rcases pmmAllocFrame_cases bm with ⟨hfull, hok⟩ | ⟨b, bm₁, hok, hall⟩ <;>
    obtain ⟨rfl, rfl⟩ := Prod.mk.inj (Except.ok.inj (h.symm.trans hok))
  · exact ⟨Nat.le_succ _, fun hnot => absurd hfull hnot⟩
  · exact ⟨hall.freeFrames_eq.le, fun _ => hall.freeFrames_eq⟩

/-- A slot of the heap is missing exactly when it has no table. -/
theorem mem_missingSlots {k : BitVec 10} (hk : HeapSlot k) :
    k.toNat ∈ s.missingSlots ↔ s.table k = none := by
  have hlast : k.toNat ≠ 1023 := fun h => hk.2 (BitVec.eq_of_toNat_eq h)
  have hlt := k.isLt
  have hstart := hk.1
  rw [Machine.missingSlots, Finset.mem_filter, Finset.mem_Ico, BitVec.ofNat_toNat,
    BitVec.setWidth_eq]
  exact and_iff_right (by omega)

/-- Mapping a page gives its slot a table and leaves the other slots alone. -/
theorem Backed.missingSlots_eq (hb : Backed s virt a s') :
    s'.missingSlots = s.missingSlots.erase (pdIndex virt).toNat := by
  have hroot : s'.root = s.root := congrArg frameOf hb.kernelDirectory_eq
  obtain ⟨-, t, ht⟩ := table_of_owner_leaf hb.owner_page
  ext k
  rw [Finset.mem_erase, Machine.missingSlots, Machine.missingSlots, Finset.mem_filter,
    Finset.mem_filter]
  by_cases hrange : k ∈ Finset.Ico 0x340 1023
  · have hk : (BitVec.ofNat 10 k).toNat = k := by
      rw [BitVec.toNat_ofNat]
      have := (Finset.mem_Ico.mp hrange).2
      omega
    by_cases hslot : BitVec.ofNat 10 k = pdIndex virt
    · have hpresent : s'.table (BitVec.ofNat 10 k) = some t := hslot ▸ ht
      rw [hpresent]
      refine iff_of_false (fun hc => absurd hc.2 (by simp)) fun hc => hc.1 ?_
      rw [← hslot, hk]
    · have hsame : s'.table (BitVec.ofNat 10 k) = s.table (BitVec.ofNat 10 k) := by
        have hslots := (hb.directory (BitVec.ofNat 10 k)).resolve_right fun hc => hslot hc.1
        rw [Machine.table, Machine.table, RecursiveTable.table, RecursiveTable.table, hroot, hslots]
      rw [hsame]
      refine (and_iff_right fun hc => hslot ?_).symm
      exact BitVec.eq_of_toNat_eq (hk.trans hc)
  · exact iff_of_false (fun hc => hrange hc.1) fun hc => hrange hc.2.1

/-- What mapping a page takes from the supply. -/
theorem Backed.supply (hb : Backed s virt a s') (hvirt : HeapSlot (pdIndex virt)) :
    s.bitmap.freeFrames ≤ s'.bitmap.freeFrames + 2 ∧
      (¬ s'.bitmap.Full →
        s.bitmap.freeFrames + s'.missingTables = s'.bitmap.freeFrames + 1 + s.missingTables) := by
  have hmissing := hb.missingSlots_eq
  obtain ⟨bm, halloc, ⟨⟨t, ht⟩, hbm⟩ | ⟨hnone, b, hb'⟩⟩ := hb.bitmap
  · have hpresent : (pdIndex virt).toNat ∉ s.missingSlots := by
      rw [mem_missingSlots hvirt, ht]
      simp
    rw [Finset.erase_eq_of_notMem hpresent] at hmissing
    have := halloc.freeFrames_eq
    rw [Machine.missingTables, Machine.missingTables, hmissing, hbm]
    exact ⟨by omega, fun _ => by omega⟩
  · have hcard := Finset.card_erase_add_one ((mem_missingSlots hvirt).mpr hnone)
    rw [← hmissing] at hcard
    have hfirst := halloc.freeFrames_eq
    obtain ⟨hle, heq⟩ := freeFrames_of_allocFrame hb'
    rw [Machine.missingTables, Machine.missingTables]
    refine ⟨by omega, fun hnot => ?_⟩
    have := heq hnot
    omega

/-- The supply never lasts longer than that. -/
theorem Backed.supply_le (hb : Backed s virt a s') (hvirt : HeapSlot (pdIndex virt)) :
    s.bitmap.freeFrames + s'.missingTables ≤ s'.bitmap.freeFrames + 1 + s.missingTables := by
  have hmissing := hb.missingSlots_eq
  obtain ⟨bm, halloc, ⟨-, hbm⟩ | ⟨hnone, b, hb'⟩⟩ := hb.bitmap
  · have hcard : s'.missingTables ≤ s.missingTables := by
      rw [Machine.missingTables, hmissing]
      exact Finset.card_erase_le
    have := halloc.freeFrames_eq
    rw [hbm]
    omega
  · have hcard := Finset.card_erase_add_one ((mem_missingSlots hvirt).mpr hnone)
    rw [← hmissing] at hcard
    have hfirst := halloc.freeFrames_eq
    have hle := (freeFrames_of_allocFrame hb').1
    rw [Machine.missingTables, Machine.missingTables]
    omega

/-- The allocator has answered 0 only once it had no frame left. -/
def ZeroWhenFull (s : Machine) : Prop := .alloc 0 ∈ s.trace → s.bitmap.Full

/-- Backing a page keeps what an answer of 0 means. -/
theorem Backed.zeroWhenFull (hb : Backed s virt a s') (h : ZeroWhenFull s) : ZeroWhenFull s' := by
  obtain ⟨c, evs, htrace, -, -, -, -, -, halloc⟩ := hb.events
  intro hmem
  rw [htrace] at hmem
  rcases List.mem_cons.mp hmem with hmem | hmem
  · simp at hmem
  · rcases List.mem_append.mp hmem with hmem | hmem
    · obtain ⟨o, ho⟩ := halloc 0 hmem
      exact (hb.paging.owner_zero o ho).2
    · obtain ⟨bm, hall, -⟩ := hb.bitmap
      exact absurd (h hmem) hall.not_full

/-- After `mmu_init` all tables of the heap are missing. -/
theorem Booted.missingSlots_eq {t : BitVec 20} (h : Booted s t) :
    s.missingSlots = Finset.Ico 0x340 1023 := by
  refine Finset.filter_true_of_mem fun k hk => ?_
  obtain ⟨hlo, hhi⟩ := Finset.mem_Ico.mp hk
  have hto : (BitVec.ofNat 10 k).toNat = k := by
    rw [BitVec.toNat_ofNat]
    omega
  refine table_eq_none_iff.mpr (h.slot_absent _ (fun h0 => ?_) fun h1 => ?_)
  · rw [h0] at hto
    change 0 = k at hto
    omega
  · rw [h1] at hto
    change 1023 = k at hto
    omega

/-- `mmu_init` allocates two frames, neither of which is frame 0. -/
theorem Booted.zeroWhenFull {t : BitVec 20} (h : Booted s t) (heapEnd : BitVec 32) :
    ZeroWhenFull { s with heapEnd := heapEnd } := by
  intro hmem
  rcases h.trace _ hmem with ⟨va, f, hc⟩ | ⟨b, hc, hframe⟩
  · simp at hc
  · obtain rfl := Event.alloc.inj hc
    rcases hframe with hroot | htable
    · exact absurd hroot.symm h.root_ne_zero
    · exact absurd htable.symm h.table_ne_zero

end Supply

end AuriOS
