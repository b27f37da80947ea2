import AuriOS.Kernel.InitMem

/-!
# What the memory map leaves allocatable

Three results about `init_mem`, each on exactly the maps where it holds.  `es` are the entries the
first loop visits and `zones` those of the second one, which are the same when the map and the boot
information lie outside the bitmap (`MapRead.zones_eq`).

* `initMem_completes_iff`: on a well-formed map `init_mem` completes when no marked region passes
  the end of the bitmap, whose length is rounded down to whole bytes of eight frames.
* `initMem_protects_iff`: no frame of the kernel image, of the bitmap, of frame 0 or of the boot
  stack is ever handed out, when the bitmap ends on a page boundary or in a frame that no zone
  clears; the page in which it ends is not reserved.
* `initMem_free_available_iff`: every free frame lies wholly in an available zone, when the frames
  cleared for a zone with a non-zero high base word, and the first frame of a zone that starts
  inside a page, are reserved or lie in another zone.
-/

namespace AuriOS

open Program WordBitmap

/-! ### Completed runs -/

/-- The first loop visits `es` and the second one `zones`. -/
structure MapRead (mem : PhysMem) (mbootPtr kernelEnd : BitVec 32) (es zones : List MemoryMap) :
    Prop where
  first : mmapEntries mem mbootPtr = some es
  second : rereadEntries mem mbootPtr kernelEnd es = some zones

/-- Outside the bitmap the map does not change between the loops. -/
theorem MapRead.zones_eq {mem : PhysMem} {mbootPtr kernelEnd : BitVec 32}
    {es zones : List MemoryMap} (h : MapRead mem mbootPtr kernelEnd es zones)
    (hout : MapOutside mem mbootPtr kernelEnd es) : zones = es :=
  Option.some.inj (h.second.symm.trans (rereadEntries_of_outside h.first hout))

section Completed

variable {mbootPtr kernelEnd : BitVec 32} {s s' : Machine}

/-- With a memory map present, `init_mem` is its branch for the map, and a line of the log. -/
theorem initMem_ok_iff (hmap : (bootInfo s.mem mbootPtr).hasMap = true) :
    initMem mbootPtr kernelEnd s = .ok ((), s') ↔
      ∃ bm', initMemMap s.mem mbootPtr kernelEnd s.bitmap = .ok ((), bm') ∧
        s' = { s with
          bitmap := bm'
          trace :=
            .klog "INFO" "[PMM] Physical Memory Manager initialized by Zig." :: s.trace } := by
  rw [initMem, get_bind_apply, if_pos hmap]
  constructor
  · intro h
    obtain ⟨⟨⟩, t, ht, h⟩ := bind_eq_ok.mp h
    unfold callPmm at ht
    split at ht
    · next bm' hbm' =>
      obtain ⟨-, rfl⟩ := Prod.mk.inj (Except.ok.inj ht)
      exact ⟨bm', hbm', ((Prod.mk.inj (Except.ok.inj h)).2).symm⟩
    · exact absurd ht (by simp)
  · rintro ⟨bm', hbm', rfl⟩
    have hcall : callPmm (initMemMap s.mem mbootPtr kernelEnd) s =
        .ok ((), { s with bitmap := bm' }) := by
      unfold callPmm
      rw [hbm']
    rw [bind_of_ok hcall]
    rfl

/-- When `init_mem` completes, its first loop ended. -/
theorem exists_mmapEntries {bm bm' : Bitmap}
    (h : initMemMap s.mem mbootPtr kernelEnd bm = .ok ((), bm')) :
    ∃ es, mmapEntries s.mem mbootPtr = some es := by
  obtain ⟨m, bm₁, hloop, -⟩ := bind_eq_ok.mp h
  rw [maxRamLoop_eq] at hloop
  cases hes : mmapEntries s.mem mbootPtr with
  | some es => exact ⟨es, rfl⟩
  | none =>
    rw [mmapEntries] at hes
    rw [hes] at hloop
    exact absurd hloop (by simp)

/-- The bits a completed run of `init_mem` leaves. -/
theorem initMem_free_iff (hmap : (bootInfo s.mem mbootPtr).hasMap = true)
    (hk : 0x100000 < kernelEnd.toNat) (h : initMem mbootPtr kernelEnd s = .ok ((), s')) :
    ∃ es zones, MapRead s.mem mbootPtr kernelEnd es zones ∧
      s'.bitmap.bytes.length = bitmapSize es ∧ ∀ f, s'.bitmap.IsFree f ↔
        Cleared zones f ∧ ¬ Reserved es kernelEnd.toNat f := by
  obtain ⟨bm', hbm', rfl⟩ := (initMem_ok_iff hmap).mp h
  obtain ⟨es, hes⟩ := exists_mmapEntries hbm'
  obtain ⟨zones, hzones, hlen, hused⟩ := initMemMap_used_iff hk hes hbm'
  refine ⟨es, zones, ⟨hes, hzones⟩, hlen, fun f => ?_⟩
  rw [← not_iff_not, Bitmap.not_isFree_iff, hused, not_and_or, not_not]

end Completed

/-! ### Completion -/

/-- A well-formed map: from the address on lie entries whose `size` field is at least 20, the
last of which ends at `mapEnd`. -/
inductive MapLaidOut (mem : PhysMem) (mapEnd : ℕ) : ℕ → List MemoryMap → Prop
  | done : MapLaidOut mem mapEnd mapEnd []
  | entry {a : ℕ} {e : MemoryMap} {es : List MemoryMap} :
      memoryMapAt (readByte mem) (BitVec.ofNat 32 a) = e → 20 ≤ e.size.toNat →
      a + e.size.toNat + 4 ≤ mapEnd → MapLaidOut mem mapEnd (a + e.size.toNat + 4) es →
      MapLaidOut mem mapEnd a (e :: es)

section Completion

variable {mem : PhysMem} {mapEnd a : ℕ} {es : List MemoryMap}

/-- Every entry has at least 24 bytes. -/
theorem MapLaidOut.le (h : MapLaidOut mem mapEnd a es) : a + 24 * es.length ≤ mapEnd := by
  induction h with
  | done => simp
  | entry _ hsize _ _ ih =>
    rw [List.length_cons]
    omega

/-- The first loop visits exactly the entries of a well-formed map below 4 GiB. -/
theorem MapLaidOut.walkMap_eq (h : MapLaidOut mem mapEnd a es) (hend : mapEnd < 2 ^ 32) {n : ℕ}
    (hn : es.length < n) :
    walkMap (readByte mem) (BitVec.ofNat 32 mapEnd) n (BitVec.ofNat 32 a) = some es := by
  induction h generalizing n with
  | done =>
    obtain ⟨n, rfl⟩ := Nat.exists_eq_succ_of_ne_zero (Nat.ne_zero_of_lt hn)
    rw [walkMap, if_neg (BitVec.lt_irrefl _)]
  | @entry a e es he hsize hle htail ih =>
    obtain ⟨n, rfl⟩ := Nat.exists_eq_succ_of_ne_zero (Nat.ne_zero_of_lt hn)
    have hlt : BitVec.ofNat 32 a < BitVec.ofNat 32 mapEnd := by
      rw [BitVec.lt_def, BitVec.toNat_ofNat, BitVec.toNat_ofNat]
      omega
    have hnext : nextMmap (readByte mem) (BitVec.ofNat 32 a) =
        BitVec.ofNat 32 (a + e.size.toNat + 4) := by
      rw [nextMmap, he, BitVec.ofNat_add, BitVec.ofNat_add, BitVec.ofNat_toNat, BitVec.setWidth_eq]
      rfl
    rw [walkMap, if_pos hlt, hnext, ih (by simpa using hn), he]
    rfl

variable {mbootPtr kernelEnd : BitVec 32} {s : Machine}

/-- **Completion.** On a well-formed map `init_mem` completes exactly when the map ends below
4 GiB, its second loop ends, and the regions it marks fit the bitmap made for the highest zone end.
The second loop ends, with the entries of the map, when the map lies outside the bitmap. -/
theorem initMem_completes_iff (hmap : (bootInfo s.mem mbootPtr).hasMap = true)
    (hk : 0x100000 < kernelEnd.toNat)
    (hlaid : MapLaidOut s.mem
      ((bootInfo s.mem mbootPtr).mmapAddr.toNat + (bootInfo s.mem mbootPtr).mmapLength.toNat)
      (bootInfo s.mem mbootPtr).mmapAddr.toNat es)
    (hend : (bootInfo s.mem mbootPtr).mmapAddr.toNat +
      (bootInfo s.mem mbootPtr).mmapLength.toNat ≤ 2 ^ 32) :
    ((∃ s', initMem mbootPtr kernelEnd s = .ok ((), s')) ↔
      (bootInfo s.mem mbootPtr).mmapAddr.toNat + (bootInfo s.mem mbootPtr).mmapLength.toNat <
          2 ^ 32 ∧
        ∃ zones, rereadEntries s.mem mbootPtr kernelEnd es = some zones ∧
          MapFits es zones kernelEnd.toNat) ∧
    ((bootInfo s.mem mbootPtr).mmapAddr.toNat + (bootInfo s.mem mbootPtr).mmapLength.toNat <
        2 ^ 32 → MapOutside s.mem mbootPtr kernelEnd es →
      rereadEntries s.mem mbootPtr kernelEnd es = some es) := by
  have hrun : (∃ s', initMem mbootPtr kernelEnd s = .ok ((), s')) ↔
      ∃ bm', initMemMap s.mem mbootPtr kernelEnd s.bitmap = .ok ((), bm') := by
    constructor
    · rintro ⟨s', h⟩
      obtain ⟨bm', h', -⟩ := (initMem_ok_iff hmap).mp h
      exact ⟨bm', h'⟩
    · rintro ⟨bm', h⟩
      exact ⟨_, (initMem_ok_iff hmap).mpr ⟨bm', h, rfl⟩⟩
  have hsum : (bootInfo s.mem mbootPtr).mmapEnd =
      BitVec.ofNat 32 ((bootInfo s.mem mbootPtr).mmapAddr.toNat +
        (bootInfo s.mem mbootPtr).mmapLength.toNat) := by
    rw [MultibootInfo.mmapEnd, BitVec.ofNat_add, BitVec.ofNat_toNat, BitVec.ofNat_toNat,
      BitVec.setWidth_eq, BitVec.setWidth_eq]
  have hstart : (bootInfo s.mem mbootPtr).mmapAddr =
      BitVec.ofNat 32 (bootInfo s.mem mbootPtr).mmapAddr.toNat := by
    rw [BitVec.ofNat_toNat, BitVec.setWidth_eq]
  rw [hrun]
  rcases Nat.lt_or_eq_of_le hend with hlt | htop
  · have hlen := hlaid.le
    have hes : mmapEntries s.mem mbootPtr = some es := by
      have := hlaid.walkMap_eq hlt (n := loopFuel) (by rw [loopFuel]; omega)
      rwa [← hsum, ← hstart] at this
    rw [initMemMap_ok_iff hk hes]
    exact ⟨⟨fun h => ⟨hlt, h⟩, And.right⟩, fun _ => rereadEntries_of_outside hes⟩
  · -- the end wraps to 0, so the first loop ends at once and the bitmap has no byte
    have hes : mmapEntries s.mem mbootPtr = some [] := by
      have hzero : (bootInfo s.mem mbootPtr).mmapEnd = 0 := by
        rw [hsum, htop]
        rfl
      rw [mmapEntries, hzero, show loopFuel = (2 ^ 32 - 1) + 1 by simp [loopFuel], walkMap,
        if_neg (show ¬ (bootInfo s.mem mbootPtr).mmapAddr < 0 from BitVec.not_lt_zero)]
    rw [initMemMap_ok_iff hk hes]
    refine ⟨⟨?_, fun h => absurd h.1 (by omega)⟩, fun h => absurd h (by omega)⟩
    rintro ⟨zones, -, hfits⟩
    exact absurd hfits.stack (by simp [maxRamAddr, maxRam])

/-- A memory that is zero but for one entry at `0x10000` and the boot information at `0x11000`. -/
def oneEntryMem (e : MemoryMap) : PhysMem := fun f i =>
  if f = 0x10 then
    ([e.size, e.baseAddrLow, e.baseAddrHigh, e.lengthLow, e.lengthHigh, e.type][i.toNat]?).getD 0
  else if f = 0x11 then if i = 0 then 0x40 else if i = 11 then 24 else if i = 12 then 0x10000 else 0
  else 0

/-- Where `oneEntryMem` has the boot information. -/
def oneEntryPtr : BitVec 32 := 0x11000

/-- The boot information for the entry of `oneEntryMem`. -/
theorem bootInfo_oneEntry (e : MemoryMap) :
    bootInfo (oneEntryMem e) oneEntryPtr = ⟨0x40, 24, 0x10000⟩ := by
  unfold bootInfo multibootInfoAt readWord readByte oneEntryMem oneEntryPtr frameOf wordIndex
  simp

/-- It announces a map. -/
theorem hasMap_oneEntry (e : MemoryMap) :
    (bootInfo (oneEntryMem e) oneEntryPtr).hasMap = true := by
  rw [bootInfo_oneEntry]
  rfl

/-- The machine that is booted with that memory. -/
theorem hasMap_boot (bm : Bitmap) (e : MemoryMap) :
    (bootInfo (Machine.boot bm (oneEntryMem e)).mem oneEntryPtr).hasMap = true :=
  hasMap_oneEntry e

/-- An available zone below 4 GiB. -/
def ramEntry (base length : BitVec 32) : MemoryMap where
  size := 20
  baseAddrLow := base
  baseAddrHigh := 0
  lengthLow := length
  lengthHigh := 0
  type := multibootMemoryAvailable

/-- The map contains the RAM that holds the kernel image and the bitmap. -/
def HoldsKernel (es : List MemoryMap) (kernelEnd : ℕ) : Prop :=
  ∀ x, 0x100000 ≤ x → x < kernelEnd + bitmapSize es →
    ∃ e ∈ es, e.Available ∧ e.base ≤ x ∧ x < e.base + e.length

section OneEntry

variable {base length kernelEnd : BitVec 32}
  (hat : memoryMapAt (readByte (oneEntryMem (ramEntry base length))) (BitVec.ofNat 32 0x10000) =
    ramEntry base length)
include hat

/-- The map is well formed. -/
theorem ramEntry_laidOut : MapLaidOut (oneEntryMem (ramEntry base length)) (0x10000 + 24) 0x10000
    [ramEntry base length] :=
  .entry hat le_rfl le_rfl .done

/-- The first loop visits its one entry. -/
theorem mmapEntries_ramEntry :
    mmapEntries (oneEntryMem (ramEntry base length)) oneEntryPtr =
      some [ramEntry base length] := by
  unfold mmapEntries
  rw [bootInfo_oneEntry]
  exact (ramEntry_laidOut hat).walkMap_eq (by decide) (by simp [loopFuel])

omit hat in

/-- An address below the kernel does not lie in the bitmap. -/
theorem outside_of_lt {size a : ℕ} (ha : a < kernelEnd.toNat)
    (hsize : kernelEnd.toNat + size ≤ 2 ^ 32) :
    ¬ InBitmap kernelEnd size (BitVec.ofNat 32 a) := by
  have hk := kernelEnd.isLt
  rw [InBitmap, BitVec.toNat_sub, BitVec.toNat_ofNat]
  omega

omit hat in

/-- The bitmap lies behind the kernel, the map and the boot information in front of it. -/
theorem ramEntry_outside (hk : 0x100000 < kernelEnd.toNat)
    (hsize : kernelEnd.toNat + bitmapSize [ramEntry base length] ≤ 2 ^ 32) :
    MapOutside (oneEntryMem (ramEntry base length)) oneEntryPtr kernelEnd
      [ramEntry base length] := by
  have hlow : ∀ a, a < 0x100000 →
      ¬ InBitmap kernelEnd (bitmapSize [ramEntry base length]) (BitVec.ofNat 32 a) :=
    fun a ha => outside_of_lt (by omega) hsize
  refine ⟨fun i hi => ?_, fun i hi => ?_, trivial⟩
  · rw [oneEntryPtr, show (0x11000 : BitVec 32) = BitVec.ofNat 32 0x11000 from rfl,
      ← BitVec.ofNat_add]
    exact hlow _ (by omega)
  · rw [bootInfo_oneEntry, show (0x10000 : BitVec 32) = BitVec.ofNat 32 0x10000 from rfl,
      ← BitVec.ofNat_add]
    exact hlow _ (by omega)

/-- Both loops visit its one entry. -/
theorem mapRead_ramEntry (hk : 0x100000 < kernelEnd.toNat)
    (hsize : kernelEnd.toNat + bitmapSize [ramEntry base length] ≤ 2 ^ 32) :
    MapRead (oneEntryMem (ramEntry base length)) oneEntryPtr kernelEnd [ramEntry base length]
      [ramEntry base length] :=
  ⟨mmapEntries_ramEntry hat,
    rereadEntries_of_outside (mmapEntries_ramEntry hat) (ramEntry_outside hk hsize)⟩

/-- A map of one zone that fits. -/
theorem initMem_ramEntry (kernelEnd : BitVec 32) (hk : 0x100000 < kernelEnd.toNat)
    (hfit : MapFits [ramEntry base length] [ramEntry base length] kernelEnd.toNat) :
    ∃ s', initMem oneEntryPtr kernelEnd
        (.boot ⟨[], by decide⟩ (oneEntryMem (ramEntry base length))) = .ok ((), s') ∧
      ∀ f, s'.bitmap.IsFree f ↔
        (ramEntry base length).Clears f ∧ ¬ Reserved [ramEntry base length] kernelEnd.toNat f := by
  have hread := mapRead_ramEntry hat hk hfit.kernel.1.le
  obtain ⟨bm', h⟩ := (initMemMap_ok_iff hk hread.first ⟨[], by decide⟩).mpr
    ⟨_, hread.second, hfit⟩
  have hrun := (initMem_ok_iff (s := .boot ⟨[], by decide⟩ (oneEntryMem (ramEntry base length)))
    (hasMap_boot _ _)).mpr ⟨bm', h, rfl⟩
  obtain ⟨zones, hzones, -, hused⟩ := initMemMap_used_iff hk hread.first h
  obtain rfl := Option.some.inj (hread.second.symm.trans hzones)
  refine ⟨_, hrun, fun f => ?_⟩
  rw [← not_iff_not, Bitmap.not_isFree_iff, hused, not_and_or, not_not]
  simp [Cleared, MemoryMap.Available, ramEntry]

end OneEntry

/-- RAM up to `0x120000`. -/
theorem initMem_completes_iff_oneEntry :
    ((∃ s', initMem oneEntryPtr 0x101000
      (.boot ⟨[], by decide⟩ (oneEntryMem (ramEntry 0 0x120000))) = .ok ((), s')) ↔
      0x10000 + 24 < 2 ^ 32 ∧ ∃ zones,
        rereadEntries (oneEntryMem (ramEntry 0 0x120000)) oneEntryPtr 0x101000
          [ramEntry 0 0x120000] = some zones ∧ MapFits [ramEntry 0 0x120000] zones 0x101000) ∧
    (0x10000 + 24 < 2 ^ 32 → MapOutside (oneEntryMem (ramEntry 0 0x120000)) oneEntryPtr 0x101000
        [ramEntry 0 0x120000] →
      rereadEntries (oneEntryMem (ramEntry 0 0x120000)) oneEntryPtr 0x101000
        [ramEntry 0 0x120000] = some [ramEntry 0 0x120000]) := by
  have hinfo : bootInfo (Machine.boot ⟨[], by decide⟩ (oneEntryMem (ramEntry 0 0x120000))).mem
      oneEntryPtr = ⟨0x40, 24, 0x10000⟩ := bootInfo_oneEntry _
  have h := initMem_completes_iff (s := .boot ⟨[], by decide⟩ (oneEntryMem (ramEntry 0 0x120000)))
    (hasMap_boot _ _) (by decide : 0x100000 < (0x101000 : BitVec 32).toNat)
    (by rw [hinfo]; exact ramEntry_laidOut (by decide)) (by rw [hinfo]; decide)
  rw [hinfo] at h
  exact h

/-- RAM up to `0x121000`, which is not a multiple of 32 KiB: the bitmap has 36 bytes and the last
page of the zone is frame 288. -/
theorem initMem_traps_0x121000 :
    bootInfo (oneEntryMem (ramEntry 0 0x121000)) oneEntryPtr = ⟨0x40, 24, 0x10000⟩ ∧
    MapLaidOut (oneEntryMem (ramEntry 0 0x121000)) (0x10000 + 24) 0x10000 [ramEntry 0 0x121000] ∧
      HoldsKernel [ramEntry 0 0x121000] 0x101000 ∧
      ¬ ∃ s', initMem oneEntryPtr 0x101000
        (.boot ⟨[], by decide⟩ (oneEntryMem (ramEntry 0 0x121000))) = .ok ((), s') := by
  have hsize : bitmapSize [ramEntry 0 0x121000] = 36 := by decide
  refine ⟨bootInfo_oneEntry _, ramEntry_laidOut (by decide),
    fun x hlo hhi => ⟨_, List.mem_singleton_self _, rfl, ?_, ?_⟩, ?_⟩
  · exact Nat.zero_le x
  · have hend : (ramEntry 0 0x121000).base + (ramEntry 0 0x121000).length = 0x121000 := by decide
    omega
  · rintro ⟨s', h⟩
    have hread : MapRead (oneEntryMem (ramEntry 0 0x121000)) oneEntryPtr 0x101000
        [ramEntry 0 0x121000] [ramEntry 0 0x121000] :=
      mapRead_ramEntry (by decide) (by decide) (by rw [hsize]; decide)
    obtain ⟨bm', h', -⟩ := (initMem_ok_iff (hasMap_boot _ _)).mp h
    obtain ⟨zones, hzones, hfit⟩ := (initMemMap_ok_iff (by decide) hread.first _).mp ⟨bm', h'⟩
    obtain rfl := Option.some.inj (hread.second.symm.trans hzones)
    have hzone := (hfit.zones _ (List.mem_singleton_self _) rfl).2 (by decide)
    exact absurd hzone (by decide)

end Completion

/-! ### Protected frames -/

/-- Some byte of the frame lies in `[lo, hi)`. -/
def Overlaps (f lo hi : ℕ) : Prop := ∃ x, lo ≤ x ∧ x < hi ∧ x / pageSize = f

/-- Frames that hold the kernel image, the bitmap, frame 0 or the boot stack. -/
def Protected (es : List MemoryMap) (kernelEnd f : ℕ) : Prop :=
  Overlaps f 0x100000 kernelEnd ∨ Overlaps f kernelEnd (kernelEnd + bitmapSize es) ∨ f = 0 ∨
    Overlaps f 0x80000 0x90000

/-- A call of the allocator, where no frame of `P` is freed. -/
inductive KeepsStep (P : ℕ → Prop) : Bitmap → Bitmap → Prop
  | alloc {bm bm' : Bitmap} {a : BitVec 32} :
      pmmAllocFrame bm = .ok (a, bm') → KeepsStep P bm bm'
  | free {bm bm' : Bitmap} {a : BitVec 32} :
      ¬ P (a.toNat / pageSize) → pmmFreeFrame a bm = .ok ((), bm') → KeepsStep P bm bm'

/-- No frame of `P` is free, and none is handed out in a run that frees none. -/
structure Withheld (P : ℕ → Prop) (bm : Bitmap) : Prop where
  not_free : ∀ f, P f → ¬ bm.IsFree f
  not_handed_out : ∀ bm₁, Relation.ReflTransGen (KeepsStep P) bm bm₁ → ∀ a bm₂,
    pmmAllocFrame bm₁ = .ok (a, bm₂) → a ≠ 0 → ¬ P (a.toNat / pageSize)

section Withheld

variable {P : ℕ → Prop} {bm bm' : Bitmap}

/-- A step sets bits, and clears none of `P`. -/
theorem keepsStep_not_free (h : KeepsStep P bm bm') (hbm : ∀ f, P f → ¬ bm.IsFree f) :
    ∀ f, P f → ¬ bm'.IsFree f := by
  intro f hf
  have hused : bm.used f = true := Bitmap.not_isFree_iff.mp (hbm f hf)
  rw [Bitmap.not_isFree_iff]
  cases h with
  | alloc h =>
    rcases pmmAllocFrame_eq bm with ⟨-, hnone⟩ | ⟨g, bm₁, -, hsome, hmark⟩
    · rw [hnone] at h
      obtain rfl := (Prod.mk.inj (Except.ok.inj h)).2
      exact hused
    · rw [hsome] at h
      obtain rfl := (Prod.mk.inj (Except.ok.inj h)).2
      rw [hmark.used_eq, hused, ite_self]
  | @free a ha h =>
    obtain ⟨-, hmark⟩ := markRegion_inv setsBit_and_not h
    have hsize : (BitVec.ofNat 32 pageSize).toNat = pageSize := rfl
    rw [hmark.used_eq, hsize, if_neg, hused]
    rintro ⟨hlo, hhi⟩
    have hfa : f = a.toNat / pageSize := by
      rw [Nat.add_div_right _ (by simp [pageSize])] at hhi
      omega
    exact ha (hfa ▸ hf)

/-- What is not free at the start of a run is never free in it. -/
theorem keepsRun_not_free (h : Relation.ReflTransGen (KeepsStep P) bm bm')
    (hbm : ∀ f, P f → ¬ bm.IsFree f) : ∀ f, P f → ¬ bm'.IsFree f :=
  run_invariant (fun bm => ∀ f, P f → ¬ bm.IsFree f) h hbm
    fun hbm hstep => keepsStep_not_free hstep hbm

/-- Frames that are not free are withheld in every run. -/
theorem withheld_of_not_free (hbm : ∀ f, P f → ¬ bm.IsFree f) : Withheld P bm := by
  refine ⟨hbm, fun bm₁ hrun a bm₂ halloc ha hP => ?_⟩
  have hbm₁ := keepsRun_not_free hrun hbm
  rcases pmmAllocFrame_eq bm₁ with ⟨-, hnone⟩ | ⟨g, bm₃, hg, hsome, -⟩
  · rw [hnone] at halloc
    exact ha (Prod.mk.inj (Except.ok.inj halloc)).1.symm
  · rw [hsome] at halloc
    obtain rfl := (Prod.mk.inj (Except.ok.inj halloc)).1
    obtain ⟨hclear, hlt, -⟩ := lowestClear_eq_some_iff.mp hg
    have hlt' : g < 2 ^ 20 := lt_of_lt_of_le hlt (bm₁.frames_le.trans (by norm_num))
    rw [frameAddr_toNat hlt', Nat.mul_div_cancel _ (by simp [pageSize])] at hP
    exact hbm₁ g hP ⟨hlt, hclear⟩

end Withheld

/-- The protected frames that are not reserved: the frame in which the bitmap ends, unless the
bitmap ends on a page boundary. -/
theorem protected_iff {es : List MemoryMap} {kernelEnd f : ℕ} (hk : 0x100000 < kernelEnd) :
    Protected es kernelEnd f ↔ Reserved es kernelEnd f ∨
      ((kernelEnd + bitmapSize es) % pageSize ≠ 0 ∧
        f = (kernelEnd + bitmapSize es) / pageSize) := by
  simp only [Protected, Overlaps, Reserved, pageSize]
  constructor
  · rintro (⟨x, hlo, hhi, rfl⟩ | ⟨x, hlo, hhi, rfl⟩ | rfl | ⟨x, hlo, hhi, rfl⟩)
    · omega
    · omega
    · omega
    · omega
  · rintro ((⟨hlo, hhi⟩ | rfl | ⟨hlo, hhi⟩) | ⟨hmod, rfl⟩)
    · rcases Nat.lt_or_ge (f * 4096) kernelEnd with hlt | hge
      · exact Or.inl ⟨f * 4096, by omega, hlt, by omega⟩
      · exact Or.inr (Or.inl ⟨f * 4096, hge, by omega, by omega⟩)
    · exact Or.inr (Or.inr (Or.inl rfl))
    · exact Or.inr (Or.inr (Or.inr ⟨f * 4096, by omega, by omega, by omega⟩))
    · rcases Nat.lt_or_ge (kernelEnd + bitmapSize es - 1) kernelEnd with hlt | hge
      · exact Or.inl ⟨kernelEnd + bitmapSize es - 1, by omega, hlt, by omega⟩
      · exact Or.inr (Or.inl ⟨kernelEnd + bitmapSize es - 1, hge, by omega, by omega⟩)

section Results

variable {mbootPtr kernelEnd : BitVec 32} {s s' : Machine}

/-- **Protection.** After `init_mem` the frames of the kernel image, of the bitmap, of frame 0 and
of the boot stack are withheld exactly when the bitmap ends on a page boundary, or in a frame that
no available zone clears. -/
theorem initMem_protects_iff (hmap : (bootInfo s.mem mbootPtr).hasMap = true)
    (hk : 0x100000 < kernelEnd.toNat) (h : initMem mbootPtr kernelEnd s = .ok ((), s')) :
    ∃ es zones, MapRead s.mem mbootPtr kernelEnd es zones ∧
      (MapOutside s.mem mbootPtr kernelEnd es → zones = es) ∧
      (Withheld (Protected es kernelEnd.toNat) s'.bitmap ↔
        (kernelEnd.toNat + bitmapSize es) % pageSize = 0 ∨
          ¬ Cleared zones ((kernelEnd.toNat + bitmapSize es) / pageSize)) := by
  obtain ⟨es, zones, hread, -, hfree⟩ := initMem_free_iff hmap hk h
  refine ⟨es, zones, hread, hread.zones_eq, ?_⟩
  constructor
  · intro hw
    by_contra hcond
    rw [not_or, not_not] at hcond
    obtain ⟨hmod, hcleared⟩ := hcond
    refine hw.not_free _ ((protected_iff hk).mpr (Or.inr ⟨hmod, rfl⟩))
      ((hfree _).mpr ⟨hcleared, ?_⟩)
    simp only [Reserved, pageSize]
    omega
  · intro hcond
    refine withheld_of_not_free fun f hf hff => ?_
    obtain ⟨hcleared, hres⟩ := (hfree f).mp hff
    rcases (protected_iff hk).mp hf with hf | ⟨hmod, rfl⟩
    · exact hres hf
    · rcases hcond with hmod' | hcond
      · exact hmod hmod'
      · exact hcond hcleared

/-- A map of one zone, RAM up to `0x120000`, and a kernel that ends at `0x110800`. -/
theorem mapFits_0x120000 : MapFits [ramEntry 0 0x120000] [ramEntry 0 0x120000] 0x110800 where
  zones := by
    intro e he _
    obtain rfl := List.mem_singleton.mp he
    decide
  kernel := by decide
  stack := by decide

/-- The condition for that map. -/
theorem initMem_protects_iff_0x120000 : ∃ s', initMem oneEntryPtr 0x110800
      (.boot ⟨[], by decide⟩ (oneEntryMem (ramEntry 0 0x120000))) = .ok ((), s') ∧
    ∃ es zones, MapRead (oneEntryMem (ramEntry 0 0x120000)) oneEntryPtr 0x110800 es zones ∧
      (MapOutside (oneEntryMem (ramEntry 0 0x120000)) oneEntryPtr 0x110800 es → zones = es) ∧
      (Withheld (Protected es (0x110800 : BitVec 32).toNat) s'.bitmap ↔
        ((0x110800 : BitVec 32).toNat + bitmapSize es) % pageSize = 0 ∨
          ¬ Cleared zones (((0x110800 : BitVec 32).toNat + bitmapSize es) / pageSize)) := by
  obtain ⟨s', h, -⟩ := initMem_ramEntry (by decide) 0x110800 (by decide)
    mapFits_0x120000
  have hiff := initMem_protects_iff (hasMap_boot _ _) (by decide) h
  exact ⟨s', h, hiff⟩

/-- Frame `0x110` holds the end of that kernel and the bitmap, and is free. -/
theorem initMem_frees_0x110 : ∃ s', initMem oneEntryPtr 0x110800
      (.boot ⟨[], by decide⟩ (oneEntryMem (ramEntry 0 0x120000))) = .ok ((), s') ∧
    MapRead (oneEntryMem (ramEntry 0 0x120000)) oneEntryPtr 0x110800 [ramEntry 0 0x120000]
      [ramEntry 0 0x120000] ∧
    Protected [ramEntry 0 0x120000] 0x110800 0x110 ∧ s'.bitmap.IsFree 0x110 ∧
    ¬ Withheld (Protected [ramEntry 0 0x120000] 0x110800) s'.bitmap := by
  obtain ⟨s', h, hfree⟩ := initMem_ramEntry (by decide) 0x110800 (by decide)
    mapFits_0x120000
  have hsize : bitmapSize [ramEntry 0 0x120000] = 36 := by decide
  have hread : MapRead (oneEntryMem (ramEntry 0 0x120000)) oneEntryPtr 0x110800
      [ramEntry 0 0x120000] [ramEntry 0 0x120000] :=
    mapRead_ramEntry (by decide) (by decide) (by rw [hsize]; decide)
  have hprotected : Protected [ramEntry 0 0x120000] 0x110800 0x110 :=
    Or.inl ⟨0x110000, by decide, by decide, rfl⟩
  have hisFree : s'.bitmap.IsFree 0x110 := by
    refine (hfree _).mpr ⟨by unfold MemoryMap.Clears; decide, ?_⟩
    simp only [Reserved, hsize]
    decide
  exact ⟨s', h, hread, hprotected, hisFree, fun hw => hw.not_free _ hprotected hisFree⟩

/-- The frames an available zone exposes without holding them wholly: all that it clears when it is
not an entry of the map as it was passed or the high word of its base is not zero, else the one it
starts in when it starts inside a page. -/
structure ClearsOnlyRam (es zones : List MemoryMap) (kernelEnd : ℕ) : Prop where
  damaged : ∀ e ∈ zones, e.Available → e ∉ es → ∀ f, e.Clears f →
    Reserved es kernelEnd f ∨ WhollyAvailable es f
  high : ∀ e ∈ zones, e.Available → e.baseAddrHigh ≠ 0 → ∀ f, e.Clears f →
    Reserved es kernelEnd f ∨ WhollyAvailable es f
  first : ∀ e ∈ zones, e.Available → e.baseAddrLow.toNat % pageSize ≠ 0 →
    e.Clears (e.baseAddrLow.toNat / pageSize) →
    Reserved es kernelEnd (e.baseAddrLow.toNat / pageSize) ∨
      WhollyAvailable es (e.baseAddrLow.toNat / pageSize)

/-- **Only RAM is free.** After `init_mem` every free frame lies wholly in an available zone
exactly when the frames exposed by a zone with a high base word, the first frame of a zone that
starts inside a page, and those of an entry that the bitmap has overwritten, are reserved or in
another available zone. -/
theorem initMem_free_available_iff (hmap : (bootInfo s.mem mbootPtr).hasMap = true)
    (hk : 0x100000 < kernelEnd.toNat) (h : initMem mbootPtr kernelEnd s = .ok ((), s')) :
    ∃ es zones, MapRead s.mem mbootPtr kernelEnd es zones ∧
      (MapOutside s.mem mbootPtr kernelEnd es → zones = es) ∧
      ((∀ f, s'.bitmap.IsFree f → WhollyAvailable es f) ↔
        ClearsOnlyRam es zones kernelEnd.toNat) := by
  obtain ⟨es, zones, hread, -, hfree⟩ := initMem_free_iff hmap hk h
  refine ⟨es, zones, hread, hread.zones_eq, ?_⟩
  constructor
  · intro hall
    have hclears : ∀ e ∈ zones, e.Available → ∀ f, e.Clears f →
        Reserved es kernelEnd.toNat f ∨ WhollyAvailable es f := by
      intro e he hav f hf
      by_cases hres : Reserved es kernelEnd.toNat f
      · exact Or.inl hres
      · exact Or.inr (hall f ((hfree f).mpr ⟨⟨e, he, hav, hf⟩, hres⟩))
    exact ⟨fun e he hav _ => hclears e he hav, fun e he hav _ => hclears e he hav,
      fun e he hav _ => hclears e he hav _⟩
  · intro hcond f hff
    obtain ⟨⟨e, he, hav, hclears⟩, hres⟩ := (hfree f).mp hff
    by_cases hes : e ∈ es
    · by_cases hhigh : e.baseAddrHigh = 0
      · by_cases hstart : e.baseAddrLow.toNat ≤ f * pageSize
        · -- a whole page above the base of a zone below 4 GiB
          refine ⟨e, hes, hav, ?_, ?_⟩
          · simpa [MemoryMap.base, hhigh] using hstart
          · have hend := hclears.2
            have hhi : (0 : BitVec 32).toNat = 0 := rfl
            simp only [MemoryMap.base, MemoryMap.length, MemoryMap.lowEnd, hhigh, hhi,
              pageSize] at *
            omega
        · have hf : f = e.baseAddrLow.toNat / pageSize := by
            have hlo := hclears.1
            simp only [pageSize] at *
            omega
          have hmod : e.baseAddrLow.toNat % pageSize ≠ 0 := by
            simp only [pageSize] at *
            omega
          subst hf
          exact (hcond.first e he hav hmod hclears).resolve_left hres
      · exact (hcond.high e he hav hhigh f hclears).resolve_left hres
    · exact (hcond.damaged e he hav hes f hclears).resolve_left hres

/-- A map of one zone that starts inside page `0x90`. -/
theorem mapFits_0x90800 :
    MapFits [ramEntry 0x90800 0x8F800] [ramEntry 0x90800 0x8F800] 0x101000 where
  zones := by
    intro e he _
    obtain rfl := List.mem_singleton.mp he
    decide
  kernel := by decide
  stack := by decide

/-- The condition for that map. -/
theorem initMem_free_available_iff_0x90800 : ∃ s', initMem oneEntryPtr 0x101000
      (.boot ⟨[], by decide⟩ (oneEntryMem (ramEntry 0x90800 0x8F800))) = .ok ((), s') ∧
    ∃ es zones, MapRead (oneEntryMem (ramEntry 0x90800 0x8F800)) oneEntryPtr 0x101000 es zones ∧
      (MapOutside (oneEntryMem (ramEntry 0x90800 0x8F800)) oneEntryPtr 0x101000 es →
        zones = es) ∧
      ((∀ f, s'.bitmap.IsFree f → WhollyAvailable es f) ↔
        ClearsOnlyRam es zones (0x101000 : BitVec 32).toNat) := by
  obtain ⟨s', h, -⟩ := initMem_ramEntry (by decide) 0x101000 (by decide)
    mapFits_0x90800
  have hiff := initMem_free_available_iff (hasMap_boot _ _) (by decide) h
  exact ⟨s', h, hiff⟩

/-- Frame `0x90` is only partly covered by the one available zone, and is free. -/
theorem initMem_frees_0x90 : ∃ s', initMem oneEntryPtr 0x101000
      (.boot ⟨[], by decide⟩ (oneEntryMem (ramEntry 0x90800 0x8F800))) = .ok ((), s') ∧
    mmapEntries (oneEntryMem (ramEntry 0x90800 0x8F800)) oneEntryPtr =
      some [ramEntry 0x90800 0x8F800] ∧
    s'.bitmap.IsFree 0x90 ∧ ¬ WhollyAvailable [ramEntry 0x90800 0x8F800] 0x90 := by
  obtain ⟨s', h, hfree⟩ := initMem_ramEntry (by decide) 0x101000 (by decide)
    mapFits_0x90800
  refine ⟨s', h, mmapEntries_ramEntry (by decide), (hfree _).mpr ⟨?_, ?_⟩, ?_⟩
  · unfold MemoryMap.Clears
    decide
  · have hsize : bitmapSize [ramEntry 0x90800 0x8F800] = 36 := by decide
    simp only [Reserved, hsize]
    decide
  · rintro ⟨e, he, -, hbase, -⟩
    obtain rfl := List.mem_singleton.mp he
    exact absurd hbase (by decide)

end Results

end AuriOS
