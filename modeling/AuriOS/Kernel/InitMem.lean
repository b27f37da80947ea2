import AuriOS.Kernel.Machine
import AuriOS.Mm.PmmRuns

/-!
# The memory map

`init_mem` of `src/kernel/kernel.c` walks the boot loader's memory map twice: once for the highest
zone end, from which `pmm_init` sizes the bitmap, and once to free the available zones; then it
reserves the kernel image with the bitmap, frame 0 and the boot stack.

The first loop visits the entries of `walkMap`.  In between `pmm_init` fills the bitmap, which lies
at `kernel_end`, and the second loop reads the map and the boot information again while it clears
bits there: it visits the entries of `rereadMap`.  These are the same entries when the map and the
boot information lie outside the bitmap (`rereadEntries_of_outside`).  It is assumed that neither
shares a byte with the kernel's variables or its stack.

`initMemMap_ok_iff` says on which maps `init_mem` completes and `initMemMap_used_iff` which frames
it leaves marked used: those of no available zone's truncated page range, and the reserved ones.
The results about protected frames, about frames outside the available zones and about completion
are read off these two.
-/

namespace AuriOS

open Program WordBitmap

/-! ### The boot information -/

/-- The fields of `multiboot_info_t` that `init_mem` reads. -/
structure MultibootInfo where
  flags : BitVec 32
  mmapLength : BitVec 32
  mmapAddr : BitVec 32
  deriving DecidableEq

/-- `multiboot_memory_map_t`. -/
structure MemoryMap where
  size : BitVec 32
  baseAddrLow : BitVec 32
  baseAddrHigh : BitVec 32
  lengthLow : BitVec 32
  lengthHigh : BitVec 32
  type : BitVec 32
  deriving DecidableEq

/-- `MULTIBOOT_MEMORY_AVAILABLE`. -/
def multibootMemoryAvailable : BitVec 32 := 1

/-- The byte at a physical address. -/
def readByte (mem : PhysMem) (a : BitVec 32) : BitVec 8 :=
  (mem (frameOf a) (wordIndex a)).extractLsb' (8 * (a.toNat % 4)) 8

/-- The byte at a physical address once the bitmap lies at `kernel_end`. -/
def withBitmap (mem : PhysMem) (kernelEnd : BitVec 32) (bm : Bitmap) (a : BitVec 32) : BitVec 8 :=
  (bm.bytes[(a - kernelEnd).toNat]?).getD (readByte mem a)

section Reading

-- the bytes of physical memory at the time of the reading
variable (bytes : BitVec 32 → BitVec 8)

/-- The `uint32_t` at a physical address, aligned or not. -/
def readWord (a : BitVec 32) : BitVec 32 :=
  bytes (a + 3) ++ (bytes (a + 2) ++ (bytes (a + 1) ++ bytes a))

/-- The boot information at a physical address. -/
def multibootInfoAt (a : BitVec 32) : MultibootInfo where
  flags := readWord bytes a
  mmapLength := readWord bytes (a + 44)
  mmapAddr := readWord bytes (a + 48)

/-- The entry at a physical address. -/
def memoryMapAt (a : BitVec 32) : MemoryMap where
  size := readWord bytes a
  baseAddrLow := readWord bytes (a + 4)
  baseAddrHigh := readWord bytes (a + 8)
  lengthLow := readWord bytes (a + 12)
  lengthHigh := readWord bytes (a + 16)
  type := readWord bytes (a + 20)

/-- The entry after the one at a physical address: `size` does not count itself. -/
def nextMmap (a : BitVec 32) : BitVec 32 := a + (memoryMapAt bytes a).size + 4

end Reading

/-- The boot information as it is when `init_mem` is called. -/
def bootInfo (mem : PhysMem) (mbootPtr : BitVec 32) : MultibootInfo :=
  multibootInfoAt (readByte mem) mbootPtr

/-- `mmap_addr + mmap_length`, in 32 bits. -/
def MultibootInfo.mmapEnd (info : MultibootInfo) : BitVec 32 := info.mmapAddr + info.mmapLength

/-- `base_addr_low + length_low`, in 32 bits. -/
def MemoryMap.zoneEnd (e : MemoryMap) : BitVec 32 := e.baseAddrLow + e.lengthLow

/-! ### `init_mem` -/

/-- A loop whose state is one pointer and which does not end within this many rounds never
ends. -/
@[irreducible] def loopFuel : ℕ := 2 ^ 32

/-- Neither does one that also clears bits of a bitmap of at most `2 ^ 20` bits: some pointer comes
back with the same bitmap. -/
@[irreducible] def rereadFuel : ℕ := 2 ^ 52

/-- The body of the second loop. -/
def freeEntry (e : MemoryMap) : Pmm Unit :=
  if e.type = multibootMemoryAvailable then pmmMarkRegionFree e.baseAddrLow e.lengthLow
  else pure ()

/-- The loop for the highest zone end, in at most `n` rounds.  It writes nothing, so its bound is
the same in every round. -/
def maxRamLoop (bytes : BitVec 32 → BitVec 8) (mmapEnd : BitVec 32) :
    ℕ → BitVec 32 → BitVec 32 → Pmm (BitVec 32)
  | 0, _, _ => throw .spin
  | n + 1, tempMmap, maxRamAddr =>
      if tempMmap < mmapEnd then
        maxRamLoop bytes mmapEnd n (nextMmap bytes tempMmap)
          (if maxRamAddr < (memoryMapAt bytes tempMmap).zoneEnd then
            (memoryMapAt bytes tempMmap).zoneEnd
          else maxRamAddr)
      else pure maxRamAddr

/-- The loop that frees the available zones.  Its bound, the entry and then the entry's `size` are
read from memory with the bitmap as it is by then. -/
def freeLoop (mem : PhysMem) (mbootPtr kernelEnd : BitVec 32) : ℕ → BitVec 32 → Pmm Unit
  | 0, _ => throw .spin
  | n + 1, mmap => do
      let bm ← get
      if mmap < (multibootInfoAt (withBitmap mem kernelEnd bm) mbootPtr).mmapEnd then do
        freeEntry (memoryMapAt (withBitmap mem kernelEnd bm) mmap)
        let bm ← get
        freeLoop mem mbootPtr kernelEnd n (nextMmap (withBitmap mem kernelEnd bm) mmap)
      else pure ()

/-- The branch of `init_mem` taken when a memory map is present. -/
def initMemMap (mem : PhysMem) (mbootPtr kernelEnd : BitVec 32) : Pmm Unit := do
  let info := bootInfo mem mbootPtr
  let maxRamAddr ← maxRamLoop (readByte mem) info.mmapEnd loopFuel info.mmapAddr 0
  pmmInit maxRamAddr kernelEnd
  freeLoop mem mbootPtr kernelEnd rereadFuel info.mmapAddr
  let bitmapSize := (maxRamAddr / 4096) / 8
  pmmMarkRegionUsed 0x100000 ((kernelEnd - 0x100000) + bitmapSize)
  pmmMarkRegionUsed 0x0 4096
  pmmMarkRegionUsed 0x80000 0x10000

/-- A memory map is present. -/
def MultibootInfo.hasMap (info : MultibootInfo) : Bool := info.flags &&& (1 <<< 6) != 0

/-- `init_mem`, with the address of `kernel_end`. -/
def initMem (mbootPtr kernelEnd : BitVec 32) : Kernel Unit := do
  let s ← get
  if (bootInfo s.mem mbootPtr).hasMap then do
    callPmm (initMemMap s.mem mbootPtr kernelEnd)
    klog "INFO" "[PMM] Physical Memory Manager initialized by Zig."
  else klog "PANIC" "No memory map provided by bootloader!"

/-! ### The entries of a map -/

/-- The entries the first loop visits, if it ends within `n` rounds. -/
def walkMap (bytes : BitVec 32 → BitVec 8) (mmapEnd : BitVec 32) :
    ℕ → BitVec 32 → Option (List MemoryMap)
  | 0, _ => none
  | n + 1, mmap =>
      if mmap < mmapEnd then
        (walkMap bytes mmapEnd n (nextMmap bytes mmap)).map (memoryMapAt bytes mmap :: ·)
      else some []

/-- The entries of the map the boot loader passed. -/
def mmapEntries (mem : PhysMem) (mbootPtr : BitVec 32) : Option (List MemoryMap) :=
  let info := bootInfo mem mbootPtr
  walkMap (readByte mem) info.mmapEnd loopFuel info.mmapAddr

/-- The wrapping maximum of the zone ends. -/
def maxRam : List MemoryMap → BitVec 32 → BitVec 32
  | [], m => m
  | e :: es, m => maxRam es (if m < e.zoneEnd then e.zoneEnd else m)

/-- The highest zone end of a map. -/
def maxRamAddr (es : List MemoryMap) : ℕ := (maxRam es 0).toNat

/-- The number of bytes of the bitmap made for a map. -/
def bitmapSize (es : List MemoryMap) : ℕ := maxRamAddr es / pageSize / 8

/-- The entry describes available memory. -/
def MemoryMap.Available (e : MemoryMap) : Prop := e.type = multibootMemoryAvailable

instance (e : MemoryMap) : Decidable e.Available := inferInstanceAs (Decidable (_ = _))

/-- The sum of the low words of a zone, not wrapped. -/
def MemoryMap.lowEnd (e : MemoryMap) : ℕ := e.baseAddrLow.toNat + e.lengthLow.toNat

/-- The frame is in the page range that `pmm_mark_region_free` clears for the zone. -/
def MemoryMap.Clears (e : MemoryMap) (f : ℕ) : Prop :=
  e.baseAddrLow.toNat / pageSize ≤ f ∧ f < e.lowEnd / pageSize

/-- Some available zone clears the frame. -/
def Cleared (es : List MemoryMap) (f : ℕ) : Prop := ∃ e ∈ es, e.Available ∧ e.Clears f

instance (e : MemoryMap) (f : ℕ) : Decidable (e.Clears f) := inferInstanceAs (Decidable (_ ∧ _))

instance (es : List MemoryMap) (f : ℕ) : Decidable (Cleared es f) := List.decidableBEx _ es

/-- The true base of a zone. -/
def MemoryMap.base (e : MemoryMap) : ℕ := e.baseAddrHigh.toNat * 2 ^ 32 + e.baseAddrLow.toNat

/-- The true length of a zone. -/
def MemoryMap.length (e : MemoryMap) : ℕ := e.lengthHigh.toNat * 2 ^ 32 + e.lengthLow.toNat

/-- The frame lies wholly inside the true range of an available zone. -/
def WhollyAvailable (es : List MemoryMap) (f : ℕ) : Prop :=
  ∃ e ∈ es, e.Available ∧ e.base ≤ f * pageSize ∧ (f + 1) * pageSize ≤ e.base + e.length

/-- The frames `init_mem` reserves after freeing the zones. -/
def Reserved (es : List MemoryMap) (kernelEnd f : ℕ) : Prop :=
  (0x100 ≤ f ∧ f < (kernelEnd + bitmapSize es) / pageSize) ∨ f = 0 ∨ (0x80 ≤ f ∧ f < 0x90)

/-- The regions `init_mem` marks fit the bitmap it made for the entries `es`, when it frees the
available ones of `zones`. -/
structure MapFits (es zones : List MemoryMap) (kernelEnd : ℕ) : Prop where
  /-- The low words of no available zone reach past 4 GiB, and no available zone that clears a
  frame reaches a page past the last multiple of 32 KiB below the highest zone end. -/
  zones : ∀ e ∈ zones, e.Available → e.lowEnd < 2 ^ 32 ∧
    (e.baseAddrLow.toNat / pageSize < e.lowEnd / pageSize →
      e.lowEnd < maxRamAddr es / 0x8000 * 0x8000 + pageSize)
  /-- Neither do the kernel image and the bitmap. -/
  kernel : kernelEnd + bitmapSize es < 2 ^ 32 ∧
    (0x101000 ≤ kernelEnd + bitmapSize es →
      kernelEnd + bitmapSize es < maxRamAddr es / 0x8000 * 0x8000 + pageSize)
  /-- The boot stack lies below the highest zone end. -/
  stack : 0x90000 ≤ maxRamAddr es

/-! ### What the second loop reads -/

/-- The address is one of the `size` bytes of the bitmap. -/
def InBitmap (kernelEnd : BitVec 32) (size : ℕ) (a : BitVec 32) : Prop :=
  (a - kernelEnd).toNat < size

instance (kernelEnd : BitVec 32) (size : ℕ) (a : BitVec 32) :
    Decidable (InBitmap kernelEnd size a) := inferInstanceAs (Decidable (_ < _))

/-- Memory after the `memset` of a bitmap of this size and the freeing of these zones: in the
bitmap a bit is set unless one of the zones clears its frame. -/
def bytesAfter (mem : PhysMem) (kernelEnd : BitVec 32) (size : ℕ) (freed : List MemoryMap)
    (a : BitVec 32) : BitVec 8 :=
  if InBitmap kernelEnd size a then
    BitVec.ofFnLE fun j : Fin 8 => !decide (Cleared freed (8 * (a - kernelEnd).toNat + j))
  else readByte mem a

section Reread

variable (mem : PhysMem) (mbootPtr kernelEnd : BitVec 32) (size : ℕ)

/-- The entries the second loop visits after it has freed the zones `freed`, if it ends within `n`
rounds. -/
def rereadMap : ℕ → List MemoryMap → BitVec 32 → Option (List MemoryMap)
  | 0, _, _ => none
  | n + 1, freed, mmap =>
      let bytes := bytesAfter mem kernelEnd size freed
      let e := memoryMapAt bytes mmap
      if mmap < (multibootInfoAt bytes mbootPtr).mmapEnd then
        (rereadMap n (freed ++ [e])
          (nextMmap (bytesAfter mem kernelEnd size (freed ++ [e])) mmap)).map (e :: ·)
      else some []

end Reread

/-- The entries the second loop visits, when the first one visited `es`. -/
def rereadEntries (mem : PhysMem) (mbootPtr kernelEnd : BitVec 32) (es : List MemoryMap) :
    Option (List MemoryMap) :=
  rereadMap mem mbootPtr kernelEnd (bitmapSize es) rereadFuel []
    (bootInfo mem mbootPtr).mmapAddr

/-- The entries of a map that begins at this address lie outside the bitmap. -/
def EntriesOutside (kernelEnd : BitVec 32) (size : ℕ) : BitVec 32 → List MemoryMap → Prop
  | _, [] => True
  | a, e :: es =>
      (∀ i < 24, ¬ InBitmap kernelEnd size (a + BitVec.ofNat 32 i)) ∧
        EntriesOutside kernelEnd size (a + e.size + 4) es

/-- The boot information and the map lie outside the bitmap. -/
structure MapOutside (mem : PhysMem) (mbootPtr kernelEnd : BitVec 32) (es : List MemoryMap) :
    Prop where
  info : ∀ i < 52, ¬ InBitmap kernelEnd (bitmapSize es) (mbootPtr + BitVec.ofNat 32 i)
  entries : EntriesOutside kernelEnd (bitmapSize es)
    (bootInfo mem mbootPtr).mmapAddr es

section Outside

variable {mem : PhysMem} {mbootPtr kernelEnd : BitVec 32} {size : ℕ} {freed es : List MemoryMap}
  {a : BitVec 32}

/-- Outside the bitmap memory stays as it was. -/
theorem bytesAfter_of_outside (h : ¬ InBitmap kernelEnd size a) :
    bytesAfter mem kernelEnd size freed a = readByte mem a :=
  if_neg h

/-- So it does whatever the bitmap holds. -/
theorem withBitmap_of_outside {bm : Bitmap} (hlen : bm.bytes.length = size)
    (h : ¬ InBitmap kernelEnd size a) : withBitmap mem kernelEnd bm a = readByte mem a := by
  rw [InBitmap, ← hlen] at h
  rw [withBitmap, List.getElem?_eq_none (Nat.le_of_not_lt h), Option.getD_none]

/-- Four bytes that lie outside the bitmap. -/
theorem readWord_of_outside {o n : ℕ} (ho : o + 4 ≤ n)
    (h : ∀ i < n, ¬ InBitmap kernelEnd size (a + BitVec.ofNat 32 i)) :
    readWord (bytesAfter mem kernelEnd size freed) (a + BitVec.ofNat 32 o) =
      readWord (readByte mem) (a + BitVec.ofNat 32 o) := by
  have hbyte : ∀ j < 4, bytesAfter mem kernelEnd size freed
      (a + BitVec.ofNat 32 o + BitVec.ofNat 32 j) =
        readByte mem (a + BitVec.ofNat 32 o + BitVec.ofNat 32 j) := by
    intro j hj
    refine bytesAfter_of_outside ?_
    rw [BitVec.add_assoc, ← BitVec.ofNat_add]
    exact h (o + j) (by omega)
  have h0 := hbyte 0 (by omega)
  rw [show BitVec.ofNat 32 0 = 0#32 from rfl, BitVec.add_zero] at h0
  unfold readWord
  rw [h0]
  exact congrArg₂ _ (hbyte 3 (by omega))
    (congrArg₂ _ (hbyte 2 (by omega)) (congrArg₂ _ (hbyte 1 (by omega)) rfl))

/-- An entry outside the bitmap is read as it was. -/
theorem memoryMapAt_of_outside
    (h : ∀ i < 24, ¬ InBitmap kernelEnd size (a + BitVec.ofNat 32 i)) :
    memoryMapAt (bytesAfter mem kernelEnd size freed) a = memoryMapAt (readByte mem) a := by
  have hword : ∀ o, o + 4 ≤ 24 → readWord (bytesAfter mem kernelEnd size freed)
      (a + BitVec.ofNat 32 o) = readWord (readByte mem) (a + BitVec.ofNat 32 o) :=
    fun o ho => readWord_of_outside ho h
  have h0 := hword 0 (by omega)
  rw [show BitVec.ofNat 32 0 = 0#32 from rfl, BitVec.add_zero] at h0
  unfold memoryMapAt
  rw [MemoryMap.mk.injEq]
  exact ⟨h0, hword 4 (by omega), hword 8 (by omega), hword 12 (by omega), hword 16 (by omega),
    hword 20 (by omega)⟩

/-- So is the boot information. -/
theorem multibootInfoAt_of_outside
    (h : ∀ i < 52, ¬ InBitmap kernelEnd size (a + BitVec.ofNat 32 i)) :
    multibootInfoAt (bytesAfter mem kernelEnd size freed) a =
      multibootInfoAt (readByte mem) a := by
  have hword : ∀ o, o + 4 ≤ 52 → readWord (bytesAfter mem kernelEnd size freed)
      (a + BitVec.ofNat 32 o) = readWord (readByte mem) (a + BitVec.ofNat 32 o) :=
    fun o ho => readWord_of_outside ho h
  have h0 := hword 0 (by omega)
  rw [show BitVec.ofNat 32 0 = 0#32 from rfl, BitVec.add_zero] at h0
  unfold multibootInfoAt
  rw [MultibootInfo.mk.injEq]
  exact ⟨h0, hword 44 (by omega), hword 48 (by omega)⟩

/-- A map outside the bitmap is read twice alike, by induction on the rounds of the first loop. -/
theorem rereadMap_of_outside {n m : ℕ} (hnm : n ≤ m)
    (hinfo : ∀ i < 52, ¬ InBitmap kernelEnd size (mbootPtr + BitVec.ofNat 32 i))
    (hes : walkMap (readByte mem) (bootInfo mem mbootPtr).mmapEnd n a = some es)
    (h : EntriesOutside kernelEnd size a es) :
    rereadMap mem mbootPtr kernelEnd size m freed a = some es := by
  induction n generalizing a es freed m with
  | zero => simp [walkMap] at hes
  | succ n ih =>
    obtain ⟨m, rfl⟩ : ∃ k, m = k + 1 := ⟨m - 1, by omega⟩
    rw [walkMap] at hes
    rw [rereadMap, multibootInfoAt_of_outside hinfo, ← bootInfo]
    split at hes
    · next hlt =>
      obtain ⟨es', hes', rfl⟩ := Option.map_eq_some_iff.mp hes
      obtain ⟨hentry, hrest⟩ := h
      have hnext : ∀ freed, nextMmap (bytesAfter mem kernelEnd size freed) a =
          nextMmap (readByte mem) a := fun freed => by
        rw [nextMmap, nextMmap, memoryMapAt_of_outside hentry]
      rw [if_pos hlt, memoryMapAt_of_outside hentry, hnext,
        ih (Nat.le_of_succ_le_succ hnm) hes' hrest, Option.map_some]
    · next hlt =>
      obtain rfl := Option.some.inj hes
      rw [if_neg hlt]

/-- Both loops visit the same entries when these and the boot information lie outside the
bitmap. -/
theorem rereadEntries_of_outside (hes : mmapEntries mem mbootPtr = some es)
    (h : MapOutside mem mbootPtr kernelEnd es) :
    rereadEntries mem mbootPtr kernelEnd es = some es :=
  rereadMap_of_outside (by unfold loopFuel rereadFuel; norm_num) h.info hes h.entries

end Outside

/-! ### The loops visit these entries -/

/-- The first loop takes the maximum over the entries it visits. -/
theorem maxRamLoop_eq (bytes : BitVec 32 → BitVec 8) (mmapEnd : BitVec 32) (n : ℕ)
    (a m : BitVec 32) (bm : Bitmap) : maxRamLoop bytes mmapEnd n a m bm =
      match walkMap bytes mmapEnd n a with
      | none => .error .spin
      | some es => .ok (maxRam es m, bm) := by
  induction n generalizing a m with
  | zero => rfl
  | succ n ih =>
    rw [maxRamLoop, walkMap]
    split
    · rw [ih]
      cases walkMap bytes mmapEnd n (nextMmap bytes a) <;> rfl
    · rfl

/-- The zones of a list of entries, freed in order. -/
def freeEntries : List MemoryMap → Pmm Unit
  | [] => pure ()
  | e :: es => do
      freeEntry e
      freeEntries es

/-- An available zone is freed. -/
theorem freeEntry_of_available {e : MemoryMap} (h : e.Available) :
    freeEntry e = pmmMarkRegionFree e.baseAddrLow e.lengthLow :=
  if_pos h

/-- Any other is passed over. -/
theorem freeEntry_of_not_available {e : MemoryMap} (h : ¬ e.Available) :
    freeEntry e = pure () :=
  if_neg h

/-- Freeing the zones of a list of entries completes when each fits, and then clears the frames
of the available ones. -/
theorem freeEntries_ok (es : List MemoryMap) (bm : Bitmap)
    (h : ∀ e ∈ es, e.Available → RegionFits bm.frames e.baseAddrLow e.lengthLow) :
    ∃ bm', freeEntries es bm = .ok ((), bm') ∧ bm'.bytes.length = bm.bytes.length ∧
      ∀ f, bm'.used f = true ↔ bm.used f = true ∧ ¬ Cleared es f := by
  induction es generalizing bm with
  | nil => exact ⟨bm, rfl, rfl, by simp [Cleared]⟩
  | cons e es ih =>
    by_cases hav : e.Available
    · obtain ⟨bm₁, h₁, hm₁⟩ := markRegion_ok setsBit_and_not (h e List.mem_cons_self hav)
      have hframes : bm₁.frames = bm.frames := hm₁.frames_eq
      obtain ⟨bm₂, h₂, hlen, hused⟩ := ih bm₁ fun e' he' hav' => by
        rw [hframes]
        exact h e' (List.mem_cons_of_mem _ he') hav'
      refine ⟨bm₂, ?_, hlen.trans hm₁.length_eq, fun f => ?_⟩
      · rw [freeEntries, freeEntry_of_available hav]
        exact (bind_of_ok h₁).trans h₂
      · rw [hused, hm₁.used_eq]
        simp only [Cleared, List.mem_cons, exists_eq_or_imp, hav, true_and, MemoryMap.Clears,
          MemoryMap.lowEnd]
        split <;> simp_all
    · obtain ⟨bm₂, h₂, hlen, hused⟩ := ih bm fun e' he' => h e' (List.mem_cons_of_mem _ he')
      refine ⟨bm₂, ?_, hlen, fun f => ?_⟩
      · rw [freeEntries, freeEntry_of_not_available hav, pure_bind_apply, h₂]
      · rw [hused]
        simp [Cleared, hav]

/-- When freeing the zones completes, each of them fitted. -/
theorem fits_of_freeEntries_ok (es : List MemoryMap) (bm bm' : Bitmap)
    (h : freeEntries es bm = .ok ((), bm')) :
    ∀ e ∈ es, e.Available → RegionFits bm.frames e.baseAddrLow e.lengthLow := by
  induction es generalizing bm with
  | nil => simp
  | cons e es ih =>
    rw [freeEntries] at h
    obtain ⟨⟨⟩, bm₁, h₁, h₂⟩ := bind_eq_ok.mp h
    by_cases hav : e.Available
    · rw [freeEntry_of_available hav] at h₁
      obtain ⟨hfit, hm⟩ := markRegion_inv setsBit_and_not h₁
      have hframes : bm₁.frames = bm.frames := hm.frames_eq
      intro e' he' hav'
      rcases List.mem_cons.mp he' with rfl | he'
      · exact hfit
      · exact hframes ▸ ih bm₁ h₂ e' he' hav'
    · rw [freeEntry_of_not_available hav] at h₁
      obtain rfl : bm = bm₁ := by simpa using h₁
      intro e' he' hav'
      rcases List.mem_cons.mp he' with rfl | he'
      · exact absurd hav' hav
      · exact ih bm h₂ e' he' hav'

/-- The bitmap after these zones were freed. -/
structure Freed (bm : Bitmap) (size : ℕ) (freed : List MemoryMap) : Prop where
  length_eq : bm.bytes.length = size
  used_iff : ∀ f < 8 * size, bm.used f = true ↔ ¬ Cleared freed f

section Freed

variable {mem : PhysMem} {mbootPtr kernelEnd : BitVec 32} {size : ℕ} {freed : List MemoryMap}
  {bm bm' : Bitmap} {e : MemoryMap}

/-- One more zone. -/
theorem Freed.entry (h : Freed bm size freed) (hrun : freeEntry e bm = .ok ((), bm')) :
    Freed bm' size (freed ++ [e]) := by
  have hcleared : ∀ f, Cleared (freed ++ [e]) f ↔ Cleared freed f ∨ e.Available ∧ e.Clears f := by
    intro f
    simp only [Cleared, List.mem_append, List.mem_singleton, or_and_right, exists_or,
      exists_eq_left]
  by_cases hav : e.Available
  · rw [freeEntry_of_available hav] at hrun
    obtain ⟨-, hm⟩ := markRegion_inv setsBit_and_not hrun
    refine ⟨hm.length_eq.trans h.length_eq, fun f hf => ?_⟩
    rw [hm.used_eq, hcleared, not_or, ← h.used_iff f hf]
    simp only [hav, true_and, MemoryMap.Clears, MemoryMap.lowEnd]
    split <;> simp_all
  · rw [freeEntry_of_not_available hav] at hrun
    obtain rfl : bm = bm' := by simpa using hrun
    refine ⟨h.length_eq, fun f hf => ?_⟩
    rw [hcleared, h.used_iff f hf]
    simp [hav]

/-- Bit `j` of byte `i` is that of frame `8 * i + j`. -/
theorem used_byte {i j : ℕ} {byte : BitVec 8} (hi : bm.bytes[i]? = some byte) (hj : j < 8) :
    bm.used (8 * i + j) = byte.getLsbD j := by
  have hdiv : (8 * i + j) / 8 = i := by omega
  have hmod : (8 * i + j) % 8 = j := by omega
  rw [Bitmap.used, bit_eq_of_getElem? (by rw [hdiv]; exact hi), hmod]

/-- What memory with such a bitmap holds. -/
theorem Freed.withBitmap_eq (h : Freed bm size freed) :
    withBitmap mem kernelEnd bm = bytesAfter mem kernelEnd size freed := by
  funext a
  unfold withBitmap bytesAfter
  by_cases hin : InBitmap kernelEnd size a
  · rw [if_pos hin]
    unfold InBitmap at hin
    generalize (a - kernelEnd).toNat = i at hin ⊢
    have hlt : i < bm.bytes.length := h.length_eq.symm ▸ hin
    rw [List.getElem?_eq_getElem hlt, Option.getD_some]
    refine BitVec.eq_of_getLsbD_eq fun j hj => ?_
    have hbit := h.used_iff (8 * i + j) (by omega)
    rw [used_byte (List.getElem?_eq_getElem hlt) hj] at hbit
    rw [BitVec.getLsbD_ofFnLE, dif_pos hj, Bool.eq_iff_iff, hbit]
    simp
  · rw [if_neg hin]
    exact withBitmap_of_outside h.length_eq hin

/-- The second loop frees the zones it reads.  By induction on its rounds: what it reads in each
is settled by the zones freed before. -/
theorem freeLoop_cases (n : ℕ) (a : BitVec 32) (h : Freed bm size freed) :
    (∃ zones, rereadMap mem mbootPtr kernelEnd size n freed a = some zones ∧
      freeLoop mem mbootPtr kernelEnd n a bm = freeEntries zones bm) ∨
    rereadMap mem mbootPtr kernelEnd size n freed a = none ∧
      ∃ halt, freeLoop mem mbootPtr kernelEnd n a bm = .error halt := by
  induction n generalizing a bm freed with
  | zero => exact Or.inr ⟨rfl, .spin, rfl⟩
  | succ n ih =>
    rw [rereadMap, freeLoop, get_bind_apply, h.withBitmap_eq]
    split
    · cases hrun : freeEntry (memoryMapAt (bytesAfter mem kernelEnd size freed) a) bm with
      | error halt =>
        have hloop : ∀ f : Unit → Pmm Unit,
            (freeEntry (memoryMapAt (bytesAfter mem kernelEnd size freed) a) >>= f) bm =
              .error halt := fun f => bind_of_error hrun
        rw [hloop]
        cases rereadMap mem mbootPtr kernelEnd size n _ _ with
        | none => exact Or.inr ⟨rfl, halt, rfl⟩
        | some zones => exact Or.inl ⟨_, rfl, (hloop _).symm⟩
      | ok res =>
        obtain ⟨⟨⟩, bm₁⟩ := res
        have hfreed := h.entry hrun
        rw [bind_of_ok hrun, get_bind_apply, hfreed.withBitmap_eq]
        rcases ih (nextMmap (bytesAfter mem kernelEnd size
          (freed ++ [memoryMapAt (bytesAfter mem kernelEnd size freed) a])) a) hfreed with
          ⟨zones, hzones, hloop⟩ | ⟨hnone, halt, hloop⟩
        · rw [hzones, hloop]
          exact Or.inl ⟨_ :: zones, rfl, by rw [freeEntries, bind_of_ok hrun]⟩
        · rw [hnone, hloop]
          exact Or.inr ⟨rfl, halt, rfl⟩
    · exact Or.inl ⟨[], rfl, rfl⟩

end Freed

/-! ### Which maps complete, and which frames stay used -/

/-- `init_mem` after the bitmap was made, for the entries of the map. -/
def markMap (es : List MemoryMap) (kernelEnd bitmapBytes : BitVec 32) : Pmm Unit := do
  freeEntries es
  pmmMarkRegionUsed 0x100000 ((kernelEnd - 0x100000) + bitmapBytes)
  pmmMarkRegionUsed 0x0 4096
  pmmMarkRegionUsed 0x80000 0x10000

section InitMemMap

variable {mem : PhysMem} {mbootPtr kernelEnd : BitVec 32} {es : List MemoryMap}

/-- The frames of the bitmap, before any zone is freed. -/
theorem freed_nil {bm : Bitmap} {size : ℕ} (hlen : bm.bytes.length = size)
    (hfull : ∀ f, bm.used f = true) : Freed bm size [] :=
  ⟨hlen, fun f _ => by simp [hfull f, Cleared]⟩

/-- `init_mem` marks the zones that its second loop reads; when that loop does not end, neither
does `init_mem` complete. -/
theorem initMemMap_cases (hk : 0x100000 < kernelEnd.toNat)
    (hes : mmapEntries mem mbootPtr = some es) (bm : Bitmap) :
    ∃ bm₀ : Bitmap, bm₀.bytes.length = bitmapSize es ∧ (∀ f, bm₀.used f = true) ∧
      ((∃ zones, rereadEntries mem mbootPtr kernelEnd es = some zones ∧
        initMemMap mem mbootPtr kernelEnd bm =
          markMap zones kernelEnd ((maxRam es 0 / 4096) / 8) bm₀) ∨
      rereadEntries mem mbootPtr kernelEnd es = none ∧
        ∃ halt, initMemMap mem mbootPtr kernelEnd bm = .error halt) := by
  have hne : kernelEnd ≠ 0 := by
    rintro rfl
    simp at hk
  obtain ⟨bm₀, h₀, hlen, hfull⟩ := pmmInit_ok (maxRam es 0) hne bm
  have hmax : maxRamLoop (readByte mem) (bootInfo mem mbootPtr).mmapEnd loopFuel
      (bootInfo mem mbootPtr).mmapAddr 0 bm = .ok (maxRam es 0, bm) := by
    rw [maxRamLoop_eq, show walkMap (readByte mem) _ loopFuel _ = some es from hes]
  refine ⟨bm₀, hlen, hfull, ?_⟩
  unfold initMemMap
  dsimp only
  rw [bind_of_ok hmax, bind_of_ok h₀]
  rcases freeLoop_cases rereadFuel (bootInfo mem mbootPtr).mmapAddr
    (freed_nil hlen hfull) with ⟨zones, hzones, hloop⟩ | ⟨hnone, halt, hloop⟩
  · refine Or.inl ⟨zones, hzones, ?_⟩
    cases hfree : freeEntries zones bm₀ with
    | error halt => rw [bind_of_error (hloop.trans hfree), markMap, bind_of_error hfree]
    | ok res => rw [bind_of_ok (hloop.trans hfree), markMap, bind_of_ok hfree]
  · exact Or.inr ⟨hnone, halt, bind_of_error hloop⟩

end InitMemMap

section Marks

variable {es zones : List MemoryMap} {kernelEnd : BitVec 32}

/-- The number of tracked frames, in terms of the highest zone end. -/
theorem frames_of_bitmapSize {es : List MemoryMap} :
    8 * bitmapSize es = maxRamAddr es / 0x8000 * 8 := by
  simp only [bitmapSize, pageSize]
  omega

/-- The size of the bitmap is the one the source computes, without a wrap. -/
theorem bitmapBytes_toNat : ((maxRam es 0 / 4096) / 8).toNat = bitmapSize es := rfl

/-- The last byte of the region reserved for the kernel image and the bitmap. -/
theorem kernelRegion_toNat (hk : 0x100000 < kernelEnd.toNat) :
    (0x100000 : BitVec 32).toNat + ((kernelEnd - 0x100000) + (maxRam es 0 / 4096) / 8).toNat =
      kernelEnd.toNat + bitmapSize es := by
  have hlt := kernelEnd.isLt
  have hmax := (maxRam es 0).isLt
  have hsize : bitmapSize es ≤ 131071 := by
    simp only [bitmapSize, maxRamAddr, pageSize]
    omega
  rw [BitVec.toNat_add, BitVec.toNat_sub, bitmapBytes_toNat]
  simp only [BitVec.ofNat_eq_ofNat, BitVec.toNat_ofNat]
  omega

/-- The conditions under which the four kinds of regions fit are those of `MapFits`. -/
theorem mapFits_iff (hk : 0x100000 < kernelEnd.toNat) :
    MapFits es zones kernelEnd.toNat ↔
      (∀ e ∈ zones, e.Available →
        RegionFits (8 * bitmapSize es) e.baseAddrLow e.lengthLow) ∧
      RegionFits (8 * bitmapSize es) 0x100000
        ((kernelEnd - 0x100000) + (maxRam es 0 / 4096) / 8) ∧
      RegionFits (8 * bitmapSize es) 0x0 4096 ∧ RegionFits (8 * bitmapSize es) 0x80000 0x10000 := by
  have hzone : ∀ e : MemoryMap, RegionFits (8 * bitmapSize es) e.baseAddrLow e.lengthLow ↔
      e.lowEnd < 2 ^ 32 ∧ (e.baseAddrLow.toNat / pageSize < e.lowEnd / pageSize →
        e.lowEnd < maxRamAddr es / 0x8000 * 0x8000 + pageSize) := by
    intro e
    rw [RegionFits, frames_of_bitmapSize, MemoryMap.lowEnd]
    refine and_congr_right fun _ => imp_congr_right fun _ => ?_
    simp only [pageSize]
    omega
  have hkernel : RegionFits (8 * bitmapSize es) 0x100000
      ((kernelEnd - 0x100000) + (maxRam es 0 / 4096) / 8) ↔
      kernelEnd.toNat + bitmapSize es < 2 ^ 32 ∧
        (0x101000 ≤ kernelEnd.toNat + bitmapSize es →
          kernelEnd.toNat + bitmapSize es < maxRamAddr es / 0x8000 * 0x8000 + pageSize) := by
    rw [RegionFits, frames_of_bitmapSize, kernelRegion_toNat hk]
    have hbase : (0x100000 : BitVec 32).toNat = 0x100000 := rfl
    rw [hbase]
    simp only [pageSize]
    omega
  have hframe : RegionFits (8 * bitmapSize es) 0x0 4096 ↔ 1 ≤ 8 * bitmapSize es := by
    have hbase : (0x0 : BitVec 32).toNat = 0 := rfl
    have hlen : (4096 : BitVec 32).toNat = 4096 := rfl
    rw [RegionFits, hbase, hlen]
    simp only [pageSize]
    omega
  have hstack : RegionFits (8 * bitmapSize es) 0x80000 0x10000 ↔ 0x90000 ≤ maxRamAddr es := by
    have hbase : (0x80000 : BitVec 32).toNat = 0x80000 := rfl
    have hlen : (0x10000 : BitVec 32).toNat = 0x10000 := rfl
    rw [RegionFits, hbase, hlen, frames_of_bitmapSize]
    simp only [pageSize]
    omega
  constructor
  · intro h
    refine ⟨fun e he hav => (hzone e).mpr (h.zones e he hav), hkernel.mpr h.kernel,
      hframe.mpr ?_, hstack.mpr h.stack⟩
    have := h.stack
    rw [frames_of_bitmapSize]
    omega
  · rintro ⟨hz, hk', -, hs⟩
    exact ⟨fun e he hav => (hzone e).mp (hz e he hav), hkernel.mp hk', hstack.mp hs⟩

/-- What the marks leave, on a bitmap of the size made for the map. -/
theorem markMap_inv (hk : 0x100000 < kernelEnd.toNat) {bm bm' : Bitmap}
    (hlen : bm.bytes.length = bitmapSize es) (hfull : ∀ f, bm.used f = true)
    (h : markMap zones kernelEnd ((maxRam es 0 / 4096) / 8) bm = .ok ((), bm')) :
    MapFits es zones kernelEnd.toNat ∧ bm'.frames = 8 * bitmapSize es ∧
      ∀ f, bm'.used f = true ↔ ¬ Cleared zones f ∨ Reserved es kernelEnd.toNat f := by
  obtain ⟨⟨⟩, bm₁, h₁, h⟩ := bind_eq_ok.mp h
  obtain ⟨⟨⟩, bm₂, h₂, h⟩ := bind_eq_ok.mp h
  obtain ⟨⟨⟩, bm₃, h₃, h₄⟩ := bind_eq_ok.mp h
  have hfits := fits_of_freeEntries_ok zones bm bm₁ h₁
  obtain ⟨bm₁', h₁', hlen₁, hused₁⟩ := freeEntries_ok zones bm hfits
  obtain rfl : bm₁ = bm₁' := by
    rw [h₁] at h₁'
    simpa using h₁'
  obtain ⟨hfit₂, hm₂⟩ := markRegion_inv setsBit_or h₂
  obtain ⟨hfit₃, hm₃⟩ := markRegion_inv setsBit_or h₃
  obtain ⟨hfit₄, hm₄⟩ := markRegion_inv setsBit_or h₄
  have hframes : bm.frames = 8 * bitmapSize es := by rw [Bitmap.frames, hlen]
  have hframes₁ : bm₁.frames = 8 * bitmapSize es := by rw [Bitmap.frames, hlen₁, hlen]
  have hframes₂ : bm₂.frames = 8 * bitmapSize es := hm₂.frames_eq.trans hframes₁
  have hframes₃ : bm₃.frames = 8 * bitmapSize es := hm₃.frames_eq.trans hframes₂
  refine ⟨(mapFits_iff hk).mpr ⟨hframes ▸ hfits, hframes₁ ▸ hfit₂, hframes₂ ▸ hfit₃,
    hframes₃ ▸ hfit₄⟩, hm₄.frames_eq.trans hframes₃, fun f => ?_⟩
  rw [kernelRegion_toNat hk] at hm₂
  have hkernel : (0x100000 : BitVec 32).toNat / pageSize = 0x100 := rfl
  have hzero : (0x0 : BitVec 32).toNat / pageSize = 0 := rfl
  have hone : ((0x0 : BitVec 32).toNat + (4096 : BitVec 32).toNat) / pageSize = 1 := rfl
  have hlow : (0x80000 : BitVec 32).toNat / pageSize = 0x80 := rfl
  have hhigh : ((0x80000 : BitVec 32).toNat + (0x10000 : BitVec 32).toNat) / pageSize = 0x90 := rfl
  rw [hkernel] at hm₂
  rw [hzero, hone] at hm₃
  rw [hlow, hhigh] at hm₄
  have hbit₁ : bm₁.used f = true ↔ ¬ Cleared zones f := by simpa [hfull f] using hused₁ f
  have hzero' : 0 ≤ f ∧ f < 1 ↔ f = 0 := by omega
  rw [hm₄.used_eq, hm₃.used_eq, hm₂.used_eq, Reserved]
  simp only [hzero']
  split_ifs with hs h0 hk' <;> simp [*]

/-- The marks complete on a map that fits. -/
theorem markMap_ok (hk : 0x100000 < kernelEnd.toNat) {bm : Bitmap}
    (hlen : bm.bytes.length = bitmapSize es) (hfit : MapFits es zones kernelEnd.toNat) :
    ∃ bm', markMap zones kernelEnd ((maxRam es 0 / 4096) / 8) bm = .ok ((), bm') := by
  have hframes : bm.frames = 8 * bitmapSize es := by rw [Bitmap.frames, hlen]
  obtain ⟨hzones, hkernel, hframe, hstack⟩ := (mapFits_iff hk).mp hfit
  obtain ⟨bm₁, h₁, hlen₁, -⟩ := freeEntries_ok zones bm (hframes.symm ▸ hzones)
  have hframes₁ : bm₁.frames = 8 * bitmapSize es := by rw [Bitmap.frames, hlen₁, hlen]
  obtain ⟨bm₂, h₂, hm₂⟩ := markRegion_ok setsBit_or (hframes₁.symm ▸ hkernel)
  have hframes₂ : bm₂.frames = 8 * bitmapSize es := hm₂.frames_eq.trans hframes₁
  obtain ⟨bm₃, h₃, hm₃⟩ := markRegion_ok setsBit_or (hframes₂.symm ▸ hframe)
  have hframes₃ : bm₃.frames = 8 * bitmapSize es := hm₃.frames_eq.trans hframes₂
  obtain ⟨bm₄, h₄, -⟩ := markRegion_ok setsBit_or (hframes₃.symm ▸ hstack)
  refine ⟨bm₄, ?_⟩
  rw [markMap, bind_of_ok h₁, pmmMarkRegionUsed, bind_of_ok h₂, bind_of_ok h₃, h₄]

variable {mem : PhysMem} {mbootPtr : BitVec 32}

/-- `init_mem` completes on exactly the maps that fit. -/
theorem initMemMap_ok_iff (hk : 0x100000 < kernelEnd.toNat)
    (hes : mmapEntries mem mbootPtr = some es) (bm : Bitmap) :
    (∃ bm', initMemMap mem mbootPtr kernelEnd bm = .ok ((), bm')) ↔
      ∃ zones, rereadEntries mem mbootPtr kernelEnd es = some zones ∧
        MapFits es zones kernelEnd.toNat := by
  obtain ⟨bm₀, hlen, hfull, ⟨zones, hzones, hrun⟩ | ⟨hnone, halt, hrun⟩⟩ :=
    initMemMap_cases hk hes bm
  · constructor
    · rintro ⟨bm', h⟩
      rw [hrun] at h
      exact ⟨zones, hzones, (markMap_inv hk hlen hfull h).1⟩
    · rintro ⟨zones', hzones', hfit⟩
      obtain rfl := Option.some.inj (hzones.symm.trans hzones')
      obtain ⟨bm', h⟩ := markMap_ok hk hlen hfit
      exact ⟨bm', hrun.trans h⟩
  · constructor
    · rintro ⟨bm', h⟩
      cases hrun.symm.trans h
    · rintro ⟨zones, hzones, -⟩
      cases hnone.symm.trans hzones

/-- After `init_mem` the used frames are those no available zone clears, and the reserved ones, in a
bitmap of the size made for the highest zone end. -/
theorem initMemMap_used_iff (hk : 0x100000 < kernelEnd.toNat)
    (hes : mmapEntries mem mbootPtr = some es) {bm bm' : Bitmap}
    (h : initMemMap mem mbootPtr kernelEnd bm = .ok ((), bm')) :
    ∃ zones, rereadEntries mem mbootPtr kernelEnd es = some zones ∧
      bm'.bytes.length = bitmapSize es ∧
      ∀ f, bm'.used f = true ↔ ¬ Cleared zones f ∨ Reserved es kernelEnd.toNat f := by
  obtain ⟨bm₀, hlen, hfull, ⟨zones, hzones, hrun⟩ | ⟨hnone, halt, hrun⟩⟩ :=
    initMemMap_cases hk hes bm
  · rw [hrun] at h
    obtain ⟨-, hframes, hused⟩ := markMap_inv hk hlen hfull h
    rw [Bitmap.frames] at hframes
    exact ⟨zones, hzones, by omega, hused⟩
  · cases hrun.symm.trans h

end Marks

end AuriOS
