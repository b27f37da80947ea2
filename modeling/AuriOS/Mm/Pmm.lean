import AuriOS.Foundation.Program
import AuriOS.Foundation.WordBitmap

/-!
# The physical memory manager

`src/mm/pmm.zig` keeps one bit for every physical frame of 4096 bytes in a bitmap: 1 for used or
reserved, 0 for free.  The routines are translated as programs over the bitmap which stop with
`Halt.trap` where the Zig build (`ReleaseSafe`) stops at a failed safety check: an index past the
end of the slice, a `usize` sum or product past 32 bits, the `u3` counter stepped past 7.

The second half states what each routine does to the bitmap as a map from frame numbers to bits:
`markRegion_ok` and `markRegion_inv` for the two region routines, `pmmAllocFrame_eq` for the
allocator, which never traps on a bitmap that `pmm_init` can have made.
-/

namespace AuriOS

open Program WordBitmap

/-- Why the kernel stops for good. -/
inductive Halt
  /-- A Zig safety check failed: `panic` is `cli; hlt` for ever. -/
  | trap
  /-- `mmu_handle_page_fault` gave up on a fault, with the report it prints. -/
  | pageFault (faultAddr : BitVec 32) (reason access : String)
  /-- A loop that never ends. -/
  | spin
  deriving DecidableEq

/-- `PAGE_SIZE`. -/
def pageSize : ℕ := 4096

/-- The value of a `usize` computation, which traps when it leaves 32 bits. -/
def checkedUsize {σ : Type} (n : ℕ) : StateT σ (Except Halt) ℕ :=
  if n < 2 ^ 32 then pure n else throw .trap

/-- `var bitmap: []u8`.  A 32-bit `max_ram_addr` yields at most `131071` bytes. -/
structure Bitmap where
  bytes : List (BitVec 8)
  length_le : bytes.length ≤ 131071
  deriving DecidableEq

namespace Bitmap

/-- The number of frames the bitmap tracks. -/
def frames (bm : Bitmap) : ℕ := 8 * bm.bytes.length

/-- The bit of a frame; frames that are not tracked read as used. -/
def used (bm : Bitmap) (f : ℕ) : Bool := bit bm.bytes f

/-- A tracked frame whose bit is clear. -/
def IsFree (bm : Bitmap) (f : ℕ) : Prop := f < bm.frames ∧ bm.used f = false

instance (bm : Bitmap) (f : ℕ) : Decidable (bm.IsFree f) :=
  inferInstanceAs (Decidable (_ ∧ _))

/-- Every tracked frame is used. -/
def Full (bm : Bitmap) : Prop := ∀ f < bm.frames, bm.used f = true

/-- The bitmap with one byte replaced. -/
def set (bm : Bitmap) (i : ℕ) (byte : BitVec 8) : Bitmap where
  bytes := bm.bytes.set i byte
  length_le := by simpa using bm.length_le

end Bitmap

/-- The programs of the physical memory manager. -/
abbrev Pmm := StateT Bitmap (Except Halt)

/-! ### The routines -/

/-- `pmm_init`: the bitmap lies at `kernel_end_addr`, a pointer Zig checks not to be null. -/
def pmmInit (maxRamAddr kernelEndAddr : BitVec 32) : Pmm Unit :=
  let totalPages := maxRamAddr.toNat / pageSize
  let bitmapSize := totalPages / 8
  if kernelEndAddr = 0 then throw .trap
  else
    let bitmap : Bitmap :=
      { bytes := List.replicate bitmapSize 0xFF#8
        length_le := by
          have := maxRamAddr.isLt
          simp only [List.length_replicate, bitmapSize, totalPages, pageSize]
          omega }
    set bitmap

/-- The loop body of the two region routines: byte `i / 8` is combined with the mask of bit
`i % 8`. -/
def markPage (combine : BitVec 8 → BitVec 8 → BitVec 8) (i : ℕ) : Pmm Unit := do
  let bm ← get
  let byteIdx := i / 8
  let bitIdx := i % 8
  match bm.bytes[byteIdx]? with
  | none => throw .trap
  | some byte => set (bm.set byteIdx (combine byte (1#8 <<< bitIdx)))

/-- `while (i < end_page) : (i += 1)`, for the `n` pages from `i` on. -/
def markPages (combine : BitVec 8 → BitVec 8 → BitVec 8) : ℕ → ℕ → Pmm Unit
  | 0, _ => pure ()
  | n + 1, i => do
      markPage combine i
      markPages combine n (i + 1)

/-- The common text of `pmm_mark_region_free` and `pmm_mark_region_used`. -/
def markRegion (combine : BitVec 8 → BitVec 8 → BitVec 8) (base size : BitVec 32) : Pmm Unit := do
  let startPage := base.toNat / pageSize
  let endPage := (← checkedUsize (base.toNat + size.toNat)) / pageSize
  markPages combine (endPage - startPage) startPage

/-- `pmm_mark_region_free`: `bitmap[byte_idx] &= ~(1 << bit_idx)`. -/
def pmmMarkRegionFree : BitVec 32 → BitVec 32 → Pmm Unit :=
  markRegion fun byte mask => byte &&& ~~~mask

/-- `pmm_mark_region_used`: `bitmap[byte_idx] |= 1 << bit_idx`. -/
def pmmMarkRegionUsed : BitVec 32 → BitVec 32 → Pmm Unit :=
  markRegion fun byte mask => byte ||| mask

/-- The bit loop of `pmm_alloc_frame`, with `n` values of the `u3` counter left: its guard
`bit_idx < 8` always holds, and stepping past 7 traps. -/
def scanByte (byte : BitVec 8) : ℕ → ℕ → Pmm ℕ
  | 0, _ => throw .trap
  | n + 1, bitIdx =>
      if byte &&& (1#8 <<< bitIdx) = 0 then pure bitIdx else scanByte byte n (bitIdx + 1)

/-- `for (bitmap, 0..) |byte, byte_idx|`, from byte `byteIdx` on. -/
def scanBytes : List (BitVec 8) → ℕ → Pmm (BitVec 32)
  | [], _ => pure 0
  | byte :: rest, byteIdx =>
      if byte ≠ 0xFF#8 then do
        let bitIdx ← scanByte byte 8 0
        let pageIdx ← checkedUsize (byteIdx * 8 + bitIdx)
        let physAddr ← checkedUsize (pageIdx * pageSize)
        pmmMarkRegionUsed (BitVec.ofNat 32 physAddr) (BitVec.ofNat 32 pageSize)
        pure (BitVec.ofNat 32 physAddr)
      else scanBytes rest (byteIdx + 1)

/-- `pmm_alloc_frame`. -/
def pmmAllocFrame : Pmm (BitVec 32) := do
  let bm ← get
  scanBytes bm.bytes 0

/-- `pmm_free_frame`. -/
def pmmFreeFrame (physAddr : BitVec 32) : Pmm Unit :=
  pmmMarkRegionFree physAddr (BitVec.ofNat 32 pageSize)

/-! ### The bitmap as a map from frames to bits -/

namespace Bitmap

/-- The bitmap never tracks all of the 2^20 frames. -/
theorem frames_le (bm : Bitmap) : bm.frames ≤ 1048568 := by
  have := bm.length_le
  simp only [frames]
  omega

/-- A frame that is not tracked counts as used. -/
theorem used_of_frames_le {bm : Bitmap} {f : ℕ} (h : bm.frames ≤ f) : bm.used f = true :=
  bit_of_le (by omega) h

/-- A frame is not free exactly when it is used. -/
theorem not_isFree_iff {bm : Bitmap} {f : ℕ} : ¬ bm.IsFree f ↔ bm.used f = true := by
  by_cases hf : f < bm.frames
  · simp [IsFree, hf]
  · simp [IsFree, hf, used_of_frames_le (Nat.le_of_not_lt hf)]

/-- A frame is free exactly when it is not used. -/
theorem isFree_iff {bm : Bitmap} {f : ℕ} : bm.IsFree f ↔ bm.used f = false := by
  rw [← not_iff_not, not_isFree_iff, Bool.not_eq_false]

end Bitmap

/-- `pmm_init` succeeds at every address but 0 and leaves every frame used. -/
theorem pmmInit_ok (maxRamAddr : BitVec 32) {kernelEndAddr : BitVec 32} (h : kernelEndAddr ≠ 0)
    (bm : Bitmap) : ∃ bm', pmmInit maxRamAddr kernelEndAddr bm = .ok ((), bm') ∧
      bm'.bytes.length = maxRamAddr.toNat / pageSize / 8 ∧ ∀ f, bm'.used f = true := by
  refine ⟨_, by rw [pmmInit, if_neg h]; rfl, by simp, fun f => ?_⟩
  rcases lt_or_ge f (8 * (maxRamAddr.toNat / pageSize / 8)) with hf | hf
  · have hget : (List.replicate (maxRamAddr.toNat / pageSize / 8) 0xFF#8)[f / 8]? =
        some 0xFF#8 := by
      rw [List.getElem?_replicate, if_pos (by omega)]
    have hones : ∀ i < 8, (0xFF#8).getLsbD i = true := by decide
    rw [Bitmap.used, bit_eq_of_getElem? hget]
    exact hones _ (Nat.mod_lt _ (by omega))
  · exact Bitmap.used_of_frames_le (by simpa [Bitmap.frames] using hf)

/-- The bitmap with the bits of the pages in `[a, b)` set to `v`, seen through its bits. -/
structure Marked (v : Bool) (a b : ℕ) (bm bm' : Bitmap) : Prop where
  length_eq : bm'.bytes.length = bm.bytes.length
  used_eq : ∀ f, bm'.used f = if a ≤ f ∧ f < b then v else bm.used f

/-- Marking pages does not change how many are tracked. -/
theorem Marked.frames_eq {v : Bool} {a b : ℕ} {bm bm' : Bitmap} (h : Marked v a b bm bm') :
    bm'.frames = bm.frames := by
  simp [Bitmap.frames, h.length_eq]

/-- `combine` gives bit `b` the value `v` and keeps the others. -/
def SetsBit (v : Bool) (combine : BitVec 8 → BitVec 8 → BitVec 8) : Prop :=
  ∀ (byte : BitVec 8) (b : ℕ), b < 8 → ∀ j < 8,
    (combine byte (1#8 <<< b)).getLsbD j = if j = b then v else byte.getLsbD j

/-- The mask of a bit has that bit alone. -/
theorem oneMask_getLsbD {b j : ℕ} (hj : j < 8) :
    (1#8 <<< b).getLsbD j = decide (j = b) := by
  simp only [BitVec.getLsbD_shiftLeft, BitVec.getLsbD_one]
  grind

/-- `|` with the mask sets the bit. -/
theorem setsBit_or : SetsBit true fun byte mask => byte ||| mask := by
  intro byte b hb j hj
  rw [BitVec.getLsbD_or, oneMask_getLsbD hj]
  by_cases h : j = b <;> simp [h]

/-- `&` with the inverted mask clears the bit. -/
theorem setsBit_and_not : SetsBit false fun byte mask => byte &&& ~~~mask := by
  intro byte b hb j hj
  rw [BitVec.getLsbD_and, BitVec.getLsbD_not, oneMask_getLsbD hj]
  by_cases h : j = b <;> simp [h, hj]

section Regions

variable {v : Bool} {combine : BitVec 8 → BitVec 8 → BitVec 8}

/-- A tracked page is marked. -/
theorem markPage_ok (hc : SetsBit v combine) (bm : Bitmap) {i : ℕ} (hi : i < bm.frames) :
    ∃ bm', markPage combine i bm = .ok ((), bm') ∧ Marked v i (i + 1) bm bm' := by
  have hlt : i / 8 < bm.bytes.length := div_lt_length hi
  refine ⟨bm.set (i / 8) (combine bm.bytes[i / 8] (1#8 <<< (i % 8))), ?_, by simp [Bitmap.set], ?_⟩
  · simp [markPage, List.getElem?_eq_getElem hlt]
  · intro f
    have hbit := bit_set (w := 8) (by omega) hi
      (b := combine bm.bytes[i / 8] (1#8 <<< (i % 8))) (v := v) (fun j hj => by
        rw [hc _ _ (Nat.mod_lt _ (by omega)) j hj]
        simp [List.getD_eq_getElem?_getD, List.getElem?_eq_getElem hlt]) f
    have hf : i ≤ f ∧ f < i + 1 ↔ f = i := by omega
    simp only [hf]
    exact hbit

/-- A page that is not tracked traps. -/
theorem markPage_trap {bm : Bitmap} {i : ℕ} (hi : bm.frames ≤ i) :
    markPage combine i bm = .error .trap := by
  have hlen : bm.bytes.length ≤ i / 8 := by simp only [Bitmap.frames] at hi; omega
  simp [markPage, List.getElem?_eq_none hlen]

/-- Marking the pages of `[i, i + n)` succeeds when they are all tracked. -/
theorem markPages_ok (hc : SetsBit v combine) (n : ℕ) (bm : Bitmap) (i : ℕ)
    (hi : n = 0 ∨ i + n ≤ bm.frames) :
    ∃ bm', markPages combine n i bm = .ok ((), bm') ∧ Marked v i (i + n) bm bm' := by
  induction n generalizing bm i with
  | zero => exact ⟨bm, rfl, rfl, fun f => by rw [if_neg (by omega)]⟩
  | succ n ih =>
    obtain ⟨bm₁, h₁, hm₁⟩ := markPage_ok hc bm (show i < bm.frames by omega)
    have hframes : bm₁.frames = bm.frames := hm₁.frames_eq
    obtain ⟨bm₂, h₂, hm₂⟩ := ih bm₁ (i + 1) (by omega)
    refine ⟨bm₂, ?_, hm₂.length_eq.trans hm₁.length_eq, fun f => ?_⟩
    · rw [markPages, bind_of_ok h₁, h₂]
    · rw [hm₂.used_eq, hm₁.used_eq]
      grind

/-- Marking pages of which one is not tracked traps. -/
theorem markPages_trap (hc : SetsBit v combine) (n : ℕ) {bm : Bitmap} {i : ℕ} (hn : n ≠ 0)
    (hi : bm.frames < i + n) : markPages combine n i bm = .error .trap := by
  induction n generalizing bm i with
  | zero => exact absurd rfl hn
  | succ n ih =>
    by_cases hlt : i < bm.frames
    · obtain ⟨bm₁, h₁, hm₁⟩ := markPage_ok hc bm hlt
      have hframes : bm₁.frames = bm.frames := hm₁.frames_eq
      rw [markPages, bind_of_ok h₁]
      exact ih (by omega) (by omega)
    · rw [markPages, bind_of_error (markPage_trap (by omega))]

/-- The pages `[base / 4096, (base + size) / 4096)` of a region are all among `frames` tracked
ones, and the sum does not leave 32 bits. -/
def RegionFits (frames : ℕ) (base size : BitVec 32) : Prop :=
  base.toNat + size.toNat < 2 ^ 32 ∧
    (base.toNat / pageSize < (base.toNat + size.toNat) / pageSize →
      (base.toNat + size.toNat) / pageSize ≤ frames)

instance (frames : ℕ) (base size : BitVec 32) : Decidable (RegionFits frames base size) :=
  inferInstanceAs (Decidable (_ ∧ (_ → _)))

/-- A region that fits is marked page by page. -/
theorem markRegion_ok (hc : SetsBit v combine) {bm : Bitmap} {base size : BitVec 32}
    (h : RegionFits bm.frames base size) :
    ∃ bm', markRegion combine base size bm = .ok ((), bm') ∧
      Marked v (base.toNat / pageSize) ((base.toNat + size.toNat) / pageSize) bm bm' := by
  obtain ⟨hsum, hend⟩ := h
  have hle : base.toNat / pageSize ≤ (base.toNat + size.toNat) / pageSize :=
    Nat.div_le_div_right (Nat.le_add_right _ _)
  obtain ⟨bm', h', hm⟩ := markPages_ok hc
    ((base.toNat + size.toNat) / pageSize - base.toNat / pageSize) bm (base.toNat / pageSize)
    (by omega)
  rw [Nat.add_sub_cancel' hle] at hm
  refine ⟨bm', ?_, hm⟩
  rw [markRegion, checkedUsize, if_pos hsum, pure_bind_apply, h']

/-- A region that is marked without a trap fits. -/
theorem markRegion_inv (hc : SetsBit v combine) {bm bm' : Bitmap} {base size : BitVec 32}
    (h : markRegion combine base size bm = .ok ((), bm')) :
    RegionFits bm.frames base size ∧
      Marked v (base.toNat / pageSize) ((base.toNat + size.toNat) / pageSize) bm bm' := by
  have hfit : RegionFits bm.frames base size := by
    by_contra hfit
    by_cases hsum : base.toNat + size.toNat < 2 ^ 32
    · rw [markRegion, checkedUsize, if_pos hsum, pure_bind_apply,
        markPages_trap hc _ (by simp only [RegionFits] at hfit; omega)
          (by simp only [RegionFits] at hfit; omega)] at h
      exact absurd h (by simp)
    · rw [markRegion, checkedUsize, if_neg hsum, throw_bind_apply] at h
      exact absurd h (by simp)
  obtain ⟨bm₁, h₁, hm⟩ := markRegion_ok hc hfit
  obtain rfl : bm₁ = bm' := by
    rw [h₁] at h
    simpa using h
  exact ⟨hfit, hm⟩

end Regions

/-! ### The allocator -/

/-- The physical address of a frame. -/
def frameAddr (f : ℕ) : BitVec 32 := BitVec.ofNat 32 (f * pageSize)

/-- The address of a frame does not wrap. -/
theorem frameAddr_toNat {f : ℕ} (hf : f < 2 ^ 20) : (frameAddr f).toNat = f * pageSize := by
  rw [frameAddr, BitVec.toNat_ofNat, Nat.mod_eq_of_lt]
  simp only [pageSize]
  omega

/-- Only frame 0 has address 0. -/
theorem frameAddr_ne_zero {f : ℕ} (hf : f < 2 ^ 20) (h : f ≠ 0) : frameAddr f ≠ 0 := by
  intro h0
  have := congrArg BitVec.toNat h0
  rw [frameAddr_toNat hf] at this
  simp [pageSize, h] at this

/-- Frames have distinct addresses. -/
theorem frameAddr_injective {f g : ℕ} (hf : f < 2 ^ 20) (hg : g < 2 ^ 20)
    (h : frameAddr f = frameAddr g) : f = g := by
  have := congrArg BitVec.toNat h
  rw [frameAddr_toNat hf, frameAddr_toNat hg] at this
  exact Nat.eq_of_mul_eq_mul_right (by simp [pageSize]) this

/-- The region of one frame is the page range of that frame alone. -/
theorem frameRegion_pages {f : ℕ} (hf : f < 1048568) :
    (frameAddr f).toNat / pageSize = f ∧
      ((frameAddr f).toNat + (BitVec.ofNat 32 pageSize).toNat) / pageSize = f + 1 := by
  have hsize : (BitVec.ofNat 32 pageSize).toNat = pageSize := rfl
  rw [frameAddr_toNat (by omega), hsize]
  simp only [pageSize]
  omega

/-- The region of a tracked frame fits. -/
theorem regionFits_frame {bm : Bitmap} {f : ℕ} (hf : f < bm.frames) :
    RegionFits bm.frames (frameAddr f) (BitVec.ofNat 32 pageSize) := by
  have hlt : f < 1048568 := lt_of_lt_of_le hf bm.frames_le
  obtain ⟨-, hend⟩ := frameRegion_pages hlt
  refine ⟨?_, fun _ => by omega⟩
  have hsize : (BitVec.ofNat 32 pageSize).toNat = pageSize := rfl
  rw [frameAddr_toNat (by omega), hsize]
  simp only [pageSize]
  omega

/-- Marking the region of one frame changes the bit of that frame alone. -/
theorem markRegion_frame {v : Bool} {combine : BitVec 8 → BitVec 8 → BitVec 8}
    (hc : SetsBit v combine) {bm : Bitmap} {f : ℕ} (hf : f < bm.frames) :
    ∃ bm', markRegion combine (frameAddr f) (BitVec.ofNat 32 pageSize) bm = .ok ((), bm') ∧
      Marked v f (f + 1) bm bm' := by
  obtain ⟨hstart, hend⟩ := frameRegion_pages (lt_of_lt_of_le hf bm.frames_le)
  obtain ⟨bm', h, hm⟩ := markRegion_ok hc (regionFits_frame hf)
  rw [hstart, hend] at hm
  exact ⟨bm', h, hm⟩

/-- The masked byte is zero exactly when the bit is clear. -/
theorem and_oneMask_eq_zero_iff {byte : BitVec 8} {b : ℕ} (hb : b < 8) :
    byte &&& (1#8 <<< b) = 0 ↔ byte.getLsbD b = false := by
  constructor
  · intro h
    have := congrArg (fun x => BitVec.getLsbD x b) h
    simpa [hb] using this
  · intro h
    refine BitVec.eq_of_getLsbD_eq fun j hj => ?_
    rw [BitVec.getLsbD_and, oneMask_getLsbD hj]
    by_cases hjb : j = b
    · simp [hjb, h]
    · simp [hjb]

/-- The bit loop finds the least clear bit at or above `b`, if there is one. -/
theorem scanByte_eq {byte : BitVec 8} {c : ℕ} (hc : c < 8) (hclear : byte.getLsbD c = false)
    (n b : ℕ) (hn : n + b = 8) (hb : b ≤ c) (hset : ∀ j < c, byte.getLsbD j = true)
    (bm : Bitmap) : scanByte byte n b bm = .ok (c, bm) := by
  induction n generalizing b with
  | zero => omega
  | succ n ih =>
    rw [scanByte]
    rcases Nat.eq_or_lt_of_le hb with rfl | hlt
    · rw [if_pos ((and_oneMask_eq_zero_iff hc).mpr hclear)]
      rfl
    · have hbit : byte &&& (1#8 <<< b) ≠ 0 := fun h => by
        rw [and_oneMask_eq_zero_iff (by omega), hset b hlt] at h
        exact absurd h (by simp)
      rw [if_neg hbit]
      exact ih (b + 1) (by omega) hlt

/-- A byte other than `0xFF` has a least clear bit, so the `u3` counter never steps past 7. -/
theorem exists_clear_bit {byte : BitVec 8} (h : byte ≠ 0xFF#8) :
    ∃ c < 8, byte.getLsbD c = false ∧ ∀ j < c, byte.getLsbD j = true := by
  have hex : ∃ c, c < 8 ∧ byte.getLsbD c = false := by
    by_contra hall
    refine h (BitVec.eq_of_getLsbD_eq fun i hi => ?_)
    have hones : ∀ i < 8, (0xFF#8).getLsbD i = true := by decide
    have hi' : byte.getLsbD i ≠ false := fun hc => hall ⟨i, hi, hc⟩
    rw [hones i hi, Bool.eq_true_of_not_eq_false hi']
  refine ⟨Nat.find hex, (Nat.find_spec hex).1, (Nat.find_spec hex).2, fun j hj => ?_⟩
  have hj8 : j < 8 := hj.trans (Nat.find_spec hex).1
  exact Bool.eq_true_of_not_eq_false fun hc => Nat.find_min hex hj ⟨hj8, hc⟩

/-- The byte loop, after a prefix of full bytes: it takes the least clear bit, or returns 0 when
there is none. -/
theorem scanBytes_eq (bm : Bitmap) (rest pre : List (BitVec 8)) (hbytes : bm.bytes = pre ++ rest)
    (hpre : ∀ byte ∈ pre, byte = 0xFF#8) :
    (lowestClear bm.bytes = none ∧ scanBytes rest pre.length bm = .ok (0, bm)) ∨
      ∃ f bm', lowestClear bm.bytes = some f ∧
        scanBytes rest pre.length bm = .ok (frameAddr f, bm') ∧ Marked true f (f + 1) bm bm' := by
  have hfull : ∀ g, g / 8 < pre.length → bit bm.bytes g = true := by
    intro g hg
    have hget : bm.bytes[g / 8]? = some 0xFF#8 := by
      rw [hbytes, List.getElem?_append_left hg, List.getElem?_eq_getElem hg,
        hpre _ (List.getElem_mem hg)]
    have hones : ∀ i < 8, (0xFF#8).getLsbD i = true := by decide
    rw [bit_eq_of_getElem? hget, hones _ (Nat.mod_lt _ (by omega))]
  induction rest generalizing pre with
  | nil =>
    refine Or.inl ⟨lowestClear_eq_none_iff.mpr fun g hg => hfull g ?_, rfl⟩
    rw [hbytes, List.append_nil] at hg
    omega
  | cons byte rest ih =>
    rw [scanBytes]
    by_cases hbyte : byte = 0xFF#8
    · rw [if_neg (by simpa using hbyte)]
      have hpre' : ∀ b ∈ pre ++ [byte], b = 0xFF#8 := by
        intro b hb
        rcases List.mem_append.mp hb with hb | hb
        · exact hpre b hb
        · rw [List.mem_singleton.mp hb, hbyte]
      have := ih (pre ++ [byte]) (by simp [hbytes]) hpre' (fun g hg => ?_)
      · simpa using this
      · rcases Nat.lt_or_ge (g / 8) pre.length with hlt | hge
        · exact hfull g hlt
        · have hgdiv : g / 8 = pre.length := by
            rw [List.length_append, List.length_singleton] at hg
            omega
          have hget : bm.bytes[g / 8]? = some 0xFF#8 := by
            rw [hbytes, hgdiv, List.getElem?_append_right le_rfl]
            simp [hbyte]
          have hones : ∀ i < 8, (0xFF#8).getLsbD i = true := by decide
          rw [bit_eq_of_getElem? hget, hones _ (Nat.mod_lt _ (by omega))]
    · obtain ⟨c, hc, hclear, hset⟩ := exists_clear_bit hbyte
      have hword : ∀ j < 8, bit bm.bytes (8 * pre.length + j) = byte.getLsbD j := by
        intro j hj
        have hdiv : (8 * pre.length + j) / 8 = pre.length := by omega
        have hmod : (8 * pre.length + j) % 8 = j := by omega
        have hget : bm.bytes[(8 * pre.length + j) / 8]? = some byte := by
          rw [hbytes, hdiv, List.getElem?_append_right le_rfl]
          simp
        rw [bit_eq_of_getElem? hget, hmod]
      have hf : 8 * pre.length + c < bm.frames := by
        simp only [Bitmap.frames, hbytes, List.length_append, List.length_cons]
        omega
      have hle := bm.frames_le
      obtain ⟨bm', hmark, hm⟩ := markRegion_frame setsBit_or hf
      refine Or.inr ⟨8 * pre.length + c, bm', lowestClear_eq_some_iff.mpr
        ⟨by rw [hword c hc, hclear], hf, fun g hg => ?_⟩, ?_, hm⟩
      · rcases Nat.lt_or_ge (g / 8) pre.length with hlt | hge
        · exact hfull g hlt
        · have hg' : g = 8 * pre.length + (g - 8 * pre.length) := by omega
          rw [hg', hword _ (by omega)]
          exact hset _ (by omega)
      · rw [if_pos (by simpa using hbyte), bind_of_ok (scanByte_eq hc hclear 8 0 rfl (Nat.zero_le _)
          hset bm), checkedUsize, if_pos (by omega), pure_bind_apply, checkedUsize,
          if_pos (by simp only [pageSize]; omega), pure_bind_apply,
          show BitVec.ofNat 32 ((pre.length * 8 + c) * pageSize) = frameAddr (8 * pre.length + c) by
            rw [frameAddr, Nat.mul_comm pre.length 8]]
        exact bind_of_ok hmark

/-- **The allocator.** `pmm_alloc_frame` never traps; on a full bitmap it returns 0 and changes
nothing, otherwise it takes the frame of the least clear bit. -/
theorem pmmAllocFrame_eq (bm : Bitmap) :
    (lowestClear bm.bytes = none ∧ pmmAllocFrame bm = .ok (0, bm)) ∨
      ∃ f bm', lowestClear bm.bytes = some f ∧ pmmAllocFrame bm = .ok (frameAddr f, bm') ∧
        Marked true f (f + 1) bm bm' :=
  scanBytes_eq bm bm.bytes [] rfl (by simp)

/-- No clear bit is found exactly when the bitmap is full. -/
theorem lowestClear_eq_none_iff_full {bm : Bitmap} :
    lowestClear bm.bytes = none ↔ bm.Full :=
  lowestClear_eq_none_iff

end AuriOS
