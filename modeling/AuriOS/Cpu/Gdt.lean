import Mathlib

/-!
# The global descriptor table

`src/cpu/gdt.c` packs a segment's base, limit, access byte and flags nibble into one 64-bit
descriptor (`createDescriptor`) and fills the table of six descriptors at boot (`gdtInit`).

`decodeDescriptor` is the processor's reading of a descriptor.  `createDescriptor_getLsbD` names
the source of every bit of the descriptor: bits 16 to 23 of the base are or-ed into bits 48 to 55,
on top of the high nibble of the limit and of the flags, and bits 32 to 39 stay clear.  The
round trip therefore holds exactly for the bases whose bits 16 to 23 are zero
(`decodeDescriptor_createDescriptor_iff`).
-/

namespace AuriOS

/-! ### `gdt.h` -/

def segDesctype (x : BitVec 16) : BitVec 16 := x <<< 0x04
def segPres (x : BitVec 16) : BitVec 16 := x <<< 0x07
def segSavl (x : BitVec 16) : BitVec 16 := x <<< 0x0C
def segLong (x : BitVec 16) : BitVec 16 := x <<< 0x0D
def segSize (x : BitVec 16) : BitVec 16 := x <<< 0x0E
def segGran (x : BitVec 16) : BitVec 16 := x <<< 0x0F
def segPriv (x : BitVec 16) : BitVec 16 := (x &&& 0x03) <<< 0x05

def segDataRdwr : BitVec 16 := 0x02
def segCodeExrd : BitVec 16 := 0x0A

/-- The flag word of a segment of privilege level `priv` and type `type`: the four `GDT_*_PL*`
macros differ in nothing else. -/
def gdtFlags (priv type : BitVec 16) : BitVec 16 :=
  segDesctype 1 ||| segPres 1 ||| segSavl 0 ||| segLong 0 ||| segSize 1 ||| segGran 1 |||
    segPriv priv ||| type

def gdtCodePl0 : BitVec 16 := gdtFlags 0 segCodeExrd
def gdtDataPl0 : BitVec 16 := gdtFlags 0 segDataRdwr
def gdtCodePl3 : BitVec 16 := gdtFlags 3 segCodeExrd
def gdtDataPl3 : BitVec 16 := gdtFlags 3 segDataRdwr

/-- `struct gdt_ptr`. -/
structure GdtPtr where
  limit : BitVec 16
  base : BitVec 32
  deriving DecidableEq

/-- `struct tss_entry`: 25 words and two half words, packed. -/
structure TssEntry where
  prevTss : BitVec 32 := 0
  esp0 : BitVec 32 := 0
  ss0 : BitVec 32 := 0
  esp1 : BitVec 32 := 0
  ss1 : BitVec 32 := 0
  esp2 : BitVec 32 := 0
  ss2 : BitVec 32 := 0
  cr3 : BitVec 32 := 0
  eip : BitVec 32 := 0
  eflags : BitVec 32 := 0
  eax : BitVec 32 := 0
  ecx : BitVec 32 := 0
  edx : BitVec 32 := 0
  ebx : BitVec 32 := 0
  esp : BitVec 32 := 0
  ebp : BitVec 32 := 0
  esi : BitVec 32 := 0
  edi : BitVec 32 := 0
  es : BitVec 32 := 0
  cs : BitVec 32 := 0
  ss : BitVec 32 := 0
  ds : BitVec 32 := 0
  fs : BitVec 32 := 0
  gs : BitVec 32 := 0
  ldt : BitVec 32 := 0
  trap : BitVec 16 := 0
  iomapBase : BitVec 16 := 0
  deriving DecidableEq

/-- `sizeof(struct tss_entry)`. -/
def tssEntrySize : BitVec 32 := 25 * 4 + 2 * 2

/-! ### `gdt.c` -/

/-- `create_descriptor`. -/
def createDescriptor (base limit : BitVec 32) (flag : BitVec 16) : BitVec 64 :=
  let descriptor := limit.setWidth 64 &&& 0x000F0000#64
  let descriptor := descriptor ||| ((flag.setWidth 32 <<< 8).setWidth 64 &&& 0x00F0FF00#64)
  let descriptor := descriptor ||| ((((base >>> 16) &&& 0xFF#32) <<< 16).setWidth 64)
  let descriptor := descriptor ||| (base &&& 0xFF000000#32).setWidth 64
  let descriptor := descriptor <<< 32
  let descriptor := descriptor ||| (base <<< 16).setWidth 64
  let descriptor := descriptor ||| (limit &&& 0x0000FFFF#32).setWidth 64
  descriptor

/-- What `gdt_init` leaves behind: the table, the operand of `lgdt` and the task state segment. -/
structure Gdt where
  gdt : Vector (BitVec 64) 6
  gp : GdtPtr
  tss : TssEntry

/-- `gdt_init`, with the addresses the linker gives to `tss` and `gdt`. -/
def gdtInit (tssAddr gdtAddr : BitVec 32) : Gdt where
  gdt := #v[
    createDescriptor 0 0 0,
    createDescriptor 0 0x000FFFFF gdtCodePl0,
    createDescriptor 0 0x000FFFFF gdtDataPl0,
    createDescriptor 0 0x000FFFFF gdtCodePl3,
    createDescriptor 0 0x000FFFFF gdtDataPl3,
    createDescriptor tssAddr (tssEntrySize - 1) 0x89]
  gp := { limit := 6 * 8 - 1, base := gdtAddr }
  tss := { ss0 := 0x10, esp0 := 0x90000 }

/-! ### The processor's reading -/

/-- A segment as the processor sees it. -/
structure Segment where
  base : BitVec 32
  limit : BitVec 20
  access : BitVec 8
  flags : BitVec 4
  deriving DecidableEq

/-- The x86 layout of a segment descriptor. -/
def decodeDescriptor (d : BitVec 64) : Segment where
  base := d.extractLsb' 56 8 ++ d.extractLsb' 32 8 ++ d.extractLsb' 16 16
  limit := d.extractLsb' 48 4 ++ d.extractLsb' 0 16
  access := d.extractLsb' 40 8
  flags := d.extractLsb' 52 4

/-- Where each bit of a descriptor comes from. -/
theorem createDescriptor_getLsbD (base limit : BitVec 32) (flag : BitVec 16) {k : ℕ}
    (hk : k < 64) :
    (createDescriptor base limit flag).getLsbD k =
      if k < 16 then limit.getLsbD k
      else if k < 32 then base.getLsbD (k - 16)
      else if k < 40 then false
      else if k < 48 then flag.getLsbD (k - 40)
      else if k < 52 then limit.getLsbD (k - 32) || base.getLsbD (k - 32)
      else if k < 56 then flag.getLsbD (k - 40) || base.getLsbD (k - 32)
      else base.getLsbD (k - 32) := by
  have hlow : ∀ k < 64, (0x0000FFFF#32).getLsbD k = decide (k < 16) := by decide
  have hlimit : ∀ k < 64, (0x000F0000#64).getLsbD k = decide (16 ≤ k ∧ k < 20) := by decide
  have hflag : ∀ k < 64, (0x00F0FF00#64).getLsbD k =
      decide (8 ≤ k ∧ k < 16 ∨ 20 ≤ k ∧ k < 24) := by decide
  have hbyte : ∀ k < 64, (0xFF#32).getLsbD k = decide (k < 8) := by decide
  have hhigh : ∀ k < 64, (0xFF000000#32).getLsbD k = decide (24 ≤ k ∧ k < 32) := by decide
  -- the operands are narrower than the descriptor: their bits past the width read as zero
  have hb : ∀ j, 32 ≤ j → base.getLsbD j = false := fun j hj => BitVec.getLsbD_of_ge _ _ hj
  have hl : ∀ j, 32 ≤ j → limit.getLsbD j = false := fun j hj => BitVec.getLsbD_of_ge _ _ hj
  have hf : ∀ j, 16 ≤ j → flag.getLsbD j = false := fun j hj => BitVec.getLsbD_of_ge _ _ hj
  simp only [createDescriptor, BitVec.getLsbD_or, BitVec.getLsbD_and, BitVec.getLsbD_shiftLeft,
    BitVec.getLsbD_setWidth, BitVec.getLsbD_ushiftRight, hlow k hk, hlimit (k - 32) (by omega),
    hflag (k - 32) (by omega), hhigh (k - 32) (by omega), hbyte (k - 32 - 16) (by omega)]
  grind

/-- The bits of a base that reach their place in the descriptor. -/
theorem baseMask_getLsbD : ∀ k < 32, (0xFF00FFFF#32).getLsbD k = decide (k < 16 ∨ 24 ≤ k) := by
  decide

section Fields

variable (base limit : BitVec 32) (flag : BitVec 16)

/-- The base read back has its bits 16 to 23 cleared. -/
theorem decodeDescriptor_base :
    (decodeDescriptor (createDescriptor base limit flag)).base = base &&& 0xFF00FFFF#32 := by
  refine BitVec.eq_of_getLsbD_eq fun i hi => ?_
  simp only [decodeDescriptor, BitVec.getLsbD_append, BitVec.getLsbD_extractLsb',
    BitVec.getLsbD_and, baseMask_getLsbD i hi]
  rw [createDescriptor_getLsbD _ _ _ (by omega), createDescriptor_getLsbD _ _ _ (by omega),
    createDescriptor_getLsbD _ _ _ (by omega)]
  grind

/-- The limit read back has bits 16 to 19 of the base merged into its high nibble. -/
theorem decodeDescriptor_limit :
    (decodeDescriptor (createDescriptor base limit flag)).limit =
      limit.setWidth 20 ||| base.setWidth 20 &&& 0xF0000#20 := by
  have hmask : ∀ k < 20, (0xF0000#20).getLsbD k = decide (16 ≤ k) := by decide
  refine BitVec.eq_of_getLsbD_eq fun i hi => ?_
  simp only [decodeDescriptor, BitVec.getLsbD_append, BitVec.getLsbD_extractLsb',
    BitVec.getLsbD_or, BitVec.getLsbD_and, BitVec.getLsbD_setWidth, hmask i hi]
  rw [createDescriptor_getLsbD _ _ _ (by omega), createDescriptor_getLsbD _ _ _ (by omega)]
  grind

/-- The access byte survives for every base. -/
theorem decodeDescriptor_access :
    (decodeDescriptor (createDescriptor base limit flag)).access = flag.extractLsb' 0 8 := by
  refine BitVec.eq_of_getLsbD_eq fun i hi => ?_
  simp only [decodeDescriptor, BitVec.getLsbD_extractLsb']
  rw [createDescriptor_getLsbD _ _ _ (by omega)]
  grind

/-- The flags nibble read back has bits 20 to 23 of the base merged into it. -/
theorem decodeDescriptor_flags :
    (decodeDescriptor (createDescriptor base limit flag)).flags =
      flag.extractLsb' 12 4 ||| base.extractLsb' 20 4 := by
  refine BitVec.eq_of_getLsbD_eq fun i hi => ?_
  simp only [decodeDescriptor, BitVec.getLsbD_extractLsb', BitVec.getLsbD_or]
  rw [createDescriptor_getLsbD _ _ _ (by omega)]
  grind

end Fields

/-- Where bits 16 to 23 of a base are zero, each of them is. -/
theorem getLsbD_of_extract_eq_zero {base : BitVec 32} (h : base.extractLsb' 16 8 = 0) :
    ∀ j < 8, base.getLsbD (16 + j) = false := by
  intro j hj
  have := congrArg (fun v => BitVec.getLsbD v j) h
  simpa [BitVec.getLsbD_extractLsb', hj] using this

/-- Clearing bits 16 to 23 of a base keeps it exactly when they are zero already. -/
theorem base_and_mask_eq_self_iff (base : BitVec 32) :
    base &&& 0xFF00FFFF#32 = base ↔ base.extractLsb' 16 8 = 0 := by
  constructor
  · intro h
    refine BitVec.eq_of_getLsbD_eq fun i hi => ?_
    rw [BitVec.getLsbD_extractLsb', ← h, BitVec.getLsbD_and]
    have := baseMask_getLsbD (16 + i) (by omega)
    grind
  · intro h
    refine BitVec.eq_of_getLsbD_eq fun i hi => ?_
    have hbit := getLsbD_of_extract_eq_zero h
    rw [BitVec.getLsbD_and, baseMask_getLsbD i hi]
    have := hbit (i - 16)
    grind

/-- A base whose bits 16 to 23 are zero leaves the fields sharing their place alone. -/
theorem base_bits_eq_zero {base : BitVec 32} (h : base.extractLsb' 16 8 = 0) :
    base.setWidth 20 &&& 0xF0000#20 = 0#20 ∧ base.extractLsb' 20 4 = 0 := by
  have hbit := getLsbD_of_extract_eq_zero h
  have hmask : ∀ k < 20, (0xF0000#20).getLsbD k = decide (16 ≤ k) := by decide
  constructor
  · refine BitVec.eq_of_getLsbD_eq fun i hi => ?_
    rw [BitVec.getLsbD_and, BitVec.getLsbD_setWidth, hmask i hi]
    have := hbit (i - 16)
    grind
  · refine BitVec.eq_of_getLsbD_eq fun i hi => ?_
    rw [BitVec.getLsbD_extractLsb']
    have := hbit (4 + i) (by omega)
    grind

/-- A descriptor decodes to the base, limit, access byte and flags nibble it was made from
exactly when bits 16 to 23 of the base are zero; the descriptor of the task state segment
decodes to the segment's address under the same condition. -/
theorem decodeDescriptor_createDescriptor_iff (base : BitVec 32) (limit : BitVec 20)
    (flag : BitVec 16) (gdtAddr : BitVec 32) :
    (decodeDescriptor (createDescriptor base (limit.setWidth 32) flag) =
          ⟨base, limit, flag.extractLsb' 0 8, flag.extractLsb' 12 4⟩ ↔
        base.extractLsb' 16 8 = 0) ∧
      ((decodeDescriptor ((gdtInit base gdtAddr).gdt.get 5)).base = base ↔
        base.extractLsb' 16 8 = 0) := by
  constructor
  · rw [Segment.mk.injEq, decodeDescriptor_base, decodeDescriptor_limit, decodeDescriptor_access,
      decodeDescriptor_flags, base_and_mask_eq_self_iff]
    refine ⟨fun h => h.1, fun h => ?_⟩
    obtain ⟨hlimit, hflags⟩ := base_bits_eq_zero h
    exact ⟨h, by simp [hlimit], rfl, by simp [hflags]⟩
  · have htss : (gdtInit base gdtAddr).gdt.get 5 =
        createDescriptor base (tssEntrySize - 1) 0x89 := rfl
    rw [htss, decodeDescriptor_base, base_and_mask_eq_self_iff]

/-- A task state segment at `0x110000` is lost: its descriptor decodes to base 0, with bit 16 of
the address in the limit and bit 20 in the flags. -/
theorem decodeDescriptor_tss_0x110000 :
    decodeDescriptor (createDescriptor 0x110000 103 0x89) = ⟨0, 0x10067, 0x89, 1⟩ ∧
      ¬ ∀ (base : BitVec 32) (limit : BitVec 20) (flag : BitVec 16),
        decodeDescriptor (createDescriptor base (limit.setWidth 32) flag) =
          ⟨base, limit, flag.extractLsb' 0 8, flag.extractLsb' 12 4⟩ := by
  refine ⟨by decide, fun h => ?_⟩
  exact absurd (h 0x110000 103 0x89) (by decide)

end AuriOS
