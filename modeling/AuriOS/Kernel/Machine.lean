import AuriOS.Foundation.RecursiveTable
import AuriOS.Mm.Pmm

/-!
# The machine

The state the kernel's memory management works on: the bitmap of the frame allocator, physical
memory in frames of 1024 words, the variables of `mmu.zig` and `memory.c`, and the register that
holds the page directory once paging is on.  The bitmap and the variables are kept apart from
physical memory.  The results about memory assume for that, that no frame which is free when the
run begins holds data of the kernel: neither its image, its stack and its variables, nor the
bitmap.  `init_mem` provides this only on the machines of `initMem_protects_iff`, since the frame
in which the bitmap ends need not be reserved.

Every load and store goes through `translate`, the processor's two-level page walk over the
tables in that very memory; an address without a translation raises a page fault and the access
is tried again after the handler returned.  `trace` records what was done, newest first.
-/

namespace AuriOS

open Program

/-- Physical memory: frame, word of the frame. -/
abbrev PhysMem := RecursiveTable.Mem (BitVec 20) (BitVec 10) (BitVec 32)

/-- One completed call of `mmu_map_page`, with memory as it was before and after. -/
structure MapCall where
  physAddr : BitVec 32
  virtAddr : BitVec 32
  isWriteable : Bool
  isUser : Bool
  before : PhysMem
  after : PhysMem

/-- What the kernel did. -/
inductive Event
  /-- A line of the kernel log. -/
  | klog (level msg : String)
  /-- `pmm_alloc_frame` returned this address. -/
  | alloc (physAddr : BitVec 32)
  /-- A word was stored at a virtual address, which resolved to a frame. -/
  | store (va : BitVec 32) (frame : BitVec 20)
  | invlpg (va : BitVec 32)
  | mapPage (call : MapCall)

/-- The state of the machine. -/
structure Machine where
  bitmap : Bitmap
  mem : PhysMem
  /-- `kernel_directory`, a physical address. -/
  kernelDirectory : BitVec 32
  /-- The page directory in use, once paging is on. -/
  cr3 : Option (BitVec 32)
  /-- `heap_end` of `memory.c`. -/
  heapEnd : BitVec 32
  /-- `head` of `memory.c`. -/
  head : BitVec 32
  trace : List Event

/-- The programs of the kernel. -/
abbrev Kernel := StateT Machine (Except Halt)

/-- The machine when the kernel is entered: the variables have their static initial values. -/
def Machine.boot (bitmap : Bitmap) (mem : PhysMem) : Machine where
  bitmap := bitmap
  mem := mem
  kernelDirectory := 0
  cr3 := none
  heapEnd := 0
  head := 0
  trace := []

/-- An event is put on record. -/
def record (e : Event) : Kernel Unit :=
  modify fun s => { s with trace := e :: s.trace }

/-- A line of the kernel's log is put on record. -/
def klog (level msg : String) : Kernel Unit := record (.klog level msg)

/-- `invlpg` drops a cached translation; caches are not part of this state. -/
def invlpg (va : BitVec 32) : Kernel Unit := record (.invlpg va)

/-- A call into the physical memory manager. -/
def callPmm {α : Type} (x : Pmm α) : Kernel α := fun s =>
  match x s.bitmap with
  | .ok (a, bm) => .ok (a, { s with bitmap := bm })
  | .error e => .error e

/-- A call of `pmm_alloc_frame` from `mmu.zig` or `memory.c`. -/
def allocFrame : Kernel (BitVec 32) := do
  let a ← callPmm pmmAllocFrame
  record (.alloc a)
  pure a

/-! ### Translation -/

/-- The frame of a physical address. -/
def frameOf (a : BitVec 32) : BitVec 20 := a.extractLsb' 12 20

/-- The word of its frame an address lies in. -/
def wordIndex (a : BitVec 32) : BitVec 10 := a.extractLsb' 2 10

/-- The directory slot of a virtual address. -/
def pdIndex (va : BitVec 32) : BitVec 10 := va.extractLsb' 22 10

/-- The table entry of a virtual address. -/
def ptIndex (va : BitVec 32) : BitVec 10 := va.extractLsb' 12 10

/-- The rights of an entry. -/
structure Rights where
  writable : Bool
  user : Bool
  deriving DecidableEq

/-- The processor grants what both levels grant. -/
instance : Min Rights where
  min a b := ⟨a.writable && b.writable, a.user && b.user⟩

/-- The processor's reading of a directory or table entry. -/
def decodeEntry (w : BitVec 32) : Option (BitVec 20 × Rights) :=
  if w.getLsbD 0 then some (w.extractLsb' 12 20, ⟨w.getLsbD 1, w.getLsbD 2⟩) else none

/-- The two-level walk from the directory in frame `root`. -/
def walk (mem : PhysMem) (root : BitVec 20) (va : BitVec 32) : Option (BitVec 20 × Rights) :=
  RecursiveTable.walk decodeEntry mem root (pdIndex va) (ptIndex va)

/-- The translation in force: physical addresses until paging is on. -/
def Machine.translate (s : Machine) (va : BitVec 32) : Option (BitVec 20 × Rights) :=
  match s.cr3 with
  | none => some (frameOf va, ⟨true, true⟩)
  | some root => walk s.mem (frameOf root) va

/-- The error code pushed with a page fault: bit 0 tells a protection violation from a missing
page, bit 1 a write from a read. -/
def Machine.errorCode (s : Machine) (va : BitVec 32) (write : Bool) : BitVec 32 :=
  (if (s.translate va).isSome then 1 else 0) ||| (if write then 2 else 0)

/-! ### Accesses -/

section Access

-- the page-fault handler
variable (fault : BitVec 32 → Bool → Kernel Unit)

/-- Resolve an address, at most `n` times restarting the instruction after a page fault. -/
def accessWith : ℕ → BitVec 32 → Bool → Kernel (BitVec 20)
  | 0, _, _ => throw .spin
  | n + 1, va, write => do
      let s ← get
      match s.translate va with
      | some t => pure t.1
      | none => do
          fault va write
          accessWith n va write

/-- More page faults than there are frames: every handled fault takes one. -/
@[irreducible] def faultFuel : ℕ := 2 ^ 20 + 1

/-- Load the word at an address. -/
def loadWith (va : BitVec 32) : Kernel (BitVec 32) := do
  let f ← accessWith fault faultFuel va false
  let s ← get
  pure (s.mem f (wordIndex va))

/-- Store a word at an address. -/
def storeWith (va w : BitVec 32) : Kernel Unit := do
  let f ← accessWith fault faultFuel va true
  modify fun s =>
    { s with mem := RecursiveTable.write s.mem f (wordIndex va) w
             trace := .store va f :: s.trace }

end Access

end AuriOS
