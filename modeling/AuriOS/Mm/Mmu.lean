import AuriOS.Kernel.Machine

/-!
# Paging

`src/mm/mmu.zig`: the construction of the page directory with its self map, `mmu_map_page`, which
edits the tables through the window that self map opens, and the page-fault handler that backs the
heap on demand.  The routines that access memory take the page-fault handler as a parameter,
because the handler is itself one of them; `pageFault` ties the knot, a fault inside the handler
being one level deeper.
-/

namespace AuriOS

open Program

/-- `RECURSIVE_PD`. -/
def recursivePd : BitVec 32 := 0xFFFFF000

/-- `PageTableEntry`, a packed struct. -/
structure PageTableEntry where
  present : BitVec 1 := 0
  rw : BitVec 1 := 0
  user : BitVec 1 := 0
  writeThrough : BitVec 1 := 0
  cacheDisable : BitVec 1 := 0
  accessed : BitVec 1 := 0
  dirty : BitVec 1 := 0
  pat : BitVec 1 := 0
  global : BitVec 1 := 0
  available : BitVec 3 := 0
  physicalFrame : BitVec 20 := 0

/-- The word a `PageTableEntry` is stored as; the first field is the lowest bit. -/
def PageTableEntry.toWord (e : PageTableEntry) : BitVec 32 :=
  e.physicalFrame ++ (e.available ++ (e.global ++ (e.pat ++ (e.dirty ++ (e.accessed ++
    (e.cacheDisable ++ (e.writeThrough ++ (e.user ++ (e.rw ++ e.present)))))))))

/-- `PageDirectoryEntry`, a packed struct. -/
structure PageDirectoryEntry where
  present : BitVec 1 := 0
  rw : BitVec 1 := 0
  user : BitVec 1 := 0
  writeThrough : BitVec 1 := 0
  cacheDisable : BitVec 1 := 0
  accessed : BitVec 1 := 0
  ignored : BitVec 1 := 0
  pageSize : BitVec 1 := 0
  global : BitVec 1 := 0
  available : BitVec 3 := 0
  ptFrame : BitVec 20 := 0

/-- The word a `PageDirectoryEntry` is stored as. -/
def PageDirectoryEntry.toWord (e : PageDirectoryEntry) : BitVec 32 :=
  e.ptFrame ++ (e.available ++ (e.global ++ (e.pageSize ++ (e.ignored ++ (e.accessed ++
    (e.cacheDisable ++ (e.writeThrough ++ (e.user ++ (e.rw ++ e.present)))))))))

/-- `@as(u20, @truncate(a / PAGE_SIZE))`. -/
def frameField (a : BitVec 32) : BitVec 20 := (a / BitVec.ofNat 32 pageSize).setWidth 20

/-- `if (b) 1 else 0`. -/
def bitField (b : Bool) : BitVec 1 := if b then 1 else 0

/-- A pointer made from an integer, which Zig checks not to be null. -/
def ptrFromInt (a : BitVec 32) : Kernel (BitVec 32) :=
  if a = 0 then throw .trap else pure a

section WithHandler

variable (fault : BitVec 32 → Bool → Kernel Unit)

/-- Store `word i` to the `i`-th word at an address, for the `n` words from word `i` on. -/
def storeWordsWith (base : BitVec 32) (word : ℕ → BitVec 32) : ℕ → ℕ → Kernel Unit
  | 0, _ => pure ()
  | n + 1, i => do
      storeWith fault (base + 4 * BitVec.ofNat 32 i) (word i)
      storeWordsWith base word n (i + 1)

/-- `@memset` of a page to zero. -/
def zeroPageWith (base : BitVec 32) : Kernel Unit := storeWordsWith fault base (fun _ => 0) 1024 0

/-- The entry for page `i` that `mmu_init` puts into the first table. -/
def identityEntry (i : ℕ) : PageTableEntry :=
  { present := 1, rw := 1, user := 0, physicalFrame := (BitVec.ofNat 32 i).setWidth 20 }

/-- The loop of `mmu_init` that fills the first table with the identity. -/
def fillFirstTableWith (table : BitVec 32) : Kernel Unit :=
  storeWordsWith fault table (fun i => (identityEntry i).toWord) 1024 0

/-- `mmu_init`. -/
def mmuInitWith : Kernel Unit := do
  let pdAddr ← allocFrame
  let pd ← ptrFromInt pdAddr
  modify fun s => { s with kernelDirectory := pd }
  zeroPageWith fault pd
  let ptAddr ← allocFrame
  let firstTable ← ptrFromInt ptAddr
  zeroPageWith fault firstTable
  fillFirstTableWith fault firstTable
  storeWith fault pd
    { present := 1, rw := 1, user := 0, ptFrame := frameField ptAddr : PageDirectoryEntry }.toWord
  storeWith fault (pd + 4 * 1023)
    { present := 1, rw := 1, user := 0, ptFrame := frameField pdAddr : PageDirectoryEntry }.toWord

/-- The body of `if (pde.present == 0)` in `mmu_map_page`. -/
def newTableWith (pdeAddr tablePtr : BitVec 32) (isUser : Bool) : Kernel Unit := do
  let newPtPhys ← allocFrame
  storeWith fault pdeAddr
    { present := 1, rw := 1, user := bitField isUser,
      ptFrame := frameField newPtPhys : PageDirectoryEntry }.toWord
  invlpg tablePtr
  zeroPageWith fault tablePtr

/-- `if (pde.present == 0)` in `mmu_map_page`. -/
def ensureTableWith (pdeAddr tablePtr : BitVec 32) (isUser : Bool) : Kernel Unit := do
  let pde ← loadWith fault pdeAddr
  if pde.getLsbD 0 then pure () else newTableWith fault pdeAddr tablePtr isUser

/-- `mmu_map_page`. -/
def mmuMapPageWith (physAddr virtAddr : BitVec 32) (isWriteable isUser : Bool) : Kernel Unit := do
  let start ← get
  let pdIndex := virtAddr >>> 22
  let ptIndex := (virtAddr >>> 12) &&& 0x3FF
  let pdeAddr := recursivePd + 4 * pdIndex
  let tablePtr := (0xFFC00000 : BitVec 32) + (pdIndex <<< 12)
  ensureTableWith fault pdeAddr tablePtr isUser
  storeWith fault (tablePtr + 4 * ptIndex)
    { present := 1, rw := bitField isWriteable, user := bitField isUser,
      physicalFrame := frameField physAddr : PageTableEntry }.toWord
  invlpg virtAddr
  let stop ← get
  record (.mapPage ⟨physAddr, virtAddr, isWriteable, isUser, start.mem, stop.mem⟩)

/-- The heap starts here; everything above it is backed on demand. -/
def heapStart : BitVec 32 := 0xD0000000

/-- `mmu_handle_page_fault`, with the contents of `cr2`. -/
def mmuHandlePageFaultWith (faultAddr errorCode : BitVec 32) : Kernel Unit := do
  let present := errorCode &&& 1 != 0
  let write := errorCode &&& 2 != 0
  let panic : Kernel Unit := throw (.pageFault faultAddr
    (if present then "Protection violation" else "Page not present (OOM)")
    (if write then " on Write\r\n" else " on READ\r\n"))
  if present then panic
  else if heapStart ≤ faultAddr then do
    let frame ← allocFrame
    if frame ≠ 0 then mmuMapPageWith fault frame (faultAddr &&& 0xFFFFF000) true false
    else panic
  else panic

end WithHandler

/-- The processor's reaction to a page fault, at most `n` faults nested. -/
def pageFault : ℕ → BitVec 32 → Bool → Kernel Unit
  | 0, _, _ => throw .spin
  | n + 1, va, write => do
      let s ← get
      mmuHandlePageFaultWith (pageFault n) va (s.errorCode va write)

/-- The handler as it runs: each nested fault takes a frame, so there are fewer of them than
frames. -/
def onFault : BitVec 32 → Bool → Kernel Unit := pageFault faultFuel

/-- The accesses and functions with the page faults that the processor really takes. -/
def load : BitVec 32 → Kernel (BitVec 32) := loadWith onFault
def store : BitVec 32 → BitVec 32 → Kernel Unit := storeWith onFault
def mmuInit : Kernel Unit := mmuInitWith onFault
def mmuMapPage : BitVec 32 → BitVec 32 → Bool → Bool → Kernel Unit := mmuMapPageWith onFault
def mmuHandlePageFault : BitVec 32 → BitVec 32 → Kernel Unit := mmuHandlePageFaultWith onFault

/-- `mmu_enable`. -/
def mmuEnable : Kernel Unit := modify fun s => { s with cr3 := some s.kernelDirectory }

end AuriOS
