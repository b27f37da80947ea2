import AuriOS.Mm.Mmu

/-!
# The kernel heap

`src/lib/memory.c`: a first-fit allocator over a doubly linked list of blocks, each with a header
of 16 bytes in front of it.  The heap starts with 16 pages at `0xD0000000` and grows at its end,
`heap_end`, page by page.  Headers are read and written through the tables, like every other
access of the kernel.
-/

namespace AuriOS

open Program

/-! ### `block_header_t` -/

/-- `HEADER_SIZE`. -/
def headerSize : BitVec 32 := 16

/-- The fields of the header, by their offsets. -/
def getSize (block : BitVec 32) : Kernel (BitVec 32) := load block
def getFree (block : BitVec 32) : Kernel (BitVec 32) := load (block + 4)
def getNext (block : BitVec 32) : Kernel (BitVec 32) := load (block + 8)
def getPrev (block : BitVec 32) : Kernel (BitVec 32) := load (block + 12)

def setSize (block size : BitVec 32) : Kernel Unit := store block size
def setFree (block free : BitVec 32) : Kernel Unit := store (block + 4) free
def setNext (block next : BitVec 32) : Kernel Unit := store (block + 8) next
def setPrev (block prev : BitVec 32) : Kernel Unit := store (block + 12) prev

/-- `ALIGN_UP`. -/
def alignUp (x a : BitVec 32) : BitVec 32 := (x + (a - 1)) &&& ~~~(a - 1)

/-- `HEAP_VIRT_START`. -/
def heapVirtStart : BitVec 32 := 0xD0000000

/-- `HEAP_INITIAL_PAGES`. -/
def heapInitialPages : ℕ := 16

/-! ### Growing the heap -/

/-- `heap_map_pages`. -/
def heapMapPages : ℕ → Kernel Bool
  | 0 => pure true
  | n + 1 => do
      let phys ← allocFrame
      if phys = 0 then pure false
      else do
        let s ← get
        mmuMapPage phys s.heapEnd true false
        modify fun s => { s with heapEnd := s.heapEnd + BitVec.ofNat 32 pageSize }
        heapMapPages n

/-- The first block of `memory_init`. -/
def initHead : Kernel Unit := do
  modify fun s => { s with head := heapVirtStart }
  let s ← get
  setSize s.head ((s.heapEnd - heapVirtStart) - headerSize)
  setFree s.head 1
  setNext s.head 0
  setPrev s.head 0
  klog "INFO" "[MEM] Initial heap mapped"

/-- `memory_init`. -/
def memoryInit : Kernel Unit := do
  modify fun s => { s with heapEnd := heapVirtStart }
  let ok ← heapMapPages heapInitialPages
  if ok then initHead else klog "PANIC" "[MEM] Failed to allocate initial heap pages"

/-- A walk along the list that does not end within this many blocks never ends. -/
@[irreducible] def listFuel : ℕ := 2 ^ 32

/-- `while (tail->next) tail = tail->next`. -/
def findTail : ℕ → BitVec 32 → Kernel (BitVec 32)
  | 0, _ => throw .spin
  | n + 1, tail => do
      let next ← getNext tail
      if next = 0 then pure tail else findTail n next

/-- The second half of `heap_grow`: the new pages become a block at the end of the list. -/
def appendBlock (block : BitVec 32) : Kernel (BitVec 32) := do
  let s ← get
  setSize block ((s.heapEnd - block) - headerSize)
  setFree block 1
  setNext block 0
  setPrev block 0
  let tail ← findTail listFuel s.head
  setNext tail block
  setPrev block tail
  pure block

/-- The number of pages `heap_grow` maps. -/
def growPages (needed : BitVec 32) : ℕ := (alignUp needed 4096 / 4096).toNat

/-- `heap_grow`. -/
def heapGrow (needed : BitVec 32) : Kernel (BitVec 32) := do
  let s ← get
  let ok ← heapMapPages (growPages needed)
  if ok then appendBlock s.heapEnd else pure 0

/-! ### `malloc` -/

/-- `if (block->next) block->next->prev = prev`. -/
def setNextPrev (block prev : BitVec 32) : Kernel Unit := do
  let next ← getNext block
  if next = 0 then pure () else setPrev next prev

/-- The part of `split_block` after its test. -/
def cutBlock (block size remaining : BitVec 32) : Kernel Unit := do
  let newBlock := block + headerSize + size
  setSize newBlock (remaining - headerSize)
  setFree newBlock 1
  let next ← getNext block
  setNext newBlock next
  setPrev newBlock block
  setNextPrev block newBlock
  setNext block newBlock
  setSize block size

/-- `split_block`. -/
def splitBlock (block size : BitVec 32) : Kernel Unit := do
  let blockSize ← getSize block
  if blockSize - size < headerSize + 16 then pure ()
  else cutBlock block size (blockSize - size)

/-- What `malloc` does with the block it has chosen. -/
def takeBlock (block size : BitVec 32) : Kernel (BitVec 32) := do
  splitBlock block size
  setFree block 0
  pure (block + headerSize)

/-- `block->free && block->size >= size`. -/
def blockFits (block size : BitVec 32) : Kernel Bool := do
  let free ← getFree block
  if free = 0 then pure false
  else do
    let blockSize ← getSize block
    pure (size ≤ blockSize)

/-- The end of `malloc`, reached when no block fits. -/
def mallocGrow (size : BitVec 32) : Kernel (BitVec 32) := do
  let block ← heapGrow (size + headerSize)
  if block = 0 then pure 0 else takeBlock block size

/-- The loop of `malloc`. -/
def mallocLoop (size : BitVec 32) : ℕ → BitVec 32 → Kernel (BitVec 32)
  | 0, _ => throw .spin
  | n + 1, block =>
      if block = 0 then mallocGrow size
      else do
        let fits ← blockFits block size
        if fits then takeBlock block size
        else do
          let next ← getNext block
          mallocLoop size n next

/-- `malloc`. -/
def malloc (size : BitVec 32) : Kernel (BitVec 32) :=
  if size = 0 then pure 0
  else do
    let s ← get
    mallocLoop (alignUp size 8) listFuel s.head

/-! ### `free` -/

/-- The block is free and ends where the other begins. -/
def endsAt (block other : BitVec 32) : Kernel Bool := do
  let size ← getSize block
  pure (block + headerSize + size = other)

/-- `block` absorbs its successor. -/
def mergeNext (block next : BitVec 32) : Kernel Unit := do
  let nextSize ← getSize next
  let size ← getSize block
  setSize block (size + (headerSize + nextSize))
  let nextNext ← getNext next
  setNext block nextNext
  setNextPrev block block

/-- The first `if` of `free`. -/
def coalesceNext (block : BitVec 32) : Kernel Unit := do
  let next ← getNext block
  if next = 0 then pure ()
  else do
    let free ← getFree next
    if free = 0 then pure ()
    else do
      let adjacent ← endsAt block next
      if adjacent then mergeNext block next else pure ()

/-- `block` is absorbed by its predecessor. -/
def mergePrev (block prev : BitVec 32) : Kernel Unit := do
  let size ← getSize block
  let prevSize ← getSize prev
  setSize prev (prevSize + (headerSize + size))
  let next ← getNext block
  setNext prev next
  setNextPrev block prev

/-- The second `if` of `free`. -/
def coalescePrev (block : BitVec 32) : Kernel Unit := do
  let prev ← getPrev block
  if prev = 0 then pure ()
  else do
    let free ← getFree prev
    if free = 0 then pure ()
    else do
      let adjacent ← endsAt prev block
      if adjacent then mergePrev block prev else pure ()

/-- `free`. -/
def free (ptr : BitVec 32) : Kernel Unit :=
  if ptr = 0 then pure ()
  else do
    let block := ptr - headerSize
    setFree block 1
    coalesceNext block
    coalescePrev block

end AuriOS
