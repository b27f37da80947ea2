import AuriOS.Foundation.BlockList
import AuriOS.Lib.HeapWords

/-!
# The blocks of the heap

`HeapBlocks` shows the heap as the list of its blocks: linked in both directions from `head` on,
placed in increasing order between `0xD0000000` and `heap_end`, and aligned.  Each routine of
`memory.c` acts on this list by one edit:

* `takeBlock_blocks`: a block is marked used, and what it has to spare becomes a block;
* `appendBlock_blocks`: the new pages become a block at the end;
* `coalesceNext_blocks`, `coalescePrev_blocks`: a block absorbs its successor.
-/

namespace AuriOS

open Program BlockList

/-! ### Headers -/

/-- The address of a header in the heap that ends at `hi`. -/
structure HeaderAddr (hi : ℕ) (block : BitVec 32) : Prop where
  start_le : 0xD0000000 ≤ block.toNat
  stop_le : block.toNat + 16 ≤ hi
  limit : hi ≤ 0xFFC00000
  aligned : block.toNat % 4 = 0

section Header

variable {hi : ℕ} {head block : BitVec 32} {w : ℕ → BitVec 32} {A : Set ℕ}

/-- The address of a field. -/
theorem HeaderAddr.field (h : HeaderAddr hi block) (o : BitVec 32) (ho : o.toNat < 16)
    (hmod : o.toNat % 4 = 0) :
    (block + o).toNat = block.toNat + o.toNat ∧ HeapAddr hi (block + o).toNat := by
  have hto : (block + o).toNat = block.toNat + o.toNat := by
    have := h.stop_le
    have := h.limit
    rw [BitVec.toNat_add]
    omega
  have hstart := h.start_le
  have hstop := h.stop_le
  have haligned := h.aligned
  refine ⟨hto, ?_, ?_, ?_⟩ <;> rw [hto] <;> omega

/-- The first word of a header is a word of the heap. -/
theorem HeaderAddr.size (h : HeaderAddr hi block) : HeapAddr hi block.toNat :=
  ⟨h.start_le, by have := h.stop_le; omega, h.aligned⟩

/-- Reading the size reads the first word of the header. -/
theorem getSize_performs (h : HeaderAddr hi block) :
    Performs (HeapView hi head) (StoredIn A) w (getSize block) (w block.toNat) w :=
  load_performs h.size

/-- Reading the link forward reads the third word of the header. -/
theorem getNext_performs (h : HeaderAddr hi block) :
    Performs (HeapView hi head) (StoredIn A) w (getNext block) (w (block.toNat + 8)) w := by
  obtain ⟨hto, haddr⟩ := h.field 8 (by decide) (by decide)
  exact hto ▸ load_performs haddr

/-- The header of a block may be written. -/
def HeaderIn (A : Set ℕ) (a : ℕ) : Prop := ∀ o < 16, o % 4 = 0 → a + o ∈ A

/-- Setting the size writes the first word of the header. -/
theorem setSize_performs (h : HeaderAddr hi block) (hA : HeaderIn A block.toNat)
    (v : BitVec 32) :
    Performs (HeapView hi head) (StoredIn A) w (setSize block v) ()
      (Function.update w block.toNat v) :=
  store_performs h.size (hA 0 (by omega) rfl) v

/-- Setting the flag writes the second word of the header. -/
theorem setFree_performs (h : HeaderAddr hi block) (hA : HeaderIn A block.toNat)
    (v : BitVec 32) :
    Performs (HeapView hi head) (StoredIn A) w (setFree block v) ()
      (Function.update w (block.toNat + 4) v) := by
  obtain ⟨hto, haddr⟩ := h.field 4 (by decide) (by decide)
  exact hto ▸ store_performs haddr (hto ▸ hA 4 (by omega) rfl) v

/-- Setting the link forward writes the third word of the header. -/
theorem setNext_performs (h : HeaderAddr hi block) (hA : HeaderIn A block.toNat)
    (v : BitVec 32) :
    Performs (HeapView hi head) (StoredIn A) w (setNext block v) ()
      (Function.update w (block.toNat + 8) v) := by
  obtain ⟨hto, haddr⟩ := h.field 8 (by decide) (by decide)
  exact hto ▸ store_performs haddr (hto ▸ hA 8 (by omega) rfl) v

/-- Setting the link backward writes the fourth word of the header. -/
theorem setPrev_performs (h : HeaderAddr hi block) (hA : HeaderIn A block.toNat)
    (v : BitVec 32) :
    Performs (HeapView hi head) (StoredIn A) w (setPrev block v) ()
      (Function.update w (block.toNat + 12) v) := by
  obtain ⟨hto, haddr⟩ := h.field 12 (by decide) (by decide)
  exact hto ▸ store_performs haddr (hto ▸ hA 12 (by omega) rfl) v

/-- `if (block->next) block->next->prev = prev`. -/
theorem setNextPrev_performs {next : BitVec 32} (h : HeaderAddr hi block)
    (hnext : w (block.toNat + 8) = next)
    (hn : next ≠ 0 → HeaderAddr hi next ∧ HeaderIn A next.toNat) (v : BitVec 32) :
    Performs (HeapView hi head) (StoredIn A) w (setNextPrev block v) ()
      (relink w next.toNat v) := by
  refine (getNext_performs h).bind ?_
  rw [hnext]
  by_cases h0 : next = 0
  · rw [h0]
    exact Performs.ite_pos rfl (.pure ())
  · have hto : next.toNat ≠ 0 := fun hc => h0 (BitVec.eq_of_toNat_eq hc)
    rw [relink, if_neg hto]
    exact Performs.ite_neg h0 (setPrev_performs (hn h0).1 (hn h0).2 v)

end Header

/-! ### The list -/

/-- The blocks are placed in the heap that ends at `hi`, and aligned. -/
structure Layout (hi : ℕ) (bs : List Block) : Prop where
  placed : Placed 0xD0000000 bs hi
  aligned : ∀ b ∈ bs, b.addr % 8 = 0 ∧ b.size % 8 = 0

/-- The list from `head` on is `bs`. -/
structure HeapBlocks (hi : ℕ) (head : BitVec 32) (s : Machine) (bs : List Block) : Prop where
  pages : HeapPages s
  heapEnd_eq : s.heapEnd.toNat = hi
  head_eq : s.head = head
  head_first : head.toNat = firstAddr bs 0
  linked : Linked BitVec.toNat s.heapWord 0 bs 0
  layout : Layout hi bs

section Blocks

variable {hi : ℕ} {head block : BitVec 32} {w : ℕ → BitVec 32} {A : Set ℕ} {bs bs' l r : List Block}
  {b c : Block} {α : Type} {x : Kernel α} {a : α}

/-- The header of a block that is laid out lies in the heap. -/
theorem Layout.headerAddr (h : Layout hi bs) (hlimit : hi ≤ 0xFFC00000) (hb : b ∈ bs)
    (hblock : block.toNat = b.addr) : HeaderAddr hi block := by
  obtain ⟨hlo, hstop⟩ := h.placed.mem hb
  have := (h.aligned b hb).1
  rw [Block.stop] at hstop
  refine ⟨?_, ?_, hlimit, ?_⟩ <;> rw [hblock] <;> omega

/-- A layout stays one when the heap grows. -/
theorem Layout.mono {lo hi : ℕ} (h : Layout lo bs) (hle : lo ≤ hi) : Layout hi bs :=
  ⟨h.placed.mono hle, h.aligned⟩

/-- The heap's words are seen as they are. -/
theorem HeapBlocks.view {s : Machine} (h : HeapBlocks hi head s bs) :
    HeapView hi head s s.heapWord :=
  ⟨h.pages, h.heapEnd_eq, h.head_eq, fun _ _ => rfl⟩

/-- The heap ends below the window. -/
theorem HeapBlocks.limit {s : Machine} (h : HeapBlocks hi head s bs) : hi ≤ 0xFFC00000 :=
  h.view.limit

/-- A list that is linked in the words of a view is the list of the heap. -/
theorem HeapView.blocks {s : Machine} (h : HeapView hi head s w)
    (hfirst : head.toNat = firstAddr bs 0) (hlinked : Linked BitVec.toNat w 0 bs 0)
    (hlay : Layout hi bs) : HeapBlocks hi head s bs := by
  refine ⟨h.pages, h.heapEnd_eq, h.head_eq, hfirst, hlinked.congr fun b hb o ho hmod => ?_, hlay⟩
  obtain ⟨hlo, hstop⟩ := hlay.placed.mem hb
  have := (hlay.aligned b hb).1
  rw [Block.stop] at hstop
  exact h.word_eq _ ⟨by omega, by omega, by omega⟩

/-- The list stays when the words of the heap do. -/
theorem HeapBlocks.carry {s s' : Machine} {hi' : ℕ} (h : HeapBlocks hi head s bs)
    (hpages : HeapPages s') (hend : s'.heapEnd.toNat = hi') (hle : hi ≤ hi')
    (hhead : s'.head = head) (hword : ∀ a, HeapAddr hi a → s'.heapWord a = s.heapWord a) :
    HeapBlocks hi' head s' bs := by
  refine ⟨hpages, hend, hhead, h.head_first, h.linked.congr fun b hb o ho hmod => ?_,
    h.layout.mono hle⟩
  obtain ⟨hlo, hstop⟩ := h.layout.placed.mem hb
  have := (h.layout.aligned b hb).1
  rw [Block.stop] at hstop
  exact hword _ ⟨by omega, by omega, by omega⟩

/-- What a routine does to the words of the list, it does to the list. -/
theorem performs_blocks
    (hx : ∀ w, Linked BitVec.toNat w 0 bs 0 →
      ∃ w', Performs (HeapView hi head) (StoredIn A) w x a w' ∧ Linked BitVec.toNat w' 0 bs' 0)
    (hfirst : firstAddr bs' 0 = firstAddr bs 0) (hlay : Layout hi bs') :
    Performs (HeapBlocks hi head) (StoredIn A) bs x a bs' := by
  intro s hs
  obtain ⟨w', hrun, hlinked⟩ := hx _ hs.linked
  obtain ⟨s', hok, hview, hst⟩ := hrun s hs.view
  exact ⟨s', hok, hview.blocks (hs.head_first.trans hfirst.symm) hlinked hlay, hst⟩

/-- The list is empty, or it starts at one of its blocks. -/
theorem firstAddr_mem (bs : List Block) :
    firstAddr bs 0 = 0 ∨ ∃ c ∈ bs, firstAddr bs 0 = c.addr := by
  cases bs with
  | nil => exact Or.inl rfl
  | cons c bs => exact Or.inr ⟨c, List.mem_cons_self, rfl⟩

/-- The next-pointer of a block is a header of the list, unless it ends the list. -/
theorem Layout.nextAddr {next : BitVec 32} (h : Layout hi bs) (hlimit : hi ≤ 0xFFC00000)
    (hA : ∀ x ∈ bs, HeaderIn A x.addr) (hr : ∀ x ∈ r, x ∈ bs) (hnext : next.toNat = firstAddr r 0)
    (h0 : next ≠ 0) : HeaderAddr hi next ∧ HeaderIn A next.toNat := by
  rcases firstAddr_mem r with hnil | ⟨c, hc, hca⟩
  · exact absurd (BitVec.eq_of_toNat_eq (y := 0) (hnext.trans hnil)) h0
  · rw [hca] at hnext
    exact ⟨h.headerAddr hlimit (hr c hc) hnext, hnext ▸ hA c (hr c hc)⟩

/-! ### Reading a header -/

section Read

variable {β : Type} {v' : β} {f : BitVec 32 → Kernel β}

/-- A load leaves the machine as it is. -/
theorem HeapView.load_eq {s : Machine} {va : BitVec 32} (h : HeapView hi head s w)
    (ha : HeapAddr hi va.toNat) : load va s = .ok (w va.toNat, s) := by
  obtain ⟨f, hf, hword⟩ := h.owner_addr ha
  exact hword ▸ load_ok h.pages.paging hf

/-- The header of a block lies in the heap and says what the list says. -/
theorem HeapBlocks.header {s : Machine} (h : HeapBlocks hi head s (l ++ b :: r))
    (hblock : block.toNat = b.addr) :
    HeaderAddr hi block ∧
      Header BitVec.toNat s.heapWord b (lastAddr 0 l) (firstAddr r 0) :=
  ⟨h.layout.headerAddr h.limit (by simp) hblock, h.linked.header⟩

/-- The size is read from the list. -/
theorem HeapBlocks.getSize_eq {s : Machine} (h : HeapBlocks hi head s (l ++ b :: r))
    (hblock : block.toNat = b.addr) :
    ∃ v : BitVec 32, getSize block s = .ok (v, s) ∧ v.toNat = b.size := by
  obtain ⟨haddr, hheader⟩ := h.header hblock
  exact ⟨_, h.view.load_eq haddr.size, hblock ▸ hheader.size_eq⟩

/-- The flag is read from the list. -/
theorem HeapBlocks.getFree_eq {s : Machine} (h : HeapBlocks hi head s (l ++ b :: r))
    (hblock : block.toNat = b.addr) :
    ∃ v : BitVec 32, getFree block s = .ok (v, s) ∧ (v = 0 ↔ b.free = false) := by
  obtain ⟨haddr, hheader⟩ := h.header hblock
  obtain ⟨hto, hfield⟩ := haddr.field 4 (by decide) (by decide)
  refine ⟨_, h.view.load_eq hfield, ?_⟩
  rw [hto, hblock, ← Bool.not_eq_true, ← hheader.free_iff, not_not]
  exact BitVec.toNat_inj.symm

/-- The link forward leads to the next block of the list. -/
theorem HeapBlocks.getNext_eq {s : Machine} (h : HeapBlocks hi head s (l ++ b :: r))
    (hblock : block.toNat = b.addr) :
    ∃ v : BitVec 32, getNext block s = .ok (v, s) ∧ v.toNat = firstAddr r 0 := by
  obtain ⟨haddr, hheader⟩ := h.header hblock
  obtain ⟨hto, hfield⟩ := haddr.field 8 (by decide) (by decide)
  refine ⟨_, h.view.load_eq hfield, ?_⟩
  rw [hto, hblock]
  exact hheader.next_eq

/-- The link backward leads to the block before it in the list. -/
theorem HeapBlocks.getPrev_eq {s : Machine} (h : HeapBlocks hi head s (l ++ b :: r))
    (hblock : block.toNat = b.addr) :
    ∃ v : BitVec 32, getPrev block s = .ok (v, s) ∧ v.toNat = lastAddr 0 l := by
  obtain ⟨haddr, hheader⟩ := h.header hblock
  obtain ⟨hto, hfield⟩ := haddr.field 12 (by decide) (by decide)
  refine ⟨_, h.view.load_eq hfield, ?_⟩
  rw [hto, hblock]
  exact hheader.prev_eq

/-- A program that starts by reading the state continues from the same list. -/
theorem performs_read {y : Kernel (BitVec 32)} {P : BitVec 32 → Prop}
    (hy : ∀ s, HeapBlocks hi head s bs → ∃ v, y s = .ok (v, s) ∧ P v)
    (hf : ∀ v, P v → Performs (HeapBlocks hi head) (StoredIn A) bs (f v) v' bs') :
    Performs (HeapBlocks hi head) (StoredIn A) bs (y >>= f) v' bs' := by
  intro s hs
  obtain ⟨v, hv, hP⟩ := hy s hs
  rw [bind_of_ok hv]
  exact hf v hP s hs

end Read

/-! ### Taking a block -/

/-- The flag as `memory.c` stores it. -/
def freeWord (free : Bool) : BitVec 32 := if free then 1 else 0

/-- The flag is set exactly on free blocks. -/
theorem freeWord_ne_zero (free : Bool) : (freeWord free).toNat ≠ 0 ↔ free = true := by
  cases free <;> simp [freeWord]

/-- A flag does not move any block. -/
theorem placed_setFree {lo hi : ℕ} (free : Bool) :
    Placed lo (l ++ { b with free := free } :: r) hi ↔ Placed lo (l ++ b :: r) hi := by
  rw [placed_append_cons, placed_append_cons]
  rfl

/-- A flag keeps the layout. -/
theorem Layout.setFree (h : Layout hi (l ++ b :: r)) (free : Bool) :
    Layout hi (l ++ { b with free := free } :: r) := by
  refine ⟨(placed_setFree free).mpr h.placed, fun x hx => ?_⟩
  rcases List.mem_append.mp hx with hx | hx
  · exact h.aligned x (List.mem_append_left _ hx)
  · rcases List.mem_cons.mp hx with rfl | hx
    · exact h.aligned b (by simp)
    · exact h.aligned x (List.mem_append_right _ (List.mem_cons_of_mem _ hx))

/-- `block->free = free`. -/
theorem setFree_blocks (hlay : Layout hi (l ++ b :: r)) (hlimit : hi ≤ 0xFFC00000)
    (hA : HeaderIn A b.addr) (hblock : block.toNat = b.addr) (free : Bool) :
    Performs (HeapBlocks hi head) (StoredIn A) (l ++ b :: r) (setFree block (freeWord free)) ()
      (l ++ { b with free := free } :: r) := by
  have haddr := hlay.headerAddr hlimit (by simp) hblock
  refine performs_blocks (fun w hw => ⟨_, setFree_performs haddr (hblock ▸ hA) _, ?_⟩) ?_
    (hlay.setFree free)
  · rw [hblock]
    exact hw.setFree hlay.placed (freeWord_ne_zero free)
  · rw [firstAddr_append, firstAddr_append]
    rfl

/-- Cutting a block keeps the layout. -/
theorem Layout.cut {size : ℕ} (h : Layout hi (l ++ b :: r)) (hsize : size + 16 ≤ b.size)
    (hmod : size % 8 = 0) :
    Layout hi (l ++ { b with size := size } :: b.remainder size :: r) := by
  have hb := h.aligned b (by simp)
  constructor
  · obtain ⟨hl, hr⟩ := placed_append_cons.mp h.placed
    have hstop : (b.remainder size).stop = b.stop := by
      simp only [Block.remainder, Block.stop]
      omega
    refine placed_append_cons.mpr ⟨hl, le_rfl, ?_⟩
    rw [hstop]
    exact hr
  · intro x hx
    rcases List.mem_append.mp hx with hx | hx
    · exact h.aligned x (List.mem_append_left _ hx)
    · rcases List.mem_cons.mp hx with rfl | hx
      · exact ⟨hb.1, hmod⟩
      · rcases List.mem_cons.mp hx with rfl | hx
        · simp only [Block.remainder]
          omega
        · exact h.aligned x (List.mem_append_right _ (List.mem_cons_of_mem _ hx))

/-- The second part of `split_block`. -/
theorem cutBlock_blocks (hlay : Layout hi (l ++ b :: r)) (hlimit : hi ≤ 0xFFC00000)
    (hA : ∀ x ∈ l ++ b :: r, HeaderIn A x.addr) (hblock : block.toNat = b.addr)
    {size remaining : BitVec 32} (hsize : size.toNat + 16 ≤ b.size) (hmod : size.toNat % 8 = 0)
    (hrem : remaining.toNat = b.size - size.toNat)
    (hnA : HeaderIn A (b.addr + 16 + size.toNat)) :
    Performs (HeapBlocks hi head) (StoredIn A) (l ++ b :: r) (cutBlock block size remaining) ()
      (l ++ { b with size := size.toNat } :: b.remainder size.toNat :: r) := by
  have hmem : b ∈ l ++ b :: r := by simp
  have haddr := hlay.headerAddr hlimit hmem hblock
  obtain ⟨-, hstop⟩ := hlay.placed.mem hmem
  rw [Block.stop] at hstop
  -- the new block
  have hheader : headerSize.toNat = 16 := rfl
  have hnew : (block + headerSize + size).toNat = b.addr + 16 + size.toNat := by
    rw [BitVec.toNat_add, BitVec.toNat_add, hheader, hblock]
    omega
  have hnewAddr : HeaderAddr hi (block + headerSize + size) := by
    have := (hlay.aligned b hmem).1
    have := haddr.start_le
    refine ⟨?_, ?_, hlimit, ?_⟩ <;> rw [hnew] <;> omega
  have hnewA : HeaderIn A (block + headerSize + size).toNat := hnew ▸ hnA
  refine performs_blocks (fun w hw => ?_) ?_ (hlay.cut hsize hmod)
  rotate_left
  · rw [firstAddr_append, firstAddr_append]
    rfl
  have hnext := hw.header.next_eq
  rw [← hblock] at hnext
  have hn := hlay.nextAddr hlimit hA (r := r) (fun x hx => by simp [hx]) hnext
  refine ⟨_, (setSize_performs hnewAddr hnewA _).bind <| (setFree_performs hnewAddr hnewA _).bind <|
    (getNext_performs haddr).bind <| (setNext_performs hnewAddr hnewA _).bind <|
    (setPrev_performs hnewAddr hnewA _).bind <|
    (setNextPrev_performs haddr ?_ hn _).bind <|
      (setNext_performs haddr (hblock ▸ hA b hmem) _).bind <|
    setSize_performs haddr (hblock ▸ hA b hmem) _, ?_⟩
  · simp (disch := omega) only [Function.update_of_ne]
  · have hcut := hw.cut (n := b.remainder size.toNat) hlay.placed (by norm_num)
      (by simp only [Block.remainder]; omega) (by simp only [Block.remainder, Block.stop]; omega)
      (remaining - headerSize) 1 block (block + headerSize + size) size
      (by
        simp only [Block.remainder]
        rw [BitVec.toNat_sub, hrem, hheader]
        omega)
      (by simp [Block.remainder]) hblock hnew rfl
    simp (disch := omega) only [Function.update_of_ne (a := block.toNat + 8)]
    rw [hnext, hnew, hblock]
    exact hcut

/-- What `split_block` makes of a block. -/
def splitAt (b : Block) (size : ℕ) : List Block :=
  if b.size - size < 32 then [b] else [{ b with size := size }, b.remainder size]

/-- `split_block`. -/
theorem splitBlock_blocks (hlay : Layout hi (l ++ b :: r)) (hlimit : hi ≤ 0xFFC00000)
    (hA : ∀ x ∈ l ++ b :: r, HeaderIn A x.addr) (hbA : ∀ a, b.addr ≤ a → a + 4 ≤ b.stop → a ∈ A)
    (hblock : block.toNat = b.addr) {size : BitVec 32} (hsize : size.toNat ≤ b.size)
    (hmod : size.toNat % 8 = 0) :
    Performs (HeapBlocks hi head) (StoredIn A) (l ++ b :: r) (splitBlock block size) ()
      (l ++ (splitAt b size.toNat ++ r)) := by
  refine performs_read (fun s hs => hs.getSize_eq hblock) fun v hv => ?_
  have hrem : (v - size).toNat = b.size - size.toNat := by
    rw [BitVec.toNat_sub_of_le (BitVec.le_def.mpr (hv ▸ hsize)), hv]
  have hheader : (headerSize + 16 : BitVec 32).toNat = 32 := rfl
  by_cases hsmall : b.size - size.toNat < 32
  · rw [splitAt, if_pos hsmall]
    refine Performs.ite_pos (BitVec.lt_def.mpr ?_) (.pure ())
    rw [hrem, hheader]
    exact hsmall
  · rw [splitAt, if_neg hsmall]
    refine Performs.ite_neg (fun hc => hsmall ?_) ?_
    · rw [BitVec.lt_def, hrem, hheader] at hc
      exact hc
    · refine cutBlock_blocks hlay hlimit hA hblock (by omega) hmod hrem fun o ho _ => hbA _ ?_ ?_
      · omega
      · rw [Block.stop]
        omega

/-- What taking a block makes of it. -/
def taken (b : Block) (size : ℕ) : List Block :=
  if b.size - size < 32 then [{ b with free := false }]
  else [{ b with size := size, free := false }, b.remainder size]

/-- **`malloc` takes a block.** -/
theorem takeBlock_blocks (hlay : Layout hi (l ++ b :: r)) (hlimit : hi ≤ 0xFFC00000)
    (hA : ∀ x ∈ l ++ b :: r, HeaderIn A x.addr) (hbA : ∀ a, b.addr ≤ a → a + 4 ≤ b.stop → a ∈ A)
    (hblock : block.toNat = b.addr) {size : BitVec 32} (hsize : size.toNat ≤ b.size)
    (hmod : size.toNat % 8 = 0) :
    Performs (HeapBlocks hi head) (StoredIn A) (l ++ b :: r) (takeBlock block size)
      (block + headerSize) (l ++ (taken b size.toNat ++ r)) := by
  have hb : HeaderIn A b.addr := hA b (by simp)
  refine (splitBlock_blocks hlay hlimit hA hbA hblock hsize hmod).bind ?_
  rw [splitAt, taken]
  split
  · exact (setFree_blocks hlay hlimit hb hblock false).bind (.pure _)
  · next hbig =>
    exact (setFree_blocks (b := { b with size := size.toNat }) (hlay.cut (by omega) hmod) hlimit
      hb hblock false).bind (.pure _)

/-- The layout after a block is taken. -/
theorem Layout.taken {size : ℕ} (hlay : Layout hi (l ++ b :: r)) (hmod : size % 8 = 0) :
    Layout hi (l ++ (taken b size ++ r)) := by
  rw [AuriOS.taken]
  split
  · exact hlay.setFree false
  · next hbig => exact (hlay.cut (by omega) hmod).setFree (b := { b with size := size }) false

/-! ### Merging blocks -/

/-- Merging two blocks keeps the layout. -/
theorem Layout.merge (h : Layout hi (l ++ b :: c :: r)) (hadj : b.stop = c.addr) :
    Layout hi (l ++ b.absorb c :: r) := by
  have hb := h.aligned b (by simp)
  have hc := h.aligned c (by simp)
  constructor
  · obtain ⟨hl, -, hr⟩ := placed_append_cons.mp h.placed
    have hstop : (b.absorb c).stop = c.stop := by
      simp only [Block.absorb, Block.stop] at hadj ⊢
      omega
    refine placed_append_cons.mpr ⟨hl, ?_⟩
    rw [hstop]
    exact hr
  · intro x hx
    rcases List.mem_append.mp hx with hx | hx
    · exact h.aligned x (List.mem_append_left _ hx)
    · rcases List.mem_cons.mp hx with rfl | hx
      · simp only [Block.absorb]
        omega
      · exact h.aligned x (List.mem_append_right _
          (List.mem_cons_of_mem _ (List.mem_cons_of_mem _ hx)))

/-- Merging two blocks leaves the start of the list. -/
theorem firstAddr_merge : firstAddr (l ++ b.absorb c :: r) 0 = firstAddr (l ++ b :: c :: r) 0 := by
  rw [firstAddr_append, firstAddr_append]
  rfl

/-- The size of a block that absorbs its successor. -/
theorem absorb_toNat {vb vc : BitVec 32} (h : Layout hi (l ++ b :: c :: r))
    (hlimit : hi ≤ 0xFFC00000) (hadj : b.stop = c.addr) (hvb : vb.toNat = b.size)
    (hvc : vc.toNat = c.size) : (vb + (headerSize + vc)).toNat = b.size + (16 + c.size) := by
  have hheader : headerSize.toNat = 16 := rfl
  have hstop := (h.placed.mem (b := c) (by simp)).2
  rw [Block.stop] at hadj hstop
  rw [BitVec.toNat_add, BitVec.toNat_add, hheader, hvb, hvc]
  omega

section Merge

variable {next : BitVec 32}

/-- A block absorbs its successor; the link back of the next block is found through `last`, which is
either of the two. -/
theorem merge_blocks {last : BitVec 32} (hlast : last = block ∨ last = next)
    (hlay : Layout hi (l ++ b :: c :: r)) (hlimit : hi ≤ 0xFFC00000)
    (hA : ∀ x ∈ l ++ b :: c :: r, HeaderIn A x.addr) (hadj : b.stop = c.addr)
    (hblock : block.toNat = b.addr) (hnext : next.toNat = c.addr) :
    Performs (HeapBlocks hi head) (StoredIn A) (l ++ b :: c :: r)
      (do
        let nextSize ← getSize next
        let size ← getSize block
        setSize block (size + (headerSize + nextSize))
        let nextNext ← getNext next
        setNext block nextNext
        setNextPrev last block) () (l ++ b.absorb c :: r) := by
  have hb : b ∈ l ++ b :: c :: r := by simp
  have hc : c ∈ l ++ b :: c :: r := by simp
  have hbAddr := hlay.headerAddr hlimit hb hblock
  have hcAddr := hlay.headerAddr hlimit hc hnext
  have hlastAddr : HeaderAddr hi last := by
    rcases hlast with rfl | rfl
    · exact hbAddr
    · exact hcAddr
  have hbA : HeaderIn A block.toNat := hblock ▸ hA b hb
  rw [Block.stop] at hadj
  refine performs_blocks (fun w hw => ?_) firstAddr_merge (hlay.merge hadj)
  have hwb := hw.header
  have hwc := (show Linked BitVec.toNat w 0 ((l ++ [b]) ++ c :: r) 0 by simpa using hw).header
  have hnn := hwc.next_eq
  rw [← hnext] at hnn
  have hn := hlay.nextAddr hlimit hA (r := r) (fun x hx => by simp [hx]) hnn
  refine ⟨_, (getSize_performs hcAddr).bind <| (getSize_performs hbAddr).bind <|
    (setSize_performs hbAddr hbA _).bind <| (getNext_performs hcAddr).bind <|
    (setNext_performs hbAddr hbA _).bind <| setNextPrev_performs hlastAddr ?_ hn _, ?_⟩
  · rcases hlast with rfl | rfl
    · simp (disch := omega) only [Function.update_of_ne, Function.update_self]
    · simp (disch := omega) only [Function.update_of_ne]
  · simp (disch := omega) only [Function.update_of_ne (a := next.toNat + 8)]
    rw [hnn, hblock]
    refine hw.merge hlay.placed (by norm_num) ?_ hnn hblock
    exact absorb_toNat hlay hlimit hadj hwb.size_eq (hnext ▸ hwc.size_eq)

end Merge

/-- `endsAt`. -/
theorem endsAt_blocks {other : BitVec 32} (hlay : Layout hi (l ++ b :: r))
    (hlimit : hi ≤ 0xFFC00000)
    (hblock : block.toNat = b.addr) {β : Type} {v' : β} {f : Bool → Kernel β}
    (hf : Performs (HeapBlocks hi head) (StoredIn A) (l ++ b :: r) (f (b.stop = other.toNat))
      v' bs') :
    Performs (HeapBlocks hi head) (StoredIn A) (l ++ b :: r) (endsAt block other >>= f) v' bs' := by
  have hheader : headerSize.toNat = 16 := rfl
  have hstop := (hlay.placed.mem (b := b) (by simp)).2
  rw [Block.stop] at hstop
  intro s hs
  obtain ⟨v, hv, hsize⟩ := hs.getSize_eq hblock
  have hends : endsAt block other s = .ok (decide (b.stop = other.toNat), s) := by
    rw [endsAt, bind_of_ok hv, pure_apply]
    have hto : (block + headerSize + v).toNat = b.stop := by
      rw [BitVec.toNat_add, BitVec.toNat_add, hheader, hblock, hsize, Block.stop]
      omega
    have hiff : block + headerSize + v = other ↔ b.stop = other.toNat := by
      rw [← BitVec.toNat_inj, hto]
    rw [decide_eq_decide.mpr hiff]
  rw [bind_of_ok hends]
  exact hf s hs

/-- `coalesceNext`, when the next block is free and adjacent. -/
theorem coalesceNext_absorb (hlay : Layout hi (l ++ b :: c :: r)) (hlimit : hi ≤ 0xFFC00000)
    (hA : ∀ x ∈ l ++ b :: c :: r, HeaderIn A x.addr) (hblock : block.toNat = b.addr)
    (hfree : c.free = true) (hadj : b.stop = c.addr) :
    Performs (HeapBlocks hi head) (StoredIn A) (l ++ b :: c :: r) (coalesceNext block) ()
      (l ++ b.absorb c :: r) := by
  have hc : l ++ b :: c :: r = (l ++ [b]) ++ c :: r := by simp
  refine performs_read (fun s hs => hs.getNext_eq hblock) fun next (hnext : next.toNat = c.addr) =>
    ?_
  have hc0 := (hlay.placed.mem (b := c) (by simp)).1
  refine Performs.ite_neg (fun h0 => ?_) ?_
  · rw [h0] at hnext
    change 0 = _ at hnext
    omega
  · refine performs_read (fun s hs => (hc ▸ hs : HeapBlocks hi head s _).getFree_eq hnext)
      fun free hfree0 => ?_
    refine Performs.ite_neg (fun h0 => ?_) ?_
    · rw [hfree0.mp h0] at hfree
      exact absurd hfree (by simp)
    · refine endsAt_blocks hlay hlimit hblock ?_
      refine Performs.ite_pos (decide_eq_true (hadj.trans hnext.symm)) ?_
      exact merge_blocks (Or.inl rfl) hlay hlimit hA hadj hblock hnext

/-- `coalesceNext` otherwise. -/
theorem coalesceNext_stay (hlay : Layout hi (l ++ b :: r)) (hlimit : hi ≤ 0xFFC00000)
    (hblock : block.toNat = b.addr)
    (hstay : ∀ c ∈ r.head?, c.free = true → b.stop ≠ c.addr) :
    Performs (HeapBlocks hi head) (StoredIn A) (l ++ b :: r) (coalesceNext block) ()
      (l ++ b :: r) := by
  refine performs_read (fun s hs => hs.getNext_eq hblock) fun next hnext => ?_
  cases r with
  | nil => exact Performs.ite_pos (BitVec.eq_of_toNat_eq (y := 0) hnext) (.pure ())
  | cons c r =>
    have hc : l ++ b :: c :: r = (l ++ [b]) ++ c :: r := by simp
    have hc0 := (hlay.placed.mem (b := c) (by simp)).1
    replace hnext : next.toNat = c.addr := hnext
    refine Performs.ite_neg (fun h0 => ?_) ?_
    · rw [h0] at hnext
      change 0 = _ at hnext
      omega
    · refine performs_read (fun s hs => (hc ▸ hs : HeapBlocks hi head s _).getFree_eq hnext)
        fun free hfree0 => ?_
      by_cases hused : free = 0
      · exact Performs.ite_pos hused (.pure ())
      · refine Performs.ite_neg hused (endsAt_blocks hlay hlimit hblock ?_)
        have hfree : c.free = true := Bool.not_eq_false _ ▸ mt hfree0.mpr hused
        have hne := hstay c rfl hfree
        rw [hnext, decide_eq_false hne]
        exact .pure ()

/-- `coalesceNext`. -/
theorem coalesceNext_blocks (hlay : Layout hi (l ++ b :: r)) (hlimit : hi ≤ 0xFFC00000)
    (hA : ∀ x ∈ l ++ b :: r, HeaderIn A x.addr) (hblock : block.toNat = b.addr) :
    Performs (HeapBlocks hi head) (StoredIn A) (l ++ b :: r) (coalesceNext block) ()
      (l ++ (joinRight b r).1 :: (joinRight b r).2) := by
  rcases joinRight_cases b r with ⟨c, r', rfl, hfree, hadj, h⟩ | ⟨hstay, h⟩ <;> rw [h]
  · exact coalesceNext_absorb hlay hlimit hA hblock hfree hadj
  · exact coalesceNext_stay hlay hlimit hblock hstay

/-- The merge to the right keeps the layout. -/
theorem Layout.joinRight (h : Layout hi (l ++ b :: r)) :
    Layout hi (l ++ (BlockList.joinRight b r).1 :: (BlockList.joinRight b r).2) := by
  rcases joinRight_cases b r with ⟨c, r', rfl, -, hadj, heq⟩ | ⟨-, heq⟩ <;> rw [heq]
  · exact h.merge hadj
  · exact h

/-- The last address of a list is its last block's. -/
theorem lastAddr_concat (p : ℕ) : lastAddr p (l ++ [b]) = b.addr := by
  rw [lastAddr_append]
  rfl

/-- `coalescePrev`. -/
theorem coalescePrev_blocks (hlay : Layout hi (l ++ b :: r)) (hlimit : hi ≤ 0xFFC00000)
    (hA : ∀ x ∈ l ++ b :: r, HeaderIn A x.addr) (hblock : block.toNat = b.addr) :
    Performs (HeapBlocks hi head) (StoredIn A) (l ++ b :: r) (coalescePrev block) ()
      (joinLeft l b r) := by
  refine performs_read (fun s hs => hs.getPrev_eq hblock) fun prev hprev => ?_
  rcases List.eq_nil_or_concat l with rfl | ⟨l, x, rfl⟩
  · exact Performs.ite_pos (BitVec.eq_of_toNat_eq (y := 0) hprev) (.pure ())
  · rw [List.concat_eq_append] at hlay hA hprev ⊢
    rw [lastAddr_concat] at hprev
    have happ : (l ++ [x]) ++ b :: r = l ++ x :: b :: r := by simp
    rw [happ] at hlay hA ⊢
    have hx0 := (hlay.placed.mem (b := x) (by simp)).1
    refine Performs.ite_neg (fun h0 => ?_) ?_
    · rw [h0] at hprev
      change 0 = _ at hprev
      omega
    · refine performs_read (fun s hs => hs.getFree_eq hprev) fun free hfree0 => ?_
      by_cases hused : free = 0
      · have hstay : joinLeft (l ++ [x]) b r = l ++ x :: b :: r := by
          rw [joinLeft, List.getLast?_concat]
          refine (if_neg fun hc => ?_).trans happ
          rw [hfree0.mp hused] at hc
          exact absurd hc.1 (by simp)
        rw [hstay]
        exact Performs.ite_pos hused (.pure ())
      · have hfree : x.free = true := Bool.not_eq_false _ ▸ mt hfree0.mpr hused
        refine Performs.ite_neg hused (endsAt_blocks hlay hlimit hprev ?_)
        rw [hblock]
        by_cases hadj : x.stop = b.addr
        · have hjoin : joinLeft (l ++ [x]) b r = l ++ x.absorb b :: r := by
            rw [joinLeft, List.getLast?_concat]
            refine (if_pos ⟨hfree, hadj⟩).trans ?_
            rw [List.dropLast_concat]
          rw [hjoin, decide_eq_true hadj]
          exact merge_blocks (Or.inr rfl) hlay hlimit hA hadj hprev hblock
        · have hstay : joinLeft (l ++ [x]) b r = l ++ x :: b :: r := by
            rw [joinLeft, List.getLast?_concat]
            exact (if_neg fun hc => hadj hc.2).trans happ
          rw [hstay, decide_eq_false hadj]
          exact .pure ()

/-- **`free`.** -/
theorem free_blocks (hlay : Layout hi (l ++ b :: r)) (hlimit : hi ≤ 0xFFC00000)
    (hA : ∀ x ∈ l ++ b :: r, HeaderIn A x.addr) {ptr : BitVec 32} (hptr : ptr.toNat = b.payload) :
    Performs (HeapBlocks hi head) (StoredIn A) (l ++ b :: r) (free ptr) () (freed l b r) := by
  have hblock : (ptr - headerSize).toNat = b.addr := by
    have hheader : headerSize.toNat = 16 := rfl
    rw [Block.payload] at hptr
    rw [BitVec.toNat_sub_of_le (BitVec.le_def.mpr (by omega)), hheader]
    omega
  have h0 : ptr ≠ 0 := by
    rintro rfl
    rw [Block.payload] at hptr
    change 0 = _ at hptr
    omega
  -- the headers that may be written stay the same
  have hA₁ : ∀ b' r', b'.addr = b.addr → (∀ x ∈ r', x ∈ r) →
      ∀ x ∈ l ++ b' :: r', HeaderIn A x.addr := by
    intro b' r' hb' hr' x hx
    rcases List.mem_append.mp hx with hx | hx
    · exact hA x (List.mem_append_left _ hx)
    · rcases List.mem_cons.mp hx with rfl | hx
      · exact hb' ▸ hA b (by simp)
      · exact hA x (List.mem_append_right _ (List.mem_cons_of_mem _ (hr' x hx)))
  have hlay₁ := hlay.setFree true
  have haddr := (joinRight_addr { b with free := true } r).1
  refine Performs.ite_neg h0 ?_
  refine (setFree_blocks hlay hlimit (hA b (by simp)) hblock true).bind ?_
  refine (coalesceNext_blocks hlay₁ hlimit (hA₁ _ _ rfl fun _ hx => hx) hblock).bind ?_
  exact coalescePrev_blocks hlay₁.joinRight hlimit (hA₁ _ _ haddr fun _ hx => mem_joinRight hx)
    (hblock.trans haddr.symm)

/-! ### Growing the list -/

/-- `while (tail->next) tail = tail->next` comes to the last block. -/
theorem findTail_performs (hlay : Layout hi bs) (hlimit : hi ≤ 0xFFC00000) {p : ℕ}
    (hr : ∀ x ∈ b :: r, x ∈ bs) (hw : Linked BitVec.toNat w p (b :: r) 0)
    (hblock : block.toNat = b.addr) {n : ℕ} (hn : r.length < n) :
    Performs (HeapView hi head) (StoredIn A) w (findTail n block)
      (BitVec.ofNat 32 (lastAddr b.addr r)) w := by
  induction r generalizing b block p n with
  | nil =>
    obtain ⟨n, rfl⟩ : ∃ m, n = m + 1 := ⟨n - 1, by omega⟩
    have haddr := hlay.headerAddr hlimit (hr b (by simp)) hblock
    have hnext : w (block.toNat + 8) = 0 := by
      rw [hblock]
      exact BitVec.eq_of_toNat_eq hw.1.next_eq
    refine (getNext_performs haddr).bind (Performs.ite_pos hnext ?_)
    rw [lastAddr, ← hblock, BitVec.ofNat_toNat, BitVec.setWidth_eq]
    exact .pure block
  | cons c r ih =>
    obtain ⟨n, rfl⟩ : ∃ m, n = m + 1 := ⟨n - 1, by omega⟩
    have haddr := hlay.headerAddr hlimit (hr b (by simp)) hblock
    have hnext : (w (block.toNat + 8)).toNat = c.addr := by
      rw [hblock]
      exact hw.1.next_eq
    have hc0 := (hlay.placed.mem (hr c (by simp))).1
    refine (getNext_performs haddr).bind (Performs.ite_neg (fun h0 => ?_) ?_)
    · rw [h0] at hnext
      change 0 = _ at hnext
      omega
    · exact ih (fun x hx => hr x (List.mem_cons_of_mem _ hx)) hw.2 hnext
        (Nat.lt_of_succ_lt_succ hn)

/-- The block that the pages from `lo` to `hi` become. -/
def grownBlock (lo hi : ℕ) : Block := ⟨lo, hi - lo - 16, true⟩

/-- A block in the new pages extends the layout. -/
theorem Layout.extend {lo : ℕ} (h : Layout lo bs) (hlo : lo % 8 = 0) (hhi : hi % 8 = 0)
    (hgrow : lo + 16 ≤ hi) : Layout hi (bs ++ [grownBlock lo hi]) := by
  constructor
  · refine placed_append_cons.mpr ⟨h.placed, ?_⟩
    simp only [Placed, Block.stop, grownBlock]
    omega
  · intro x hx
    rcases List.mem_append.mp hx with hx | hx
    · exact h.aligned x hx
    · obtain rfl := List.mem_singleton.mp hx
      simp only [grownBlock]
      omega

/-- The second half of `heap_grow`. -/
theorem appendBlock_blocks {lo : ℕ} (hlay : Layout lo (l ++ [b])) (hlimit : hi ≤ 0xFFC00000)
    (hlo : lo % 8 = 0) (hhi : hi % 8 = 0) (hgrow : lo + 16 ≤ hi) (hblock : block.toNat = lo)
    (hA : ∀ x ∈ l ++ [b], HeaderIn A x.addr) (hnA : HeaderIn A lo) :
    Performs (HeapBlocks hi head) (StoredIn A) (l ++ [b]) (appendBlock block) block
      (l ++ [b, grownBlock lo hi]) := by
  have hext : Layout hi (l ++ [b, grownBlock lo hi]) := by
    have := hlay.extend hlo hhi hgrow
    simpa using this
  have hheader : headerSize.toNat = 16 := rfl
  have hlowest := hlay.placed.length_le
  rw [List.length_append, List.length_singleton] at hlowest
  have hblockAddr : HeaderAddr hi block :=
    hext.headerAddr hlimit (b := grownBlock lo hi) (by simp) hblock
  have hbAddr : ∀ t : BitVec 32, t.toNat = b.addr → HeaderAddr hi t :=
    fun t ht => hext.headerAddr hlimit (b := b) (by simp) ht
  have hbA : HeaderIn A b.addr := hA b (by simp)
  -- the first block of the list
  obtain ⟨c, r, hcr⟩ : ∃ c r, l ++ [b] = c :: r := by
    cases l with
    | nil => exact ⟨b, [], rfl⟩
    | cons c l => exact ⟨c, l ++ [b], rfl⟩
  have hlast : lastAddr c.addr r = b.addr := by
    have h := lastAddr_concat (l := l) (b := b) 0
    rw [hcr] at h
    exact h
  have hlen : r.length < listFuel := by
    have h := congrArg List.length hcr
    rw [List.length_append, List.length_singleton, List.length_cons] at h
    rw [listFuel]
    omega
  -- the end of the heap and the last block, as words
  let heapEnd : BitVec 32 := BitVec.ofNat 32 hi
  let tail : BitVec 32 := BitVec.ofNat 32 b.addr
  have hend : heapEnd.toNat = hi := by
    rw [BitVec.toNat_ofNat]
    omega
  have htail : tail.toNat = b.addr := by
    have := (hext.placed.mem (b := b) (by simp)).2
    rw [Block.stop] at this
    rw [BitVec.toNat_ofNat]
    omega
  have hsize : (heapEnd - block - headerSize).toNat = hi - lo - 16 := by
    rw [BitVec.toNat_sub_of_le, BitVec.toNat_sub_of_le, hend, hblock, hheader]
    · rw [BitVec.le_def, hend, hblock]
      omega
    · rw [BitVec.le_def, BitVec.toNat_sub_of_le, hend, hblock, hheader]
      · omega
      · rw [BitVec.le_def, hend, hblock]
        omega
  intro s hs
  have hhead := hs.head_first
  rw [hcr] at hhead
  refine performs_blocks (fun w hw => ?_) ?_ hext s hs
  rotate_left
  · rw [firstAddr_append, firstAddr_append]
    rfl
  have hlinked := hw.extend (n := grownBlock lo hi) hlay.placed (heapEnd - block - headerSize) 1 0 0
    block tail hsize (by simp [grownBlock]) rfl hblock htail
  have haddr : (grownBlock lo hi).addr = block.toNat := hblock.symm
  rw [haddr, ← htail] at hlinked
  refine ⟨_, Performs.get_bind fun t ht => ?_, hlinked⟩
  have hte : t.heapEnd = heapEnd := BitVec.eq_of_toNat_eq (ht.heapEnd_eq.trans hend.symm)
  rw [hte, ht.head_eq]
  have hw₁ : Linked BitVec.toNat (writeHeader w block.toNat (heapEnd - block - headerSize) 1 0 0) 0
      (c :: r) 0 := by
    rw [← hcr]
    refine hw.congr fun x hx o ho _ => ?_
    have hx' := (hlay.placed.mem hx).2
    rw [Block.stop] at hx'
    dsimp only [writeHeader]
    simp (disch := omega) only [Function.update_of_ne]
  have hlayc : Layout hi (c :: r) := hcr ▸ hlay.mono (by omega)
  have hfind : Performs (HeapView hi head) (StoredIn A) _ (findTail listFuel head)
      (BitVec.ofNat 32 (lastAddr c.addr r)) _ :=
    findTail_performs hlayc hlimit (fun x hx => hx) hw₁ hhead hlen
  rw [hlast] at hfind
  have hnA' : HeaderIn A block.toNat := hblock ▸ hnA
  exact (setSize_performs hblockAddr hnA' _).bind <| (setFree_performs hblockAddr hnA' 1).bind <|
    (setNext_performs hblockAddr hnA' 0).bind <| (setPrev_performs hblockAddr hnA' 0).bind <|
    hfind.bind <| (setNext_performs (hbAddr tail htail) (htail ▸ hbA) block).bind <|
    (setPrev_performs hblockAddr hnA' tail).bind (.pure block)

end Blocks

end AuriOS
