import AuriOS.Lib.HeapRequests

/-!
# A growth that wraps

A request for `0xFFFFF000` bytes makes `heap_grow` map no page: the size with its header wraps when
it is rounded to pages.  The block header still goes to `heap_end`, where a page fault backs it,
with the size `0 - HEADER_SIZE`; and `split_block` puts the remainder of that block a page below,
inside the payload of another block.  From then on the list is out of order, and `malloc` no longer
takes the lowest block that fits (`malloc_free_disorder`).
-/

namespace AuriOS

open Program BlockList RecursiveTable

/-! ### The page beyond the heap -/

/-- A store to an absent page of the heap's range backs the page first. -/
theorem store_faults {s : Machine} {va : BitVec 32} (h : HeapPages s)
    (hslot : HeapSlot (pdIndex va))
    (habsent : s.owner (pageOwner va) = none) (hfree : ¬ s.bitmap.Full) :
    ∃ a s', Backed s (va &&& 0xFFFFF000) a s' ∧ ∀ v, store va v s = store va v s' := by
  obtain ⟨hpd, -⟩ := Owner.leaf.inj (pageOwner_mask va)
  have htrans : s.translate va = none := by
    obtain ⟨hlo, hhi⟩ := heapSlot_toNat.mp hslot
    rw [owner_eq_translate h.paging hlo hhi] at habsent
    exact Option.map_eq_none_iff.mp habsent
  have hstart : heapStart ≤ va := BitVec.le_def.mpr (heapSlot_toNat.mp hslot).1
  rcases pmmAllocFrame_cases s.bitmap with ⟨hfull, -⟩ | ⟨a, bm, halloc, hall⟩
  · exact absurd hfull hfree
  have ha : a ≠ 0 := mt hall.frame_zero_iff.mpr (hall.frame_ne h.paging.zero_used)
  obtain ⟨n, hn⟩ : ∃ n, faultFuel = n + 2 := ⟨2 ^ 20 - 1, by rw [faultFuel]; rfl⟩
  obtain ⟨s', hmap, hb⟩ := mapFrame_ok (pageFault (n + 1)) h.paging (hpd ▸ hslot) hall
  have hfault : onFault va true s = .ok ((), s') := by
    rw [onFault, hn, pageFault, get_bind_apply,
      mmuHandlePageFaultWith_backs _ htrans hstart halloc ha]
    exact hmap
  refine ⟨a, s', hb, fun v => ?_⟩
  -- after the fault the instruction is restarted
  have hpage := hb.owner_page
  rw [pageOwner_mask] at hpage
  have htrans' := translate_of_owner hb.paging hpage
  have haccess : accessWith onFault faultFuel va true s = .ok (frameOf a, s') := by
    rw [hn, accessWith, get_bind_apply, htrans]
    exact (bind_of_ok hfault).trans (accessWith_ok onFault htrans' n true)
  rw [store_ok hb.paging hpage, store, storeWith, bind_of_ok haccess]
  rfl

/-- The words of the heap that ends at `0xD0010000`, with those of the page behind it. -/
def Beyond (head : BitVec 32) (s : Machine) (w : ℕ → BitVec 32) : Prop :=
  HeapView 0xD0011000 head { s with heapEnd := 0xD0011000 } w

instance (hi a : ℕ) : Decidable (HeapAddr hi a) :=
  decidable_of_iff (0xD0000000 ≤ a ∧ a < hi ∧ a % 4 = 0)
    ⟨fun h => ⟨h.1, h.2.1, h.2.2⟩, fun h => ⟨h.start_le, h.lt, h.aligned⟩⟩

section Beyond

variable {head : BitVec 32} {s : Machine} {w : ℕ → BitVec 32}

/-- With the page behind it the tables are as they should be. -/
theorem Beyond.paging (h : Beyond head s w) : Paging s :=
  h.pages.paging.of_tables rfl rfl rfl (fun _ hf => hf) rfl fun _ he => he

/-- A load at the address `a`. -/
theorem Beyond.load_eq (h : Beyond head s w) (va : BitVec 32) (a : ℕ) (hva : va.toNat = a)
    (ha : HeapAddr 0xD0011000 a) : load va s = .ok (w a, s) := by
  subst hva
  obtain ⟨f, hf, hword⟩ := HeapView.owner_addr h ha
  exact hword ▸ load_ok h.paging hf

/-- A load from the heap or from the page behind it reads its word. -/
theorem load_beyond (head : BitVec 32) (w : ℕ → BitVec 32) (va : BitVec 32) (a : ℕ)
    (hva : va.toNat = a) (ha : HeapAddr 0xD0011000 a) :
    Performs (Beyond head) SameEnd w (load va) (w a) w :=
  fun s hs => ⟨s, hs.load_eq va a hva ha, hs, rfl⟩

/-- A store at the address `a`. -/
theorem store_beyond (va : BitVec 32) (a : ℕ) (hva : va.toNat = a) (ha : HeapAddr 0xD0011000 a)
    (v : BitVec 32) :
    Performs (Beyond head) SameEnd w (store va v) () (Function.update w a v) := by
  subst hva
  intro s hs
  obtain ⟨f, hf, -⟩ := HeapView.owner_addr hs ha
  obtain ⟨t, hrun, hview, -⟩ := store_performs (A := Set.univ) ha trivial v _ hs
  rw [store_ok hs.pages.paging hf] at hrun
  obtain rfl := (Prod.mk.inj (Except.ok.inj hrun)).2
  exact ⟨_, store_ok hs.paging hf v, hview, rfl⟩

end Beyond

/-! ### The request -/

/-- The list before the request: a block in use and a small free one behind it. -/
def wrapBefore : List Block := [⟨0xD0000000, 0xFEF0, false⟩, ⟨0xD000FF00, 0xF0, true⟩]

/-- The list after it. -/
def wrapAfter : List Block :=
  wrapBefore ++ [⟨0xD0010000, 0xFFFFF000, false⟩, ⟨0xD000F010, 0xFE0, true⟩]

section Request

variable {w : ℕ → BitVec 32}

/-- `while (tail->next) tail = tail->next`, over two blocks. -/
theorem findTail_two (h0 : w 0xD0000008 = 0xD000FF00) (h1 : w 0xD000FF08 = 0) :
    Performs (Beyond 0xD0000000) SameEnd w (findTail listFuel 0xD0000000) 0xD000FF00 w := by
  obtain ⟨n, hn⟩ : ∃ n, listFuel = n + 2 := ⟨2 ^ 32 - 2, by rw [listFuel]; rfl⟩
  rw [hn]
  have hfirst := load_beyond 0xD0000000 w (0xD0000000 + 8) 0xD0000008 rfl (by decide)
  have hsecond := load_beyond 0xD0000000 w (0xD000FF00 + 8) 0xD000FF08 rfl (by decide)
  rw [h0] at hfirst
  rw [h1] at hsecond
  exact hfirst.bind <| Performs.ite_neg (by decide) <| hsecond.bind <|
    Performs.ite_pos rfl (.pure _)

/-- `malloc` takes the block at `heap_end`: the remainder lies below it. -/
theorem takeBlock_beyond (hsize : w 0xD0010000 = 0xFFFFFFF0) (hnext : w 0xD0010008 = 0) :
    Performs (Beyond 0xD0000000) SameEnd w (takeBlock 0xD0010000 0xFFFFF000) 0xD0010010
      (Function.update (Function.update (Function.update
        (writeHeader w 0xD000F010 0xFE0 1 0 0xD0010000) 0xD0010008 0xD000F010)
        0xD0010000 0xFFFFF000) 0xD0010004 0) := by
  have hread := load_beyond 0xD0000000 w 0xD0010000 0xD0010000 rfl (by decide)
  rw [hsize] at hread
  -- the next-pointer, while the remainder's header is written
  let w₂ := Function.update (Function.update w 0xD000F010 0xFE0) 0xD000F014 1
  have hfirst := load_beyond 0xD0000000 w₂ (0xD0010000 + 8) 0xD0010008 rfl (by decide)
  have hnext₂ : w₂ 0xD0010008 = 0 := by
    simp (disch := decide) only [w₂, Function.update_of_ne, hnext]
  rw [hnext₂] at hfirst
  let w₄ := Function.update (Function.update w₂ 0xD000F018 0) 0xD000F01C 0xD0010000
  have hsecond := load_beyond 0xD0000000 w₄ (0xD0010000 + 8) 0xD0010008 rfl (by decide)
  have hnext₄ : w₄ 0xD0010008 = 0 := by
    simp (disch := decide) only [w₄, Function.update_of_ne, hnext₂]
  rw [hnext₄] at hsecond
  have hnew : (0xD0010000 + headerSize + 0xFFFFF000 : BitVec 32) = 0xD000F010 := by decide
  have hrem : (0xFFFFFFF0 - 0xFFFFF000 - headerSize : BitVec 32) = 0xFE0 := by decide
  have hcut : Performs (Beyond 0xD0000000) SameEnd w
      (cutBlock 0xD0010000 0xFFFFF000 (0xFFFFFFF0 - 0xFFFFF000)) ()
      (Function.update (Function.update w₄ 0xD0010008 0xD000F010) 0xD0010000 0xFFFFF000) := by
    rw [cutBlock, hnew, hrem]
    exact (store_beyond 0xD000F010 0xD000F010 rfl (by decide) 0xFE0).bind <|
      (store_beyond (0xD000F010 + 4) 0xD000F014 rfl (by decide) 1).bind <| hfirst.bind <|
      (store_beyond (0xD000F010 + 8) 0xD000F018 rfl (by decide) 0).bind <|
      (store_beyond (0xD000F010 + 12) 0xD000F01C rfl (by decide) 0xD0010000).bind <|
      (hsecond.bind <| Performs.ite_pos rfl (.pure ())).bind <|
      (store_beyond (0xD0010000 + 8) 0xD0010008 rfl (by decide) 0xD000F010).bind <|
      store_beyond 0xD0010000 0xD0010000 rfl (by decide) 0xFFFFF000
  refine Performs.bind (a := ()) (hread.bind (Performs.ite_neg (by decide) hcut)) ?_
  exact (store_beyond (0xD0010000 + 4) 0xD0010004 rfl (by decide) 0).bind (.pure _)

/-- The words of the heap after the request. -/
def wrapWords (w : ℕ → BitVec 32) : ℕ → BitVec 32 :=
  -- the header at `heap_end`, as `heap_grow` writes it
  let w₁ := writeHeader w 0xD0010000 0xFFFFFFF0 1 0 0
  let w₂ := Function.update (Function.update w₁ 0xD000FF08 0xD0010000) 0xD001000C 0xD000FF00
  -- the header of the remainder, and what `malloc` writes to the block
  let w₃ := writeHeader w₂ 0xD000F010 0xFE0 1 0 0xD0010000
  let w₄ := Function.update (Function.update w₃ 0xD0010008 0xD000F010) 0xD0010000 0xFFFFF000
  Function.update w₄ 0xD0010004 0

/-- What `malloc` does after the page was backed. -/
theorem wrapped_performs (h0 : w 0xD0000008 = 0xD000FF00) (h1 : w 0xD000FF08 = 0) :
    Performs (Beyond 0xD0000000) SameEnd w (do
      let block ← (do
        setSize 0xD0010000 0xFFFFFFF0
        setFree 0xD0010000 1
        setNext 0xD0010000 0
        setPrev 0xD0010000 0
        let tail ← findTail listFuel 0xD0000000
        setNext tail 0xD0010000
        setPrev 0xD0010000 tail
        pure 0xD0010000)
      if block = 0 then pure 0 else takeBlock block 0xFFFFF000) 0xD0010010 (wrapWords w) := by
  -- `heap_grow` writes a header at `heap_end` and appends it
  have hfind := findTail_two (w := writeHeader w 0xD0010000 0xFFFFFFF0 1 0 0)
    (by simp (disch := decide) only [writeHeader, Function.update_of_ne, h0])
    (by simp (disch := decide) only [writeHeader, Function.update_of_ne, h1])
  refine Performs.bind (a := 0xD0010000)
    ((store_beyond 0xD0010000 0xD0010000 rfl (by decide) _).bind <|
      (store_beyond (0xD0010000 + 4) 0xD0010004 rfl (by decide) _).bind <|
      (store_beyond (0xD0010000 + 8) 0xD0010008 rfl (by decide) _).bind <|
      (store_beyond (0xD0010000 + 12) 0xD001000C rfl (by decide) _).bind <| hfind.bind <|
      (store_beyond (0xD000FF00 + 8) 0xD000FF08 rfl (by decide) _).bind <|
      (store_beyond (0xD0010000 + 12) 0xD001000C rfl (by decide) _).bind <| .pure _)
    (Performs.ite_neg (by decide) ?_)
  refine takeBlock_beyond ?_ ?_
  · simp (disch := decide) only [writeHeader, Function.update_of_ne, Function.update_self]
  · simp (disch := decide) only [writeHeader, Function.update_of_ne, Function.update_self]

/-- The list after the request is out of order. -/
theorem wrapWords_linked (h : Linked BitVec.toNat w 0 wrapBefore 0) :
    Linked BitVec.toNat (wrapWords w) 0 wrapAfter 0 := by
  obtain ⟨hH, hR, -⟩ := h
  refine ⟨⟨?_, ?_, ?_, ?_⟩, ⟨?_, ?_, ?_, ?_⟩, ⟨?_, ?_, ?_, ?_⟩, ⟨?_, ?_, ?_, ?_⟩, trivial⟩
  all_goals
    simp (disch := decide) only [wrapWords, writeHeader, Function.update_of_ne,
      Function.update_self]
  · exact hH.size_eq
  · exact hH.free_iff
  · exact hH.next_eq
  · exact hH.prev_eq
  · exact hR.size_eq
  · exact iff_of_true (hR.free_iff.mpr rfl) trivial
  · rfl
  · exact hR.prev_eq
  all_goals first | rfl | decide

/-- **The request** on a heap of sixteen pages. -/
theorem malloc_wrapped {s : Machine} (h : HeapInv s wrapBefore) (hend : s.heapEnd = 0xD0010000)
    (habsent : s.owner (pageOwner 0xD0010000) = none) (hfree : ¬ s.bitmap.Full) :
    ∃ s' w, malloc 0xFFFFF000 s = .ok (0xD0010010, s') ∧ Beyond 0xD0000000 s' w ∧
      Linked BitVec.toNat w 0 wrapAfter 0 := by
  have hhead : s.head = 0xD0000000 := BitVec.eq_of_toNat_eq h.blocks.head_first
  have hround : alignUp 0xFFFFF000 8 = 0xFFFFF000 := by decide
  have hpages : growPages (0xFFFFF000 + headerSize) = 0 := by decide
  have hnone : ∀ x ∈ wrapBefore, ¬ Fits (0xFFFFF000 : BitVec 32).toNat x := by decide
  -- no block fits, and no page is mapped
  have hloop : malloc 0xFFFFF000 s = mallocGrow 0xFFFFF000 s := by
    rw [malloc, if_neg (by decide), get_bind_apply, hround]
    rcases mallocLoop_eq 0xFFFFF000 (l := []) h.blocks h.blocks.head_first h.length_lt with
      ⟨l, b, r, -, hbs, -, hfits, -⟩ | ⟨-, heq⟩
    · have hb : b ∈ l ++ b :: r := by simp
      rw [← hbs] at hb
      exact absurd hfits (hnone b hb)
    · exact heq
  have hgrow : heapGrow (0xFFFFF000 + headerSize) s = appendBlock 0xD0010000 s := by
    rw [heapGrow, get_bind_apply, hpages, hend]
    rfl
  have hsize : (0xD0010000 - 0xD0010000 - headerSize : BitVec 32) = 0xFFFFFFF0 := by decide
  -- the first store backs the page
  have hslot : HeapSlot (pdIndex 0xD0010000) := by decide
  obtain ⟨a, t, hb, hstore⟩ := store_faults h.blocks.pages hslot habsent hfree
  have hmask : (0xD0010000 &&& 0xFFFFF000 : BitVec 32) = 0xD0010000 := by decide
  rw [hmask] at hb
  have hview : Beyond 0xD0000000 t t.heapWord := by
    have hpage : HeapPages { t with heapEnd := s.heapEnd + BitVec.ofNat 32 pageSize } :=
      heapPages_page h.blocks.pages (hend.symm ▸ hslot) (hend.symm ▸ hb)
    have hnext : s.heapEnd + BitVec.ofNat 32 pageSize = 0xD0011000 := by
      rw [hend]
      decide
    exact ⟨hnext ▸ hpage, rfl, hb.head_eq.trans hhead, fun _ _ => rfl⟩
  have hlinked : Linked BitVec.toNat t.heapWord 0 wrapBefore 0 := by
    refine h.blocks.linked.congr fun b hbmem o ho hmod => ?_
    obtain ⟨hlo, hstop⟩ := h.blocks.layout.placed.mem hbmem
    have := (h.blocks.layout.aligned b hbmem).1
    rw [Block.stop] at hstop
    exact hb.heapWord h.blocks.pages habsent ⟨by omega, by omega, by omega⟩
  obtain ⟨s', hrun, hview', -⟩ := wrapped_performs (BitVec.eq_of_toNat_eq hlinked.1.next_eq)
    (BitVec.eq_of_toNat_eq hlinked.2.1.next_eq) t hview
  refine ⟨s', _, ?_, hview', wrapWords_linked hlinked⟩
  rw [hloop, mallocGrow, bind_of_eq _ hgrow, ← hrun]
  refine bind_of_eq _ ?_
  rw [appendBlock, get_bind_apply, hend, hhead, hsize]
  exact bind_of_eq _ (hstore 0xFFFFFFF0)

/-- The list of a heap that is seen with the page behind it. -/
theorem Beyond.listIs {s : Machine} (h : Beyond 0xD0000000 s w)
    (hlinked : Linked BitVec.toNat w 0 wrapAfter 0) : ListIs s wrapAfter := by
  have hrange : ∀ b ∈ wrapAfter, 0xD0000000 ≤ b.addr ∧ b.addr + 16 ≤ 0xD0011000 ∧
      b.addr % 4 = 0 := by decide
  refine ⟨?_, hlinked.congr fun b hb o ho hmod => ?_, by decide⟩
  · have hhead : s.head = 0xD0000000 := h.head_eq
    rw [hhead]
    rfl
  · obtain ⟨hlo, hhi, halign⟩ := hrange b hb
    exact h.word_eq _ ⟨by omega, by omega, by omega⟩

/-- The next request takes the small block, which comes first in the list. -/
theorem malloc_disordered {s : Machine} (h : Beyond 0xD0000000 s w)
    (hlinked : Linked BitVec.toNat w 0 wrapAfter 0) :
    malloc 100 s = takeBlock 0xD000FF00 104 s := by
  obtain ⟨hH, hR, -⟩ := hlinked
  have hhead : s.head = 0xD0000000 := h.head_eq
  have hround : alignUp 100 8 = 104 := by decide
  obtain ⟨n, hn⟩ : ∃ n, listFuel = n + 2 := ⟨2 ^ 32 - 2, by rw [listFuel]; rfl⟩
  -- the first block is in use
  have hused : w 0xD0000004 = 0 := by
    by_contra hne
    have hfree := hH.free_iff.mp fun h0 => hne (BitVec.eq_of_toNat_eq h0)
    exact absurd hfree (by decide)
  have hfits : blockFits 0xD0000000 104 s = .ok (false, s) := by
    rw [blockFits, getFree, bind_of_ok (h.load_eq _ 0xD0000004 rfl (by decide)), if_pos hused]
    rfl
  have hnext : getNext 0xD0000000 s = .ok (0xD000FF00, s) := by
    rw [getNext, h.load_eq _ 0xD0000008 rfl (by decide)]
    rw [show w 0xD0000008 = 0xD000FF00 from BitVec.eq_of_toNat_eq hH.next_eq]
  -- the second one is free and large enough
  have hfree : w 0xD000FF04 ≠ 0 := fun h0 => hR.free_iff.mpr rfl (congrArg BitVec.toNat h0)
  have hsize : w 0xD000FF00 = 0xF0 := BitVec.eq_of_toNat_eq hR.size_eq
  have hfits' : blockFits 0xD000FF00 104 s = .ok (true, s) := by
    rw [blockFits, getFree, bind_of_ok (h.load_eq _ 0xD000FF04 rfl (by decide)), if_neg hfree,
      getSize, bind_of_ok (h.load_eq _ 0xD000FF00 rfl (by decide)), hsize]
    rfl
  rw [malloc, if_neg (by decide), get_bind_apply, hround, hhead, hn, mallocLoop,
    if_neg (by decide), bind_of_ok hfits, if_neg (by decide), bind_of_ok hnext, mallocLoop,
    if_neg (by decide), bind_of_ok hfits', if_pos rfl]

/-- In the disordered list there is a block for a request of 100 bytes. -/
theorem not_grows_disordered {s : Machine} (h : ListIs s wrapAfter) : ¬ s.Grows 100 := by
  have hround : (alignUp 100 8).toNat = 104 := by decide
  have hhead : s.head.toNat = 0xD0000000 := h.head
  obtain ⟨hH, hR, -⟩ := h.linked
  have hnext : (s.heapWord (0xD0000000 + 8)).toNat = 0xD000FF00 := hH.next_eq
  have hused : ¬ (s.heapWord (0xD0000000 + 4)).toNat ≠ 0 := fun h0 =>
    absurd (hH.free_iff.mp h0) (by decide)
  have hsize : (s.heapWord 0xD000FF00).toNat = 0xF0 := hR.size_eq
  obtain ⟨n, hn⟩ : ∃ n, listFuel = n + 2 := ⟨2 ^ 32 - 2, by rw [listFuel]; rfl⟩
  rw [Machine.Grows, hround, hhead, hn, Machine.findFit, if_neg (by decide),
    if_neg fun hc => hused hc.1, hnext, Machine.findFit, if_neg (by decide),
    if_pos ⟨hR.free_iff.mpr rfl, by omega⟩]
  simp

/-- That block is not the lowest one that fits. -/
theorem not_roundTrip_disordered {s : Machine} (h : Beyond 0xD0000000 s w)
    (hlinked : Linked BitVec.toNat w 0 wrapAfter 0) : ¬ RoundTrip s wrapAfter 100 := by
  have hround : (alignUp 100 8).toNat = 104 := by decide
  rintro ⟨b, hb, hfits, hlowest, p, s', s'', hrun, hp, -⟩
  rw [hround] at hfits hlowest
  have hlast : b.addr ≤ 0xD000F010 := hlowest ⟨0xD000F010, 0xFE0, true⟩ (by decide) ⟨rfl, by decide⟩
  have hcases : ∀ c ∈ wrapAfter, Fits 104 c → c.addr ≤ 0xD000F010 → c.addr = 0xD000F010 := by
    decide
  have haddr := hcases b hb hfits hlast
  rw [malloc_disordered h hlinked] at hrun
  have hret := takeBlock_returns _ _ _ _ _ hrun
  rw [hret, Block.payload, haddr] at hp
  exact absurd hp (by decide)

end Request

/-- The first request leaves a small free block at the end of the heap. -/
theorem malloc_wrapBefore {s : Machine} (h : HeapInv s [firstBlock]) :
    ∃ p s', malloc 0xFEF0 s = .ok (p, s') ∧ HeapInv s' wrapBefore ∧
      StoredIn (outside [firstBlock]) s s' := by
  have hfits : Fits (alignUp 0xFEF0 8).toNat firstBlock := ⟨rfl, by decide⟩
  obtain ⟨p, s', bs', hrun, hres, hinv⟩ := malloc_result h (show (0xFEF0 : BitVec 32) ≠ 0 by decide)
    fun hnone => absurd hfits (hnone _ (List.mem_singleton_self _))
  obtain ⟨rfl, -, hst⟩ := hres.first hfits
  have htaken : taken firstBlock (alignUp 0xFEF0 8).toNat = wrapBefore := by decide
  exact ⟨p, s', hrun, htaken ▸ hinv, hst⟩

/-- **After a growth that wraps** `malloc` does not take the lowest block that fits. -/
theorem malloc_free_disorder :
    ∃ s₀ s, ∃ live : Live, startMemory (.boot smallBitmap fun _ _ => 0) = .ok ((), s₀) ∧
      Relation.ReflTransGen (MemoryCall (fun _ _ => True) fun _ _ => False) (s₀, fun _ => none)
        (s, live) ∧
      ¬ ∃ bs, ListIs s bs ∧ ∀ size : BitVec 32, size ≠ 0 → size.toNat + 7 < 2 ^ 32 →
        ¬ s.Grows size → RoundTrip s bs size := by
  obtain ⟨s₀, hstart, hstarted⟩ := smallBitmap_started
  obtain ⟨hinv₀, hend₀⟩ := startMemory_heap hstart hstarted.head_ne
  obtain ⟨p, s₁, hrun₁, hinv₁, hst⟩ := malloc_wrapBefore hinv₀
  have hend : s₁.heapEnd = 0xD0010000 := hst.heapEnd_eq.trans (BitVec.eq_of_toNat_eq hend₀)
  have habsent : s₁.owner (pageOwner 0xD0010000) = none :=
    hst.owner_eq ▸ hstarted.owner_none _ (by decide)
  obtain ⟨s₂, w, hrun₂, hview, hlinked⟩ := malloc_wrapped hinv₁ hend habsent
    (hst.bitmap_eq ▸ hstarted.not_full (by decide))
  refine ⟨s₀, s₂, _, hstart, (Relation.ReflTransGen.single (.malloc 0xFEF0 p trivial hrun₁)).tail
    (.malloc 0xFFFFF000 0xD0010010 trivial hrun₂), ?_⟩
  have hlist := hview.listIs hlinked
  rintro ⟨bs, hbs, hall⟩
  obtain rfl := hbs.unique hlist
  exact not_roundTrip_disordered hview hlinked
    (hall 100 (by decide) (by decide) (not_grows_disordered hlist))

end AuriOS
