import AuriOS.Lib.HeapBlocks

/-!
# The invariant of the heap

`HeapInv s bs`: the list from `head` on is `bs`, well linked and placed, and no two adjacent blocks
are both free.  `malloc` and `free` keep it, and always return:

* `malloc_result`: a block that fits is taken (`MallocResult.fit`), or the heap grows and the new
  block is taken (`grow`), or the allocator ran out of frames on the way and the list is what it
  was (`fail`);
* `free_result`: the block is freed and joined with its neighbours (`freed`).
-/

namespace AuriOS

open Program BlockList RecursiveTable

/-- The heap's list is `bs`. -/
structure HeapInv (s : Machine) (bs : List Block) : Prop where
  blocks : HeapBlocks s.heapEnd.toNat s.head s bs
  separated : Separated bs
  /-- The list is empty only when `memory_init` failed. -/
  full_of_nil : bs = [] → s.bitmap.Full

/-- The list has fewer blocks than a walk along it may visit. -/
theorem HeapInv.length_lt {s : Machine} {bs : List Block} (h : HeapInv s bs) :
    bs.length < listFuel := by
  have := h.blocks.layout.placed.length_le
  have := h.blocks.limit
  rw [listFuel]
  omega

/-- The word addresses outside the payloads of the blocks in use. -/
def outside (bs : List Block) : Set ℕ :=
  {a | ∀ b ∈ usedBlocks bs, a + 4 ≤ b.payload ∨ b.stop ≤ a}

/-- The used blocks are those that are not free. -/
theorem mem_usedBlocks {bs : List Block} {b : Block} :
    b ∈ usedBlocks bs ↔ b ∈ bs ∧ b.free = false := by
  rw [usedBlocks, List.mem_filter, Bool.not_eq_true']

section Outside

variable {hi : ℕ} {bs us : List Block} {b : Block}

/-- Headers lie outside the payloads. -/
theorem Layout.header_outside (h : Layout hi bs) (hb : b ∈ bs) (hus : ∀ u ∈ us, u ∈ bs) :
    HeaderIn (outside us) b.addr := by
  intro o ho hmod u hu
  rw [Block.payload]
  rcases h.placed.apart_of_mem hb (hus u (mem_usedBlocks.mp hu).1) with rfl | hlt | hlt
  · omega
  · rw [Block.stop] at hlt
    omega
  · omega

/-- A free block lies outside the payloads of the blocks in use. -/
theorem Layout.free_outside (h : Layout hi bs) (hb : b ∈ bs) (hfree : b.free = true) {a : ℕ}
    (hlo : b.addr ≤ a) (hhi : a + 4 ≤ b.stop) : a ∈ outside bs := by
  intro u hu
  obtain ⟨humem, hused⟩ := mem_usedBlocks.mp hu
  rw [Block.payload]
  rcases h.placed.apart_of_mem hb humem with rfl | hlt | hlt
  · rw [hfree] at hused
    exact absurd hused (by simp)
  · omega
  · omega

/-- Everything from the end of the heap on lies outside the payloads. -/
theorem Layout.end_outside (h : Layout hi bs) {a : ℕ} (ha : hi ≤ a) : a ∈ outside bs := by
  intro u hu
  have := (h.placed.mem (mem_usedBlocks.mp hu).1).2
  omega

end Outside

/-! ### Searching the list -/

/-- The block satisfies a request for `size` bytes. -/
def Fits (size : ℕ) (b : Block) : Prop := b.free = true ∧ size ≤ b.size

instance (size : ℕ) : DecidablePred (Fits size) := fun _ => inferInstanceAs (Decidable (_ ∧ _))

section Search

variable {hi : ℕ} {head block size : BitVec 32} {l r : List Block} {b : Block} {s : Machine}

/-- The test finds out whether the block fits. -/
theorem blockFits_eq (h : HeapBlocks hi head s (l ++ b :: r)) (hblock : block.toNat = b.addr) :
    blockFits block size s = .ok (decide (Fits size.toNat b), s) := by
  obtain ⟨free, hrun, hfree⟩ := h.getFree_eq hblock
  rw [blockFits, bind_of_ok hrun]
  by_cases h0 : free = 0
  · rw [if_pos h0, pure_apply, decide_eq_false]
    intro hc
    rw [Fits, hfree.mp h0] at hc
    exact absurd hc.1 (by simp)
  · obtain ⟨v, hrunv, hv⟩ := h.getSize_eq hblock
    have hbfree : b.free = true := Bool.not_eq_false _ ▸ mt hfree.mpr h0
    rw [if_neg h0, bind_of_ok hrunv, pure_apply]
    have hiff : size ≤ v ↔ Fits size.toNat b := by
      rw [Fits, BitVec.le_def, hv]
      exact (and_iff_right hbfree).symm
    rw [decide_eq_decide.mpr hiff]

/-- The loop of `malloc` takes the first block that fits, or lets the heap grow. -/
theorem mallocLoop_eq (size : BitVec 32) (h : HeapBlocks hi head s (l ++ r))
    (hblock : block.toNat = firstAddr r 0)
    {n : ℕ} (hn : r.length < n) :
    (∃ l' b r' block', r = l' ++ b :: r' ∧ (∀ x ∈ l', ¬ Fits size.toNat x) ∧ Fits size.toNat b ∧
        block'.toNat = b.addr ∧ mallocLoop size n block s = takeBlock block' size s) ∨
      ((∀ x ∈ r, ¬ Fits size.toNat x) ∧ mallocLoop size n block s = mallocGrow size s) := by
  induction r generalizing l block n with
  | nil =>
    obtain ⟨n, rfl⟩ : ∃ m, n = m + 1 := ⟨n - 1, by omega⟩
    refine Or.inr ⟨by simp, ?_⟩
    rw [mallocLoop, if_pos (BitVec.eq_of_toNat_eq (y := 0) hblock)]
  | cons b r ih =>
    obtain ⟨n, rfl⟩ : ∃ m, n = m + 1 := ⟨n - 1, by omega⟩
    replace hblock : block.toNat = b.addr := hblock
    have hb0 := (h.layout.placed.mem (b := b) (by simp)).1
    have hne : block ≠ 0 := by
      rintro rfl
      change 0 = _ at hblock
      omega
    rw [mallocLoop, if_neg hne, bind_of_ok (blockFits_eq h hblock)]
    by_cases hfits : Fits size.toNat b
    · refine Or.inl ⟨[], b, r, block, rfl, by simp, hfits, hblock, ?_⟩
      rw [decide_eq_true hfits]
      rfl
    · obtain ⟨next, hrun, hnext⟩ := h.getNext_eq hblock
      rw [decide_eq_false hfits]
      have hstep : (do
          let next ← getNext block
          mallocLoop size n next : Kernel (BitVec 32)) s = mallocLoop size n next s :=
        bind_of_ok hrun
      have happ : l ++ b :: r = (l ++ [b]) ++ r := by simp
      rw [happ] at h
      rcases ih h hnext (Nat.lt_of_succ_lt_succ hn) with
        ⟨l', c, r', block', hr, hl', hc, hblock', heq⟩ | ⟨hnone, heq⟩
      · refine Or.inl ⟨b :: l', c, r', block', by rw [hr]; rfl, ?_, hc, hblock', hstep.trans heq⟩
        intro x hx
        rcases List.mem_cons.mp hx with rfl | hx
        · exact hfits
        · exact hl' x hx
      · refine Or.inr ⟨?_, hstep.trans heq⟩
        intro x hx
        rcases List.mem_cons.mp hx with rfl | hx
        · exact hfits
        · exact hnone x hx

end Search

/-! ### Rounding -/

section Rounding

/-- Clearing the low bits rounds down. -/
theorem and_mask_toNat (x m : BitVec 32) (k : ℕ) (hm : ∀ i < 32, m.getLsbD i = decide (k ≤ i)) :
    (x &&& m).toNat = x.toNat / 2 ^ k * 2 ^ k := by
  have hshift : x &&& m = (x >>> k) <<< k := by
    apply BitVec.eq_of_getLsbD_eq
    intro i hi
    rw [BitVec.getLsbD_and, hm i hi, BitVec.getLsbD_shiftLeft, BitVec.getLsbD_ushiftRight]
    by_cases hk : k ≤ i
    · rw [Nat.add_sub_cancel' hk]
      simp [hk, hi, Nat.not_lt.mpr hk]
    · simp [hk, Nat.lt_of_not_le hk]
  have hle : x.toNat / 2 ^ k * 2 ^ k ≤ x.toNat := Nat.div_mul_le_self _ _
  have hlt := x.isLt
  rw [hshift, BitVec.toNat_shiftLeft, BitVec.toNat_ushiftRight, Nat.shiftRight_eq_div_pow,
    Nat.shiftLeft_eq, Nat.mod_eq_of_lt (by omega)]

/-- The request, rounded up to a multiple of 8. -/
theorem alignUp_eight (size : BitVec 32) :
    (alignUp size 8).toNat = (size.toNat + 7) % 2 ^ 32 / 8 * 8 := by
  have h7 : (8 - 1 : BitVec 32).toNat = 7 := rfl
  rw [alignUp, and_mask_toNat _ _ 3 (by decide), BitVec.toNat_add, h7]
  rfl

/-- A rounded request is a multiple of eight. -/
theorem alignUp_eight_mod (size : BitVec 32) : (alignUp size 8).toNat % 8 = 0 := by
  rw [alignUp_eight]
  omega

/-- The growth has the pages that the source computes, with its wrap. -/
theorem growPages_toNat (needed : BitVec 32) :
    growPages needed = (needed.toNat + 4095) % 2 ^ 32 / 4096 := by
  have h4095 : (4096 - 1 : BitVec 32).toNat = 4095 := rfl
  have h4096 : (4096 : BitVec 32).toNat = 4096 := rfl
  rw [growPages, BitVec.toNat_udiv, alignUp, and_mask_toNat _ _ 12 (by decide), BitVec.toNat_add,
    h4095, h4096]
  omega

/-- The number of pages the heap grows by. -/
theorem growPages_eq {needed : BitVec 32} (h : needed.toNat + 4095 < 2 ^ 32) :
    growPages needed = (needed.toNat + 4095) / 4096 := by
  rw [growPages_toNat, Nat.mod_eq_of_lt h]

end Rounding

/-! ### Taking a block -/

section Taken

/-- The block that `malloc` hands out when it takes `b`. -/
def takenBlock (b : Block) (size : ℕ) : Block where
  addr := b.addr
  size := if b.size - size < 32 then b.size else size
  free := false

variable {l r : List Block} {b : Block} {size lo hi : ℕ}

/-- A taken block is followed by its remainder, when that is worth a block. -/
theorem taken_eq (b : Block) (size : ℕ) :
    taken b size = takenBlock b size :: if b.size - size < 32 then [] else [b.remainder size] := by
  rw [taken, takenBlock]
  split <;> rfl

/-- A taken block has room for the request. -/
theorem le_takenBlock_size (h : size ≤ b.size) : size ≤ (takenBlock b size).size := by
  rw [takenBlock]
  dsimp only
  split
  · exact h
  · exact le_rfl

/-- Taking a block adds it to the used ones. -/
theorem usedBlocks_taken :
    usedBlocks (l ++ (taken b size ++ r)) = usedBlocks l ++ takenBlock b size :: usedBlocks r := by
  rw [taken_eq, List.cons_append, usedBlocks_append_cons]
  have hfree : (takenBlock b size).free = false := rfl
  rw [hfree, if_neg (by simp), List.append_assoc, List.singleton_append]
  split <;> simp [usedBlocks, Block.remainder]

/-- Taking a free block keeps the free blocks separated. -/
theorem separated_taken (hl : Separated l) (hhead : ∀ y ∈ r.head?, Apart b y)
    (hfree : b.free = true) (hr : Separated r) : Separated (l ++ (taken b size ++ r)) := by
  have hused : (takenBlock b size).free = false := rfl
  rw [taken_eq, List.cons_append]
  refine separated_append_cons.mpr ⟨hl, fun x _ => apart_used hused x,
    fun y _ => apart_of_used hused y, ?_⟩
  split
  · exact hr
  · next hbig =>
    refine List.isChain_cons.mpr ⟨fun y hy hc => hhead y hy ⟨hfree, hc.2.1, ?_⟩, hr⟩
    rw [← hc.2.2]
    simp only [Block.stop, Block.remainder]
    omega

/-- Taking a block leaves no gap. -/
theorem tiled_taken (h : Tiled lo (l ++ b :: r) hi) : Tiled lo (l ++ (taken b size ++ r)) hi := by
  obtain ⟨hl, hr⟩ := tiled_append_cons.mp h
  rw [taken_eq, List.cons_append]
  refine tiled_append_cons.mpr ⟨hl, ?_⟩
  split
  · next hsmall =>
    have hstop : (takenBlock b size).stop = b.stop := by
      simp only [takenBlock, Block.stop, if_pos hsmall]
    rw [hstop]
    exact hr
  · next hbig =>
    have hstop : (b.remainder size).stop = b.stop := by
      simp only [Block.stop, Block.remainder]
      omega
    refine ⟨?_, ?_⟩
    · simp only [takenBlock, Block.stop, if_neg hbig, Block.remainder]
    · rw [hstop]
      exact hr

end Taken

/-! ### `malloc` -/

/-- The number of pages the heap grows by for a request. -/
abbrev pagesFor (size : BitVec 32) : ℕ := growPages (alignUp size 8 + headerSize)

/-- How a call of `malloc` with a request rounded to `size` ends: `p` is its result and `bs'` the
list it leaves. -/
inductive MallocResult (s : Machine) (bs : List Block) (size pages : ℕ) :
    BitVec 32 → Machine → List Block → Prop
  /-- The first block that fits is taken. -/
  | fit {l r : List Block} {b : Block} {p : BitVec 32} {s' : Machine} : bs = l ++ b :: r →
      (∀ x ∈ l, ¬ Fits size x) → Fits size b → p.toNat = b.payload → StoredIn (outside bs) s s' →
      MallocResult s bs size pages p s' (l ++ (taken b size ++ r))
  /-- No block fits; the heap grows and the new block is taken. -/
  | grow {p : BitVec 32} {s₁ s' : Machine} : (∀ x ∈ bs, ¬ Fits size x) →
      size + 16 ≤ 4096 * pages → Grown pages s s₁ → p.toNat = s.heapEnd.toNat + 16 →
      StoredIn (outside bs) s₁ s' →
      MallocResult s bs size pages p s'
        (bs ++ taken (grownBlock s.heapEnd.toNat s₁.heapEnd.toNat) size)
  /-- No block fits, and the allocator runs out of frames. -/
  | fail {k : ℕ} {s₁ : Machine} : (∀ x ∈ bs, ¬ Fits size x) → k < pages → Grown k s s₁ →
      s₁.bitmap.Full →
      MallocResult s bs size pages 0 { s₁ with trace := .alloc 0 :: s₁.trace } bs

section Malloc

variable {s s' : Machine} {bs l r : List Block} {b : Block} {size : BitVec 32}

/-- The blocks of the heap are those up to its own end. -/
theorem HeapBlocks.self {hi : ℕ} {head : BitVec 32} (h : HeapBlocks hi head s bs) :
    HeapBlocks s.heapEnd.toNat s.head s bs := by
  rw [h.heapEnd_eq, h.head_eq]
  exact h

/-- A block that fits is taken. -/
theorem takeBlock_result (h : HeapInv s (l ++ b :: r)) {block : BitVec 32}
    (hfits : Fits size.toNat b) (hmod : size.toNat % 8 = 0) (hblock : block.toNat = b.addr) :
    ∃ p s', takeBlock block size s = .ok (p, s') ∧ p.toNat = b.payload ∧
      StoredIn (outside (l ++ b :: r)) s s' ∧ HeapInv s' (l ++ (taken b size.toNat ++ r)) := by
  have hlay := h.blocks.layout
  have hheader : headerSize.toNat = 16 := rfl
  have hmem : b ∈ l ++ b :: r := by simp
  obtain ⟨s', hrun, hblocks, hst⟩ := takeBlock_blocks hlay h.blocks.limit
    (fun x hx => hlay.header_outside hx fun _ hu => hu)
    (fun a hlo hhi => hlay.free_outside hmem hfits.1 hlo hhi) hblock hfits.2 hmod s h.blocks
  refine ⟨_, s', hrun, ?_, hst, ⟨hblocks.self, ?_, ?_⟩⟩
  · have hstop := (hlay.placed.mem hmem).2
    have := h.blocks.limit
    rw [Block.stop] at hstop
    rw [BitVec.toNat_add, hheader, hblock, Block.payload]
    omega
  · obtain ⟨hl, -, hhead, hr⟩ := separated_append_cons.mp h.separated
    exact separated_taken hl hhead hfits.1 hr
  · rw [taken_eq]
    simp

/-- `mallocGrow` after a growth that succeeded. -/
theorem mallocGrow_result {n : ℕ} {s₁ : Machine} (h : HeapInv s bs)
    (hn : size.toNat + 16 ≤ 4096 * n) (hmod : size.toNat % 8 = 0) (hg : Grown n s s₁)
    (hrun : heapMapPages (growPages (size + headerSize)) s = .ok (true, s₁)) :
    ∃ p s', mallocGrow size s = .ok (p, s') ∧ p.toNat = s.heapEnd.toNat + 16 ∧
      StoredIn (outside bs) s₁ s' ∧
      HeapInv s' (bs ++ taken (grownBlock s.heapEnd.toNat s₁.heapEnd.toNat) size.toNat) := by
  have hlay := h.blocks.layout
  have hlimit := h.blocks.limit
  have hheader : headerSize.toNat = 16 := rfl
  have hpages₁ := hg.heapPages h.blocks.pages
  have hend := hg.heapEnd_eq h.blocks.pages
  have haligned := h.blocks.pages.aligned
  have haligned₁ := hpages₁.aligned
  have hstart := h.blocks.pages.start_le
  have hblocks₁ : HeapBlocks s₁.heapEnd.toNat s.head s₁ bs :=
    h.blocks.carry hpages₁ rfl (by omega) hg.head_eq fun a ha => hg.heapWord h.blocks.pages ha
  -- the list has a last block
  have hne : bs ≠ [] := by
    intro hnil
    have hfull := h.full_of_nil hnil
    cases hg with
    | done => omega
    | page _ hb _ =>
      obtain ⟨bm, hall, -⟩ := hb.bitmap
      exact hall.not_full hfull
  obtain ⟨l, t, rfl⟩ : ∃ l t, bs = l ++ [t] := by
    rcases List.eq_nil_or_concat bs with hnil | ⟨l, t, hcat⟩
    · exact absurd hnil hne
    · exact ⟨l, t, hcat.trans List.concat_eq_append⟩
  let block := grownBlock s.heapEnd.toNat s₁.heapEnd.toNat
  have hext : Layout s₁.heapEnd.toNat ((l ++ [t]) ++ block :: []) :=
    hlay.extend (by omega) (by omega) (by omega)
  have hA : ∀ x ∈ (l ++ [t]) ++ block :: [], HeaderIn (outside (l ++ [t])) x.addr :=
    fun x hx => hext.header_outside hx fun u hu => List.mem_append_left _ hu
  have hgrow : heapGrow (size + headerSize) s = appendBlock s.heapEnd s₁ := by
    rw [heapGrow, get_bind_apply, bind_of_ok hrun]
    rfl
  have happend : Performs (HeapBlocks s₁.heapEnd.toNat s.head) (StoredIn (outside (l ++ [t])))
      (l ++ [t]) (appendBlock s.heapEnd) s.heapEnd (l ++ [t, block]) :=
    appendBlock_blocks hlay hpages₁.le_window (by omega) (by omega) (by omega) rfl
      (fun x hx => hA x (List.mem_append_left _ hx)) (hA block (by simp))
  have hcat : l ++ [t, block] = (l ++ [t]) ++ block :: [] := by simp
  rw [hcat] at happend
  have htake : Performs (HeapBlocks s₁.heapEnd.toNat s.head) (StoredIn (outside (l ++ [t])))
      ((l ++ [t]) ++ block :: []) (takeBlock s.heapEnd size) (s.heapEnd + headerSize)
      ((l ++ [t]) ++ (taken block size.toNat ++ [])) :=
    takeBlock_blocks hext hpages₁.le_window hA (fun a hlo _ => hlay.end_outside hlo) rfl
      (by simp only [block, grownBlock]; omega) hmod
  have h0 : s.heapEnd ≠ 0 := by
    intro h0
    rw [h0] at hstart
    exact absurd hstart (by decide)
  obtain ⟨s', hrun', hblocks', hst⟩ := happend.bind
    (f := fun block => if block = 0 then pure 0 else takeBlock block size)
    (Performs.ite_neg h0 htake) s₁ hblocks₁
  refine ⟨_, s', (bind_of_eq _ hgrow).trans hrun', ?_, hst, ⟨?_, ?_, by rw [taken_eq]; simp⟩⟩
  · have := hpages₁.le_window
    rw [BitVec.toNat_add, hheader]
    omega
  · have hself := hblocks'.self
    rw [List.append_nil] at hself
    exact hself
  · have hsep : Separated ((l ++ [t]) ++ (taken block size.toNat ++ [])) :=
      separated_taken h.separated (by simp) rfl List.isChain_nil
    rw [List.append_nil] at hsep
    exact hsep

/-- **`malloc` returns, and keeps the invariant.** -/
theorem malloc_result (h : HeapInv s bs) (h0 : size ≠ 0)
    (hgrow : (∀ x ∈ bs, ¬ Fits (alignUp size 8).toNat x) →
      (alignUp size 8).toNat + 16 + 4095 < 2 ^ 32 ∧
        GrowthStays s (pagesFor size)) :
    ∃ p s' bs', malloc size s = .ok (p, s') ∧
      MallocResult s bs (alignUp size 8).toNat (pagesFor size) p s' bs' ∧ HeapInv s' bs' := by
  have hmod := alignUp_eight_mod size
  have hmalloc : malloc size s = mallocLoop (alignUp size 8) listFuel s.head s := by
    rw [malloc, if_neg h0]
    rfl
  rcases mallocLoop_eq (alignUp size 8) (l := []) h.blocks h.blocks.head_first h.length_lt with
    ⟨l, b, r, block, rfl, hl, hfits, hblock, heq⟩ | ⟨hnone, heq⟩
  · obtain ⟨p, s', hrun, hp, hst, hinv⟩ := takeBlock_result h hfits hmod hblock
    exact ⟨p, s', _, (hmalloc.trans heq).trans hrun, .fit rfl hl hfits hp hst, hinv⟩
  · obtain ⟨hwrap, hstays⟩ := hgrow hnone
    have hheader : headerSize.toNat = 16 := rfl
    have hneeded : (alignUp size 8 + headerSize).toNat = (alignUp size 8).toNat + 16 := by
      rw [BitVec.toNat_add, hheader]
      omega
    have hpages : pagesFor size = (_ + 4095) / 4096 := growPages_eq (by omega)
    rcases heapMapPages_stays h.blocks.pages hstays with
      ⟨s₁, hg, hrun⟩ | ⟨k, s₁, hk, hg, hfull, hrun⟩
    · obtain ⟨p, s', hrun', hp, hst, hinv⟩ := mallocGrow_result h (by omega) hmod hg hrun
      exact ⟨p, s', _, (hmalloc.trans heq).trans hrun', .grow hnone (by omega) hg hp hst, hinv⟩
    · have hfail : heapGrow (alignUp size 8 + headerSize) s =
          .ok (0, { s₁ with trace := .alloc 0 :: s₁.trace }) := by
        rw [heapGrow, get_bind_apply, bind_of_ok hrun]
        rfl
      have hpages₁ := hg.heapPages h.blocks.pages
      have hend := hg.heapEnd_eq h.blocks.pages
      have hblocks : HeapBlocks s₁.heapEnd.toNat s.head
          { s₁ with trace := .alloc 0 :: s₁.trace } bs :=
        h.blocks.carry (hpages₁.record _) rfl (by omega) hg.head_eq
          fun a ha => hg.heapWord h.blocks.pages ha
      refine ⟨0, _, bs, (hmalloc.trans heq).trans ?_, .fail hnone hk hg hfull,
        ⟨hblocks.self, h.separated, fun _ => hfull⟩⟩
      rw [mallocGrow, bind_of_ok hfail]
      rfl

/-! ### `free` -/

/-- **`free` returns, and keeps the invariant.** -/
theorem free_result (h : HeapInv s (l ++ b :: r)) {ptr : BitVec 32} (hptr : ptr.toNat = b.payload) :
    ∃ s', free ptr s = .ok ((), s') ∧ StoredIn (outside (l ++ r)) s s' ∧
      HeapInv s' (freed l b r) := by
  have hlay := h.blocks.layout
  have hsub : ∀ u ∈ l ++ r, u ∈ l ++ b :: r := by
    intro u hu
    rcases List.mem_append.mp hu with hu | hu
    · exact List.mem_append_left _ hu
    · exact List.mem_append_right _ (List.mem_cons_of_mem _ hu)
  obtain ⟨s', hrun, hblocks, hst⟩ := free_blocks hlay h.blocks.limit
    (fun x hx => hlay.header_outside hx hsub) hptr s h.blocks
  exact ⟨s', hrun, hst,
    ⟨hblocks.self, separated_freed h.separated, fun hnil => absurd hnil freed_ne_nil⟩⟩

/-- `free(NULL)` does nothing. -/
theorem free_zero (s : Machine) : free 0 s = .ok ((), s) := rfl

/-- `malloc(0)` does nothing. -/
theorem malloc_zero (s : Machine) : malloc 0 s = .ok (0, s) := rfl

end Malloc

/-! ### `memory_init` -/

/-- The block `memory_init` makes of the first sixteen pages. -/
def firstBlock : Block := ⟨0xD0000000, 0xFFF0, true⟩

/-- How `memory_init` ends. -/
inductive InitResult (s : Machine) : Machine → List Block → Prop
  /-- Sixteen pages were mapped and become one block. -/
  | mapped {s₁ t : Machine} : Grown heapInitialPages { s with heapEnd := heapVirtStart } s₁ →
      StoredIn Set.univ { s₁ with head := heapVirtStart } t →
      InitResult s { t with trace := .klog "INFO" "[MEM] Initial heap mapped" :: t.trace }
        [firstBlock]
  /-- The allocator ran out of frames. -/
  | failed {k : ℕ} {s₁ : Machine} : k < heapInitialPages →
      Grown k { s with heapEnd := heapVirtStart } s₁ → s₁.bitmap.Full →
      InitResult s
        { s₁ with
          trace := [.klog "PANIC" "[MEM] Failed to allocate initial heap pages", .alloc 0] ++
            s₁.trace } []

section Init

variable {s : Machine}

/-- Before `memory_init` the heap is empty. -/
theorem Paging.heapPages_start (h : Paging s) : HeapPages { s with heapEnd := heapVirtStart } where
  paging := h.of_tables rfl rfl rfl (fun _ hf => hf) rfl fun _ he => he
  start_le := by
    change 0xD0000000 ≤ heapVirtStart.toNat
    decide
  le_window := by
    change heapVirtStart.toNat ≤ 0xFFC00000
    decide
  aligned := by
    change heapVirtStart.toNat % 4096 = 0
    decide
  present := by
    intro va hlo hhi
    change va.toNat < heapVirtStart.toNat at hhi
    have hto : heapVirtStart.toNat = 0xD0000000 := rfl
    omega

/-- The first sixteen pages are far from the window. -/
theorem growthStays_init (h : Paging s) :
    GrowthStays { s with heapEnd := heapVirtStart } heapInitialPages := by
  refine growthStays_of_supply h.heapPages_start (Or.inl ?_)
  change 16 ≤ (0xFFC00000 - heapVirtStart.toNat) / 4096
  decide

/-- The first block of the heap. -/
theorem initHead_result {s₁ : Machine} (h : HeapPages s₁) (hend : s₁.heapEnd.toNat = 0xD0010000) :
    ∃ t, initHead s₁ =
        .ok ((), { t with trace := .klog "INFO" "[MEM] Initial heap mapped" :: t.trace }) ∧
      StoredIn Set.univ { s₁ with head := heapVirtStart } t ∧
      HeapBlocks 0xD0010000 heapVirtStart t [firstBlock] := by
  let s₂ : Machine := { s₁ with head := heapVirtStart }
  have hpages : HeapPages s₂ :=
    ⟨h.paging.of_tables rfl rfl rfl (fun _ hf => hf) rfl fun _ he => he, h.start_le, h.le_window,
      h.aligned, h.present⟩
  have hview : HeapView 0xD0010000 heapVirtStart s₂ s₂.heapWord :=
    ⟨hpages, hend, rfl, fun _ _ => rfl⟩
  have hto : heapVirtStart.toNat = 0xD0000000 := rfl
  have haddr : HeaderAddr 0xD0010000 heapVirtStart := ⟨by decide, by decide, by decide, by decide⟩
  have hA : HeaderIn Set.univ heapVirtStart.toNat := fun _ _ _ => trivial
  let size : BitVec 32 := (s₁.heapEnd - heapVirtStart) - headerSize
  have hsize : size.toNat = 0xFFF0 := by
    have hheader : headerSize.toNat = 16 := rfl
    rw [BitVec.toNat_sub_of_le, BitVec.toNat_sub_of_le, hend, hto, hheader]
    · rw [BitVec.le_def, hend, hto]
      omega
    · rw [BitVec.le_def, BitVec.toNat_sub_of_le, hend, hto, hheader]
      · omega
      · rw [BitVec.le_def, hend, hto]
        omega
  have hwrite : Performs (HeapView 0xD0010000 heapVirtStart) (StoredIn Set.univ) s₂.heapWord (do
      setSize heapVirtStart size
      setFree heapVirtStart 1
      setNext heapVirtStart 0
      setPrev heapVirtStart 0) () (writeHeader s₂.heapWord heapVirtStart.toNat size 1 0 0) :=
    (setSize_performs haddr hA size).bind <| (setFree_performs haddr hA 1).bind <|
      (setNext_performs haddr hA 0).bind <| setPrev_performs haddr hA 0
  obtain ⟨t, hrun, hview', hst⟩ := hwrite s₂ hview
  refine ⟨t, ?_, hst, hview'.blocks hto ?_ ⟨?_, ?_⟩⟩
  · have hassoc : initHead = (do
        modify fun s => { s with head := heapVirtStart }
        let s ← get
        (do
          setSize s.head ((s.heapEnd - heapVirtStart) - headerSize)
          setFree s.head 1
          setNext s.head 0
          setPrev s.head 0)
        klog "INFO" "[MEM] Initial heap mapped") := by
      simp only [initHead, bind_assoc]
    rw [hassoc, modify_bind_apply, get_bind_apply]
    exact bind_of_ok hrun
  · refine ⟨⟨?_, ?_, ?_, ?_⟩, trivial⟩
    · simp (disch := decide) only [writeHeader, Function.update_of_ne, Function.update_self,
        firstBlock, hto]
      exact hsize
    · simp (disch := decide) only [writeHeader, Function.update_of_ne, Function.update_self,
        firstBlock, hto]
      simp
    · simp (disch := decide) only [writeHeader, Function.update_of_ne, Function.update_self,
        firstBlock, hto]
      rfl
    · simp (disch := decide) only [writeHeader, Function.update_self, firstBlock, hto]
      rfl
  · simp only [Placed, Block.stop, firstBlock]
    omega
  · intro b hb
    obtain rfl := List.mem_singleton.mp hb
    decide

/-- **`memory_init` returns**, with one free block or without frames. -/
theorem memoryInit_result (h : Paging s) (hhead : s.head = 0) :
    ∃ s' bs, memoryInit s = .ok ((), s') ∧ InitResult s s' bs ∧ HeapInv s' bs := by
  have hto : heapVirtStart.toNat = 0xD0000000 := rfl
  rcases heapMapPages_stays h.heapPages_start (growthStays_init h) with
    ⟨s₁, hg, hrun⟩ | ⟨k, s₁, hk, hg, hfull, hrun⟩
  · have hpages := hg.heapPages h.heapPages_start
    have hend := hg.heapEnd_eq h.heapPages_start
    rw [show ({ s with heapEnd := heapVirtStart } : Machine).heapEnd.toNat = 0xD0000000 from hto,
      heapInitialPages] at hend
    obtain ⟨t, hhead', hst, hblocks⟩ := initHead_result hpages hend
    refine ⟨_, [firstBlock], ?_, .mapped hg hst, ⟨?_, List.isChain_singleton _, by simp⟩⟩
    · rw [memoryInit, modify_bind_apply, bind_of_ok hrun]
      exact hhead'
    · have hlog : HeapBlocks t.heapEnd.toNat heapVirtStart
          { t with trace := .klog "INFO" "[MEM] Initial heap mapped" :: t.trace } [firstBlock] :=
        hblocks.carry (hblocks.pages.record _) rfl hblocks.heapEnd_eq.ge hblocks.head_eq
          fun _ _ => rfl
      exact hlog.self
  · have hpages := hg.heapPages h.heapPages_start
    have hend := hg.heapEnd_eq h.heapPages_start
    refine ⟨_, [], ?_, .failed hk hg hfull, ⟨?_, List.isChain_nil, fun _ => hfull⟩⟩
    · rw [memoryInit, modify_bind_apply, bind_of_ok hrun]
      rfl
    · refine ⟨(hpages.record _).record _, rfl, rfl, ?_, trivial, hpages.start_le, by simp⟩
      change s₁.head.toNat = 0
      rw [hg.head_eq]
      exact congrArg BitVec.toNat hhead

/-- `mmu_init`, `mmu_enable` and `memory_init`, in the order of `kernel_main`. -/
def startMemory : Kernel Unit := do
  mmuInit
  mmuEnable
  memoryInit

/-- What comes before `memory_init`. -/
theorem startMemory_booted {bm : Bitmap} {mem : PhysMem}
    (h : startMemory (.boot bm mem) = .ok ((), s)) :
    ∃ s₀ t, Booted s₀ t ∧ memoryInit s₀ = .ok ((), s) := by
  have hassoc : startMemory = (do
      (do mmuInit; mmuEnable)
      memoryInit) := by
    simp only [startMemory, bind_assoc]
  rw [hassoc] at h
  obtain ⟨⟨⟩, s₀, hboot, hinit⟩ := bind_eq_ok.mp h
  obtain ⟨t, hbooted⟩ := mmuInit_booted onFault hboot
  exact ⟨s₀, t, hbooted, hinit⟩

/-- **The state a successful `memory_init` leaves.** -/
theorem startMemory_heap {bm : Bitmap} {mem : PhysMem}
    (h : startMemory (.boot bm mem) = .ok ((), s)) (hhead : s.head ≠ 0) :
    HeapInv s [firstBlock] ∧ s.heapEnd.toNat = 0xD0010000 := by
  obtain ⟨s₀, t, hbooted, hinit⟩ := startMemory_booted h
  obtain ⟨s', bs, hrun, hres, hinv⟩ := memoryInit_result hbooted.paging hbooted.head_eq
  rw [hinit] at hrun
  obtain rfl := (Prod.mk.inj (Except.ok.inj hrun)).2
  cases hres with
  | @mapped s₁ u hg hst =>
    have hend := hg.heapEnd_eq hbooted.paging.heapPages_start
    have hto : ({ s₀ with heapEnd := heapVirtStart } : Machine).heapEnd.toNat = 0xD0000000 := rfl
    rw [hto, heapInitialPages] at hend
    refine ⟨hinv, ?_⟩
    change u.heapEnd.toNat = _
    rw [hst.heapEnd_eq]
    exact hend
  | failed _ hg _ =>
    refine absurd ?_ hhead
    exact hg.head_eq.trans hbooted.head_eq

/-- The first pages of the heap share one table. -/
theorem Booted.neededTables_eq {t : BitVec 20} (h : Booted s t) {n : ℕ} (hpos : 0 < n)
    (hn : n ≤ heapInitialPages) :
    ({ s with heapEnd := heapVirtStart } : Machine).neededTables n = 1 := by
  have hto : ({ s with heapEnd := heapVirtStart } : Machine).heapEnd.toNat = 0xD0000000 := rfl
  have hslots : ({ s with heapEnd := heapVirtStart } : Machine).missingSlots = s.missingSlots := rfl
  rw [heapInitialPages] at hn
  rw [Machine.neededTables, hslots, h.missingSlots_eq, hto, Finset.card_eq_one]
  refine ⟨0x340, ?_⟩
  ext k
  rw [Finset.mem_filter, Finset.mem_Ico, Finset.mem_singleton]
  omega

/-- The state `memory_init` leaves when frames are left, `n` frames having been free before it. -/
structure Started (n : ℕ) (s : Machine) : Prop where
  head_ne : s.head ≠ 0
  no_failure : .alloc 0 ∉ s.trace
  freeFrames_eq : s.bitmap.freeFrames + 17 = n
  table_none : ∀ k, 0x341 ≤ k.toNat → k ≠ 1023 → s.table k = none
  owner_none : ∀ va : BitVec 32, 0xD0010000 ≤ va.toNat → s.owner (pageOwner va) = none

/-- With more than 17 free frames `memory_init` succeeds and takes 17 of them. -/
theorem memoryInit_ok {t : BitVec 20} (h : Booted s t) (hfree : 17 < s.bitmap.freeFrames) :
    ∃ s', memoryInit s = .ok ((), s') ∧ Started s.bitmap.freeFrames s' := by
  obtain ⟨s', bs, hrun, hres, -⟩ := memoryInit_result h.paging h.head_eq
  have hpages := h.paging.heapPages_start
  have hbitmap : ({ s with heapEnd := heapVirtStart } : Machine).bitmap = s.bitmap := rfl
  refine ⟨s', hrun, ?_⟩
  cases hres with
  | @mapped s₁ u hg hst =>
    have hneeded := h.neededTables_eq (n := heapInitialPages) (by decide) le_rfl
    have hnot : ¬ s₁.bitmap.Full := by
      rw [hg.free_iff hpages, Machine.Reaches, hneeded, hbitmap, heapInitialPages]
      omega
    have hsupply := hg.supply.2 hnot
    have hmissing := hg.missingTables_eq hpages
    rw [hneeded] at hmissing
    rw [hbitmap, heapInitialPages] at hsupply
    have hend := hg.heapEnd_eq hpages
    have hto : ({ s with heapEnd := heapVirtStart } : Machine).heapEnd.toNat = 0xD0000000 := rfl
    rw [heapInitialPages, hto] at hend
    refine ⟨?_, fun hmem => ?_, ?_, fun k hk hlast => ?_, fun va hva => ?_⟩
    · change u.head ≠ 0
      rw [hst.head_eq]
      change heapVirtStart ≠ 0
      decide
    · obtain ⟨evs, hevs, hin⟩ := hst.trace
      replace hmem := (List.mem_cons.mp hmem).resolve_left (by simp)
      rw [hevs] at hmem
      rcases List.mem_append.mp hmem with hmem | hmem
      · obtain ⟨va, f, hc, -⟩ := hin _ hmem
        simp at hc
      · exact hnot (hg.zeroWhenFull (h.zeroWhenFull heapVirtStart) hmem)
    · change u.bitmap.freeFrames + 17 = _
      rw [hst.bitmap_eq]
      change s₁.bitmap.freeFrames + 17 = _
      omega
    · have hslot : HeapSlot k := ⟨by omega, hlast⟩
      have hslots : ({ s with heapEnd := heapVirtStart } : Machine).missingSlots = s.missingSlots :=
        rfl
      have hk₁ : k.toNat ∈ s₁.missingSlots := by
        have hlt := k.isLt
        have hne : k.toNat ≠ 1023 := fun hc => hlast (BitVec.eq_of_toNat_eq hc)
        rw [hg.missingSlots_eq hpages, Finset.mem_filter, hslots, h.missingSlots_eq, Finset.mem_Ico]
        omega
      -- the stores of `memory_init` leave the tables alone
      have howner : u.owner (.table k) = s₁.owner (.table k) := congrFun hst.owner_eq _
      rw [owner_table hlast, owner_table hlast] at howner
      exact howner.trans ((mem_missingSlots hslot).mp hk₁)
    · have howner : u.owner (pageOwner va) = s₁.owner (pageOwner va) := congrFun hst.owner_eq _
      refine howner.trans ((hg.owner_above hpages (by omega)).trans ?_)
      rw [owner_vars s _ s.head]
      exact h.owner_leaf_none _ _
  | @failed k s₁ hk hg hfull =>
    have hstop := mt (hg.free_iff hpages).mpr (not_not.mpr hfull)
    have hneeded : ({ s with heapEnd := heapVirtStart } : Machine).neededTables k ≤ 1 :=
      (neededTables_mono _ hk.le).trans_eq (h.neededTables_eq (by decide) le_rfl)
    rw [Machine.Reaches, hbitmap] at hstop
    rw [heapInitialPages] at hk
    omega

/-- So does the machine when it boots with two frames and more than 17 others. -/
theorem startMemory_ok {bm bm₁ bm₂ : Bitmap} {pd pt : BitVec 32} (mem : PhysMem)
    (hpd : pmmAllocFrame bm = .ok (pd, bm₁)) (hpd0 : pd ≠ 0)
    (hpt : pmmAllocFrame bm₁ = .ok (pt, bm₂)) (hpt0 : pt ≠ 0) (hfree : 17 < bm₂.freeFrames) :
    ∃ s, startMemory (.boot bm mem) = .ok ((), s) ∧ Started bm₂.freeFrames s := by
  obtain ⟨evs, hinit, -⟩ := mmuInit_ok onFault mem hpd hpd0 hpt hpt0
  have hboot := bind_of_ok (f := fun _ => mmuEnable) hinit
  obtain ⟨t, hbooted⟩ := mmuInit_booted onFault hboot
  obtain ⟨s, hrun, hstarted⟩ := memoryInit_ok hbooted hfree
  have hassoc : startMemory = (do
      (do mmuInit; mmuEnable)
      memoryInit) := by
    simp only [startMemory, bind_assoc]
  refine ⟨s, ?_, hstarted⟩
  rw [hassoc]
  exact (bind_of_ok hboot).trans hrun

/-- Frames are left then. -/
theorem Started.not_full {n : ℕ} {s : Machine} (h : Started n s) (hn : 17 < n) :
    ¬ s.bitmap.Full := by
  have := h.freeFrames_eq
  rw [Bitmap.full_iff_freeFrames]
  omega

end Init

/-! ### A small machine -/

/-- A bitmap of 64 frames, of which only frame 0 is used. -/
def smallBitmap : Bitmap := ⟨[1, 0, 0, 0, 0, 0, 0, 0], by decide⟩

/-- On this machine `memory_init` leaves 44 frames. -/
theorem smallBitmap_started :
    ∃ s₀, startMemory (.boot smallBitmap fun _ _ => 0) = .ok ((), s₀) ∧ Started 61 s₀ := by
  have hpd : pmmAllocFrame smallBitmap = .ok (0x1000, ⟨[3, 0, 0, 0, 0, 0, 0, 0], by decide⟩) := by
    decide
  have hpt : pmmAllocFrame ⟨[3, 0, 0, 0, 0, 0, 0, 0], by decide⟩ =
      .ok (0x2000, ⟨[7, 0, 0, 0, 0, 0, 0, 0], by decide⟩) := by decide
  obtain ⟨s₀, hstart, hstarted⟩ := startMemory_ok (fun _ _ => 0) hpd (by decide) hpt (by decide)
    (by decide)
  have hfree : Bitmap.freeFrames ⟨[7, 0, 0, 0, 0, 0, 0, 0], by decide⟩ = 61 := by decide
  exact ⟨s₀, hstart, hfree ▸ hstarted⟩

end AuriOS
