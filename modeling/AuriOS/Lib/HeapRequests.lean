import AuriOS.Lib.MemoryRuns

/-!
# Requests: undone, and too large

Two results on single calls of `malloc` in any run of `malloc`, `free` and page faults.

* `malloc_free_restores`: a request that is satisfied from the list takes the lowest block that is
  large enough, and `free` gives back the list as it was.  A block that `malloc` takes has no free
  neighbour, so `free` joins it with what `split_block` cut off and with nothing else.
* `malloc_sound_iff`: a request is served soundly unless a rounding wraps.  `ALIGN_UP` takes the
  last seven sizes to 0, and `heap_grow` takes the sizes of the last page to no page at all.
-/

namespace AuriOS

open Program BlockList

/-! ### Undoing a request -/

section Undo

variable {l r bs : List Block} {b : Block} {n : ℕ}

/-- A block whose predecessor and successor are not free neighbours is not joined. -/
theorem joinRight_stay (hfree : b.free = true) (hr : ∀ y ∈ r.head?, Apart b y) :
    joinRight b r = (b, r) := by
  rcases joinRight_cases b r with ⟨c, r', rfl, hc, hadj, -⟩ | ⟨-, h⟩
  · exact absurd ⟨hfree, hc, hadj⟩ (hr c rfl)
  · exact h

/-- A block apart from its left neighbour is not merged with it. -/
theorem joinLeft_stay (hfree : b.free = true) (hl : ∀ x ∈ l.getLast?, Apart x b) :
    joinLeft l b r = l ++ b :: r := by
  rcases joinLeft_cases l b r with ⟨l', x, rfl, hx, hadj, -⟩ | ⟨-, h⟩
  · exact absurd ⟨hx, hfree, hadj⟩ (hl x (by simp))
  · exact h

/-- Freeing what was taken of a block joins it with its remainder again. -/
theorem joinRight_taken (hfree : b.free = true) (hn : n ≤ b.size)
    (hr : ∀ y ∈ r.head?, Apart b y) :
    joinRight { takenBlock b n with free := true }
      ((if b.size - n < 32 then [] else [b.remainder n]) ++ r) = (b, r) := by
  by_cases hsmall : b.size - n < 32
  · have hb : { takenBlock b n with free := true } = b := by
      rw [takenBlock, if_pos hsmall, ← hfree]
    rw [if_pos hsmall, hb, List.nil_append]
    exact joinRight_stay hfree hr
  · have hadj : ({ takenBlock b n with free := true } : Block).stop = (b.remainder n).addr := by
      rw [takenBlock, if_neg hsmall]
      rfl
    have habsorb : ({ takenBlock b n with free := true } : Block).absorb (b.remainder n) = b := by
      rw [takenBlock, if_neg hsmall]
      rcases b with ⟨addr, size, free⟩
      obtain rfl : free = true := hfree
      dsimp only at hn hsmall
      simp only [Block.absorb, Block.remainder, Block.mk.injEq, true_and, and_true]
      omega
    rw [if_neg hsmall, List.singleton_append, joinRight, if_pos ⟨rfl, hadj⟩, habsorb]

/-- **Freeing what was taken gives back the list**, if its free blocks are separated. -/
theorem freed_taken (h : Separated (l ++ b :: r)) (hfree : b.free = true) (hn : n ≤ b.size) :
    freed l (takenBlock b n) ((if b.size - n < 32 then [] else [b.remainder n]) ++ r) =
      l ++ b :: r := by
  obtain ⟨-, hlast, hhead, -⟩ := separated_append_cons.mp h
  rw [freed, joinRight_taken hfree hn hhead]
  exact joinLeft_stay hfree hlast

/-- The first block of a list that fits is the lowest one. -/
theorem first_lowest {lo hi : ℕ} (hp : Placed lo (l ++ b :: r) hi) (hl : ∀ x ∈ l, ¬ Fits n x)
    {c : Block} (hc : c ∈ l ++ b :: r) (hfits : Fits n c) : b.addr ≤ c.addr := by
  rcases List.mem_append.mp hc with hc | hc
  · exact absurd hfits (hl c hc)
  · rcases List.mem_cons.mp hc with rfl | hc
    · exact le_rfl
    · have := hp.around.right c hc
      rw [Block.stop] at this
      omega

end Undo

/-- The list from `head` to `NULL` is `bs`: the addresses, sizes and flags of its blocks, linked in
both directions. -/
structure ListIs (s : Machine) (bs : List Block) : Prop where
  head : s.head.toNat = firstAddr bs 0
  linked : Linked BitVec.toNat s.heapWord 0 bs 0
  ne_null : ∀ b ∈ bs, b.addr ≠ 0

/-- The list of the heap is the one its invariant names. -/
theorem HeapInv.listIs {s : Machine} {bs : List Block} (h : HeapInv s bs) : ListIs s bs where
  head := h.blocks.head_first
  linked := h.blocks.linked
  ne_null b hb := by
    have := (h.blocks.layout.placed.mem hb).1
    omega

/-- A machine has one list. -/
theorem ListIs.unique {s : Machine} {bs cs : List Block} (h : ListIs s bs) (h' : ListIs s cs) :
    bs = cs :=
  h.linked.unique h'.linked (h.head.symm.trans h'.head) h.ne_null h'.ne_null

/-- `malloc` takes the lowest block of the list that is free and has the rounded size, and `free`
gives back the list as it was. -/
def RoundTrip (s : Machine) (bs : List Block) (size : BitVec 32) : Prop :=
  ∃ b ∈ bs, Fits (alignUp size 8).toNat b ∧
    (∀ c ∈ bs, Fits (alignUp size 8).toNat c → b.addr ≤ c.addr) ∧
    ∃ p s' s'', malloc size s = .ok (p, s') ∧ p.toNat = b.payload ∧ s'.heapEnd = s.heapEnd ∧
      free p s' = .ok ((), s'') ∧ ListIs s'' bs ∧ s''.heapEnd = s.heapEnd

section RoundTrip

variable {s : Machine} {bs : List Block} {size : BitVec 32}

/-- **A request that is satisfied from the list can be undone.** -/
theorem HeapInv.roundTrip (h : HeapInv s bs) (h0 : size ≠ 0) (hfit : ¬ s.Grows size) :
    RoundTrip s bs size := by
  have hsome : ¬ ∀ x ∈ bs, ¬ Fits (alignUp size 8).toNat x := fun hnone =>
    hfit ((h.grows_iff size).mpr hnone)
  obtain ⟨p, s', bs', hmalloc, hres, hinv'⟩ := malloc_result h h0 fun hnone => absurd hnone hsome
  cases hres with
  | @fit l r b _ _ hbs hl hfits hp hst =>
    subst hbs
    -- the list after the call, seen around the block that was taken
    rw [taken_eq, List.cons_append] at hinv'
    obtain ⟨s'', hfree, hst', hinv''⟩ := free_result hinv' hp
    rw [freed_taken h.separated hfits.1 hfits.2] at hinv''
    refine ⟨b, by simp, hfits, fun c hc => first_lowest h.blocks.layout.placed hl hc, p, s', s'',
      hmalloc, hp, hst.heapEnd_eq, hfree, hinv''.listIs, ?_⟩
    rw [hst'.heapEnd_eq, hst.heapEnd_eq]
  | grow hnone => exact absurd hnone hsome
  | fail hnone => exact absurd hnone hsome

end RoundTrip

/-! ### Sizes that wrap -/

/-- No rounding of the request wraps: neither to a multiple of 8, nor, if the heap has to grow, to
whole pages with a header. -/
def Unwrapped (s : Machine) (size : BitVec 32) : Prop :=
  size.toNat + 7 < 2 ^ 32 ∧ (s.Grows size → (alignUp size 8).toNat + 16 + 4095 < 2 ^ 32)

/-- If the heap has to grow, there is room for the pages below the window or the frames do not last
that far. -/
def HasRoom (s : Machine) (size : BitVec 32) : Prop :=
  s.Grows size → pagesFor size ≤ s.room ∨ s.bitmap.freeFrames ≤ s.room + s.missingTables

/-- The heap has to grow, and there is no frame for the first page. -/
def Refused (s : Machine) (size : BitVec 32) : Prop :=
  s.Grows size ∧ pagesFor size ≠ 0 ∧ s.bitmap.Full

/-- `malloc` returns `NULL` or a block in use with at least `size` bytes; the blocks of the list lie
in the mapped heap, in increasing order and without overlap. -/
def Served (s : Machine) (size : BitVec 32) : Prop :=
  ∃ p s' bs, malloc size s = .ok (p, s') ∧ ListIs s' bs ∧
    Placed 0xD0000000 bs s'.heapEnd.toNat ∧
    (∀ va : BitVec 32, 0xD0000000 ≤ va.toNat → va.toNat < s'.heapEnd.toNat →
      (s'.translate va).isSome) ∧
    (p = 0 ∨ ∃ b ∈ bs, b.free = false ∧ p.toNat = b.payload ∧ size.toNat ≤ b.size)

section Sizes

variable {s s' : Machine} {live : Live} {bs : List Block} {size p : BitVec 32}

/-- Rounding up adds at most seven. -/
theorem alignUp_eight_le (size : BitVec 32) : (alignUp size 8).toNat ≤ size.toNat + 7 := by
  rw [alignUp_eight]
  omega

/-- A size that wraps is larger than the heap can ever be. -/
theorem large_of_wraps (h : ¬ Unwrapped s size) : 2 ^ 32 ≤ size.toNat + 4118 := by
  by_contra hsmall
  have hle := alignUp_eight_le size
  exact h ⟨by omega, fun _ => by omega⟩

/-- For a size that wraps the heap grows by one page or by none. -/
theorem pagesFor_le_of_wraps (h : ¬ Unwrapped s size) : pagesFor size ≤ 1 := by
  have hheader : headerSize.toNat = 16 := rfl
  have hmod := alignUp_eight_mod size
  have hlt := (alignUp size 8).isLt
  have halign := alignUp_eight size
  rw [pagesFor, growPages_toNat, BitVec.toNat_add, hheader]
  by_cases hround : size.toNat + 7 < 2 ^ 32
  · have hpages : ¬ (alignUp size 8).toNat + 16 + 4095 < 2 ^ 32 :=
      fun hc => h ⟨hround, fun _ => hc⟩
    omega
  · omega

/-- A growth by one page fails only for lack of a frame. -/
theorem full_of_heapMapPages {n : ℕ} (h : HeapPages s) (hn : n ≤ 1)
    (hrun : heapMapPages n s = .ok (false, s')) : n ≠ 0 ∧ s.bitmap.Full := by
  have hn0 : n ≠ 0 := by
    rintro rfl
    exact absurd (Prod.mk.inj (Except.ok.inj hrun)).1 (by simp)
  obtain rfl : n = 1 := by omega
  refine ⟨hn0, ?_⟩
  rcases heapMapPages_cases h 1 with ⟨t, -, hok⟩ | ⟨k, t, hk, hg, hfull, -⟩ |
    ⟨k, t, hk, hg, hfree, hend, hrest⟩
  · rw [hrun] at hok
    exact absurd (Prod.mk.inj (Except.ok.inj hok)).1 (by simp)
  · obtain rfl : k = 0 := by omega
    cases hg with
    | done => exact hfull
  · -- at the window the page would be mapped
    obtain rfl : k = 0 := by omega
    obtain ⟨u, hok, -⟩ := heapMapPages_window (hg.heapPages h) hend hfree
    rw [← hrest 1, Nat.add_zero, hrun] at hok
    exact absurd (Prod.mk.inj (Except.ok.inj hok)).1 (by simp)

/-- A request that is refused changes nothing. -/
theorem Refused.malloc_eq (h : Refused s size) (hinv : HeapInv s bs) (h0 : size ≠ 0) :
    malloc size s = .ok (0, { s with trace := .alloc 0 :: s.trace }) := by
  obtain ⟨hgrows, hpos, hfull⟩ := h
  have hmalloc : malloc size s = mallocLoop (alignUp size 8) listFuel s.head s := by
    rw [malloc, if_neg h0]
    rfl
  have hnone := (hinv.grows_iff size).mp hgrows
  obtain ⟨m, hm⟩ : ∃ m, pagesFor size = m + 1 := ⟨pagesFor size - 1, by omega⟩
  have hmap : heapMapPages (pagesFor size) s =
      .ok (false, { s with trace := .alloc 0 :: s.trace }) := by
    rcases pmmAllocFrame_cases s.bitmap with ⟨-, halloc⟩ | ⟨a, bm', -, hall⟩
    · rw [hm, heapMapPages, bind_of_ok (allocFrame_ok halloc), if_pos rfl]
      rfl
    · exact absurd hfull hall.not_full
  have hgrow : heapGrow (alignUp size 8 + headerSize) s =
      .ok (0, { s with trace := .alloc 0 :: s.trace }) := by
    rw [heapGrow, get_bind_apply, bind_of_ok hmap]
    rfl
  rcases mallocLoop_eq (alignUp size 8) (l := []) hinv.blocks hinv.blocks.head_first
    hinv.length_lt with ⟨l, b, r, block, rfl, -, hfits, -, -⟩ | ⟨-, heq⟩
  · exact absurd hfits (hnone b (by simp))
  · rw [hmalloc, heq, mallocGrow, bind_of_ok hgrow]
    rfl

/-- Recording an event keeps the invariant. -/
theorem HeapInv.record (h : HeapInv s bs) (e : Event) :
    HeapInv { s with trace := e :: s.trace } bs :=
  ⟨(h.blocks.carry (h.blocks.pages.record e) rfl le_rfl rfl fun _ _ => rfl).self, h.separated,
    h.full_of_nil⟩

/-- Recording an event keeps the invariant of a run. -/
theorem RunInv.record {mayFail : Prop} (h : RunInv mayFail s live bs) (e : Event) :
    RunInv mayFail { s with trace := e :: s.trace } live bs :=
  ⟨h.heap.record e, h.live, h.ne_nil, h.tiled⟩

/-- What a run keeps serves a call that leaves it. -/
theorem RunInv.served (h : RunInv True s' live bs) (hrun : malloc size s = .ok (p, s'))
    (hlive : p ≠ 0 → live p = some size) : Served s size := by
  have hwf := h.wellFormed
  have hpages := h.heap.blocks.pages
  refine ⟨p, s', bs, hrun, h.heap.listIs, hwf.placed, fun va hlo hhi => ?_, ?_⟩
  · obtain ⟨f, hf⟩ := hpages.present va hlo hhi
    have htrans := translate_of_owner hpages.paging hf
    exact Option.isSome_map (f := Prod.fst) ▸ htrans ▸ rfl
  · by_cases hp : p = 0
    · exact Or.inl hp
    · have hsome := hlive hp
      obtain ⟨b, hb, hused, hpb⟩ := (hwf.live_iff p).mp (by rw [hsome]; rfl)
      exact Or.inr ⟨b, hb, hused, hpb, hwf.large b hb p size hpb hsome⟩

/-- **Which requests are served soundly.** -/
theorem RunInv.served_iff (h : RunInv True s live bs) (h0 : size ≠ 0)
    (hroom : Unwrapped s size → HasRoom s size) :
    Served s size ↔ Unwrapped s size ∨ Refused s size := by
  constructor
  · rintro ⟨p, s', bs', hrun, -, hplaced, -, hp⟩
    refine or_iff_not_imp_left.mpr fun hwraps => ?_
    have hlarge := large_of_wraps hwraps
    rcases hp with rfl | ⟨b, hb, -, -, hsize⟩
    · rcases malloc_null h.heap hrun with ⟨hz, -⟩ | ⟨-, hgrows, hmap⟩
      · exact absurd hz h0
      · exact ⟨hgrows,
          full_of_heapMapPages h.heap.blocks.pages (pagesFor_le_of_wraps hwraps) hmap⟩
    · -- no block of the heap is that large
      have hmem := hplaced.mem hb
      have hend := s'.heapEnd.isLt
      rw [Block.stop] at hmem
      omega
  · rintro (hun | hrefused)
    · obtain ⟨p, s', bs', hrun, hres, hinv'⟩ := malloc_result h.heap h0 fun hnone =>
        have hgrows := (h.heap.grows_iff size).mpr hnone
        ⟨hun.2 hgrows, growthStays_of_supply h.heap.blocks.pages (hroom hun hgrows)⟩
      have hinv := hres.runInv h (le_alignUp hun.1) (fun _ => trivial) hinv'
      refine hinv.served hrun fun hp => ?_
      rw [if_neg hp, Function.update_self]
    · exact (h.record _).served (hrefused.malloc_eq h.heap h0) fun hp => absurd rfl hp

end Sizes

/-! ### Runs -/

/-- The calls that keep the heap well formed: the growth, if any, does not wrap and stays below the
window, or it is refused. -/
def Keeps (s : Machine) (size : BitVec 32) : Prop := WithinRoom s size ∨ Refused s size

section Runs

variable {bm : Bitmap} {mem : PhysMem} {s₀ s s' : Machine} {live live' : Live} {bs : List Block}
  {size : BitVec 32}

/-- **One call.** -/
theorem keeps_step (hinv : RunInv True s live bs)
    (hstep : MemoryCall Keeps BelowWindow (s, live) (s', live')) :
    ∃ bs', RunInv True s' live' bs' := by
  have hcall : MemoryCall WithinRoom BelowWindow (s, live) (s', live') →
      ∃ bs', RunInv True s' live' bs' := fun h =>
    have ⟨bs', hinv', _⟩ := memoryCall_spec (fun _ _ h => h) (fun _ _ h => h) hinv h
    ⟨bs', hinv'⟩
  cases hstep with
  | malloc size p hok hrun =>
    rcases hok with hroom | hrefused
    · exact hcall (.malloc size p hroom hrun)
    · by_cases h0 : size = 0
      · rw [h0, malloc_zero] at hrun
        obtain ⟨rfl, rfl⟩ := Prod.mk.inj (Except.ok.inj hrun)
        rw [if_pos rfl]
        exact ⟨bs, hinv⟩
      · rw [hrefused.malloc_eq hinv.heap h0] at hrun
        obtain ⟨rfl, rfl⟩ := Prod.mk.inj (Except.ok.inj hrun)
        rw [if_pos rfl]
        exact ⟨bs, hinv.record _⟩
  | freeNull hrun => exact hcall (.freeNull hrun)
  | free p size hlive hrun => exact hcall (.free p size hlive hrun)
  | fault va write hok hrun => exact hcall (.fault va write hok hrun)

/-- The invariant holds in every state of a run whose requests keep it. -/
theorem keeps_run (hstart : startMemory (.boot bm mem) = .ok ((), s₀))
    (hrun : Relation.ReflTransGen (MemoryCall Keeps BelowWindow) (s₀, fun _ => none) (s, live)) :
    ∃ bs, RunInv True s live bs := by
  obtain ⟨-, -, bs, -, -, hinv⟩ := startMemory_runInv hstart
  exact run_invariant (fun z : Machine × Live => ∃ bs, RunInv True z.1 z.2 bs) hrun ⟨bs, hinv⟩
    fun ⟨_, hinv⟩ hstep => keeps_step hinv hstep

/-- **Undoing a request.**  As long as the calls keep the heap, the next request that is satisfied
from the list takes the lowest block that fits, and `free` gives back the list. -/
theorem malloc_free_restores (hstart : startMemory (.boot bm mem) = .ok ((), s₀))
    (hrun : Relation.ReflTransGen (MemoryCall Keeps BelowWindow) (s₀, fun _ => none) (s, live)) :
    ∃ bs, HeapWellFormed s live bs ∧
      ∀ size : BitVec 32, size ≠ 0 → ¬ s.Grows size → RoundTrip s bs size := by
  obtain ⟨bs, hinv⟩ := keeps_run hstart hrun
  exact ⟨bs, hinv.wellFormed, fun size h0 hfit => hinv.heap.roundTrip h0 hfit⟩

/-- After a first request what is left of the heap can be had and given back. -/
theorem malloc_free_restores_small :
    ∃ s₀ s live, startMemory (.boot smallBitmap fun _ _ => 0) = .ok ((), s₀) ∧
      MemoryCall Keeps BelowWindow (s₀, fun _ => none) (s, live) ∧
      ∃ bs, HeapWellFormed s live bs ∧
        ∀ size : BitVec 32, size ≠ 0 → ¬ s.Grows size → RoundTrip s bs size := by
  obtain ⟨s₀, hstart, hstarted⟩ := smallBitmap_started
  obtain ⟨s, p, -, hgrows, hmalloc⟩ := smallMachine_fits hstart hstarted.head_ne
  have hstep : MemoryCall Keeps BelowWindow (s₀, fun _ => none) (s, _) :=
    .malloc 100 p (Or.inl fun h => absurd h hgrows) hmalloc
  exact ⟨s₀, s, _, hstart, hstep, malloc_free_restores hstart (.single hstep)⟩

/-- **Requests in a run.**  As long as the calls keep the heap, the next request is served soundly
exactly when no rounding wraps or it is refused for lack of a frame. -/
theorem malloc_sound_iff (hstart : startMemory (.boot bm mem) = .ok ((), s₀))
    (hrun : Relation.ReflTransGen (MemoryCall Keeps BelowWindow) (s₀, fun _ => none) (s, live))
    (h0 : size ≠ 0) (hroom : Unwrapped s size → HasRoom s size) :
    Served s size ↔ Unwrapped s size ∨ Refused s size := by
  obtain ⟨bs, hinv⟩ := keeps_run hstart hrun
  exact hinv.served_iff h0 hroom

/-- The largest request is rounded to 0 and gets the first block, cut down to nothing. -/
theorem malloc_max_unsound :
    ∃ s₀, startMemory (.boot smallBitmap fun _ _ => 0) = .ok ((), s₀) ∧
      ¬ Served s₀ 0xFFFFFFFF := by
  obtain ⟨s₀, hstart, hstarted⟩ := smallBitmap_started
  have hwraps : ¬ Unwrapped s₀ 0xFFFFFFFF := fun h => absurd h.1 (by decide)
  have hfree := hstarted.not_full (by decide)
  refine ⟨s₀, hstart, fun hserved => ?_⟩
  have hinv : RunInv True s₀ (fun _ => none) _ := runInv_start hstart hstarted.head_ne
  rcases (hinv.served_iff (by decide) fun h => absurd h hwraps).mp hserved with h | h
  · exact hwraps h
  · exact hfree h.2.2

/-- After a request for the whole first block, one for 100 bytes is served from a new page. -/
theorem malloc_sound_iff_hundred :
    ∃ s₀ s, ∃ live : Live, startMemory (.boot smallBitmap fun _ _ => 0) = .ok ((), s₀) ∧
      MemoryCall Keeps BelowWindow (s₀, fun _ => none) (s, live) ∧ s.Grows 100 ∧ Served s 100 := by
  obtain ⟨s₀, hstart, hstarted⟩ := smallBitmap_started
  obtain ⟨s, live, bs, hcall, hinv, hused, hend, -⟩ :=
    malloc_firstBlock (runInv_start hstart hstarted.head_ne)
  have hstep : MemoryCall Keeps BelowWindow (s₀, fun _ => none) (s, live) :=
    hcall.imp fun _ _ hroom => Or.inl hroom
  have hgrows : s.Grows 100 := (hinv.heap.grows_iff 100).mpr fun b hb hfits =>
    Bool.false_ne_true ((hused b hb).symm.trans hfits.1)
  have hroom : HasRoom s 100 := by
    refine fun _ => Or.inl ?_
    rw [Machine.room, hend, (startMemory_heap hstart hstarted.head_ne).2]
    decide
  refine ⟨s₀, s, live, hstart, hstep, hgrows, ?_⟩
  exact (malloc_sound_iff hstart (.single hstep) (by decide) fun _ => hroom).mpr
    (Or.inl ⟨by decide, fun _ => by decide⟩)

end Runs

end AuriOS
