import AuriOS.Lib.HeapInvariant

/-!
# Runs of `malloc` and `free`

A program allocates and frees; `live` remembers which pointers it holds and how many bytes it asked
for.  In every run from `memory_init` on the heap is well formed (`HeapWellFormed`): its list is
linked, ordered and within the heap, the blocks in use are exactly the live allocations, and every
call returns and leaves the payloads of the other allocations alone (`heapRun_wellFormed`).
-/

namespace AuriOS

open Program BlockList RecursiveTable

/-- The live allocations: pointers and the sizes that were requested. -/
abbrev Live := BitVec 32 → Option (BitVec 32)

/-- The address of the first block from address `a` on that is free and has `size` bytes; the list
is followed for at most `n` blocks. -/
def Machine.findFit (s : Machine) (size : ℕ) : ℕ → ℕ → Option ℕ
  | 0, _ => none
  | n + 1, a =>
      if a = 0 then none
      else if (s.heapWord (a + 4)).toNat ≠ 0 ∧ size ≤ (s.heapWord a).toNat then some a
      else s.findFit size n (s.heapWord (a + 8)).toNat

/-- The list has no block for a request of `size` bytes, so that `malloc` lets the heap grow. -/
def Machine.Grows (s : Machine) (size : BitVec 32) : Prop :=
  s.findFit (alignUp size 8).toNat listFuel s.head.toNat = none

/-- The roundings of a request do not wrap, and the growth it leads to, if any, keeps `heap_end` at
or below the window. -/
structure Admissible (s : Machine) (size : BitVec 32) : Prop where
  round : size.toNat + 7 < 2 ^ 32
  pages : (alignUp size 8).toNat + 16 + 4095 < 2 ^ 32
  growth : s.Grows size → GrowthStays s (pagesFor size)

/-- One call of `malloc` or `free`: `free` is called with `NULL` or with a live pointer.  The heap
fails to grow only if `mayFail`. -/
inductive HeapStep (mayFail : Prop) : Machine × Live → Machine × Live → Prop
  | malloc {s s' : Machine} {live : Live} (size p : BitVec 32) : Admissible s size →
      malloc size s = .ok (p, s') → (size ≠ 0 → p = 0 → mayFail) →
      HeapStep mayFail (s, live) (s', if p = 0 then live else Function.update live p (some size))
  | freeNull {s s' : Machine} {live : Live} : free 0 s = .ok ((), s') →
      HeapStep mayFail (s, live) (s', live)
  | free {s s' : Machine} {live : Live} (p size : BitVec 32) : live p = some size →
      free p s = .ok ((), s') → HeapStep mayFail (s, live) (s', Function.update live p none)

/-! ### The search -/

/-- The search fails exactly when no block fits. -/
theorem findFit_eq_none_iff {hi : ℕ} {head : BitVec 32} {s : Machine} {l r : List Block}
    (h : HeapBlocks hi head s (l ++ r)) {size n : ℕ} (hn : r.length < n) :
    s.findFit size n (firstAddr r 0) = none ↔ ∀ x ∈ r, ¬ Fits size x := by
  induction r generalizing l n with
  | nil =>
    obtain ⟨n, rfl⟩ : ∃ m, n = m + 1 := ⟨n - 1, by omega⟩
    rw [Machine.findFit]
    exact iff_of_true (if_pos rfl) (by simp)
  | cons b r ih =>
    obtain ⟨n, rfl⟩ : ∃ m, n = m + 1 := ⟨n - 1, by omega⟩
    have hb0 := (h.layout.placed.mem (b := b) (by simp)).1
    have hheader := h.linked.header
    have hfits : (s.heapWord (b.addr + 4)).toNat ≠ 0 ∧ size ≤ (s.heapWord b.addr).toNat ↔
        Fits size b := by
      rw [Fits, hheader.free_iff, hheader.size_eq]
    have happ : l ++ b :: r = (l ++ [b]) ++ r := by simp
    rw [firstAddr, Machine.findFit, if_neg (by omega), List.forall_mem_cons]
    by_cases hb : Fits size b
    · rw [if_pos (hfits.mpr hb)]
      exact iff_of_false (by simp) fun hc => hc.1 hb
    · rw [if_neg (mt hfits.mp hb), hheader.next_eq, ih (happ ▸ h) (Nat.lt_of_succ_lt_succ hn)]
      exact (and_iff_right hb).symm

/-- A request makes the heap grow exactly when no block fits it. -/
theorem HeapInv.grows_iff {s : Machine} {bs : List Block} (h : HeapInv s bs) (size : BitVec 32) :
    s.Grows size ↔ ∀ x ∈ bs, ¬ Fits (alignUp size 8).toNat x := by
  rw [Machine.Grows, h.blocks.head_first]
  exact findFit_eq_none_iff (l := []) h.blocks h.length_lt

/-! ### Live allocations -/

/-- The blocks in use, `us`, are the live allocations, and large enough. -/
structure LiveBlocks (live : Live) (us : List Block) : Prop where
  block : ∀ p size, live p = some size → ∃ b ∈ us, p.toNat = b.payload ∧ size.toNat ≤ b.size
  live : ∀ b ∈ us, ∃ p size, live p = some size ∧ p.toNat = b.payload

section Live

variable {live : Live} {l r us vs : List Block} {b : Block} {p size : BitVec 32} {lo hi : ℕ}

/-- The other blocks begin elsewhere. -/
theorem payload_ne (hp : Placed lo (l ++ b :: r) hi) {u : Block}
    (hu : u ∈ usedBlocks l ++ usedBlocks r) : u.payload ≠ b.payload := by
  obtain ⟨hl, -, -, hr⟩ := hp.around
  rw [Block.payload, Block.payload]
  rcases List.mem_append.mp hu with hu | hu
  · have := hl u (mem_usedBlocks.mp hu).1
    omega
  · have := hr u (mem_usedBlocks.mp hu).1
    rw [Block.stop] at this
    omega

/-- A new allocation is live in the block that was used for it. -/
theorem LiveBlocks.add (h : LiveBlocks live (us ++ vs))
    (hfresh : ∀ u ∈ us ++ vs, u.payload ≠ b.payload) (hsize : size.toNat ≤ b.size)
    (hptr : p.toNat = b.payload) :
    LiveBlocks (Function.update live p (some size)) (us ++ b :: vs) := by
  have hmem : ∀ u ∈ us ++ vs, u ∈ us ++ b :: vs := by
    intro u hu
    rcases List.mem_append.mp hu with hu | hu
    · exact List.mem_append_left _ hu
    · exact List.mem_append_right _ (List.mem_cons_of_mem _ hu)
  constructor
  case block =>
    intro q n hq
    by_cases hqp : q = p
    · rw [hqp, Function.update_self] at hq
      obtain rfl := Option.some.inj hq
      exact ⟨b, by simp, hqp ▸ hptr, hsize⟩
    · rw [Function.update_of_ne hqp] at hq
      obtain ⟨u, hu, hqu, hn⟩ := h.block q n hq
      exact ⟨u, hmem u hu, hqu, hn⟩
  case live =>
    have hold : ∀ u ∈ us ++ vs, ∃ q n, Function.update live p (some size) q = some n ∧
        q.toNat = u.payload := by
      intro u hu
      obtain ⟨q, n, hq, hqu⟩ := h.live u hu
      refine ⟨q, n, ?_, hqu⟩
      rw [Function.update_of_ne]
      · exact hq
      · rintro rfl
        exact hfresh u hu (hqu.symm.trans hptr)
    intro u hu
    rcases List.mem_append.mp hu with hu | hu
    · exact hold u (List.mem_append_left _ hu)
    · rcases List.mem_cons.mp hu with rfl | hu
      · exact ⟨p, size, Function.update_self _ _ _, hptr⟩
      · exact hold u (List.mem_append_right _ hu)

/-- A released allocation is no longer live. -/
theorem LiveBlocks.remove (h : LiveBlocks live (us ++ b :: vs))
    (hfresh : ∀ u ∈ us ++ vs, u.payload ≠ b.payload) (hptr : p.toNat = b.payload) :
    LiveBlocks (Function.update live p none) (us ++ vs) := by
  constructor
  case block =>
    intro q n hq
    have hqp : q ≠ p := by
      rintro rfl
      rw [Function.update_self] at hq
      exact absurd hq (by simp)
    rw [Function.update_of_ne hqp] at hq
    obtain ⟨u, hu, hqu, hn⟩ := h.block q n hq
    refine ⟨u, ?_, hqu, hn⟩
    rcases List.mem_append.mp hu with hu | hu
    · exact List.mem_append_left _ hu
    · rcases List.mem_cons.mp hu with rfl | hu
      · exact absurd (BitVec.eq_of_toNat_eq (hqu.trans hptr.symm)) hqp
      · exact List.mem_append_right _ hu
  case live =>
    intro u hu
    have hmem : u ∈ us ++ b :: vs := by
      rcases List.mem_append.mp hu with hu | hu
      · exact List.mem_append_left _ hu
      · exact List.mem_append_right _ (List.mem_cons_of_mem _ hu)
    obtain ⟨q, n, hq, hqu⟩ := h.live u hmem
    refine ⟨q, n, ?_, hqu⟩
    rw [Function.update_of_ne]
    · exact hq
    · rintro rfl
      exact hfresh u hu (hqu.symm.trans hptr)

end Live

/-! ### One call -/

/-- Nothing was written inside the payloads of the blocks `us`. -/
structure KeepsOutside (us : List Block) (s s' : Machine) : Prop where
  stores : ∃ evs, s'.trace = evs ++ s.trace ∧ ∀ va f, .store va f ∈ evs → va.toNat ∈ outside us
  words : ∀ a, HeapAddr s.heapEnd.toNat a → a ∉ outside us → s'.heapWord a = s.heapWord a

section Keeps

variable {s s₁ s' : Machine} {us bs bs' : List Block} {n size pages : ℕ} {p : BitVec 32}

/-- Stores outside the payloads keep them. -/
theorem StoredIn.keepsOutside (h : StoredIn (outside us) s s') : KeepsOutside us s s' := by
  obtain ⟨evs, hevs, hin⟩ := h.trace
  refine ⟨⟨evs, hevs, fun va f hmem => ?_⟩, h.word_eq⟩
  obtain ⟨va', f', heq, hva⟩ := hin _ hmem
  rw [(Event.store.inj heq).1]
  exact hva

/-- A growth keeps the payloads. -/
theorem Grown.keepsOutside {hi : ℕ} (hg : Grown n s s') (h : HeapPages s) (hlay : Layout hi us)
    (hlimit : hi ≤ 0xFFC00000) : KeepsOutside us s s' := by
  obtain ⟨evs, hevs, hin⟩ := hg.stores
  exact ⟨⟨evs, hevs, fun va f hmem => hlay.end_outside (hlimit.trans (hin va f hmem))⟩,
    fun a ha _ => hg.heapWord h ha⟩

/-- What two steps keep, they keep in sequence. -/
theorem KeepsOutside.trans (h : KeepsOutside us s s₁) (h' : KeepsOutside us s₁ s')
    (hle : s.heapEnd.toNat ≤ s₁.heapEnd.toNat) : KeepsOutside us s s' := by
  obtain ⟨evs, hevs, hin⟩ := h.stores
  obtain ⟨evs', hevs', hin'⟩ := h'.stores
  refine ⟨⟨evs' ++ evs, by rw [hevs', hevs, List.append_assoc], fun va f hmem => ?_⟩,
    fun a ha hout => ?_⟩
  · rcases List.mem_append.mp hmem with hmem | hmem
    · exact hin' va f hmem
    · exact hin va f hmem
  · rw [h'.words a ⟨ha.start_le, lt_of_lt_of_le ha.lt hle, ha.aligned⟩ hout, h.words a ha hout]

/-- `malloc` keeps the payloads, however it ends. -/
theorem MallocResult.keepsOutside (hres : MallocResult s bs size pages p s' bs')
    (h : HeapInv s bs) : KeepsOutside bs s s' := by
  have hlay := h.blocks.layout
  have hlimit := h.blocks.limit
  cases hres with
  | fit _ _ _ _ hst => exact hst.keepsOutside
  | grow _ _ hg _ hst =>
    have hend := hg.heapEnd_eq h.blocks.pages
    exact (hg.keepsOutside h.blocks.pages hlay hlimit).trans hst.keepsOutside (by omega)
  | fail _ _ hg _ =>
    obtain ⟨⟨evs, hevs, hin⟩, hwords⟩ := hg.keepsOutside h.blocks.pages hlay hlimit
    refine ⟨⟨.alloc 0 :: evs, congrArg _ hevs, fun va f hmem => hin va f ?_⟩, hwords⟩
    exact (List.mem_cons.mp hmem).resolve_left (by simp)

end Keeps

/-- A call leaves the payloads of the allocations alone that are live before and after it. -/
structure KeepsPayloads (s s' : Machine) (live live' : Live) : Prop where
  /-- No byte of them is written. -/
  stores : ∃ evs, s'.trace = evs ++ s.trace ∧ ∀ va f, .store va f ∈ evs →
    ∀ p, (live p).isSome → (live' p).isSome →
      va.toNat + 4 ≤ p.toNat ∨ p.toNat + (s.heapWord (p.toNat - 16)).toNat ≤ va.toNat
  /-- Their words are what they were. -/
  words : ∀ p, (live p).isSome → (live' p).isSome → ∀ a, a % 4 = 0 → p.toNat ≤ a →
    a < p.toNat + (s.heapWord (p.toNat - 16)).toNat → s'.heapWord a = s.heapWord a

/-- What keeps the blocks' payloads keeps those of the live allocations. -/
theorem KeepsOutside.keepsPayloads {s s' : Machine} {us bs : List Block} {live live' : Live}
    (h : KeepsOutside us s s') (hinv : HeapInv s bs) (hsub : ∀ u ∈ us, u ∈ bs)
    (hlive : ∀ p, (live p).isSome → (live' p).isSome →
      ∃ b ∈ usedBlocks us, p.toNat = b.payload) : KeepsPayloads s s' live live' := by
  -- the size of a live block is in its header
  have hsize : ∀ p : BitVec 32, ∀ b ∈ us, p.toNat = b.payload →
      (s.heapWord (p.toNat - 16)).toNat = b.size := by
    intro p b hb hp
    obtain ⟨l, r, rfl⟩ := List.append_of_mem (hsub b hb)
    rw [hp, Block.payload, Nat.add_sub_cancel]
    exact hinv.blocks.linked.header.size_eq
  obtain ⟨evs, hevs, hin⟩ := h.stores
  refine ⟨⟨evs, hevs, fun va f hmem p hp hp' => ?_⟩, fun p hp hp' a hmod hlo hhi => ?_⟩
  · obtain ⟨b, hb, hpb⟩ := hlive p hp hp'
    have hout := hin va f hmem b hb
    rw [hsize p b (mem_usedBlocks.mp hb).1 hpb, hpb]
    rw [Block.payload] at hout ⊢
    rw [Block.stop] at hout
    omega
  · obtain ⟨b, hb, hpb⟩ := hlive p hp hp'
    have hbs := hsub b (mem_usedBlocks.mp hb).1
    rw [hsize p b (mem_usedBlocks.mp hb).1 hpb, hpb] at hhi
    obtain ⟨hblo, hbhi⟩ := hinv.blocks.layout.placed.mem hbs
    rw [Block.payload] at hpb hhi
    rw [Block.stop] at hbhi
    refine h.words a ⟨by omega, by omega, hmod⟩ fun hout => ?_
    have := hout b hb
    rw [Block.payload, Block.stop] at this
    omega

/-- What holds of the list in a run: the blocks in use are the live allocations, and while no growth
failed there are no gaps. -/
structure RunInv (mayFail : Prop) (s : Machine) (live : Live) (bs : List Block) : Prop where
  heap : HeapInv s bs
  live : LiveBlocks live (usedBlocks bs)
  ne_nil : ¬ mayFail → bs ≠ []
  tiled : ¬ mayFail → Tiled 0xD0000000 bs s.heapEnd.toNat

section Step

variable {mayFail : Prop} {s s' : Machine} {live live' : Live} {bs bs' : List Block}
  {size p : BitVec 32}

/-- Rounding up does not make a request smaller, unless it wraps. -/
theorem le_alignUp (h : size.toNat + 7 < 2 ^ 32) : size.toNat ≤ (alignUp size 8).toNat := by
  rw [alignUp_eight, Nat.mod_eq_of_lt h]
  omega

/-- An admissible call of `malloc` returns. -/
theorem malloc_returns (h : HeapInv s bs) (h0 : size ≠ 0) (hadm : Admissible s size) :
    ∃ p s' bs', malloc size s = .ok (p, s') ∧
      MallocResult s bs (alignUp size 8).toNat (pagesFor size) p s' bs' ∧
      HeapInv s' bs' :=
  malloc_result h h0 fun hnone => ⟨hadm.pages, hadm.growth ((h.grows_iff size).mpr hnone)⟩

/-- What a call of `malloc` that succeeded does to the live allocations. -/
theorem MallocResult.runInv {n pages : ℕ} (hres : MallocResult s bs n pages p s' bs')
    (hinv : RunInv mayFail s live bs) (hsize : size.toNat ≤ n) (hfail : p = 0 → mayFail)
    (hinv' : HeapInv s' bs') :
    RunInv mayFail s' (if p = 0 then live else Function.update live p (some size)) bs' := by
  have hlay := hinv.heap.blocks.layout
  cases hres with
  | @fit l r b _ _ hbs _ hfits hp hst =>
    subst hbs
    have hp0 : p ≠ 0 := by
      rintro rfl
      rw [Block.payload] at hp
      change 0 = _ at hp
      omega
    have hne : ∀ u ∈ usedBlocks l ++ usedBlocks r, u.payload ≠ (takenBlock b n).payload :=
      fun u hu => payload_ne hlay.placed hu
    refine ⟨hinv', ?_, fun _ => by rw [taken_eq]; simp, fun hno => ?_⟩
    · have hlive := hinv.live
      rw [usedBlocks_append_free hfits.1] at hlive
      rw [if_neg hp0, usedBlocks_taken]
      exact hlive.add hne (hsize.trans (le_takenBlock_size hfits.2)) hp
    · rw [hst.heapEnd_eq]
      exact tiled_taken (hinv.tiled hno)
  | @grow _ s₁ _ _ hpages hg hp hst =>
    have hend := hg.heapEnd_eq hinv.heap.blocks.pages
    let block := grownBlock s.heapEnd.toNat s₁.heapEnd.toNat
    have hp0 : p ≠ 0 := by
      rintro rfl
      change 0 = _ at hp
      omega
    have hlist : bs ++ taken block n = bs ++ (taken block n ++ []) := by rw [List.append_nil]
    rw [hlist] at hinv' ⊢
    have hne : ∀ u ∈ usedBlocks bs ++ usedBlocks [], u.payload ≠ (takenBlock block n).payload := by
      intro u hu
      rw [usedBlocks, usedBlocks, List.filter_nil, List.append_nil] at hu
      have hstop := (hlay.placed.mem (mem_usedBlocks.mp hu).1).2
      rw [Block.stop] at hstop
      simp only [Block.payload, takenBlock, block, grownBlock]
      omega
    have hblock : n ≤ block.size := by
      simp only [block, grownBlock]
      omega
    refine ⟨hinv', ?_, fun _ => by rw [taken_eq]; simp, fun hno => ?_⟩
    · have hlive := hinv.live
      rw [← List.append_nil (usedBlocks bs)] at hlive
      rw [if_neg hp0, usedBlocks_taken]
      exact hlive.add hne (hsize.trans (le_takenBlock_size hblock)) hp
    · rw [hst.heapEnd_eq]
      refine tiled_taken (tiled_append_cons.mpr ⟨hinv.tiled hno, ?_⟩)
      simp only [Tiled, Block.stop, block, grownBlock]
      omega
  | fail _ _ _ _ =>
    rw [if_pos rfl]
    exact ⟨hinv', hinv.live, hinv.ne_nil, fun hno => absurd (hfail rfl) hno⟩

/-- What a call of `free` with a live pointer does. -/
theorem free_runInv (hinv : RunInv mayFail s live bs) (hlive : live p = some size)
    (hrun : free p s = .ok ((), s')) :
    ∃ bs' us, StoredIn (outside us) s s' ∧ RunInv mayFail s' (Function.update live p none) bs' ∧
      KeepsPayloads s s' live (Function.update live p none) := by
  obtain ⟨b, hb, hp, -⟩ := hinv.live.block p size hlive
  obtain ⟨hmem, hused⟩ := mem_usedBlocks.mp hb
  obtain ⟨l, r, rfl⟩ := List.append_of_mem hmem
  obtain ⟨t, hrun', hst, hinv'⟩ := free_result hinv.heap hp
  rw [hrun'] at hrun
  obtain rfl := (Prod.mk.inj (Except.ok.inj hrun)).2
  have hplaced := hinv.heap.blocks.layout.placed
  have hlive' : LiveBlocks (Function.update live p none) (usedBlocks l ++ usedBlocks r) :=
    (usedBlocks_append_used hused ▸ hinv.live).remove (fun u hu => payload_ne hplaced hu) hp
  refine ⟨freed l b r, l ++ r, hst, ⟨hinv', ?_, fun _ => freed_ne_nil, fun hno => ?_⟩, ?_⟩
  · rw [usedBlocks_freed]
    exact hlive'
  · rw [hst.heapEnd_eq]
    exact tiled_freed (hinv.tiled hno)
  · refine hst.keepsOutside.keepsPayloads hinv.heap (fun u hu => ?_) fun q _ hq' => ?_
    · rcases List.mem_append.mp hu with hu | hu
      · exact List.mem_append_left _ hu
      · exact List.mem_append_right _ (List.mem_cons_of_mem _ hu)
    · obtain ⟨n, hn⟩ := Option.isSome_iff_exists.mp hq'
      obtain ⟨u, hu, hpu, -⟩ := hlive'.block q n hn
      refine ⟨u, ?_, hpu⟩
      rw [usedBlocks, List.filter_append]
      exact hu

/-- **One call of `malloc` or `free`.** -/
theorem heapStep_spec (hinv : RunInv mayFail s live bs)
    (hstep : HeapStep mayFail (s, live) (s', live')) :
    ∃ bs', RunInv mayFail s' live' bs' ∧ KeepsPayloads s s' live live' := by
  cases hstep with
  | malloc size p hadm hrun hfail =>
    by_cases h0 : size = 0
    · rw [h0, malloc_zero] at hrun
      obtain ⟨rfl, rfl⟩ := Prod.mk.inj (Except.ok.inj hrun)
      refine ⟨bs, hinv, ⟨⟨[], rfl, by simp⟩, fun _ _ _ _ _ _ _ => rfl⟩⟩
    · obtain ⟨q, t, bs', hrun', hres, hinv'⟩ := malloc_returns hinv.heap h0 hadm
      rw [hrun'] at hrun
      obtain ⟨rfl, rfl⟩ := Prod.mk.inj (Except.ok.inj hrun)
      refine ⟨bs', hres.runInv hinv (le_alignUp hadm.round) (hfail h0) hinv', ?_⟩
      refine (hres.keepsOutside hinv.heap).keepsPayloads hinv.heap (fun u hu => hu) fun q' hq' _ =>
        ?_
      obtain ⟨n, hn⟩ := Option.isSome_iff_exists.mp hq'
      obtain ⟨b, hb, hpb, -⟩ := hinv.live.block q' n hn
      exact ⟨b, hb, hpb⟩
  | freeNull hrun =>
    rw [free_zero] at hrun
    obtain rfl := (Prod.mk.inj (Except.ok.inj hrun)).2
    exact ⟨bs, hinv, ⟨⟨[], rfl, by simp⟩, fun _ _ _ _ _ _ _ => rfl⟩⟩
  | free p size hlive hrun =>
    obtain ⟨bs', us, -, hinv', hkeeps⟩ := free_runInv hinv hlive hrun
    exact ⟨bs', hinv', hkeeps⟩

end Step

/-! ### Runs -/

/-- The heap's list is `bs`, and its blocks in use are the live allocations. -/
structure HeapWellFormed (s : Machine) (live : Live) (bs : List Block) : Prop where
  head : s.head.toNat = firstAddr bs 0
  /-- The blocks are linked in both directions; the list begins and ends with `NULL`. -/
  linked : Linked BitVec.toNat s.heapWord 0 bs 0
  /-- The blocks lie in the heap, in increasing order, and each ends before the next begins. -/
  placed : Placed 0xD0000000 bs s.heapEnd.toNat
  size_aligned : ∀ b ∈ bs, b.size % 8 = 0
  live_iff : ∀ p : BitVec 32, (live p).isSome ↔ ∃ b ∈ bs, b.free = false ∧ p.toNat = b.payload
  /-- Each live allocation is as large as was requested. -/
  large : ∀ b ∈ bs, ∀ p size, p.toNat = b.payload → live p = some size → size.toNat ≤ b.size
  separated : Separated bs

section Runs

variable {mayFail : Prop} {bm : Bitmap} {mem : PhysMem} {s₀ s : Machine} {live : Live}
  {bs : List Block} {size p : BitVec 32}

/-- Blocks with the same payload are the same. -/
theorem payload_inj {lo hi : ℕ} (h : Placed lo bs hi) {b c : Block} (hb : b ∈ bs) (hc : c ∈ bs)
    (heq : b.payload = c.payload) : b = c := by
  rw [Block.payload, Block.payload] at heq
  rcases h.apart_of_mem hb hc with hsame | hlt | hlt
  · exact hsame
  · rw [Block.stop] at hlt
    omega
  · rw [Block.stop] at hlt
    omega

/-- The invariant of a run makes the heap well formed. -/
theorem RunInv.wellFormed (h : RunInv mayFail s live bs) : HeapWellFormed s live bs where
  head := h.heap.blocks.head_first
  linked := h.heap.blocks.linked
  placed := h.heap.blocks.layout.placed
  size_aligned b hb := (h.heap.blocks.layout.aligned b hb).2
  live_iff p := by
    constructor
    · intro hp
      obtain ⟨size, hsize⟩ := Option.isSome_iff_exists.mp hp
      obtain ⟨b, hb, hpb, -⟩ := h.live.block p size hsize
      obtain ⟨hmem, hused⟩ := mem_usedBlocks.mp hb
      exact ⟨b, hmem, hused, hpb⟩
    · rintro ⟨b, hb, hused, hpb⟩
      obtain ⟨q, size, hq, hqb⟩ := h.live.live b (mem_usedBlocks.mpr ⟨hb, hused⟩)
      obtain rfl := BitVec.eq_of_toNat_eq (hpb.trans hqb.symm)
      rw [hq]
      rfl
  large b hb p size hpb hlive := by
    obtain ⟨c, hc, hpc, hle⟩ := h.live.block p size hlive
    have hplaced := h.heap.blocks.layout.placed
    obtain rfl := payload_inj hplaced hb (mem_usedBlocks.mp hc).1 (hpb.symm.trans hpc)
    exact hle
  separated := h.heap.separated

/-- The pointer `malloc` returns was not live before. -/
theorem MallocResult.not_live {n pages : ℕ} {s' : Machine} {bs' : List Block}
    (hres : MallocResult s bs n pages p s' bs') (h : RunInv mayFail s live bs) (hp0 : p ≠ 0) :
    live p = none := by
  have hplaced := h.heap.blocks.layout.placed
  rw [Option.eq_none_iff_forall_ne_some]
  intro size hlive
  obtain ⟨c, hc, hpc, -⟩ := h.live.block p size hlive
  obtain ⟨hcmem, hused⟩ := mem_usedBlocks.mp hc
  cases hres with
  | @fit l r b _ _ hbs _ hfits hp _ =>
    have hb : b ∈ bs := by simp [hbs]
    obtain rfl := payload_inj hplaced hb hcmem (hp.symm.trans hpc)
    rw [hfits.1] at hused
    exact absurd hused (by simp)
  | grow _ _ _ hp _ =>
    have hstop := (hplaced.mem hcmem).2
    rw [Block.stop] at hstop
    rw [hp, Block.payload] at hpc
    omega
  | fail => exact hp0 rfl

/-- What holds after `memory_init`. -/
theorem runInv_start (hstart : startMemory (.boot bm mem) = .ok ((), s₀)) (hhead : s₀.head ≠ 0) :
    RunInv mayFail s₀ (fun _ => none) [firstBlock] := by
  obtain ⟨hinv, hend⟩ := startMemory_heap hstart hhead
  refine ⟨hinv, ⟨by simp, ?_⟩, fun _ => by simp, fun _ => ⟨rfl, hend.symm⟩⟩
  intro b hb
  obtain ⟨hmem, hused⟩ := mem_usedBlocks.mp hb
  rw [List.mem_singleton.mp hmem] at hused
  exact absurd hused (by decide)

/-- The invariant holds in every state of a run. -/
theorem heapRun_inv (hstart : startMemory (.boot bm mem) = .ok ((), s₀)) (hhead : s₀.head ≠ 0)
    (hrun : Relation.ReflTransGen (HeapStep mayFail) (s₀, fun _ => none) (s, live)) :
    ∃ bs, RunInv mayFail s live bs := by
  refine run_invariant (fun z : Machine × Live => ∃ bs, RunInv mayFail z.1 z.2 bs) hrun
    ⟨_, runInv_start hstart hhead⟩ fun ⟨_, hinv⟩ hstep => ?_
  obtain ⟨bs', hinv', -⟩ := heapStep_spec hinv hstep
  exact ⟨bs', hinv'⟩

/-- **The heap in any run of `malloc` and `free`.**  The list is well formed; the next call
returns, does not hand out a pointer that is live, and writes no byte of a payload that is live
before and after it. -/
theorem heapRun_wellFormed (hstart : startMemory (.boot bm mem) = .ok ((), s₀))
    (hhead : s₀.head ≠ 0)
    (hrun : Relation.ReflTransGen (HeapStep True) (s₀, fun _ => none) (s, live)) :
    (∃ bs, HeapWellFormed s live bs) ∧
      (∀ size, Admissible s size → ∃ p s', malloc size s = .ok (p, s') ∧ (p ≠ 0 → live p = none)) ∧
      (∀ p, p = 0 ∨ (live p).isSome → ∃ s', free p s = .ok ((), s')) ∧
      ∀ s' live', HeapStep True (s, live) (s', live') → KeepsPayloads s s' live live' := by
  obtain ⟨bs, hinv⟩ := heapRun_inv hstart hhead hrun
  refine ⟨⟨bs, hinv.wellFormed⟩, fun size hadm => ?_, fun p hp => ?_, fun s' live' hstep => ?_⟩
  · by_cases h0 : size = 0
    · rw [h0]
      exact ⟨0, s, malloc_zero s, fun h => absurd rfl h⟩
    · obtain ⟨p, s', bs', hmalloc, hres, -⟩ := malloc_returns hinv.heap h0 hadm
      exact ⟨p, s', hmalloc, hres.not_live hinv⟩
  · rcases hp with rfl | hp
    · exact ⟨s, free_zero s⟩
    · obtain ⟨b, hb, -, hpb⟩ := (hinv.wellFormed.live_iff p).mp hp
      obtain ⟨l, r, rfl⟩ := List.append_of_mem hb
      obtain ⟨s', hfree, -⟩ := free_result hinv.heap hpb
      exact ⟨s', hfree⟩
  · obtain ⟨-, -, hkeeps⟩ := heapStep_spec hinv hstep
    exact hkeeps

/-- **After everything is freed** the heap is one free block again, if it never failed to grow. -/
theorem heapRun_freeAll (hstart : startMemory (.boot bm mem) = .ok ((), s₀))
    (hhead : s₀.head ≠ 0)
    (hrun : Relation.ReflTransGen (HeapStep False) (s₀, fun _ => none) (s, live))
    (hfreed : ∀ p, live p = none) :
    s.head = 0xD0000000 ∧ 0xD0000010 ≤ s.heapEnd.toNat ∧
      Linked BitVec.toNat s.heapWord 0
        [⟨0xD0000000, s.heapEnd.toNat - 0xD0000000 - 16, true⟩] 0 := by
  obtain ⟨bs, hinv⟩ := heapRun_inv hstart hhead hrun
  have hfree : ∀ b ∈ bs, b.free = true := by
    intro b hb
    refine Bool.not_eq_false _ ▸ fun hused => ?_
    obtain ⟨p, size, hp, -⟩ := hinv.live.live b (mem_usedBlocks.mpr ⟨hb, hused⟩)
    rw [hfreed] at hp
    exact absurd hp (by simp)
  obtain ⟨b, r, rfl⟩ := List.exists_cons_of_ne_nil (hinv.ne_nil not_false)
  obtain ⟨rfl, haddr, hstop⟩ := (hinv.tiled not_false).eq_singleton hinv.heap.separated hfree
  rw [Block.stop] at hstop
  have hb : b = ⟨0xD0000000, s.heapEnd.toNat - 0xD0000000 - 16, true⟩ := by
    rcases b with ⟨addr, size, free⟩
    obtain rfl : free = true := hfree _ List.mem_cons_self
    obtain rfl : addr = 0xD0000000 := haddr
    dsimp only at hstop
    rw [Block.mk.injEq]
    exact ⟨rfl, by omega, rfl⟩
  refine ⟨BitVec.eq_of_toNat_eq ?_, by omega, hb ▸ hinv.heap.blocks.linked⟩
  exact hinv.heap.blocks.head_first.trans haddr

end Runs

/-! ### A small machine -/

/-- A request that fits the first block is made from it. -/
theorem MallocResult.first {s s' : Machine} {bs' : List Block} {n pages : ℕ} {p : BitVec 32}
    (hres : MallocResult s [firstBlock] n pages p s' bs') (hfits : Fits n firstBlock) :
    bs' = taken firstBlock n ∧ p.toNat = firstBlock.payload ∧
      StoredIn (outside [firstBlock]) s s' := by
  have hmem : firstBlock ∈ [firstBlock] := List.mem_singleton_self _
  cases hres with
  | @fit l r b _ _ hbs _ _ hp hst =>
    obtain ⟨rfl, hr⟩ : l = [] ∧ b :: r = [firstBlock] := by
      rcases List.append_eq_singleton_iff.mp hbs.symm with h | ⟨-, h⟩
      · exact h
      · exact absurd h (by simp)
    obtain ⟨rfl, rfl⟩ := List.cons.inj hr
    exact ⟨by rw [List.append_nil]; rfl, hp, hst⟩
  | grow hnone => exact absurd hfits (hnone _ hmem)
  | fail hnone => exact absurd hfits (hnone _ hmem)

/-- The first allocation is made from the first block. -/
theorem smallMachine_fits {bm : Bitmap} {mem : PhysMem} {s₀ : Machine}
    (hstart : startMemory (.boot bm mem) = .ok ((), s₀)) (hhead : s₀.head ≠ 0) :
    ∃ s p, p ≠ 0 ∧ ¬ s₀.Grows 100 ∧ malloc 100 s₀ = .ok (p, s) := by
  obtain ⟨hinv, -⟩ := startMemory_heap hstart hhead
  have hfits : Fits (alignUp 100 8).toNat firstBlock := ⟨rfl, by decide⟩
  have hgrows : ¬ s₀.Grows 100 := fun h =>
    (hinv.grows_iff 100).mp h firstBlock (List.mem_singleton_self _) hfits
  have hadm : Admissible s₀ 100 := ⟨by decide, by decide, fun h => absurd h hgrows⟩
  obtain ⟨p, s, bs', hmalloc, hres, -⟩ := malloc_returns hinv (by decide) hadm
  refine ⟨s, p, ?_, hgrows, hmalloc⟩
  rintro rfl
  exact absurd (hres.first hfits).2.1 (by decide)

/-- The machine boots, and `malloc` succeeds. -/
theorem smallMachine_malloc (mayFail : Prop) :
    ∃ s₀ s p, startMemory (.boot smallBitmap fun _ _ => 0) = .ok ((), s₀) ∧ s₀.head ≠ 0 ∧ p ≠ 0 ∧
      HeapStep mayFail (s₀, fun _ => none) (s, Function.update (fun _ => none) p (some 100)) := by
  obtain ⟨s₀, hstart, hstarted⟩ := smallBitmap_started
  obtain ⟨s, p, hp0, hgrows, hmalloc⟩ := smallMachine_fits hstart hstarted.head_ne
  have hadm : Admissible s₀ 100 := ⟨by decide, by decide, fun h => absurd h hgrows⟩
  refine ⟨s₀, s, p, hstart, hstarted.head_ne, hp0, ?_⟩
  have hstep : HeapStep mayFail (s₀, fun _ => none) (s, _) :=
    .malloc 100 p hadm hmalloc fun _ hp => absurd hp hp0
  rw [if_neg hp0] at hstep
  exact hstep

/-- After a call of `malloc` the heap is well formed with its allocation live. -/
theorem heapRun_wellFormed_malloc :
    ∃ s live p, (∃ bs, HeapWellFormed s live bs) ∧ live p = some 100 ∧
      ∃ s', free p s = .ok ((), s') := by
  obtain ⟨s₀, s, p, hstart, hhead, -, hstep⟩ := smallMachine_malloc True
  obtain ⟨hwf, -, hfree, -⟩ := heapRun_wellFormed hstart hhead (.single hstep)
  have hlive : Function.update (fun _ => none : Live) p (some 100) p = some 100 :=
    Function.update_self _ _ _
  exact ⟨s, _, p, hwf, hlive, hfree p (Or.inr (by rw [hlive]; rfl))⟩

/-- After `malloc` and `free` the heap is a single free block again. -/
theorem heapRun_freeAll_malloc :
    ∃ s : Machine, s.head = 0xD0000000 ∧ 0xD0000010 ≤ s.heapEnd.toNat ∧ Linked BitVec.toNat
      s.heapWord 0 [⟨0xD0000000, s.heapEnd.toNat - 0xD0000000 - 16, true⟩] 0 := by
  obtain ⟨s₀, s, p, hstart, hhead, -, hstep⟩ := smallMachine_malloc False
  have hlive : Function.update (fun _ => none : Live) p (some 100) p = some 100 :=
    Function.update_self _ _ _
  obtain ⟨bs, hinv⟩ := heapRun_inv hstart hhead (.single hstep)
  obtain ⟨b, hb, -, hpb⟩ := (hinv.wellFormed.live_iff p).mp (by rw [hlive]; rfl)
  obtain ⟨l, r, rfl⟩ := List.append_of_mem hb
  obtain ⟨s', hfree, -⟩ := free_result hinv.heap hpb
  refine ⟨s', heapRun_freeAll hstart hhead (.tail (.single hstep) (.free p 100 hlive hfree))
    fun q => ?_⟩
  rw [Function.update_idem]
  by_cases hq : q = p
  · rw [hq, Function.update_self]
  · rw [Function.update_of_ne hq]

end AuriOS
