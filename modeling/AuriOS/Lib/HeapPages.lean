import AuriOS.Lib.Memory
import AuriOS.Mm.Supply

/-!
# The pages of the heap

`HeapPages` says that every page from `0xD0000000` to `heap_end` is mapped.  `heap_map_pages`
extends that range page by page (`Grown`), and ends in one of three ways (`heapMapPages_cases`):
all pages are mapped, the allocator fails, or `heap_end` has reached the recursive window.  A page
fault at an address of the heap backs its page (`mmuHandlePageFaultWith_backed`).
-/

namespace AuriOS

open Program RecursiveTable

/-- Every page from the start of the heap to `heap_end` is mapped. -/
structure HeapPages (s : Machine) : Prop where
  paging : Paging s
  start_le : 0xD0000000 ≤ s.heapEnd.toNat
  le_window : s.heapEnd.toNat ≤ 0xFFC00000
  aligned : s.heapEnd.toNat % 4096 = 0
  present : ∀ va : BitVec 32, 0xD0000000 ≤ va.toNat → va.toNat < s.heapEnd.toNat →
    ∃ f, s.owner (pageOwner va) = some f

/-- The addresses from `HEAP_START` to the window are in the heap's slots. -/
theorem heapSlot_of_range {va : BitVec 32} (hlo : 0xD0000000 ≤ va.toNat)
    (hhi : va.toNat < 0xFFC00000) : HeapSlot (pdIndex va) :=
  heapSlot_iff.mpr ⟨BitVec.le_def.mpr hlo, BitVec.lt_def.mpr hhi⟩

/-- An address is in the heap's slots exactly from `HEAP_START` to the window. -/
theorem heapSlot_toNat {va : BitVec 32} :
    HeapSlot (pdIndex va) ↔ 0xD0000000 ≤ va.toNat ∧ va.toNat < 0xFFC00000 := by
  rw [heapSlot_iff, BitVec.le_def, BitVec.lt_def]
  exact Iff.rfl

/-! ### Accesses -/

section Access

variable {s : Machine} {va : BitVec 32} {f : BitVec 20}

/-- An owned page translates to its frame. -/
theorem translate_of_owner (h : Paging s) (hf : s.owner (pageOwner va) = some f) :
    (s.translate va).map Prod.fst = some f := by
  have hslot := (table_of_owner_leaf hf).1
  rw [translate_eq h.recursive.cr3_eq, ← owner_pageOwner hslot]
  exact hf

/-- A load from a page with an owner reads its frame. -/
theorem load_ok (h : Paging s) (hf : s.owner (pageOwner va) = some f) :
    load va s = .ok (s.mem f (wordIndex va), s) :=
  loadWith_ok onFault (translate_of_owner h hf)

/-- A store to a page with an owner writes its frame. -/
theorem store_ok (h : Paging s) (hf : s.owner (pageOwner va) = some f) (w : BitVec 32) :
    store va w s = .ok ((), s.stored va f w) :=
  storeWith_ok onFault (translate_of_owner h hf) w

/-- A store to a page changes no owner. -/
theorem owner_stored (h : Paging s) (hf : s.owner (pageOwner va) = some f) (w : BitVec 32) :
    (s.stored va f w).owner = s.owner :=
  owner_store h.recursive.selfMap h.exclusive hf _ _

/-- The heap stays present when a word is stored in it. -/
theorem HeapPages.stored (h : HeapPages s) (hf : s.owner (pageOwner va) = some f) (w : BitVec 32) :
    HeapPages (s.stored va f w) := by
  refine ⟨h.paging.stored hf w, h.start_le, h.le_window, h.aligned, ?_⟩
  rw [owner_stored h.paging hf]
  exact h.present

/-- The heap stays present when an event is recorded. -/
theorem HeapPages.record (h : HeapPages s) (e : Event) :
    HeapPages { s with trace := e :: s.trace } :=
  ⟨h.paging.record e, h.start_le, h.le_window, h.aligned, h.present⟩

end Access

/-! ### Growth -/

/-- The variables of the heap are not part of the tables. -/
theorem owner_vars (s : Machine) (heapEnd head : BitVec 32) :
    ({ s with heapEnd := heapEnd, head := head } : Machine).owner = s.owner := rfl

/-- The variables of the heap say nothing about its tables. -/
theorem missingSlots_vars (s : Machine) (heapEnd head : BitVec 32) :
    ({ s with heapEnd := heapEnd, head := head } : Machine).missingSlots = s.missingSlots := rfl

/-- The variables of the heap say nothing about how many tables it lacks. -/
theorem missingTables_vars (s : Machine) (heapEnd head : BitVec 32) :
    ({ s with heapEnd := heapEnd, head := head } : Machine).missingTables = s.missingTables := rfl

/-- The variables of the heap say nothing about the frames. -/
theorem Kept.vars {s : Machine} (h : Kept s) (heapEnd head : BitVec 32) :
    Kept { s with heapEnd := heapEnd, head := head } := h

/-- `n` pages are backed and added to the heap, one after the other. -/
inductive Grown : ℕ → Machine → Machine → Prop
  | done {s : Machine} : Grown 0 s s
  | page {n : ℕ} {s s₁ s' : Machine} {a : BitVec 32} : HeapSlot (pdIndex s.heapEnd) →
      Backed s s.heapEnd a s₁ →
      Grown n { s₁ with heapEnd := s.heapEnd + BitVec.ofNat 32 pageSize } s' → Grown (n + 1) s s'

section Growth

variable {s s₁ s' : Machine} {a : BitVec 32} {n : ℕ}

/-- Inside the heap's slots `heap_end` moves up by a page without a wrap. -/
theorem heapEnd_add (hslot : HeapSlot (pdIndex s.heapEnd)) :
    (s.heapEnd + BitVec.ofNat 32 pageSize).toNat = s.heapEnd.toNat + 4096 := by
  have hlt := (heapSlot_toNat.mp hslot).2
  have hsize : (BitVec.ofNat 32 pageSize).toNat = 4096 := by decide
  rw [BitVec.toNat_add, hsize, Nat.mod_eq_of_lt]
  omega

/-- The heap stays present when a backed page is added to it. -/
theorem heapPages_page (h : HeapPages s) (hslot : HeapSlot (pdIndex s.heapEnd))
    (hb : Backed s s.heapEnd a s₁) :
    HeapPages { s₁ with heapEnd := s.heapEnd + BitVec.ofNat 32 pageSize } := by
  have hend := heapEnd_add hslot
  have hlt := (heapSlot_toNat.mp hslot).2
  have hstart := h.start_le
  have haligned := h.aligned
  constructor
  case paging => exact hb.paging.of_tables rfl rfl rfl (fun _ hf => hf) rfl fun _ he => he
  case start_le => exact hend ▸ by omega
  case le_window => exact hend ▸ by omega
  case aligned => exact hend ▸ by omega
  case present =>
    intro va hlo hhi
    rw [owner_vars s₁ _ s₁.head]
    replace hhi := lt_of_lt_of_eq hhi hend
    by_cases hpage : pageOwner va = pageOwner s.heapEnd
    · exact ⟨_, hpage ▸ hb.owner_page⟩
    · have hne : va.toNat / pageSize ≠ s.heapEnd.toNat / pageSize :=
        fun hc => hpage (pageOwner_eq_iff.mpr hc)
      simp only [pageSize] at hne
      obtain ⟨f, hf⟩ := h.present va hlo (by omega)
      exact ⟨f, hb.owner_mono _ _ hpage hf⟩

/-- The heap stays present while it grows. -/
theorem Grown.heapPages (hg : Grown n s s') (h : HeapPages s) : HeapPages s' := by
  induction hg with
  | done => exact h
  | page hslot hb _ ih => exact ih (heapPages_page h hslot hb)

/-- A growth moves `heap_end` up by its pages. -/
theorem Grown.heapEnd_eq (hg : Grown n s s') (h : HeapPages s) :
    s'.heapEnd.toNat = s.heapEnd.toNat + 4096 * n := by
  induction hg with
  | done => rfl
  | @page n s s₁ s' a hslot hb _ ih =>
    have hend := heapEnd_add hslot
    have hrest : s'.heapEnd.toNat = (s.heapEnd + BitVec.ofNat 32 pageSize).toNat + 4096 * n :=
      ih (heapPages_page h hslot hb)
    rw [hrest, hend]
    omega

/-- A growth moves the machine by its own steps. -/
theorem Grown.evolves (hg : Grown n s s') : Evolves s s' := by
  induction hg with
  | done => exact .refl
  | @page n s s₁ s' a hslot hb _ ih =>
    exact ((Relation.ReflTransGen.single (.back _ a hslot hb)).tail (.vars _ s₁.head)).trans ih

/-- A growth leaves `head`. -/
theorem Grown.head_eq (hg : Grown n s s') : s'.head = s.head := by
  induction hg with
  | done => rfl
  | page _ hb _ ih => exact ih.trans hb.head_eq

/-- Pages below the old end keep their frames and their contents. -/
theorem Grown.keeps_below (hg : Grown n s s') (h : HeapPages s) {va : BitVec 32}
    (hva : va.toNat < s.heapEnd.toNat) :
    s'.owner (pageOwner va) = s.owner (pageOwner va) ∧
      ∀ f, s.owner (pageOwner va) = some f → s'.mem f = s.mem f := by
  induction hg with
  | done => exact ⟨rfl, fun _ _ => rfl⟩
  | @page n s s₁ s' a hslot hb _ ih =>
    have hend := heapEnd_add hslot
    have haligned := h.aligned
    have hne : pageOwner va ≠ pageOwner s.heapEnd := by
      rw [Ne, pageOwner_eq_iff, pageSize]
      omega
    obtain ⟨howner, hmem⟩ := ih (heapPages_page h hslot hb)
      (show va.toNat < (s.heapEnd + BitVec.ofNat 32 pageSize).toNat by omega)
    rw [owner_vars s₁ _ s₁.head] at howner hmem
    have howner₁ : s₁.owner (pageOwner va) = s.owner (pageOwner va) := hb.owner_leaf _ _ hne
    refine ⟨howner.trans howner₁, fun f hf => ?_⟩
    rw [hmem f (howner₁.trans hf)]
    exact hb.mem_leaf _ _ f hf

/-- Growth records calls of `mmu_map_page` and stores in the window. -/
theorem Grown.stores (hg : Grown n s s') : ∃ evs, s'.trace = evs ++ s.trace ∧
    ∀ va f, .store va f ∈ evs → 0xFFC00000 ≤ va.toNat := by
  induction hg with
  | done => exact ⟨[], rfl, by simp⟩
  | page _ hb _ ih =>
    obtain ⟨evs, hevs, hst⟩ := ih
    obtain ⟨c, evs₁, htrace, -, -, -, -, hst₁, -⟩ := hb.events
    refine ⟨evs ++ .mapPage c :: evs₁, by rw [hevs, htrace]; simp, fun va f hmem => ?_⟩
    rcases List.mem_append.mp hmem with hmem | hmem
    · exact hst va f hmem
    · rcases List.mem_cons.mp hmem with hmem | hmem
      · simp at hmem
      · exact hst₁ va f hmem

/-- Pages above the new end keep their frames. -/
theorem Grown.owner_above (hg : Grown n s s') (h : HeapPages s) {va : BitVec 32}
    (hva : s'.heapEnd.toNat ≤ va.toNat) : s'.owner (pageOwner va) = s.owner (pageOwner va) := by
  induction hg with
  | done => rfl
  | @page n s s₁ s' a hslot hb hg ih =>
    have hpage := heapPages_page h hslot hb
    have hend := heapEnd_add hslot
    have hlen : s'.heapEnd.toNat = (s.heapEnd + BitVec.ofNat 32 pageSize).toNat + 4096 * n :=
      hg.heapEnd_eq hpage
    have hne : pageOwner va ≠ pageOwner s.heapEnd := by
      rw [Ne, pageOwner_eq_iff, pageSize]
      omega
    have habove := ih hpage hva
    rw [owner_vars s₁ _ s₁.head] at habove
    exact habove.trans (hb.owner_leaf _ _ hne)

/-- Growth over absent pages loses no frame. -/
theorem Grown.kept (hg : Grown n s s') (h : HeapPages s) (hk : Kept s)
    (habsent : ∀ va : BitVec 32, s.heapEnd.toNat ≤ va.toNat → va.toNat < s'.heapEnd.toNat →
      s.owner (pageOwner va) = none) :
    Kept s' ∧ ∀ o f, s.owner o = some f → s'.owner o = some f := by
  induction hg with
  | done => exact ⟨hk, fun _ _ ho => ho⟩
  | @page n s s₁ s' a hslot hb hg ih =>
    have hpage := heapPages_page h hslot hb
    have hend := heapEnd_add hslot
    have haligned := h.aligned
    have hlen : s'.heapEnd.toNat = (s.heapEnd + BitVec.ofNat 32 pageSize).toNat + 4096 * n :=
      hg.heapEnd_eq hpage
    have hnone := habsent s.heapEnd le_rfl (by omega)
    have hkept := (kept_backed hb hk hnone).vars (s.heapEnd + BitVec.ofNat 32 pageSize) s₁.head
    obtain ⟨hkept', hmono⟩ := ih hpage hkept fun va hva hlt => by
      replace hva := le_of_eq_of_le hend.symm hva
      have hne : pageOwner va ≠ pageOwner s.heapEnd := by
        rw [Ne, pageOwner_eq_iff, pageSize]
        omega
      rw [owner_vars s₁ _ s₁.head]
      have hlow : s.heapEnd.toNat ≤ va.toNat := by omega
      exact (hb.owner_leaf _ _ hne).trans (habsent va hlow hlt)
    refine ⟨hkept', fun o f ho => hmono o f ?_⟩
    rw [owner_vars s₁ _ s₁.head]
    refine hb.owner_mono o f ?_ ho
    rintro rfl
    rw [hnone] at ho
    exact absurd ho (by simp)

/-- One round of `heap_map_pages`. -/
theorem heapMapPages_succ {bm : Bitmap} (halloc : pmmAllocFrame s.bitmap = .ok (a, bm)) (ha : a ≠ 0)
    (hrun : mmuMapPage a s.heapEnd true false
        { s with bitmap := bm, trace := .alloc a :: s.trace } =
      .ok ((), s₁)) (n : ℕ) :
    heapMapPages (n + 1) s =
      heapMapPages n { s₁ with heapEnd := s₁.heapEnd + BitVec.ofNat 32 pageSize } := by
  rw [heapMapPages, bind_of_ok (allocFrame_ok halloc), if_neg ha, get_bind_apply]
  refine (bind_of_ok hrun).trans ?_
  rw [modify_bind_apply]

/-- **`heap_map_pages`** maps all pages, or stops when the allocator fails, or comes to the window
with frames left. -/
theorem heapMapPages_cases (h : HeapPages s) (n : ℕ) :
    (∃ s', Grown n s s' ∧ heapMapPages n s = .ok (true, s')) ∨
    (∃ k s', k < n ∧ Grown k s s' ∧ s'.bitmap.Full ∧
      heapMapPages n s = .ok (false, { s' with trace := .alloc 0 :: s'.trace })) ∨
    ∃ k s', k < n ∧ Grown k s s' ∧ ¬ s'.bitmap.Full ∧ s'.heapEnd.toNat = 0xFFC00000 ∧
      ∀ m, heapMapPages (m + k) s = heapMapPages m s' := by
  induction n generalizing s with
  | zero => exact Or.inl ⟨s, .done, rfl⟩
  | succ n ih =>
    rcases pmmAllocFrame_cases s.bitmap with ⟨hfull, halloc⟩ | ⟨a, bm, halloc, hall⟩
    · refine Or.inr (Or.inl ⟨0, s, Nat.succ_pos n, .done, hfull, ?_⟩)
      rw [heapMapPages, bind_of_ok (allocFrame_ok halloc), if_pos rfl]
      rfl
    · by_cases hslot : HeapSlot (pdIndex s.heapEnd)
      · obtain ⟨s₁, hrun, hb⟩ := mapFrame_ok onFault h.paging hslot hall
        have ha0 : a ≠ 0 := mt hall.frame_zero_iff.mpr (hall.frame_ne h.paging.zero_used)
        have hstep := heapMapPages_succ halloc ha0 hrun
        rw [hb.heapEnd_eq] at hstep
        rw [hstep]
        rcases ih (heapPages_page h hslot hb) with ⟨s', hg, hrun'⟩ | ⟨k, s', hk, hg, hfull, hrun'⟩ |
          ⟨k, s', hk, hg, hfull, hend, hrun'⟩
        · exact Or.inl ⟨s', .page hslot hb hg, hrun'⟩
        · exact Or.inr (Or.inl ⟨k + 1, s', by omega, .page hslot hb hg, hfull, hrun'⟩)
        · refine Or.inr (Or.inr ⟨k + 1, s', by omega, .page hslot hb hg, hfull, hend, fun m => ?_⟩)
          rw [← Nat.add_assoc, hstep, hrun']
      · have hstart := h.start_le
        have hwindow := h.le_window
        refine Or.inr (Or.inr ⟨0, s, Nat.succ_pos n, .done, hall.not_full, ?_, fun _ => rfl⟩)
        rw [heapSlot_toNat] at hslot
        omega

/-- `heap_end` stays at or below the window while the heap grows by up to `n` pages. -/
def GrowthStays (s : Machine) (n : ℕ) : Prop :=
  ∀ k ≤ n, ∀ ok s', heapMapPages k s = .ok (ok, s') → s'.heapEnd.toNat ≤ 0xFFC00000

/-- Mapping a page of the window writes an entry of the directory itself. -/
theorem mmuMapPageWith_window (fault : BitVec 32 → Bool → Kernel Unit) (h : Paging s)
    {virt : BitVec 32} (hvirt : pdIndex virt = 1023) (a : BitVec 32) (bm : Bitmap) :
    mmuMapPageWith fault a virt true false { s with bitmap := bm, trace := .alloc a :: s.trace } =
      .ok ((), Machine.mapped { s with bitmap := bm, trace := .alloc a :: s.trace } s.root a virt
        true false s.mem) := by
  let s₁ : Machine := { s with bitmap := bm, trace := .alloc a :: s.trace }
  have hrec : Recursive s₁ := ⟨h.recursive.cr3_eq, h.recursive.selfMap, h.recursive.injective⟩
  have htable : s₁.table (pdIndex virt) = some s₁.root := hvirt ▸ hrec.selfMap
  have hensure := ensureTableWith_present fault hrec (shiftRight_pdIndex virt) htable false
  exact mmuMapPageWith_eq fault a true hensure hrec htable

/-- With a frame left, the next page would be mapped inside the window. -/
theorem heapMapPages_window (h : HeapPages s) (hend : s.heapEnd.toNat = 0xFFC00000)
    (hfree : ¬ s.bitmap.Full) :
    ∃ s', heapMapPages 1 s = .ok (true, s') ∧ s'.heapEnd.toNat = 0xFFC01000 := by
  rcases pmmAllocFrame_cases s.bitmap with ⟨hfull, -⟩ | ⟨a, bm, halloc, hall⟩
  · exact absurd hfull hfree
  · have ha0 : a ≠ 0 := mt hall.frame_zero_iff.mpr (hall.frame_ne h.paging.zero_used)
    have hslot : pdIndex s.heapEnd = 1023 := by
      apply BitVec.eq_of_toNat_eq
      rw [pdIndex_toNat, hend]
      rfl
    have hrun := mmuMapPageWith_window onFault h.paging hslot a bm
    refine ⟨_, (heapMapPages_succ halloc ha0 hrun 0).trans rfl, ?_⟩
    change (s.heapEnd + BitVec.ofNat 32 pageSize).toNat = _
    have hsize : (BitVec.ofNat 32 pageSize).toNat = 4096 := by decide
    rw [BitVec.toNat_add, hend, hsize]

/-- Growth that stays below the window maps all pages or stops when the allocator fails. -/
theorem heapMapPages_stays (h : HeapPages s) (hstays : GrowthStays s n) :
    (∃ s', Grown n s s' ∧ heapMapPages n s = .ok (true, s')) ∨
    ∃ k s', k < n ∧ Grown k s s' ∧ s'.bitmap.Full ∧
      heapMapPages n s = .ok (false, { s' with trace := .alloc 0 :: s'.trace }) := by
  rcases heapMapPages_cases h n with hdone | hfull | ⟨k, s', hk, hg, hfree, hend, hrest⟩
  · exact Or.inl hdone
  · exact Or.inr hfull
  · obtain ⟨t, hrun, ht⟩ := heapMapPages_window (hg.heapPages h) hend hfree
    rw [← hrest 1] at hrun
    have := hstays (1 + k) (by omega) _ _ hrun
    omega

/-! ### The supply of frames -/

/-- The pages between the end of the heap and the window. -/
def Machine.room (s : Machine) : ℕ := (0xFFC00000 - s.heapEnd.toNat) / 4096

/-- What growing by `n` pages takes from the supply. -/
theorem Grown.supply (hg : Grown n s s') :
    s.bitmap.freeFrames ≤ s'.bitmap.freeFrames + 2 * n ∧
      (¬ s'.bitmap.Full →
        s.bitmap.freeFrames + s'.missingTables = s'.bitmap.freeFrames + n + s.missingTables) := by
  induction hg with
  | done => exact ⟨le_rfl, fun _ => by rw [Nat.add_zero]⟩
  | @page n s s₁ s' a hslot hb hg ih =>
    obtain ⟨hle, heq⟩ := hb.supply hslot
    obtain ⟨hle', heq'⟩ := ih
    have hfull := full_evolves hg.evolves
    rw [missingTables_vars s₁ _ s₁.head] at heq'
    dsimp only at hle' heq' hfull
    refine ⟨by omega, fun hfree => ?_⟩
    have h₁ := heq (mt hfull hfree)
    have h₂ := heq' hfree
    omega

/-- A growth uses up at most a frame for each page and for each table. -/
theorem Grown.supply_le (hg : Grown n s s') :
    s.bitmap.freeFrames + s'.missingTables ≤ s'.bitmap.freeFrames + n + s.missingTables := by
  induction hg with
  | done => rw [Nat.add_zero]
  | @page n s s₁ s' a hslot hb _ ih =>
    have hle := hb.supply_le hslot
    rw [missingTables_vars s₁ _ s₁.head] at ih
    dsimp only at ih
    omega

/-- Below `heap_end` every slot has its table. -/
theorem HeapPages.missingSlots_ge (h : HeapPages s) {k : ℕ} (hk : k ∈ s.missingSlots) :
    s.heapEnd.toNat ≤ k * 2 ^ 22 := by
  by_contra hlt
  obtain ⟨hrange, hnone⟩ := Finset.mem_filter.mp hk
  obtain ⟨hlo, hhi⟩ := Finset.mem_Ico.mp hrange
  have hva : (BitVec.ofNat 32 (k * 2 ^ 22)).toNat = k * 2 ^ 22 := by
    rw [BitVec.toNat_ofNat]
    omega
  obtain ⟨f, hf⟩ := h.present (BitVec.ofNat 32 (k * 2 ^ 22)) (by omega) (by omega)
  obtain ⟨-, t, ht⟩ := table_of_owner_leaf hf
  have hslot : pdIndex (BitVec.ofNat 32 (k * 2 ^ 22)) = BitVec.ofNat 10 k := by
    apply BitVec.eq_of_toNat_eq
    rw [pdIndex_toNat, hva, BitVec.toNat_ofNat]
    omega
  rw [← hslot] at hnone
  exact absurd (hnone.symm.trans ht) (by simp)

/-- Growth gives tables to the slots it comes to. -/
theorem Grown.missingSlots_eq (hg : Grown n s s') (h : HeapPages s) :
    s'.missingSlots = s.missingSlots.filter fun k => s'.heapEnd.toNat ≤ k * 2 ^ 22 := by
  induction hg with
  | done => exact (Finset.filter_true_of_mem fun k hk => h.missingSlots_ge hk).symm
  | @page n s s₁ s' a hslot hb hg ih =>
    have hpage := heapPages_page h hslot hb
    have hend := heapEnd_add hslot
    have hlen : s'.heapEnd.toNat = (s.heapEnd + BitVec.ofNat 32 pageSize).toNat + 4096 * n :=
      hg.heapEnd_eq hpage
    have hrest := ih hpage
    rw [missingSlots_vars s₁ _ s₁.head] at hrest
    rw [hrest, hb.missingSlots_eq]
    ext k
    rw [Finset.mem_filter, Finset.mem_filter, Finset.mem_erase, pdIndex_toNat]
    refine and_congr_left fun hk => and_iff_right ?_
    omega

/-- The tables that the first `n` pages from `heap_end` on lack. -/
def Machine.neededTables (s : Machine) (n : ℕ) : ℕ :=
  (s.missingSlots.filter fun k => k * 2 ^ 22 < s.heapEnd.toNat + 4096 * n).card

/-- Page `n` of a growth gets a frame. -/
def Machine.Reaches (s : Machine) (n : ℕ) : Prop := n + s.neededTables n < s.bitmap.freeFrames

/-- The tables that a growth installs are those its pages lacked. -/
theorem Grown.missingTables_eq (hg : Grown n s s') (h : HeapPages s) :
    s.missingTables = s'.missingTables + s.neededTables n := by
  have hsplit := Finset.card_filter_add_card_filter_not (s := s.missingSlots)
    fun k => s'.heapEnd.toNat ≤ k * 2 ^ 22
  rw [← hg.missingSlots_eq h, hg.heapEnd_eq h] at hsplit
  simp only [not_le] at hsplit
  exact hsplit.symm

/-- The last page of a growth. -/
theorem Grown.last (hg : Grown (n + 1) s s') :
    ∃ s₁ s₂ a, Grown n s s₁ ∧ HeapSlot (pdIndex s₁.heapEnd) ∧ Backed s₁ s₁.heapEnd a s₂ ∧
      s' = { s₂ with heapEnd := s₁.heapEnd + BitVec.ofNat 32 pageSize } := by
  induction n generalizing s with
  | zero =>
    cases hg with
    | page hslot hb hg =>
      cases hg with
      | done => exact ⟨_, _, _, .done, hslot, hb, rfl⟩
  | succ n ih =>
    cases hg with
    | page hslot hb hg =>
      obtain ⟨s₁, s₂, a, hg', hrest⟩ := ih hg
      exact ⟨s₁, s₂, a, .page hslot hb hg', hrest⟩

/-- **How far the frames last.**  The page `n` of a growth gets its frame when more frames are
free than the pages before it take, with their tables. -/
theorem Grown.free_iff (hg : Grown n s s') (h : HeapPages s) :
    ¬ s'.bitmap.Full ↔ s.Reaches n := by
  have htables := hg.missingTables_eq h
  have hle := hg.supply_le
  rw [Machine.Reaches, Bitmap.full_iff_freeFrames]
  constructor
  · intro hfree
    have := hg.supply.2 (mt Bitmap.full_iff_freeFrames.mp hfree)
    omega
  · omega

/-- More pages need at least as many tables. -/
theorem neededTables_mono (s : Machine) {m : ℕ} (h : n ≤ m) :
    s.neededTables n ≤ s.neededTables m := by
  refine Finset.card_le_card fun k hk => ?_
  rw [Finset.mem_filter] at hk ⊢
  exact ⟨hk.1, by omega⟩

/-- A growth that gets its last frame got all before it. -/
theorem Machine.Reaches.mono {m : ℕ} (h : s.Reaches m) (hle : n ≤ m) : s.Reaches n := by
  have := neededTables_mono s hle
  rw [Machine.Reaches] at h ⊢
  omega

/-- The pages of a growth got their frames. -/
theorem Grown.reaches (hg : Grown n s s') (h : HeapPages s) {k : ℕ} (hk : k < n) : s.Reaches k := by
  cases n with
  | zero => exact absurd hk (Nat.not_lt_zero k)
  | succ n =>
    obtain ⟨s₁, s₂, a, hg₁, -, hb, -⟩ := hg.last
    obtain ⟨bm, halloc, -⟩ := hb.bitmap
    exact ((hg₁.free_iff h).mp halloc.not_full).mono (Nat.le_of_lt_succ hk)

/-- **`heap_map_pages` succeeds** exactly when the last page gets its frame. -/
theorem heapMapPages_ok_iff (h : HeapPages s) (hstays : GrowthStays s n) :
    (∃ s', heapMapPages n s = .ok (true, s')) ↔ n = 0 ∨ s.Reaches (n - 1) := by
  rcases heapMapPages_stays h hstays with ⟨s', hg, hrun⟩ | ⟨k, s', hk, hg, hfull, hrun⟩
  · refine iff_of_true ⟨s', hrun⟩ ?_
    rcases Nat.eq_zero_or_pos n with h0 | hpos
    · exact Or.inl h0
    · exact Or.inr (hg.reaches h (Nat.sub_lt hpos Nat.one_pos))
  · refine iff_of_false ?_ ?_
    · rintro ⟨t, hok⟩
      rw [hrun] at hok
      exact absurd (Prod.mk.inj (Except.ok.inj hok)).1 (by simp)
    · rintro (h0 | hreach)
      · omega
      · exact (hg.free_iff h).mpr (hreach.mono (by omega)) hfull

/-- While the heap grows the allocator does not answer 0 unless it is out of frames. -/
theorem Grown.zeroWhenFull (hg : Grown n s s') (h : ZeroWhenFull s) : ZeroWhenFull s' := by
  induction hg with
  | done => exact h
  | @page n s s₁ s' a _ hb _ ih =>
    have hzero := hb.zeroWhenFull h
    rw [ZeroWhenFull] at ih hzero
    dsimp only at ih
    exact ih hzero

/-- A heap that reaches up to the window has all its tables. -/
theorem missingTables_window (h : HeapPages s) (hend : s.heapEnd.toNat = 0xFFC00000) :
    s.missingTables = 0 := by
  rw [Machine.missingTables, Finset.card_eq_zero, Finset.eq_empty_iff_forall_notMem]
  intro k hk
  have hge := h.missingSlots_ge hk
  have hhi := (Finset.mem_Ico.mp (Finset.mem_filter.mp hk).1).2
  omega

/-- The heap stays below the window when there is room for the pages, or when the allocator runs
out of frames before: the room takes a frame for each page and one for each missing table. -/
theorem growthStays_of_supply (h : HeapPages s)
    (hn : n ≤ s.room ∨ s.bitmap.freeFrames ≤ s.room + s.missingTables) : GrowthStays s n := by
  intro k hk ok s' hrun
  rcases heapMapPages_cases h k with ⟨t, hg, hok⟩ | ⟨j, t, -, hg, -, hok⟩ |
    ⟨j, t, hj, hg, hfree, hend, -⟩
  · obtain rfl := (Prod.mk.inj (Except.ok.inj (hrun.symm.trans hok))).2
    exact (hg.heapPages h).le_window
  · obtain rfl := (Prod.mk.inj (Except.ok.inj (hrun.symm.trans hok))).2
    exact (hg.heapPages h).le_window
  · have hlen := hg.heapEnd_eq h
    have hroom : s.room = j := by
      rw [Machine.room]
      omega
    have hpos : t.bitmap.freeFrames ≠ 0 := mt Bitmap.full_iff_freeFrames.mpr hfree
    have hsupply := hg.supply.2 hfree
    have hnone := missingTables_window (hg.heapPages h) hend
    omega

end Growth

/-! ### Page faults -/

section Fault

variable (fault : BitVec 32 → Bool → Kernel Unit) {s s' : Machine} {va : BitVec 32} {write : Bool}

/-- The error code tells a missing page from a protection violation. -/
theorem errorCode_present : (s.errorCode va write &&& 1 != 0) = (s.translate va).isSome := by
  rw [Machine.errorCode]
  cases (s.translate va).isSome <;> cases write <;> rfl

/-- A missing page from `0xD0000000` on is mapped to a new frame. -/
theorem mmuHandlePageFaultWith_backs (habsent : s.translate va = none) (hstart : heapStart ≤ va)
    {a : BitVec 32} {bm : Bitmap} (halloc : pmmAllocFrame s.bitmap = .ok (a, bm)) (ha : a ≠ 0) :
    mmuHandlePageFaultWith fault va (s.errorCode va write) s =
      mmuMapPageWith fault a (va &&& 0xFFFFF000) true false
        { s with bitmap := bm, trace := .alloc a :: s.trace } := by
  rw [mmuHandlePageFaultWith, errorCode_present, habsent]
  refine (congrFun (if_neg (by simp)) s).trans ((congrFun (if_pos hstart) s).trans ?_)
  refine (bind_of_ok (allocFrame_ok halloc)).trans ?_
  exact congrFun (if_pos ha) _

/-- A fault whose handling completes was one of those. -/
theorem mmuHandlePageFaultWith_inv
    (hrun : mmuHandlePageFaultWith fault va (s.errorCode va write) s = .ok ((), s')) :
    s.translate va = none ∧ heapStart ≤ va ∧ ¬ s.bitmap.Full := by
  rw [mmuHandlePageFaultWith, errorCode_present] at hrun
  cases habsent : s.translate va with
  | some t =>
    rw [habsent] at hrun
    exact absurd ((congrFun (if_pos rfl) s).symm.trans hrun) (by simp)
  | none =>
    rw [habsent] at hrun
    replace hrun := (congrFun (if_neg (by simp)) s).symm.trans hrun
    by_cases hstart : heapStart ≤ va
    · replace hrun := (congrFun (if_pos hstart) s).symm.trans hrun
      refine ⟨rfl, hstart, fun hfull => ?_⟩
      rcases pmmAllocFrame_cases s.bitmap with ⟨-, halloc⟩ | ⟨a, bm, -, hall⟩
      · replace hrun := rest_of_bind (allocFrame_ok halloc) hrun
        exact absurd ((congrFun (if_neg (by simp)) _).symm.trans hrun) (by simp)
      · exact hall.not_full hfull
    · exact absurd ((congrFun (if_neg hstart) s).symm.trans hrun) (by simp)

/-- The handler maps the page of the address it is given. -/
theorem pageOwner_mask (va : BitVec 32) : pageOwner (va &&& 0xFFFFF000) = pageOwner va := by
  have hpd : (0xFFFFF000 : BitVec 32).extractLsb' 22 10 = BitVec.allOnes 10 := by decide
  have hpt : (0xFFFFF000 : BitVec 32).extractLsb' 12 10 = BitVec.allOnes 10 := by decide
  rw [pageOwner, pdIndex, ptIndex, BitVec.extractLsb'_and, BitVec.extractLsb'_and, hpd, hpt,
    BitVec.and_allOnes, BitVec.and_allOnes]
  rfl

/-- As long as there is a frame the handler succeeds below the window. -/
theorem mmuHandlePageFaultWith_ok (h : Paging s) (hslot : HeapSlot (pdIndex va))
    (habsent : s.translate va = none) (hfree : ¬ s.bitmap.Full) (write : Bool) :
    ∃ a s', mmuHandlePageFaultWith fault va (s.errorCode va write) s = .ok ((), s') ∧
      Backed s (va &&& 0xFFFFF000) a s' := by
  have hmask : HeapSlot (pdIndex (va &&& 0xFFFFF000)) := by
    rw [(Owner.leaf.inj (pageOwner_mask va)).1]
    exact hslot
  rcases pmmAllocFrame_cases s.bitmap with ⟨hfull, -⟩ | ⟨a, bm, halloc, hall⟩
  · exact absurd hfull hfree
  · have ha0 : a ≠ 0 := mt hall.frame_zero_iff.mpr (hall.frame_ne h.zero_used)
    obtain ⟨s', hmap, hb⟩ := mapFrame_ok fault h hmask hall
    refine ⟨a, s', ?_, hb⟩
    rw [mmuHandlePageFaultWith_backs fault habsent (heapSlot_iff.mp hslot).1 halloc ha0]
    exact hmap

/-- **A handled page fault** below the window maps a page that was absent to a new frame. -/
theorem mmuHandlePageFaultWith_backed (h : Paging s) (hva : va < 0xFFC00000)
    (hrun : mmuHandlePageFaultWith fault va (s.errorCode va write) s = .ok ((), s')) :
    HeapSlot (pdIndex va) ∧ s.owner (pageOwner va) = none ∧
      ∃ a, Backed s (va &&& 0xFFFFF000) a s' := by
  obtain ⟨habsent, hstart, hfree⟩ := mmuHandlePageFaultWith_inv fault hrun
  have hslot : HeapSlot (pdIndex va) := heapSlot_iff.mpr ⟨hstart, hva⟩
  obtain ⟨a, s₁, hok, hb⟩ := mmuHandlePageFaultWith_ok fault h hslot habsent hfree write
  obtain rfl := (Prod.mk.inj (Except.ok.inj (hrun.symm.trans hok))).2
  refine ⟨hslot, ?_, a, hb⟩
  rw [owner_pageOwner hslot, ← translate_eq h.recursive.cr3_eq, habsent, Option.map_none]

/-- The heap stays mapped. -/
theorem HeapPages.backed {virt a : BitVec 32} (h : HeapPages s) (hb : Backed s virt a s') :
    HeapPages s' := by
  refine ⟨hb.paging, ?_, ?_, ?_, ?_⟩
  · exact hb.heapEnd_eq ▸ h.start_le
  · exact hb.heapEnd_eq ▸ h.le_window
  · exact hb.heapEnd_eq ▸ h.aligned
  · intro va hlo hhi
    rw [hb.heapEnd_eq] at hhi
    by_cases hpage : pageOwner va = pageOwner virt
    · exact ⟨_, hpage ▸ hb.owner_page⟩
    · obtain ⟨f, hf⟩ := h.present va hlo hhi
      exact ⟨f, hb.owner_mono _ _ hpage hf⟩

end Fault

end AuriOS
