import AuriOS.Mm.Mmu

/-!
# The recursive window

Slot 1023 of the page directory points to the directory, so the last 4 MiB of the address space
show the page tables, and the last page of it the directory.  `mmu_map_page` writes through this
window only.  Under the self map (`Recursive`) its addresses resolve to the directory and to the
tables (`translate_pdeAddr`, `translate_entryAddr`), and no page fault occurs:

* `ensureTableWith_present`, `ensureTableWith_absent`: a missing table is allocated, installed and
  cleared;
* `mmuMapPageWith_eq`: then one entry of it is written.
-/

namespace AuriOS

open Program RecursiveTable

/-! ### Indices -/

/-- The directory index is the number of 4 MiB ranges below the address. -/
theorem pdIndex_toNat (va : BitVec 32) : (pdIndex va).toNat = va.toNat / 2 ^ 22 := by
  have := va.isLt
  simp only [pdIndex, BitVec.extractLsb'_toNat, Nat.shiftRight_eq_div_pow]
  omega

/-- The table index is the number of pages below the address in its 4 MiB range. -/
theorem ptIndex_toNat (va : BitVec 32) : (ptIndex va).toNat = va.toNat / 2 ^ 12 % 2 ^ 10 := by
  simp only [ptIndex, BitVec.extractLsb'_toNat, Nat.shiftRight_eq_div_pow]

/-- The word index is the number of words below the address in its page. -/
theorem wordIndex_toNat (va : BitVec 32) : (wordIndex va).toNat = va.toNat / 4 % 2 ^ 10 := by
  simp only [wordIndex, BitVec.extractLsb'_toNat, Nat.shiftRight_eq_div_pow]

/-- The frame is the number of pages below the address. -/
theorem frameOf_toNat (a : BitVec 32) : (frameOf a).toNat = a.toNat / 2 ^ 12 := by
  have := a.isLt
  simp only [frameOf, BitVec.extractLsb'_toNat, Nat.shiftRight_eq_div_pow]
  omega

/-- The entry's field holds the frame of the address. -/
theorem frameField_eq (a : BitVec 32) : frameField a = frameOf a := by
  apply BitVec.eq_of_toNat_eq
  simp only [frameField, frameOf, BitVec.extractLsb'_toNat, Nat.shiftRight_eq_div_pow, pageSize,
    BitVec.toNat_setWidth, BitVec.toNat_udiv, BitVec.toNat_ofNat]

section WindowAddresses

variable {i j : BitVec 32}

/-- The directory's entries lie in the last page, one after the other. -/
theorem pdeAddr_toNat (hi : i.toNat < 1024) :
    (recursivePd + 4 * i).toNat = 0xFFFFF000 + 4 * i.toNat := by
  have h4 : (4 : BitVec 32).toNat = 4 := rfl
  have hpd : recursivePd.toNat = 0xFFFFF000 := rfl
  rw [BitVec.toNat_add, BitVec.toNat_mul, h4, hpd]
  omega

/-- The tables' entries lie in the window, table after table. -/
theorem entryAddr_toNat (hi : i.toNat < 1024) (hj : j.toNat < 1024) :
    ((0xFFC00000 : BitVec 32) + (i <<< 12) + 4 * j).toNat =
      0xFFC00000 + 4096 * i.toNat + 4 * j.toNat := by
  have h4 : (4 : BitVec 32).toNat = 4 := rfl
  have hbase : (0xFFC00000 : BitVec 32).toNat = 0xFFC00000 := rfl
  rw [BitVec.toNat_add, BitVec.toNat_mul, BitVec.toNat_add, BitVec.toNat_shiftLeft,
    Nat.shiftLeft_eq, h4, hbase]
  omega

end WindowAddresses

/-! ### Entries -/

/-- An entry decodes to its frame and rights when the present bit is set. -/
theorem decodeEntry_append (f : BitVec 20) (b : BitVec 12) :
    decodeEntry (f ++ b) =
      if b.getLsbD 0 then some (f, ⟨b.getLsbD 1, b.getLsbD 2⟩) else none := by
  have hf : (f ++ b).extractLsb' 12 20 = f := by
    apply BitVec.eq_of_getLsbD_eq
    intro i hi
    rw [BitVec.getLsbD_extractLsb', BitVec.getLsbD_append]
    simp [hi]
  rw [decodeEntry, hf, BitVec.getLsbD_append, BitVec.getLsbD_append, BitVec.getLsbD_append]
  simp

/-- A table entry decodes to what was put in it. -/
theorem decodeEntry_pte (rw user : BitVec 1) (f : BitVec 20) :
    decodeEntry
        { present := 1, rw := rw, user := user, physicalFrame := f : PageTableEntry }.toWord =
      some (f, ⟨rw.getLsbD 0, user.getLsbD 0⟩) := by
  rw [PageTableEntry.toWord, decodeEntry_append]
  simp only [BitVec.getLsbD_append]
  simp

/-- A directory entry decodes to what was put in it. -/
theorem decodeEntry_pde (rw user : BitVec 1) (f : BitVec 20) :
    decodeEntry { present := 1, rw := rw, user := user, ptFrame := f : PageDirectoryEntry }.toWord =
      some (f, ⟨rw.getLsbD 0, user.getLsbD 0⟩) := by
  rw [PageDirectoryEntry.toWord, decodeEntry_append]
  simp only [BitVec.getLsbD_append]
  simp

/-- A zero entry is not present. -/
theorem decodeEntry_zero : decodeEntry 0 = none := rfl

/-- The present bit tells whether an entry decodes. -/
theorem decodeEntry_eq_none_iff {w : BitVec 32} : decodeEntry w = none ↔ w.getLsbD 0 = false := by
  rw [decodeEntry]
  split <;> simp_all

/-- A field of one bit has that bit. -/
@[simp] theorem bitField_getLsbD (b : Bool) : (bitField b).getLsbD 0 = b := by
  cases b <;> rfl

/-! ### Accesses -/

namespace Machine

/-- The frame of the page directory. -/
def root (s : Machine) : BitVec 20 := frameOf s.kernelDirectory

/-- The page table of a directory slot. -/
def table (s : Machine) (k : BitVec 10) : Option (BitVec 20) :=
  RecursiveTable.table decodeEntry s.mem s.root k

end Machine

section Access

variable (fault : BitVec 32 → Bool → Kernel Unit) {s : Machine} {va : BitVec 32} {f : BitVec 20}

/-- An access to a mapped page takes no fault. -/
theorem accessWith_ok (h : (s.translate va).map Prod.fst = some f) (n : ℕ) (write : Bool) :
    accessWith fault (n + 1) va write s = .ok (f, s) := by
  obtain ⟨t, ht, rfl⟩ := Option.map_eq_some_iff.mp h
  rw [accessWith, get_bind_apply, ht]
  rfl

/-- A load from a mapped page reads its frame. -/
theorem loadWith_ok (h : (s.translate va).map Prod.fst = some f) :
    loadWith fault va s = .ok (s.mem f (wordIndex va), s) := by
  rw [loadWith, faultFuel, bind_of_ok (accessWith_ok fault h _ _)]
  rfl

/-- The state after a word was stored in frame `f`. -/
def Machine.stored (s : Machine) (va : BitVec 32) (f : BitVec 20) (w : BitVec 32) : Machine :=
  { s with
    mem := write s.mem f (wordIndex va) w
    trace := .store va f :: s.trace }

/-- A store to a mapped page writes its frame. -/
theorem storeWith_ok (h : (s.translate va).map Prod.fst = some f) (w : BitVec 32) :
    storeWith fault va w s = .ok ((), s.stored va f w) := by
  rw [storeWith, faultFuel, bind_of_ok (accessWith_ok fault h _ _)]
  rfl

/-- Consecutive stores that all resolve to frame `f` fill it. -/
theorem storeWordsWith_ok (base : BitVec 32) (word : ℕ → BitVec 32)
    (hres : ∀ m tr, (∀ g ≠ f, m g = s.mem g) → ∀ j < 1024,
      (({ s with mem := m, trace := tr } : Machine).translate (base + 4 * BitVec.ofNat 32 j)).map
        Prod.fst = some f)
    (hword : ∀ j < 1024, (wordIndex (base + 4 * BitVec.ofNat 32 j)).toNat = j) (n i : ℕ)
    (hn : n + i = 1024) (m : PhysMem) (tr : List Event) (hm : ∀ g ≠ f, m g = s.mem g)
    (hlow : ∀ j : BitVec 10, j.toNat < i → m f j = word j.toNat) :
    ∃ evs, storeWordsWith fault base word n i { s with mem := m, trace := tr } =
        .ok ((), { s with
          mem := Function.update s.mem f fun j => word j.toNat
          trace := evs ++ tr }) ∧
      ∀ e ∈ evs, ∃ j < 1024, e = .store (base + 4 * BitVec.ofNat 32 j) f := by
  induction n generalizing i m tr with
  | zero =>
    have hmem : m = Function.update s.mem f fun j => word j.toNat := by
      funext g
      by_cases hg : g = f
      · subst hg
        funext j
        rw [Function.update_self, hlow j (by have := j.isLt; omega)]
      · rw [Function.update_of_ne hg, hm g hg]
    exact ⟨[], by rw [hmem]; rfl, by simp⟩
  | succ n ih =>
    have hi : i < 1024 := by omega
    have hstore := storeWith_ok fault (hres m tr hm i hi) (word i)
    obtain ⟨evs, hrun, hevs⟩ := ih (i + 1) (by omega)
      (write m f (wordIndex (base + 4 * BitVec.ofNat 32 i)) (word i))
      (.store (base + 4 * BitVec.ofNat 32 i) f :: tr)
      (fun g hg => by
        funext j
        rw [write_of_ne _ _ _ _ _ _ hg, hm g hg])
      (fun j hj => by
        rw [write_apply]
        split
        · next h => rw [h.2, hword i hi]
        · next h =>
          refine hlow j (Nat.lt_of_le_of_ne (Nat.lt_succ_iff.mp hj) fun hji => h ⟨rfl, ?_⟩)
          exact BitVec.eq_of_toNat_eq (by rw [hword i hi, hji]))
    refine ⟨evs ++ [.store (base + 4 * BitVec.ofNat 32 i) f], ?_, ?_⟩
    · rw [storeWordsWith, bind_of_ok hstore, Machine.stored, hrun, List.append_assoc]
      rfl
    · intro e he
      rcases List.mem_append.mp he with he | he
      · exact hevs e he
      · exact ⟨i, hi, List.mem_singleton.mp he⟩

end Access

/-! ### The window -/

/-- Paging is on with a directory that maps itself, and no two slots share a table. -/
structure Recursive (s : Machine) : Prop where
  cr3_eq : s.cr3 = some s.kernelDirectory
  selfMap : SelfMap decodeEntry s.mem s.root 1023
  injective : SlotsInjective decodeEntry s.mem s.root

section Window

variable (fault : BitVec 32 → Bool → Kernel Unit) {s : Machine} {i j : BitVec 32} {k : BitVec 10}
  {t : BitVec 20}

/-- With the directory loaded the processor walks the tables from it. -/
theorem translate_eq (hcr3 : s.cr3 = some s.kernelDirectory) (va : BitVec 32) :
    s.translate va = walk s.mem s.root va := by
  rw [Machine.translate, hcr3]
  rfl

/-- The last page of the window shows the directory. -/
theorem translate_pdeAddr (hcr3 : s.cr3 = some s.kernelDirectory)
    (hself : SelfMap decodeEntry s.mem s.root 1023) (hi : i.toNat = k.toNat) :
    (s.translate (recursivePd + 4 * i)).map Prod.fst = some s.root ∧
      wordIndex (recursivePd + 4 * i) = k := by
  have hk := k.isLt
  have haddr := pdeAddr_toNat (i := i) (by omega)
  have hpd : pdIndex (recursivePd + 4 * i) = 1023 :=
    BitVec.eq_of_toNat_eq (by rw [pdIndex_toNat, haddr]; change _ = 1023; omega)
  have hpt : ptIndex (recursivePd + 4 * i) = 1023 :=
    BitVec.eq_of_toNat_eq (by rw [ptIndex_toNat, haddr]; change _ = 1023; omega)
  refine ⟨?_, BitVec.eq_of_toNat_eq (by rw [wordIndex_toNat, haddr]; omega)⟩
  rw [translate_eq hcr3, walk, hpd, hpt]
  exact walk_self hself

/-- Page `k` of the window shows the table of slot `k`. -/
theorem translate_entryAddr (hcr3 : s.cr3 = some s.kernelDirectory)
    (hself : SelfMap decodeEntry s.mem s.root 1023) (hi : i.toNat = k.toNat)
    (hj : j.toNat < 1024) :
    (s.translate ((0xFFC00000 : BitVec 32) + (i <<< 12) + 4 * j)).map Prod.fst = s.table k ∧
      (wordIndex ((0xFFC00000 : BitVec 32) + (i <<< 12) + 4 * j)).toNat = j.toNat := by
  have hk := k.isLt
  have haddr := entryAddr_toNat (i := i) (j := j) (by omega) hj
  have hpd : pdIndex ((0xFFC00000 : BitVec 32) + (i <<< 12) + 4 * j) = 1023 :=
    BitVec.eq_of_toNat_eq (by rw [pdIndex_toNat, haddr]; change _ = 1023; omega)
  have hpt : ptIndex ((0xFFC00000 : BitVec 32) + (i <<< 12) + 4 * j) = k :=
    BitVec.eq_of_toNat_eq (by rw [ptIndex_toNat, haddr]; omega)
  refine ⟨?_, by rw [wordIndex_toNat, haddr]; omega⟩
  rw [translate_eq hcr3, walk, hpd, hpt]
  exact walk_window hself

/-- What a call of `mmu_map_page` for slot `k` records besides itself and its allocation: cached
translations dropped, stores in the last page of the window that reach the directory `d`, and
stores in page `k` of the window that reach the table `t`. -/
def WindowEvent (d t : BitVec 20) (k : BitVec 10) (e : Event) : Prop :=
  (∃ va, e = .invlpg va) ∨ ∃ va f, e = .store va f ∧
    ((va.toNat = 0xFFFFF000 + 4 * k.toNat ∧ f = d) ∨ (va.toNat / 4096 = 0xFFC00 + k.toNat ∧ f = t))

/-- A flush is recorded, and the program goes on. -/
theorem invlpg_bind_apply {α : Type} (va : BitVec 32) (f : Unit → Kernel α) :
    (invlpg va >>= f) s = f () { s with trace := .invlpg va :: s.trace } :=
  rfl

/-- An allocation is recorded with the address it gave. -/
theorem allocFrame_ok {a : BitVec 32} {bm : Bitmap} (h : pmmAllocFrame s.bitmap = .ok (a, bm)) :
    allocFrame s = .ok (a, { s with bitmap := bm, trace := .alloc a :: s.trace }) := by
  have hcall : callPmm pmmAllocFrame s = .ok (a, { s with bitmap := bm }) := by
    unfold callPmm
    rw [h]
  rw [allocFrame, bind_of_ok hcall]
  rfl

/-- A table that is there is left alone. -/
theorem ensureTableWith_present (h : Recursive s) (hi : i.toNat = k.toNat)
    (ht : s.table k = some t) (isUser : Bool) :
    ensureTableWith fault (recursivePd + 4 * i) ((0xFFC00000 : BitVec 32) + (i <<< 12)) isUser s =
      .ok ((), s) := by
  obtain ⟨htrans, hword⟩ := translate_pdeAddr h.cr3_eq h.selfMap hi
  have hbit : (s.mem s.root k).getLsbD 0 = true := by
    obtain ⟨p, hp⟩ := table_eq_some_iff.mp ht
    refine Bool.eq_true_of_not_eq_false fun hfalse => ?_
    rw [decodeEntry_eq_none_iff.mpr hfalse] at hp
    exact absurd hp (by simp)
  rw [ensureTableWith, bind_of_ok (loadWith_ok fault htrans), hword, if_pos hbit]
  rfl

/-- The entry `mmu_map_page` puts into the directory for a table in frame `t`. -/
def pdeWord (t : BitVec 20) (isUser : Bool) : BitVec 32 :=
  { present := 1, rw := 1, user := bitField isUser, ptFrame := t : PageDirectoryEntry }.toWord

/-- The word for a new table decodes to it. -/
theorem decodeEntry_pdeWord (t : BitVec 20) (isUser : Bool) :
    decodeEntry (pdeWord t isUser) = some (t, ⟨true, isUser⟩) := by
  rw [pdeWord, decodeEntry_pde, bitField_getLsbD]
  rfl

/-- The state after a table in frame `t` was installed in slot `k`. -/
def Machine.installed (s : Machine) (k : BitVec 10) (isUser : Bool) (a : BitVec 32) (bm : Bitmap)
    (evs : List Event) : Machine :=
  { s with
    bitmap := bm
    mem := install s.mem s.root k (pdeWord (frameOf a) isUser) (frameOf a) 0
    trace := evs ++ .alloc a :: s.trace }

/-- A missing table is allocated, put into its slot and cleared through the window. -/
theorem ensureTableWith_absent (h : Recursive s) (hi : i.toNat = k.toNat) (hk : k ≠ 1023)
    (habsent : s.table k = none) {a : BitVec 32} {bm : Bitmap}
    (halloc : pmmAllocFrame s.bitmap = .ok (a, bm)) (hroot : frameOf a ≠ s.root) (isUser : Bool) :
    ∃ evs, ensureTableWith fault (recursivePd + 4 * i) ((0xFFC00000 : BitVec 32) + (i <<< 12))
        isUser s = .ok ((), s.installed k isUser a bm evs) ∧
      ∀ e ∈ evs, WindowEvent s.root (frameOf a) k e := by
  obtain ⟨htrans, hword⟩ := translate_pdeAddr h.cr3_eq h.selfMap hi
  have hbit : (s.mem s.root k).getLsbD 0 = false :=
    decodeEntry_eq_none_iff.mp (table_eq_none_iff.mp habsent)
  -- the state after the entry was written
  let s₁ : Machine := { s with bitmap := bm, trace := .alloc a :: s.trace }
  have hstore : storeWith fault (recursivePd + 4 * i) (pdeWord (frameOf a) isUser) s₁ =
      .ok ((), s₁.stored (recursivePd + 4 * i) s.root (pdeWord (frameOf a) isUser)) :=
    storeWith_ok fault (translate_pdeAddr (s := s₁) h.cr3_eq h.selfMap hi).1 _
  let s₂ : Machine :=
    { s₁ with
      mem := write s.mem s.root k (pdeWord (frameOf a) isUser)
      trace := .invlpg ((0xFFC00000 : BitVec 32) + (i <<< 12)) ::
        .store (recursivePd + 4 * i) s.root :: s₁.trace }
  have hself : ∀ m tr, (∀ g ≠ frameOf a, m g = s₂.mem g) →
      SelfMap decodeEntry m s.root 1023 ∧
        ({ s₂ with mem := m, trace := tr } : Machine).table k = some (frameOf a) := by
    intro m tr hm
    have hmroot : m s.root = write s.mem s.root k (pdeWord (frameOf a) isUser) s.root :=
      hm _ (Ne.symm hroot)
    constructor
    · rw [SelfMap, RecursiveTable.table, hmroot, write_apply, if_neg fun hc => hk hc.2.symm]
      exact h.selfMap
    · change RecursiveTable.table decodeEntry m s.root k = _
      rw [RecursiveTable.table, hmroot, write_apply, if_pos ⟨rfl, rfl⟩, decodeEntry_pdeWord]
      rfl
  obtain ⟨evs, hzero, hevs⟩ := storeWordsWith_ok fault (s := s₂) (f := frameOf a)
    ((0xFFC00000 : BitVec 32) + (i <<< 12)) (fun _ => 0)
    (fun m tr hm j hj => by
      obtain ⟨hs, ht⟩ := hself m tr hm
      have hj' : (BitVec.ofNat 32 j).toNat < 1024 := by
        rw [BitVec.toNat_ofNat]
        omega
      rw [(translate_entryAddr (s := { s₂ with mem := m, trace := tr }) h.cr3_eq hs hi hj').1, ht])
    (fun j hj => by
      have hj' : (BitVec.ofNat 32 j).toNat = j := by
        rw [BitVec.toNat_ofNat]
        omega
      rw [(translate_entryAddr h.cr3_eq h.selfMap hi (by omega)).2, hj'])
    1024 0 rfl s₂.mem s₂.trace (fun _ _ => rfl) (fun j hj => absurd hj (by omega))
  refine ⟨evs ++ [.invlpg ((0xFFC00000 : BitVec 32) + (i <<< 12)),
    .store (recursivePd + 4 * i) s.root], ?_, ?_⟩
  · rw [ensureTableWith, bind_of_ok (loadWith_ok fault htrans), hword, hbit, if_neg (by simp),
      newTableWith, bind_of_ok (allocFrame_ok halloc), frameField_eq]
    refine (bind_of_ok hstore).trans ?_
    rw [Machine.stored, hword]
    rw [invlpg_bind_apply, zeroPageWith]
    refine hzero.trans ?_
    rw [Machine.installed, List.append_assoc]
    rfl
  · intro e he
    rcases List.mem_append.mp he with he | he
    · obtain ⟨j, hj, rfl⟩ := hevs e he
      have hk := k.isLt
      have hj' : (BitVec.ofNat 32 j).toNat = j := by
        rw [BitVec.toNat_ofNat]
        omega
      refine Or.inr ⟨_, _, rfl, Or.inr ⟨?_, rfl⟩⟩
      rw [entryAddr_toNat (by omega) (by omega)]
      omega
    · rcases List.mem_pair.mp he with rfl | rfl
      · exact Or.inl ⟨_, rfl⟩
      · have hk := k.isLt
        exact Or.inr ⟨_, _, rfl, Or.inl ⟨by rw [pdeAddr_toNat (by omega), hi], rfl⟩⟩

/-- The entry `mmu_map_page` writes for a page in frame `f`. -/
def pteWord (f : BitVec 20) (isWriteable isUser : Bool) : BitVec 32 :=
  { present := 1, rw := bitField isWriteable, user := bitField isUser,
    physicalFrame := f : PageTableEntry }.toWord

/-- The word for a page decodes to its frame and rights. -/
theorem decodeEntry_pteWord (f : BitVec 20) (isWriteable isUser : Bool) :
    decodeEntry (pteWord f isWriteable isUser) = some (f, ⟨isWriteable, isUser⟩) := by
  rw [pteWord, decodeEntry_pte, bitField_getLsbD, bitField_getLsbD]

/-- The virtual address of a table entry, as `mmu_map_page` computes it. -/
def entryAddr (virt : BitVec 32) : BitVec 32 :=
  (0xFFC00000 : BitVec 32) + ((virt >>> 22) <<< 12) + (4 : BitVec 32) * ((virt >>> 12) &&& 0x3FF)

/-- The events of the second half of a call that wrote an entry of table `t`. -/
def mapEvents (t : BitVec 20) (call : MapCall) : List Event :=
  [.mapPage call, .invlpg call.virtAddr, .store (entryAddr call.virtAddr) t]

/-- The state after the entry of `virt` was written in table `t`, in a call that started with
memory `before`. -/
def Machine.mapped (s : Machine) (t : BitVec 20) (phys virt : BitVec 32)
    (isWriteable isUser : Bool) (before : PhysMem) : Machine :=
  { s with
    mem := write s.mem t (ptIndex virt) (pteWord (frameOf phys) isWriteable isUser)
    trace := mapEvents t ⟨phys, virt, isWriteable, isUser, before,
      write s.mem t (ptIndex virt) (pteWord (frameOf phys) isWriteable isUser)⟩ ++ s.trace }

/-- The shift computes the directory index. -/
theorem shiftRight_pdIndex (virt : BitVec 32) : (virt >>> 22).toNat = (pdIndex virt).toNat := by
  rw [pdIndex_toNat, BitVec.toNat_ushiftRight, Nat.shiftRight_eq_div_pow]

/-- The shift and the mask compute the table index. -/
theorem shiftRight_ptIndex (virt : BitVec 32) :
    ((virt >>> 12) &&& 0x3FF).toNat = (ptIndex virt).toNat := by
  have hmask : (0x3FF : BitVec 32).toNat = 2 ^ 10 - 1 := rfl
  rw [ptIndex_toNat, BitVec.toNat_and, hmask, Nat.and_two_pow_sub_one_eq_mod,
    BitVec.toNat_ushiftRight, Nat.shiftRight_eq_div_pow]

/-- The entry of an address lies in the window's page for its table. -/
theorem entryAddr_page (virt : BitVec 32) :
    (entryAddr virt).toNat / 4096 = 0xFFC00 + (pdIndex virt).toNat := by
  have hk := (pdIndex virt).isLt
  have hj := (ptIndex virt).isLt
  rw [entryAddr, entryAddr_toNat (by rw [shiftRight_pdIndex]; omega)
    (by rw [shiftRight_ptIndex]; omega), shiftRight_pdIndex, shiftRight_ptIndex]
  omega

/-- Once the table of its slot is there, `mmu_map_page` writes one entry of it. -/
theorem mmuMapPageWith_eq (phys : BitVec 32) (isWriteable : Bool) {virt : BitVec 32}
    {isUser : Bool} {s₁ : Machine}
    (hensure : ensureTableWith fault (recursivePd + (4 : BitVec 32) * (virt >>> 22))
      ((0xFFC00000 : BitVec 32) + ((virt >>> 22) <<< 12)) isUser s = .ok ((), s₁))
    (h₁ : Recursive s₁) (ht : s₁.table (pdIndex virt) = some t) :
    mmuMapPageWith fault phys virt isWriteable isUser s =
      .ok ((), s₁.mapped t phys virt isWriteable isUser s.mem) := by
  have hlt : ((virt >>> 12) &&& 0x3FF).toNat < 1024 := by
    have := (ptIndex virt).isLt
    rw [shiftRight_ptIndex]
    omega
  obtain ⟨htrans, hword⟩ := translate_entryAddr h₁.cr3_eq h₁.selfMap (shiftRight_pdIndex virt) hlt
  have hindex := BitVec.eq_of_toNat_eq (hword.trans (shiftRight_ptIndex virt))
  have hstore := storeWith_ok fault (htrans.trans ht)
    (pteWord (frameOf phys) isWriteable isUser)
  rw [mmuMapPageWith, get_bind_apply]
  refine (bind_of_ok hensure).trans ?_
  rw [frameField_eq]
  refine (bind_of_ok hstore).trans ?_
  rw [Machine.stored, hindex, invlpg_bind_apply]
  rfl

end Window

end AuriOS
