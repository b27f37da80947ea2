import AuriOS.Foundation.TranslationCache
import AuriOS.Mm.MapRuns

/-!
# The TLB

`mmu_map_page` edits the tables that the processor translates by, and the processor keeps
translations: it may look up any page that is present at any moment, also between two stores of a
running call, and forgets a page on `invlpg`.

* `mmuMapPageWith_instructions`: a call as the list of its stores and `invlpg`s;
* `issues_run`: what these do to memory, one after the other;
* `store_hits`: a store that finds its page in the TLB goes where the tables say;
* `tlb_coherent_iff`: when every kept translation is the one in force after each call.
-/

namespace AuriOS

open Program RecursiveTable TranslationCache

/-! ### The instructions of a call -/

/-- What a call does to memory and to the TLB. -/
inductive Instruction
  | store (va word : BitVec 32)
  | invlpg (va : BitVec 32)

/-- The body of `if (pde.present == 0)`, with the address that the allocator gave. -/
def tableInstructions (virt newPtPhys : BitVec 32) (isUser : Bool) : List Instruction :=
  .store (recursivePd + (4 : BitVec 32) * (virt >>> 22)) (pdeWord (frameOf newPtPhys) isUser) ::
    .invlpg ((0xFFC00000 : BitVec 32) + ((virt >>> 22) <<< 12)) ::
    (List.range' 0 1024).map fun j =>
      .store ((0xFFC00000 : BitVec 32) + ((virt >>> 22) <<< 12) + 4 * BitVec.ofNat 32 j) 0

/-- The end of `mmu_map_page`. -/
def entryInstructions (phys virt : BitVec 32) (isWriteable isUser : Bool) : List Instruction :=
  [.store (entryAddr virt) (pteWord (frameOf phys) isWriteable isUser), .invlpg virt]

section Instructions

variable (fault : BitVec 32 → Bool → Kernel Unit)

/-- What an instruction does. -/
def Instruction.run : Instruction → Kernel Unit
  | .store va word => storeWith fault va word
  | .invlpg va => AuriOS.invlpg va

/-- The instructions run one after the other. -/
def runInstructions : List Instruction → Kernel Unit
  | [] => pure ()
  | i :: rest => do
      i.run fault
      runInstructions rest

/-- Two lists of instructions run one after the other. -/
theorem runInstructions_append (first rest : List Instruction) :
    runInstructions fault (first ++ rest) =
      runInstructions fault first >>= fun _ => runInstructions fault rest := by
  induction first with
  | nil => exact (pure_bind _ _).symm
  | cons i first ih =>
    rw [List.cons_append, runInstructions, runInstructions, ih, bind_assoc]

/-- Stores in a row are the instructions of their stores. -/
theorem storeWordsWith_instructions (base : BitVec 32) (word : ℕ → BitVec 32) (n i : ℕ) :
    storeWordsWith fault base word n i = runInstructions fault
      ((List.range' i n).map fun j => .store (base + 4 * BitVec.ofNat 32 j) (word j)) := by
  induction n generalizing i with
  | zero => rfl
  | succ n ih =>
    rw [storeWordsWith, ih, List.range'_succ, List.map_cons, runInstructions]
    rfl

/-- A new table is allocated, and the rest are these instructions. -/
theorem newTableWith_instructions (virt : BitVec 32) (isUser : Bool) :
    newTableWith fault (recursivePd + (4 : BitVec 32) * (virt >>> 22))
        ((0xFFC00000 : BitVec 32) + ((virt >>> 22) <<< 12)) isUser = (do
      let newPtPhys ← allocFrame
      runInstructions fault (tableInstructions virt newPtPhys isUser)) := by
  rw [newTableWith]
  refine congrArg _ (funext fun newPtPhys => ?_)
  rw [zeroPageWith, storeWordsWith_instructions, frameField_eq]
  rfl

/-- `mmu_map_page` is the instructions of its two parts, between a load and an entry of the
trace. -/
theorem mmuMapPageWith_instructions (phys virt : BitVec 32) (isWriteable isUser : Bool) :
    mmuMapPageWith fault phys virt isWriteable isUser = (do
      let start ← get
      let pde ← loadWith fault (recursivePd + (4 : BitVec 32) * (virt >>> 22))
      (if pde.getLsbD 0 then pure () else do
        let newPtPhys ← allocFrame
        runInstructions fault (tableInstructions virt newPtPhys isUser))
      runInstructions fault (entryInstructions phys virt isWriteable isUser)
      let stop ← get
      record (.mapPage ⟨phys, virt, isWriteable, isUser, start.mem, stop.mem⟩)) := by
  rw [mmuMapPageWith]
  refine congrArg _ (funext fun start => ?_)
  dsimp only
  rw [ensureTableWith, bind_assoc, newTableWith_instructions, frameField_eq]
  refine congrArg _ (funext fun pde => congrArg _ (funext fun _ => ?_))
  simp only [entryInstructions, runInstructions, bind_assoc, pure_bind]
  rfl

end Instructions

/-! ### What they do to memory -/

/-- A page, by its directory slot and its table entry. -/
abbrev Page := BitVec 10 × BitVec 10

/-- The page of an address. -/
def pageOf (va : BitVec 32) : Page := (pdIndex va, ptIndex va)

/-- The translation of a page under the directory in frame `root`. -/
def translatePage (root : BitVec 20) (mem : PhysMem) (p : Page) : Option (BitVec 20 × Rights) :=
  RecursiveTable.walk decodeEntry mem root p.1 p.2

/-- The writes and flushes that instructions make, each store where its address is mapped to when
its turn comes. -/
inductive Issues (root : BitVec 20) :
    PhysMem → List Instruction → List (Op PhysMem Page) → Prop
  | nil (mem : PhysMem) : Issues root mem [] []
  | store {mem : PhysMem} {va word : BitVec 32} {f : BitVec 20} {rest : List Instruction}
      {ops : List (Op PhysMem Page)} : (walk mem root va).map Prod.fst = some f →
      Issues root (write mem f (wordIndex va) word) rest ops →
      Issues root mem (.store va word :: rest) (.write (write mem f (wordIndex va) word) :: ops)
  | invlpg {mem : PhysMem} {va : BitVec 32} {rest : List Instruction}
      {ops : List (Op PhysMem Page)} : Issues root mem rest ops →
      Issues root mem (.invlpg va :: rest) (.flush (pageOf va) :: ops)

section Issue

variable {s : Machine} {root f : BitVec 20} {mem : PhysMem} {first rest : List Instruction}
  {ops ops' : List (Op PhysMem Page)}

/-- Instructions issue one list of operations. -/
theorem issues_unique (h : Issues root mem first ops) (h' : Issues root mem first ops') :
    ops = ops' := by
  induction h generalizing ops' with
  | nil mem =>
    cases h'
    rfl
  | store hf _ ih =>
    cases h' with
    | store hf' hrest =>
      obtain rfl := Option.some.inj (hf.symm.trans hf')
      rw [ih hrest]
  | invlpg _ ih =>
    cases h' with
    | invlpg hrest => rw [ih hrest]

/-- The first instructions issue the first operations. -/
theorem issues_split (h : Issues root mem (first ++ rest) ops) :
    ∃ done later, ops = done ++ later ∧ Issues root mem first done := by
  induction first generalizing mem ops with
  | nil => exact ⟨[], ops, rfl, .nil mem⟩
  | cons i first ih =>
    cases h with
    | store hf hrest =>
      obtain ⟨done, later, rfl, hdone⟩ := ih hrest
      exact ⟨_ :: done, later, rfl, .store hf hdone⟩
    | invlpg hrest =>
      obtain ⟨done, later, rfl, hdone⟩ := ih hrest
      exact ⟨_ :: done, later, rfl, .invlpg hdone⟩

/-- Instructions in sequence issue their operations in sequence. -/
theorem issues_append (h : Issues root mem first ops)
    (h' : Issues root (memAfter mem ops) rest ops') :
    Issues root mem (first ++ rest) (ops ++ ops') := by
  induction h with
  | nil mem => exact h'
  | store hf _ ih => exact .store hf (ih h')
  | invlpg _ ih => exact .invlpg (ih h')

/-- The kernel's run of instructions does these writes. -/
theorem issues_run (fault : BitVec 32 → Bool → Kernel Unit) (hcr3 : s.cr3 = some s.kernelDirectory)
    (h : Issues s.root s.mem first ops) :
    ∃ evs, runInstructions fault first s =
      .ok ((), { s with mem := memAfter s.mem ops, trace := evs ++ s.trace }) := by
  generalize hmem : s.mem = mem at h
  generalize hroot : s.root = root at h
  induction h generalizing s with
  | nil mem => exact ⟨[], by subst hmem; rfl⟩
  | @store mem va word f rest ops hf _ ih =>
    subst hmem hroot
    have htranslate : (s.translate va).map Prod.fst = some f := by
      rw [translate_eq hcr3]
      exact hf
    have hstore := storeWith_ok fault htranslate word
    obtain ⟨evs, hrun⟩ := ih (s := s.stored va f word) hcr3 rfl rfl
    refine ⟨evs ++ [.store va f], ?_⟩
    rw [runInstructions, Instruction.run]
    refine (bind_of_ok hstore).trans (hrun.trans ?_)
    rw [List.append_assoc]
    rfl
  | @invlpg mem va rest ops _ ih =>
    subst hmem hroot
    obtain ⟨evs, hrun⟩ := ih (s := { s with trace := .invlpg va :: s.trace }) hcr3 rfl rfl
    refine ⟨evs ++ [.invlpg va], ?_⟩
    rw [runInstructions, Instruction.run, invlpg_bind_apply, hrun, List.append_assoc]
    rfl

end Issue

/-- The first `n` words of a frame are cleared. -/
def cleared (mem : PhysMem) (f : BitVec 20) (n : ℕ) : PhysMem :=
  Function.update mem f fun j => if j.toNat < n then 0 else mem f j

/-- A frame with no words cleared is as it was. -/
theorem cleared_zero (mem : PhysMem) (f : BitVec 20) : cleared mem f 0 = mem := by
  unfold cleared
  simp only [Nat.not_lt_zero, if_false]
  exact Function.update_eq_self f mem

/-- Clearing a frame leaves the others. -/
theorem cleared_of_ne {mem : PhysMem} {f g : BitVec 20} (n : ℕ) (h : g ≠ f) :
    cleared mem f n g = mem g := Function.update_of_ne h _ _

/-- One more word. -/
theorem write_cleared (mem : PhysMem) (f : BitVec 20) {i : BitVec 10} {n : ℕ} (hi : i.toNat = n) :
    write (cleared mem f n) f i 0 = cleared mem f (n + 1) := by
  funext g j
  rw [write_apply]
  by_cases hg : g = f
  · subst hg
    simp only [cleared, Function.update_self, true_and]
    by_cases hj : j = i
    · rw [if_pos hj, if_pos (by rw [hj, hi]; exact Nat.lt_succ_self n)]
    · have hne : j.toNat ≠ n := fun heq => hj (BitVec.eq_of_toNat_eq (heq.trans hi.symm))
      rw [if_neg hj]
      by_cases hlt : j.toNat < n
      · rw [if_pos hlt, if_pos (Nat.lt_succ_of_lt hlt)]
      · rw [if_neg hlt, if_neg (by omega)]
  · rw [if_neg fun hc => hg hc.1, cleared_of_ne _ hg, cleared_of_ne _ hg]

/-- Memory once a table in frame `f` is linked into the slot of `virt`. -/
def Machine.linked (s : Machine) (virt : BitVec 32) (f : BitVec 20) (isUser : Bool) : PhysMem :=
  write s.mem s.root (pdIndex virt) (pdeWord f isUser)

/-- The directory entry is written, the window's page flushed, and the table cleared. -/
def tableOps (s : Machine) (virt : BitVec 32) (f : BitVec 20) (isUser : Bool) :
    List (Op PhysMem Page) :=
  .write (s.linked virt f isUser) :: .flush (1023, pdIndex virt) ::
    (List.range' 0 1024).map fun j => .write (cleared (s.linked virt f isUser) f (j + 1))

/-- The entry of the page is written, and the page flushed. -/
def entryOps (mem : PhysMem) (f : BitVec 20) (phys virt : BitVec 32) (isWriteable isUser : Bool) :
    List (Op PhysMem Page) :=
  [.write (write mem f (ptIndex virt) (pteWord (frameOf phys) isWriteable isUser)),
    .flush (pageOf virt)]

section CallIssue

variable {s : Machine} {virt : BitVec 32} {f : BitVec 20}

/-- The window address of a word of the table of `virt`. -/
theorem walk_tableWord (virt : BitVec 32) (hcr3 : s.cr3 = some s.kernelDirectory)
    (hself : SelfMap decodeEntry s.mem s.root 1023) {j : BitVec 32} (hj : j.toNat < 1024) :
    (walk s.mem s.root ((0xFFC00000 : BitVec 32) + ((virt >>> 22) <<< 12) + 4 * j)).map Prod.fst =
        s.table (pdIndex virt) ∧
      (wordIndex ((0xFFC00000 : BitVec 32) + ((virt >>> 22) <<< 12) + 4 * j)).toNat = j.toNat := by
  rw [← translate_eq hcr3]
  exact translate_entryAddr hcr3 hself (shiftRight_pdIndex virt) hj

/-- `@memset` clears the table of the slot word by word. -/
theorem issues_clear (hcr3 : s.cr3 = some s.kernelDirectory)
    (hself : SelfMap decodeEntry s.mem s.root 1023) (ht : s.table (pdIndex virt) = some f)
    (hne : s.root ≠ f) {n i : ℕ} (hn : i + n ≤ 1024) :
    Issues s.root (cleared s.mem f i)
      ((List.range' i n).map fun j =>
        .store ((0xFFC00000 : BitVec 32) + ((virt >>> 22) <<< 12) + 4 * BitVec.ofNat 32 j) 0)
      ((List.range' i n).map fun j => .write (cleared s.mem f (j + 1))) := by
  induction n generalizing i with
  | zero => exact .nil _
  | succ n ih =>
    have hi : (BitVec.ofNat 32 i).toNat = i := by
      rw [BitVec.toNat_ofNat]
      omega
    have hroot : cleared s.mem f i s.root = s.mem s.root := cleared_of_ne i hne
    have hself' : SelfMap decodeEntry (cleared s.mem f i) s.root 1023 := by
      rw [SelfMap, RecursiveTable.table, hroot]
      exact hself
    obtain ⟨hwalk, hword⟩ := walk_tableWord (s := { s with mem := cleared s.mem f i }) virt
      (j := BitVec.ofNat 32 i) hcr3 hself' (by omega)
    have ht' : Machine.table { s with mem := cleared s.mem f i } (pdIndex virt) = some f := by
      unfold Machine.table RecursiveTable.table
      change Option.map Prod.fst (decodeEntry (cleared s.mem f i s.root (pdIndex virt))) = _
      rw [hroot]
      exact ht
    have hrest := ih (i := i + 1) (by omega)
    rw [List.range'_succ, List.map_cons, List.map_cons, ← write_cleared s.mem f (hword.trans hi)]
    rw [← write_cleared s.mem f (hword.trans hi)] at hrest
    exact .store (hwalk.trans ht') hrest

/-- The end of a call writes the entry and flushes the page. -/
theorem issues_entry (hcr3 : s.cr3 = some s.kernelDirectory)
    (hself : SelfMap decodeEntry s.mem s.root 1023) (ht : s.table (pdIndex virt) = some f)
    (phys : BitVec 32) (isWriteable isUser : Bool) :
    Issues s.root s.mem (entryInstructions phys virt isWriteable isUser)
      (entryOps s.mem f phys virt isWriteable isUser) := by
  have hj : ((virt >>> 12) &&& 0x3FF).toNat < 1024 := by
    rw [shiftRight_ptIndex]
    exact (ptIndex virt).isLt
  obtain ⟨hwalk, hword⟩ := walk_tableWord virt hcr3 hself hj
  have hindex : wordIndex (entryAddr virt) = ptIndex virt :=
    BitVec.eq_of_toNat_eq (hword.trans (shiftRight_ptIndex virt))
  unfold entryOps
  rw [← hindex]
  exact .store (hwalk.trans ht) (.invlpg (.nil _))

/-- The address that is flushed lies in the page of the window that shows the new table. -/
theorem pageOf_tableWord (virt : BitVec 32) :
    pageOf ((0xFFC00000 : BitVec 32) + ((virt >>> 22) <<< 12)) = (1023, pdIndex virt) := by
  have hk := (pdIndex virt).isLt
  have hzero : ((0xFFC00000 : BitVec 32) + ((virt >>> 22) <<< 12)) =
      (0xFFC00000 : BitVec 32) + ((virt >>> 22) <<< 12) + 4 * 0 := (BitVec.add_zero _).symm
  have haddr := entryAddr_toNat (i := virt >>> 22) (j := 0) (by rw [shiftRight_pdIndex]; omega)
    (by decide)
  rw [← hzero, shiftRight_pdIndex] at haddr
  have hpage : ((0xFFC00000 : BitVec 32) + ((virt >>> 22) <<< 12)).toNat / pageSize =
      windowPage (pdIndex virt) := by
    rw [haddr, windowPage, pageSize]
    change (_ + 4 * 0) / 4096 = _
    omega
  obtain ⟨hslot, hentry⟩ := windowPage_eq_iff.mp hpage
  exact Prod.ext hslot hentry

/-- The stores that clear a table clear its words in order. -/
theorem memAfter_clear (mem : PhysMem) (f : BitVec 20) (i n : ℕ) :
    memAfter (cleared mem f i)
      ((List.range' i n).map fun j => (.write (cleared mem f (j + 1)) : Op PhysMem Page)) =
        cleared mem f (i + n) := by
  induction n generalizing i with
  | zero => rfl
  | succ n ih =>
    rw [List.range'_succ, List.map_cons, memAfter, ih, Nat.add_assoc, Nat.add_comm 1 n]

/-- After the body of the branch the new table is linked and cleared. -/
theorem memAfter_tableOps (isUser : Bool) :
    memAfter s.mem (tableOps s virt f isUser) = cleared (s.linked virt f isUser) f 1024 := by
  have hclear := memAfter_clear (s.linked virt f isUser) f 0 1024
  rw [cleared_zero, Nat.zero_add] at hclear
  rw [tableOps, memAfter, memAfter, hclear]

/-- Linking a table changes one slot of the directory. -/
theorem linked_root (isUser : Bool) (k : BitVec 10) :
    s.linked virt f isUser s.root k =
      if k = pdIndex virt then pdeWord f isUser else s.mem s.root k := by
  rw [Machine.linked, write_apply]
  simp only [true_and]

/-- Linking a table keeps the directory mapping itself. -/
theorem selfMap_linked (h : Recursive s) (hk : pdIndex virt ≠ 1023) (isUser : Bool) :
    SelfMap decodeEntry (s.linked virt f isUser) s.root 1023 := by
  rw [SelfMap, RecursiveTable.table, linked_root, if_neg (Ne.symm hk)]
  exact h.selfMap

/-- The slot leads to the linked table. -/
theorem table_linked (isUser : Bool) :
    RecursiveTable.table decodeEntry (s.linked virt f isUser) s.root (pdIndex virt) = some f := by
  rw [RecursiveTable.table, linked_root, if_pos rfl, decodeEntry_pdeWord]
  rfl

/-- The body of the branch links the table, flushes its window page and clears it. -/
theorem issues_table (h : Recursive s) (hk : pdIndex virt ≠ 1023) {a : BitVec 32}
    (hroot : frameOf a ≠ s.root) (isUser : Bool) :
    Issues s.root s.mem (tableInstructions virt a isUser) (tableOps s virt (frameOf a) isUser) := by
  obtain ⟨hwalk, hword⟩ := translate_pdeAddr h.cr3_eq h.selfMap (shiftRight_pdIndex virt)
  rw [translate_eq h.cr3_eq] at hwalk
  have hclear := issues_clear (s := { s with mem := s.linked virt (frameOf a) isUser }) (n := 1024)
    (i := 0) h.cr3_eq (selfMap_linked h hk isUser) (table_linked isUser) (Ne.symm hroot) le_rfl
  rw [cleared_zero] at hclear
  have hflush : Issues s.root (s.linked virt (frameOf a) isUser)
      (.invlpg ((0xFFC00000 : BitVec 32) + ((virt >>> 22) <<< 12)) :: _)
      (.flush (pageOf ((0xFFC00000 : BitVec 32) + ((virt >>> 22) <<< 12))) :: _) := .invlpg hclear
  rw [pageOf_tableWord] at hflush
  have hlinked : s.linked virt (frameOf a) isUser = write s.mem s.root
      (wordIndex (recursivePd + (4 : BitVec 32) * (virt >>> 22))) (pdeWord (frameOf a) isUser) := by
    rw [hword]
    rfl
  unfold tableOps tableInstructions
  rw [hlinked] at hflush ⊢
  exact .store hwalk hflush

end CallIssue

/-! ### A call -/

/-- The instructions of a call in this state: the directory entry of the slot is tested first. -/
def Machine.callInstructions (s : Machine) (phys virt : BitVec 32) (isWriteable isUser : Bool) :
    List Instruction :=
  (if (s.mem s.root (pdIndex virt)).getLsbD 0 then [] else
    match pmmAllocFrame s.bitmap with
    | .ok (a, _) => tableInstructions virt a isUser
    | .error _ => []) ++ entryInstructions phys virt isWriteable isUser

/-- If a call has to allocate a table, it does not get frame 0 for a second one. -/
def FrameLeft (s : Machine) (virt : BitVec 32) : Prop :=
  s.table (pdIndex virt) = none → ∀ a bm, pmmAllocFrame s.bitmap = .ok (a, bm) →
    a ≠ 0 ∨ ∀ k, s.table k ≠ some 0

/-- If a call has to allocate a table, no word of the frame it gets looks like a present entry, but
for the one that the call writes. -/
def BlankFrame (s : Machine) (virt : BitVec 32) : Prop :=
  s.table (pdIndex virt) = none → ∀ a bm, pmmAllocFrame s.bitmap = .ok (a, bm) →
    ∀ j ≠ ptIndex virt, decodeEntry (s.mem (frameOf a) j) = none

section Call

variable {s s' : Machine} {virt phys : BitVec 32} {isWriteable isUser : Bool}
  {ops : List (Op PhysMem Page)}

/-- What a call does to memory, one write after the other: with a table that is there it writes an
entry, otherwise it links and clears a table first. -/
theorem callInstructions_cases (h : Recursive s) (hk : pdIndex virt ≠ 1023)
    (hfresh : s.table (pdIndex virt) = none → ∀ a bm, pmmAllocFrame s.bitmap = .ok (a, bm) →
      Fresh decodeEntry s.mem s.root (frameOf a)) (phys : BitVec 32) (isWriteable isUser : Bool) :
    (∃ t, s.table (pdIndex virt) = some t ∧
      Issues s.root s.mem (s.callInstructions phys virt isWriteable isUser)
        (entryOps s.mem t phys virt isWriteable isUser)) ∨
    ∃ a bm, s.table (pdIndex virt) = none ∧ pmmAllocFrame s.bitmap = .ok (a, bm) ∧
      Fresh decodeEntry s.mem s.root (frameOf a) ∧
      Issues s.root s.mem (s.callInstructions phys virt isWriteable isUser)
        (tableOps s virt (frameOf a) isUser ++
          entryOps (cleared (s.linked virt (frameOf a) isUser) (frameOf a) 1024) (frameOf a) phys
            virt isWriteable isUser) := by
  unfold Machine.callInstructions
  cases ht : s.table (pdIndex virt) with
  | some t =>
    have hbit : (s.mem s.root (pdIndex virt)).getLsbD 0 = true := by
      refine Bool.eq_true_of_not_eq_false fun hfalse => ?_
      have hnone : s.table (pdIndex virt) = none :=
        table_eq_none_iff.mpr (decodeEntry_eq_none_iff.mpr hfalse)
      rw [ht] at hnone
      exact absurd hnone (by simp)
    rw [if_pos hbit]
    exact Or.inl ⟨t, rfl, issues_entry h.cr3_eq h.selfMap ht phys isWriteable isUser⟩
  | none =>
    obtain ⟨a, bm, halloc⟩ := exists_pmmAllocFrame s.bitmap
    have hfr := hfresh ht a bm halloc
    have hbit : (s.mem s.root (pdIndex virt)).getLsbD 0 = false :=
      decodeEntry_eq_none_iff.mp (table_eq_none_iff.mp ht)
    have hroot : cleared (s.linked virt (frameOf a) isUser) (frameOf a) 1024 s.root =
        s.linked virt (frameOf a) isUser s.root := cleared_of_ne 1024 (Ne.symm hfr.1)
    have hself : SelfMap decodeEntry
        (cleared (s.linked virt (frameOf a) isUser) (frameOf a) 1024) s.root 1023 := by
      rw [SelfMap, RecursiveTable.table, hroot]
      exact selfMap_linked h hk isUser
    have htable : RecursiveTable.table decodeEntry
        (cleared (s.linked virt (frameOf a) isUser) (frameOf a) 1024) s.root (pdIndex virt) =
          some (frameOf a) := by
      rw [RecursiveTable.table, hroot]
      exact table_linked isUser
    have hentry := issues_entry
      (s := { s with mem := cleared (s.linked virt (frameOf a) isUser) (frameOf a) 1024 })
      h.cr3_eq hself htable phys isWriteable isUser
    refine Or.inr ⟨a, bm, rfl, halloc, hfr, ?_⟩
    rw [if_neg (by rw [hbit]; simp), halloc]
    refine issues_append (issues_table h hk hfr.1 isUser) ?_
    rw [memAfter_tableOps]
    exact hentry

/-- The call completes, and memory is as its writes leave it. -/
theorem mmuMapPage_memAfter (h : Recursive s)
    (hissues : Issues s.root s.mem (s.callInstructions phys virt isWriteable isUser) ops) :
    ∃ s', mmuMapPage phys virt isWriteable isUser s = .ok ((), s') ∧
      s'.mem = memAfter s.mem ops := by
  have hload := loadWith_ok onFault
    (translate_pdeAddr h.cr3_eq h.selfMap (shiftRight_pdIndex virt)).1
  rw [(translate_pdeAddr h.cr3_eq h.selfMap (shiftRight_pdIndex virt)).2] at hload
  rw [mmuMapPage, mmuMapPageWith_instructions, get_bind_apply, bind_of_ok hload]
  unfold Machine.callInstructions at hissues
  by_cases hbit : (s.mem s.root (pdIndex virt)).getLsbD 0 = true
  · rw [if_pos hbit, List.nil_append] at hissues
    obtain ⟨evs, hrun⟩ := issues_run onFault h.cr3_eq hissues
    rw [if_pos hbit, pure_bind, bind_of_ok hrun]
    exact ⟨_, rfl, rfl⟩
  · have ht : s.table (pdIndex virt) = none :=
      table_eq_none_iff.mpr (decodeEntry_eq_none_iff.mpr (Bool.eq_false_of_not_eq_true hbit))
    obtain ⟨a, bm, halloc⟩ := exists_pmmAllocFrame s.bitmap
    rw [if_neg hbit, halloc] at hissues
    obtain ⟨evs, hrun⟩ := issues_run (s := { s with bitmap := bm, trace := .alloc a :: s.trace })
      onFault h.cr3_eq hissues
    rw [runInstructions_append] at hrun
    rw [if_neg hbit, bind_assoc, bind_of_ok (allocFrame_ok halloc), ← bind_assoc, bind_of_ok hrun]
    exact ⟨_, rfl, rfl⟩

end Call

/-! ### The moments of a call -/

/-- The table in frame `f` is linked, and no entry of it is present but that of `virt`. -/
structure Machine.Linked (s : Machine) (virt : BitVec 32) (f : BitVec 20) (isUser : Bool)
    (mem : PhysMem) : Prop where
  other : ∀ g ≠ f, mem g = s.linked virt f isUser g
  blank : ∀ j ≠ ptIndex virt, decodeEntry (mem f j) = none

section Moments

variable {s : Machine} {virt : BitVec 32} {f : BitVec 20} {isUser : Bool} {mem mem' : PhysMem}
  {p : Page} {x : BitVec 20 × Rights}

/-- Another page of the same slot has another table index. -/
theorem ptIndex_ne_of_page (hp : p ≠ pageOf virt) (hslot : p.1 = pdIndex virt) :
    p.2 ≠ ptIndex virt := fun hentry => hp (Prod.ext hslot hentry)

/-- In the slot of the new table nothing is present but the page of the call. -/
theorem linked_slot (h : s.Linked virt f isUser mem) (hf : f ≠ s.root) (hp : p ≠ pageOf virt)
    (hslot : p.1 = pdIndex virt) : translatePage s.root mem p = none := by
  have hroot : mem s.root p.1 = pdeWord f isUser := by
    rw [h.other _ (Ne.symm hf), linked_root, if_pos hslot]
  unfold translatePage RecursiveTable.walk
  rw [hroot, decodeEntry_pdeWord, Option.bind_some, h.blank _ (ptIndex_ne_of_page hp hslot)]
  rfl

/-- Once the table is linked, the other pages stay as they are. -/
theorem linked_stable (h : s.Linked virt f isUser mem) (h' : s.Linked virt f isUser mem')
    (hfresh : Fresh decodeEntry s.mem s.root f) (hp : p ≠ pageOf virt) :
    translatePage s.root mem' p = translatePage s.root mem p := by
  by_cases hslot : p.1 = pdIndex virt
  · rw [linked_slot h hfresh.1 hp hslot, linked_slot h' hfresh.1 hp hslot]
  · have hroot : mem s.root = s.linked virt f isUser s.root := h.other _ (Ne.symm hfresh.1)
    refine walk_congr ?_ fun t ht => ?_
    · rw [hroot, h'.other _ (Ne.symm hfresh.1)]
    · have hne : t ≠ f := by
        rintro rfl
        rw [RecursiveTable.table, hroot, linked_root, if_neg hslot] at ht
        exact hfresh.2 p.1 ht
      rw [h.other t hne, h'.other t hne]

/-- What was present before the table was linked stays as it is. -/
theorem linked_start
    (habsent : s.table (pdIndex virt) = none) (hfresh : Fresh decodeEntry s.mem s.root f)
    (hother : ∀ g ≠ f, mem g = s.linked virt f isUser g)
    (hx : translatePage s.root s.mem p = some x) :
    translatePage s.root mem p = some x := by
  have habsent' : decodeEntry (s.mem s.root (pdIndex virt)) = none := table_eq_none_iff.mp habsent
  have hslot : p.1 ≠ pdIndex virt := by
    intro hslot
    unfold translatePage at hx
    rw [hslot, walk_of_table_none habsent] at hx
    exact absurd hx (by simp)
  have hroot : ∀ j ≠ pdIndex virt, mem s.root j = s.mem s.root j := by
    intro j hj
    rw [hother _ (Ne.symm hfresh.1), linked_root, if_neg hj]
  rw [← hx]
  refine walk_congr (hroot p.1 hslot) fun t ht => ?_
  by_cases htr : t = s.root
  · -- a page of the window, and not the one of the new table
    subst htr
    obtain ⟨r, hr⟩ := table_eq_some_iff.mp ht
    refine hroot p.2 fun hentry => ?_
    unfold translatePage RecursiveTable.walk at hx
    rw [hr, Option.bind_some, hentry, habsent'] at hx
    exact absurd hx (by simp)
  · have hne : t ≠ f := fun htf => hfresh.2 p.1 (htf ▸ ht)
    rw [hother t hne, Machine.linked, write_of_ne _ _ _ _ _ _ htr]

/-- The words that are cleared one after the other, when no other one is present. -/
theorem linked_cleared (hroot : f ≠ s.root)
    (hblank : ∀ j ≠ ptIndex virt, decodeEntry (s.mem f j) = none) (n : ℕ) :
    s.Linked virt f isUser (cleared (s.linked virt f isUser) f n) where
  other g hg := cleared_of_ne n hg
  blank j hj := by
    have hsame : s.linked virt f isUser f j = s.mem f j := by
      rw [Machine.linked, write_of_ne _ _ _ _ _ _ hroot]
    unfold cleared
    rw [Function.update_self, hsame]
    split
    · exact decodeEntry_zero
    · exact hblank j hj

/-- The table with its first entry. -/
theorem linked_entry (phys : BitVec 32) (isWriteable : Bool) :
    s.Linked virt f isUser (write (cleared (s.linked virt f isUser) f 1024) f (ptIndex virt)
      (pteWord (frameOf phys) isWriteable isUser)) where
  other g hg := by
    funext j
    rw [write_of_ne _ _ _ _ _ _ hg, cleared_of_ne 1024 hg]
  blank j hj := by
    have hlt := j.isLt
    rw [write_apply, if_neg fun hc => hj hc.2, cleared, Function.update_self, if_pos (by omega)]
    exact decodeEntry_zero

/-- The writes of a call that finds its table leave nothing behind. -/
theorem settled_entry (h : Recursive s) (hk : pdIndex virt ≠ 1023)
    (ht : s.table (pdIndex virt) = some f) (phys : BitVec 32) (isWriteable isUser : Bool)
    (hx : Lingers (translatePage s.root) p x s.mem
      (entryOps s.mem f phys virt isWriteable isUser)) :
    translatePage s.root (memAfter s.mem (entryOps s.mem f phys virt isWriteable isUser)) p =
      some x := by
  by_cases hp : p = pageOf virt
  · subst hp
    exact lingers_flush_last [.write (write s.mem f (ptIndex virt)
      (pteWord (frameOf phys) isWriteable isUser))] hx
  · have hsame : translatePage s.root (write s.mem f (ptIndex virt)
        (pteWord (frameOf phys) isWriteable isUser)) p = translatePage s.root s.mem p :=
      (walk_write h.selfMap h.injective hk ht p.1 p.2).trans
        (if_neg fun hc => hp (Prod.ext hc.1 hc.2))
    obtain ⟨m, hm, htranslate⟩ := exists_moment_of_lingers hx
    rcases moment_cases hm with rfl | hwrite
    · exact hsame.trans htranslate
    · rcases List.mem_pair.mp hwrite with heq | heq
      · rw [Op.write.inj heq] at htranslate
        exact htranslate
      · exact absurd heq (by simp)

/-- Memory after a call that installs a table. -/
theorem memAfter_install (phys : BitVec 32) (isWriteable : Bool) :
    memAfter s.mem (tableOps s virt f isUser ++ entryOps (cleared (s.linked virt f isUser) f 1024) f
        phys virt isWriteable isUser) =
      write (cleared (s.linked virt f isUser) f 1024) f (ptIndex virt)
        (pteWord (frameOf phys) isWriteable isUser) := by
  rw [memAfter_append, memAfter_tableOps]
  rfl

/-- A call that installs a table leaves nothing behind exactly when no word of its frame could be
taken for a present entry before it was cleared. -/
theorem settled_install_iff (hk : pdIndex virt ≠ 1023) (habsent : s.table (pdIndex virt) = none)
    (hfresh : Fresh decodeEntry s.mem s.root f) (phys : BitVec 32) (isWriteable isUser : Bool) :
    (∀ p x, Lingers (translatePage s.root) p x s.mem (tableOps s virt f isUser ++
        entryOps (cleared (s.linked virt f isUser) f 1024) f phys virt isWriteable isUser) →
      translatePage s.root (memAfter s.mem (tableOps s virt f isUser ++
        entryOps (cleared (s.linked virt f isUser) f 1024) f phys virt isWriteable isUser)) p =
          some x) ↔
      ∀ j ≠ ptIndex virt, decodeEntry (s.mem f j) = none := by
  have hend : s.Linked virt f isUser (write (cleared (s.linked virt f isUser) f 1024) f
      (ptIndex virt) (pteWord (frameOf phys) isWriteable isUser)) := linked_entry phys isWriteable
  rw [memAfter_install]
  constructor
  · -- while the table is linked and not cleared, an old word of the frame can be looked up
    intro hall j hj
    by_contra hpresent
    obtain ⟨leaf, hleaf⟩ := Option.ne_none_iff_exists'.mp hpresent
    have hp : (pdIndex virt, j) ≠ pageOf virt := fun heq => hj (congrArg Prod.snd heq)
    have hword : s.linked virt f isUser f j = s.mem f j := by
      rw [Machine.linked, write_of_ne _ _ _ _ _ _ hfresh.1]
    have hlookup : translatePage s.root (s.linked virt f isUser) (pdIndex virt, j) =
        some (leaf.1, min ⟨true, isUser⟩ leaf.2) := by
      unfold translatePage RecursiveTable.walk
      rw [linked_root, if_pos rfl, decodeEntry_pdeWord, Option.bind_some, hword, hleaf]
      rfl
    have hstale := hall (pdIndex virt, j) _ (Or.inr (lingers_now hlookup ?_))
    · rw [linked_slot hend hfresh.1 hp rfl] at hstale
      exact absurd hstale (by simp)
    · intro q hq
      rcases List.mem_cons.mp hq with heq | hq
      · rw [Op.flush.inj heq]
        exact fun hc => hk (congrArg Prod.fst hc).symm
      · rcases List.mem_append.mp hq with hq | hq
        · obtain ⟨i, -, heq⟩ := List.mem_map.mp hq
          exact absurd heq (by simp)
        · rcases List.mem_pair.mp hq with heq | heq
          · exact absurd heq (by simp)
          · rw [Op.flush.inj heq]
            exact Ne.symm hp
  · intro hblank p x hx
    by_cases hp : p = pageOf virt
    · subst hp
      have hlast := lingers_flush_last (p := pageOf virt) (tableOps s virt f isUser ++
        [.write (write (cleared (s.linked virt f isUser) f 1024) f (ptIndex virt)
          (pteWord (frameOf phys) isWriteable isUser))]) (by rw [List.append_assoc]; exact hx)
      rw [List.append_assoc] at hlast
      exact (congrArg (fun m => translatePage s.root m (pageOf virt))
        (memAfter_install phys isWriteable)).symm.trans hlast
    · have hcleared : ∀ n, s.Linked virt f isUser (cleared (s.linked virt f isUser) f n) :=
        linked_cleared hfresh.1 hblank
      obtain ⟨m, hm, htranslate⟩ := exists_moment_of_lingers hx
      have hmoment : m = s.mem ∨ s.Linked virt f isUser m := by
        rcases moment_cases hm with rfl | hwrite
        · exact Or.inl rfl
        refine Or.inr ?_
        rcases List.mem_append.mp hwrite with hwrite | hwrite
        · unfold tableOps at hwrite
          rcases List.mem_cons.mp hwrite with heq | hwrite
          · rw [Op.write.inj heq, ← cleared_zero (s.linked virt f isUser) f]
            exact hcleared 0
          · rcases List.mem_cons.mp hwrite with heq | hwrite
            · exact absurd heq (by simp)
            · obtain ⟨j, -, heq⟩ := List.mem_map.mp hwrite
              rw [← Op.write.inj heq]
              exact hcleared (j + 1)
        · rcases List.mem_pair.mp hwrite with heq | heq
          · rw [Op.write.inj heq]
            exact hend
          · exact absurd heq (by simp)
      rcases hmoment with rfl | hlinked
      · exact linked_start habsent hfresh hend.other htranslate
      · exact (linked_stable hlinked hend hfresh hp).trans htranslate

end Moments

/-! ### The stores themselves -/

section Stores

variable {s : Machine} {virt phys : BitVec 32} {isWriteable isUser : Bool} {mem mem' : PhysMem}
  {ops : List (Op PhysMem Page)}

/-- Every store of a call goes through the window. -/
theorem pdIndex_store {va word : BitVec 32}
    (h : .store va word ∈ s.callInstructions phys virt isWriteable isUser) : pdIndex va = 1023 := by
  have hlast : (1023 : BitVec 10).toNat = 1023 := rfl
  have hk := (pdIndex virt).isLt
  have hshift := shiftRight_pdIndex virt
  have hslot : ∀ j : BitVec 32, j.toNat < 1024 →
      pdIndex ((0xFFC00000 : BitVec 32) + ((virt >>> 22) <<< 12) + 4 * j) = 1023 := by
    intro j hj
    apply BitVec.eq_of_toNat_eq
    rw [pdIndex_toNat, entryAddr_toNat (by omega) hj, hlast]
    omega
  unfold Machine.callInstructions at h
  rcases List.mem_append.mp h with h | h
  · split at h
    · exact absurd h List.not_mem_nil
    · split at h
      · unfold tableInstructions at h
        rcases List.mem_cons.mp h with heq | h
        · obtain ⟨rfl, -⟩ := Instruction.store.inj heq
          apply BitVec.eq_of_toNat_eq
          rw [pdIndex_toNat, pdeAddr_toNat (by omega), hlast]
          omega
        · rcases List.mem_cons.mp h with heq | h
          · exact absurd heq (by simp)
          · obtain ⟨j, hj, heq⟩ := List.mem_map.mp h
            obtain ⟨rfl, -⟩ := Instruction.store.inj heq
            obtain ⟨-, hlt⟩ := List.mem_range'_1.mp hj
            exact hslot _ (by rw [BitVec.toNat_ofNat]; omega)
      · exact absurd h List.not_mem_nil
  · rcases List.mem_pair.mp h with heq | heq
    · obtain ⟨rfl, -⟩ := Instruction.store.inj heq
      exact hslot _ (by rw [shiftRight_ptIndex]; exact (ptIndex virt).isLt)
    · exact absurd heq (by simp)

/-- The window shows the directory. -/
theorem window_congr (hself : SelfMap decodeEntry mem s.root 1023)
    (hroot : mem' s.root = mem s.root)
    (j : BitVec 10) : translatePage s.root mem' (1023, j) = translatePage s.root mem (1023, j) := by
  refine walk_congr (congrFun hroot 1023) fun t ht => ?_
  obtain rfl : s.root = t := Option.some.inj (hself.symm.trans ht)
  exact congrFun hroot j

/-- What is written in a call never takes away a translation of the window. -/
theorem window_writes (h : Recursive s) (hk : pdIndex virt ≠ 1023)
    (hfresh : s.table (pdIndex virt) = none → ∀ a bm, pmmAllocFrame s.bitmap = .ok (a, bm) →
      Fresh decodeEntry s.mem s.root (frameOf a))
    (hissues : Issues s.root s.mem (s.callInstructions phys virt isWriteable isUser) ops)
    (hwrite : .write mem ∈ ops) :
    (∀ j x, translatePage s.root s.mem (1023, j) = some x →
      translatePage s.root mem (1023, j) = some x) ∧
    ∀ mem', .write mem' ∈ ops → ∀ j,
      translatePage s.root mem' (1023, j) = translatePage s.root mem (1023, j) := by
  rcases callInstructions_cases h hk hfresh phys isWriteable isUser with
    ⟨t, ht, hissues'⟩ | ⟨a, bm, ht, halloc, hfr, hissues'⟩
  · obtain rfl := issues_unique hissues' hissues
    have hroot : ∀ m, .write m ∈ entryOps s.mem t phys virt isWriteable isUser →
        m s.root = s.mem s.root := by
      intro m hm
      rcases List.mem_pair.mp hm with heq | heq
      · rw [Op.write.inj heq]
        funext j
        exact write_of_ne _ _ _ _ _ _ (table_ne_root h hk ht)
      · exact absurd heq (by simp)
    have hsame := fun m hm => window_congr (s := s) h.selfMap (hroot m hm)
    exact ⟨fun j x hx => (hsame mem hwrite j).trans hx,
      fun mem' hmem' j => (hsame mem' hmem' j).trans (hsame mem hwrite j).symm⟩
  · obtain rfl := issues_unique hissues' hissues
    have hother : ∀ m, .write m ∈ tableOps s virt (frameOf a) isUser ++
        entryOps (cleared (s.linked virt (frameOf a) isUser) (frameOf a) 1024) (frameOf a) phys virt
          isWriteable isUser → ∀ g ≠ frameOf a, m g = s.linked virt (frameOf a) isUser g := by
      intro m hm g hg
      rcases List.mem_append.mp hm with hm | hm
      · unfold tableOps at hm
        rcases List.mem_cons.mp hm with heq | hm
        · rw [Op.write.inj heq]
        · rcases List.mem_cons.mp hm with heq | hm
          · exact absurd heq (by simp)
          · obtain ⟨j, -, heq⟩ := List.mem_map.mp hm
            rw [← Op.write.inj heq]
            exact cleared_of_ne (j + 1) hg
      · rcases List.mem_pair.mp hm with heq | heq
        · rw [Op.write.inj heq]
          exact (linked_entry phys isWriteable).other g hg
        · exact absurd heq (by simp)
    refine ⟨fun j x hx => linked_start ht hfr (hother mem hwrite) hx, fun mem' hmem' j => ?_⟩
    have hroot := hother mem hwrite s.root (Ne.symm hfr.1)
    refine window_congr ?_ ((hother mem' hmem' s.root (Ne.symm hfr.1)).trans hroot.symm) j
    rw [SelfMap, RecursiveTable.table, hroot]
    exact selfMap_linked h hk isUser

/-- A store of a call that finds its page in a coherent TLB goes where the tables say. -/
theorem store_hits {tlb : Page → Option (BitVec 20 × Rights)} (h : Recursive s)
    (hk : pdIndex virt ≠ 1023)
    (hfresh : s.table (pdIndex virt) = none → ∀ a bm, pmmAllocFrame s.bitmap = .ok (a, bm) →
      Fresh decodeEntry s.mem s.root (frameOf a))
    (hc : TranslationCache.Coherent (translatePage s.root) ⟨s.mem, tlb⟩)
    {first rest : List Instruction} {va word : BitVec 32}
    (hcall : s.callInstructions phys virt isWriteable isUser = first ++ .store va word :: rest)
    (hissues : Issues s.root s.mem first ops)
    {c : TranslationCache.State PhysMem Page (BitVec 20 × Rights)}
    (hexec : Exec (translatePage s.root) ops ⟨s.mem, tlb⟩ c) {x : BitVec 20 × Rights}
    (hx : c.cache (pageOf va) = some x) : translatePage s.root c.mem (pageOf va) = some x := by
  have hstore : .store va word ∈ s.callInstructions phys virt isWriteable isUser := by
    rw [hcall]
    exact List.mem_append_right first List.mem_cons_self
  have hslot := pdIndex_store hstore
  have hpage : pageOf va = (1023, ptIndex va) := Prod.ext hslot rfl
  obtain ⟨all, hall⟩ : ∃ all,
      Issues s.root s.mem (s.callInstructions phys virt isWriteable isUser) all := by
    rcases callInstructions_cases h hk hfresh phys isWriteable isUser with
      ⟨t, -, hissues'⟩ | ⟨a, bm, -, -, -, hissues'⟩
    · exact ⟨_, hissues'⟩
    · exact ⟨_, hissues'⟩
  obtain ⟨done, later, rfl, hdone⟩ := issues_split (hcall ▸ hall)
  obtain rfl := issues_unique hissues hdone
  have hwrites : ∀ {m}, .write m ∈ ops → .write m ∈ ops ++ later :=
    fun hm => List.mem_append_left later hm
  -- the translation was in force at some moment up to here
  obtain ⟨m, hm, htranslate⟩ : ∃ m ∈ moments s.mem ops,
      translatePage s.root m (pageOf va) = some x := by
    rcases exec_cache hexec hx with ⟨hcache, -⟩ | hlingers
    · exact ⟨s.mem, mem_moments s.mem ops, hc _ x hcache⟩
    · exact exists_moment_of_lingers hlingers
  rw [exec_mem hexec, hpage]
  rw [hpage] at htranslate
  rcases memAfter_cases s.mem ops with ⟨hafter, hstart⟩ | hafter
  · rw [hafter]
    rwa [hstart m hm] at htranslate
  · obtain ⟨hkept, hsame⟩ := window_writes h hk hfresh hall (hwrites hafter)
    rcases moment_cases hm with rfl | hwrite
    · exact hkept _ x htranslate
    · rw [← hsame m (hwrites hwrite)]
      exact htranslate

end Stores

/-! ### Runs with a TLB -/

/-- The kernel's state and the translations that the processor keeps. -/
structure Cpu where
  machine : Machine
  tlb : Page → Option (BitVec 20 × Rights)

/-- Every translation that is kept is the one in force. -/
def Cpu.Coherent (c : Cpu) : Prop :=
  TranslationCache.Coherent (translatePage c.machine.root) ⟨c.machine.mem, c.tlb⟩

/-- A call of `mmu_map_page` with lookups at any moment. -/
inductive Cpu.Calls (phys virt : BitVec 32) (isWriteable isUser : Bool) : Cpu → Cpu → Prop
  | call {s s' : Machine} {tlb tlb' : Page → Option (BitVec 20 × Rights)}
      {ops : List (Op PhysMem Page)} : mmuMapPage phys virt isWriteable isUser s = .ok ((), s') →
      Issues s.root s.mem (s.callInstructions phys virt isWriteable isUser) ops →
      Exec (translatePage s.root) ops ⟨s.mem, tlb⟩ ⟨s'.mem, tlb'⟩ →
      Cpu.Calls phys virt isWriteable isUser ⟨s, tlb⟩ ⟨s', tlb'⟩

/-- The rest of the kernel leaves the tables alone, and does not free them. -/
structure Machine.LeavesTables (s s' : Machine) : Prop where
  cr3_eq : s'.cr3 = s.cr3
  directory_eq : s'.kernelDirectory = s.kernelDirectory
  table_eq : ∀ k t, s.table k = some t → s'.mem t = s.mem t
  keeps : s.KeepsTables s'.bitmap

/-- What happens in a run: lookups, the rest of the kernel, and calls below the window whose new
tables come in blank frames. -/
inductive Cpu.Step : Cpu → Cpu → Prop
  | fill {c : Cpu} {p : Page} {x : BitVec 20 × Rights} :
      translatePage c.machine.root c.machine.mem p = some x →
      Cpu.Step c ⟨c.machine, Function.update c.tlb p (some x)⟩
  | evict {c : Cpu} (p : Page) : Cpu.Step c ⟨c.machine, Function.update c.tlb p none⟩
  | other {c : Cpu} {s' : Machine} : c.machine.LeavesTables s' → Cpu.Step c ⟨s', c.tlb⟩
  | call {c c' : Cpu} {phys virt : BitVec 32} {isWriteable isUser : Bool} : virt < 0xFFC00000 →
      FrameLeft c.machine virt → BlankFrame c.machine virt →
      c.Calls phys virt isWriteable isUser c' → Cpu.Step c c'

section Coherence

variable {c c' : Cpu} {s s' : Machine} {virt phys : BitVec 32} {isWriteable isUser : Bool}

/-- A frame that is left for the table is not among the tables. -/
theorem freshFrame (h : Tabled s) (hleft : FrameLeft s virt) (ht : s.table (pdIndex virt) = none)
    (a : BitVec 32) (bm : Bitmap) (halloc : pmmAllocFrame s.bitmap = .ok (a, bm)) :
    Fresh decodeEntry s.mem s.root (frameOf a) :=
  fresh_of_tabled h halloc (hleft ht a bm halloc)

/-- The rest of the kernel changes no table and no translation. -/
theorem Tabled.leavesTables (h : Tabled s) (hother : s.LeavesTables s') :
    Tabled s' ∧ s'.root = s.root ∧
      ∀ p, translatePage s.root s'.mem p = translatePage s.root s.mem p := by
  have hroot : s'.root = s.root := congrArg frameOf hother.directory_eq
  have hmem : s'.mem s'.root = s.mem s.root := by
    rw [hroot]
    exact hother.table_eq 1023 s.root h.selfMap
  have htable : ∀ k, s'.table k = s.table k := by
    intro k
    unfold Machine.table RecursiveTable.table
    rw [hmem]
  refine ⟨⟨⟨?_, ?_, ?_⟩, ?_, ?_, ?_, ?_⟩, hroot, fun p => ?_⟩
  · rw [hother.cr3_eq, hother.directory_eq]
    exact h.cr3_eq
  · exact (htable 1023).trans (h.selfMap.trans (congrArg some hroot.symm))
  · exact fun k k' t hk hk' =>
      h.injective k k' t ((htable k).symm.trans hk) ((htable k').symm.trans hk')
  · rw [hroot]
    exact h.root_ne_zero
  · rw [hmem, hroot]
    exact h.slot_self
  · rw [hmem]
    exact h.writable
  · intro k t ht ht0
    rw [htable k] at ht
    exact hother.keeps k t ht (h.used k t ht ht0)
  · rw [hroot] at hmem
    exact walk_congr (congrFun hmem p.1) fun t ht => congrFun (hother.table_eq p.1 t ht) p.2

/-- A call from a coherent state ends in a coherent state, whatever is looked up in between, exactly
when the frame of a new table is blank. -/
theorem calls_coherent_iff (hc : c.Coherent) (h : Tabled c.machine) (hvirt : virt < 0xFFC00000)
    (hleft : FrameLeft c.machine virt) (phys : BitVec 32) (isWriteable isUser : Bool) :
    (∀ c', c.Calls phys virt isWriteable isUser c' → c'.Coherent) ↔ BlankFrame c.machine virt := by
  obtain ⟨s, tlb⟩ := c
  have hk := pdIndex_ne_window.mpr hvirt
  have hfresh := freshFrame h hleft
  -- the outcomes of the call are the outcomes of its writes and flushes
  have houtcomes : ∀ ops,
      Issues s.root s.mem (s.callInstructions phys virt isWriteable isUser) ops →
      ((∀ c', Cpu.Calls phys virt isWriteable isUser ⟨s, tlb⟩ c' → c'.Coherent) ↔
        ∀ p x, Lingers (translatePage s.root) p x s.mem ops →
          translatePage s.root (memAfter s.mem ops) p = some x) := by
    intro ops hissues
    obtain ⟨s', hcall, hmem⟩ := mmuMapPage_memAfter h.toRecursive hissues
    have hroot : s'.root = s.root := congrArg frameOf (tabled_call h hk hfresh hcall).2
    rw [← coherent_iff (c := ⟨s.mem, tlb⟩) hc]
    constructor
    · intro hall c' hexec
      obtain ⟨mem', tlb'⟩ := c'
      obtain rfl : mem' = s'.mem := (exec_mem hexec).trans hmem.symm
      have hcoherent := hall ⟨s', tlb'⟩ (.call hcall hissues hexec)
      unfold Cpu.Coherent at hcoherent
      rw [hroot] at hcoherent
      exact hcoherent
    · intro hall c' hcalls
      cases hcalls with
      | call hcall' hissues' hexec =>
        obtain rfl := issues_unique hissues hissues'
        obtain rfl := (Prod.mk.inj (Except.ok.inj (hcall.symm.trans hcall'))).2
        unfold Cpu.Coherent
        rw [hroot]
        exact hall _ hexec
  rcases callInstructions_cases h.toRecursive hk hfresh phys isWriteable isUser with
    ⟨t, ht, hissues⟩ | ⟨a, bm, ht, halloc, hfr, hissues⟩
  · refine (houtcomes _ hissues).trans (iff_of_true (fun p x hx => ?_) fun hnone => ?_)
    · exact settled_entry h.toRecursive hk ht phys isWriteable isUser hx
    · exact absurd (ht.symm.trans hnone) (by simp)
  · refine (houtcomes _ hissues).trans
      ((settled_install_iff hk ht hfr phys isWriteable isUser).trans ?_)
    constructor
    · intro hblank _ a' bm' halloc'
      obtain ⟨rfl, -⟩ := Prod.mk.inj (Except.ok.inj (halloc.symm.trans halloc'))
      exact hblank
    · exact fun hblank => hblank ht a bm halloc

/-- A step keeps the tables in order and the TLB coherent. -/
theorem step_coherent (hc : c.Coherent) (h : Tabled c.machine) (hstep : Cpu.Step c c') :
    c'.Coherent ∧ Tabled c'.machine := by
  cases hstep with
  | @fill p x hx =>
    refine ⟨fun q y hy => ?_, h⟩
    by_cases hq : q = p
    · subst hq
      obtain rfl := Option.some.inj ((Function.update_self q (some x) c.tlb).symm.trans hy)
      exact hx
    · exact hc q y ((Function.update_of_ne hq (some x) c.tlb).symm.trans hy)
  | evict p =>
    refine ⟨fun q y hy => ?_, h⟩
    by_cases hq : q = p
    · subst hq
      exact absurd ((Function.update_self q none c.tlb).symm.trans hy) (by simp)
    · exact hc q y ((Function.update_of_ne hq none c.tlb).symm.trans hy)
  | other hother =>
    obtain ⟨htabled, hroot, hsame⟩ := h.leavesTables hother
    refine ⟨fun q y hy => ?_, htabled⟩
    rw [hroot, hsame q]
    exact hc q y hy
  | call hvirt hleft hblank hcalls =>
    refine ⟨(calls_coherent_iff hc h hvirt hleft _ _ _).mpr hblank _ hcalls, ?_⟩
    cases hcalls with
    | call hcall _ _ =>
      exact (tabled_call h (pdIndex_ne_window.mpr hvirt) (freshFrame h hleft) hcall).1

end Coherence

/-- **The TLB.** In every run from `mmu_enable` on whose new tables come in blank frames, every
translation that the processor keeps is the one in force, at any page; and the next call keeps it
so, whatever is looked up while it runs, exactly when its new table comes in a blank frame too. -/
theorem tlb_coherent_iff {bm : Bitmap} {mem : PhysMem} {s₀ : Machine} {c : Cpu}
    (hboot : (do mmuInit; mmuEnable : Kernel Unit) (.boot bm mem) = .ok ((), s₀))
    (hrun : Relation.ReflTransGen Cpu.Step ⟨s₀, fun _ => none⟩ c) :
    c.Coherent ∧ ∀ (phys virt : BitVec 32) (isWriteable isUser : Bool), virt < 0xFFC00000 →
      FrameLeft c.machine virt →
      ((∀ c', c.Calls phys virt isWriteable isUser c' → c'.Coherent) ↔
        BlankFrame c.machine virt) := by
  obtain ⟨t, hbooted⟩ := mmuInit_booted onFault hboot
  have hinv : c.Coherent ∧ Tabled c.machine :=
    run_invariant (fun c => c.Coherent ∧ Tabled c.machine) hrun
      ⟨fun p x hx => absurd hx (by simp), hbooted.tabled⟩ fun h hstep => step_coherent h.1 h.2 hstep
  exact ⟨hinv.1, fun phys virt isWriteable isUser hvirt hleft =>
    calls_coherent_iff hinv.1 hinv.2 hvirt hleft phys isWriteable isUser⟩

/-- After `mmu_init` on eight frames the next table comes in frame 3. -/
theorem blankFrame_eight (mem : PhysMem) : ∃ s₀,
    (do mmuInit; mmuEnable : Kernel Unit) (.boot ⟨[0x01#8], by decide⟩ mem) = .ok ((), s₀) ∧
      (∀ virt, FrameLeft s₀ virt) ∧
      ∀ virt, (∀ j ≠ ptIndex virt, decodeEntry (mem 3 j) = none) → BlankFrame s₀ virt := by
  obtain ⟨s₀, bm, hboot, halloc, hmem⟩ := mmuInit_eight mem
  have haddr : ∀ {a : BitVec 32} {bm' : Bitmap}, pmmAllocFrame s₀.bitmap = .ok (a, bm') →
      a = 0x3000 := fun halloc' =>
    (Prod.mk.inj (Except.ok.inj (halloc'.symm.trans halloc))).1
  refine ⟨s₀, hboot, fun virt _ a bm' halloc' => Or.inl ?_,
    fun virt hblank _ a bm' halloc' j hj => ?_⟩
  · rw [haddr halloc']
    decide
  · have hframe : frameOf 0x3000 = 3 := by decide
    rw [haddr halloc', hframe, hmem]
    exact hblank j hj

/-- One call in a run, from memory that is zero. -/
theorem tlb_coherent_iff_zero : ∃ s₀ c,
    Cpu.Calls 0x5000 0x400000 true false ⟨s₀, fun _ => none⟩ c ∧
      c.Coherent ∧ ∀ (phys virt : BitVec 32) (isWriteable isUser : Bool), virt < 0xFFC00000 →
        FrameLeft c.machine virt →
        ((∀ c', c.Calls phys virt isWriteable isUser c' → c'.Coherent) ↔
          BlankFrame c.machine virt) := by
  obtain ⟨s₀, hboot, hleft, hblank⟩ := blankFrame_eight fun _ _ => 0
  obtain ⟨t, hbooted⟩ := mmuInit_booted onFault hboot
  have hvirt : (0x400000 : BitVec 32) < 0xFFC00000 := by decide
  obtain ⟨ops, hissues⟩ : ∃ ops,
      Issues s₀.root s₀.mem (s₀.callInstructions 0x5000 0x400000 true false) ops := by
    rcases callInstructions_cases hbooted.recursive (pdIndex_ne_window.mpr hvirt)
      (freshFrame hbooted.tabled (hleft 0x400000)) 0x5000 true false with
      ⟨t, -, hissues⟩ | ⟨a, bm, -, -, -, hissues⟩
    · exact ⟨_, hissues⟩
    · exact ⟨_, hissues⟩
  obtain ⟨s', hcall, hmem⟩ := mmuMapPage_memAfter hbooted.recursive hissues
  obtain ⟨⟨mem', tlb'⟩, hexec, -⟩ :=
    exec_quiet (translatePage s₀.root) ops ⟨s₀.mem, fun _ => none⟩
  obtain rfl : mem' = s'.mem := (exec_mem hexec).trans hmem.symm
  have hcalls := Cpu.Calls.call hcall hissues hexec
  have hstep : Cpu.Step ⟨s₀, fun _ => none⟩ ⟨s', tlb'⟩ :=
    .call hvirt (hleft 0x400000) (hblank 0x400000 fun _ _ => decodeEntry_zero) hcalls
  exact ⟨s₀, _, hcalls, tlb_coherent_iff hboot (.single hstep)⟩

/-- A frame full of old words that look like present entries. -/
theorem tlb_stale : ¬ ∀ (bm : Bitmap) (mem : PhysMem) (s₀ : Machine) (c : Cpu)
    (phys virt : BitVec 32) (isWriteable isUser : Bool),
    (do mmuInit; mmuEnable : Kernel Unit) (.boot bm mem) = .ok ((), s₀) → virt < 0xFFC00000 →
    Cpu.Calls phys virt isWriteable isUser ⟨s₀, fun _ => none⟩ c → c.Coherent := by
  intro hall
  obtain ⟨s₀, bm, hboot, halloc, hmem⟩ := mmuInit_eight fun _ _ => 1
  obtain ⟨t, hbooted⟩ := mmuInit_booted onFault hboot
  have hvirt : (0x400000 : BitVec 32) < 0xFFC00000 := by decide
  have habsent : s₀.table (pdIndex 0x400000) = none :=
    table_eq_none_iff.mpr (hbooted.slot_absent _ (by decide) (by decide))
  have hleft : FrameLeft s₀ 0x400000 := by
    intro _ a bm' halloc'
    obtain ⟨rfl, -⟩ := Prod.mk.inj (Except.ok.inj (halloc.symm.trans halloc'))
    exact Or.inl (by decide)
  have hblank := (calls_coherent_iff (c := ⟨s₀, fun _ => none⟩) (fun p x hx => absurd hx (by simp))
    hbooted.tabled hvirt hleft 0x5000 true false).mp fun c => hall _ _ s₀ c _ _ _ _ hboot hvirt
  have hword := hblank habsent _ bm halloc 1 (by decide)
  have hframe : frameOf 0x3000 = 3 := by decide
  rw [hframe, hmem] at hword
  exact absurd hword (by decide)

end AuriOS
