import AuriOS.Mm.Dump

/-!
# The listing of the mappings

`mmu_view_mappings` of `mmu.zig`, the command `mmap`, prints a line for each present entry of the
directory.  It reads the directory at its physical address, through the first table.

* `LowTables`: the first table stays the identity in every run;
* `mmuViewMappings_lists`: the listing reads back to the present entries, and every address that
  translates lies in a printed range, with no more rights than are printed; with a directory above
  4 MiB the command ends in a page fault.
-/

namespace AuriOS

open Program RecursiveTable Listing

/-! ### The routine -/

section Routine

-- what the 8 bytes of `print_hex` happen to hold
variable (buf : List Byte)

/-- The lines that `mmu_view_mappings` prints for a present entry. -/
def viewMapping (i : ℕ) (pde : BitVec 32) (line : List Byte) : Kernel (List Byte) := do
  let quads ← checkedUsize (i * 4)
  let kilobytes ← checkedUsize (quads * 1024)
  let startAddr ← checkedUsize (kilobytes * 1024)
  let endAddr ← checkedUsize (startAddr + (4 * 1024 * 1024 - 1))
  let line := line ++ chars "Range: "
  let line ← serialHex buf startAddr line
  let line := line ++ chars " - "
  let line ← serialHex buf endAddr line
  let line := line ++ if pde.getLsbD 2 then chars " [USER] " else chars " [KERNEL] "
  pure (line ++ if pde.getLsbD 1 then chars "R/W\r\n" else chars "R-O\r\n")

/-- The loop of `mmu_view_mappings`, for the `n` entries from entry `i` on. -/
def viewMappingsFrom : ℕ → ℕ → List Byte → Kernel (List Byte)
  | 0, _, line => pure line
  | n + 1, i, line => do
      let s ← get
      let pde ← load (s.kernelDirectory + 4 * BitVec.ofNat 32 i)
      let line ← if pde.getLsbD 0 then viewMapping buf i pde line else pure line
      viewMappingsFrom n (i + 1) line

/-- The lines above and below the list. -/
def mappingsHeader : List Byte := chars "\r\n=== ACTIVE MEMORY MAPPINGS ===\r\n"
def mappingsFooter : List Byte := chars "===============================\r\n"

/-- `mmu_view_mappings`: what the serial line has sent. -/
def mmuViewMappings (line : List Byte) : Kernel (List Byte) := do
  let line ← viewMappingsFrom buf 1024 0 (line ++ mappingsHeader)
  pure (line ++ mappingsFooter)

end Routine

/-! ### Reading it back -/

/-- What a line tells. -/
structure Mapping where
  start : BitVec 32
  stop : BitVec 32
  user : Bool
  rw : Bool
  deriving DecidableEq

/-- The line of a mapping. -/
def Mapping.text (m : Mapping) : List Byte :=
  chars "Range: " ++ (hexText m.start ++ (chars " - " ++ (hexText m.stop ++
    ((if m.user then chars " [USER] " else chars " [KERNEL] ") ++
      if m.rw then chars "R/W\r\n" else chars "R-O\r\n"))))

/-- A mapping is read from its line. -/
def readMapping (text : List Byte) : Option (Mapping × List Byte) := do
  let text ← dropText (chars "Range: ") text
  let (start, text) ← readHex text
  let text ← dropText (chars " - ") text
  let (stop, text) ← readHex text
  let (user, text) ← readFlag (chars " [USER] ") (chars " [KERNEL] ") text
  let (rw, text) ← readFlag (chars "R/W\r\n") (chars "R-O\r\n") text
  pure (⟨start, stop, user, rw⟩, text)

/-- The whole listing: the directory has 1024 entries. -/
def readMappings (text : List Byte) : Option (List Mapping) := do
  let text ← dropText mappingsHeader text
  if (readAll readMapping 1024 text).2 = mappingsFooter then
    some (readAll readMapping 1024 text).1
  else none

section Reading

/-- A printed line is read back. -/
theorem reads_mapping : Reads Mapping.text readMapping := by
  intro m rest
  have hspace : ¬ IsHexDigit (byte ' ') := by decide
  have hsecond : ∀ tail, readHex (hexText m.start ++ (chars " - " ++ tail)) =
      some (m.start, chars " - " ++ tail) := fun tail => readHex_hexText m.start _ hspace
  have hlast : ∀ tail, readHex (hexText m.stop ++
      ((if m.user then chars " [USER] " else chars " [KERNEL] ") ++ tail)) =
      some (m.stop, (if m.user then chars " [USER] " else chars " [KERNEL] ") ++ tail) := by
    intro tail
    cases m.user
    · exact readHex_hexText m.stop _ hspace
    · exact readHex_hexText m.stop _ hspace
  have huser : ∀ tail, readFlag (chars " [USER] ") (chars " [KERNEL] ")
      ((if m.user then chars " [USER] " else chars " [KERNEL] ") ++ tail) =
        some (m.user, tail) := by
    intro tail
    cases m.user
    · exact readFlag_no rfl
    · exact readFlag_yes _ _ _
  have hrw : readFlag (chars "R/W\r\n") (chars "R-O\r\n")
      ((if m.rw then chars "R/W\r\n" else chars "R-O\r\n") ++ rest) = some (m.rw, rest) := by
    cases m.rw
    · exact readFlag_no rfl
    · exact readFlag_yes _ _ _
  unfold readMapping Mapping.text
  simp only [List.append_assoc, dropText_append, hsecond, hlast, huser, hrw, Option.bind_eq_bind,
    Option.bind_some]
  rfl

/-- A listing with any number of lines up to 1024. -/
theorem readMappings_text {ms : List Mapping} (hms : ms.length ≤ 1024) :
    readMappings (mappingsHeader ++ (ms.flatMap Mapping.text ++ mappingsFooter)) = some ms := by
  have hread := readAll_write reads_mapping (show readMapping mappingsFooter = none from rfl) hms
  unfold readMappings
  rw [dropText_append, Option.bind_eq_bind, Option.bind_some, hread]
  exact if_pos rfl

end Reading

/-! ### The entries -/

/-- What entry `i` of the directory says. -/
def mappingOf (i : ℕ) (pde : BitVec 32) : Mapping where
  start := BitVec.ofNat 32 (i * 0x400000)
  stop := BitVec.ofNat 32 (i * 0x400000 + 0x3FFFFF)
  user := pde.getLsbD 2
  rw := pde.getLsbD 1

/-- The line of entry `i`, if it is present. -/
def Machine.mapping? (s : Machine) (i : ℕ) : Option Mapping :=
  if (s.mem s.root (BitVec.ofNat 10 i)).getLsbD 0 then
    some (mappingOf i (s.mem s.root (BitVec.ofNat 10 i)))
  else none

/-- The present entries, in their order. -/
def Machine.mappings (s : Machine) : List Mapping := (List.range 1024).filterMap s.mapping?

section Entries

variable {s : Machine} {buf : List Byte}

/-- There are at most as many lines as slots. -/
theorem mappings_length (s : Machine) : s.mappings.length ≤ 1024 :=
  (List.length_filterMap_le _ _).trans_eq List.length_range

/-- A translated address lies in a listed range, which has its rights. -/
theorem exists_mapping {va : BitVec 32} {f : BitVec 20} {p : Rights}
    (h : walk s.mem s.root va = some (f, p)) : ∃ m ∈ s.mappings, m.start ≤ va ∧ va ≤ m.stop ∧
      (p.writable = true → m.rw = true) ∧ (p.user = true → m.user = true) := by
  obtain ⟨⟨t, q⟩, hslot, hleaf⟩ := Option.bind_eq_some_iff.mp h
  obtain ⟨⟨g, r⟩, -, heq⟩ := Option.map_eq_some_iff.mp hleaf
  obtain ⟨-, rfl⟩ := Prod.mk.inj heq
  have hindex := pdIndex_toNat va
  have hva := va.isLt
  have hto : BitVec.ofNat 10 (va.toNat / 2 ^ 22) = pdIndex va :=
    BitVec.eq_of_toNat_eq (by rw [BitVec.toNat_ofNat, hindex]; omega)
  have hbit : (s.mem s.root (pdIndex va)).getLsbD 0 = true := by
    by_contra hnot
    rw [decodeEntry, if_neg hnot] at hslot
    cases hslot
  rw [decodeEntry, if_pos hbit] at hslot
  obtain ⟨-, rfl⟩ := Prod.mk.inj (Option.some.inj hslot)
  refine ⟨mappingOf (va.toNat / 2 ^ 22) (s.mem s.root (pdIndex va)), ?_, ?_, ?_, ?_, ?_⟩
  · refine List.mem_filterMap.mpr ⟨va.toNat / 2 ^ 22, List.mem_range.mpr (by omega), ?_⟩
    rw [Machine.mapping?, hto, if_pos hbit]
  · rw [mappingOf, BitVec.le_def, BitVec.toNat_ofNat]
    omega
  · rw [mappingOf, BitVec.le_def, BitVec.toNat_ofNat]
    omega
  · exact fun hw => (Bool.and_eq_true_iff.mp hw).1
  · exact fun hu => (Bool.and_eq_true_iff.mp hu).1

/-- An entry is printed as its line, and none of the sums traps. -/
theorem viewMapping_ok (hbuf : buf.length = 8) {i : ℕ} (hi : i < 1024) (pde : BitVec 32)
    (line : List Byte) (s : Machine) :
    viewMapping buf i pde line s = .ok (line ++ (mappingOf i pde).text, s) := by
  have hstart : i * 4 * 1024 * 1024 = i * 0x400000 := by omega
  rw [viewMapping, bind_of_ok (checkedUsize_ok (by omega) s),
    bind_of_ok (checkedUsize_ok (by omega) s), bind_of_ok (checkedUsize_ok (by omega) s),
    bind_of_ok (checkedUsize_ok (by omega) s)]
  refine (bind_of_ok (serialHex_ok hbuf _ _ s)).trans ?_
  refine (bind_of_ok (serialHex_ok hbuf _ _ s)).trans ?_
  rw [pure_apply, hstart, Mapping.text]
  simp only [mappingOf, List.append_assoc]
  rfl

/-- The loop, when every entry can be read. -/
theorem viewMappingsFrom_ok (hbuf : buf.length = 8)
    (hload : ∀ i < 1024, load (s.kernelDirectory + 4 * BitVec.ofNat 32 i) s =
      .ok (s.mem s.root (BitVec.ofNat 10 i), s)) {n i : ℕ} (hn : i + n = 1024) (line : List Byte) :
    viewMappingsFrom buf n i line s =
      .ok (line ++ ((List.range' i n).filterMap s.mapping?).flatMap Mapping.text, s) := by
  induction n generalizing i line with
  | zero => exact congrArg (fun text => Except.ok (text, s)) (List.append_nil line).symm
  | succ n ih =>
    rw [viewMappingsFrom, get_bind_apply, bind_of_ok (hload i (by omega)), List.range'_succ]
    by_cases hbit : (s.mem s.root (BitVec.ofNat 10 i)).getLsbD 0 = true
    · have hsome : s.mapping? i = some (mappingOf i (s.mem s.root (BitVec.ofNat 10 i))) :=
        if_pos hbit
      rw [if_pos hbit, bind_of_ok (viewMapping_ok hbuf (by omega) _ line s)]
      dsimp only
      rw [ih (by omega), List.filterMap_cons_some hsome, List.flatMap_cons, List.append_assoc]
    · have hnone : s.mapping? i = none := if_neg hbit
      rw [if_neg hbit, pure_bind_apply]
      dsimp only
      rw [ih (by omega), List.filterMap_cons_none hnone]

end Entries

/-! ### The first table -/

/-- The directory lies at its address, and below 4 MiB addresses are physical. -/
structure LowTables (s : Machine) (t : BitVec 20) : Prop where
  directory : s.kernelDirectory.toNat = s.root.toNat * pageSize
  slot_zero : decodeEntry (s.mem s.root 0) = some (t, ⟨true, false⟩)
  identity : ∀ j, decodeEntry (s.mem t j) = some (j.setWidth 20, ⟨true, false⟩)
  absent : ∀ k, k ≠ 0 → k ≠ 1023 → ¬ HeapSlot k → decodeEntry (s.mem s.root k) = none

section Low

variable {s s' s₀ : Machine} {t : BitVec 20} {va : BitVec 32} {bm : Bitmap} {mem : PhysMem}

/-- Slot 0 is no slot of the heap. -/
theorem zero_not_heapSlot : ¬ HeapSlot 0 := by decide

/-- The low tables stay while their slots and their table do. -/
theorem LowTables.of_tables (h : LowTables s t) (hkd : s'.kernelDirectory = s.kernelDirectory)
    (hroot : ∀ k, ¬ HeapSlot k → s'.mem s.root k = s.mem s.root k) (htable : s'.mem t = s.mem t) :
    LowTables s' t := by
  have heq : s'.root = s.root := congrArg frameOf hkd
  refine ⟨?_, ?_, ?_, ?_⟩
  · rw [hkd, heq]
    exact h.directory
  · rw [heq, hroot 0 zero_not_heapSlot]
    exact h.slot_zero
  · rw [htable]
    exact h.identity
  · intro k hk0 hk hslot
    rw [heq, hroot k hslot]
    exact h.absent k hk0 hk hslot

/-- Every step keeps the low tables. -/
theorem lowTables_step (hp : Paging s) (hstep : MemoryStep s s') (h : LowTables s t) :
    LowTables s' t := by
  have hslot : s.table 0 = some t := table_eq_some_iff.mpr ⟨_, h.slot_zero⟩
  cases hstep with
  | back virt a hvirt hb =>
    refine h.of_tables hb.kernelDirectory_eq (fun k hk => ?_) ?_
    · refine (hb.directory k).resolve_right ?_
      rintro ⟨rfl, -, -⟩
      exact hk hvirt
    · obtain ⟨bm, halloc, -⟩ := hb.bitmap
      have howner : s.owner (.table 0) = some t := (owner_table (by decide)).trans hslot
      have ht0 : t ≠ 0 := fun h0 => hp.zero_not_owned halloc.isFree _ (h0 ▸ howner)
      refine hb.mem_used t (hp.used _ _ howner)
        (table_ne_root hp.recursive (by decide) hslot).symm (fun hc => ?_) fun h0 => absurd h0 ht0
      have hzero := hp.recursive.injective _ _ _ hslot hc
      exact zero_not_heapSlot (hzero ▸ hvirt)
  | noFrame _ => exact h.of_tables rfl (fun _ _ => rfl) rfl
  | store va w f hf =>
    obtain ⟨hroot, htables⟩ := leaf_ne hp.recursive.selfMap hp.exclusive hf
    refine h.of_tables rfl (fun k _ => write_of_ne _ _ _ _ _ _ hroot) ?_
    funext j
    exact write_of_ne _ _ _ _ _ _ (htables _ _ hslot)
  | vars heapEnd head => exact h.of_tables rfl (fun _ _ => rfl) rfl
  | klog level msg => exact h.of_tables rfl (fun _ _ => rfl) rfl

/-- Every run keeps the low tables. -/
theorem lowTables_evolves (hp : Paging s) (hev : Evolves s s') (h : LowTables s t) :
    LowTables s' t := by
  induction hev with
  | refl => exact h
  | tail hev hstep ih => exact lowTables_step (hp.evolves hev) hstep ih

/-- `mmu_init` makes them, with the directory in a frame that was free. -/
theorem startMemory_lowTables (hstart : startMemory (.boot bm mem) = .ok ((), s₀)) :
    (∃ t, LowTables s₀ t) ∧ bm.IsFree s₀.root.toNat := by
  obtain ⟨s₁, t, hbooted, hev, -, hdirectory, hroot, -, -, -⟩ := startMemory_tables hstart
  have hlow : LowTables s₁ t :=
    ⟨hdirectory, hbooted.slot_zero, hbooted.identity,
      fun k hk0 hk _ => hbooted.slot_absent k hk0 hk⟩
  refine ⟨⟨t, lowTables_evolves hbooted.paging hev hlow⟩, ?_⟩
  rw [root_evolves hev]
  exact hroot

/-- Below 4 MiB, physical addresses can be used. -/
theorem LowTables.translate (h : LowTables s t) (hp : Paging s) (hva : va.toNat < 2 ^ 22) :
    (s.translate va).map Prod.fst = some (frameOf va) := by
  have hpd : pdIndex va = 0 := BitVec.eq_of_toNat_eq (by rw [pdIndex_toNat]; simp; omega)
  rw [translate_eq hp.recursive.cr3_eq, walk, hpd,
    walk_frame (table_eq_some_iff.mpr ⟨_, h.slot_zero⟩), h.identity]
  refine congrArg some (BitVec.eq_of_toNat_eq ?_)
  rw [BitVec.toNat_setWidth, ptIndex_toNat, frameOf_toNat]
  omega

/-- An address between 4 MiB and the heap. -/
theorem LowTables.translate_none (h : LowTables s t) (hp : Paging s) (hlo : 2 ^ 22 ≤ va.toNat)
    (hhi : va.toNat < 0xD0000000) : s.translate va = none := by
  have hpd := pdIndex_toNat va
  have hnone : decodeEntry (s.mem s.root (pdIndex va)) = none := by
    refine h.absent _ (fun h0 => ?_) (fun h0 => ?_) fun hslot => ?_
    · rw [h0] at hpd
      change 0 = _ at hpd
      omega
    · rw [h0] at hpd
      change 1023 = _ at hpd
      omega
    · have := hslot.1
      omega
  rw [translate_eq hp.recursive.cr3_eq]
  exact walk_of_table_none (table_eq_none_iff.mpr hnone)

end Low

section Results

variable {s s₀ : Machine} {bm : Bitmap} {mem : PhysMem} {live : Live} {buf : List Byte}

/-- Entry `i` of a directory below 4 MiB. -/
theorem load_entry {t : BitVec 20} (h : LowTables s t) (hp : Paging s) (hlow : s.root.toNat < 1024)
    {i : ℕ} (hi : i < 1024) : load (s.kernelDirectory + 4 * BitVec.ofNat 32 i) s =
      .ok (s.mem s.root (BitVec.ofNat 10 i), s) := by
  have hkd := h.directory
  rw [pageSize] at hkd
  have h4 : (4 : BitVec 32).toNat = 4 := rfl
  have hva : (s.kernelDirectory + 4 * BitVec.ofNat 32 i).toNat = s.root.toNat * 4096 + 4 * i := by
    rw [BitVec.toNat_add, BitVec.toNat_mul, BitVec.toNat_ofNat, h4, hkd]
    omega
  have hframe : frameOf (s.kernelDirectory + 4 * BitVec.ofNat 32 i) = s.root :=
    BitVec.eq_of_toNat_eq (by rw [frameOf_toNat, hva]; omega)
  have hword : wordIndex (s.kernelDirectory + 4 * BitVec.ofNat 32 i) = BitVec.ofNat 10 i :=
    BitVec.eq_of_toNat_eq (by rw [wordIndex_toNat, hva, BitVec.toNat_ofNat]; omega)
  have hlt : (s.kernelDirectory + 4 * BitVec.ofNat 32 i).toNat < 2 ^ 22 := by
    rw [hva]
    omega
  have htranslate := h.translate hp hlt
  rw [hframe] at htranslate
  refine (loadWith_ok onFault htranslate).trans ?_
  rw [hword]

/-- A load between 4 MiB and the heap is the end. -/
theorem load_panics {t : BitVec 20} (h : LowTables s t) (hp : Paging s) {va : BitVec 32}
    (hlo : 2 ^ 22 ≤ va.toNat) (hhi : va.toNat < 0xD0000000) :
    load va s = .error (.pageFault va "Page not present (OOM)" " on READ\r\n") := by
  have hnone := h.translate_none hp hlo hhi
  have hstart : ¬ heapStart ≤ va := by
    have hto : heapStart.toNat = 0xD0000000 := rfl
    rw [BitVec.le_def, hto]
    omega
  have hfault : onFault va false s =
      .error (.pageFault va "Page not present (OOM)" " on READ\r\n") := by
    rw [onFault, faultFuel, pageFault, get_bind_apply, mmuHandlePageFaultWith, errorCode_present,
      hnone]
    refine (congrFun (if_neg (by simp)) s).trans ((congrFun (if_neg hstart) s).trans ?_)
    rw [Machine.errorCode, hnone]
    rfl
  rw [load, loadWith]
  refine bind_of_error ?_
  rw [faultFuel, accessWith, get_bind_apply, hnone]
  exact bind_of_error hfault

/-- In every run, with the directory below 4 MiB, the listing reads back to its present entries; an
address that translates lies in a listed range, with no more rights than are listed.  With the
directory between 4 MiB and the heap's addresses, there is no listing. -/
theorem mmuViewMappings_lists (hstart : startMemory (.boot bm mem) = .ok ((), s₀))
    (hrun : Relation.ReflTransGen HeapUse (s₀, fun _ => none) (s, live)) (hbuf : buf.length = 8)
    (line : List Byte) :
    (s.root.toNat < 1024 → ∃ text, mmuViewMappings buf line s = .ok (line ++ text, s) ∧
        readMappings text = some s.mappings) ∧
      (∀ va f p, s.translate va = some (f, p) → ∃ m ∈ s.mappings, m.start ≤ va ∧ va ≤ m.stop ∧
        (p.writable = true → m.rw = true) ∧ (p.user = true → m.user = true)) ∧
      (1024 ≤ s.root.toNat → s.root.toNat < 0xD0000 → mmuViewMappings buf line s =
        .error (.pageFault s.kernelDirectory "Page not present (OOM)" " on READ\r\n")) := by
  obtain ⟨⟨t, hlow₀⟩, -⟩ := startMemory_lowTables hstart
  obtain ⟨bs, hinv, hpaging₀, hev⟩ := heapUse_inv hstart hrun
  have hpaging := hinv.heap.blocks.pages.paging
  have hlow := lowTables_evolves hpaging₀ hev hlow₀
  refine ⟨fun hroot => ?_, fun va f p htranslate => ?_, fun hlo hhi => ?_⟩
  · refine ⟨mappingsHeader ++ (s.mappings.flatMap Mapping.text ++ mappingsFooter), ?_,
      readMappings_text (mappings_length s)⟩
    have hloop := viewMappingsFrom_ok hbuf (fun i hi => load_entry hlow hpaging hroot hi)
      (Nat.zero_add 1024) (line ++ mappingsHeader)
    rw [mmuViewMappings, bind_of_ok hloop, pure_apply, Machine.mappings, List.range_eq_range']
    simp only [List.append_assoc]
  · rw [translate_eq hpaging.recursive.cr3_eq] at htranslate
    exact exists_mapping htranslate
  · have hkd := hlow.directory
    rw [pageSize] at hkd
    have hfirst : 2 ^ 22 ≤ s.kernelDirectory.toNat := by omega
    have hload := load_panics hlow hpaging hfirst (by omega)
    rw [mmuViewMappings]
    refine bind_of_error ?_
    rw [viewMappingsFrom, get_bind_apply]
    refine bind_of_error ?_
    rw [BitVec.mul_zero, BitVec.add_zero]
    exact hload

/-- On a machine of 64 frames the listing is printed after a request. -/
theorem mmuViewMappings_lists_small :
    ∃ s₀ s text, ∃ live : Live, startMemory (.boot smallBitmap fun _ _ => 0) = .ok ((), s₀) ∧
      HeapUse (s₀, fun _ => none) (s, live) ∧
      mmuViewMappings (List.replicate 8 0) [] s = .ok (text, s) ∧
      readMappings text = some s.mappings := by
  obtain ⟨s₀, hstart, hstarted⟩ := smallBitmap_started
  obtain ⟨s, p, -, hgrows, hmalloc⟩ := smallMachine_fits hstart hstarted.head_ne
  have hstep : HeapUse (s₀, fun _ => none) (s, _) :=
    .call (.malloc 100 p (fun h => absurd h hgrows) hmalloc)
  obtain ⟨bs, hinv, hpaging, hev⟩ := heapUse_inv hstart (.single hstep)
  have hroot : s.root.toNat < 1024 := by
    rw [root_evolves hev]
    exact (startMemory_lowTables hstart).2.1.trans (by decide)
  obtain ⟨text, hprints, hreads⟩ :=
    (mmuViewMappings_lists hstart (.single hstep) (List.length_replicate (a := 0)) []).1 hroot
  exact ⟨s₀, s, text, _, hstart, hstep, hprints, hreads⟩

end Results

end AuriOS
