import AuriOS.Cpu.Gdt
import AuriOS.Foundation.Ia32

/-!
# Interrupts

`src/cpu/idt.c` fills the interrupt descriptor table, `src/cpu/isr_stubs.asm` holds the entry
points, and `src/cpu/isr.c` the handler of the exceptions.

* `idtInit_gates`: which vectors have a gate, and where it leads;
* `isrStubs` is the code of the entry points.
-/

namespace AuriOS

open IA32

/-! ### `idt.c` -/

/-- `struct idt_entry`. -/
structure IdtEntry where
  baseLow : BitVec 16
  selector : BitVec 16
  always0 : BitVec 8
  flags : BitVec 8
  baseHigh : BitVec 16
  deriving DecidableEq

/-- The eight bytes of the packed structure, the first one lowest. -/
def IdtEntry.packed (e : IdtEntry) : BitVec 64 :=
  e.baseHigh ++ e.flags ++ e.always0 ++ e.selector ++ e.baseLow

/-- `idt`: the array of 256 entries. -/
abbrev Idt := BitVec 8 → IdtEntry

/-- `idt_set_gate`. -/
def idtSetGate (idt : Idt) (num : BitVec 8) (base : BitVec 32) (selector : BitVec 16)
    (flags : BitVec 8) : Idt :=
  Function.update idt num
    { baseLow := (base &&& 0xFFFF).setWidth 16
      baseHigh := ((base >>> 16) &&& 0xFFFF).setWidth 16
      selector := selector
      always0 := 0
      flags := flags }

/-- The labels of `isr_stubs.asm`. -/
inductive Label
  | isr (n : Fin 32)
  | irq (n : Fin 16)
  | isrCommon
  | irqCommon
  deriving DecidableEq

/-- `struct idt_ptr`. -/
structure IdtPtr where
  limit : BitVec 16
  base : BitVec 32
  deriving DecidableEq

/-- `for (i = 0; i < 256; i++) idt_set_gate(i, 0, 0, 0)`. -/
def idtClear (idt : Idt) : Idt :=
  (List.range 256).foldl (fun idt i => idtSetGate idt (BitVec.ofNat 8 i) 0 0 0) idt

/-- The vector of an entry point: `isr0` to `isr31`, then `irq0` to `irq15`. -/
def isrVector (n : Fin 32) : BitVec 8 := BitVec.ofNat 8 n

/-- The vector of interrupt line `n`, after the remapping. -/
def irqVector (n : Fin 16) : BitVec 8 := BitVec.ofNat 8 (32 + n)

/-- `idt_init`: the table, whatever was in it, and the operand of `lidt`. -/
def idtInit (address : Label → BitVec 32) (idtAddr : BitVec 32) (idt : Idt) : Idt × IdtPtr :=
  let idtp : IdtPtr := { limit := 256 * 8 - 1, base := idtAddr }
  let idt := idtClear idt
  let idt := (List.finRange 32).foldl
    (fun idt n => idtSetGate idt (isrVector n) (address (.isr n)) 0x08 0x8E) idt
  let idt := (List.finRange 16).foldl
    (fun idt n => idtSetGate idt (irqVector n) (address (.irq n)) 0x08 0x8E) idt
  (idt, idtp)

/-! ### The processor's reading -/

/-- A gate as the processor sees it. -/
structure Gate where
  offset : BitVec 32
  selector : BitVec 16
  present : Bool
  privilege : BitVec 2
  type : BitVec 5
  deriving DecidableEq

/-- The x86 layout of a gate. -/
def decodeGate (d : BitVec 64) : Gate where
  offset := d.extractLsb' 48 16 ++ d.extractLsb' 0 16
  selector := d.extractLsb' 16 16
  present := d.getLsbD 47
  privilege := d.extractLsb' 45 2
  type := d.extractLsb' 40 5

/-- The type of a 32-bit interrupt gate. -/
def interruptGateType : BitVec 5 := 0xE

/-- A present interrupt gate. -/
def interruptGate (d : BitVec 64) : Option InterruptGate :=
  let g := decodeGate d
  if g.present && g.type == interruptGateType then some ⟨g.selector, g.offset⟩ else none

section Gates

variable (idt : Idt) (num : BitVec 8) (base : BitVec 32) (selector : BitVec 16) (flags : BitVec 8)

/-- A gate decodes to what it was made from. -/
theorem decodeGate_idtSetGate : decodeGate (idtSetGate idt num base selector flags num).packed =
    { offset := base, selector := selector, present := flags.getLsbD 7,
      privilege := flags.extractLsb' 5 2, type := flags.extractLsb' 0 5 } := by
  have hmask : ∀ k < 32, (0xFFFF#32).getLsbD k = decide (k < 16) := by decide
  have hb : ∀ j, 32 ≤ j → base.getLsbD j = false := fun j hj => BitVec.getLsbD_of_ge _ _ hj
  unfold idtSetGate
  rw [Function.update_self, IdtEntry.packed, decodeGate, Gate.mk.injEq]
  refine ⟨BitVec.eq_of_getLsbD_eq fun i hi => ?_, BitVec.eq_of_getLsbD_eq fun i hi => ?_, ?_,
    BitVec.eq_of_getLsbD_eq fun i hi => ?_, BitVec.eq_of_getLsbD_eq fun i hi => ?_⟩
  · simp only [BitVec.getLsbD_append, BitVec.getLsbD_extractLsb', BitVec.getLsbD_setWidth,
      BitVec.getLsbD_and, BitVec.getLsbD_ushiftRight]
    have := hmask i hi
    have := hmask (i - 16) (by omega)
    grind
  · simp only [BitVec.getLsbD_append, BitVec.getLsbD_extractLsb']
    grind
  · simp only [BitVec.getLsbD_append]
    grind
  · simp only [BitVec.getLsbD_append, BitVec.getLsbD_extractLsb']
    grind
  · simp only [BitVec.getLsbD_append, BitVec.getLsbD_extractLsb']
    grind

end Gates

/-- Setting gates one after the other. -/
theorem foldl_idtSetGate {ι : Type} (f : ι → BitVec 8) (base : ι → BitVec 32)
    (selector : BitVec 16) (flags : BitVec 8) {l : List ι} (hf : (l.map f).Nodup) (idt : Idt) :
    (∀ i ∈ l, (l.foldl (fun idt i => idtSetGate idt (f i) (base i) selector flags) idt) (f i) =
      idtSetGate idt (f i) (base i) selector flags (f i)) ∧
    ∀ v ∉ l.map f, (l.foldl (fun idt i => idtSetGate idt (f i) (base i) selector flags) idt) v =
      idt v := by
  induction l generalizing idt with
  | nil => exact ⟨fun i hi => absurd hi List.not_mem_nil, fun _ _ => rfl⟩
  | cons j l ih =>
    rw [List.map_cons, List.nodup_cons] at hf
    obtain ⟨hset, hkept⟩ := ih hf.2 (idtSetGate idt (f j) (base j) selector flags)
    refine ⟨fun i hi => ?_, fun v hv => ?_⟩
    · rcases List.mem_cons.mp hi with rfl | hi
      · rw [List.foldl_cons, hkept _ hf.1]
      · rw [List.foldl_cons, hset i hi]
        unfold idtSetGate
        rw [Function.update_self, Function.update_self]
    · rw [List.map_cons, List.mem_cons, not_or] at hv
      rw [List.foldl_cons, hkept v hv.2]
      exact Function.update_of_ne hv.1 _ _

/-- The entry point of a vector. -/
def stub (v : BitVec 8) : Option Label :=
  if h : v.toNat < 32 then some (.isr ⟨v.toNat, h⟩)
  else if h : v.toNat < 48 then some (.irq ⟨v.toNat - 32, by omega⟩)
  else none

section Table

variable (address : Label → BitVec 32) (idtAddr : BitVec 32) (idt : Idt)

/-- Every descriptor of a cleared table is zero. -/
theorem idtClear_apply (v : BitVec 8) : idtClear idt v = ⟨0, 0, 0, 0, 0⟩ := by
  have hnodup : ((List.range 256).map (BitVec.ofNat 8)).Nodup := by
    refine List.nodup_range.map_on fun i hi j hj hij => ?_
    have hmod := congrArg BitVec.toNat hij
    rwa [BitVec.toNat_ofNat, BitVec.toNat_ofNat, Nat.mod_eq_of_lt (List.mem_range.mp hi),
      Nat.mod_eq_of_lt (List.mem_range.mp hj)] at hmod
  obtain ⟨hset, -⟩ := foldl_idtSetGate (BitVec.ofNat 8) (fun _ => 0) 0 0 hnodup idt
  have hv := hset v.toNat (List.mem_range.mpr v.isLt)
  rw [BitVec.ofNat_toNat, BitVec.setWidth_eq] at hv
  refine hv.trans ?_
  unfold idtSetGate
  rw [Function.update_self]
  rfl

/-- No exception vector is set twice. -/
theorem isrVector_nodup : ((List.finRange 32).map isrVector).Nodup := by decide

/-- No interrupt line's vector is set twice. -/
theorem irqVector_nodup : ((List.finRange 16).map irqVector).Nodup := by decide

/-- The exceptions have the vectors below 32. -/
theorem mem_isrVector {v : BitVec 8} : v ∈ (List.finRange 32).map isrVector ↔ v.toNat < 32 := by
  revert v
  decide +kernel

/-- The interrupt lines have the vectors from 32 to 47. -/
theorem mem_irqVector {v : BitVec 8} :
    v ∈ (List.finRange 16).map irqVector ↔ 32 ≤ v.toNat ∧ v.toNat < 48 := by
  revert v
  decide +kernel

/-- Every vector with an entry point has a gate to it, and the others have none. -/
theorem decodeGate_idtInit (v : BitVec 8) :
    decodeGate ((idtInit address idtAddr idt).1 v).packed =
      match stub v with
      | some l => ⟨address l, 0x08, true, 0, interruptGateType⟩
      | none => ⟨0, 0, false, 0, 0⟩ := by
  obtain ⟨hirq, hkept⟩ := foldl_idtSetGate irqVector (fun n => address (.irq n)) 0x08 0x8E
    irqVector_nodup ((List.finRange 32).foldl
      (fun idt n => idtSetGate idt (isrVector n) (address (.isr n)) 0x08 0x8E) (idtClear idt))
  obtain ⟨hisr, hclear⟩ := foldl_idtSetGate isrVector (fun n => address (.isr n)) 0x08 0x8E
    isrVector_nodup (idtClear idt)
  unfold idtInit stub
  dsimp only
  split_ifs with h32 h48
  · have hv : isrVector ⟨v.toNat, h32⟩ = v := by simp [isrVector]
    have hentry := hisr ⟨v.toNat, h32⟩ (List.mem_finRange _)
    rw [hv] at hentry
    rw [hkept v (by rw [mem_irqVector]; omega), hentry, decodeGate_idtSetGate]
    rfl
  · have hv : irqVector ⟨v.toNat - 32, by omega⟩ = v := by
      simp [irqVector, show 32 + (v.toNat - 32) = v.toNat by omega]
    have hentry := hirq ⟨v.toNat - 32, by omega⟩ (List.mem_finRange _)
    rw [hv] at hentry
    rw [hentry, decodeGate_idtSetGate]
    rfl
  · rw [hkept v (by rw [mem_irqVector]; omega), hclear v (by rw [mem_isrVector]; omega),
      idtClear_apply]
    rfl

/-- Each vector's gate leads to its own stub, and the others to none. -/
theorem interruptGate_idtInit (v : BitVec 8) :
    interruptGate ((idtInit address idtAddr idt).1 v).packed =
      (stub v).map fun l => ⟨0x08, address l⟩ := by
  unfold interruptGate
  rw [decodeGate_idtInit]
  cases stub v <;> rfl

/-- The segment that a selector of the global table stands for. -/
def segmentOf (gdt : Gdt) (selector : BitVec 16) : Option Segment :=
  (gdt.gdt[(selector >>> 3).toNat]?).map decodeDescriptor

/-- After `gdt_init` and `idt_init` the first 48 vectors, and no others, lead through an interrupt
gate of ring 0 and the flat code segment to their own entry points; the data segment that these load
is flat as well, and the table holds a gate for every vector. -/
theorem idtInit_gates (tssAddr gdtAddr : BitVec 32) (v : BitVec 8) :
    decodeGate ((idtInit address idtAddr idt).1 v).packed =
        (match stub v with
          | some l => ⟨address l, 0x08, true, 0, interruptGateType⟩
          | none => ⟨0, 0, false, 0, 0⟩) ∧
      ((stub v).isSome ↔ v.toNat < 48) ∧
      segmentOf (gdtInit tssAddr gdtAddr) 0x08 = some ⟨0, 0xFFFFF, 0x9A, 0xC⟩ ∧
      segmentOf (gdtInit tssAddr gdtAddr) 0x10 = some ⟨0, 0xFFFFF, 0x92, 0xC⟩ ∧
      v.toNat * 8 + 7 ≤ (idtInit address idtAddr idt).2.limit.toNat := by
  refine ⟨decodeGate_idtInit address idtAddr idt v, ?_, ?_, ?_, ?_⟩
  · unfold stub
    split_ifs with h32 h48
    · simp [h32.trans (by decide : 32 < 48)]
    · simp [h48]
    · simp [h48]
  · change some (decodeDescriptor (createDescriptor 0 0x000FFFFF gdtCodePl0)) = _
    decide
  · change some (decodeDescriptor (createDescriptor 0 0x000FFFFF gdtDataPl0)) = _
    decide
  · have hlimit : (idtInit address idtAddr idt).2.limit.toNat = 2047 := rfl
    have := v.isLt
    omega

end Table

/-! ### `isr_stubs.asm` -/

/-- The C functions that the stubs call. -/
inductive CFunction
  | isrHandler
  | irqHandler
  deriving DecidableEq

/-- The stubs without a `push 0`: the processor has pushed an error code for these exceptions. -/
def errorCodeStubs : List (Fin 32) := [8, 10, 11, 12, 13, 14, 17]

/-- `isr0` to `isr31`. -/
def isrStub (n : Fin 32) : List (Instr Label CFunction) :=
  if n ∈ errorCodeStubs then [.op (.pushImm (BitVec.ofNat 32 n)), .jmp .isrCommon]
  else [.op (.pushImm 0), .op (.pushImm (BitVec.ofNat 32 n)), .jmp .isrCommon]

/-- `irq0` to `irq15`. -/
def irqStub (n : Fin 16) : List (Instr Label CFunction) :=
  [.op (.pushImm 0), .op (.pushImm (BitVec.ofNat 32 (32 + n))), .jmp .irqCommon]

/-- The code in front of the call. -/
def saveContext : List Op :=
  [.pusha, .movAxSeg .ds, .push .eax, .movAxImm 0x10, .movSegAx .ds, .movSegAx .es, .movSegAx .fs,
    .movSegAx .gs, .push .esp]

/-- The code behind the call. -/
def restoreContext : List Op :=
  [.addEsp 4, .pop .eax, .movSegAx .ds, .movSegAx .es, .movSegAx .fs, .movSegAx .gs, .popa,
    .addEsp 8]

/-- `isr_common` and `irq_common` differ in the function they call. -/
def common (f : CFunction) : List (Instr Label CFunction) :=
  saveContext.map .op ++ .call f :: (restoreContext.map .op ++ [.iret])

/-- `isr_stubs.asm`, at the addresses the linker gives it. -/
def isrStubs (address : Label → Word) (after : CFunction → Word) : Code Label CFunction where
  block
    | .isr n => isrStub n
    | .irq n => irqStub n
    | .isrCommon => common .isrHandler
    | .irqCommon => common .irqHandler
  address := address
  after := after

end AuriOS
