import AuriOS.Cpu.Interrupts

/-!
# The interrupted context

What a stub of `src/cpu/isr_stubs.asm` makes of the interrupted program for the C handler, and how
it takes it up again.

* `service` is an interrupt from its delivery by the processor to the `iret` of its stub;
* `atHandler_context`: the `registers_t` that the handler is given, and what `isr_handler` makes of
  it;
* `service_resumes`: whatever was interrupted goes on as if nothing had happened.
-/

namespace AuriOS

open IA32

/-- `registers_t`. -/
structure Registers where
  ds : Word
  edi : Word
  esi : Word
  ebp : Word
  esp : Word
  ebx : Word
  edx : Word
  ecx : Word
  eax : Word
  intNo : Word
  errCode : Word
  eip : Word
  cs : Word
  eflags : Word
  useresp : Word
  ss : Word
  deriving DecidableEq

/-- The `registers_t` at an address. -/
def registersAt (m : Mem) (p : Word) : Registers where
  ds := read32 m p
  edi := read32 m (p + 4)
  esi := read32 m (p + 8)
  ebp := read32 m (p + 12)
  esp := read32 m (p + 16)
  ebx := read32 m (p + 20)
  edx := read32 m (p + 24)
  ecx := read32 m (p + 28)
  eax := read32 m (p + 32)
  intNo := read32 m (p + 36)
  errCode := read32 m (p + 40)
  eip := read32 m (p + 44)
  cs := read32 m (p + 48)
  eflags := read32 m (p + 52)
  useresp := read32 m (p + 56)
  ss := read32 m (p + 60)

/-! ### From the delivery to the `iret` -/

/-- Every label of the stubs. -/
def labels : List Label :=
  (List.finRange 32).map .isr ++ (List.finRange 16).map .irq ++ [.isrCommon, .irqCommon]

/-- The code at an address. -/
def labelAt (C : Code Label CFunction) (a : Word) : Option Label :=
  labels.find? fun l => C.address l == a

/-- An interrupt: the processor finds the gate and enters it, and the stub runs up to its `iret`. -/
def service (C : Code Label CFunction) (callee : CFunction → Processor → Option Processor)
    (idt : Idt) (v : BitVec 8) (code : Option Word) (s : Processor) : Option Processor := do
  let gate ← interruptGate (idt v).packed
  let l ← labelAt C gate.offset
  run C callee 32 (C.block l) (enter gate code s)

/-- The exceptions for which the processor pushes an error code. -/
def pushesErrorCode (v : BitVec 8) : Bool :=
  v ∈ [(8 : BitVec 8), 10, 11, 12, 13, 14, 17, 21, 29, 30]

/-- The exceptions whose stub pushes a second error code. -/
def misstacked (v : BitVec 8) : Bool := v ∈ [(21 : BitVec 8), 29, 30]

/-- The words that the stub of a vector pushes. -/
def stubWords (v : BitVec 8) : List Word :=
  if v ∈ errorCodeStubs.map isrVector then [v.setWidth 32] else [0, v.setWidth 32]

/-- The C function for a vector. -/
def handlerOf (v : BitVec 8) : CFunction := if v.toNat < 32 then .isrHandler else .irqHandler

/-- The state in which the common part is entered. -/
def atCommon (C : Code Label CFunction) (v : BitVec 8) (code : Option Word) (s : Processor) :
    Processor :=
  (enter ⟨0x08, ((stub v).map C.address).getD 0⟩ code s).pushAll (stubWords v)

/-- The state that the C function is entered with. -/
def atHandler (C : Code Label CFunction) (v : BitVec 8) (code : Option Word) (s : Processor) :
    Processor :=
  (execAll saveContext (atCommon C v code s)).push (C.after (handlerOf v))

section Service

variable {address : Label → Word} {after : CFunction → Word}
  {callee : CFunction → Processor → Option Processor} {idt : Idt} {idtAddr : BitVec 32}
  {v : BitVec 8} {code : Option Word} {s : Processor}

/-- Every label is in the list of labels. -/
theorem mem_labels (l : Label) : l ∈ labels := by
  unfold labels
  cases l <;> simp

/-- Distinct labels have distinct addresses, so that an address tells its label. -/
theorem labelAt_address {C : Code Label CFunction} (h : Function.Injective C.address) (l : Label) :
    labelAt C (C.address l) = some l := by
  have hsome : (labelAt C (C.address l)).isSome :=
    List.find?_isSome.mpr ⟨l, mem_labels l, beq_self_eq_true _⟩
  obtain ⟨l', hl'⟩ := Option.isSome_iff_exists.mp hsome
  have hsame := List.find?_some (p := fun l' => C.address l' == C.address l) hl'
  rw [hl', h (beq_iff_eq.mp hsame)]

/-- Each of the 48 vectors has its stub. -/
theorem exists_stub (hv : v.toNat < 48) : ∃ l, stub v = some l := by
  unfold stub
  split_ifs
  · exact ⟨_, rfl⟩
  · exact ⟨_, rfl⟩

/-- The stub of a vector pushes its words and goes on in the common part. -/
theorem run_stub {l : Label} (hl : stub v = some l) (s : Processor) :
    run (isrStubs address after) callee 32 ((isrStubs address after).block l) s =
      run (isrStubs address after) callee (31 - (stubWords v).length) (common (handlerOf v))
        (s.pushAll (stubWords v)) := by
  unfold stub at hl
  split_ifs at hl with h32 h48
  · obtain rfl := Option.some.inj hl
    have hmem : v ∈ errorCodeStubs.map isrVector ↔ (⟨v.toNat, h32⟩ : Fin 32) ∈ errorCodeStubs := by
      revert v
      decide +kernel
    have hword : BitVec.ofNat 32 v.toNat = v.setWidth 32 := BitVec.ofNat_toNat 32 v
    unfold stubWords handlerOf
    rw [if_pos h32, ← hword]
    change run _ _ 32 (isrStub _) s = _
    unfold isrStub
    by_cases hcode : v ∈ errorCodeStubs.map isrVector
    · rw [if_pos hcode, if_pos (hmem.mp hcode)]
      rfl
    · rw [if_neg hcode, if_neg (mt hmem.mpr hcode)]
      rfl
  · obtain rfl := Option.some.inj hl
    have hmem : v ∉ errorCodeStubs.map isrVector := by
      revert v
      decide +kernel
    have hword : BitVec.ofNat 32 (32 + (v.toNat - 32)) = v.setWidth 32 := by
      rw [show 32 + (v.toNat - 32) = v.toNat by omega]
      exact BitVec.ofNat_toNat 32 v
    unfold stubWords handlerOf
    rw [if_neg h32, if_neg hmem, ← hword]
    rfl

/-- The common part saves the context, calls the handler, and restores the context. -/
theorem run_common (f : CFunction) (n : ℕ) (s : Processor) :
    run (isrStubs address after) callee (n + 19) (common f) s =
      (callee f ((execAll saveContext s).push (after f))).bind fun t =>
        (execAll restoreContext t).iret := by
  have hsave := run_ops (isrStubs address after) callee (n + 10) saveContext
    (.call f :: (restoreContext.map .op ++ [.iret])) s
  refine hsave.trans (congrArg (Option.bind _) (funext fun t => ?_))
  exact run_ops (isrStubs address after) callee (n + 1) restoreContext [.iret] t

/-- A stub pushes at most two words. -/
theorem stubWords_length (v : BitVec 8) : (stubWords v).length ≤ 2 := by
  unfold stubWords
  split_ifs
  · exact Nat.le_succ 1
  · exact le_rfl

/-- An interrupt runs the stub, the handler it calls and the way back to `iret`. -/
theorem service_eq (haddress : Function.Injective address) (hv : v.toNat < 48) :
    service (isrStubs address after) callee (idtInit address idtAddr idt).1 v code s =
      (callee (handlerOf v) (atHandler (isrStubs address after) v code s)).bind fun t =>
        (execAll restoreContext t).iret := by
  obtain ⟨l, hl⟩ := exists_stub hv
  obtain ⟨n, hn⟩ := Nat.exists_eq_add_of_le' (show 19 ≤ 31 - (stubWords v).length by
    have := stubWords_length v
    omega)
  unfold service atHandler atCommon
  rw [interruptGate_idtInit, hl]
  refine (congrArg (Option.bind · _)
    (labelAt_address (C := isrStubs address after) haddress l)).trans ?_
  change run _ _ 32 _ (enter ⟨0x08, address l⟩ code s) = _
  rw [run_stub hl, hn, run_common]
  rfl

end Service

/-! ### What the handler is given -/

/-- The words that the common part pushes: the general registers, the data segment under the high
half of `eax`, and the address of all that. -/
def savedWords (s : Processor) : List Word :=
  [s.reg .eax, s.reg .ecx, s.reg .edx, s.reg .ebx, s.esp, s.reg .ebp, s.reg .esi, s.reg .edi,
    (s.reg .eax).extractLsb' 16 16 ++ s.seg .ds, s.esp - 36]

section Handler

variable {s : Processor} {old : List Word}

/-- The low half of `eax` reads back as it was set. -/
theorem setAx_ax (s : Processor) (v : BitVec 16) : (s.setAx v).ax = v := by
  change ((s.reg .eax).extractLsb' 16 16 ++ v).setWidth 16 = v
  exact BitVec.setWidth_append_eq_right

/-- The four data segment registers are loaded with the kernel's data segment. -/
def kernelSegs (seg : Seg → BitVec 16) (v : BitVec 16) : Seg → BitVec 16
  | .ds | .es | .fs | .gs => v
  | g => seg g

/-- Saving the context pushes the saved words and nothing else. -/
theorem saveContext_mem (s : Processor) :
    (execAll saveContext s).mem = (s.pushAll (savedWords s)).mem ∧
      (execAll saveContext s).esp = (s.pushAll (savedWords s)).esp := by
  have hesp : s.esp - 36 = s.esp - 4 - 4 - 4 - 4 - 4 - 4 - 4 - 4 - 4 := by bv_omega
  unfold savedWords
  rw [hesp]
  exact ⟨rfl, rfl⟩

/-- After saving the context the data segments are the kernel's. -/
theorem saveContext_seg (s : Processor) :
    (execAll saveContext s).seg = kernelSegs s.seg 0x10 := by
  have hax := setAx_ax (execAll [.pusha, .movAxSeg .ds, .push .eax] s) 0x10
  funext g
  cases g
  case cs | ss => rfl
  all_goals exact hax

/-- After saving the context the saved words are on top of the old stack. -/
theorem saveContext_frame (h : s.Frame old) (hlen : 4 * old.length + 40 ≤ 2 ^ 32) :
    (execAll saveContext s).Frame ((savedWords s).reverse ++ old) := by
  obtain ⟨hmem, hesp⟩ := saveContext_mem s
  unfold Processor.Frame
  rw [hmem, hesp]
  refine (Processor.pushAll_spec s (savedWords s)).frame old h ?_
  change 4 * (10 + old.length) ≤ 2 ^ 32
  omega

/-- What `restore` makes of a saved context. -/
theorem restoreContext_frame {t : Processor} {arg ds edi esi ebp esp ebx edx ecx eax no err : Word}
    (h : t.Frame ([arg, ds, edi, esi, ebp, esp, ebx, edx, ecx, eax, no, err] ++ old)) :
    let u := execAll restoreContext t
    u.Frame old ∧ u.esp = t.esp + 48 ∧ u.mem = t.mem ∧
      u.seg = kernelSegs t.seg (ds.setWidth 16) ∧
      u.eflags.getLsbD nestedTask = t.eflags.getLsbD nestedTask ∧
      (∀ r, r ≠ Reg.esp → u.reg r = match r with
        | .eax => eax | .ecx => ecx | .edx => edx | .ebx => ebx | .esp => 0
        | .ebp => ebp | .esi => esi | .edi => edi) := by
  intro u
  obtain ⟨-, hds, hedi, hesi, hebp, -, hebx, hedx, hecx, heax, -, -, hold⟩ := h
  have hesp : u.esp = t.esp + 4 + 4 + 4 + 4 + 4 + 4 + 4 + 4 + 4 + 4 + 8 := rfl
  refine ⟨?_, ?_, rfl, ?_, ?_, ?_⟩
  · unfold Processor.Frame
    rw [hesp]
    have h8 : ∀ p : Word, p + 8 = p + 4 + 4 := by intro p; bv_omega
    rw [h8]
    exact hold
  · rw [hesp]
    bv_omega
  · funext g
    have hax : ((execAll [.addEsp 4, .pop .eax] t).reg .eax).setWidth 16 = ds.setWidth 16 :=
      congrArg (BitVec.setWidth 16) hds
    cases g
    case cs | ss => rfl
    all_goals exact hax
  · have hnt : (0x8D5#32).getLsbD nestedTask = false := by decide
    exact (addFlags_getLsbD _ _ _ hnt (by decide)).trans
      (addFlags_getLsbD _ _ _ hnt (by decide))
  · intro r hr
    cases r
    case esp => exact absurd rfl hr
    case eax => exact heax
    case ecx => exact hecx
    case edx => exact hedx
    case ebx => exact hebx
    case ebp => exact hebp
    case esi => exact hesi
    case edi => exact hedi

end Handler

section Context

variable {address : Label → Word} {after : CFunction → Word} {v : BitVec 8} {code : Option Word}
  {s t : Processor}

/-- The `registers_t` of an interrupted program: the stack pointer in it is that of `pusha`, and
without a change of privilege the last two fields are what the program had on its stack. -/
def interrupted (v : BitVec 8) (code : Option Word) (s : Processor) : Registers where
  ds := (s.reg .eax).extractLsb' 16 16 ++ s.seg .ds
  edi := s.reg .edi
  esi := s.reg .esi
  ebp := s.reg .ebp
  esp := s.esp - 20
  ebx := s.reg .ebx
  edx := s.reg .edx
  ecx := s.reg .ecx
  eax := s.reg .eax
  intNo := v.setWidth 32
  errCode := code.getD 0
  eip := s.eip
  cs := (s.seg .cs).setWidth 32
  eflags := s.eflags
  useresp := s.top
  ss := read32 s.mem (s.esp + 4)

/-- What a stub that pushes a second error code makes of it. -/
def shifted (v : BitVec 8) (code : Option Word) (s : Processor) : Registers :=
  { interrupted v code s with
    esp := s.esp - 24, errCode := 0, eip := code.getD 0, cs := s.eip,
    eflags := (s.seg .cs).setWidth 32, useresp := s.eflags, ss := s.top }

/-- The argument of the handler, above its return address. -/
def argument (t : Processor) : Word := read32 t.mem (t.esp + 4)

/-- The stack in the state that the common part is entered with. -/
theorem stubWords_code (hv : v.toNat < 48) (hcode : code.isSome = pushesErrorCode v) :
    (misstacked v = false → (stubWords v).reverse ++ code.toList = [v.setWidth 32, code.getD 0]) ∧
    (misstacked v = true →
      (stubWords v).reverse ++ code.toList = [v.setWidth 32, 0, code.getD 0]) := by
  have hstub : (pushesErrorCode v = true → misstacked v = false → stubWords v = [v.setWidth 32]) ∧
      (pushesErrorCode v = false → stubWords v = [0, v.setWidth 32]) ∧
      (misstacked v = true → stubWords v = [0, v.setWidth 32] ∧ pushesErrorCode v = true) := by
    clear hcode
    revert v
    decide +kernel
  obtain ⟨hpushed, hnone, hboth⟩ := hstub
  refine ⟨fun hmis => ?_, fun hmis => ?_⟩
  · cases code with
    | none =>
      rw [hnone hcode.symm]
      rfl
    | some c =>
      rw [hpushed hcode.symm hmis]
      rfl
  · rw [(hboth hmis).1]
    rw [(hboth hmis).2] at hcode
    obtain ⟨c, rfl⟩ := Option.isSome_iff_exists.mp hcode
    rfl

/-- Sixteen words in memory are a `registers_t`. -/
theorem registersAt_of_onStack {m : Mem} {p a b c d e f g h i j k₀ l n o q r : Word}
    (rest : List Word)
    (hp : OnStack m p ([a, b, c, d, e, f, g, h, i, j, k₀, l, n, o, q, r] ++ rest)) :
    registersAt m p = ⟨a, b, c, d, e, f, g, h, i, j, k₀, l, n, o, q, r⟩ := by
  have hget : ∀ k (hk : k < 16), read32 m (p + BitVec.ofNat 32 (4 * k)) =
      [a, b, c, d, e, f, g, h, i, j, k₀, l, n, o, q, r][k] := fun k hk =>
    (hp.getElem (by rw [List.length_append]; exact hk.trans_le (Nat.le_add_right 16 _))).trans
      (List.getElem_append_left hk)
  unfold registersAt
  rw [Registers.mk.injEq]
  exact ⟨hp.1, hget 1 (by decide), hget 2 (by decide), hget 3 (by decide), hget 4 (by decide),
    hget 5 (by decide), hget 6 (by decide), hget 7 (by decide), hget 8 (by decide),
    hget 9 (by decide), hget 10 (by decide), hget 11 (by decide), hget 12 (by decide),
    hget 13 (by decide), hget 14 (by decide), hget 15 (by decide)⟩

variable (address after v code s)

/-- At the common entry the stub's words stand above what the processor pushed. -/
theorem atCommon_frame : (atCommon (isrStubs address after) v code s).Frame
    ((stubWords v).reverse ++ (code.toList ++ [s.eip, (s.seg .cs).setWidth 32, s.eflags] ++
      [s.top, read32 s.mem (s.esp + 4)])) := by
  have hold : s.Frame [s.top, read32 s.mem (s.esp + 4)] := ⟨rfl, rfl, trivial⟩
  refine (Processor.pushAll_spec _ (stubWords v)).frame _ (enter_frame hold (by simp)) ?_
  have hlen := stubWords_length v
  cases code <;> simp <;> omega

/-- At the common entry the stack pointer is below every word pushed so far. -/
theorem atCommon_esp : (atCommon (isrStubs address after) v code s).esp =
    s.esp - BitVec.ofNat 32 (4 * (3 + ((stubWords v).reverse ++ code.toList).length)) := by
  have hstub := (Processor.pushAll_spec (enter ⟨0x08, ((stub v).map address).getD 0⟩ code s)
    (stubWords v)).esp
  have hpush := (Processor.pushAll_spec s
    ([s.eflags, (s.seg .cs).setWidth 32, s.eip] ++ code.toList)).esp
  refine (hstub.trans (congrArg (· - _) hpush)).trans ?_
  rw [List.length_append, List.length_append, List.length_reverse,
    show [s.eflags, (s.seg .cs).setWidth 32, s.eip].length = 3 from rfl]
  bv_omega

/-- The stubs push; they change no other register. -/
theorem atCommon_kept : (∀ r, r ≠ Reg.esp →
      (atCommon (isrStubs address after) v code s).reg r = s.reg r) ∧
    (atCommon (isrStubs address after) v code s).seg = Function.update s.seg .cs 0x08 ∧
    (atCommon (isrStubs address after) v code s).eflags = handlerFlags s.eflags := by
  have hstub := Processor.pushAll_spec (enter ⟨0x08, ((stub v).map address).getD 0⟩ code s)
    (stubWords v)
  have hpush := Processor.pushAll_spec s ([s.eflags, (s.seg .cs).setWidth 32, s.eip] ++ code.toList)
  refine ⟨fun r hr => (hstub.reg r hr).trans (hpush.reg r hr), hstub.seg.trans ?_,
    hstub.eflags.trans ?_⟩
  · exact congrArg (Function.update · Seg.cs _) hpush.seg
  · exact congrArg handlerFlags hpush.eflags

/-- The stack that the handler finds. -/
theorem atHandler_frame {words : List Word}
    (hwords : (stubWords v).reverse ++ code.toList = words) {p : Word}
    (hp : s.esp - BitVec.ofNat 32 (4 * (3 + words.length)) = p) :
    (atHandler (isrStubs address after) v code s).esp = p - 44 ∧
      argument (atHandler (isrStubs address after) v code s) =
        (atHandler (isrStubs address after) v code s).esp + 4 + 4 ∧
      (atHandler (isrStubs address after) v code s).Frame
        (after (handlerOf v) :: (p - 36) :: ((s.reg .eax).extractLsb' 16 16 ++ s.seg .ds) ::
          s.reg .edi :: s.reg .esi :: s.reg .ebp :: p :: s.reg .ebx :: s.reg .edx :: s.reg .ecx ::
          s.reg .eax :: (words ++
            [s.eip, (s.seg .cs).setWidth 32, s.eflags, s.top, read32 s.mem (s.esp + 4)])) := by
  obtain ⟨hreg, hseg, -⟩ := atCommon_kept address after v code s
  have hesp := atCommon_esp address after v code s
  rw [hwords, hp] at hesp
  have hds : (atCommon (isrStubs address after) v code s).seg .ds = s.seg .ds := by
    rw [hseg]
    rfl
  have hsaved : savedWords (atCommon (isrStubs address after) v code s) =
      [s.reg .eax, s.reg .ecx, s.reg .edx, s.reg .ebx, p, s.reg .ebp, s.reg .esi, s.reg .edi,
        (s.reg .eax).extractLsb' 16 16 ++ s.seg .ds, p - 36] := by
    unfold savedWords
    rw [hreg _ (by decide), hreg _ (by decide), hreg _ (by decide), hreg _ (by decide),
      hreg _ (by decide), hreg _ (by decide), hreg _ (by decide), hds, hesp]
  have hlen := stubWords_length v
  have hentry : (atHandler (isrStubs address after) v code s).esp = p - 44 := by
    have hsave := (saveContext_mem (atCommon (isrStubs address after) v code s)).2.trans
      (Processor.pushAll_spec _ _).esp
    refine (congrArg (· - (4 : Word)) hsave).trans ?_
    rw [hsaved, hesp]
    change p - 40 - 4 = p - 44
    bv_omega
  have hcommon := atCommon_frame address after v code s
  rw [← List.append_assoc, ← List.append_assoc, hwords, List.append_assoc] at hcommon
  have hframe := saveContext_frame hcommon (by rw [← hwords]; cases code <;> simp <;> omega)
  rw [hsaved] at hframe
  have hpushed := OnStack.push (w := after (handlerOf v)) hframe
    (by rw [← hwords]; cases code <;> simp <;> omega)
  refine ⟨hentry, hpushed.2.1.trans ?_, hpushed⟩
  rw [hentry]
  bv_omega

/-- The handler runs on the kernel's segments, with interrupts disabled. -/
theorem atHandler_kept :
    (atHandler (isrStubs address after) v code s).seg =
        kernelSegs (Function.update s.seg .cs 0x08) 0x10 ∧
      (atHandler (isrStubs address after) v code s).eflags = handlerFlags s.eflags := by
  obtain ⟨-, hseg, hflags⟩ := atCommon_kept address after v code s
  refine ⟨?_, hflags⟩
  rw [← hseg]
  exact saveContext_seg (atCommon (isrStubs address after) v code s)

/-- The handler is given the interrupted context exactly when its stub pushes no second error
code. -/
theorem atHandler_registers (hv : v.toNat < 48) (hcode : code.isSome = pushesErrorCode v) :
    let e := atHandler (isrStubs address after) v code s
    registersAt e.mem (argument e) =
      if misstacked v then shifted v code s else interrupted v code s := by
  intro e
  obtain ⟨hplain, hdouble⟩ := stubWords_code hv hcode
  cases hmis : misstacked v
  · obtain ⟨-, harg, hframe⟩ := atHandler_frame address after v code s (hplain hmis)
      (p := s.esp - 20) rfl
    rw [harg]
    exact registersAt_of_onStack [] hframe.2.2
  · obtain ⟨-, harg, hframe⟩ := atHandler_frame address after v code s (hdouble hmis)
      (p := s.esp - 24) rfl
    rw [harg]
    exact registersAt_of_onStack [_] hframe.2.2

/-- The words that an interrupt pushes, up to the handler's return address. -/
def pushedWords (C : Code Label CFunction) (v : BitVec 8) (code : Option Word) (s : Processor) :
    List Word :=
  [s.eflags, (s.seg .cs).setWidth 32, s.eip] ++ code.toList ++ stubWords v ++
    savedWords (atCommon C v code s) ++ [C.after (handlerOf v)]

/-- At the handler the pushed words are all that has changed on the stack. -/
theorem atHandler_pushed :
    (atHandler (isrStubs address after) v code s).mem =
        (s.pushAll (pushedWords (isrStubs address after) v code s)).mem ∧
      (atHandler (isrStubs address after) v code s).esp =
        (s.pushAll (pushedWords (isrStubs address after) v code s)).esp := by
  have hstub := Processor.pushAll_congr (t := enter ⟨0x08, ((stub v).map address).getD 0⟩ code s)
    (s := s.pushAll ([s.eflags, (s.seg .cs).setWidth 32, s.eip] ++ code.toList)) rfl rfl
    (stubWords v)
  have hcommon := Processor.pushAll_congr (t := atCommon (isrStubs address after) v code s) hstub.1
    hstub.2 (savedWords (atCommon (isrStubs address after) v code s))
  have hsave := saveContext_mem (atCommon (isrStubs address after) v code s)
  unfold pushedWords
  rw [Processor.pushAll_append, Processor.pushAll_append, Processor.pushAll_append]
  exact Processor.pushAll_congr (hsave.1.trans hcommon.1) (hsave.2.trans hcommon.2)
    [after (handlerOf v)]

/-- An interrupt uses at most 17 words below the stack pointer. -/
theorem atHandler_outside {a : Word}
    (ha : 68 ≤ (a - (s.esp - 68)).toNat) :
    (atHandler (isrStubs address after) v code s).mem a = s.mem a := by
  have hlen : (pushedWords (isrStubs address after) v code s).length ≤ 17 := by
    have h := stubWords_length v
    unfold pushedWords savedWords
    cases code <;> simp <;> omega
  have hspec := Processor.pushAll_spec s (pushedWords (isrStubs address after) v code s)
  rw [(atHandler_pushed address after v code s).1]
  refine hspec.outside (by omega) a ?_
  rw [hspec.esp]
  bv_omega

end Context

/-! ### The return -/

/-- How a handler comes back: as C functions do, without having written to its `registers_t`. -/
structure ComesBack (s t : Processor) : Prop where
  esp : t.esp = s.esp + 4
  cs : t.seg .cs = s.seg .cs
  ss : t.seg .ss = s.seg .ss
  nestedTask : t.eflags.getLsbD nestedTask = s.eflags.getLsbD nestedTask
  registers : ∀ a, (a - argument s).toNat < 56 → t.mem a = s.mem a

/-- The interrupted program over the handler's memory, `es`, `fs` and `gs` loaded from `ds`. -/
def resumed (s t : Processor) : Processor :=
  { s with mem := t.mem, seg := kernelSegs s.seg (s.seg .ds) }

section Return

variable {address : Label → Word} {after : CFunction → Word} {v : BitVec 8} {code : Option Word}
  {s t : Processor}

/-- The context is still on the stack after the return. -/
theorem returns_frame (hv : v.toNat < 48) (hcode : code.isSome = pushesErrorCode v)
    (hmis : misstacked v = false) (ht : ComesBack (atHandler (isrStubs address after) v code s) t) :
    t.esp = s.esp - 60 ∧
      t.Frame ([t.top, (s.reg .eax).extractLsb' 16 16 ++ s.seg .ds, s.reg .edi, s.reg .esi,
        s.reg .ebp, s.esp - 20, s.reg .ebx, s.reg .edx, s.reg .ecx, s.reg .eax, v.setWidth 32,
        code.getD 0] ++ [s.eip, (s.seg .cs).setWidth 32, s.eflags]) := by
  obtain ⟨hesp, harg, hframe⟩ := atHandler_frame address after v code s
    ((stubWords_code hv hcode).1 hmis) (p := s.esp - 20) rfl
  have htop : t.esp = s.esp - 60 := by
    rw [ht.esp, hesp]
    bv_omega
  have hat : t.esp + 4 = argument (atHandler (isrStubs address after) v code s) := by
    rw [harg, ht.esp]
  refine ⟨htop, rfl, ?_⟩
  rw [hat]
  have hsaved := OnStack.left [(s.reg .eax).extractLsb' 16 16 ++ s.seg .ds, s.reg .edi,
    s.reg .esi, s.reg .ebp, s.esp - 20, s.reg .ebx, s.reg .edx, s.reg .ecx, s.reg .eax,
    v.setWidth 32, code.getD 0, s.eip, (s.seg .cs).setWidth 32, s.eflags] hframe.2.2
  rw [← harg] at hsaved
  exact hsaved.congr (by simp) ht.registers

/-- After a return, the stub resumes the interrupted program. -/
theorem restore_returns (hv : v.toNat < 48) (hcode : code.isSome = pushesErrorCode v)
    (hmis : misstacked v = false) (hring : (s.seg .cs).setWidth 2 = 0#2)
    (hvirtual : s.eflags.getLsbD virtualMode = false)
    (ht : ComesBack (atHandler (isrStubs address after) v code s) t) :
    (execAll restoreContext t).iret = some (resumed s t) := by
  obtain ⟨htop, hframe⟩ := returns_frame hv hcode hmis ht
  obtain ⟨hrest, hup, hmem, hsegs, hnt, hregs⟩ := restoreContext_frame hframe
  obtain ⟨hseg, hflags⟩ := atHandler_kept address after v code s
  generalize execAll restoreContext t = u at hrest hup hmem hsegs hnt hregs ⊢
  have hnested : u.eflags.getLsbD nestedTask = false := by
    rw [hnt, ht.nestedTask, hflags, handlerFlags_nestedTask]
  have hcs16 : ((s.seg .cs).setWidth 32).setWidth 16 = s.seg .cs := by
    rw [BitVec.setWidth_setWidth_of_le _ (by decide), BitVec.setWidth_eq]
  have hds16 : ((s.reg .eax).extractLsb' 16 16 ++ s.seg .ds).setWidth 16 = s.seg .ds :=
    BitVec.setWidth_append_eq_right
  have hcs : u.seg .cs = 0x08 := by
    rw [hsegs]
    change t.seg .cs = 0x08
    rw [ht.cs, hseg]
    rfl
  have hss : t.seg .ss = s.seg .ss := by
    rw [ht.ss, hseg]
    rfl
  obtain ⟨heip, hpcs, hpflags, -⟩ := hrest
  unfold Processor.iret
  rw [hpcs, hpflags, hcs16, hnested]
  dsimp only
  rw [hvirtual, hring, hcs, if_neg (by decide)]
  refine congrArg some (Processor.ext (funext fun r => ?_) (funext fun g => ?_) heip rfl hmem)
  · cases r
    case esp =>
      change u.esp + 4 + 4 + 4 = s.esp
      rw [hup, htop]
      bv_omega
    all_goals exact hregs _ (by decide)
  · cases g
    case cs => rfl
    case ss => exact (congrFun hsegs Seg.ss).trans hss
    all_goals exact (congrFun hsegs _).trans hds16

end Return

/-! ### `isr.c` -/

/-- `exception_messages`. -/
def exceptionMessages : Vector String 32 := #v[
  "Division By Zero", "Debug", "Non Maskable Interrupt", "Breakpoint", "Overflow",
  "Bound Range Exceeded", "Invalid Opcode", "Device Not Available", "Double Fault",
  "Coprocessor Segment Overrun", "Invalid TSS", "Segment Not Present", "Stack-Segment Fault",
  "General Protection Fault", "Page Fault", "Reserved", "x87 Floating-Point Exception",
  "Alignment Check", "Machine Check", "SIMD Floating-Point Exception", "Virtualization Exception",
  "Control Protection Exception", "Reserved", "Reserved", "Reserved", "Reserved", "Reserved",
  "Reserved", "Hypervisor Injection Exception", "VMM Communication Exception",
  "Security Exception", "Reserved"]

/-- What `isr_handler` calls. -/
inductive IsrCall
  | terminalWritestring (text : String)
  | mmuHandlePageFault (errorCode : Word)
  | kpanic (msg : String)
  deriving DecidableEq

/-- `isr_handler`: its calls, and whether it returns.  The loop after the panic does not end. -/
def isrHandler (regs : Registers) : List IsrCall × Bool :=
  if h : regs.intNo.toNat < 32 then
    let message := exceptionMessages[regs.intNo.toNat]
    let calls : List IsrCall := [.terminalWritestring "EXCEPTION: ", .terminalWritestring message,
      .terminalWritestring "\n"]
    if regs.intNo = 14 then (calls ++ [.mmuHandlePageFault regs.errCode], true)
    else (calls ++ [.kpanic message], false)
  else ([], true)

/-- The compiled handlers: they come back as C functions do, and `isr_handler` only where its source
returns. -/
structure Compiled (callee : CFunction → Processor → Option Processor) : Prop where
  returns : ∀ f e t, callee f e = some t → ComesBack e t
  isrHandler : ∀ e t, callee .isrHandler e = some t →
    (isrHandler (registersAt e.mem (argument e))).2 = true

section Isr

variable {address : Label → Word} {after : CFunction → Word}
  {callee : CFunction → Processor → Option Processor} {idt : Idt} {idtAddr : BitVec 32}
  {v : BitVec 8} {code : Option Word} {s : Processor}

/-- Of the exceptions, only page faults come back. -/
theorem isrHandler_returns_iff (regs : Registers) :
    (isrHandler regs).2 = true ↔ regs.intNo = 14 ∨ 32 ≤ regs.intNo.toNat := by
  unfold isrHandler
  split_ifs with h32 h14
  · simp [h14]
  · simpa [h32] using h14
  · simp [Nat.not_lt.mp h32]

/-- Every interrupt that comes back resumes what it interrupted; it comes back exactly when its
handler does. -/
theorem service_resumes (haddress : Function.Injective address) (hv : v.toNat < 48)
    (hcode : code.isSome = pushesErrorCode v) (hring : (s.seg .cs).setWidth 2 = 0#2)
    (hvirtual : s.eflags.getLsbD virtualMode = false) (hcallee : Compiled callee) :
    service (isrStubs address after) callee (idtInit address idtAddr idt).1 v code s =
      (callee (handlerOf v) (atHandler (isrStubs address after) v code s)).map (resumed s) := by
  rw [service_eq haddress hv]
  cases hmis : misstacked v
  · cases ht : callee (handlerOf v) (atHandler (isrStubs address after) v code s) with
    | none => rfl
    | some t => exact restore_returns hv hcode hmis hring hvirtual (hcallee.returns _ _ _ ht)
  · -- the exceptions with a second error code do not come back
    have hnone : callee (handlerOf v) (atHandler (isrStubs address after) v code s) = none := by
      rw [Option.eq_none_iff_forall_ne_some]
      intro t ht
      have hisr : handlerOf v = .isrHandler ∧ v.setWidth 32 ≠ 14#32 ∧
          (v.setWidth 32).toNat < 32 := by
        clear hcode ht
        revert v
        decide +kernel
      obtain ⟨hf, h14, h32⟩ := hisr
      rw [hf] at ht
      have hback := hcallee.isrHandler _ t ht
      rw [atHandler_registers address after v code s hv hcode, hmis, if_pos rfl,
        isrHandler_returns_iff] at hback
      rcases hback with h | h
      · exact h14 h
      · exact absurd h (Nat.not_le.mpr h32)
    rw [hnone]
    rfl

/-- What an exception's handler calls, from the vector and the processor's error code. -/
def exceptionReport (v : BitVec 8) (hv : v.toNat < 32) (code : Option Word) : List IsrCall × Bool :=
  let message := exceptionMessages[v.toNat]
  ([.terminalWritestring "EXCEPTION: ", .terminalWritestring message, .terminalWritestring "\n"] ++
    if v = 14 then [.mmuHandlePageFault (code.getD 0)] else [.kpanic message], decide (v = 14))

/-- The handler reports the exception that the stub's number names. -/
theorem isrHandler_eq {regs : Registers} (hno : regs.intNo = v.setWidth 32)
    (herr : v = 14 → regs.errCode = code.getD 0) (hv : v.toNat < 32) :
    isrHandler regs = exceptionReport v hv code := by
  have hnat : regs.intNo.toNat = v.toNat := by
    rw [hno, BitVec.toNat_setWidth, Nat.mod_eq_of_lt (v.isLt.trans (by decide))]
  have h14 : regs.intNo = 14 ↔ v = 14 := by
    rw [← BitVec.toNat_inj, ← BitVec.toNat_inj, hnat]
    exact Iff.rfl
  unfold isrHandler exceptionReport
  simp only [hnat, hv, dif_pos, h14]
  split_ifs with h
  · rw [herr h, decide_eq_true h]
  · rw [decide_eq_false h]

/-- The handler is entered on the kernel's segments with interrupts disabled, is given the
interrupted context, and has used at most 17 words of the stack for that; an exception is
reported under its own name, also where the stub pushes a second error code. -/
theorem atHandler_context (address : Label → Word) (after : CFunction → Word) (v : BitVec 8)
    (hv : v.toNat < 48) (code : Option Word) (hcode : code.isSome = pushesErrorCode v)
    (s : Processor) :
    let e := atHandler (isrStubs address after) v code s
    registersAt e.mem (argument e) =
        (if misstacked v then shifted v code s else interrupted v code s) ∧
      e.seg = kernelSegs (Function.update s.seg .cs 0x08) 0x10 ∧
      e.eflags.getLsbD interruptFlag = false ∧
      (∀ a, 68 ≤ (a - (s.esp - 68)).toNat → e.mem a = s.mem a) ∧
      ∀ h : v.toNat < 32,
        isrHandler (registersAt e.mem (argument e)) = exceptionReport v h code := by
  intro e
  have hregs := atHandler_registers address after v code s hv hcode
  obtain ⟨hseg, hflags⟩ := atHandler_kept address after v code s
  refine ⟨hregs, hseg, ?_, fun a => atHandler_outside address after v code s, fun h => ?_⟩
  · rw [hflags, handlerFlags_interruptFlag]
  · rw [hregs]
    refine isrHandler_eq ?_ ?_ h
    · split_ifs <;> rfl
    · rintro rfl
      rfl

/-- A page fault in a state whose registers are all different. -/
def faultingState : Processor where
  reg
    | .eax => 0x11110001 | .ecx => 2 | .edx => 3 | .ebx => 4 | .esp => 0x8FFF0 | .ebp => 6
    | .esi => 7 | .edi => 8
  seg
    | .cs => 0x08
    | _ => 0x10
  eip := 0x101234
  eflags := 0x202
  mem := fun _ => 0

/-- A page fault with an error code, seen from the handler. -/
theorem atHandler_context_pageFault :
    let e := atHandler (isrStubs (fun _ => 0x100000) fun _ => 0x100100) 14 (some 2) faultingState
    registersAt e.mem (argument e) = interrupted 14 (some 2) faultingState :=
  (atHandler_context (fun _ => 0x100000) (fun _ => 0x100100) 14 (by decide) (some 2) rfl
    faultingState).1

/-- Handlers that do nothing. -/
def idle (f : CFunction) (e : Processor) : Option Processor :=
  if f = .irqHandler ∨ (isrHandler (registersAt e.mem (argument e))).2 = true then some e.skip
  else none

/-- A handler that only returns obeys the calling convention. -/
theorem idle_compiled : Compiled idle where
  returns f e t h := by
    unfold idle at h
    split_ifs at h with hf
    obtain rfl := Option.some.inj h
    exact ⟨rfl, rfl, rfl, rfl, fun _ _ => rfl⟩
  isrHandler e t h := by
    by_contra hhalts
    unfold idle at h
    rw [if_neg (by simp [hhalts])] at h
    cases h

/-- A place for each label. -/
def labelAddress (l : Label) : Word := BitVec.ofNat 32 (labels.idxOf l)

/-- The sample addresses of the stubs are distinct. -/
theorem labelAddress_injective : Function.Injective labelAddress := by
  intro l l' h
  have hlt : ∀ l, labels.idxOf l < 2 ^ 32 := fun l =>
    (List.idxOf_lt_length_of_mem (mem_labels l)).trans (by decide)
  have hidx := congrArg BitVec.toNat h
  unfold labelAddress at hidx
  rw [BitVec.toNat_ofNat, BitVec.toNat_ofNat, Nat.mod_eq_of_lt (hlt l),
    Nat.mod_eq_of_lt (hlt l')] at hidx
  exact (List.idxOf_inj (mem_labels l)).mp hidx

/-- The table as it is before `idt_init`. -/
def zeroIdt : Idt := fun _ => ⟨0, 0, 0, 0, 0⟩

/-- A page fault in the sample state returns to the faulting code. -/
theorem service_resumes_pageFault :
    service (isrStubs labelAddress fun _ => 0x100100) idle
        (idtInit labelAddress 0x200000 zeroIdt).1 14 (some 2) faultingState =
      (idle .isrHandler (atHandler (isrStubs labelAddress fun _ => 0x100100) 14 (some 2)
        faultingState)).map (resumed faultingState) :=
  service_resumes labelAddress_injective (by decide) rfl rfl rfl idle_compiled

end Isr

end AuriOS
