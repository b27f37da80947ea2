import AuriOS.Foundation.InterruptController
import AuriOS.Foundation.Program

/-!
# The interrupt controllers

`src/cpu/pic.c` programs the two 8259A chips, and `irq_handler` of `src/cpu/irq.c` ends each
interrupt before it calls the handler of the line.

`PicSystem` is the kernel at work: the main program with its port accesses, the chips, the devices
on their lines and the processor in the middle of an interrupt, interleaved in any order.
-/

namespace AuriOS

open Pic8259 Program

/-! ### `pic.c` -/

def pic1Command : BitVec 16 := 0x20
def pic1Data : BitVec 16 := 0x21
def pic2Command : BitVec 16 := 0xA0
def pic2Data : BitVec 16 := 0xA1

/-- `outb` to the chips. -/
def picOutb (port : BitVec 16) (value : BitVec 8) (p : Pair) : Pair :=
  if port = pic1Command then { p with master := p.master.writeCommand value }.settle
  else if port = pic1Data then { p with master := p.master.writeData value }.settle
  else if port = pic2Command then { p with slave := p.slave.writeCommand value }.settle
  else if port = pic2Data then { p with slave := p.slave.writeData value }.settle
  else p

/-- `inb` from the data ports: the mask. -/
def picInb (port : BitVec 16) (p : Pair) : BitVec 8 :=
  if port = pic1Data then p.master.imr else p.slave.imr

/-- What the main program does with the chips, an access at a time. -/
inductive PicOp
  /-- `outb(port, value)` -/
  | out (port : BitVec 16) (value : BitVec 8)
  /-- `value = inb(port) & mask` -/
  | inAnd (port : BitVec 16) (mask : BitVec 8)
  /-- `outb(port, value)`, with the value read before -/
  | outValue (port : BitVec 16)
  | sti
  deriving DecidableEq

/-- `io_wait`, a write to an unused port. -/
def ioWait : PicOp := .out 0x80 0

/-- `pic_remap`. -/
def picRemap : List PicOp :=
  [.out pic1Command 0x11, ioWait, .out pic2Command 0x11, ioWait,
    .out pic1Data 0x20, ioWait, .out pic2Data 0x28, ioWait,
    .out pic1Data 0x04, ioWait, .out pic2Data 0x02, ioWait,
    .out pic1Data 0x01, ioWait, .out pic2Data 0x01, ioWait,
    .out pic1Data 0xFF, .out pic2Data 0xFF]

/-- `~(1 << line)`, as far as it reaches a byte. -/
def lineMask (line : BitVec 8) : BitVec 8 := ~~~((1#32 <<< line.toNat).setWidth 8)

/-- `pic_unmask_irq`. -/
def picUnmaskIrq (irqline : BitVec 8) : List PicOp :=
  if irqline < 8 then [.inAnd pic1Data (lineMask irqline), .outValue pic1Data]
  else [.inAnd pic1Data (lineMask 2), .outValue pic1Data,
    .inAnd pic2Data (lineMask (irqline - 8)), .outValue pic2Data]

/-- The port accesses of the boot sequence: `pic_remap`, the lines that are unmasked before the
`sti` and those that are unmasked after it. -/
def picProgram (before after : List (BitVec 8)) : List PicOp :=
  picRemap ++ before.flatMap picUnmaskIrq ++ .sti :: after.flatMap picUnmaskIrq

/-! ### `irq.c` -/

/-- The port accesses of `irq_handler`, in front of the call. -/
def irqHandler (intNo : BitVec 8) : List (BitVec 16 × BitVec 8) :=
  (if 40 ≤ intNo then [(0xA0, 0x20)] else []) ++ [(0x20, 0x20)]

/-! ### Runs -/

/-- Where the processor is. -/
inductive Stage
  | main
  /-- it has seen the output of the master -/
  | acknowledging
  /-- the master has chosen the cascade, and the slave is asked -/
  | cascaded
  /-- in `irq_handler`, with these accesses to go; the last stage is the handler of the line -/
  | handler (intNo : BitVec 8) (writes : List (BitVec 16 × BitVec 8))
  deriving DecidableEq

/-- What happens to the requests: edges on the lines, interrupts with the request that was taken,
and the initialization of a chip, which forgets its edges. -/
inductive PicEvent
  | rise (l : Irq)
  | fall (l : Irq)
  | serve (intNo : BitVec 8) (line : Option Irq)
  | initializeMaster
  | initializeSlave
  deriving DecidableEq

/-- The initialization of a chip, if that is what is written. -/
def initializes (port : BitVec 16) (value : BitVec 8) : List PicEvent :=
  if value.getLsbD 4 then
    if port = pic1Command then [.initializeMaster]
    else if port = pic2Command then [.initializeSlave]
    else []
  else []

/-- The two controllers, the processor in front of them and what is left of the boot program. -/
structure PicSystem where
  pair : Pair
  stage : Stage
  todo : List PicOp
  value : BitVec 8
  interruptFlag : Bool
  log : List PicEvent
  deriving DecidableEq

namespace PicSystem

/-- One access of the main program. -/
def access (op : PicOp) (s : PicSystem) : PicSystem :=
  match op with
  | .out port value =>
    { s with pair := picOutb port value s.pair, log := s.log ++ initializes port value }
  | .inAnd port mask => { s with value := picInb port s.pair &&& mask }
  | .outValue port =>
    { s with pair := picOutb port s.value s.pair, log := s.log ++ initializes port s.value }
  | .sti => { s with interruptFlag := true }

/-- The processor has a vector. -/
def enterHandler (intNo : BitVec 8) (line : Option Irq) (s : PicSystem) : PicSystem :=
  { s with stage := .handler intNo (irqHandler intNo), log := s.log ++ [.serve intNo line] }

/-- The master's answer. -/
def pulse1 (s : PicSystem) : PicSystem :=
  let l := s.pair.pulse1.1
  let t := { s with pair := s.pair.pulse1.2 }
  if s.pair.master.cascade.getLsbD l then { t with stage := .cascaded }
  else t.enterHandler (s.pair.master.vector l) (s.pair.master.request.map .master)

/-- The slave's answer. -/
def pulse2 (s : PicSystem) : PicSystem :=
  { s with pair := s.pair.pulse2.2 }.enterHandler (s.pair.slave.vector s.pair.pulse2.1)
    (s.pair.slave.request.map .slave)

/-- A device changes the level of its line. -/
def device (l : Irq) (high : Bool) (s : PicSystem) : PicSystem :=
  { s with pair := s.pair.setLine l high, log := s.log ++ [if high then .rise l else .fall l] }

end PicSystem

/-- One step: of a device, of the main program, or of the processor in an interrupt. -/
inductive PicStep : PicSystem → PicSystem → Prop
  | device {s} (l : Irq) (high : Bool) (hl : l ≠ .master cascadeLine)
      (hchange : s.pair.isHigh l ≠ high) : PicStep s (s.device l high)
  | main {s} {op : PicOp} {ops : List PicOp} (hstage : s.stage = .main)
      (htodo : s.todo = op :: ops) :
      PicStep s { s.access op with todo := ops }
  | sample {s} (hstage : s.stage = .main) (hflag : s.interruptFlag = true)
      (hint : s.pair.master.int = true) : PicStep s { s with stage := .acknowledging }
  | pulse1 {s} (hstage : s.stage = .acknowledging) : PicStep s s.pulse1
  | pulse2 {s} (hstage : s.stage = .cascaded) : PicStep s s.pulse2
  | endOfInterrupt {s} {intNo : BitVec 8} {port : BitVec 16} {value : BitVec 8}
      {writes : List (BitVec 16 × BitVec 8)}
      (hstage : s.stage = .handler intNo ((port, value) :: writes)) :
      PicStep s { s with pair := picOutb port value s.pair, stage := .handler intNo writes }
  | iret {s} {intNo : BitVec 8} (hstage : s.stage = .handler intNo []) :
      PicStep s { s with stage := .main }

/-! ### What has been programmed -/

/-- The state of the main program, with what it has programmed. -/
structure PicView where
  master : Config
  slave : Config
  value : BitVec 8
  interruptFlag : Bool
  deriving DecidableEq

/-- What the boot program alone decides: configurations, scratch value and interrupt flag. -/
def PicSystem.view (s : PicSystem) : PicView :=
  ⟨s.pair.master.toConfig, s.pair.slave.toConfig, s.value, s.interruptFlag⟩

/-- The same for the configurations alone. -/
def configOutb (port : BitVec 16) (value : BitVec 8) (v : PicView) : PicView :=
  if port = pic1Command then { v with master := v.master.writeCommand value }
  else if port = pic1Data then { v with master := v.master.writeData value }
  else if port = pic2Command then { v with slave := v.slave.writeCommand value }
  else if port = pic2Data then { v with slave := v.slave.writeData value }
  else v

/-- The main program by itself. -/
def PicView.access (op : PicOp) (v : PicView) : PicView :=
  match op with
  | .out port value => configOutb port value v
  | .inAnd port mask =>
    { v with value := (if port = pic1Data then v.master.imr else v.slave.imr) &&& mask }
  | .outValue port => configOutb port v.value v
  | .sti => { v with interruptFlag := true }

section View

variable {s t : PicSystem}

/-- A port write changes the view as the view alone prescribes. -/
theorem picOutb_view (port : BitVec 16) (value : BitVec 8) (s : PicSystem) :
    { s with pair := picOutb port value s.pair }.view = configOutb port value s.view := by
  unfold picOutb configOutb PicSystem.view
  split_ifs <;> simp

/-- An operation of the program changes the view as the view alone prescribes. -/
theorem access_view (op : PicOp) (s : PicSystem) : (s.access op).view = s.view.access op := by
  cases op with
  | out port value => exact picOutb_view port value s
  | inAnd port mask => rfl
  | outValue port => exact picOutb_view port s.value s
  | sti => rfl

/-- A device's line is not seen in the view. -/
theorem device_view (l : Irq) (high : Bool) : (s.device l high).view = s.view := by
  obtain ⟨hmaster, hslave⟩ := Pair.setLine_config s.pair l high
  unfold PicSystem.view PicSystem.device
  rw [hmaster, hslave]

/-- What a pulse changes: the chips, the stage and the log. -/
theorem pulse1_eq (s : PicSystem) : ∃ stage log,
    s.pulse1 = { s with pair := s.pair.pulse1.2, stage := stage, log := log } ∧
      ((s.pair.master.cascade.getLsbD s.pair.pulse1.1 = true ∧ stage = .cascaded ∧ log = s.log) ∨
        (s.pair.master.cascade.getLsbD s.pair.pulse1.1 = false ∧
          stage = .handler (s.pair.master.vector s.pair.pulse1.1)
            (irqHandler (s.pair.master.vector s.pair.pulse1.1)) ∧
          log = s.log ++ [.serve (s.pair.master.vector s.pair.pulse1.1)
            (s.pair.master.request.map .master)])) := by
  unfold PicSystem.pulse1
  dsimp only
  cases s.pair.master.cascade.getLsbD s.pair.pulse1.1
  · exact ⟨_, _, if_neg Bool.false_ne_true, Or.inr ⟨rfl, rfl, rfl⟩⟩
  · exact ⟨_, _, if_pos rfl, Or.inl ⟨rfl, rfl, rfl⟩⟩

/-- The first acknowledge pulse is not seen in the view. -/
theorem pulse1_view : s.pulse1.view = s.view := by
  obtain ⟨hmaster, hslave⟩ := Pair.pulse1_config s.pair
  obtain ⟨stage, log, heq, -⟩ := pulse1_eq s
  rw [heq]
  unfold PicSystem.view
  rw [hmaster, hslave]

/-- The second acknowledge pulse is not seen in the view. -/
theorem pulse2_view : s.pulse2.view = s.view := by
  obtain ⟨hmaster, hslave⟩ := Pair.pulse2_config s.pair
  unfold PicSystem.pulse2 PicSystem.enterHandler PicSystem.view
  rw [hmaster, hslave]

/-- An end of interrupt. -/
def IsEoi (w : BitVec 16 × BitVec 8) : Prop :=
  w = (pic1Command, Chip.endOfInterrupt) ∨ w = (pic2Command, Chip.endOfInterrupt)

/-- The handler writes nothing but ends of interrupt. -/
theorem irqHandler_isEoi (intNo : BitVec 8) : ∀ w ∈ irqHandler intNo, IsEoi w := by
  unfold irqHandler
  split_ifs <;> simp [IsEoi, pic1Command, pic2Command, Chip.endOfInterrupt]

/-- An end of interrupt is not seen in the view. -/
theorem eoi_view {port : BitVec 16} {value : BitVec 8} (h : IsEoi (port, value)) :
    { s with pair := picOutb port value s.pair }.view = s.view := by
  rw [picOutb_view]
  rcases h with h | h <;>
    (obtain ⟨rfl, rfl⟩ := Prod.mk.inj h; rfl)

/-- The main program goes on undisturbed: what is programmed is what the part of it that is done
programs by itself.  The handlers only end interrupts. -/
structure Undisturbed (program : List PicOp) (v₀ : PicView) (s : PicSystem) : Prop where
  view : ∃ executed, program = executed ++ s.todo ∧
    s.view = executed.foldl (fun v op => v.access op) v₀
  eoi : ∀ intNo writes, s.stage = .handler intNo writes → ∀ w ∈ writes, IsEoi w

/-- Whatever step is taken, the view is what the program has made of it so far. -/
theorem Undisturbed.step {program : List PicOp} {v₀ : PicView} (h : Undisturbed program v₀ s)
    (hstep : PicStep s t) : Undisturbed program v₀ t := by
  obtain ⟨executed, hprogram, hview⟩ := h.view
  cases hstep with
  | device l high hl hchange =>
    exact ⟨⟨executed, hprogram, (device_view l high).trans hview⟩, h.eoi⟩
  | main hstage htodo =>
    rename_i op ops
    refine ⟨⟨executed ++ [op], ?_, ?_⟩, fun intNo writes hst => ?_⟩
    · rw [hprogram, htodo, List.append_assoc]
      rfl
    · rw [List.foldl_append, ← hview]
      exact access_view op s
    · have hmain : (s.access op).stage = s.stage := by cases op <;> rfl
      exact absurd (hst.symm.trans (hmain.trans hstage)) (by simp)
  | sample hstage hflag hint =>
    exact ⟨⟨executed, hprogram, hview⟩, fun intNo writes hst => by simp at hst⟩
  | pulse1 hstage =>
    obtain ⟨stage, log, heq, hcases⟩ := pulse1_eq s
    refine ⟨⟨executed, ?_, pulse1_view.trans hview⟩, fun intNo writes hst => ?_⟩
    · rw [heq]
      exact hprogram
    · rw [heq] at hst
      rcases hcases with ⟨-, hcascaded, -⟩ | ⟨-, hhandler, -⟩
      · exact absurd (hcascaded.symm.trans hst) (by simp)
      · obtain ⟨rfl, rfl⟩ := Stage.handler.inj (hhandler.symm.trans hst)
        exact irqHandler_isEoi _
  | pulse2 hstage =>
    refine ⟨⟨executed, hprogram, pulse2_view.trans hview⟩, fun intNo writes hst => ?_⟩
    obtain ⟨rfl, rfl⟩ := Stage.handler.inj hst
    exact irqHandler_isEoi _
  | endOfInterrupt hstage =>
    have hw := h.eoi _ _ hstage
    refine ⟨⟨executed, hprogram, ?_⟩, fun intNo writes hst => ?_⟩
    · exact (eoi_view (hw _ (List.mem_cons_self))).trans hview
    · obtain ⟨rfl, rfl⟩ := Stage.handler.inj hst
      exact fun w hmem => hw w (List.mem_cons_of_mem _ hmem)
  | iret hstage => exact ⟨⟨executed, hprogram, hview⟩, fun intNo writes hst => by simp at hst⟩

end View

/-- The chips as `pic_remap` leaves them, with these masks. -/
def masterConfig (imr : BitVec 8) : Config :=
  { phase := .ready, imr := imr, base := 0x20, cascade := 0x04, autoEoi := false }

/-- The slave after `pic_remap`, with this mask. -/
def slaveConfig (imr : BitVec 8) : Config :=
  { phase := .ready, imr := imr, base := 0x28, cascade := 0x02, autoEoi := false }

/-- Both controllers are as `pic_remap` leaves them, but for their masks. -/
def PicView.Remapped (v : PicView) : Prop :=
  v.master = masterConfig v.master.imr ∧ v.slave = slaveConfig v.slave.imr

/-- What `pic_unmask_irq` is made of, and the `sti`. -/
inductive PicOp.Unmasks : PicOp → Prop
  | inAnd1 (mask : BitVec 8) : Unmasks (.inAnd pic1Data mask)
  | inAnd2 (mask : BitVec 8) : Unmasks (.inAnd pic2Data mask)
  | outValue1 : Unmasks (.outValue pic1Data)
  | outValue2 : Unmasks (.outValue pic2Data)
  | sti : Unmasks .sti

/-- The main program's view with the masks only. -/
def unmaskView (imr₁ imr₂ value : BitVec 8) (flag : Bool) : PicView :=
  ⟨masterConfig imr₁, slaveConfig imr₂, value, flag⟩

section Programmed

variable {s t : PicSystem} {v v₀ : PicView} {before after : List (BitVec 8)}

/-- The remapped views differ only in their masks, scratch value and interrupt flag. -/
theorem remapped_iff :
    v.Remapped ↔ ∃ imr₁ imr₂ value flag, v = unmaskView imr₁ imr₂ value flag := by
  constructor
  · rintro ⟨hmaster, hslave⟩
    exact ⟨v.master.imr, v.slave.imr, v.value, v.interruptFlag, by
      unfold unmaskView
      rw [← hmaster, ← hslave]⟩
  · rintro ⟨imr₁, imr₂, value, flag, rfl⟩
    exact ⟨rfl, rfl⟩

/-- `pic_remap` starts from any state of the chips. -/
theorem picRemap_eq (v : PicView) : picRemap.foldl (fun v op => v.access op) v =
    unmaskView 0xFF 0xFF v.value v.interruptFlag := rfl

/-- Unmasking a line only writes masks. -/
theorem picUnmaskIrq_unmasks (line : BitVec 8) : ∀ op ∈ picUnmaskIrq line, op.Unmasks := by
  unfold picUnmaskIrq
  split_ifs <;>
    simp [PicOp.Unmasks.inAnd1, PicOp.Unmasks.inAnd2, PicOp.Unmasks.outValue1,
      PicOp.Unmasks.outValue2]

/-- With the chips ready, the data ports hold the masks. -/
theorem PicView.Remapped.access (h : v.Remapped) {op : PicOp} (hop : op.Unmasks) :
    (v.access op).Remapped := by
  obtain ⟨imr₁, imr₂, value, flag, rfl⟩ := remapped_iff.mp h
  cases hop <;> exact ⟨rfl, rfl⟩

/-- Unmasking operations leave the controllers remapped. -/
theorem PicView.Remapped.foldl (h : v.Remapped) {ops : List PicOp} (hops : ∀ op ∈ ops, op.Unmasks) :
    (ops.foldl (fun v op => v.access op) v).Remapped := by
  induction ops generalizing v with
  | nil => exact h
  | cons op ops ih =>
    exact ih (h.access (hops op List.mem_cons_self)) fun op hop =>
      hops op (List.mem_cons_of_mem _ hop)

/-- Only `sti` changes the interrupt flag. -/
theorem access_interruptFlag {op : PicOp} (hop : op ≠ .sti) :
    (v.access op).interruptFlag = v.interruptFlag := by
  have hout : ∀ port value, (configOutb port value v).interruptFlag = v.interruptFlag := by
    intro port value
    unfold configOutb
    split_ifs <;> rfl
  cases op with
  | out port value => exact hout port value
  | inAnd port mask => rfl
  | outValue port => exact hout port v.value
  | sti => exact absurd rfl hop

/-- Without `sti` the interrupt flag stays as it was. -/
theorem foldl_interruptFlag {ops : List PicOp} (hops : .sti ∉ ops) :
    (ops.foldl (fun v op => v.access op) v).interruptFlag = v.interruptFlag := by
  induction ops generalizing v with
  | nil => rfl
  | cons op ops ih =>
    rw [List.mem_cons, not_or] at hops
    exact (ih hops.2).trans (access_interruptFlag (Ne.symm hops.1))

/-- Interrupts are enabled behind `pic_remap` only. -/
theorem remapped_of_interruptFlag {executed rest : List PicOp}
    (hprogram : picProgram before after = executed ++ rest) (hv₀ : v₀.interruptFlag = false)
    (hflag : (executed.foldl (fun v op => v.access op) v₀).interruptFlag = true) :
    (executed.foldl (fun v op => v.access op) v₀).Remapped := by
  unfold picProgram at hprogram
  rw [List.append_assoc, List.append_eq_append_iff] at hprogram
  rcases hprogram with ⟨ops, rfl, htail⟩ | ⟨ops, hremap, -⟩
  · rw [List.foldl_append, picRemap_eq]
    refine PicView.Remapped.foldl ⟨rfl, rfl⟩ fun op hop => ?_
    have hmem : op ∈ before.flatMap picUnmaskIrq ++ .sti :: after.flatMap picUnmaskIrq := by
      rw [htail]
      exact List.mem_append_left _ hop
    rw [List.mem_append, List.mem_cons, List.mem_flatMap, List.mem_flatMap] at hmem
    rcases hmem with ⟨line, -, hop⟩ | rfl | ⟨line, -, hop⟩
    · exact picUnmaskIrq_unmasks line op hop
    · exact .sti
    · exact picUnmaskIrq_unmasks line op hop
  · have hsti : PicOp.sti ∉ executed := fun hmem =>
      absurd (hremap ▸ List.mem_append_left ops hmem) (by decide)
    rw [foldl_interruptFlag hsti, hv₀] at hflag
    exact absurd hflag Bool.false_ne_true

end Programmed

/-! ### What is in service -/

/-- In `irq_handler`, what has been taken into service has its end of interrupt still to come. -/
inductive Serving : List (BitVec 16 × BitVec 8) → Finset (Fin 8) → Finset (Fin 8) → Prop
  | done : Serving [] ∅ ∅
  | master {m : Finset (Fin 8)} (hm : m = ∅ ∨ ∃ l, m = {l}) :
      Serving [(pic1Command, Chip.endOfInterrupt)] m ∅
  | slave {m : Finset (Fin 8)} (hm : m = ∅ ∨ ∃ l, m = {l}) :
      Serving [(pic2Command, Chip.endOfInterrupt), (pic1Command, Chip.endOfInterrupt)]
        {cascadeLine} m

/-- With no call open, nothing is in service. -/
theorem Serving.of_nil {m sl : Finset (Fin 8)} (h : Serving [] m sl) : m = ∅ ∧ sl = ∅ := by
  cases h
  exact ⟨rfl, rfl⟩

/-- An end of interrupt is for what it was meant for. -/
theorem Serving.endOfInterrupt {port : BitVec 16} {value : BitVec 8}
    {writes : List (BitVec 16 × BitVec 8)} {p : Pair}
    (h : Serving ((port, value) :: writes) p.master.isr p.slave.isr) :
    Serving writes (picOutb port value p).master.isr (picOutb port value p).slave.isr := by
  obtain ⟨m, hm⟩ : ∃ m, p.master.isr = m := ⟨_, rfl⟩
  obtain ⟨sl, hsl⟩ : ∃ sl, p.slave.isr = sl := ⟨_, rfl⟩
  rw [hm, hsl] at h
  cases h with
  | master hone =>
    have hwritten : (picOutb pic1Command Chip.endOfInterrupt p).master.isr = ∅ := by
      refine (Pair.settle_isr _).trans ?_
      rw [← hm] at hone
      exact congrArg Chip.isr (Chip.writeCommand_endOfInterrupt hone)
    have hother : (picOutb pic1Command Chip.endOfInterrupt p).slave.isr = ∅ := hsl
    rw [hwritten, hother]
    exact .done
  | slave hone =>
    have hwritten : (picOutb pic2Command Chip.endOfInterrupt p).slave.isr = ∅ := by
      rw [← hsl] at hone
      exact congrArg Chip.isr (Chip.writeCommand_endOfInterrupt hone)
    have hother : (picOutb pic2Command Chip.endOfInterrupt p).master.isr = {cascadeLine} :=
      (Pair.settle_isr _).trans hm
    rw [hwritten, hother]
    exact .master (Or.inr ⟨_, rfl⟩)

/-- The registers in service in every stage; the vector in `irq_handler` is one of the sixteen. -/
structure InService (s : PicSystem) : Prop where
  flag : s.interruptFlag = false → s.stage = .main
  stage : match s.stage with
    | .main | .acknowledging => s.pair.master.isr = ∅ ∧ s.pair.slave.isr = ∅
    | .cascaded => s.pair.master.isr = {cascadeLine} ∧ s.pair.slave.isr = ∅
    | .handler intNo writes => 32 ≤ intNo.toNat ∧ intNo.toNat < 48 ∧
        Serving writes s.pair.master.isr s.pair.slave.isr

/-- The command ports are written in `pic_remap` only, to begin the initialization. -/
def PicOp.KeepsService : PicOp → Prop
  | .out port value => value.getLsbD 4 = true ∨ port ≠ pic1Command ∧ port ≠ pic2Command
  | .outValue port => port ≠ pic1Command ∧ port ≠ pic2Command
  | _ => True

section InService

variable {s t : PicSystem} {v₀ : PicView} {before after : List (BitVec 8)}

/-- Every operation of the boot program leaves the services alone. -/
theorem keepsService_of_mem {op : PicOp} (hop : op ∈ picProgram before after) :
    op.KeepsService := by
  have hunmask : ∀ {op : PicOp}, op.Unmasks → op.KeepsService := by
    rintro _ (_ | _ | _ | _ | _)
    · trivial
    · trivial
    · exact ⟨by decide, by decide⟩
    · exact ⟨by decide, by decide⟩
    · trivial
  have hremap : ∀ op ∈ picRemap, op.KeepsService := by
    simp [picRemap, ioWait, PicOp.KeepsService, pic1Command, pic2Command, pic1Data, pic2Data]
  unfold picProgram at hop
  rw [List.mem_append, List.mem_append, List.mem_cons, List.mem_flatMap, List.mem_flatMap] at hop
  rcases hop with (hop | ⟨line, -, hop⟩) | rfl | ⟨line, -, hop⟩
  · exact hremap op hop
  · exact hunmask (picUnmaskIrq_unmasks line op hop)
  · trivial
  · exact hunmask (picUnmaskIrq_unmasks line op hop)

/-- An initialization command leaves the in-service register alone. -/
theorem writeCommand_isr {c : Chip} {b : BitVec 8} (hb : b.getLsbD 4 = true) :
    (c.writeCommand b).isr = c.isr := by
  unfold Chip.writeCommand
  simp [hb]

/-- A write that is no end of interrupt leaves both in-service registers alone. -/
theorem picOutb_isr {port : BitVec 16} {value : BitVec 8} {p : Pair}
    (h : value.getLsbD 4 = true ∨ port ≠ pic1Command ∧ port ≠ pic2Command) :
    (picOutb port value p).master.isr = p.master.isr ∧
      (picOutb port value p).slave.isr = p.slave.isr := by
  unfold picOutb
  split_ifs with h1 h2 h3 h4
  · have hb := h.resolve_right fun hport => hport.1 h1
    exact ⟨(Pair.settle_isr _).trans (writeCommand_isr hb), rfl⟩
  · exact ⟨Pair.settle_isr _, rfl⟩
  · have hb := h.resolve_right fun hport => hport.2 h3
    exact ⟨Pair.settle_isr _, writeCommand_isr hb⟩
  · exact ⟨Pair.settle_isr _, rfl⟩
  · exact ⟨rfl, rfl⟩

/-- The boot program's operations leave both in-service registers alone. -/
theorem access_isr {op : PicOp} (h : op.KeepsService) (s : PicSystem) :
    (s.access op).pair.master.isr = s.pair.master.isr ∧
      (s.access op).pair.slave.isr = s.pair.slave.isr := by
  cases op with
  | out port value => exact picOutb_isr h
  | inAnd port mask => exact ⟨rfl, rfl⟩
  | outValue port => exact picOutb_isr (Or.inr h)
  | sti => exact ⟨rfl, rfl⟩

/-- A master's line is ended at the master. -/
theorem irqHandler_master : ∀ l : Fin 8, irqHandler (0x20 ||| BitVec.ofNat 8 l) =
      [(pic1Command, Chip.endOfInterrupt)] ∧
    (0x20 ||| BitVec.ofNat 8 l : BitVec 8).toNat = 32 + l := by
  decide

/-- A slave's line is ended at the slave and then at the master. -/
theorem irqHandler_slave : ∀ l : Fin 8, irqHandler (0x28 ||| BitVec.ofNat 8 l) =
      [(pic2Command, Chip.endOfInterrupt), (pic1Command, Chip.endOfInterrupt)] ∧
    (0x28 ||| BitVec.ofNat 8 l : BitVec 8).toNat = 40 + l := by
  decide

/-- The cascade wiring selects line 2 alone. -/
theorem cascade_getLsbD : ∀ l : Fin 8, (0x04 : BitVec 8).getLsbD l = decide (l = cascadeLine) := by
  decide

/-- The first pulse takes at most one input into service. -/
theorem InService.pulse1 (hmaster : s.view.master = masterConfig s.view.master.imr)
    (hisr : s.pair.master.isr = ∅ ∧ s.pair.slave.isr = ∅) (hflag : s.interruptFlag = true) :
    InService s.pulse1 := by
  have hconfig : s.pair.master.toConfig = masterConfig s.view.master.imr := hmaster
  have hauto : s.pair.master.autoEoi = false := congrArg Config.autoEoi hconfig
  have hcascade : s.pair.master.cascade = 0x04 := congrArg Config.cascade hconfig
  have hbase : s.pair.master.base = 0x20 := congrArg Config.base hconfig
  obtain ⟨stage, log, heq, hcases⟩ := pulse1_eq s
  have hvector : ∀ l, s.pair.master.vector l = 0x20 ||| BitVec.ofNat 8 l := by
    intro l
    unfold Config.vector
    rw [hbase]
  have hpair : s.pair.pulse1.2.master.isr = s.pair.master.acknowledge.2.isr ∧
      s.pair.pulse1.2.slave.isr = ∅ := ⟨Pair.settle_isr _, hisr.2⟩
  have hline : s.pair.pulse1.1 = s.pair.master.acknowledge.1 := rfl
  rw [heq]
  refine ⟨fun hoff => absurd (hflag.symm.trans hoff) (by decide), ?_⟩
  dsimp only
  rw [hpair.1, hpair.2]
  rw [hcascade, cascade_getLsbD, hvector, hline] at hcases
  obtain ⟨hwrites, hnat⟩ := irqHandler_master s.pair.master.acknowledge.1
  obtain ⟨-, htaken, -⟩ | ⟨-, hseven, hsame⟩ := Chip.acknowledge_spec hisr.1 hauto
  · rcases hcases with ⟨hl, hstage, -⟩ | ⟨-, hstage, -⟩
    · rw [hstage, htaken, of_decide_eq_true hl]
      exact ⟨rfl, rfl⟩
    · rw [hstage, hwrites, htaken]
      exact ⟨by omega, by omega, .master (Or.inr ⟨_, rfl⟩)⟩
  · rcases hcases with ⟨hl, -, -⟩ | ⟨-, hstage, -⟩
    · rw [hseven] at hl
      exact absurd hl (by decide)
    · rw [hstage, hwrites, hsame]
      exact ⟨by omega, by omega, .master (Or.inl hisr.1)⟩

/-- So does the second pulse. -/
theorem InService.pulse2 (hslave : s.view.slave = slaveConfig s.view.slave.imr)
    (hisr : s.pair.master.isr = {cascadeLine} ∧ s.pair.slave.isr = ∅)
    (hflag : s.interruptFlag = true) : InService s.pulse2 := by
  have hconfig : s.pair.slave.toConfig = slaveConfig s.view.slave.imr := hslave
  have hauto : s.pair.slave.autoEoi = false := congrArg Config.autoEoi hconfig
  have hbase : s.pair.slave.base = 0x28 := congrArg Config.base hconfig
  have hvector : s.pair.slave.vector s.pair.pulse2.1 =
      0x28 ||| BitVec.ofNat 8 s.pair.slave.acknowledge.1 := by
    unfold Config.vector
    rw [hbase]
    rfl
  have hmaster : s.pair.pulse2.2.master.isr = {cascadeLine} := (Pair.settle_isr _).trans hisr.1
  obtain ⟨hwrites, hnat⟩ := irqHandler_slave s.pair.slave.acknowledge.1
  refine ⟨fun hoff => absurd (hflag.symm.trans hoff) (by decide), ?_⟩
  change _ ∧ _ ∧ Serving (irqHandler (s.pair.slave.vector s.pair.pulse2.1))
    s.pair.pulse2.2.master.isr
    s.pair.slave.acknowledge.2.isr
  rw [hvector, hwrites, hnat, hmaster]
  refine ⟨by omega, by omega, .slave ?_⟩
  obtain ⟨-, htaken, -⟩ | ⟨-, -, hsame⟩ := Chip.acknowledge_spec hisr.2 hauto
  · exact Or.inr ⟨_, htaken⟩
  · rw [hsame]
    exact Or.inl hisr.2

/-- Every step keeps the services nested as the calls are. -/
theorem InService.step (h : InService s) (hu : Undisturbed (picProgram before after) v₀ s)
    (hv₀ : v₀.interruptFlag = false) (hstep : PicStep s t) : InService t := by
  obtain ⟨executed, hprogram, hview⟩ := hu.view
  have hon : s.stage ≠ .main → s.interruptFlag = true := by
    intro hstage
    by_contra hoff
    exact hstage (h.flag (Bool.eq_false_of_not_eq_true hoff))
  have hremapped : s.interruptFlag = true → s.view.Remapped := by
    intro hflag
    rw [hview]
    refine remapped_of_interruptFlag hprogram hv₀ ?_
    rw [← hview]
    exact hflag
  have hstages := h.stage
  cases hstep with
  | device l high hl hchange =>
    obtain ⟨hmaster, hslave⟩ := Pair.setLine_isr s.pair l high
    refine ⟨h.flag, ?_⟩
    change match s.stage with
      | .main | .acknowledging => _
      | .cascaded => _
      | .handler _ _ => _
    unfold PicSystem.device
    dsimp only
    rw [hmaster, hslave]
    exact hstages
  | main hstage htodo =>
    rename_i op ops
    rw [hstage] at hstages
    have hop : op.KeepsService := keepsService_of_mem (by
      rw [hprogram, htodo]
      exact List.mem_append_right _ List.mem_cons_self)
    have hmain : (s.access op).stage = .main := by
      rw [← hstage]
      cases op <;> rfl
    obtain ⟨hmaster, hslave⟩ := access_isr hop s
    refine ⟨fun _ => hmain, ?_⟩
    dsimp only
    rw [hmain, hmaster, hslave]
    exact hstages
  | sample hstage hflag hint =>
    rw [hstage] at hstages
    exact ⟨fun hoff => absurd (hflag.symm.trans hoff) (by decide), hstages⟩
  | pulse1 hstage =>
    rw [hstage] at hstages
    have hflag := hon (by rw [hstage]; exact Stage.noConfusion)
    exact InService.pulse1 (hremapped hflag).1 hstages hflag
  | pulse2 hstage =>
    rw [hstage] at hstages
    have hflag := hon (by rw [hstage]; exact Stage.noConfusion)
    exact InService.pulse2 (hremapped hflag).2 hstages hflag
  | endOfInterrupt hstage =>
    rw [hstage] at hstages
    have hflag := hon (by rw [hstage]; exact Stage.noConfusion)
    obtain ⟨hlow, hhigh, hserving⟩ := hstages
    refine ⟨fun hoff => absurd (hflag.symm.trans hoff) (by decide), hlow, hhigh, ?_⟩
    exact hserving.endOfInterrupt
  | iret hstage =>
    rw [hstage] at hstages
    have hflag := hon (by rw [hstage]; exact Stage.noConfusion)
    refine ⟨fun hoff => absurd (hflag.symm.trans hoff) (by decide), ?_⟩
    exact hstages.2.2.of_nil

end InService

end AuriOS
